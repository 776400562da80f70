import MatrycaPlumber.Text.Basic

/-! The nodes of an outline as the writers see them. -/
namespace Plumber.OutlineModels

open PyText

/-- A validated outline node; the properties are in the order in which they are
written. The schema fields have been merged into the properties. -/
inductive OutlineNode where
  | mk (text : Str) (properties : List (Str × Str)) (children : List OutlineNode)

def OutlineNode.text : OutlineNode → Str
  | .mk text _ _ => text

def OutlineNode.properties : OutlineNode → List (Str × Str)
  | .mk _ properties _ => properties

def OutlineNode.children : OutlineNode → List OutlineNode
  | .mk _ _ children => children

mutual

/-- The nodes of an outline, depth first. -/
def OutlineNode.preorder : OutlineNode → List OutlineNode
  | .mk text properties children => .mk text properties children :: preorderAll children

def preorderAll : List OutlineNode → List OutlineNode
  | [] => []
  | node :: nodes => node.preorder ++ preorderAll nodes

end

end Plumber.OutlineModels
