import MatrycaPlumber.System.Forest
import MatrycaPlumber.Text.Basic
import Mathlib.Data.Char
import Mathlib.Data.List.Dedup
import Mathlib.Data.List.Lex
import Mathlib.Data.List.Sort
import Mathlib.Data.Prod.Lex

/-! The topology of a graph snapshot, and what its validator says about the order
of the nodes and of the references. -/
namespace Plumber.SessionTopologyModels

open PyText Forest

/-- `_OPAQUE_ID`, with the bound on the length. -/
def isOpaqueId (value : Str) : Bool :=
  match value with
  | [] => false
  | first :: rest =>
      decide (value.length ≤ 128) && first.isAlphanum &&
        rest.all fun c => c.isAlphanum || c == '.' || c == '_' || c == ':' || c == '-'

structure OpaqueId where
  text : Str
  valid : isOpaqueId text = true
  deriving DecidableEq

inductive NodeKind
  | page
  | block
  deriving DecidableEq

structure GraphTopologyNode where
  id : OpaqueId
  kind : NodeKind
  parentId : Option OpaqueId
  ordinal : ℕ
  deriving DecidableEq

structure GraphTopologyReference where
  sourceId : OpaqueId
  targetId : OpaqueId
  deriving DecidableEq

structure GraphTopologyResult where
  topologyId : OpaqueId
  nodes : List GraphTopologyNode
  edges : List GraphTopologyReference
  sourceRevision : OpaqueId
  nodes_length : nodes.length ≤ 1024
  edges_length : edges.length ≤ 4096

/-- The dictionaries of the validator's loop. -/
structure Progress where
  seen : List OpaqueId
  nextOrdinal : Option OpaqueId → ℕ

def Progress.start : Progress := ⟨[], fun _ => 0⟩

def acceptNode (s : Progress) (node : GraphTopologyNode) : Except String Progress :=
  if node.id ∈ s.seen then .error "topology node identifiers must be unique"
  else if node.kind = .page ∧ node.parentId ≠ none then
    .error "topology page nodes must be roots"
  else if node.kind = .block ∧ node.parentId = none then
    .error "topology block nodes require a parent"
  else if ∃ parent ∈ node.parentId, parent ∉ s.seen then
    .error "topology nodes must use canonical preorder"
  else if node.ordinal ≠ s.nextOrdinal node.parentId then
    .error "topology sibling ordinals must be contiguous"
  else .ok
    { seen := s.seen ++ [node.id]
      nextOrdinal := Function.update s.nextOrdinal node.parentId (node.ordinal + 1) }

def acceptNodes (s : Progress) : List GraphTopologyNode → Except String Progress
  | [] => .ok s
  | node :: nodes =>
      match acceptNode s node with
      | .error message => .error message
      | .ok next => acceptNodes next nodes

def referenceKind : Str := "reference".toList

def edgeKey (edge : GraphTopologyReference) : Str ×ₗ Str ×ₗ Str :=
  toLex (referenceKind, toLex (edge.sourceId.text, edge.targetId.text))

/-- `GraphTopologyResult._validate_canonical_preorder`. -/
def validateCanonicalPreorder (r : GraphTopologyResult) : Except String Unit :=
  match acceptNodes .start r.nodes with
  | .error message => .error message
  | .ok s =>
      if ∃ edge ∈ r.edges, edge.sourceId ∉ s.seen ∨ edge.targetId ∉ s.seen then
        .error "topology references must target declared topology nodes"
      else if r.edges.map edgeKey ≠ (r.edges.map edgeKey).dedup.insertionSort (· ≤ ·) then
        .error "topology references must use canonical lexical order"
      else .ok ()

/-! ## The forest of the parent ids -/

/-- The nodes with one parent, by their ordinals. -/
def children (nodes : List GraphTopologyNode) (parent : Option OpaqueId) :
    List GraphTopologyNode :=
  (siblings GraphTopologyNode.parentId nodes parent).insertionSort fun n m => n.ordinal ≤ m.ordinal

/-- The depth-first preorder of the forest. No path in it is longer than the list. -/
def depthFirst (nodes : List GraphTopologyNode) : List GraphTopologyNode :=
  (children nodes none).flatMap (preorder (fun n => children nodes (some n.id)) nodes.length)

structure Canonical (r : GraphTopologyResult) : Prop where
  order : r.nodes = depthFirst r.nodes
  contiguous : ∀ node ∈ r.nodes, ∃ run, run <:+: r.nodes ∧
    ∀ n, n ∈ run ↔ Below GraphTopologyNode.id GraphTopologyNode.parentId r.nodes n node
  edges_sorted : (r.edges.map edgeKey).Pairwise (· < ·)
  edges_declared : ∀ edge ∈ r.edges,
    edge.sourceId ∈ r.nodes.map (·.id) ∧ edge.targetId ∈ r.nodes.map (·.id)

/-- The test of the fixture validator, for any number of roots: each node hangs
from an ancestor of the node before it, or from that node itself. -/
def ancestorsOpen (nodes : List GraphTopologyNode) : Bool :=
  (attachAll GraphTopologyNode.id GraphTopologyNode.parentId [] nodes).isSome

/-! ## What is accepted -/

/-- What the dictionaries say of the nodes that have been accepted. -/
structure Progress.Of (nodes : List GraphTopologyNode) (s : Progress) : Prop where
  seen_eq : s.seen = nodes.map (·.id)
  nodup : s.seen.Nodup
  ordinal_lt : ∀ node ∈ nodes, node.ordinal < s.nextOrdinal node.parentId
  sorted : ∀ p, (siblings GraphTopologyNode.parentId nodes p).Pairwise (·.ordinal < ·.ordinal)

theorem Progress.of_start : Progress.start.Of [] := by
  constructor
  · rfl
  · exact List.nodup_nil
  · intro node hNode
    cases hNode
  · intro p
    exact List.Pairwise.nil

theorem acceptNode_eq_ok {s next : Progress} {node : GraphTopologyNode}
    (h : acceptNode s node = .ok next) :
    node.id ∉ s.seen ∧ node.ordinal = s.nextOrdinal node.parentId ∧
      next = { seen := s.seen ++ [node.id]
               nextOrdinal := Function.update s.nextOrdinal node.parentId (node.ordinal + 1) } := by
  rw [acceptNode] at h
  split at h
  next => cases h
  next hNew =>
    split at h
    next => cases h
    next =>
      split at h
      next => cases h
      next =>
        split at h
        next => cases h
        next =>
          split at h
          next => cases h
          next hOrdinal =>
            cases h
            exact ⟨hNew, not_not.mp hOrdinal, rfl⟩

/-- An accepted node comes after its siblings. -/
theorem Progress.Of.acceptNode {nodes : List GraphTopologyNode} {s next : Progress}
    {node : GraphTopologyNode} (hOf : s.Of nodes)
    (h : SessionTopologyModels.acceptNode s node = .ok next) : next.Of (nodes ++ [node]) := by
  obtain ⟨hNew, hOrdinal, rfl⟩ := acceptNode_eq_ok h
  constructor
  · simp [hOf.seen_eq]
  · exact List.nodup_append.mpr ⟨hOf.nodup, List.nodup_singleton _, by
      intro i hI j hJ hEq
      rw [List.mem_singleton.mp hJ] at hEq
      exact hNew (hEq ▸ hI)⟩
  · intro n hN
    dsimp only
    by_cases hParent : n.parentId = node.parentId
    · rw [hParent, Function.update_self]
      rcases List.mem_append.mp hN with hN | hN
      · have hLt := hOf.ordinal_lt n hN
        rw [hParent, ← hOrdinal] at hLt
        omega
      · rw [List.mem_singleton.mp hN]
        omega
    · rw [Function.update_of_ne hParent]
      rcases List.mem_append.mp hN with hN | hN
      · exact hOf.ordinal_lt n hN
      · exact absurd (congrArg _ (List.mem_singleton.mp hN)) hParent
  · intro p
    rw [siblings_append, List.pairwise_append]
    refine ⟨hOf.sorted p, ?_, ?_⟩
    · exact List.Pairwise.sublist List.filter_sublist (List.pairwise_singleton _ _)
    · intro n hN m hM
      obtain ⟨hN, hParent⟩ := mem_siblings.mp hN
      obtain ⟨hM, hParent'⟩ := mem_siblings.mp hM
      rw [List.mem_singleton.mp hM] at hParent' ⊢
      have hLt := hOf.ordinal_lt n hN
      rwa [hParent, ← hParent', ← hOrdinal] at hLt

theorem Progress.Of.acceptNodes {rest : List GraphTopologyNode} :
    ∀ {nodes : List GraphTopologyNode} {s last : Progress}, s.Of nodes →
      SessionTopologyModels.acceptNodes s rest = .ok last → last.Of (nodes ++ rest) := by
  induction rest with
  | nil =>
      intro nodes s last hOf h
      cases h
      rwa [List.append_nil]
  | cons node rest ih =>
      intro nodes s last hOf h
      rw [SessionTopologyModels.acceptNodes] at h
      split at h
      next => cases h
      next next hNode =>
        rw [List.append_cons]
        exact ih (hOf.acceptNode hNode) h

/-- The nodes that the validator has seen, and what it says of the references. -/
theorem validateCanonicalPreorder_eq_ok {r : GraphTopologyResult}
    (h : validateCanonicalPreorder r = .ok ()) :
    ∃ s : Progress, s.Of r.nodes ∧
      (∀ edge ∈ r.edges, edge.sourceId ∈ s.seen ∧ edge.targetId ∈ s.seen) ∧
        r.edges.map edgeKey = (r.edges.map edgeKey).dedup.insertionSort (· ≤ ·) := by
  rw [validateCanonicalPreorder] at h
  split at h
  next => cases h
  next s hNodes =>
    split at h
    next => cases h
    next hDeclared =>
      split at h
      next => cases h
      next hSorted =>
        refine ⟨s, Progress.of_start.acceptNodes hNodes, ?_, not_not.mp hSorted⟩
        intro edge hEdge
        by_contra hNot
        exact hDeclared ⟨edge, hEdge, not_and_or.mp hNot⟩

section Accepted

variable {r : GraphTopologyResult} (h : validateCanonicalPreorder r = .ok ())

include h

theorem nodup_ids : (r.nodes.map (·.id)).Nodup := by
  obtain ⟨s, hOf, -, -⟩ := validateCanonicalPreorder_eq_ok h
  rw [← hOf.seen_eq]
  exact hOf.nodup

/-- The children of a node stand in the order of their ordinals. -/
theorem children_eq_siblings (p : Option OpaqueId) :
    children r.nodes p = siblings GraphTopologyNode.parentId r.nodes p := by
  obtain ⟨s, hOf, -, -⟩ := validateCanonicalPreorder_eq_ok h
  apply List.Pairwise.insertionSort_eq
  exact (hOf.sorted p).imp fun hLt => hLt.le

theorem edges_sorted : (r.edges.map edgeKey).Pairwise (· < ·) := by
  obtain ⟨s, -, -, hSorted⟩ := validateCanonicalPreorder_eq_ok h
  rw [hSorted]
  have hNodup : ((r.edges.map edgeKey).dedup.insertionSort (· ≤ ·)).Nodup :=
    (List.perm_insertionSort _ _).nodup_iff.mpr (List.nodup_dedup _)
  have hLe := List.pairwise_insertionSort (· ≤ ·) (r.edges.map edgeKey).dedup
  exact (hLe.and hNodup).imp fun hKeys => lt_of_le_of_ne hKeys.1 hKeys.2

theorem edges_declared : ∀ edge ∈ r.edges,
    edge.sourceId ∈ r.nodes.map (·.id) ∧ edge.targetId ∈ r.nodes.map (·.id) := by
  obtain ⟨s, hOf, hDeclared, -⟩ := validateCanonicalPreorder_eq_ok h
  rw [← hOf.seen_eq]
  exact hDeclared

/-- An accepted list is the preorder of its forest if it is the preorder of any. -/
theorem eq_depthFirst_iff : r.nodes = depthFirst r.nodes ↔
    IsPreorder GraphTopologyNode.id GraphTopologyNode.parentId none r.nodes := by
  constructor
  · intro hEq
    rw [hEq, depthFirst]
    simp only [children_eq_siblings h]
    apply IsPreorder.flatMap_preorder
    · exact fun node child hChild => (mem_siblings.mp hChild).2
    · exact fun node hNode => (mem_siblings.mp hNode).2
  · intro hPreorder
    rw [depthFirst]
    simp only [children_eq_siblings h]
    apply hPreorder.eq_flatMap_preorder (nodup_ids h)
    · exact fun node _ hEq => nomatch hEq
    · exact fun node _ => rfl
    · exact le_rfl

/-- One preorder has one order of its nodes. -/
theorem depthFirst_eq_of_perm {r' : GraphTopologyResult}
    (h' : validateCanonicalPreorder r' = .ok ()) (hPerm : r.nodes.Perm r'.nodes) :
    depthFirst r.nodes = depthFirst r'.nodes := by
  have hChildren (p : Option OpaqueId) : children r.nodes p = children r'.nodes p := by
    obtain ⟨s, hOf, -, -⟩ := validateCanonicalPreorder_eq_ok h
    obtain ⟨s', hOf', -, -⟩ := validateCanonicalPreorder_eq_ok h'
    rw [children_eq_siblings h, children_eq_siblings h']
    apply List.Perm.eq_of_pairwise _ (hOf.sorted p) (hOf'.sorted p) (hPerm.filter _)
    intro n m _ _ hLt hLt'
    omega
  rw [depthFirst, depthFirst, hPerm.length_eq]
  simp only [hChildren]

theorem canonical_iff_ancestorsOpen : Canonical r ↔ ancestorsOpen r.nodes := by
  rw [ancestorsOpen, attachAll_isSome_iff (nodup_ids h), ← eq_depthFirst_iff h]
  constructor
  · intro hCanonical
    exact hCanonical.order
  · intro hOrder
    have hPreorder := (eq_depthFirst_iff h).mp hOrder
    refine ⟨hOrder, ?_, edges_sorted h, edges_declared h⟩
    intro node hNode
    exact hPreorder.exists_infix_iff_below (nodup_ids h) (fun n _ hEq => nomatch hEq) hNode

end Accepted

/-- An accepted topology is in canonical order exactly if each node hangs from an
open ancestor, and two such topologies of one forest are one sequence of nodes. -/
theorem accepted_canonical_iff (r : GraphTopologyResult)
    (h : validateCanonicalPreorder r = .ok ()) :
    (Canonical r ↔ ancestorsOpen r.nodes) ∧
      ∀ r' : GraphTopologyResult, validateCanonicalPreorder r' = .ok () →
        ancestorsOpen r.nodes → ancestorsOpen r'.nodes → r.nodes.Perm r'.nodes →
          r.nodes = r'.nodes := by
  refine ⟨canonical_iff_ancestorsOpen h, ?_⟩
  intro r' h' hOpen hOpen' hPerm
  calc r.nodes
      = depthFirst r.nodes := ((canonical_iff_ancestorsOpen h).mpr hOpen).order
    _ = depthFirst r'.nodes := depthFirst_eq_of_perm h h' hPerm
    _ = r'.nodes := ((canonical_iff_ancestorsOpen h').mpr hOpen').order.symm

section Sample

def sampleId (name : Char) (hName : isOpaqueId [name] = true) : OpaqueId := ⟨[name], hName⟩

def pageA : GraphTopologyNode := ⟨sampleId 'A' (by decide), .page, none, 0⟩

def pageB : GraphTopologyNode := ⟨sampleId 'B' (by decide), .page, none, 1⟩

def blockOfA : GraphTopologyNode :=
  ⟨sampleId 'a' (by decide), .block, some (sampleId 'A' (by decide)), 0⟩

def topologyOf (nodes : List GraphTopologyNode) (hLength : nodes.length ≤ 1024) :
    GraphTopologyResult where
  topologyId := sampleId 't' (by decide)
  nodes := nodes
  edges := [⟨blockOfA.id, pageB.id⟩]
  sourceRevision := sampleId 'r' (by decide)
  nodes_length := hLength
  edges_length := by simp

/-- A block that comes after the page behind its own page is accepted. -/
theorem late_block_is_accepted : ¬ ∀ r : GraphTopologyResult,
    validateCanonicalPreorder r = .ok () → Canonical r := by
  intro hAll
  have hCanonical := hAll (topologyOf [pageA, pageB, blockOfA] (by simp)) (by decide +kernel)
  have hOrder : [pageA, pageB, blockOfA] = depthFirst [pageA, pageB, blockOfA] := hCanonical.order
  revert hOrder
  decide +kernel

theorem accepted_canonical_of_sample :
    Canonical (topologyOf [pageA, blockOfA, pageB] (by simp)) :=
  (accepted_canonical_iff (topologyOf [pageA, blockOfA, pageB] (by simp)) (by decide +kernel)).1.mpr
    (by decide +kernel)

end Sample

end Plumber.SessionTopologyModels
