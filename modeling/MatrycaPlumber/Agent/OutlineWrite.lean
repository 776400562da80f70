import MatrycaPlumber.Agent.OutlineModels
import MatrycaPlumber.Graph.MarkdownBlocks
import MatrycaPlumber.Graph.PageFiles
import MatrycaPlumber.System.EffectLog

/-! The headless outline writer: one commit for each node, with the page free to
change between any two of its steps. -/
namespace Plumber.GraphDispatch

open PyText MarkdownBlocks OutlineModels PageFiles

/-- One committed write: the text that was read, the text that replaced it, and
the lines that were put in. -/
structure Commit where
  path : Str
  before : Str
  after : Str
  insertIndex : Nat
  newLines : List Str
  mtimeNs : Nat

/-- What happens to the disk during a call. -/
inductive Event where
  | external (edit : Disk → Disk)
  | own (commit : Commit)

def Event.apply : Event → Disk → Disk
  | .external edit, disk => edit disk
  | .own commit, disk =>
      fun path => if path = commit.path then some ⟨commit.after, commit.mtimeNs⟩ else disk path

/-- The disk after the events. -/
def replay (start : Disk) (history : List Event) : Disk :=
  history.foldl (fun disk event => event.apply disk) start

def Event.commit? : Event → Option Commit
  | .external _ => none
  | .own commit => some commit

def ownCommits (history : List Event) : List Commit := history.filterMap Event.commit?

structure OCCSnapshot where
  filePath : Str
  baselineMtime : Nat

/-- What the callers of the writer may see raised. The last one stands for the
path sandbox, the write policy, the block reference check and failing I/O. -/
inductive WriteError where
  | valueError (msg : Str)
  | occConflict (path : Str) (baselineMtime : Nat) (currentMtime : Option Nat)
  | refused

/-- The fields of a parsed block that the writer looks at. -/
structure GraphNode where
  uuid : Str
  sourceUuid : Option Str
  sourcePath : Option Str
  indentLevel : Nat
  insertionLine : Nat
  tabSize : Nat
  children : List (Str × Option Str × Str)

/-- Where an outline is to be written. -/
inductive WriteTarget where
  | parent (uuid : Str)
  | emptyPage (title : Str)

/-- Everything outside the call. A `Nat` argument is the number of events so far,
so that the graph, the files and the checks may change at every step. -/
structure Outside where
  edit : Nat → Disk → Disk
  mtimeNs : Nat → Nat
  resolveGraphNode : Nat → Str → Option GraphNode
  nodeByUuid : Nat → Str → Option GraphNode
  nodeByEmbedRef : Nat → Str → Option GraphNode
  pagePath : Str → Option Str
  withinGraph : Nat → Str → Bool
  writable : Nat → Str → Bool
  validPayload : Nat → Str → Str → Bool
  tabSize : Nat
  freshUuid : Nat → Uuid

structure World where
  history : List Event
  occ : Option OCCSnapshot
  createdIds : List Str

abbrev Call (α : Type) := EStateM WriteError World α

def require {α : Type} (found : Option α) (err : WriteError) : Call α :=
  match found with
  | some a => pure a
  | none => throw err

def raiseIf (bad : Bool) (err : WriteError) : Call PUnit :=
  if bad then throw err else pure ⟨⟩

section Steps

variable (out : Outside) (start : Disk)

/-- A look at the outside world, after whatever other writers did to the disk. -/
def look : Call (Nat × Disk) := do
  modify fun w => { w with history := w.history ++ [.external (out.edit w.history.length)] }
  let w ← get
  pure (w.history.length, replay start w.history)

def capture (disk : Disk) (path : Str) : Option OCCSnapshot :=
  (disk path).map fun file => ⟨path, file.mtimeNs⟩

def OCCSnapshot.drifted (occ : OCCSnapshot) (disk : Disk) : Bool :=
  fileMtimeDrifted (disk occ.filePath) occ.baselineMtime

def conflict (disk : Disk) (path : Str) (baselineMtime : Nat) : WriteError :=
  .occConflict path baselineMtime ((disk path).map FileState.mtimeNs)

def noNode (uuid : Str) : WriteError := .valueError ("No node registered for uuid=".toList ++ uuid)

def propertyLines (properties : List (Str × Str)) (blockUuid : Str) : List Str :=
  let lines := properties.map fun (key, value) =>
    (if endsWith "::".toList key then key else key ++ "::".toList) ++ ' ' :: value
  if lines.any fun line => startsWith "id::".toList (strip line) then lines
  else lines ++ ["id:: ".toList ++ blockUuid]

/-- The lines of one block at an indentation. -/
def blockLines (bulletIndent bodyIndent content : Str) (properties : List (Str × Str))
    (blockUuid : Str) : List Str :=
  let contentLines := splitlines content
  (bulletIndent ++ "- ".toList ++ stripLineEndings (contentLines.headD []) ++ ['\n']) ::
    (contentLines.tail.map fun line => bodyIndent ++ stripLineEndings line ++ ['\n']) ++
      (propertyLines properties blockUuid).map fun line => bodyIndent ++ line ++ ['\n']

def canonicalLines (lines : List Str) : Str :=
  (lines.map fun line => stripLineEndings line ++ canonicalLineSuffix line).flatten

/-- The page with new lines put in. -/
def spliced (rawText : Str) (insertIndex : Nat) (newLines : List Str) : Str :=
  let rawText := if rawText ≠ [] ∧ endsWith ['\n'] rawText = false then rawText ++ ['\n'] else rawText
  let fileLines := splitlinesKeep rawText
  canonicalLines (fileLines.take insertIndex ++ newLines ++ fileLines.drop insertIndex)

/-- The `os.replace` of a prepared file. -/
def replaceFile (commit : Commit) : Call PUnit := do
  let (now, _) ← look out start
  modify fun w => { w with history := w.history ++
    [.own { commit with mtimeNs := out.mtimeNs now }] }

/-- `atomic_write_bytes_if_unchanged`: the write policy, a comparison, the checks
of the payload, another comparison and the replacement. -/
def writeIfUnchanged (commit : Commit) (baselineMtime : Nat) : Call Bool := do
  let (now, disk) ← look out start
  raiseIf (!out.writable now commit.path) .refused
  if fileMtimeDrifted (disk commit.path) baselineMtime then pure false
  else do
    raiseIf (!out.validPayload now commit.path commit.after) .refused
    let (_, disk) ← look out start
    if fileMtimeDrifted (disk commit.path) baselineMtime then pure false
    else do
      replaceFile out start commit
      pure true

def headlessAppendChild (parentUuid content : Str) (properties : List (Str × Str)) : Call Str := do
  let (now, disk) ← look out start
  let newUuid := (out.freshUuid now).text
  let parent ← require (out.resolveGraphNode now parentUuid) (noNode parentUuid)
  let sourcePath ← require (parent.sourcePath.filter (· ≠ []))
    (.valueError ("Node uuid=".toList ++ parentUuid ++ " has no source_path".toList))
  let shared := (← get).occ
  let occ := shared <|> capture disk sourcePath
  raiseIf (shared.any fun occ => occ.drifted disk)
    (conflict disk sourcePath (shared.elim 0 OCCSnapshot.baselineMtime))
  -- under the page lock from here on, which other programs do not take
  let (now, disk) ← look out start
  raiseIf (occ.any fun occ => occ.drifted disk)
    (conflict disk sourcePath (occ.elim 0 OCCSnapshot.baselineMtime))
  let parent ← require (out.resolveGraphNode now parentUuid) (noNode parentUuid)
  let target ← require (out.nodeByUuid now parent.uuid) (noNode parent.uuid)
  let childLevel := target.indentLevel + 1
  let bulletIndent := List.replicate (childLevel * target.tabSize) ' '
  let bodyIndent := List.replicate ((childLevel + 1) * target.tabSize) ' '
  let path := (target.sourcePath.filter (· ≠ [])).getD sourcePath
  let (now, disk) ← look out start
  raiseIf (!out.withinGraph now path) .refused
  let file ← require (disk path) .refused
  let rawText := universalNewlines file.text
  let newLines := blockLines bulletIndent bodyIndent content properties newUuid
  let (_, disk) ← look out start
  let baselineMtime ← require
    ((occ.map OCCSnapshot.baselineMtime) <|> (disk path).map FileState.mtimeNs)
    (conflict disk path 0)
  let written ← writeIfUnchanged out start
    ⟨path, rawText, spliced rawText target.insertionLine newLines, target.insertionLine, newLines, 0⟩
    baselineMtime
  let (_, disk) ← look out start
  raiseIf (!written) (conflict disk path baselineMtime)
  modify fun w => { w with occ := w.occ.map fun occ =>
    { occ with baselineMtime := ((disk occ.filePath).map FileState.mtimeNs).getD occ.baselineMtime } }
  pure newUuid

/-- The parent key for the children of the block just written. -/
def resolveChainParentUuid (parentUuid blockText writtenId : Str) : Call Str := do
  let (first, _) ← look out start
  let (second, _) ← look out start
  if (out.nodeByEmbedRef first writtenId).isSome || (out.nodeByEmbedRef second writtenId).isSome then
    pure writtenId
  else
    let child := (out.resolveGraphNode second parentUuid).bind fun parent =>
      parent.children.reverse.find? fun (cleanText, _, _) => strip cleanText = strip blockText
    let (_, sourceUuid, uuid) ← require child
      (.valueError ("New block id::".toList ++ writtenId ++
        " was not indexed after write; cannot chain nested outline children.".toList))
    pure (((sourceUuid.map strip).filter (· ≠ [])).getD uuid)

mutual

/-- The nested `walk` of `_headless_write_outline`. -/
def walk : OutlineNode → Str → Call PUnit
  | .mk text properties children, parentUuid => do
      let newUuid ← headlessAppendChild out start parentUuid text properties
      modify fun w => { w with createdIds := w.createdIds ++ [newUuid] }
      let chainParent ← resolveChainParentUuid out start parentUuid text newUuid
      walkAll children chainParent

def walkAll : List OutlineNode → Str → Call PUnit
  | [], _ => pure ⟨⟩
  | node :: nodes, parentUuid => do
      walk node parentUuid
      walkAll nodes parentUuid

end

/-- `root` is the outcome of `validate_outline_for_write`. -/
def headlessWriteOutline (root : Except Str OutlineNode) (parentBlockUuid : Str) :
    Call (List Str) := do
  let root ← match root with
    | .ok root => pure root
    | .error msg => throw (.valueError msg)
  let (now, disk) ← look out start
  let sourcePath := (out.resolveGraphNode now parentBlockUuid).bind fun parent =>
    parent.sourcePath.filter (· ≠ [])
  modify fun w => { w with occ := sourcePath.bind (capture disk), createdIds := [] }
  walk out start root parentBlockUuid
  return (← get).createdIds

mutual

/-- The lines and identifiers of a node and of what is below it; `k` counts the
identifiers drawn so far. -/
def emitNode (indentLevel k : Nat) : OutlineNode → List Str × List Str
  | .mk text properties children =>
      let newUuid := (out.freshUuid k).text
      let bulletIndent := List.replicate (indentLevel * out.tabSize) ' '
      let bodyIndent := List.replicate ((indentLevel + 1) * out.tabSize) ' '
      let (lines, ids) := emitAll (indentLevel + 1) (k + 1) children
      (blockLines bulletIndent bodyIndent text properties newUuid ++ lines, newUuid :: ids)

def emitAll (indentLevel k : Nat) : List OutlineNode → List Str × List Str
  | [] => ([], [])
  | node :: nodes =>
      let (lines, ids) := emitNode indentLevel k node
      let (lines', ids') := emitAll indentLevel (k + ids.length) nodes
      (lines ++ lines', ids ++ ids')

end

/-- The page with the lines of an outline at its end. -/
def appendedOutline (prev : Str) (blockLines : List Str) : Str :=
  rstripChars ['\n'] prev ++ (if strip prev ≠ [] then "\n\n".toList else []) ++
    canonicalLines blockLines

def headlessWriteOutlineEmptyPage (root : Except Str OutlineNode) (pageTitle : Str) :
    Call (List Str) := do
  let root ← match root with
    | .ok root => pure root
    | .error msg => throw (.valueError msg)
  let path ← require (out.pagePath pageTitle) .refused
  let (now, disk) ← look out start
  let (blockLines, createdIds) := emitNode out 0 now root
  let occ := capture disk path
  let (_, disk) ← look out start
  raiseIf (occ.any fun occ => occ.drifted disk)
    (conflict disk path (occ.elim 0 OCCSnapshot.baselineMtime))
  let (now, disk) ← look out start
  let prev := universalNewlines (((disk path).map FileState.text).getD [])
  let newText := appendedOutline prev blockLines
  let commit : Commit := ⟨path, prev, newText, (splitlinesKeep prev).length, blockLines, 0⟩
  let (now', disk) ← look out start
  if (disk path).isSome then do
    let occ ← require occ (conflict disk path 0)
    let written ← writeIfUnchanged out start commit occ.baselineMtime
    let (_, disk) ← look out start
    raiseIf (!written) (conflict disk path occ.baselineMtime)
  else do
    raiseIf (!(out.writable now path && out.validPayload now' path newText)) .refused
    replaceFile out start commit
  pure createdIds

/-- `_run_write_outline_sync`; `target` is the outcome of resolving the target. -/
def runWriteOutlineSync (target : Except Str WriteTarget) (root : Except Str OutlineNode) :
    Call (List Str) :=
  match target with
  | .error msg => throw (.valueError msg)
  | .ok (.parent uuid) => headlessWriteOutline out start root uuid
  | .ok (.emptyPage title) => headlessWriteOutlineEmptyPage out start root title

end Steps

/-- The world when the call begins. -/
def initialWorld : World := ⟨[], none, []⟩

end Plumber.GraphDispatch
