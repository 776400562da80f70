import MatrycaPlumber.Agent.OgTopologySnapshot
import MatrycaPlumber.Graph.SessionTopologyModels

/-! The projection of a parsed graph to its topology: the pages in the order of their paths, the
blocks below each page in depth-first preorder, and the references between them. -/
namespace Plumber.OgTopologyProjection

open PyText SessionTopologyModels

section Model

def maxNodes : ℕ := 1024

def maxEdges : ℕ := 4096

def maxBlockDepth : ℕ := 64

inductive ProjectionError where
  /-- `_OgSnapshotReadError`. -/
  | snapshotRead (code message : String)
  /-- `GraphTopologyResult` does not accept the value. -/
  | validation (message : String)
  deriving DecidableEq

def boundsExceeded (message : String) : ProjectionError := .snapshotRead "bounds_exceeded" message

def sourceRejected (message : String) : ProjectionError := .snapshotRead "source_rejected" message

/-- A block of the parser. -/
inductive LogseqNode where
  | node (uuid : Str) (wikilinks blockRefs : List Str) (children : List LogseqNode)

namespace LogseqNode

def uuid : LogseqNode → Str
  | .node uuid _ _ _ => uuid

def wikilinks : LogseqNode → List Str
  | .node _ wikilinks _ _ => wikilinks

def blockRefs : LogseqNode → List Str
  | .node _ _ blockRefs _ => blockRefs

def children : LogseqNode → List LogseqNode
  | .node _ _ _ children => children

end LogseqNode

/-- A page of the parser. `logicalPath` is its source below the root, unless it has none. -/
structure LogseqPage where
  title : Str
  logicalPath : Option Str
  rootNodes : List LogseqNode

/-- What the parser's graph answers. -/
structure LogseqGraph where
  canonicalPages : List LogseqPage
  getPage : Str → Option LogseqPage
  getNodeByEmbedRef : Str → Option LogseqNode

variable (token : List Str → OpaqueId) (sourceRevision : OpaqueId)

def blockId (uuid : Str) : OpaqueId := token [sourceRevision.text, "block".toList, uuid]

def pageId (logicalPath : Str) : OpaqueId :=
  token [sourceRevision.text, "page".toList, logicalPath]

/-- What is projected so far. -/
structure State where
  nodes : List GraphTopologyNode := []
  nodeIds : List (Str × OpaqueId) := []
  seenIds : List OpaqueId := []
  blocks : List LogseqNode := []

/-- The children of one block that are still to come, with the ordinal of the next one. -/
structure Frame where
  children : List LogseqNode
  ordinal : ℕ
  parentId : OpaqueId
  depth : ℕ

mutual
def LogseqNode.weight : LogseqNode → ℕ
  | .node _ _ _ children => weights children + 2

def weights : List LogseqNode → ℕ
  | [] => 0
  | node :: nodes => node.weight + weights nodes
end

def framesWeight (frames : List Frame) : ℕ :=
  (frames.map fun frame => weights frame.children + 1).sum

/-- One turn of the loop for a child. -/
def visit (s : State) (parentId : OpaqueId) (ordinal depth : ℕ) (child : LogseqNode) :
    Except ProjectionError State :=
  let nodeId := blockId token sourceRevision child.uuid
  if maxBlockDepth < depth ∨ maxNodes ≤ s.nodes.length then
    .error (boundsExceeded "OG topology node/depth limit exceeded")
  else if child.uuid = [] ∨ child.uuid ∈ s.nodeIds.map (·.1) ∨ nodeId ∈ s.seenIds then
    .error (sourceRejected "OG topology node identity rejected")
  else if child.children ≠ [] ∧ maxBlockDepth ≤ depth then
    .error (boundsExceeded "OG topology block depth exceeded")
  else .ok
    { nodes := s.nodes ++ [⟨nodeId, .block, some parentId, ordinal⟩]
      nodeIds := s.nodeIds ++ [(child.uuid, nodeId)]
      seenIds := s.seenIds ++ [nodeId]
      blocks := s.blocks ++ [child] }

theorem weights_children_lt (node : LogseqNode) : weights node.children + 1 < node.weight := by
  cases node
  rw [LogseqNode.children, LogseqNode.weight]
  exact Nat.lt_succ_self _

/-- The loop of `_append_node`: the children of the last frame are taken until it is empty. The
frame of a block without children is left at once. -/
def appendFrames : List Frame → State → Except ProjectionError State
  | [], s => .ok s
  | ⟨[], _, _, _⟩ :: frames, s => appendFrames frames s
  | ⟨child :: rest, ordinal, parentId, depth⟩ :: frames, s =>
      match visit token sourceRevision s parentId ordinal depth child with
      | .error e => .error e
      | .ok next =>
          appendFrames (⟨child.children, 0, blockId token sourceRevision child.uuid, depth + 1⟩ ::
            ⟨rest, ordinal + 1, parentId, depth⟩ :: frames) next
termination_by frames => framesWeight frames
decreasing_by
  · simp [framesWeight]
  · have hChildren := weights_children_lt child
    simp only [framesWeight, List.map_cons, List.sum_cons, weights]
    omega

/-- The blocks at the top of a page, one call of `_append_node` for each. -/
def appendRoots (pageId : OpaqueId) : ℕ → List LogseqNode → State → Except ProjectionError State
  | _, [], s => .ok s
  | ordinal, child :: rest, s =>
      match appendFrames token sourceRevision [⟨[child], ordinal, pageId, 1⟩] s with
      | .error e => .error e
      | .ok next => appendRoots pageId (ordinal + 1) rest next

def appendPages : ℕ → List (Str × LogseqPage) → State → Except ProjectionError State
  | _, [], s => .ok s
  | ordinal, (logicalPath, page) :: pages, s =>
      let id := pageId token sourceRevision logicalPath
      if maxNodes ≤ s.nodes.length then
        .error (boundsExceeded "OG topology node limit exceeded")
      else if id ∈ s.seenIds then .error (sourceRejected "OG topology node identity rejected")
      else
        match appendRoots token sourceRevision id 0 page.rootNodes { s with
            nodes := s.nodes ++ [⟨id, .page, none, ordinal⟩]
            seenIds := s.seenIds ++ [id] } with
        | .error e => .error e
        | .ok next => appendPages (ordinal + 1) pages next

variable (casefold : Str → Str)

/-- The loop of `_canonical_pages`. -/
def mapPages (expected : List Str) : List LogseqPage → List (Str × LogseqPage) → List Str →
    Except ProjectionError (List (Str × LogseqPage))
  | [], mapped, _ => .ok mapped
  | page :: pages, mapped, titles =>
      match page.logicalPath with
      | none => .error (sourceRejected "OG topology page source rejected")
      | some logicalPath =>
          let title := casefold (strip page.title)
          if logicalPath ∉ expected ∨ logicalPath ∈ mapped.map (·.1) ∨ title = [] ∨
              title ∈ titles then
            .error (sourceRejected "OG topology page mapping rejected")
          else mapPages expected pages (mapped ++ [(logicalPath, page)]) (titles ++ [title])

def canonicalPages (graph : LogseqGraph) (logicalPaths : List Str) :
    Except ProjectionError (List (Str × LogseqPage)) :=
  if OgTopologySnapshot.maxCaptureFiles < logicalPaths.length then
    .error (boundsExceeded "OG topology page limit exceeded")
  else if ¬logicalPaths.Nodup then
    .error (sourceRejected "OG topology capture mapping rejected")
  else
    match mapPages casefold logicalPaths graph.canonicalPages [] [] with
    | .error e => .error e
    | .ok mapped =>
        if ∃ logicalPath ∈ logicalPaths, logicalPath ∉ mapped.map (·.1) then
          .error (sourceRejected "OG topology incomplete page mapping")
        else .ok ((logicalPaths.insertionSort (· ≤ ·)).filterMap fun logicalPath =>
          mapped.find? (·.1 = logicalPath))

def referenceRejected : ProjectionError := sourceRejected "OG topology reference rejected"

/-- The page that a wikilink resolves to. -/
def wikilinkTarget (graph : LogseqGraph) (pages : List (Str × LogseqPage)) (reference : Str) :
    Except ProjectionError OpaqueId :=
  match graph.getPage reference with
  | none => .error referenceRejected
  | some target =>
      match target.logicalPath with
      | none => .error (sourceRejected "OG topology page source rejected")
      | some logicalPath =>
          match pages.find? (·.1 = logicalPath) with
          | none => .error referenceRejected
          | some declared =>
              if declared.2.title ≠ target.title then .error referenceRejected
              else .ok (pageId token sourceRevision logicalPath)

def blockRefTarget (graph : LogseqGraph) (nodeIds : List (Str × OpaqueId)) (reference : Str) :
    Except ProjectionError OpaqueId :=
  match graph.getNodeByEmbedRef reference with
  | none => .error referenceRejected
  | some target =>
      match nodeIds.find? (·.1 = target.uuid) with
      | none => .error referenceRejected
      | some known => .ok known.2

/-- The references of a block, in the order in which they are resolved. -/
def blockTargets (graph : LogseqGraph) (pages : List (Str × LogseqPage))
    (nodeIds : List (Str × OpaqueId)) (block : LogseqNode) :
    List (Except ProjectionError OpaqueId) :=
  block.wikilinks.map (wikilinkTarget token sourceRevision graph pages) ++
    block.blockRefs.map (blockRefTarget graph nodeIds)

/-- The loop over the references. The first that does not resolve ends it. -/
def addEdges : List (OpaqueId × Except ProjectionError OpaqueId) → List (OpaqueId × OpaqueId) →
    Except ProjectionError (List (OpaqueId × OpaqueId))
  | [], edges => .ok edges
  | (_, .error e) :: _, _ => .error e
  | (source, .ok target) :: rest, edges =>
      if (source, target) ∈ edges then addEdges rest edges
      else if maxEdges ≤ edges.length then
        .error (boundsExceeded "OG topology edge limit exceeded")
      else addEdges rest (edges ++ [(source, target)])

/-- What the references of the blocks resolve to; `node_ids` has every block. -/
def references (graph : LogseqGraph) (pages : List (Str × LogseqPage)) (s : State) :
    List (OpaqueId × Except ProjectionError OpaqueId) :=
  s.blocks.flatMap fun block =>
    (blockTargets token sourceRevision graph pages s.nodeIds block).map fun target =>
      (blockId token sourceRevision block.uuid, target)

/-- The texts by which the edges are sorted. -/
def pairKey (edge : OpaqueId × OpaqueId) : Str ×ₗ Str := toLex (edge.1.text, edge.2.text)

def projectReferences (graph : LogseqGraph) (pages : List (Str × LogseqPage)) (s : State) :
    Except ProjectionError (List GraphTopologyReference) :=
  match addEdges (references token sourceRevision graph pages s) [] with
  | .error e => .error e
  | .ok edges =>
      .ok ((edges.insertionSort (pairKey · ≤ pairKey ·)).map fun edge => ⟨edge.1, edge.2⟩)

/-- `GraphTopologyResult(..)`, which validates what it is given. -/
def topologyResult (nodes : List GraphTopologyNode) (edges : List GraphTopologyReference) :
    Except ProjectionError GraphTopologyResult :=
  if hNodes : nodes.length ≤ 1024 then
    if hEdges : edges.length ≤ 4096 then
      let result : GraphTopologyResult :=
        ⟨token [sourceRevision.text, "graph".toList], nodes, edges, sourceRevision, hNodes, hEdges⟩
      match validateCanonicalPreorder result with
      | .error message => .error (.validation message)
      | .ok () => .ok result
    else .error (.validation "edges")
  else .error (.validation "nodes")

def projectTopology (graph : LogseqGraph) (logicalPaths : List Str) :
    Except ProjectionError GraphTopologyResult :=
  match canonicalPages casefold graph logicalPaths with
  | .error e => .error e
  | .ok pages =>
      match appendPages token sourceRevision 0 pages {} with
      | .error e => .error e
      | .ok s =>
          match projectReferences token sourceRevision graph pages s with
          | .error e => .error e
          | .ok edges => topologyResult token sourceRevision s.nodes edges

end Model

section Entries

variable (token : List Str → OpaqueId) (sourceRevision : OpaqueId)

/-- A node of the topology, with the block it stands for. -/
structure Entry where
  node : GraphTopologyNode
  depth : ℕ
  block : Option LogseqNode

mutual
/-- A block and what is below it, in depth-first preorder. -/
def LogseqNode.entries (parentId : OpaqueId) (depth ordinal : ℕ) : LogseqNode → List Entry
  | .node uuid wikilinks blockRefs children =>
      ⟨⟨blockId token sourceRevision uuid, .block, some parentId, ordinal⟩, depth,
        some (.node uuid wikilinks blockRefs children)⟩ ::
        entriesAll (blockId token sourceRevision uuid) (depth + 1) 0 children

def entriesAll (parentId : OpaqueId) (depth : ℕ) : ℕ → List LogseqNode → List Entry
  | _, [] => []
  | ordinal, node :: nodes =>
      node.entries parentId depth ordinal ++ entriesAll parentId depth (ordinal + 1) nodes
end

def pageEntry (ordinal : ℕ) (logicalPath : Str) : Entry :=
  ⟨⟨pageId token sourceRevision logicalPath, .page, none, ordinal⟩, 0, none⟩

/-- The pages, each with the blocks below it. -/
def pagesEntries : ℕ → List (Str × LogseqPage) → List Entry
  | _, [] => []
  | ordinal, (logicalPath, page) :: pages =>
      pageEntry token sourceRevision ordinal logicalPath ::
        (entriesAll token sourceRevision (pageId token sourceRevision logicalPath) 1 0
          page.rootNodes ++ pagesEntries (ordinal + 1) pages)

def Frame.entries (frame : Frame) : List Entry :=
  entriesAll token sourceRevision frame.parentId frame.depth frame.ordinal frame.children

/-- The entry raises no error for what it is. -/
def Entry.Admitted (entry : Entry) : Prop :=
  entry.depth ≤ maxBlockDepth ∧ ∀ block ∈ entry.block, block.uuid ≠ []

def State.after (s : State) (entries : List Entry) : State where
  nodes := s.nodes ++ entries.map (·.node)
  nodeIds := s.nodeIds ++ (entries.filterMap (·.block)).map fun block =>
    (block.uuid, blockId token sourceRevision block.uuid)
  seenIds := s.seenIds ++ entries.map (·.node.id)
  blocks := s.blocks ++ entries.filterMap (·.block)

/-- The entries raise no error in a state. -/
structure Fits (s : State) (entries : List Entry) : Prop where
  nodes : s.nodes.length + entries.length ≤ maxNodes
  admitted : ∀ entry ∈ entries, entry.Admitted
  ids : (s.seenIds ++ entries.map (·.node.id)).Nodup

/-- What every state of the loops is like. -/
structure State.Ok (s : State) : Prop where
  nodes : s.nodes.length ≤ maxNodes
  ids : s.seenIds.Nodup
  known : ∀ known ∈ s.nodeIds, known.2 = blockId token sourceRevision known.1 ∧ known.2 ∈ s.seenIds

variable {token sourceRevision} {s t : State} {entries : List Entry} {entry : Entry}

@[simp]
theorem State.after_nil (s : State) : s.after token sourceRevision [] = s := by
  simp [State.after]

theorem State.after_append (s : State) (front back : List Entry) :
    s.after token sourceRevision (front ++ back) =
      (s.after token sourceRevision front).after token sourceRevision back := by
  simp [State.after]

theorem Fits.nil (hOk : s.Ok token sourceRevision) : Fits s [] where
  nodes := hOk.nodes
  admitted := List.forall_mem_nil _
  ids := by rw [List.map_nil, List.append_nil]; exact hOk.ids

theorem fits_append (token : List Str → OpaqueId) (sourceRevision : OpaqueId)
    {front back : List Entry} : Fits s (front ++ back) ↔
      Fits s front ∧ Fits (s.after token sourceRevision front) back := by
  have hLength : (s.nodes ++ front.map (·.node)).length = s.nodes.length + front.length := by
    rw [List.length_append, List.length_map]
  constructor
  · rintro ⟨hNodes, hAdmitted, hIds⟩
    rw [List.length_append] at hNodes
    rw [List.forall_mem_append] at hAdmitted
    rw [List.map_append, ← List.append_assoc] at hIds
    refine ⟨⟨by omega, hAdmitted.1, (List.nodup_append.mp hIds).1⟩, ⟨?_, hAdmitted.2, hIds⟩⟩
    rw [State.after, hLength]
    omega
  · rintro ⟨hFront, hNodes, hAdmitted, hIds⟩
    rw [State.after, hLength] at hNodes
    refine ⟨?_, List.forall_mem_append.mpr ⟨hFront.admitted, hAdmitted⟩, ?_⟩
    · rw [List.length_append]
      omega
    · rw [List.map_append, ← List.append_assoc]
      exact hIds

/-- The entries of a loop are those of its blocks. -/
def Entry.Sound (token : List Str → OpaqueId) (sourceRevision : OpaqueId) (entry : Entry) : Prop :=
  ∀ block ∈ entry.block, entry.node.id = blockId token sourceRevision block.uuid

theorem State.Ok.after (hOk : s.Ok token sourceRevision) (hFits : Fits s entries)
    (hSound : ∀ entry ∈ entries, entry.Sound token sourceRevision) :
    (s.after token sourceRevision entries).Ok token sourceRevision where
  nodes := by
    rw [State.after, List.length_append, List.length_map]
    exact hFits.nodes
  ids := hFits.ids
  known known hKnown := by
    rcases List.mem_append.mp hKnown with hOld | hNew
    · exact ⟨(hOk.known known hOld).1, List.mem_append_left _ (hOk.known known hOld).2⟩
    · obtain ⟨block, hBlock, rfl⟩ := List.mem_map.mp hNew
      obtain ⟨entry, hEntry, hSome⟩ := List.mem_filterMap.mp hBlock
      refine ⟨rfl, List.mem_append_right _ (List.mem_map.mpr ⟨entry, hEntry, ?_⟩)⟩
      exact hSound entry hEntry block hSome

mutual
theorem LogseqNode.sound_entries (parentId : OpaqueId) (depth ordinal : ℕ) :
    ∀ node : LogseqNode, ∀ entry ∈ node.entries token sourceRevision parentId depth ordinal,
      entry.Sound token sourceRevision
  | .node uuid wikilinks blockRefs children => by
      rw [LogseqNode.entries, List.forall_mem_cons]
      refine ⟨?_, sound_entriesAll _ _ 0 children⟩
      intro block hBlock
      obtain rfl := Option.some.inj hBlock
      rfl

theorem sound_entriesAll (parentId : OpaqueId) (depth : ℕ) :
    ∀ (ordinal : ℕ) (nodes : List LogseqNode),
      ∀ entry ∈ entriesAll token sourceRevision parentId depth ordinal nodes,
        entry.Sound token sourceRevision
  | _, [] => List.forall_mem_nil _
  | ordinal, node :: nodes => by
      rw [entriesAll, List.forall_mem_append]
      exact ⟨node.sound_entries parentId depth ordinal,
        sound_entriesAll parentId depth (ordinal + 1) nodes⟩
end

theorem sound_pagesEntries (ordinal : ℕ) (pages : List (Str × LogseqPage)) :
    ∀ entry ∈ pagesEntries token sourceRevision ordinal pages,
      entry.Sound token sourceRevision := by
  induction pages generalizing ordinal with
  | nil => exact List.forall_mem_nil _
  | cons page pages ih =>
      obtain ⟨logicalPath, page⟩ := page
      rw [pagesEntries, List.forall_mem_cons, List.forall_mem_append]
      refine ⟨?_, sound_entriesAll _ _ _ _, ih (ordinal + 1)⟩
      intro block hBlock
      cases hBlock

end Entries

section Loops

variable {token : List Str → OpaqueId} {sourceRevision : OpaqueId} {s t : State}

/-- The entry of a block itself. -/
def blockEntry (token : List Str → OpaqueId) (sourceRevision : OpaqueId) (parentId : OpaqueId)
    (depth ordinal : ℕ) (block : LogseqNode) : Entry :=
  ⟨⟨blockId token sourceRevision block.uuid, .block, some parentId, ordinal⟩, depth, some block⟩

theorem LogseqNode.entries_eq (parentId : OpaqueId) (depth ordinal : ℕ) (block : LogseqNode) :
    block.entries token sourceRevision parentId depth ordinal =
      [blockEntry token sourceRevision parentId depth ordinal block] ++
        entriesAll token sourceRevision (blockId token sourceRevision block.uuid) (depth + 1) 0
          block.children := by
  cases block
  rw [LogseqNode.entries]
  rfl

theorem sound_blockEntry (parentId : OpaqueId) (depth ordinal : ℕ) (block : LogseqNode) :
    ∀ entry ∈ [blockEntry token sourceRevision parentId depth ordinal block],
      entry.Sound token sourceRevision := by
  refine List.forall_mem_singleton.mpr ?_
  intro known hKnown
  obtain rfl := Option.some.inj hKnown
  rfl

theorem visit_eq_ok (hOk : s.Ok token sourceRevision) {parentId : OpaqueId} {ordinal depth : ℕ}
    {child : LogseqNode} :
    visit token sourceRevision s parentId ordinal depth child = .ok t ↔
      Fits s [blockEntry token sourceRevision parentId depth ordinal child] ∧
        (child.children ≠ [] → depth + 1 ≤ maxBlockDepth) ∧
        t = s.after token sourceRevision
          [blockEntry token sourceRevision parentId depth ordinal child] := by
  have hKnown : child.uuid ∈ s.nodeIds.map (·.1) →
      blockId token sourceRevision child.uuid ∈ s.seenIds := by
    intro hMem
    obtain ⟨known, hMem, hUuid⟩ := List.mem_map.mp hMem
    obtain ⟨hId, hSeen⟩ := hOk.known known hMem
    rwa [hId, hUuid] at hSeen
  rw [visit]
  constructor
  · intro h
    split_ifs at h with hBounds hIdentity hDeep
    rw [not_or, not_lt, not_le] at hBounds
    rw [not_or, not_or] at hIdentity
    rw [not_and, not_le] at hDeep
    refine ⟨⟨?_, ?_, ?_⟩, hDeep, (Except.ok.inj h).symm⟩
    · exact hBounds.2
    · refine List.forall_mem_singleton.mpr ⟨hBounds.1, ?_⟩
      intro block hBlock
      obtain rfl := Option.some.inj hBlock
      exact hIdentity.1
    · refine List.nodup_append.mpr ⟨hOk.ids, List.nodup_singleton _, ?_⟩
      rintro a hA b hB rfl
      have hSame : a = blockId token sourceRevision child.uuid := List.mem_singleton.mp hB
      rw [hSame] at hA
      exact hIdentity.2.2 hA
  · rintro ⟨hFits, hDeep, rfl⟩
    have hAdmitted : depth ≤ maxBlockDepth ∧ ∀ block ∈ some child, block.uuid ≠ [] :=
      hFits.admitted _ (List.mem_singleton_self _)
    obtain ⟨hDepth, hUuid⟩ := hAdmitted
    have hNodes : s.nodes.length + 1 ≤ maxNodes := hFits.nodes
    have hNew : blockId token sourceRevision child.uuid ∉ s.seenIds := by
      intro hSeen
      exact (List.nodup_append.mp hFits.ids).2.2 _ hSeen _ (List.mem_singleton_self _) rfl
    rw [if_neg (not_or.mpr ⟨not_lt.mpr hDepth, not_le.mpr hNodes⟩),
      if_neg (not_or.mpr ⟨hUuid child rfl, not_or.mpr ⟨mt hKnown hNew, hNew⟩⟩),
      if_neg (not_and.mpr fun hChildren => not_le.mpr (hDeep hChildren))]
    rfl

/-- A list of blocks has its first block at its depth. -/
theorem depth_le_of_fits {parentId : OpaqueId} {depth ordinal : ℕ} {blocks : List LogseqNode}
    (hFits : Fits s (entriesAll token sourceRevision parentId depth ordinal blocks))
    (hSome : blocks ≠ []) : depth ≤ maxBlockDepth := by
  cases blocks with
  | nil => exact absurd rfl hSome
  | cons block rest =>
      rw [entriesAll, LogseqNode.entries_eq] at hFits
      exact (hFits.admitted (blockEntry token sourceRevision parentId depth ordinal block)
        (by simp)).1

theorem flatMap_entries_cons (child : LogseqNode) (rest : List LogseqNode) (ordinal depth : ℕ)
    (parentId : OpaqueId) (frames : List Frame) :
    (⟨child :: rest, ordinal, parentId, depth⟩ :: frames : List Frame).flatMap
        (Frame.entries token sourceRevision) =
      [blockEntry token sourceRevision parentId depth ordinal child] ++
        (⟨child.children, 0, blockId token sourceRevision child.uuid, depth + 1⟩ ::
          ⟨rest, ordinal + 1, parentId, depth⟩ :: frames : List Frame).flatMap
          (Frame.entries token sourceRevision) := by
  rw [List.flatMap_cons, List.flatMap_cons, List.flatMap_cons, Frame.entries, Frame.entries,
    Frame.entries, entriesAll, LogseqNode.entries_eq]
  simp

/-- The loop appends the entries of its frames, just when all of them fit. -/
theorem appendFrames_eq_ok (frames : List Frame) (hOk : s.Ok token sourceRevision) :
    appendFrames token sourceRevision frames s = .ok t ↔
      Fits s (frames.flatMap (Frame.entries token sourceRevision)) ∧
        t = s.after token sourceRevision (frames.flatMap (Frame.entries token sourceRevision)) := by
  induction hWeight : framesWeight frames using Nat.strong_induction_on generalizing frames s with
  | _ n ih =>
      subst hWeight
      cases frames with
      | nil =>
          rw [appendFrames, List.flatMap_nil, State.after_nil]
          exact ⟨fun h => ⟨.nil hOk, (Except.ok.inj h).symm⟩, fun h => congrArg _ h.2.symm⟩
      | cons frame frames =>
          obtain ⟨children, ordinal, parentId, depth⟩ := frame
          cases children with
          | nil =>
              rw [appendFrames]
              exact ih _ (by simp [framesWeight]) frames hOk rfl
          | cons child rest =>
              have hChildren := weights_children_lt child
              rw [appendFrames, flatMap_entries_cons, fits_append token sourceRevision,
                State.after_append]
              have hVisit := @visit_eq_ok token sourceRevision s
              constructor
              · intro h
                split at h
                · cases h
                · next next hNext =>
                    obtain ⟨hFits, -, rfl⟩ := (hVisit hOk).mp hNext
                    have hNextOk := hOk.after hFits (sound_blockEntry _ _ _ _)
                    obtain ⟨hRest, rfl⟩ := (ih _ (by
                      simp only [framesWeight, List.map_cons, List.sum_cons, weights]
                      omega) _ hNextOk rfl).mp h
                    exact ⟨⟨hFits, hRest⟩, rfl⟩
              · rintro ⟨⟨hFits, hRest⟩, rfl⟩
                have hDeep : child.children ≠ [] → depth + 1 ≤ maxBlockDepth := by
                  intro hSome
                  rw [List.flatMap_cons] at hRest
                  exact depth_le_of_fits ((fits_append token sourceRevision).mp hRest).1 hSome
                rw [(hVisit hOk).mpr ⟨hFits, hDeep, rfl⟩]
                have hNextOk := hOk.after hFits (sound_blockEntry _ _ _ _)
                exact (ih _ (by
                  simp only [framesWeight, List.map_cons, List.sum_cons, weights]
                  omega) _ hNextOk rfl).mpr ⟨hRest, rfl⟩

theorem appendRoots_eq_ok (pageId : OpaqueId) (ordinal : ℕ) (children : List LogseqNode)
    (hOk : s.Ok token sourceRevision) :
    appendRoots token sourceRevision pageId ordinal children s = .ok t ↔
      Fits s (entriesAll token sourceRevision pageId 1 ordinal children) ∧
        t = s.after token sourceRevision
          (entriesAll token sourceRevision pageId 1 ordinal children) := by
  induction children generalizing ordinal s with
  | nil =>
      rw [appendRoots, entriesAll, State.after_nil]
      exact ⟨fun h => ⟨.nil hOk, (Except.ok.inj h).symm⟩, fun h => congrArg _ h.2.symm⟩
  | cons child rest ih =>
      have hFrame : ([⟨[child], ordinal, pageId, 1⟩] : List Frame).flatMap
          (Frame.entries token sourceRevision) =
            child.entries token sourceRevision pageId 1 ordinal := by
        rw [List.flatMap_singleton, Frame.entries, entriesAll, entriesAll, List.append_nil]
      have hChild {t : State} := @appendFrames_eq_ok token sourceRevision s t
        [⟨[child], ordinal, pageId, 1⟩] hOk
      rw [hFrame] at hChild
      rw [appendRoots, entriesAll, fits_append token sourceRevision, State.after_append]
      constructor
      · intro h
        split at h
        · cases h
        · next next hNext =>
            obtain ⟨hFits, rfl⟩ := hChild.mp hNext
            obtain ⟨hRest, rfl⟩ :=
              (ih (ordinal + 1) (hOk.after hFits (child.sound_entries _ _ _))).mp h
            exact ⟨⟨hFits, hRest⟩, rfl⟩
      · rintro ⟨⟨hFits, hRest⟩, rfl⟩
        rw [hChild.mpr ⟨hFits, rfl⟩]
        exact (ih (ordinal + 1) (hOk.after hFits (child.sound_entries _ _ _))).mpr ⟨hRest, rfl⟩

theorem sound_pageEntry (ordinal : ℕ) (logicalPath : Str) :
    ∀ entry ∈ [pageEntry token sourceRevision ordinal logicalPath],
      entry.Sound token sourceRevision := by
  refine List.forall_mem_singleton.mpr ?_
  intro block hBlock
  cases hBlock

theorem pagesEntries_cons (ordinal : ℕ) (logicalPath : Str) (page : LogseqPage)
    (pages : List (Str × LogseqPage)) :
    pagesEntries token sourceRevision ordinal ((logicalPath, page) :: pages) =
      [pageEntry token sourceRevision ordinal logicalPath] ++
        (entriesAll token sourceRevision (pageId token sourceRevision logicalPath) 1 0
          page.rootNodes ++ pagesEntries token sourceRevision (ordinal + 1) pages) := rfl

theorem appendPages_eq_ok (ordinal : ℕ) (pages : List (Str × LogseqPage))
    (hOk : s.Ok token sourceRevision) :
    appendPages token sourceRevision ordinal pages s = .ok t ↔
      Fits s (pagesEntries token sourceRevision ordinal pages) ∧
        t = s.after token sourceRevision (pagesEntries token sourceRevision ordinal pages) := by
  induction pages generalizing ordinal s with
  | nil =>
      rw [appendPages, pagesEntries, State.after_nil]
      exact ⟨fun h => ⟨.nil hOk, (Except.ok.inj h).symm⟩, fun h => congrArg _ h.2.symm⟩
  | cons page pages ih =>
      obtain ⟨logicalPath, page⟩ := page
      have hPage : ({ s with
          nodes := s.nodes ++ [⟨pageId token sourceRevision logicalPath, .page, none, ordinal⟩]
          seenIds := s.seenIds ++ [pageId token sourceRevision logicalPath] } : State) =
            s.after token sourceRevision [pageEntry token sourceRevision ordinal logicalPath] := by
        simp [State.after, pageEntry]
      have hOne : Fits s [pageEntry token sourceRevision ordinal logicalPath] ↔
          ¬maxNodes ≤ s.nodes.length ∧ pageId token sourceRevision logicalPath ∉ s.seenIds := by
        constructor
        · intro hFits
          refine ⟨not_le.mpr hFits.nodes, fun hSeen => ?_⟩
          exact (List.nodup_append.mp hFits.ids).2.2 _ hSeen _ (List.mem_singleton_self _) rfl
        · rintro ⟨hNodes, hNew⟩
          refine ⟨not_le.mp hNodes, List.forall_mem_singleton.mpr ⟨Nat.zero_le _, ?_⟩, ?_⟩
          · intro block hBlock
            cases hBlock
          · refine List.nodup_append.mpr ⟨hOk.ids, List.nodup_singleton _, ?_⟩
            rintro a hA b hB rfl
            have hSame : a = pageId token sourceRevision logicalPath := List.mem_singleton.mp hB
            rw [hSame] at hA
            exact hNew hA
      rw [appendPages, pagesEntries_cons, fits_append token sourceRevision,
        fits_append token sourceRevision, State.after_append, State.after_append, hPage, hOne]
      constructor
      · intro h
        split_ifs at h with hBounds hSeen
        have hPageOk := hOk.after (hOne.mpr ⟨hBounds, hSeen⟩) (sound_pageEntry _ _)
        split at h
        · cases h
        · next next hNext =>
            obtain ⟨hRoots, rfl⟩ := (appendRoots_eq_ok _ _ _ hPageOk).mp hNext
            obtain ⟨hRest, rfl⟩ :=
              (ih (ordinal + 1) (hPageOk.after hRoots (sound_entriesAll _ _ _ _))).mp h
            exact ⟨⟨⟨hBounds, hSeen⟩, hRoots, hRest⟩, rfl⟩
      · rintro ⟨⟨⟨hBounds, hSeen⟩, hRoots, hRest⟩, rfl⟩
        have hPageOk := hOk.after (hOne.mpr ⟨hBounds, hSeen⟩) (sound_pageEntry _ _)
        rw [if_neg hBounds, if_neg hSeen, (appendRoots_eq_ok _ _ _ hPageOk).mpr ⟨hRoots, rfl⟩]
        exact (ih (ordinal + 1) (hPageOk.after hRoots (sound_entriesAll _ _ _ _))).mpr
          ⟨hRest, rfl⟩

end Loops

section Pages

variable {casefold : Str → Str} {graph : LogseqGraph} {logicalPaths : List Str}

/-- The key under which a title must be the only one. -/
def titleKey (casefold : Str → Str) (page : LogseqPage) : Str := casefold (strip page.title)

/-- Pages with their paths. -/
def withPaths (pages : List LogseqPage) : List (Str × LogseqPage) :=
  pages.filterMap fun page => page.logicalPath.map (·, page)

/-- The pages are those of the paths: each path has one page, and no two titles are the same. -/
structure Mapped (casefold : Str → Str) (graph : LogseqGraph) (logicalPaths : List Str) : Prop where
  few : logicalPaths.length ≤ OgTopologySnapshot.maxCaptureFiles
  distinct : logicalPaths.Nodup
  within : ∀ page ∈ graph.canonicalPages, ∃ path ∈ logicalPaths, page.logicalPath = some path
  once : ((withPaths graph.canonicalPages).map (·.1)).Nodup
  named : ∀ page ∈ graph.canonicalPages, titleKey casefold page ≠ []
  titles : (graph.canonicalPages.map (titleKey casefold)).Nodup
  complete : ∀ path ∈ logicalPaths, path ∈ (withPaths graph.canonicalPages).map (·.1)

theorem mapPages_eq_ok {expected : List Str} (pages : List LogseqPage)
    {mapped out : List (Str × LogseqPage)} {titles : List Str}
    (hMapped : (mapped.map (·.1)).Nodup) (hTitles : titles.Nodup) :
    mapPages casefold expected pages mapped titles = .ok out ↔
      (∀ page ∈ pages, ∃ path ∈ expected, page.logicalPath = some path) ∧
        ((mapped ++ withPaths pages).map (·.1)).Nodup ∧
        (∀ page ∈ pages, titleKey casefold page ≠ []) ∧
        (titles ++ pages.map (titleKey casefold)).Nodup ∧ out = mapped ++ withPaths pages := by
  induction pages generalizing mapped titles with
  | nil =>
      rw [mapPages, withPaths, List.filterMap_nil, List.append_nil, List.map_nil, List.append_nil]
      constructor
      · intro h
        exact ⟨List.forall_mem_nil _, hMapped, List.forall_mem_nil _, hTitles,
          (Except.ok.inj h).symm⟩
      · rintro ⟨-, -, -, -, rfl⟩
        rfl
  | cons page pages ih =>
      rw [mapPages]
      cases hPath : page.logicalPath with
      | none =>
          constructor
          · rintro ⟨⟩
          · rintro ⟨hWithin, -⟩
            obtain ⟨path, -, hSome⟩ := hWithin page List.mem_cons_self
            rw [hPath] at hSome
            cases hSome
      | some path =>
          have hCons : withPaths (page :: pages) = (path, page) :: withPaths pages := by
            rw [withPaths, List.filterMap_cons, hPath]
            rfl
          have hPaths : mapped ++ withPaths (page :: pages) =
              (mapped ++ [(path, page)]) ++ withPaths pages := by
            rw [hCons, List.append_assoc, List.singleton_append]
          have hKeys : titles ++ (page :: pages).map (titleKey casefold) =
              (titles ++ [titleKey casefold page]) ++ pages.map (titleKey casefold) := by
            rw [List.map_cons, List.append_assoc, List.singleton_append]
          rw [hPaths, hKeys, List.forall_mem_cons, List.forall_mem_cons]
          dsimp only
          constructor
          · intro h
            split_ifs at h with hBad
            rw [not_or, not_or, not_or, not_not] at hBad
            have hMapped' : ((mapped ++ [(path, page)]).map (·.1)).Nodup := by
              rw [List.map_append, List.map_singleton]
              refine List.nodup_append.mpr ⟨hMapped, List.nodup_singleton _, ?_⟩
              rintro a hA b hB rfl
              rw [List.mem_singleton.mp hB] at hA
              exact hBad.2.1 hA
            have hTitles' : (titles ++ [titleKey casefold page]).Nodup := by
              refine List.nodup_append.mpr ⟨hTitles, List.nodup_singleton _, ?_⟩
              rintro a hA b hB rfl
              rw [List.mem_singleton.mp hB] at hA
              exact hBad.2.2.2 hA
            obtain ⟨hWithin, hOnce, hNamed, hKeys, rfl⟩ := (ih hMapped' hTitles').mp h
            exact ⟨⟨⟨path, hBad.1, hPath⟩, hWithin⟩, hOnce, ⟨hBad.2.2.1, hNamed⟩, hKeys, rfl⟩
          · rintro ⟨⟨⟨path', hPath', hSame⟩, hWithin⟩, hOnce, ⟨hName, hNamed⟩, hKeys, rfl⟩
            obtain rfl := Option.some.inj (hPath.symm.trans hSame)
            have hMapped' := hOnce
            rw [List.map_append] at hMapped'
            have hTitles' := (List.nodup_append.mp hKeys).1
            have hFresh := (List.nodup_append.mp hMapped').1
            rw [if_neg]
            · exact (ih hFresh hTitles').mpr ⟨hWithin, hOnce, hNamed, hKeys, rfl⟩
            · rw [List.map_append, List.map_singleton] at hFresh
              rw [not_or, not_or, not_or, not_not]
              refine ⟨hPath', fun hMem => ?_, hName, fun hMem => ?_⟩
              · exact (List.nodup_append.mp hFresh).2.2 _ hMem _ (List.mem_singleton_self _) rfl
              · exact (List.nodup_append.mp hTitles').2.2 _ hMem _ (List.mem_singleton_self _) rfl

/-- The pages in the order of their paths. -/
def sortedPages (graph : LogseqGraph) (logicalPaths : List Str) : List (Str × LogseqPage) :=
  (logicalPaths.insertionSort (· ≤ ·)).filterMap fun path =>
    (withPaths graph.canonicalPages).find? (·.1 = path)

theorem canonicalPages_eq_ok {pages : List (Str × LogseqPage)} :
    canonicalPages casefold graph logicalPaths = .ok pages ↔
      Mapped casefold graph logicalPaths ∧ pages = sortedPages graph logicalPaths := by
  have hMap {out : List (Str × LogseqPage)} := @mapPages_eq_ok casefold logicalPaths
    graph.canonicalPages [] out [] List.nodup_nil List.nodup_nil
  rw [canonicalPages]
  constructor
  · intro h
    split_ifs at h with hMany hDistinct
    split at h
    · cases h
    · next mapped hMapped =>
        obtain ⟨hWithin, hOnce, hNamed, hTitles, rfl⟩ := hMap.mp hMapped
        rw [List.nil_append] at h hOnce hTitles
        split_ifs at h with hMissing
        refine ⟨⟨not_lt.mp hMany, hDistinct, hWithin, hOnce, hNamed, hTitles, ?_⟩,
          (Except.ok.inj h).symm⟩
        intro path hPath
        by_contra hNot
        exact hMissing ⟨path, hPath, hNot⟩
  · rintro ⟨hMapped, rfl⟩
    rw [if_neg (not_lt.mpr hMapped.few), if_neg (not_not.mpr hMapped.distinct),
      hMap.mpr ⟨hMapped.within, hMapped.once, hMapped.named, hMapped.titles, rfl⟩]
    dsimp only
    rw [List.nil_append, if_neg]
    · rfl
    · rintro ⟨path, hPath, hNot⟩
      exact hNot (hMapped.complete path hPath)

theorem mem_withPaths {pages : List LogseqPage} {entry : Str × LogseqPage} :
    entry ∈ withPaths pages ↔ entry.2 ∈ pages ∧ entry.2.logicalPath = some entry.1 := by
  rw [withPaths, List.mem_filterMap]
  constructor
  · rintro ⟨page, hPage, hSome⟩
    obtain ⟨path, hPath, rfl⟩ := Option.map_eq_some_iff.mp hSome
    exact ⟨hPage, hPath⟩
  · rintro ⟨hPage, hPath⟩
    exact ⟨entry.2, hPage, by rw [hPath]; rfl⟩

theorem fst_eq_of_find? {α β : Type} [DecidableEq α] {l : List (α × β)} {key : α} {entry : α × β}
    (hFind : l.find? (·.1 = key) = some entry) : entry.1 = key := by
  have hKey := List.find?_some hFind
  exact of_decide_eq_true hKey

theorem find?_eq_of_nodup {α β : Type} [DecidableEq α] {l : List (α × β)}
    (hNodup : (l.map (·.1)).Nodup) {entry : α × β} (hMem : entry ∈ l) :
    l.find? (·.1 = entry.1) = some entry := by
  induction l with
  | nil => cases hMem
  | cons first rest ih =>
      rw [List.map_cons, List.nodup_cons] at hNodup
      rcases List.mem_cons.mp hMem with rfl | hRest
      · exact List.find?_cons_of_pos (decide_eq_true rfl)
      · have hNe : ¬first.1 = entry.1 := by
          intro hEq
          exact hNodup.1 (hEq ▸ List.mem_map_of_mem hRest)
        rw [List.find?_cons_of_neg (by rw [decide_eq_true_eq]; exact hNe)]
        exact ih hNodup.2 hRest

theorem Mapped.map_fst_sortedPages (h : Mapped casefold graph logicalPaths) :
    (sortedPages graph logicalPaths).map (·.1) = logicalPaths.insertionSort (· ≤ ·) := by
  have hFind : ∀ path ∈ logicalPaths.insertionSort (· ≤ ·), ∃ entry,
      (withPaths graph.canonicalPages).find? (·.1 = path) = some entry ∧ entry.1 = path := by
    intro path hPath
    rw [List.mem_insertionSort] at hPath
    obtain ⟨entry, hEntry, rfl⟩ := List.mem_map.mp (h.complete path hPath)
    exact ⟨entry, find?_eq_of_nodup h.once hEntry, rfl⟩
  rw [sortedPages]
  generalize logicalPaths.insertionSort (· ≤ ·) = paths at hFind
  induction paths with
  | nil => rfl
  | cons path paths ih =>
      rw [List.forall_mem_cons] at hFind
      obtain ⟨⟨entry, hEntry, rfl⟩, hRest⟩ := hFind
      rw [List.filterMap_cons, hEntry]
      exact congrArg _ (ih hRest)

theorem Mapped.mem_sortedPages (h : Mapped casefold graph logicalPaths)
    {entry : Str × LogseqPage} :
    entry ∈ sortedPages graph logicalPaths ↔ entry ∈ withPaths graph.canonicalPages := by
  rw [sortedPages, List.mem_filterMap]
  constructor
  · rintro ⟨path, -, hFind⟩
    exact List.mem_of_find?_eq_some hFind
  · intro hMem
    refine ⟨entry.1, ?_, find?_eq_of_nodup h.once hMem⟩
    obtain ⟨hPage, hPath⟩ := mem_withPaths.mp hMem
    obtain ⟨path, hIn, hSame⟩ := h.within entry.2 hPage
    obtain rfl := Option.some.inj (hPath.symm.trans hSame)
    exact List.mem_insertionSort _ |>.mpr hIn

/-- Every page of the graph is there once. -/
theorem Mapped.perm_sortedPages (h : Mapped casefold graph logicalPaths) :
    ((sortedPages graph logicalPaths).map (·.2)).Perm graph.canonicalPages := by
  have hSorted : (sortedPages graph logicalPaths).Nodup := by
    apply List.Nodup.of_map (·.1)
    rw [h.map_fst_sortedPages]
    exact (List.perm_insertionSort _ _).nodup_iff.mpr h.distinct
  have hPerm : (sortedPages graph logicalPaths).Perm (withPaths graph.canonicalPages) :=
    (List.perm_ext_iff_of_nodup hSorted (.of_map _ h.once)).mpr fun _ => h.mem_sortedPages
  have hAll : ∀ pages : List LogseqPage,
      (∀ page ∈ pages, ∃ path ∈ logicalPaths, page.logicalPath = some path) →
        (withPaths pages).map (·.2) = pages := by
    intro pages hWithin
    induction pages with
    | nil => rfl
    | cons page pages ih =>
        rw [List.forall_mem_cons] at hWithin
        obtain ⟨⟨path, -, hPath⟩, hRest⟩ := hWithin
        rw [withPaths, List.filterMap_cons, hPath]
        exact congrArg (page :: ·) (ih hRest)
  rw [← hAll graph.canonicalPages h.within]
  exact (hPerm.map _).trans (by rw [hAll graph.canonicalPages h.within])

end Pages

section Edges

variable {token : List Str → OpaqueId} {sourceRevision : OpaqueId}

/-- An edge is added unless it is there. -/
def insertNew (edges : List (OpaqueId × OpaqueId)) (edge : OpaqueId × OpaqueId) :
    List (OpaqueId × OpaqueId) :=
  if edge ∈ edges then edges else edges ++ [edge]

/-- The references that resolve. -/
def resolved (rest : List (OpaqueId × Except ProjectionError OpaqueId)) :
    List (OpaqueId × OpaqueId) :=
  rest.filterMap fun reference => reference.2.toOption.map (reference.1, ·)

theorem mem_resolved {rest : List (OpaqueId × Except ProjectionError OpaqueId)}
    {edge : OpaqueId × OpaqueId} : edge ∈ resolved rest ↔ (edge.1, .ok edge.2) ∈ rest := by
  rw [resolved, List.mem_filterMap]
  constructor
  · rintro ⟨⟨source, target⟩, hMem, hSome⟩
    cases target with
    | error e => cases hSome
    | ok target =>
        obtain rfl := Option.some.inj hSome
        exact hMem
  · intro hMem
    exact ⟨_, hMem, rfl⟩

theorem mem_insertNew {edges : List (OpaqueId × OpaqueId)} {edge other : OpaqueId × OpaqueId} :
    other ∈ insertNew edges edge ↔ other ∈ edges ∨ other = edge := by
  rw [insertNew]
  split_ifs with hMem
  · constructor
    · exact .inl
    · rintro (hOld | rfl)
      · exact hOld
      · exact hMem
  · rw [List.mem_append, List.mem_singleton]

theorem nodup_insertNew {edges : List (OpaqueId × OpaqueId)} (hNodup : edges.Nodup)
    (edge : OpaqueId × OpaqueId) : (insertNew edges edge).Nodup := by
  rw [insertNew]
  split_ifs with hMem
  · exact hNodup
  · refine List.nodup_append.mpr ⟨hNodup, List.nodup_singleton _, ?_⟩
    rintro a hA b hB rfl
    exact hMem (List.mem_singleton.mp hB ▸ hA)

theorem length_le_foldl_insertNew (new edges : List (OpaqueId × OpaqueId)) :
    edges.length ≤ (new.foldl insertNew edges).length := by
  induction new generalizing edges with
  | nil => exact le_rfl
  | cons edge new ih =>
      refine le_trans ?_ (ih (insertNew edges edge))
      rw [insertNew]
      split_ifs
      · exact le_rfl
      · exact List.length_append.symm ▸ Nat.le_add_right _ _

theorem mem_foldl_insertNew {new edges : List (OpaqueId × OpaqueId)}
    {edge : OpaqueId × OpaqueId} :
    edge ∈ new.foldl insertNew edges ↔ edge ∈ edges ∨ edge ∈ new := by
  induction new generalizing edges with
  | nil => simp
  | cons first new ih =>
      rw [List.foldl_cons, ih, mem_insertNew, List.mem_cons, or_assoc]

theorem nodup_foldl_insertNew (new : List (OpaqueId × OpaqueId))
    {edges : List (OpaqueId × OpaqueId)} (hNodup : edges.Nodup) :
    (new.foldl insertNew edges).Nodup := by
  induction new generalizing edges with
  | nil => exact hNodup
  | cons first new ih => exact ih (nodup_insertNew hNodup first)

/-- The loop over the references ends well just when each resolves and the edges are few. -/
theorem addEdges_eq_ok {rest : List (OpaqueId × Except ProjectionError OpaqueId)}
    {edges out : List (OpaqueId × OpaqueId)} (hFew : edges.length ≤ maxEdges) :
    addEdges rest edges = .ok out ↔ (∀ reference ∈ rest, ∃ target, reference.2 = .ok target) ∧
      ((resolved rest).foldl insertNew edges).length ≤ maxEdges ∧
      out = (resolved rest).foldl insertNew edges := by
  induction rest generalizing edges with
  | nil =>
      rw [addEdges]
      exact ⟨fun h => ⟨List.forall_mem_nil _, hFew, (Except.ok.inj h).symm⟩,
        fun h => congrArg _ h.2.2.symm⟩
  | cons reference rest ih =>
      obtain ⟨source, target⟩ := reference
      cases target with
      | error e =>
          rw [addEdges]
          constructor
          · rintro ⟨⟩
          · rintro ⟨hAll, -⟩
            obtain ⟨target, hTarget⟩ := hAll _ List.mem_cons_self
            cases hTarget
      | ok target =>
          have hResolved : (resolved ((source, .ok target) :: rest)).foldl insertNew edges =
              (resolved rest).foldl insertNew (insertNew edges (source, target)) := rfl
          have hFirst : ∃ t, (Except.ok target : Except ProjectionError OpaqueId) = .ok t :=
            ⟨target, rfl⟩
          rw [addEdges, hResolved, List.forall_mem_cons, and_iff_right hFirst, insertNew]
          split_ifs with hMem hMany
          · exact ih hFew
          · have hLonger := length_le_foldl_insertNew (resolved rest) (edges ++ [(source, target)])
            rw [List.length_append, List.length_singleton] at hLonger
            constructor
            · rintro ⟨⟩
            · rintro ⟨-, hLength, -⟩
              omega
          · refine ih ?_
            rw [List.length_append, List.length_singleton]
            omega

theorem pairKey_injective : Function.Injective pairKey := by
  rintro ⟨⟨a, hA⟩, ⟨b, hB⟩⟩ ⟨⟨c, hC⟩, ⟨d, hD⟩⟩ h
  have hPair := Prod.mk.inj (toLex.injective h)
  obtain ⟨rfl, rfl⟩ := hPair
  rfl

/-- The sorted edges are in the order that the result must have. -/
theorem edgeKey_sorted {edges : List (OpaqueId × OpaqueId)} (hNodup : edges.Nodup) :
    (((edges.insertionSort (pairKey · ≤ pairKey ·)).map fun edge =>
      (⟨edge.1, edge.2⟩ : GraphTopologyReference)).map edgeKey).Pairwise (· < ·) := by
  rw [List.map_map, List.pairwise_map]
  have hSorted := List.pairwise_insertionSort (pairKey · ≤ pairKey ·) edges
  have hDistinct : (edges.insertionSort (pairKey · ≤ pairKey ·)).Nodup :=
    (List.perm_insertionSort _ _).nodup_iff.mpr hNodup
  refine (hSorted.and hDistinct).imp ?_
  rintro a b ⟨hLe, hNe⟩
  have hLt : pairKey a < pairKey b := lt_of_le_of_ne hLe (pairKey_injective.ne hNe)
  exact Prod.Lex.lt_iff.mpr (.inr ⟨rfl, hLt⟩)

end Edges

section Accepted

variable {token : List Str → OpaqueId} {sourceRevision : OpaqueId}

theorem acceptNodes_append (progress : Progress) (front back : List GraphTopologyNode) :
    acceptNodes progress (front ++ back) =
      match acceptNodes progress front with
      | .error message => .error message
      | .ok next => acceptNodes next back := by
  induction front generalizing progress with
  | nil => rfl
  | cons node front ih =>
      rw [List.cons_append, acceptNodes, acceptNodes]
      cases acceptNode progress node with
      | error message => rfl
      | ok next => exact ih next

/-- The validator has seen these ids, and has begun no parent that it has not seen. -/
structure Fresh (progress : Progress) : Prop where
  begun : ∀ id, id ∉ progress.seen → progress.nextOrdinal (some id) = 0

/-- The validator accepts some entries below a parent, which move on its next ordinal only. -/
structure Accepts (progress : Progress) (entries : List Entry) (parentId : Option OpaqueId)
    (ordinal : ℕ) (next : Progress) : Prop where
  accepted : acceptNodes progress (entries.map (·.node)) = .ok next
  seen : next.seen = progress.seen ++ entries.map (·.node.id)
  fresh : Fresh next
  ordinal : next.nextOrdinal parentId = ordinal
  others : ∀ id, id ∈ progress.seen → some id ≠ parentId →
    next.nextOrdinal (some id) = progress.nextOrdinal (some id)
  root : parentId ≠ none → next.nextOrdinal none = progress.nextOrdinal none

theorem Accepts.nil {progress : Progress} (hFresh : Fresh progress) {parentId : Option OpaqueId}
    {ordinal : ℕ} (hOrdinal : progress.nextOrdinal parentId = ordinal) :
    Accepts progress [] parentId ordinal progress where
  accepted := rfl
  seen := (List.append_nil _).symm
  fresh := hFresh
  ordinal := hOrdinal
  others _ _ _ := rfl
  root _ := rfl

theorem Accepts.append {progress middle last : Progress} {front back : List Entry}
    {parentId : Option OpaqueId} {i j : ℕ} (h : Accepts progress front parentId i middle)
    (h' : Accepts middle back parentId j last) :
    Accepts progress (front ++ back) parentId j last where
  accepted := by
    rw [List.map_append, acceptNodes_append, h.accepted]
    exact h'.accepted
  seen := by rw [h'.seen, h.seen, List.map_append, List.append_assoc]
  fresh := h'.fresh
  ordinal := h'.ordinal
  others id hSeen hNe := by
    rw [h'.others id (h.seen ▸ List.mem_append_left _ hSeen) hNe, h.others id hSeen hNe]
  root hSome := (h'.root hSome).trans (h.root hSome)

/-- What the validator has seen after a node that it accepts. -/
def pushed (progress : Progress) (node : GraphTopologyNode) : Progress where
  seen := progress.seen ++ [node.id]
  nextOrdinal := Function.update progress.nextOrdinal node.parentId (node.ordinal + 1)

/-- The node is the next one below a parent that has been seen. -/
structure Next (progress : Progress) (node : GraphTopologyNode) : Prop where
  new : node.id ∉ progress.seen
  kind : node.kind = .page ↔ node.parentId = none
  parent : ∀ parent ∈ node.parentId, parent ∈ progress.seen
  ordinal : node.ordinal = progress.nextOrdinal node.parentId

section Next

variable {progress : Progress} {node : GraphTopologyNode} (hNext : Next progress node)

include hNext

theorem Next.acceptNode : acceptNode progress node = .ok (pushed progress node) := by
  have hBlock : node.kind = .block → node.parentId ≠ none := by
    intro hKind hNone
    rw [hNext.kind.mpr hNone] at hKind
    cases hKind
  rw [SessionTopologyModels.acceptNode, if_neg hNext.new,
    if_neg (not_and.mpr fun hKind => not_not.mpr (hNext.kind.mp hKind)),
    if_neg (not_and.mpr hBlock), if_neg, if_neg (not_not.mpr hNext.ordinal)]
  · rfl
  · rintro ⟨parent, hMem, hNot⟩
    exact hNot (hNext.parent parent hMem)

theorem Next.ne_parent {id : OpaqueId} (hId : id ∉ progress.seen) : some id ≠ node.parentId := by
  intro hEq
  exact hId (hNext.parent id hEq.symm)

theorem Next.nextOrdinal_pushed (hFresh : Fresh progress) {id : OpaqueId}
    (hId : id ∉ progress.seen) : (pushed progress node).nextOrdinal (some id) = 0 :=
  (Function.update_of_ne (hNext.ne_parent hId) _ _).trans (hFresh.begun id hId)

theorem Next.fresh (hFresh : Fresh progress) : Fresh (pushed progress node) where
  begun id hId := by
    rw [pushed, List.mem_append, not_or] at hId
    exact hNext.nextOrdinal_pushed hFresh hId.1

end Next

/-- A node with what is below it. -/
theorem Accepts.cons {progress next : Progress} {entry : Entry} {below : List Entry} {k : ℕ}
    (hNext : Next progress entry.node)
    (hBelow : Accepts (pushed progress entry.node) below (some entry.node.id) k next) :
    Accepts progress (entry :: below) entry.node.parentId (entry.node.ordinal + 1) next where
  accepted := by
    rw [List.map_cons, acceptNodes, hNext.acceptNode]
    exact hBelow.accepted
  seen := by
    rw [hBelow.seen, List.map_cons, pushed, List.append_assoc]
    rfl
  fresh := hBelow.fresh
  ordinal := by
    have hSelf : (pushed progress entry.node).nextOrdinal entry.node.parentId =
        entry.node.ordinal + 1 := Function.update_self _ _ _
    cases hId : entry.node.parentId with
    | none =>
        rw [hBelow.root (by rintro ⟨⟩), ← hId]
        exact hSelf
    | some parent =>
        have hIn := hNext.parent parent hId
        have hNe := hNext.ne_parent hNext.new
        rw [hId] at hNe
        rw [hBelow.others parent (List.mem_append_left _ hIn) hNe.symm, ← hId]
        exact hSelf
  others id hSeen hOther := by
    rw [hBelow.others id (List.mem_append_left _ hSeen)]
    · exact Function.update_of_ne hOther _ _
    · intro hEq
      rw [Option.some.inj hEq] at hSeen
      exact hNext.new hSeen
  root hSome := by
    rw [hBelow.root (by rintro ⟨⟩)]
    exact Function.update_of_ne hSome.symm _ _

/-- The ids that are to come are new. -/
theorem not_mem_seen {progress : Progress} {entry : Entry} {entries : List Entry}
    (hNodup : (progress.seen ++ (entry :: entries).map (·.node.id)).Nodup) :
    entry.node.id ∉ progress.seen := by
  intro hSeen
  exact (List.nodup_append.mp hNodup).2.2 _ hSeen _ List.mem_cons_self rfl

mutual
theorem LogseqNode.accepts_entries (parentId : OpaqueId) (depth ordinal : ℕ) :
    ∀ (node : LogseqNode) (progress : Progress), Fresh progress → parentId ∈ progress.seen →
      progress.nextOrdinal (some parentId) = ordinal →
      (progress.seen ++ (node.entries token sourceRevision parentId depth ordinal).map
        (·.node.id)).Nodup →
      ∃ next, Accepts progress (node.entries token sourceRevision parentId depth ordinal)
        (some parentId) (ordinal + 1) next
  | .node uuid wikilinks blockRefs children, progress, hFresh, hParent, hOrdinal, hNodup => by
      rw [LogseqNode.entries] at hNodup ⊢
      have hNew := not_mem_seen hNodup
      have hNext : Next progress
          ⟨blockId token sourceRevision uuid, .block, some parentId, ordinal⟩ := by
        refine ⟨hNew, by simp, ?_, hOrdinal.symm⟩
        intro parent hMem
        rwa [← Option.some.inj hMem]
      rw [List.map_cons, List.append_cons] at hNodup
      obtain ⟨next, hBelow⟩ := accepts_entriesAll (blockId token sourceRevision uuid) (depth + 1) 0
        children _ (hNext.fresh hFresh) (List.mem_append_right _ (List.mem_singleton_self _))
        (hNext.nextOrdinal_pushed hFresh hNew) hNodup
      exact ⟨next, .cons hNext hBelow⟩

theorem accepts_entriesAll (parentId : OpaqueId) (depth : ℕ) :
    ∀ (ordinal : ℕ) (nodes : List LogseqNode) (progress : Progress), Fresh progress →
      parentId ∈ progress.seen → progress.nextOrdinal (some parentId) = ordinal →
      (progress.seen ++ (entriesAll token sourceRevision parentId depth ordinal nodes).map
        (·.node.id)).Nodup →
      ∃ next, Accepts progress (entriesAll token sourceRevision parentId depth ordinal nodes)
        (some parentId) (ordinal + nodes.length) next
  | ordinal, [], progress, hFresh, _, hOrdinal, _ => by
      rw [entriesAll]
      exact ⟨progress, .nil hFresh hOrdinal⟩
  | ordinal, node :: nodes, progress, hFresh, hParent, hOrdinal, hNodup => by
      rw [entriesAll] at hNodup ⊢
      rw [List.map_append, ← List.append_assoc] at hNodup
      obtain ⟨middle, hMiddle⟩ := node.accepts_entries parentId depth ordinal progress hFresh
        hParent hOrdinal (List.nodup_append.mp hNodup).1
      rw [← hMiddle.seen] at hNodup
      obtain ⟨next, hNext⟩ := accepts_entriesAll parentId depth (ordinal + 1) nodes middle
        hMiddle.fresh (hMiddle.seen ▸ List.mem_append_left _ hParent) hMiddle.ordinal hNodup
      have hAll := hMiddle.append hNext
      rw [Nat.add_assoc, Nat.add_comm 1, ← List.length_cons (a := node)] at hAll
      exact ⟨next, hAll⟩
end

theorem accepts_pagesEntries (ordinal : ℕ) (pages : List (Str × LogseqPage)) (progress : Progress)
    (hFresh : Fresh progress) (hOrdinal : progress.nextOrdinal none = ordinal)
    (hNodup : (progress.seen ++ (pagesEntries token sourceRevision ordinal pages).map
      (·.node.id)).Nodup) :
    ∃ next, Accepts progress (pagesEntries token sourceRevision ordinal pages) none
      (ordinal + pages.length) next := by
  induction pages generalizing ordinal progress with
  | nil => exact ⟨progress, .nil hFresh hOrdinal⟩
  | cons page pages ih =>
      obtain ⟨logicalPath, page⟩ := page
      rw [pagesEntries] at hNodup ⊢
      have hNew := not_mem_seen hNodup
      have hNext : Next progress (pageEntry token sourceRevision ordinal logicalPath).node :=
        ⟨hNew, by simp [pageEntry], by rintro _ ⟨⟩, hOrdinal.symm⟩
      rw [List.map_cons, List.append_cons, List.map_append, ← List.append_assoc] at hNodup
      obtain ⟨middle, hBelow⟩ := accepts_entriesAll (pageId token sourceRevision logicalPath) 1 0
        page.rootNodes _ (hNext.fresh hFresh) (List.mem_append_right _ (List.mem_singleton_self _))
        (hNext.nextOrdinal_pushed hFresh hNew) (List.nodup_append.mp hNodup).1
      have hSeen : middle.seen = progress.seen ++
          [(pageEntry token sourceRevision ordinal logicalPath).node.id] ++ _ := hBelow.seen
      rw [← hSeen] at hNodup
      have hPage := Accepts.cons hNext hBelow
      obtain ⟨next, hRest⟩ := ih (ordinal + 1) middle hBelow.fresh hPage.ordinal hNodup
      have hAll := hPage.append hRest
      rw [Nat.add_assoc, Nat.add_comm 1, ← List.length_cons (a := (logicalPath, page))] at hAll
      exact ⟨next, hAll⟩

end Accepted

section Preorder

variable {token : List Str → OpaqueId} {sourceRevision : OpaqueId}

mutual
theorem LogseqNode.isPreorder_entries (parentId : OpaqueId) (depth ordinal : ℕ) :
    ∀ node : LogseqNode, Forest.IsPreorder GraphTopologyNode.id GraphTopologyNode.parentId
      (some parentId) ((node.entries token sourceRevision parentId depth ordinal).map (·.node))
  | .node uuid wikilinks blockRefs children => by
      have hBelow :=
        isPreorder_entriesAll (blockId token sourceRevision uuid) (depth + 1) 0 children
      have hAll := Forest.IsPreorder.cons (a := (⟨blockId token sourceRevision uuid, .block,
        some parentId, ordinal⟩ : GraphTopologyNode)) hBelow (.nil _)
      rw [List.append_nil] at hAll
      rw [LogseqNode.entries]
      exact hAll

theorem isPreorder_entriesAll (parentId : OpaqueId) (depth : ℕ) :
    ∀ (ordinal : ℕ) (nodes : List LogseqNode),
      Forest.IsPreorder GraphTopologyNode.id GraphTopologyNode.parentId (some parentId)
        ((entriesAll token sourceRevision parentId depth ordinal nodes).map (·.node))
  | _, [] => by
      rw [entriesAll]
      exact .nil _
  | ordinal, node :: nodes => by
      rw [entriesAll, List.map_append]
      exact (node.isPreorder_entries parentId depth ordinal).append
        (isPreorder_entriesAll parentId depth (ordinal + 1) nodes)
end

theorem isPreorder_pagesEntries (ordinal : ℕ) (pages : List (Str × LogseqPage)) :
    Forest.IsPreorder GraphTopologyNode.id GraphTopologyNode.parentId none
      ((pagesEntries token sourceRevision ordinal pages).map (·.node)) := by
  induction pages generalizing ordinal with
  | nil => exact .nil _
  | cons page pages ih =>
      obtain ⟨logicalPath, page⟩ := page
      have hBelow := @isPreorder_entriesAll token sourceRevision
        (pageId token sourceRevision logicalPath) 1 0 page.rootNodes
      rw [pagesEntries, List.map_cons, List.map_append]
      exact Forest.IsPreorder.cons (a := (pageEntry token sourceRevision ordinal logicalPath).node)
        hBelow (ih (ordinal + 1))

end Preorder

section References

variable (token : List Str → OpaqueId) (sourceRevision : OpaqueId) (graph : LogseqGraph)

/-- A wikilink stands for a page of the graph. -/
inductive Links (reference : Str) : OpaqueId → Prop
  | page {target page : LogseqPage} {path : Str} (hTarget : graph.getPage reference = some target)
      (hPath : target.logicalPath = some path) (hPage : page ∈ graph.canonicalPages)
      (hSame : page.logicalPath = some path) (hTitle : page.title = target.title) :
      Links reference (pageId token sourceRevision path)

/-- A block reference stands for a block that is projected. -/
inductive Embeds (blocks : List LogseqNode) (reference : Str) : OpaqueId → Prop
  | block {target block : LogseqNode} (hTarget : graph.getNodeByEmbedRef reference = some target)
      (hBlock : block ∈ blocks) (hSame : block.uuid = target.uuid) :
      Embeds blocks reference (blockId token sourceRevision block.uuid)

/-- A block refers to what its wikilinks and its block references stand for. -/
def Refers (blocks : List LogseqNode) (block : LogseqNode) (id : OpaqueId) : Prop :=
  (∃ reference ∈ block.wikilinks, Links token sourceRevision graph reference id) ∨
    ∃ reference ∈ block.blockRefs, Embeds token sourceRevision graph blocks reference id

/-- Each reference of each block stands for something. -/
def Resolve (blocks : List LogseqNode) : Prop :=
  ∀ block ∈ blocks,
    (∀ reference ∈ block.wikilinks, ∃ id, Links token sourceRevision graph reference id) ∧
      ∀ reference ∈ block.blockRefs, ∃ id, Embeds token sourceRevision graph blocks reference id

variable {token sourceRevision graph} {casefold : Str → Str} {logicalPaths : List Str}

theorem wikilinkTarget_eq_ok (h : Mapped casefold graph logicalPaths) {reference : Str}
    {id : OpaqueId} :
    wikilinkTarget token sourceRevision graph (sortedPages graph logicalPaths) reference = .ok id ↔
      Links token sourceRevision graph reference id := by
  have hNodup : ((sortedPages graph logicalPaths).map (·.1)).Nodup := by
    rw [h.map_fst_sortedPages]
    exact (List.perm_insertionSort _ _).nodup_iff.mpr h.distinct
  rw [wikilinkTarget]
  constructor
  · intro hOk
    split at hOk
    · cases hOk
    · next target hTarget =>
        split at hOk
        · cases hOk
        · next path hPath =>
            split at hOk
            · cases hOk
            · next declared hFind =>
                split_ifs at hOk with hTitle
                obtain rfl := Except.ok.inj hOk
                have hMem := h.mem_sortedPages.mp (List.mem_of_find?_eq_some hFind)
                obtain ⟨hPage, hSame⟩ := mem_withPaths.mp hMem
                have hKey : declared.1 = path := fst_eq_of_find? hFind
                rw [hKey] at hSame
                exact .page hTarget hPath hPage hSame (not_not.mp hTitle)
  · rintro ⟨hTarget, hPath, hPage, hSame, hTitle⟩
    rename_i target page path
    have hMem : (path, page) ∈ sortedPages graph logicalPaths :=
      h.mem_sortedPages.mpr (mem_withPaths.mpr ⟨hPage, hSame⟩)
    have hFind := find?_eq_of_nodup hNodup hMem
    rw [hTarget]
    dsimp only
    rw [hPath]
    dsimp only
    rw [hFind]
    exact if_neg (not_not.mpr hTitle)

/-- What `node_ids` has for the blocks. -/
theorem blockRefTarget_eq_ok {blocks : List LogseqNode} {reference : Str} {id : OpaqueId} :
    blockRefTarget graph (blocks.map fun block =>
        (block.uuid, blockId token sourceRevision block.uuid)) reference = .ok id ↔
      Embeds token sourceRevision graph blocks reference id := by
  rw [blockRefTarget]
  constructor
  · intro hOk
    split at hOk
    · cases hOk
    · next target hTarget =>
        split at hOk
        · cases hOk
        · next known hFind =>
            obtain ⟨block, hBlock, rfl⟩ := List.mem_map.mp (List.mem_of_find?_eq_some hFind)
            obtain rfl := Except.ok.inj hOk
            have hKey : block.uuid = target.uuid := fst_eq_of_find? hFind
            exact .block hTarget hBlock hKey
  · rintro ⟨hTarget, hBlock, hSame⟩
    rename_i target block
    rw [hTarget]
    dsimp only
    cases hFind : (blocks.map fun block =>
        (block.uuid, blockId token sourceRevision block.uuid)).find? (·.1 = target.uuid) with
    | none =>
        have hNone := List.find?_eq_none.mp hFind _ (List.mem_map_of_mem hBlock)
        exact absurd (decide_eq_true hSame) hNone
    | some known =>
        obtain ⟨other, -, rfl⟩ := List.mem_map.mp (List.mem_of_find?_eq_some hFind)
        have hKey : other.uuid = target.uuid := fst_eq_of_find? hFind
        dsimp only
        rw [hKey, ← hSame]

end References

section Projection

variable (token : List Str → OpaqueId) (sourceRevision : OpaqueId) (graph : LogseqGraph)
  (logicalPaths : List Str)

/-- The pages in the order of their paths, and below each its blocks. -/
def entries : List Entry := pagesEntries token sourceRevision 0 (sortedPages graph logicalPaths)

/-- The blocks of the graph, in the order of the entries. -/
def blocks : List LogseqNode :=
  (entries token sourceRevision graph logicalPaths).filterMap (·.block)

/-- The topology of a graph: its pages and blocks in preorder, and an edge for each two between
which there is a reference. -/
structure Projection (r : GraphTopologyResult) : Prop where
  topologyId : r.topologyId = token [sourceRevision.text, "graph".toList]
  provenance : r.sourceRevision = sourceRevision
  nodes : r.nodes = (entries token sourceRevision graph logicalPaths).map (·.node)
  edges_sorted : (r.edges.map edgeKey).Pairwise (· < ·)
  edges : ∀ source target, ⟨source, target⟩ ∈ r.edges ↔
    ∃ block ∈ blocks token sourceRevision graph logicalPaths,
      source = blockId token sourceRevision block.uuid ∧
        Refers token sourceRevision graph (blocks token sourceRevision graph logicalPaths) block
          target

variable {token sourceRevision graph logicalPaths} {casefold : Str → Str}

theorem State.ok_empty : ({} : State).Ok token sourceRevision where
  nodes := Nat.zero_le _
  ids := List.nodup_nil
  known := List.forall_mem_nil _

theorem blocks_after : (({} : State).after token sourceRevision
    (entries token sourceRevision graph logicalPaths)).blocks =
      blocks token sourceRevision graph logicalPaths := List.nil_append _

/-- A reference resolves to what it stands for. -/
theorem mem_references {reference : OpaqueId × Except ProjectionError OpaqueId} :
    reference ∈ references token sourceRevision graph (sortedPages graph logicalPaths)
        (({} : State).after token sourceRevision
          (entries token sourceRevision graph logicalPaths)) ↔
      ∃ block ∈ blocks token sourceRevision graph logicalPaths,
        reference.1 = blockId token sourceRevision block.uuid ∧
          reference.2 ∈ blockTargets token sourceRevision graph (sortedPages graph logicalPaths)
            ((blocks token sourceRevision graph logicalPaths).map fun block =>
              (block.uuid, blockId token sourceRevision block.uuid)) block := by
  rw [references, blocks_after, List.mem_flatMap]
  constructor
  · rintro ⟨block, hBlock, hMem⟩
    obtain ⟨target, hTarget, rfl⟩ := List.mem_map.mp hMem
    exact ⟨block, hBlock, rfl, hTarget⟩
  · rintro ⟨block, hBlock, hSource, hTarget⟩
    refine ⟨block, hBlock, List.mem_map.mpr ⟨reference.2, hTarget, ?_⟩⟩
    rw [← hSource]

theorem ok_mem_blockTargets (h : Mapped casefold graph logicalPaths) {all : List LogseqNode}
    {block : LogseqNode} {id : OpaqueId} :
    .ok id ∈ blockTargets token sourceRevision graph (sortedPages graph logicalPaths)
        (all.map fun block => (block.uuid, blockId token sourceRevision block.uuid)) block ↔
      Refers token sourceRevision graph all block id := by
  rw [blockTargets, List.mem_append, List.mem_map, List.mem_map, Refers]
  simp only [wikilinkTarget_eq_ok h, blockRefTarget_eq_ok]

theorem resolve_iff (h : Mapped casefold graph logicalPaths) {all : List LogseqNode} :
    (∀ block ∈ all, ∀ target ∈ blockTargets token sourceRevision graph
        (sortedPages graph logicalPaths)
        (all.map fun block => (block.uuid, blockId token sourceRevision block.uuid)) block,
          ∃ id, target = .ok id) ↔ Resolve token sourceRevision graph all := by
  simp only [Resolve, blockTargets, List.forall_mem_append, List.forall_mem_map,
    wikilinkTarget_eq_ok h, blockRefTarget_eq_ok]

/-- Two lists of edges in the order of the result with the same edges are the same. -/
theorem eq_of_edgeKey_sorted {edges edges' : List GraphTopologyReference}
    (hSorted : (edges.map edgeKey).Pairwise (· < ·))
    (hSorted' : (edges'.map edgeKey).Pairwise (· < ·))
    (hMem : ∀ edge, edge ∈ edges ↔ edge ∈ edges') : edges = edges' := by
  rw [List.pairwise_map] at hSorted hSorted'
  have hPerm : edges.Perm edges' :=
    (List.perm_ext_iff_of_nodup (hSorted.imp fun hLt hEq => (ne_of_lt hLt) (congrArg _ hEq))
      (hSorted'.imp fun hLt hEq => (ne_of_lt hLt) (congrArg _ hEq))).mpr hMem
  apply List.Perm.eq_of_pairwise _ hSorted hSorted' hPerm
  intro a b _ _ hLt hLt'
  exact absurd hLt' (lt_asymm hLt)

theorem projectReferences_eq_ok (h : Mapped casefold graph logicalPaths)
    {edges : List GraphTopologyReference} :
    projectReferences token sourceRevision graph (sortedPages graph logicalPaths)
        (({} : State).after token sourceRevision
          (entries token sourceRevision graph logicalPaths)) = .ok edges ↔
      Resolve token sourceRevision graph (blocks token sourceRevision graph logicalPaths) ∧
        edges.length ≤ maxEdges ∧ (edges.map edgeKey).Pairwise (· < ·) ∧
        ∀ source target, ⟨source, target⟩ ∈ edges ↔
          ∃ block ∈ blocks token sourceRevision graph logicalPaths,
            source = blockId token sourceRevision block.uuid ∧
              Refers token sourceRevision graph (blocks token sourceRevision graph logicalPaths)
                block target := by
  set s := ({} : State).after token sourceRevision (entries token sourceRevision graph logicalPaths)
    with hS
  set new := (resolved (references token sourceRevision graph (sortedPages graph logicalPaths)
    s)).foldl insertNew [] with hNew
  set out := (new.insertionSort (pairKey · ≤ pairKey ·)).map fun edge =>
    (⟨edge.1, edge.2⟩ : GraphTopologyReference) with hOut
  have hAll : (∀ reference ∈ references token sourceRevision graph
      (sortedPages graph logicalPaths) s, ∃ target, reference.2 = .ok target) ↔
        Resolve token sourceRevision graph (blocks token sourceRevision graph logicalPaths) := by
    rw [← resolve_iff h]
    constructor
    · intro hAll block hBlock target hTarget
      exact hAll (blockId token sourceRevision block.uuid, target)
        (mem_references.mpr ⟨block, hBlock, rfl, hTarget⟩)
    · intro hAll reference hMem
      obtain ⟨block, hBlock, -, hTarget⟩ := mem_references.mp hMem
      exact hAll block hBlock _ hTarget
  have hMem (source target : OpaqueId) : (⟨source, target⟩ : GraphTopologyReference) ∈ out ↔
      ∃ block ∈ blocks token sourceRevision graph logicalPaths,
        source = blockId token sourceRevision block.uuid ∧
          Refers token sourceRevision graph (blocks token sourceRevision graph logicalPaths)
            block target := by
    have hPair : (⟨source, target⟩ : GraphTopologyReference) ∈ out ↔ (source, target) ∈ new := by
      rw [hOut, List.mem_map]
      constructor
      · rintro ⟨⟨a, b⟩, hIn, hEq⟩
        obtain ⟨rfl, rfl⟩ := GraphTopologyReference.mk.inj hEq
        exact (List.mem_insertionSort _).mp hIn
      · intro hIn
        exact ⟨_, (List.mem_insertionSort _).mpr hIn, rfl⟩
    rw [hPair, hNew, mem_foldl_insertNew, mem_resolved, mem_references]
    simp only [List.not_mem_nil, false_or, ok_mem_blockTargets h]
  have hSorted : (out.map edgeKey).Pairwise (· < ·) :=
    edgeKey_sorted (nodup_foldl_insertNew _ List.nodup_nil)
  have hLength : out.length = new.length := by
    rw [hOut, List.length_map, List.length_insertionSort]
  have hLoop {edges : List (OpaqueId × OpaqueId)} :=
    @addEdges_eq_ok (references token sourceRevision graph (sortedPages graph logicalPaths) s) []
      edges (Nat.zero_le _)
  rw [projectReferences]
  constructor
  · intro hOk
    split at hOk
    · cases hOk
    · next edges hEdges =>
        obtain ⟨hResolve, hFew, rfl⟩ := hLoop.mp hEdges
        obtain rfl := Except.ok.inj hOk
        exact ⟨hAll.mp hResolve, hLength.trans_le hFew, hSorted, hMem⟩
  · rintro ⟨hResolve, hFew, hSorted', hMem'⟩
    have hSame : out = edges := by
      apply eq_of_edgeKey_sorted hSorted hSorted'
      rintro ⟨source, target⟩
      rw [hMem, hMem']
    rw [hLoop.mpr ⟨hAll.mpr hResolve, by rw [← hNew, ← hLength, hSame]; exact hFew, rfl⟩]
    exact congrArg _ hSame

theorem mem_pagesEntries {pages : List (Str × LogseqPage)} {path : Str} {page : LogseqPage}
    (hMem : (path, page) ∈ pages) (ordinal : ℕ) :
    ∃ entry ∈ pagesEntries token sourceRevision ordinal pages,
      entry.node.id = pageId token sourceRevision path := by
  induction pages generalizing ordinal with
  | nil => cases hMem
  | cons first pages ih =>
      rw [pagesEntries]
      rcases List.mem_cons.mp hMem with rfl | hRest
      · exact ⟨_, List.mem_cons_self, rfl⟩
      · obtain ⟨entry, hEntry, hId⟩ := ih hRest (ordinal + 1)
        exact ⟨entry, List.mem_cons_of_mem _ (List.mem_append_right _ hEntry), hId⟩

theorem mem_blocks {block : LogseqNode}
    (hBlock : block ∈ blocks token sourceRevision graph logicalPaths) :
    ∃ entry ∈ entries token sourceRevision graph logicalPaths,
      entry.node.id = blockId token sourceRevision block.uuid := by
  obtain ⟨entry, hEntry, hSome⟩ := List.mem_filterMap.mp hBlock
  exact ⟨entry, hEntry, sound_pagesEntries _ _ entry hEntry block hSome⟩

/-- What a block refers to is projected. -/
theorem Refers.mem_entries (h : Mapped casefold graph logicalPaths) {block : LogseqNode}
    {id : OpaqueId} (hRefers : Refers token sourceRevision graph
      (blocks token sourceRevision graph logicalPaths) block id) :
    ∃ entry ∈ entries token sourceRevision graph logicalPaths, entry.node.id = id := by
  rcases hRefers with ⟨reference, -, hLinks⟩ | ⟨reference, -, hEmbeds⟩
  · obtain ⟨-, -, hPage, hSame, -⟩ := hLinks
    exact mem_pagesEntries (h.mem_sortedPages.mpr (mem_withPaths.mpr ⟨hPage, hSame⟩)) 0
  · obtain ⟨-, hBlock, -⟩ := hEmbeds
    exact mem_blocks hBlock

/-- The validator takes what is projected. -/
theorem Projection.validate {r : GraphTopologyResult}
    (hProjection : Projection token sourceRevision graph logicalPaths r)
    (h : Mapped casefold graph logicalPaths)
    (hFits : Fits {} (entries token sourceRevision graph logicalPaths)) :
    validateCanonicalPreorder r = .ok () := by
  have hIds := hFits.ids
  obtain ⟨last, hLast⟩ := accepts_pagesEntries 0 (sortedPages graph logicalPaths) .start
    ⟨fun _ _ => rfl⟩ rfl hIds
  have hAccepted : acceptNodes .start r.nodes = .ok last := by
    rw [hProjection.nodes]
    exact hLast.accepted
  have hSeen (id : OpaqueId) : id ∈ last.seen ↔
      ∃ entry ∈ entries token sourceRevision graph logicalPaths, entry.node.id = id := by
    rw [hLast.seen]
    exact List.mem_map
  rw [validateCanonicalPreorder, hAccepted]
  dsimp only
  rw [if_neg, if_neg]
  · rw [not_not]
    have hNodup : (r.edges.map edgeKey).Nodup := hProjection.edges_sorted.imp ne_of_lt
    rw [hNodup.dedup]
    exact (List.Pairwise.insertionSort_eq (hProjection.edges_sorted.imp le_of_lt)).symm
  · rintro ⟨⟨source, target⟩, hEdge, hNot⟩
    obtain ⟨block, hBlock, hSource, hRefers⟩ := (hProjection.edges source target).mp hEdge
    rcases hNot with hNot | hNot
    · exact hNot ((hSeen source).mpr (hSource ▸ mem_blocks hBlock))
    · exact hNot ((hSeen target).mpr (hRefers.mem_entries h))

/-- What is built is validated, and kept as it is. -/
theorem topologyResult_eq_ok {nodes : List GraphTopologyNode} {edges : List GraphTopologyReference}
    {r : GraphTopologyResult} : topologyResult token sourceRevision nodes edges = .ok r ↔
      r.topologyId = token [sourceRevision.text, "graph".toList] ∧
        r.sourceRevision = sourceRevision ∧ r.nodes = nodes ∧ r.edges = edges ∧
          validateCanonicalPreorder r = .ok () := by
  rw [topologyResult]
  constructor
  · intro hOk
    split_ifs at hOk
    dsimp only at hOk
    split at hOk
    · cases hOk
    · next hValid =>
        obtain rfl := Except.ok.inj hOk
        exact ⟨rfl, rfl, rfl, rfl, hValid⟩
  · obtain ⟨topologyId, rNodes, rEdges, provenance, hNodes, hEdges⟩ := r
    rintro ⟨hId, hRevision, hNodesEq, hEdgesEq, hValid⟩
    dsimp only at hId hRevision hNodesEq hEdgesEq
    subst hId hRevision hNodesEq hEdgesEq
    rw [dif_pos hNodes, dif_pos hEdges]
    dsimp only
    rw [hValid]

/-- A graph whose nodes and references can be projected. -/
structure Projectable (token : List Str → OpaqueId) (sourceRevision : OpaqueId)
    (casefold : Str → Str) (graph : LogseqGraph) (logicalPaths : List Str) : Prop where
  mapped : Mapped casefold graph logicalPaths
  fits : Fits {} (entries token sourceRevision graph logicalPaths)
  resolve : Resolve token sourceRevision graph (blocks token sourceRevision graph logicalPaths)

theorem projectTopology_eq_ok {r : GraphTopologyResult} :
    projectTopology token sourceRevision casefold graph logicalPaths = .ok r ↔
      Projectable token sourceRevision casefold graph logicalPaths ∧
        Projection token sourceRevision graph logicalPaths r := by
  rw [projectTopology]
  constructor
  · intro hOk
    split at hOk
    · cases hOk
    · next pages hPages =>
        obtain ⟨hMapped, rfl⟩ := canonicalPages_eq_ok.mp hPages
        split at hOk
        · cases hOk
        · next s hNodes =>
            obtain ⟨hFits, rfl⟩ := (appendPages_eq_ok 0 _ State.ok_empty).mp hNodes
            split at hOk
            · cases hOk
            · next edges hEdges =>
                obtain ⟨hResolve, -, hSorted, hMem⟩ := (projectReferences_eq_ok hMapped).mp hEdges
                obtain ⟨hId, hRevision, hNodes, rfl, -⟩ := topologyResult_eq_ok.mp hOk
                exact ⟨⟨hMapped, hFits, hResolve⟩, hId, hRevision, hNodes, hSorted, hMem⟩
  · rintro ⟨⟨hMapped, hFits, hResolve⟩, hProjection⟩
    have hEdges := (projectReferences_eq_ok hMapped).mpr
      ⟨hResolve, r.edges_length, hProjection.edges_sorted, hProjection.edges⟩
    rw [canonicalPages_eq_ok.mpr ⟨hMapped, rfl⟩]
    dsimp only
    rw [(appendPages_eq_ok 0 _ State.ok_empty).mpr ⟨hFits, rfl⟩]
    dsimp only
    rw [entries] at hEdges
    rw [hEdges]
    exact topologyResult_eq_ok.mpr ⟨hProjection.topologyId, hProjection.provenance,
      hProjection.nodes, rfl, hProjection.validate hMapped hFits⟩

end Projection

section Refused

/-- An error that the adapter raises for what it is given. -/
def Refused : ProjectionError → Prop
  | .snapshotRead code _ => code = "bounds_exceeded" ∨ code = "source_rejected"
  | .validation _ => False

variable {token : List Str → OpaqueId} {sourceRevision : OpaqueId} {casefold : Str → Str}
  {graph : LogseqGraph} {logicalPaths : List Str} {e : ProjectionError}

theorem Refused.of_bounds {α : Type} {message : String}
    (h : (.error (boundsExceeded message) : Except ProjectionError α) = .error e) : Refused e := by
  obtain rfl := Except.error.inj h
  exact .inl rfl

theorem Refused.of_source {α : Type} {message : String}
    (h : (.error (sourceRejected message) : Except ProjectionError α) = .error e) : Refused e := by
  obtain rfl := Except.error.inj h
  exact .inr rfl

theorem refused_visit {s : State} {parentId : OpaqueId} {ordinal depth : ℕ} {child : LogseqNode}
    (h : visit token sourceRevision s parentId ordinal depth child = .error e) : Refused e := by
  rw [visit] at h
  split_ifs at h
  · exact .of_bounds h
  · exact .of_source h
  · exact .of_bounds h

theorem refused_appendFrames (frames : List Frame) {s : State}
    (h : appendFrames token sourceRevision frames s = .error e) : Refused e := by
  fun_induction appendFrames token sourceRevision frames s with
  | case1 s => cases h
  | case2 s _ _ _ frames ih => exact ih h
  | case3 s child rest ordinal parentId depth frames e' hVisit =>
      obtain rfl := Except.error.inj h
      exact refused_visit hVisit
  | case4 s child rest ordinal parentId depth frames next hVisit ih => exact ih h

theorem refused_appendRoots (id : OpaqueId) (ordinal : ℕ) (children : List LogseqNode) {s : State}
    (h : appendRoots token sourceRevision id ordinal children s = .error e) : Refused e := by
  induction children generalizing ordinal s with
  | nil => cases h
  | cons child rest ih =>
      rw [appendRoots] at h
      split at h
      · next e' hFrames =>
          obtain rfl := Except.error.inj h
          exact refused_appendFrames _ hFrames
      · exact ih _ h

theorem refused_appendPages (ordinal : ℕ) (pages : List (Str × LogseqPage)) {s : State}
    (h : appendPages token sourceRevision ordinal pages s = .error e) : Refused e := by
  induction pages generalizing ordinal s with
  | nil => cases h
  | cons page pages ih =>
      obtain ⟨logicalPath, page⟩ := page
      rw [appendPages] at h
      split_ifs at h
      · exact .of_bounds h
      · exact .of_source h
      · split at h
        · next e' hRoots =>
            obtain rfl := Except.error.inj h
            exact refused_appendRoots _ _ _ hRoots
        · exact ih _ h

theorem refused_mapPages {expected : List Str} (pages : List LogseqPage)
    {mapped : List (Str × LogseqPage)} {titles : List Str}
    (h : mapPages casefold expected pages mapped titles = .error e) : Refused e := by
  induction pages generalizing mapped titles with
  | nil => cases h
  | cons page pages ih =>
      rw [mapPages] at h
      split at h
      · exact .of_source h
      · dsimp only at h
        split_ifs at h
        · exact .of_source h
        · exact ih h

theorem refused_canonicalPages (h : canonicalPages casefold graph logicalPaths = .error e) :
    Refused e := by
  rw [canonicalPages] at h
  split_ifs at h
  · exact .of_bounds h
  · split at h
    · next e' hMap =>
        obtain rfl := Except.error.inj h
        exact refused_mapPages _ hMap
    · split_ifs at h
      exact .of_source h
  · exact .of_source h

theorem refused_wikilinkTarget {pages : List (Str × LogseqPage)} {reference : Str}
    (h : wikilinkTarget token sourceRevision graph pages reference = .error e) : Refused e := by
  rw [wikilinkTarget] at h
  split at h
  · exact .of_source h
  · split at h
    · exact .of_source h
    · split at h
      · exact .of_source h
      · split_ifs at h
        exact .of_source h

theorem refused_blockRefTarget {nodeIds : List (Str × OpaqueId)} {reference : Str}
    (h : blockRefTarget graph nodeIds reference = .error e) : Refused e := by
  rw [blockRefTarget] at h
  split at h
  · exact .of_source h
  · split at h
    · exact .of_source h
    · cases h

theorem refused_addEdges {rest : List (OpaqueId × Except ProjectionError OpaqueId)}
    {edges : List (OpaqueId × OpaqueId)} (hRest : ∀ reference ∈ rest, ∀ e, reference.2 = .error e →
      Refused e) (h : addEdges rest edges = .error e) : Refused e := by
  induction rest generalizing edges with
  | nil => cases h
  | cons reference rest ih =>
      rw [List.forall_mem_cons] at hRest
      obtain ⟨source, target⟩ := reference
      cases target with
      | error e' =>
          rw [addEdges] at h
          obtain rfl := Except.error.inj h
          exact hRest.1 _ rfl
      | ok target =>
          rw [addEdges] at h
          split_ifs at h
          · exact ih hRest.2 h
          · exact .of_bounds h
          · exact ih hRest.2 h

theorem refused_projectReferences {pages : List (Str × LogseqPage)} {s : State}
    (h : projectReferences token sourceRevision graph pages s = .error e) : Refused e := by
  rw [projectReferences] at h
  split at h
  · next e' hEdges =>
      obtain rfl := Except.error.inj h
      refine refused_addEdges ?_ hEdges
      intro reference hMem e' hError
      obtain ⟨block, -, hIn⟩ := List.mem_flatMap.mp hMem
      obtain ⟨target, hTarget, rfl⟩ := List.mem_map.mp hIn
      obtain rfl : target = .error e' := hError
      rcases List.mem_append.mp hTarget with hLink | hEmbed
      · obtain ⟨_, -, hEq⟩ := List.mem_map.mp hLink
        exact refused_wikilinkTarget hEq
      · obtain ⟨_, -, hEq⟩ := List.mem_map.mp hEmbed
        exact refused_blockRefTarget hEq
  · cases h

end Refused

section Results

variable (token : List Str → OpaqueId) (sourceRevision : OpaqueId) (casefold : Str → Str)
  (graph : LogseqGraph) (logicalPaths : List Str)

theorem refused_projectTopology {e : ProjectionError}
    (h : projectTopology token sourceRevision casefold graph logicalPaths = .error e) :
    Refused e := by
  rw [projectTopology] at h
  split at h
  · next e' hPages =>
      obtain rfl := Except.error.inj h
      exact refused_canonicalPages hPages
  · next pages hPages =>
      obtain ⟨hMapped, rfl⟩ := canonicalPages_eq_ok.mp hPages
      split at h
      · next e' hNodes =>
          obtain rfl := Except.error.inj h
          exact refused_appendPages _ _ hNodes
      · next s hNodes =>
          obtain ⟨hFits, rfl⟩ := (appendPages_eq_ok 0 _ State.ok_empty).mp hNodes
          split at h
          · next e' hEdges =>
              obtain rfl := Except.error.inj h
              exact refused_projectReferences hEdges
          · next edges hEdges =>
              obtain ⟨hResolve, hFew, hSorted, hMem⟩ := (projectReferences_eq_ok hMapped).mp hEdges
              have hNodesFew : (({} : State).after token sourceRevision (pagesEntries token
                  sourceRevision 0 (sortedPages graph logicalPaths))).nodes.length ≤ 1024 := by
                rw [State.after, List.length_append, List.length_map]
                exact hFits.nodes
              let r : GraphTopologyResult := ⟨token [sourceRevision.text, "graph".toList], _, edges,
                sourceRevision, hNodesFew, hFew⟩
              have hProjection : Projection token sourceRevision graph logicalPaths r :=
                ⟨rfl, rfl, rfl, hSorted, hMem⟩
              have hOk := topologyResult_eq_ok.mpr ⟨hProjection.topologyId, hProjection.provenance,
                rfl, rfl, hProjection.validate hMapped hFits⟩
              rw [hOk] at h
              cases h

/-- A graph is projected exactly if its pages are those of the paths, its nodes are few enough,
not too deep and all different, and each reference stands for a page or block that is projected,
with few enough edges; then the result is its topology. Else the adapter refuses it: the validator
of the result has nothing to object to. -/
theorem projectTopology_exact :
    match projectTopology token sourceRevision casefold graph logicalPaths with
    | .ok r => Projectable token sourceRevision casefold graph logicalPaths ∧
        Projection token sourceRevision graph logicalPaths r
    | .error e => Refused e ∧ ¬(Projectable token sourceRevision casefold graph logicalPaths ∧
        ∃ r, Projection token sourceRevision graph logicalPaths r) := by
  split
  · next r hOk => exact projectTopology_eq_ok.mp hOk
  · next e hError =>
      constructor
      · exact refused_projectTopology _ _ _ _ _ hError
      · rintro ⟨hProjectable, r, hProjection⟩
        rw [projectTopology_eq_ok.mpr ⟨hProjectable, hProjection⟩] at hError
        cases hError

variable {token sourceRevision casefold graph logicalPaths}

mutual
theorem LogseqNode.kind_entries (parentId : OpaqueId) (depth ordinal : ℕ) :
    ∀ node : LogseqNode, ∀ entry ∈ node.entries token sourceRevision parentId depth ordinal,
      entry.node.kind = .block
  | .node uuid wikilinks blockRefs children => by
      rw [LogseqNode.entries, List.forall_mem_cons]
      exact ⟨rfl, kind_entriesAll _ _ 0 children⟩

theorem kind_entriesAll (parentId : OpaqueId) (depth : ℕ) :
    ∀ (ordinal : ℕ) (nodes : List LogseqNode),
      ∀ entry ∈ entriesAll token sourceRevision parentId depth ordinal nodes,
        entry.node.kind = .block
  | _, [] => List.forall_mem_nil _
  | ordinal, node :: nodes => by
      rw [entriesAll, List.forall_mem_append]
      exact ⟨node.kind_entries parentId depth ordinal,
        kind_entriesAll parentId depth (ordinal + 1) nodes⟩
end

theorem filter_page_entriesAll (parentId : OpaqueId) (depth ordinal : ℕ)
    (nodes : List LogseqNode) :
    ((entriesAll token sourceRevision parentId depth ordinal nodes).map (·.node)).filter
      (·.kind = .page) = [] := by
  apply List.filter_eq_nil_iff.mpr
  intro node hNode
  obtain ⟨entry, hEntry, rfl⟩ := List.mem_map.mp hNode
  rw [kind_entriesAll _ _ _ nodes entry hEntry]
  decide

theorem pages_pagesEntries (ordinal : ℕ) (pages : List (Str × LogseqPage)) :
    (((pagesEntries token sourceRevision ordinal pages).map (·.node)).filter
      (·.kind = .page)).map (·.id) = pages.map fun page => pageId token sourceRevision page.1 := by
  induction pages generalizing ordinal with
  | nil => rfl
  | cons page pages ih =>
      obtain ⟨logicalPath, page⟩ := page
      rw [pagesEntries, List.map_cons, List.map_append, List.filter_cons_of_pos, List.filter_append,
        filter_page_entriesAll, List.nil_append, List.map_cons, ih]
      · rfl
      · rfl

/-- What is projected is the preorder of its forest, in which what is below a node is a run, and
the pages stand in the order of their paths. -/
theorem projectTopology_canonical {r : GraphTopologyResult}
    (hOk : projectTopology token sourceRevision casefold graph logicalPaths = .ok r) :
    Canonical r ∧ (r.nodes.filter (·.kind = .page)).map (·.id) =
      (logicalPaths.insertionSort (· ≤ ·)).map (pageId token sourceRevision) := by
  obtain ⟨⟨hMapped, hFits, -⟩, hProjection⟩ := projectTopology_eq_ok.mp hOk
  have hValid := hProjection.validate hMapped hFits
  constructor
  · rw [canonical_iff_ancestorsOpen hValid, ancestorsOpen,
      Forest.attachAll_isSome_iff (nodup_ids hValid), hProjection.nodes]
    exact isPreorder_pagesEntries 0 _
  · rw [hProjection.nodes, entries, pages_pagesEntries, ← hMapped.map_fst_sortedPages, List.map_map]
    rfl

section Sample

def sampleToken (parts : List Str) : OpaqueId :=
  if h : isOpaqueId (List.intercalate [':'] parts) then ⟨_, h⟩ else ⟨['x'], by decide⟩

def sampleBlock : LogseqNode :=
  .node ['u'] [['B']] [['v']] [.node ['v'] [] [] []]

def sampleGraph : LogseqGraph where
  canonicalPages := [⟨['B'], some ['b'], []⟩, ⟨['A'], some ['a'], [sampleBlock]⟩]
  getPage _ := some ⟨['B'], some ['b'], []⟩
  getNodeByEmbedRef _ := some (.node ['v'] [] [] [])

theorem exists_projectTopology_sample : ∃ r,
    projectTopology sampleToken ⟨['r'], by decide⟩ id sampleGraph [['b'], ['a']] = .ok r := by
  have hOk : (projectTopology sampleToken ⟨['r'], by decide⟩ id sampleGraph
      [['b'], ['a']]).toOption.isSome = true := by decide +kernel
  cases hResult : projectTopology sampleToken ⟨['r'], by decide⟩ id sampleGraph [['b'], ['a']] with
  | error e =>
      rw [hResult] at hOk
      cases hOk
  | ok r => exact ⟨r, rfl⟩

theorem projectTopology_canonical_sample : ∃ r,
    projectTopology sampleToken ⟨['r'], by decide⟩ id sampleGraph [['b'], ['a']] = .ok r ∧
      Canonical r ∧ (r.nodes.filter (·.kind = .page)).map (·.id) =
        ([['b'], ['a']].insertionSort (· ≤ ·)).map (pageId sampleToken ⟨['r'], by decide⟩) := by
  obtain ⟨r, hOk⟩ := exists_projectTopology_sample
  exact ⟨r, hOk, projectTopology_canonical hOk⟩

end Sample

section Order

variable {graph' : LogseqGraph} {logicalPaths' : List Str}

theorem withPaths_perm {pages pages' : List LogseqPage} (h : pages.Perm pages') :
    ((withPaths pages).map (·.1)).Perm ((withPaths pages').map (·.1)) := (h.filterMap _).map _

theorem Mapped.perm (h : Mapped casefold graph logicalPaths)
    (hPages : graph.canonicalPages.Perm graph'.canonicalPages)
    (hPaths : logicalPaths.Perm logicalPaths') : Mapped casefold graph' logicalPaths' where
  few := hPaths.length_eq ▸ h.few
  distinct := hPaths.nodup h.distinct
  within page hPage := by
    obtain ⟨path, hPath, hSome⟩ := h.within page (hPages.mem_iff.mpr hPage)
    exact ⟨path, hPaths.mem_iff.mp hPath, hSome⟩
  once := (withPaths_perm hPages).nodup h.once
  named page hPage := h.named page (hPages.mem_iff.mpr hPage)
  titles := (hPages.map _).nodup h.titles
  complete path hPath :=
    (withPaths_perm hPages).mem_iff.mp (h.complete path (hPaths.mem_iff.mpr hPath))

/-- The pages do not depend on the order in which the parser has them. -/
theorem Mapped.sortedPages_perm (h : Mapped casefold graph logicalPaths)
    (hPages : graph.canonicalPages.Perm graph'.canonicalPages)
    (hPaths : logicalPaths.Perm logicalPaths') :
    sortedPages graph logicalPaths = sortedPages graph' logicalPaths' := by
  have h' := h.perm hPages hPaths
  have hSorted : logicalPaths.insertionSort (· ≤ ·) = logicalPaths'.insertionSort (· ≤ ·) := by
    apply List.Perm.eq_of_pairwise _ (List.pairwise_insertionSort _ _)
      (List.pairwise_insertionSort _ _)
    · exact (List.perm_insertionSort _ _).trans (hPaths.trans (List.perm_insertionSort _ _).symm)
    · intro a b _ _ hLe hLe'
      exact le_antisymm hLe hLe'
  rw [sortedPages, sortedPages, hSorted]
  apply List.filterMap_congr
  intro path hPath
  have hIn := h'.complete path ((List.mem_insertionSort _).mp hPath)
  obtain ⟨entry, hEntry, rfl⟩ := List.mem_map.mp hIn
  have hEntry' : entry ∈ withPaths graph.canonicalPages := (hPages.filterMap _).mem_iff.mpr hEntry
  rw [find?_eq_of_nodup h.once hEntry', find?_eq_of_nodup h'.once hEntry]

theorem links_perm (hPages : graph.canonicalPages.Perm graph'.canonicalPages)
    (hGet : graph.getPage = graph'.getPage) {reference : Str} {id : OpaqueId}
    (h : Links token sourceRevision graph reference id) :
    Links token sourceRevision graph' reference id := by
  obtain ⟨hTarget, hPath, hPage, hSame, hTitle⟩ := h
  exact .page (hGet ▸ hTarget) hPath (hPages.mem_iff.mp hPage) hSame hTitle

theorem embeds_perm (hEmbed : graph.getNodeByEmbedRef = graph'.getNodeByEmbedRef)
    {all : List LogseqNode} {reference : Str} {id : OpaqueId}
    (h : Embeds token sourceRevision graph all reference id) :
    Embeds token sourceRevision graph' all reference id := by
  obtain ⟨hTarget, hBlock, hSame⟩ := h
  exact .block (hEmbed ▸ hTarget) hBlock hSame

theorem projectTopology_perm_ok (hPages : graph.canonicalPages.Perm graph'.canonicalPages)
    (hPaths : logicalPaths.Perm logicalPaths') (hGet : graph.getPage = graph'.getPage)
    (hEmbed : graph.getNodeByEmbedRef = graph'.getNodeByEmbedRef) {r : GraphTopologyResult}
    (hOk : projectTopology token sourceRevision casefold graph logicalPaths = .ok r) :
    projectTopology token sourceRevision casefold graph' logicalPaths' = .ok r := by
  obtain ⟨⟨hMapped, hFits, hResolve⟩, hProjection⟩ := projectTopology_eq_ok.mp hOk
  have hEntries : entries token sourceRevision graph' logicalPaths' =
      entries token sourceRevision graph logicalPaths := by
    rw [entries, entries, hMapped.sortedPages_perm hPages hPaths]
  have hBlocks : blocks token sourceRevision graph' logicalPaths' =
      blocks token sourceRevision graph logicalPaths := by rw [blocks, blocks, hEntries]
  have hLinks {reference : Str} {id : OpaqueId} : Links token sourceRevision graph reference id ↔
      Links token sourceRevision graph' reference id :=
    ⟨links_perm hPages hGet, links_perm hPages.symm hGet.symm⟩
  have hEmbeds {all : List LogseqNode} {reference : Str} {id : OpaqueId} :
      Embeds token sourceRevision graph all reference id ↔
        Embeds token sourceRevision graph' all reference id :=
    ⟨embeds_perm hEmbed, embeds_perm hEmbed.symm⟩
  refine projectTopology_eq_ok.mpr ⟨⟨hMapped.perm hPages hPaths, ?_, ?_⟩, hProjection.topologyId,
    hProjection.provenance, ?_, hProjection.edges_sorted, ?_⟩
  · rwa [hEntries]
  · rw [hBlocks]
    simp only [Resolve, ← hLinks, ← hEmbeds]
    exact hResolve
  · rw [hEntries]
    exact hProjection.nodes
  · rw [hBlocks]
    simp only [Refers, ← hLinks, ← hEmbeds]
    exact hProjection.edges

/-- A graph has one topology, in whatever order its pages and their paths come. -/
theorem projectTopology_perm (hPages : graph.canonicalPages.Perm graph'.canonicalPages)
    (hPaths : logicalPaths.Perm logicalPaths') (hGet : graph.getPage = graph'.getPage)
    (hEmbed : graph.getNodeByEmbedRef = graph'.getNodeByEmbedRef) (r : GraphTopologyResult) :
    projectTopology token sourceRevision casefold graph logicalPaths = .ok r ↔
      projectTopology token sourceRevision casefold graph' logicalPaths' = .ok r :=
  ⟨projectTopology_perm_ok hPages hPaths hGet hEmbed,
    projectTopology_perm_ok hPages.symm hPaths.symm hGet.symm hEmbed.symm⟩

def reversedSample : LogseqGraph :=
  { sampleGraph with canonicalPages := sampleGraph.canonicalPages.reverse }

theorem projectTopology_perm_sample : ∃ r,
    projectTopology sampleToken ⟨['r'], by decide⟩ id sampleGraph [['b'], ['a']] = .ok r ∧
      projectTopology sampleToken ⟨['r'], by decide⟩ id reversedSample [['a'], ['b']] = .ok r := by
  obtain ⟨r, hOk⟩ := exists_projectTopology_sample
  have hPages : sampleGraph.canonicalPages.Perm reversedSample.canonicalPages :=
    (List.reverse_perm _).symm
  exact ⟨r, hOk, (projectTopology_perm hPages (List.Perm.swap _ _ _) rfl rfl r).mp hOk⟩

end Order

end Results

end Plumber.OgTopologyProjection
