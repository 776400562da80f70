import MatrycaPlumber.System.OrderedTrees
import MatrycaPlumber.Text.Basic
import Mathlib.Data.Char

/-! The fixture that an observer is compared with, and the check of its block tree. -/
namespace Plumber.DbObserver

open PyText Forest

def maxIdentifierChars : ℕ := 128

def maxPageTitleBytes : ℕ := 4096

def maxBlockTextBytes : ℕ := 16384

def maxNodes : ℕ := 500

def maxDepth : ℕ := 64

def maxPropertiesPerScope : ℕ := 64

def maxPropertyKeyBytes : ℕ := 128

def propertyWireTypes : List Str :=
  ["text".toList, "number".toList, "boolean".toList, "date".toList, "url".toList,
    "node-reference".toList]

structure FixtureNode where
  id : Str
  parentId : Option Str
  ordinal : ℤ
  text : Str

structure PropertyDeclaration where
  key : Str
  wireType : Str
  cardinality : Str
  scope : Str

structure FixtureManifest where
  graphId : Str
  pageId : Str
  rootBlockId : Str
  sourceRevision : Str
  pageTitle : Str
  nodes : List FixtureNode
  propertyDeclarations : List PropertyDeclaration

/-- `len(value.encode("utf-8"))`. -/
def encodedLength (value : Str) : ℕ := (value.map Char.utf8Size).sum

section Model

def requireIdentifier (value field : Str) : Except Str Unit :=
  if value = [] ∨ maxIdentifierChars < value.length then
    .error (field ++ " is outside its structural bound".toList)
  else .ok ()

def requireNonemptyUtf8Bytes (value field : Str) (byteLimit : ℕ) : Except Str Unit :=
  if value = [] ∨ byteLimit < encodedLength value then
    .error (field ++ " is outside its structural bound".toList)
  else .ok ()

/-- What is checked before the nodes. -/
def checkHeader (parsed : FixtureManifest) : Except Str Unit := do
  requireIdentifier parsed.graphId "graph_id".toList
  requireIdentifier parsed.pageId "page_id".toList
  requireIdentifier parsed.rootBlockId "root_block_id".toList
  requireIdentifier parsed.sourceRevision "source_revision".toList
  requireNonemptyUtf8Bytes parsed.pageTitle "page.title".toList maxPageTitleBytes

/-- The variables of the loop over the nodes; `openAncestry` has its last element first. -/
structure Walk where
  seen : List Str
  nextOrdinal : Option Str → ℤ
  openAncestry : List Str
  maxDepth : ℕ

def Walk.start : Walk := ⟨[], fun _ => 0, [], 0⟩

/-- The ancestry that is open with the node in it. -/
def openNode (rootBlockId : Str) (position : ℕ) (s : Walk) (node : FixtureNode) :
    Except Str (List Str) :=
  if position = 0 then
    if node.id ≠ rootBlockId ∨ node.parentId ≠ none ∨ node.ordinal ≠ 0 then
      .error "selected root must be the first root node".toList
    else .ok (node.id :: s.openAncestry)
  else
    match node.parentId with
    | none => .error "each non-root node must reference an earlier parent".toList
    | some parent =>
        if parent ∉ s.seen then
          .error "each non-root node must reference an earlier parent".toList
        else
          match s.openAncestry.dropWhile (· ≠ parent) with
          | [] => .error "fixture nodes must use depth-first preorder".toList
          | kept => .ok (node.id :: kept)

def admitNode (rootBlockId : Str) (position : ℕ) (s : Walk) (node : FixtureNode) :
    Except Str Walk :=
  match requireIdentifier node.id "node.id".toList with
  | .error msg => .error msg
  | .ok () =>
      if maxBlockTextBytes < encodedLength node.text then
        .error "node.text is outside its structural bound".toList
      else if node.id ∈ s.seen then .error "fixture node IDs must be unique".toList
      else
        match openNode rootBlockId position s node with
        | .error msg => .error msg
        | .ok opened =>
            if maxDepth < opened.length then
              .error "fixture depth is outside the structural ceiling".toList
            else if node.ordinal ≠ s.nextOrdinal node.parentId then
              .error "sibling ordinals must be contiguous".toList
            else
              .ok
                { seen := s.seen ++ [node.id]
                  nextOrdinal := Function.update s.nextOrdinal node.parentId (node.ordinal + 1)
                  openAncestry := opened
                  maxDepth := max s.maxDepth opened.length }

def admitNodes (rootBlockId : Str) (position : ℕ) (s : Walk) : List FixtureNode → Except Str Walk
  | [] => .ok s
  | node :: nodes =>
      match admitNode rootBlockId position s node with
      | .error msg => .error msg
      | .ok next => admitNodes rootBlockId (position + 1) next nodes

/-- The declarations, after those with the scopes and keys that are already declared. -/
def checkDeclarations (declared : List (Str × Str)) : List PropertyDeclaration → Except Str Unit
  | [] => .ok ()
  | declaration :: rest => do
      requireNonemptyUtf8Bytes declaration.key "property key".toList maxPropertyKeyBytes
      if declaration.wireType ∉ propertyWireTypes then
        .error "property declaration has an unsupported wire type".toList
      else if declaration.cardinality ∉ ["one".toList, "many".toList] ∨
          declaration.scope ∉ ["page".toList, "block".toList] then
        .error "property declaration has an invalid shape".toList
      else if (declaration.scope, declaration.key) ∈ declared then
        .error "property declarations must be unique per scope".toList
      else
        let declared := declared ++ [(declaration.scope, declaration.key)]
        if maxPropertiesPerScope < (declared.filter (·.1 = declaration.scope)).length then
          .error "property declarations exceed the structural ceiling".toList
        else checkDeclarations declared rest

/-- `_validate_fixture_topology`. -/
def validateFixtureTopology (parsed : FixtureManifest) : Except Str ℕ :=
  match checkHeader parsed with
  | .error msg => .error msg
  | .ok () =>
      if parsed.nodes = [] ∨ maxNodes < parsed.nodes.length then
        .error "fixture node count is outside the structural ceiling".toList
      else
        match admitNodes parsed.rootBlockId 0 .start parsed.nodes with
        | .error msg => .error msg
        | .ok s =>
            match checkDeclarations [] parsed.propertyDeclarations with
            | .error msg => .error msg
            | .ok () => .ok s.maxDepth

end Model

/-- The nodes are the depth-first preorder of a tree below the root block, each with the
parent that it names, and the children of a node are numbered in their order. -/
structure TopologyOf (parsed : FixtureManifest) (tree : Forest.Tree FixtureNode) : Prop where
  records_eq : records tree = parsed.nodes
  root : ∃ root children, tree = .node root children ∧ root.id = parsed.rootBlockId
  linked : Linked FixtureNode.id FixtureNode.parentId none tree
  nodup : (parsed.nodes.map FixtureNode.id).Nodup
  ordinals : ∀ parent, (siblings FixtureNode.parentId parsed.nodes parent).map FixtureNode.ordinal =
    (List.range (siblings FixtureNode.parentId parsed.nodes parent).length).map Int.ofNat

/-- The bounds on a node by itself. -/
structure NodeBounded (node : FixtureNode) : Prop where
  id_ne : node.id ≠ []
  id_length : node.id.length ≤ maxIdentifierChars
  text_length : encodedLength node.text ≤ maxBlockTextBytes

section Steps

variable {rootBlockId : Str} {position : ℕ} {s next : Walk} {node : FixtureNode}

theorem requireIdentifier_eq_ok {value field : Str} : requireIdentifier value field = .ok () ↔
    value ≠ [] ∧ value.length ≤ maxIdentifierChars := by
  rw [requireIdentifier]
  split_ifs with h
  · rw [← not_lt, ← not_or]
    exact iff_of_false nofun (not_not.mpr h)
  · rw [← not_lt, ← not_or]
    exact iff_of_true rfl h

/-- What a node is after it has been admitted, in terms of the open ancestry with it. -/
theorem admitNode_eq_ok : admitNode rootBlockId position s node = .ok next ↔
    NodeBounded node ∧ node.id ∉ s.seen ∧ ∃ opened,
      openNode rootBlockId position s node = .ok opened ∧ opened.length ≤ maxDepth ∧
        node.ordinal = s.nextOrdinal node.parentId ∧
        next =
          { seen := s.seen ++ [node.id]
            nextOrdinal := Function.update s.nextOrdinal node.parentId (node.ordinal + 1)
            openAncestry := opened
            maxDepth := max s.maxDepth opened.length } := by
  constructor
  · intro h
    rw [admitNode] at h
    split at h
    · cases h
    · next hId =>
        obtain ⟨hNe, hLength⟩ := requireIdentifier_eq_ok.mp hId
        cases hOpened : openNode rootBlockId position s node with
        | error msg =>
            rw [hOpened] at h
            split_ifs at h
        | ok opened =>
            rw [hOpened] at h
            dsimp only at h
            split_ifs at h with hText hSeen hDepth hOrdinal
            exact ⟨⟨hNe, hLength, not_lt.mp hText⟩, hSeen, opened, rfl, not_lt.mp hDepth,
              not_not.mp hOrdinal, (Except.ok.inj h).symm⟩
  · rintro ⟨⟨hNe, hLength, hText⟩, hSeen, opened, hOpened, hDepth, hOrdinal, rfl⟩
    rw [admitNode, requireIdentifier_eq_ok.mpr ⟨hNe, hLength⟩]
    dsimp only
    rw [if_neg (not_lt.mpr hText), if_neg hSeen, hOpened]
    dsimp only
    rw [if_neg (not_lt.mpr hDepth), if_neg (not_not.mpr hOrdinal)]

variable (rootBlockId position) in
/-- A node after the first one is put under an open ancestor that it names. -/
theorem openNode_succ_eq_ok {opened : List Str} (hOpen : ∀ i ∈ s.openAncestry, i ∈ s.seen) :
    openNode rootBlockId (position + 1) s node = .ok opened ↔
      node.parentId ≠ none ∧ attach s.openAncestry node.parentId node.id = some opened := by
  rw [openNode, if_neg (Nat.succ_ne_zero position)]
  cases hParent : node.parentId with
  | none => exact iff_of_false (by rintro ⟨⟩) fun h => h.1 rfl
  | some parent =>
      rw [and_iff_right (Option.some_ne_none parent), attach]
      dsimp only
      by_cases hSeen : parent ∈ s.seen
      · rw [if_neg (not_not.mpr hSeen)]
        cases s.openAncestry.dropWhile (· ≠ parent) with
        | nil => exact iff_of_false (by rintro ⟨⟩) (by rintro ⟨⟩)
        | cons i kept => simp
      · rw [if_pos hSeen]
        have hNone : s.openAncestry.dropWhile (· ≠ parent) = [] := by
          rw [List.dropWhile_eq_nil_iff]
          intro i hi
          have hNe : i ≠ parent := fun hEq => hSeen (hEq ▸ hOpen i hi)
          simpa using hNe
        rw [hNone]
        exact iff_of_false (by rintro ⟨⟩) (by rintro ⟨⟩)

end Steps

section Runs

/-- What the variables of the loop say of the nodes that have been admitted. -/
structure Walk.Of (nodes : List FixtureNode) (s : Walk) : Prop where
  seen_eq : s.seen = nodes.map FixtureNode.id
  opened : ∀ i ∈ s.openAncestry, i ∈ s.seen
  next : ∀ parent, s.nextOrdinal parent = (siblings FixtureNode.parentId nodes parent).length

/-- The children of every node are numbered from zero. -/
def Numbered (nodes : List FixtureNode) : Prop :=
  ∀ parent, (siblings FixtureNode.parentId nodes parent).map FixtureNode.ordinal =
    (List.range (siblings FixtureNode.parentId nodes parent).length).map Int.ofNat

variable {rootBlockId : Str} {position d : ℕ} {s next last : Walk} {node : FixtureNode}
  {nodes rest : List FixtureNode}

/-- One more node is numbered if it has the number of its siblings before it. -/
theorem numbered_concat : Numbered (nodes ++ [node]) ↔ Numbered nodes ∧
    node.ordinal = (siblings FixtureNode.parentId nodes node.parentId).length := by
  have hOther {parent : Option Str} (h : node.parentId ≠ parent) :
      siblings FixtureNode.parentId (nodes ++ [node]) parent =
        siblings FixtureNode.parentId nodes parent := by
    rw [siblings_append, siblings_cons_of_ne _ h]
    exact List.append_nil _
  have hOwn : siblings FixtureNode.parentId (nodes ++ [node]) node.parentId =
      siblings FixtureNode.parentId nodes node.parentId ++ [node] := by
    rw [siblings_append, siblings_cons_of_eq _ rfl]
    rfl
  have hAt : ((siblings FixtureNode.parentId (nodes ++ [node]) node.parentId).map
      FixtureNode.ordinal = (List.range (siblings FixtureNode.parentId (nodes ++ [node])
        node.parentId).length).map Int.ofNat) ↔
      (siblings FixtureNode.parentId nodes node.parentId).map FixtureNode.ordinal =
          (List.range (siblings FixtureNode.parentId nodes node.parentId).length).map Int.ofNat ∧
        node.ordinal = (siblings FixtureNode.parentId nodes node.parentId).length := by
    rw [hOwn, List.length_append, List.length_singleton, List.range_succ, List.map_append,
      List.map_append]
    constructor
    · intro hEq
      obtain ⟨hInit, hLast⟩ := List.append_inj' hEq rfl
      exact ⟨hInit, (List.cons.inj hLast).1⟩
    · rintro ⟨hInit, hLast⟩
      rw [hInit]
      exact congrArg _ (congrArg (· :: []) hLast)
  constructor
  · intro h
    obtain ⟨hInit, hLast⟩ := hAt.mp (h node.parentId)
    refine ⟨fun parent => ?_, hLast⟩
    by_cases hParent : node.parentId = parent
    · rw [← hParent]
      exact hInit
    · have hOld := h parent
      rwa [hOther hParent] at hOld
  · rintro ⟨hNumbered, hLast⟩ parent
    by_cases hParent : node.parentId = parent
    · rw [← hParent]
      exact hAt.mpr ⟨hNumbered node.parentId, hLast⟩
    · rw [hOther hParent]
      exact hNumbered parent

/-- The nodes in front of others are numbered if all of them are. -/
theorem numbered_of_append (h : Numbered (nodes ++ rest)) : Numbered nodes := by
  induction rest using List.reverseRecOn with
  | nil => rwa [List.append_nil] at h
  | append_singleton rest node ih =>
      rw [← List.append_assoc] at h
      exact ih (numbered_concat.mp h).1

theorem Walk.Of.step {opened : List Str} (h : s.Of nodes)
    (hOrdinal : node.ordinal = s.nextOrdinal node.parentId)
    (hOpened : ∀ i ∈ opened, i ∈ s.seen ∨ i = node.id) :
    Walk.Of (nodes ++ [node])
      { seen := s.seen ++ [node.id]
        nextOrdinal := Function.update s.nextOrdinal node.parentId (node.ordinal + 1)
        openAncestry := opened
        maxDepth := max s.maxDepth opened.length } := by
  constructor
  · simp [h.seen_eq]
  · intro i hi
    rcases hOpened i hi with hOld | rfl
    · exact List.mem_append_left _ hOld
    · exact List.mem_append_right _ List.mem_cons_self
  · intro parent
    dsimp only
    by_cases hParent : parent = node.parentId
    · rw [hParent, Function.update_self, hOrdinal, h.next, siblings_append,
        siblings_cons_of_eq _ rfl, List.length_append]
      push_cast
      rfl
    · rw [Function.update_of_ne hParent, h.next, siblings_append,
        siblings_cons_of_ne _ (Ne.symm hParent)]
      simp [siblings]

/-- An ancestry that a node is put under has no others in it. -/
theorem attach_mem {ancestors opened : List Str} {parent : Option Str} {i : Str}
    (h : attach ancestors parent i = some opened) : ∀ j ∈ opened, j ∈ ancestors ∨ j = i := by
  intro j hj
  cases parent with
  | none =>
      rw [attach, Option.some.injEq] at h
      rw [← h, List.mem_singleton] at hj
      exact Or.inr hj
  | some q =>
      rw [attach] at h
      split at h
      · cases h
      · rw [Option.some.injEq] at h
        rw [← h] at hj
        rcases List.mem_cons.mp hj with rfl | hKept
        · exact Or.inr rfl
        · exact Or.inl ((List.dropWhile_suffix _).subset hKept)

/-- What the nodes behind the first one have to be. -/
structure Admissible (ancestors : List Str) (done rest : List FixtureNode) : Prop where
  bounded : ∀ node ∈ rest, NodeBounded node
  parents : ∀ node ∈ rest, node.parentId ≠ none
  nodup : (rest.map FixtureNode.id).Nodup
  fresh : ∀ node ∈ rest, node.id ∉ done.map FixtureNode.id
  attached : (attachAll FixtureNode.id FixtureNode.parentId ancestors rest).isSome
  height : heights FixtureNode.id FixtureNode.parentId ancestors rest ≤ maxDepth

theorem admitNodes_eq_ok (hOf : s.Of nodes) (hNumbered : Numbered nodes)
    (h : admitNodes rootBlockId (position + 1) s rest = .ok last) :
    Admissible s.openAncestry nodes rest ∧ Numbered (nodes ++ rest) ∧
      last.maxDepth = max s.maxDepth
        (heights FixtureNode.id FixtureNode.parentId s.openAncestry rest) := by
  induction rest generalizing s nodes position with
  | nil =>
      cases h
      refine ⟨⟨nofun, nofun, List.nodup_nil, nofun, rfl, Nat.zero_le _⟩, ?_, ?_⟩
      · rwa [List.append_nil]
      · rw [heights, Nat.max_zero]
  | cons node rest ih =>
      rw [admitNodes] at h
      split at h
      · cases h
      · next next hNode =>
          obtain ⟨hBounded, hSeen, opened, hOpen, hDepth, hOrdinal, rfl⟩ := admitNode_eq_ok.mp hNode
          obtain ⟨hParent, hAttach⟩ := (openNode_succ_eq_ok _ _ hOf.opened).mp hOpen
          have hNext := hOf.step hOrdinal fun i hi =>
            (attach_mem hAttach i hi).imp_left (hOf.opened i)
          have hNumberedNext : Numbered (nodes ++ [node]) :=
            numbered_concat.mpr ⟨hNumbered, by rw [hOrdinal, hOf.next]⟩
          obtain ⟨hRest, hNumberedRest, hMax⟩ := ih hNext hNumberedNext h
          rw [List.append_assoc, List.singleton_append] at hNumberedRest
          rw [hOf.seen_eq] at hSeen
          refine ⟨⟨?_, ?_, ?_, ?_, ?_, ?_⟩, hNumberedRest, ?_⟩
          · exact List.forall_mem_cons.mpr ⟨hBounded, hRest.bounded⟩
          · exact List.forall_mem_cons.mpr ⟨hParent, hRest.parents⟩
          · rw [List.map_cons, List.nodup_cons]
            refine ⟨fun hMem => ?_, hRest.nodup⟩
            obtain ⟨other, hOther, hEq⟩ := List.mem_map.mp hMem
            apply hRest.fresh other hOther
            rw [hEq, List.map_append]
            exact List.mem_append_right _ List.mem_cons_self
          · refine List.forall_mem_cons.mpr ⟨hSeen, fun other hOther hMem => ?_⟩
            apply hRest.fresh other hOther
            rw [List.map_append]
            exact List.mem_append_left _ hMem
          · rw [attachAll, hAttach]
            exact hRest.attached
          · rw [heights, hAttach]
            exact Nat.max_le.mpr ⟨hDepth, hRest.height⟩
          · rw [hMax, heights, hAttach]
            exact Nat.max_assoc _ _ _

variable (rootBlockId position) in
theorem exists_admitNodes (hOf : s.Of nodes) (h : Admissible s.openAncestry nodes rest)
    (hNumbered : Numbered (nodes ++ rest)) :
    ∃ last, admitNodes rootBlockId (position + 1) s rest = .ok last := by
  induction rest generalizing s nodes position with
  | nil => exact ⟨s, rfl⟩
  | cons node rest ih =>
      obtain ⟨hBounded, hParents, hNodup, hFresh, hAttached, hHeight⟩ := h
      rw [List.forall_mem_cons] at hBounded hParents hFresh
      rw [List.map_cons, List.nodup_cons] at hNodup
      rw [attachAll] at hAttached
      rw [heights] at hHeight
      cases hAttach : attach s.openAncestry node.parentId node.id with
      | none =>
          rw [hAttach] at hAttached
          cases hAttached
      | some opened =>
          rw [hAttach] at hAttached hHeight
          obtain ⟨hDepth, hRestHeight⟩ := Nat.max_le.mp hHeight
          rw [List.append_cons] at hNumbered
          have hOrdinal : node.ordinal = s.nextOrdinal node.parentId := by
            rw [hOf.next]
            exact (numbered_concat.mp (numbered_of_append hNumbered)).2
          have hNode := admitNode_eq_ok.mpr ⟨hBounded.1, by rw [hOf.seen_eq]; exact hFresh.1, opened,
            (openNode_succ_eq_ok rootBlockId position hOf.opened).mpr ⟨hParents.1, hAttach⟩, hDepth,
            hOrdinal, rfl⟩
          have hNext := hOf.step hOrdinal fun i hi =>
            (attach_mem hAttach i hi).imp_left (hOf.opened i)
          rw [admitNodes, hNode]
          apply ih _ hNext _ hNumbered
          refine ⟨hBounded.2, hParents.2, hNodup.2, ?_, hAttached, hRestHeight⟩
          intro other hOther hMem
          rw [List.map_append, List.mem_append] at hMem
          rcases hMem with hOld | hSelf
          · exact hFresh.2 other hOther hOld
          · apply hNodup.1
            rw [← List.mem_singleton.mp hSelf]
            exact List.mem_map_of_mem hOther

/-- The first node has to be the root block. -/
structure SelectedRoot (rootBlockId : Str) (first : FixtureNode) : Prop where
  id_eq : first.id = rootBlockId
  parent : first.parentId = none
  ordinal : first.ordinal = 0

theorem openNode_zero_eq_ok {opened : List Str} :
    openNode rootBlockId 0 .start node = .ok opened ↔
      SelectedRoot rootBlockId node ∧ opened = [node.id] := by
  rw [openNode, if_pos rfl]
  split_ifs with h
  · refine iff_of_false nofun ?_
    rintro ⟨⟨hId, hParent, hOrdinal⟩, -⟩
    simp [hId, hParent, hOrdinal] at h
  · rw [not_or, not_or, not_not, not_not, not_not] at h
    obtain ⟨hId, hParent, hOrdinal⟩ := h
    rw [Except.ok.injEq, and_iff_right ⟨hId, hParent, hOrdinal⟩, eq_comm]
    rfl

theorem numbered_singleton : Numbered [node] ↔ node.ordinal = 0 := by
  rw [← List.nil_append [node], numbered_concat]
  exact and_iff_right fun _ => rfl

theorem Walk.Of.start : Walk.start.Of [] := ⟨rfl, nofun, fun _ => rfl⟩

/-- The walk from the first node on. -/
theorem admitNodes_start_eq_ok :
    (∃ last, admitNodes rootBlockId 0 .start (node :: rest) = .ok last ∧ last.maxDepth = d) ↔
      NodeBounded node ∧ SelectedRoot rootBlockId node ∧ Admissible [node.id] [node] rest ∧
        Numbered (node :: rest) ∧
        max 1 (heights FixtureNode.id FixtureNode.parentId [node.id] rest) = d := by
  have hOnly : ∀ i ∈ [node.id], i ∈ Walk.start.seen ∨ i = node.id := fun i hi =>
    Or.inr (List.mem_singleton.mp hi)
  rw [admitNodes]
  constructor
  · rintro ⟨last, hRun, rfl⟩
    split at hRun
    · cases hRun
    · next next hNode =>
        obtain ⟨hBounded, -, opened, hOpen, -, hOrdinal, rfl⟩ := admitNode_eq_ok.mp hNode
        obtain ⟨hRoot, rfl⟩ := openNode_zero_eq_ok.mp hOpen
        have hOf := Walk.Of.start.step hOrdinal hOnly
        obtain ⟨hRest, hNumbered, hMax⟩ :=
          admitNodes_eq_ok hOf (numbered_singleton.mpr hRoot.ordinal) hRun
        exact ⟨hBounded, hRoot, hRest, hNumbered, hMax.symm⟩
  · rintro ⟨hBounded, hRoot, hRest, hNumbered, rfl⟩
    have hOrdinal : node.ordinal = Walk.start.nextOrdinal node.parentId := hRoot.ordinal
    have hOne : 1 ≤ maxDepth := by decide
    have hNode := admitNode_eq_ok.mpr ⟨hBounded, List.not_mem_nil, [node.id],
      openNode_zero_eq_ok.mpr ⟨hRoot, rfl⟩, hOne, hOrdinal, rfl⟩
    have hOf := Walk.Of.start.step hOrdinal hOnly
    obtain ⟨last, hRun⟩ := exists_admitNodes rootBlockId 0 hOf hRest hNumbered
    rw [hNode]
    exact ⟨last, hRun, (admitNodes_eq_ok hOf (numbered_singleton.mpr hRoot.ordinal) hRun).2.2⟩

end Runs

section Trees

variable {parsed : FixtureManifest} {node : FixtureNode} {rest : List FixtureNode} {d : ℕ}

/-- What the walk asks of the nodes is that they are those of a tree that is not too deep. -/
theorem admissible_iff_tree (hNodes : parsed.nodes = node :: rest) :
    (NodeBounded node ∧ SelectedRoot parsed.rootBlockId node ∧ Admissible [node.id] [node] rest ∧
        Numbered (node :: rest) ∧
        max 1 (heights FixtureNode.id FixtureNode.parentId [node.id] rest) = d) ↔
      (∀ other ∈ parsed.nodes, NodeBounded other) ∧
        ∃ tree, TopologyOf parsed tree ∧ depth tree = d ∧ d ≤ maxDepth := by
  rw [hNodes]
  constructor
  · rintro ⟨hBounded, hRoot, hRest, hNumbered, rfl⟩
    obtain ⟨children, hLinked, hRecords⟩ :=
      exists_children_of_attachAll hRest.attached hRest.parents
    have hFresh : node.id ∉ rest.map FixtureNode.id := by
      intro hMem
      obtain ⟨other, hOther, hEq⟩ := List.mem_map.mp hMem
      exact hRest.fresh other hOther (List.mem_singleton.mpr hEq)
    refine ⟨List.forall_mem_cons.mpr ⟨hBounded, hRest.bounded⟩, .node node children, ?_, ?_, ?_⟩
    · constructor
      · rw [records, hRecords, hNodes]
      · exact ⟨node, children, rfl, hRoot.id_eq⟩
      · rw [Linked]
        exact ⟨hRoot.parent, hLinked⟩
      · rw [hNodes]
        exact List.nodup_cons.mpr ⟨hFresh, hRest.nodup⟩
      · rw [hNodes]
        exact hNumbered
    · rw [depth, ← hRecords]
      rw [← hRecords] at hFresh
      have hNodup := hRest.nodup
      rw [← hRecords] at hNodup
      exact (attachAll_children hLinked hNodup hFresh).2.symm
    · exact Nat.max_le.mpr ⟨by decide, hRest.height⟩
  · rintro ⟨hBounded, tree, ⟨hRecords, ⟨root, children, rfl, hId⟩, hLinked, hNodup, hNumbered⟩, rfl,
      hDepth⟩
    rw [hNodes] at hRecords hNodup hNumbered
    rw [records, List.cons.injEq] at hRecords
    obtain ⟨rfl, rfl⟩ := hRecords
    rw [Linked] at hLinked
    obtain ⟨hParent, hChildren⟩ := hLinked
    rw [List.map_cons, List.nodup_cons] at hNodup
    rw [List.forall_mem_cons] at hBounded
    obtain ⟨hAttached, hHeight⟩ := attachAll_children hChildren hNodup.2 hNodup.1
    rw [depth] at hDepth ⊢
    refine ⟨hBounded.1, ⟨hId, hParent, ?_⟩, ⟨hBounded.2,
      parent_ne_none_of_linkedAll children hChildren, hNodup.2, ?_, hAttached, ?_⟩, hNumbered,
      hHeight⟩
    · rw [← List.singleton_append] at hNumbered
      exact numbered_singleton.mp (numbered_of_append hNumbered)
    · intro other hOther hMem
      apply hNodup.1
      rw [← List.mem_singleton.mp hMem]
      exact List.mem_map_of_mem hOther
    · rw [← hHeight] at hDepth
      exact (Nat.max_le.mp hDepth).2

/-- The nodes that are accepted are those of one tree, and its depth is what is returned. -/
theorem validateFixtureTopology_eq_ok (parsed : FixtureManifest) (d : ℕ) :
    validateFixtureTopology parsed = .ok d ↔
      checkHeader parsed = .ok () ∧ checkDeclarations [] parsed.propertyDeclarations = .ok () ∧
        parsed.nodes.length ≤ maxNodes ∧ (∀ node ∈ parsed.nodes, NodeBounded node) ∧
        ∃ tree, TopologyOf parsed tree ∧ depth tree = d ∧ d ≤ maxDepth := by
  rw [validateFixtureTopology]
  cases hNodes : parsed.nodes with
  | nil =>
      refine iff_of_false ?_ ?_
      · cases checkHeader parsed <;> rintro ⟨⟩
      · rintro ⟨-, -, -, -, tree, ⟨hRecords, ⟨root, children, rfl, -⟩, -⟩, -⟩
        rw [hNodes, records] at hRecords
        cases hRecords
  | cons node rest =>
      rw [← hNodes, ← admissible_iff_tree hNodes, ← admitNodes_start_eq_ok, ← hNodes]
      cases hHeader : checkHeader parsed with
      | error msg => exact iff_of_false (by rintro ⟨⟩) (by rintro ⟨⟨⟩, -⟩)
      | ok u =>
          dsimp only
          rw [and_iff_right rfl]
          by_cases hLength : maxNodes < parsed.nodes.length
          · rw [if_pos (Or.inr hLength)]
            exact iff_of_false (by rintro ⟨⟩) fun h => absurd h.2.1 (not_le.mpr hLength)
          · have hSome : ¬(parsed.nodes = [] ∨ maxNodes < parsed.nodes.length) := by
              rw [hNodes] at hLength ⊢
              exact not_or.mpr ⟨List.cons_ne_nil _ _, hLength⟩
            rw [if_neg hSome]
            cases admitNodes parsed.rootBlockId 0 .start parsed.nodes with
            | error msg => exact iff_of_false (by rintro ⟨⟩) (by rintro ⟨-, -, last, hLast, -⟩; cases hLast)
            | ok s =>
                cases checkDeclarations [] parsed.propertyDeclarations with
                | error msg => exact iff_of_false (by rintro ⟨⟩) (by rintro ⟨⟨⟩, -⟩)
                | ok u =>
                    simp [not_lt.mp hLength]

end Trees

end Plumber.DbObserver
