import MatrycaPlumber.Graph.ReparentBlocks

/-! Where the lines of a reparented page come from: each old line and each new
line stands once in the layout of the new page. -/
namespace Plumber.ReparentBlocks
open PyText MarkdownBlocks GlobalFenceScanner
open scoped List

variable {tables : CaseTables} {text : Str}

theorem locateMember_eq_ok {stripped : List Str} {isProtected : Nat → Bool} {u : Str}
    {loc : Location} (h : locateMember tables stripped isProtected u = .ok loc) :
    locateBlockByUuid tables stripped u = some loc := by
  simp only [locateMember] at h
  split at h
  · cases h
  · next hLoc =>
      split_ifs at h
      rw [hLoc, Except.ok.inj h]

theorem locateMembers_eq_ok {stripped : List Str} {isProtected : Nat → Bool} {us : List Str}
    {locs : List (Str × Location)} (h : locateMembers tables stripped isProtected us = .ok locs) :
    locs.map Prod.fst = us ∧
      ∀ entry ∈ locs, locateBlockByUuid tables stripped entry.1 = some entry.2 := by
  induction us generalizing locs with
  | nil =>
      obtain rfl := Except.ok.inj h
      exact ⟨rfl, by simp⟩
  | cons u us ih =>
      cases hLoc : locateMember tables stripped isProtected u with
      | error e => simp [locateMembers, hLoc, bind, Except.bind] at h
      | ok loc =>
          cases hRest : locateMembers tables stripped isProtected us with
          | error e => simp [locateMembers, hLoc, hRest, bind, Except.bind] at h
          | ok rest =>
              obtain ⟨hUs, hAll⟩ := ih hRest
              have hLocs : (u, loc) :: rest = locs := by
                simpa [locateMembers, hLoc, hRest, bind, Except.bind, pure, Except.pure] using h
              subst hLocs
              exact ⟨by simp [hUs], List.forall_mem_cons.mpr ⟨locateMember_eq_ok hLoc, hAll⟩⟩

/-- What the checks guarantee about accepted groups. -/
structure Checked (tables : CaseTables) (text : Str) (rawGroups : List RawGroup)
    (groups : List Group) (locs : List (Str × Location)) : Prop where
  parsed : parseGroups rawGroups = .ok groups
  nodup : (groups.flatMap Prod.snd).Nodup
  members : locs.map Prod.fst = groups.flatMap Prod.snd
  located : ∀ entry ∈ locs, locateBlockByUuid tables
    ((splitlinesKeep text).map (rstripChars ['\n'])) entry.1 = some entry.2
  disjoint : hasOverlap (sortedIntervals locs) = false
  sameIndent : (baseIndents ((splitlinesKeep text).map (rstripChars ['\n'])) locs).max? =
    (baseIndents ((splitlinesKeep text).map (rstripChars ['\n'])) locs).min?

theorem checkGroups_eq_ok {rawGroups : List RawGroup} {groups : List Group}
    {locs : List (Str × Location)} (h : checkGroups tables text rawGroups = .ok (groups, locs)) :
    Checked tables text rawGroups groups locs := by
  simp only [checkGroups] at h
  split at h
  · cases h
  · next parsed hParsed =>
      split_ifs at h with hNodup
      split at h
      · cases h
      · next found hFound =>
          split_ifs at h with hOverlap hIndent
          have hEq := Except.ok.inj h
          simp only [Prod.mk.injEq] at hEq
          obtain ⟨rfl, rfl⟩ := hEq
          obtain ⟨hMembers, hLocated⟩ := locateMembers_eq_ok hFound
          exact ⟨hParsed, hNodup, hMembers, hLocated, by simpa using hOverlap,
            by simpa using hIndent⟩

/-- Where a line of the new page comes from. -/
inductive LineTag where
  | old (i : Nat)
  | category (g : Nat)
  | idLine (g : Nat)
  deriving DecidableEq

/-- The line belongs to the subtree of a selected block. -/
def selected (tables : CaseTables) (text : Str) (groups : List Group) (i : Nat) : Bool :=
  groups.any fun group => group.2.any fun u =>
    match locateBlockByUuid tables ((splitlinesKeep text).map (rstripChars ['\n'])) u with
    | some (b, _, e) => b ≤ i && i < e
    | none => false

def IndentOnly (ws : Str) : Prop := ∀ c ∈ ws, c = ' ' ∨ c = '\t'

instance (ws : Str) : Decidable (IndentOnly ws) := inferInstanceAs (Decidable (∀ c ∈ ws, _))

/-- The lines differ in leading blanks and tabs only. -/
def SameButIndent (l m : Str) : Prop :=
  ∃ ws ws' core, IndentOnly ws ∧ IndentOnly ws' ∧ l = ws ++ core ∧ m = ws' ++ core

/-- A line of the new page is what its origin allows it to be. -/
inductive Renders (lines : List Str) (moved : Nat → Bool) (groups : List Group)
    (ids : Nat → Uuid) : LineTag → Str → Prop where
  | kept {i : Nat} {l : Str} (hLine : lines[i]? = some l) (hKept : moved i = false) :
      Renders lines moved groups ids (.old i) l
  | moved {i : Nat} {l m : Str} (hLine : lines[i]? = some l) (hMoved : moved i = true)
      (hSame : SameButIndent l m) : Renders lines moved groups ids (.old i) m
  | category {g : Nat} {group : Group} {ws : Str} (hGroup : groups[g]? = some group)
      (hWs : IndentOnly ws) :
      Renders lines moved groups ids (.category g) (ws ++ "- ".toList ++ group.1 ++ ['\n'])
  | idLine {g : Nat} {ws : Str} (hWs : IndentOnly ws) :
      Renders lines moved groups ids (.idLine g) (ws ++ "id:: ".toList ++ (ids g).text ++ ['\n'])

/-- The index of a line that is not moved. -/
def keptIndex (moved : Nat → Bool) : LineTag → Option Nat
  | .old i => if moved i then none else some i
  | _ => none

/-- Every old line is one line of the new page, next to two new lines for each
group; the lines that are not moved keep their order. -/
def LinesPreserved (lines : List Str) (moved : Nat → Bool) (groups : List Group)
    (ids : Nat → Uuid) (new : List Str) : Prop :=
  ∃ layout : List LineTag,
    layout.Perm ((List.range lines.length).map .old ++
      (List.range groups.length).flatMap fun g => [.category g, .idLine g]) ∧
    List.Forall₂ (Renders lines moved groups ids) layout new ∧
    (layout.filterMap (keptIndex moved)).Pairwise (· < ·)

/-- Consecutive intervals that do not overlap are ordered. -/
theorem orderedFrom_of_hasOverlap {n cursor : Nat} {ivs : List (Nat × Nat)}
    (h : hasOverlap ivs = false) (hCursor : cursor ≤ n) (hHead : ∀ iv ∈ ivs.head?, cursor ≤ iv.1)
    (hBounds : ∀ iv ∈ ivs, iv.1 < iv.2 ∧ iv.2 ≤ n) : OrderedFrom n cursor ivs := by
  induction ivs generalizing cursor with
  | nil => exact .nil hCursor
  | cons iv ivs ih =>
      obtain ⟨b, e⟩ := iv
      obtain ⟨hLt, hLe⟩ := hBounds (b, e) List.mem_cons_self
      have hTail : ∀ iv ∈ ivs, iv.1 < iv.2 ∧ iv.2 ≤ n :=
        fun iv hiv => hBounds iv (List.mem_cons_of_mem _ hiv)
      refine .cons (hHead (b, e) rfl) hLt ?_
      cases ivs with
      | nil => exact .nil hLe
      | cons next ivs =>
          simp only [hasOverlap, Bool.or_eq_false_iff, decide_eq_false_iff_not, not_lt] at h
          refine ih h.2 hLe ?_ hTail
          rintro iv hiv
          obtain rfl := Option.some.inj hiv
          exact h.1

theorem sortedIntervals_perm (locs : List (Str × Location)) :
    (sortedIntervals locs).Perm (locs.map fun entry => (entry.2.1, entry.2.2.2)) :=
  List.perm_insertionSort _ _

theorem Checked.ordered {rawGroups : List RawGroup} {groups : List Group}
    {locs : List (Str × Location)} (h : Checked tables text rawGroups groups locs) :
    OrderedFrom (splitlinesKeep text).length 0 (sortedIntervals locs) := by
  apply orderedFrom_of_hasOverlap h.disjoint (Nat.zero_le _) (fun _ _ => Nat.zero_le _)
  intro iv hiv
  rw [(sortedIntervals_perm locs).mem_iff, List.mem_map] at hiv
  obtain ⟨entry, hEntry, rfl⟩ := hiv
  obtain ⟨hb, he, hn⟩ := locateBlockByUuid_bounds (h.located entry hEntry)
  rw [List.length_map] at hn
  exact ⟨hb.trans he, hn⟩

theorem exists_lookup {locs : List (Str × Location)} {u : Str} (h : u ∈ locs.map Prod.fst) :
    ∃ loc, locs.lookup u = some loc ∧ (u, loc) ∈ locs := by
  induction locs with
  | nil => cases h
  | cons entry locs ih =>
      obtain ⟨v, found⟩ := entry
      by_cases hu : u = v
      · exact ⟨found, by rw [hu, List.lookup_cons_self], by simp [hu]⟩
      · have hTail : u ∈ locs.map Prod.fst := by simpa [hu] using h
        have hNe : (u == v) = false := by simpa using hu
        obtain ⟨loc, hLoc, hMem⟩ := ih hTail
        exact ⟨loc, by rwa [List.lookup_cons, hNe], List.mem_cons_of_mem _ hMem⟩

theorem Checked.lookup {rawGroups : List RawGroup} {groups : List Group}
    {locs : List (Str × Location)} (h : Checked tables text rawGroups groups locs)
    {entry : Str × Location} (hEntry : entry ∈ locs) : locs.lookup entry.1 = some entry.2 := by
  obtain ⟨loc, hLoc, hMem⟩ := exists_lookup (List.mem_map_of_mem (f := Prod.fst) hEntry)
  rw [hLoc, ← h.located (entry.1, loc) hMem, ← h.located entry hEntry]

/-- The selected lines are the ones in the intervals that are cut out. -/
theorem Checked.selected_iff {rawGroups : List RawGroup} {groups : List Group}
    {locs : List (Str × Location)} (h : Checked tables text rawGroups groups locs) {i : Nat} :
    selected tables text groups i = true ↔
      ∃ iv ∈ sortedIntervals locs, iv.1 ≤ i ∧ i < iv.2 := by
  have hAny : selected tables text groups i = true ↔ ∃ u ∈ groups.flatMap Prod.snd,
      (match locateBlockByUuid tables ((splitlinesKeep text).map (rstripChars ['\n'])) u with
        | some (b, _, e) => b ≤ i && i < e
        | none => false) = true := by
    simp only [selected, List.any_eq_true, List.mem_flatMap]
    constructor
    · rintro ⟨group, hGroup, u, hu, hIn⟩
      exact ⟨u, ⟨group, hGroup, hu⟩, hIn⟩
    · rintro ⟨u, ⟨group, hGroup, hu⟩, hIn⟩
      exact ⟨group, hGroup, u, hu, hIn⟩
  rw [hAny, ← h.members]
  simp only [(sortedIntervals_perm locs).mem_iff, List.mem_map]
  constructor
  · rintro ⟨u, ⟨entry, hEntry, rfl⟩, hIn⟩
    rw [h.located entry hEntry] at hIn
    refine ⟨_, ⟨entry, hEntry, rfl⟩, ?_⟩
    simpa using hIn
  · rintro ⟨iv, ⟨entry, hEntry, rfl⟩, hIn⟩
    refine ⟨entry.1, ⟨entry, hEntry, rfl⟩, ?_⟩
    rw [h.located entry hEntry]
    simpa using hIn

def memberTags (n : Nat) (locs : List (Str × Location)) (u : Str) : List LineTag :=
  match locs.lookup u with
  | none => []
  | some (b, _, e) => (slice (List.range n) b e).map .old

/-- The origins of the inserted lines, from the `k`-th group on. -/
def insertTags (n : Nat) (locs : List (Str × Location)) : Nat → List Group → List LineTag
  | _, [] => []
  | k, (_, uuids) :: groups =>
      .category k :: .idLine k :: (uuids.flatMap (memberTags n locs) ++
        insertTags n locs (k + 1) groups)

/-- The origins of the lines of the new page. -/
def layout (n : Nat) (locs : List (Str × Location)) (groups : List Group) (firstStart : Nat) :
    List LineTag :=
  let kept := cut (List.range n) 0 (sortedIntervals locs)
  (kept.take firstStart).map .old ++ insertTags n locs 0 groups ++ (kept.drop firstStart).map .old

def renderTag (lines : List Str) (moved : Nat → Bool) (groups : List Group) (ids : Nat → Uuid)
    (baseWs unit : Str) : LineTag → Str
  | .old i => if moved i then shiftLine unit.length (lines.getD i []) else lines.getD i []
  | .category g => baseWs ++ "- ".toList ++ (groups.getD g ([], [])).1 ++ ['\n']
  | .idLine g => baseWs ++ unit ++ "id:: ".toList ++ (ids g).text ++ ['\n']

theorem insertTags_append (n : Nat) (locs : List (Str × Location)) (k : Nat)
    (groups rest : List Group) :
    insertTags n locs k (groups ++ rest) =
      insertTags n locs k groups ++ insertTags n locs (k + groups.length) rest := by
  induction groups generalizing k with
  | nil => rfl
  | cons group groups ih =>
      simp only [List.cons_append, insertTags, ih, List.length_cons, List.append_assoc]
      rw [show k + 1 + groups.length = k + (groups.length + 1) by omega]

theorem insertTags_perm (n : Nat) (locs : List (Str × Location)) (k : Nat)
    (groups : List Group) :
    (insertTags n locs k groups).Perm ((groups.flatMap Prod.snd).flatMap (memberTags n locs) ++
      (List.range' k groups.length).flatMap fun g => [.category g, .idLine g]) := by
  induction groups generalizing k with
  | nil => exact List.Perm.refl _
  | cons group groups ih =>
      simp only [insertTags, List.flatMap_cons, List.flatMap_append, List.length_cons,
        List.range'_succ]
      set members := group.2.flatMap (memberTags n locs)
      set others := (groups.flatMap Prod.snd).flatMap (memberTags n locs)
      set new := (List.range' (k + 1) groups.length).flatMap fun g =>
        [LineTag.category g, LineTag.idLine g]
      calc LineTag.category k :: LineTag.idLine k :: (members ++ insertTags n locs (k + 1) groups)
          = [LineTag.category k, LineTag.idLine k] ++ (members ++
              insertTags n locs (k + 1) groups) := rfl
        _ ~ [LineTag.category k, LineTag.idLine k] ++ (members ++ (others ++ new)) := by
            exact ((ih (k + 1)).append_left members).append_left _
        _ = [LineTag.category k, LineTag.idLine k] ++ ((members ++ others) ++ new) := by
            rw [List.append_assoc]
        _ ~ (members ++ others) ++ ([LineTag.category k, LineTag.idLine k] ++ new) := by
            exact List.perm_append_comm_assoc _ _ _

theorem Checked.memberTags_flatMap {rawGroups : List RawGroup} {groups : List Group}
    {locs : List (Str × Location)} (h : Checked tables text rawGroups groups locs) (n : Nat) :
    (groups.flatMap Prod.snd).flatMap (memberTags n locs) =
      (locs.map fun entry => (entry.2.1, entry.2.2.2)).flatMap fun iv =>
        (slice (List.range n) iv.1 iv.2).map .old := by
  rw [← h.members, List.flatMap_map, List.flatMap_map]
  apply List.flatMap_congr
  intro entry hEntry
  simp only [memberTags, h.lookup hEntry]

/-- Every old line and every new line stands in the layout once. -/
theorem Checked.layout_perm {rawGroups : List RawGroup} {groups : List Group}
    {locs : List (Str × Location)} (h : Checked tables text rawGroups groups locs)
    (firstStart : Nat) :
    (layout (splitlinesKeep text).length locs groups firstStart).Perm
      ((List.range (splitlinesKeep text).length).map .old ++
        (List.range groups.length).flatMap fun g => [.category g, .idLine g]) := by
  set n := (splitlinesKeep text).length
  set kept := cut (List.range n) 0 (sortedIntervals locs)
  set new := (List.range groups.length).flatMap fun g => [LineTag.category g, LineTag.idLine g]
  have hIns : (insertTags n locs 0 groups).Perm
      (((sortedIntervals locs).flatMap fun iv => slice (List.range n) iv.1 iv.2).map .old ++
        new) := by
    refine (insertTags_perm n locs 0 groups).trans ?_
    rw [h.memberTags_flatMap, List.map_flatMap, ← List.range_eq_range']
    exact ((sortedIntervals_perm locs).symm.flatMap_right _).append_right _
  have hCut : (kept ++ (sortedIntervals locs).flatMap
      fun iv => slice (List.range n) iv.1 iv.2).Perm (List.range n) := by
    apply cut_perm
    rw [List.length_range]
    exact h.ordered
  calc layout n locs groups firstStart
      ~ (kept.take firstStart).map .old ++ ((kept.drop firstStart).map .old ++
          insertTags n locs 0 groups) := by
        rw [layout, List.append_assoc]
        exact List.Perm.append_left _ List.perm_append_comm
    _ = kept.map .old ++ insertTags n locs 0 groups := by
        rw [← List.append_assoc, ← List.map_append, List.take_append_drop]
    _ ~ kept.map .old ++ (((sortedIntervals locs).flatMap
          fun iv => slice (List.range n) iv.1 iv.2).map .old ++ new) := hIns.append_left _
    _ = (kept ++ (sortedIntervals locs).flatMap
          fun iv => slice (List.range n) iv.1 iv.2).map .old ++ new := by
        rw [List.map_append, List.append_assoc]
    _ ~ (List.range n).map .old ++ new := (hCut.map _).append_right _

theorem Checked.mem_kept_iff {rawGroups : List RawGroup} {groups : List Group}
    {locs : List (Str × Location)} (h : Checked tables text rawGroups groups locs) {i : Nat} :
    i ∈ cut (List.range (splitlinesKeep text).length) 0 (sortedIntervals locs) ↔
      i < (splitlinesKeep text).length ∧ selected tables text groups i = false := by
  rw [mem_cut_range_iff h.ordered, ← Bool.not_eq_true, h.selected_iff]
  simp

/-- The lines that are not moved are in their old order. -/
theorem Checked.layout_kept {rawGroups : List RawGroup} {groups : List Group}
    {locs : List (Str × Location)} (h : Checked tables text rawGroups groups locs)
    (firstStart : Nat) :
    (layout (splitlinesKeep text).length locs groups firstStart).filterMap
      (keptIndex (selected tables text groups)) =
        cut (List.range (splitlinesKeep text).length) 0 (sortedIntervals locs) := by
  have hKept {is : List Nat} (his : ∀ i ∈ is, selected tables text groups i = false) :
      (is.map LineTag.old).filterMap (keptIndex (selected tables text groups)) = is := by
    rw [List.filterMap_map]
    conv_rhs => rw [← List.filterMap_some (l := is)]
    apply List.filterMap_congr
    intro i hi
    simp [keptIndex, his i hi]
  have hIns : (insertTags (splitlinesKeep text).length locs 0 groups).filterMap
      (keptIndex (selected tables text groups)) = [] := by
    rw [List.filterMap_eq_nil_iff]
    intro tag hTag
    rw [(insertTags_perm _ _ _ _).mem_iff, List.mem_append, h.memberTags_flatMap] at hTag
    cases hTag with
    | inl hMember =>
        obtain ⟨iv, hiv, hTag⟩ := List.mem_flatMap.mp hMember
        obtain ⟨i, hi, rfl⟩ := List.mem_map.mp hTag
        obtain ⟨hb, he, _⟩ := mem_slice_range.mp hi
        have hMoved : selected tables text groups i = true :=
          h.selected_iff.mpr ⟨iv, (sortedIntervals_perm locs).mem_iff.mpr hiv, hb, he⟩
        simp [keptIndex, hMoved]
    | inr hNew =>
        obtain ⟨g, _, hTag⟩ := List.mem_flatMap.mp hNew
        cases hTag with
        | head => rfl
        | tail _ hTag =>
            rw [List.mem_singleton.mp hTag]
            rfl
  have hMem := fun i hi => (h.mem_kept_iff (i := i).mp hi).2
  rw [layout, List.filterMap_append, List.filterMap_append, hIns,
    hKept (fun i hi => hMem i (List.mem_of_mem_take hi)),
    hKept (fun i hi => hMem i (List.mem_of_mem_drop hi)), List.append_nil, List.take_append_drop]

/-- Re-indenting only puts blanks in front of a line. -/
theorem shiftLine_eq {delta : Int} (h : 0 < delta) (ln : Str) :
    shiftLine delta ln = ln ∨ shiftLine delta ln = List.replicate delta.toNat ' ' ++ ln := by
  have hJoin : rstripChars ['\n'] ln ++ ln.drop (rstripChars ['\n'] ln).length = ln :=
    List.prefix_iff_eq_append.mp (List.rdropWhile_prefix _ _)
  rw [shiftLine]
  simp only
  split_ifs
  · exact Or.inl rfl
  · exact Or.inr (by rw [List.append_assoc, hJoin])

theorem sameButIndent_shiftLine {delta : Int} (h : 0 < delta) (ln : Str) :
    SameButIndent ln (shiftLine delta ln) := by
  cases shiftLine_eq h ln with
  | inl hSame => exact ⟨[], [], ln, by simp [IndentOnly], by simp [IndentOnly], rfl, hSame⟩
  | inr hShift =>
      refine ⟨[], List.replicate delta.toNat ' ', ln, by simp [IndentOnly], ?_, rfl, hShift⟩
      intro c hc
      exact Or.inl (List.eq_of_mem_replicate hc)

theorem closed_shiftLine {delta : Int} (h : 0 < delta) {ln : Str} (hClosed : Closed ln) :
    Closed (shiftLine delta ln) := by
  cases shiftLine_eq h ln with
  | inl hSame => rwa [hSame]
  | inr hShift =>
      rw [hShift]
      apply hClosed.prepend
      intro c hc
      rw [List.eq_of_mem_replicate hc]
      decide

theorem unterminated_shiftLine {delta : Int} (h : 0 < delta) {ln : Str}
    (hOpen : Unterminated ln) : Unterminated (shiftLine delta ln) := by
  cases shiftLine_eq h ln with
  | inl hSame => rwa [hSame]
  | inr hShift =>
      rw [hShift]
      apply hOpen.prepend
      intro c hc
      rw [List.eq_of_mem_replicate hc]
      decide

theorem map_getD_range (lines : List Str) :
    (List.range lines.length).map (fun i => lines.getD i []) = lines := by
  apply List.ext_getElem
  · simp
  · intro i h₁ h₂
    simp [List.getD_eq_getElem?_getD, h₂]

/-- A member's chunk is its lines, each re-indented by the same amount. -/
theorem Checked.memberChunks_eq {rawGroups : List RawGroup} {groups : List Group}
    {locs : List (Str × Location)} (h : Checked tables text rawGroups groups locs)
    {baseWs unit : Str} (hUnit : unit ≠ [])
    (hBase : ∀ entry ∈ locs, listIndent
      (((splitlinesKeep text).map (rstripChars ['\n'])).getD entry.2.1 []) = baseWs.length)
    (ids : Nat → Uuid) {u : Str} (hu : u ∈ groups.flatMap Prod.snd) :
    memberChunks (splitlinesKeep text) ((splitlinesKeep text).map (rstripChars ['\n'])) locs
        (baseWs ++ unit) u =
      (memberTags (splitlinesKeep text).length locs u).map
        (renderTag (splitlinesKeep text) (selected tables text groups) groups ids baseWs unit) := by
  rw [← h.members] at hu
  obtain ⟨⟨b, i, e⟩, hLoc, hMem⟩ := exists_lookup hu
  have hDelta : ((baseWs ++ unit).length : Int) -
      listIndent (((splitlinesKeep text).map (rstripChars ['\n'])).getD b []) = unit.length := by
    rw [hBase _ hMem, List.length_append]
    omega
  have hPos : (unit.length : Int) ≠ 0 := by
    have := List.length_pos_iff.mpr hUnit
    omega
  simp only [memberChunks, memberTags, hLoc, hDelta, shiftBlockLines, if_neg hPos]
  conv_lhs => rw [← map_getD_range (splitlinesKeep text), ← map_slice, List.map_map]
  rw [List.map_map]
  apply List.map_congr_left
  intro j hj
  obtain ⟨hb, he, _⟩ := mem_slice_range.mp hj
  have hMoved : selected tables text groups j = true :=
    h.selected_iff.mpr ⟨(b, e), (sortedIntervals_perm locs).mem_iff.mpr
      (List.mem_map_of_mem (f := fun entry => (entry.2.1, entry.2.2.2)) hMem), hb, he⟩
  simp [renderTag, hMoved]

theorem Checked.insertChunks_eq {rawGroups : List RawGroup} {groups : List Group}
    {locs : List (Str × Location)} (h : Checked tables text rawGroups groups locs)
    {baseWs unit : Str} (hUnit : unit ≠ [])
    (hBase : ∀ entry ∈ locs, listIndent
      (((splitlinesKeep text).map (rstripChars ['\n'])).getD entry.2.1 []) = baseWs.length)
    (ids : Nat → Uuid) {before after : List Group} (hGroups : groups = before ++ after) :
    insertChunks (splitlinesKeep text) ((splitlinesKeep text).map (rstripChars ['\n'])) locs
        baseWs (baseWs ++ unit) ids before.length after =
      (insertTags (splitlinesKeep text).length locs before.length after).map
        (renderTag (splitlinesKeep text) (selected tables text groups) groups ids baseWs unit) := by
  induction after generalizing before with
  | nil => rfl
  | cons group after ih =>
      have hNext := ih (show groups = (before ++ [group]) ++ after by simp [hGroups])
      rw [List.length_append, List.length_singleton] at hNext
      have hGet : groups.getD before.length ([], []) = group := by
        simp [List.getD_eq_getElem?_getD, hGroups]
      have hMembers : group.2.flatMap (memberChunks (splitlinesKeep text)
          ((splitlinesKeep text).map (rstripChars ['\n'])) locs (baseWs ++ unit)) =
          (group.2.flatMap (memberTags (splitlinesKeep text).length locs)).map
            (renderTag (splitlinesKeep text) (selected tables text groups) groups ids baseWs
              unit) := by
        rw [List.map_flatMap]
        apply List.flatMap_congr
        intro u hu
        apply h.memberChunks_eq hUnit hBase
        exact List.mem_flatMap.mpr ⟨group, by simp [hGroups], hu⟩
      simp only [insertChunks, insertTags, List.map_cons, List.map_append, hMembers, hNext,
        renderTag, hGet]

theorem eq_of_max?_eq_min? {xs : List Nat} (h : xs.max? = xs.min?) {x y : Nat} (hx : x ∈ xs)
    (hy : y ∈ xs) : x = y := by
  obtain ⟨m, hm⟩ : ∃ m, xs.max? = some m := by
    cases hMax : xs.max? with
    | none => rw [List.max?_eq_none_iff.mp hMax] at hx; cases hx
    | some m => exact ⟨m, rfl⟩
  have hMin : xs.min? = some m := h ▸ hm
  have hLe := (List.max?_eq_some_iff.mp hm).2
  have hGe := (List.min?_eq_some_iff.mp hMin).2
  have := hLe x hx
  have := hGe x hx
  have := hLe y hy
  have := hGe y hy
  omega

theorem bulletIndentUnit_ne_nil (lines : List Str) (i : Nat) : bulletIndentUnit lines i ≠ [] := by
  rw [bulletIndentUnit]
  split
  · decide
  · split_ifs <;> decide

theorem indentOnly_bulletIndentUnit (lines : List Str) (i : Nat) :
    IndentOnly (bulletIndentUnit lines i) := by
  rw [bulletIndentUnit]
  split
  · decide
  · split_ifs <;> decide

theorem indentUnit_ne_nil (lines : List Str) (ivs : List (Nat × Nat)) :
    indentUnit lines ivs ≠ [] := by
  cases ivs with
  | nil =>
      show "  ".toList ≠ []
      decide
  | cons iv ivs => exact bulletIndentUnit_ne_nil lines iv.1

theorem indentOnly_indentUnit (lines : List Str) (ivs : List (Nat × Nat)) :
    IndentOnly (indentUnit lines ivs) := by
  cases ivs with
  | nil =>
      show IndentOnly "  ".toList
      decide
  | cons iv ivs => exact indentOnly_bulletIndentUnit lines iv.1

theorem indentOnly_baseWhitespace (stripped : List Str) (locs : List (Str × Location)) :
    IndentOnly (baseWhitespace stripped locs) := by
  cases locs with
  | nil =>
      intro c hc
      cases hc
  | cons entry locs =>
      intro c hc
      exact Or.inl (List.eq_of_mem_replicate hc)

/-- All members are as deep as the first one. -/
theorem Checked.listIndent_eq {rawGroups : List RawGroup} {groups : List Group}
    {locs : List (Str × Location)} (h : Checked tables text rawGroups groups locs)
    {entry : Str × Location} (hEntry : entry ∈ locs) :
    listIndent (((splitlinesKeep text).map (rstripChars ['\n'])).getD entry.2.1 []) =
      (baseWhitespace ((splitlinesKeep text).map (rstripChars ['\n'])) locs).length := by
  cases locs with
  | nil => cases hEntry
  | cons first rest =>
      rw [baseWhitespace, List.length_replicate]
      apply eq_of_max?_eq_min? h.sameIndent
      · exact List.mem_map.mpr ⟨entry, hEntry, rfl⟩
      · exact List.mem_map.mpr ⟨first, List.mem_cons_self, rfl⟩

/-- The new text is the layout, rendered line by line. -/
theorem Checked.reparentedText_eq {rawGroups : List RawGroup} {groups : List Group}
    {locs : List (Str × Location)} (h : Checked tables text rawGroups groups locs)
    (ids : Nat → Uuid) (firstStart : Nat) :
    reparentedText (splitlinesKeep text) ((splitlinesKeep text).map (rstripChars ['\n'])) locs
        groups ids firstStart =
      ((layout (splitlinesKeep text).length locs groups firstStart).map
        (renderTag (splitlinesKeep text) (selected tables text groups) groups ids
          (baseWhitespace ((splitlinesKeep text).map (rstripChars ['\n'])) locs)
          (indentUnit (splitlinesKeep text) (sortedIntervals locs)))).flatten := by
  set lines := splitlinesKeep text
  set baseWs := baseWhitespace (lines.map (rstripChars ['\n'])) locs
  set unit := indentUnit lines (sortedIntervals locs)
  have hIns : insertChunks lines (lines.map (rstripChars ['\n'])) locs baseWs (baseWs ++ unit) ids
      0 groups = (insertTags lines.length locs 0 groups).map
        (renderTag lines (selected tables text groups) groups ids baseWs unit) :=
    h.insertChunks_eq (indentUnit_ne_nil _ _) (fun entry hEntry => h.listIndent_eq hEntry) ids
      (show groups = [] ++ groups from rfl)
  have hKept {is : List Nat} (his : ∀ i ∈ is, selected tables text groups i = false) :
      (is.map LineTag.old).map (renderTag lines (selected tables text groups) groups ids baseWs
        unit) = is.map fun i => lines.getD i [] := by
    rw [List.map_map]
    apply List.map_congr_left
    intro i hi
    simp [renderTag, his i hi]
  have hCut : cut lines 0 (sortedIntervals locs) =
      (cut (List.range lines.length) 0 (sortedIntervals locs)).map fun i => lines.getD i [] := by
    rw [map_cut, map_getD_range]
  have hMem : ∀ i ∈ cut (List.range lines.length) 0 (sortedIntervals locs),
      selected tables text groups i = false := fun i hi => (h.mem_kept_iff.mp hi).2
  rw [layout, List.map_append, List.map_append,
    hKept (fun i hi => hMem i (List.mem_of_mem_take hi)),
    hKept (fun i hi => hMem i (List.mem_of_mem_drop hi)), ← hIns]
  simp only [reparentedText, List.flatten_append, flatten_splitlinesKeep, hCut, List.map_take,
    List.map_drop, baseWs, unit]

end Plumber.ReparentBlocks
