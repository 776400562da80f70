import MatrycaPlumber.Agent.AutoSplit
import MatrycaPlumber.Text.Cuts
import Mathlib.Data.List.Flatten

/-! What the cutting out of blocks conserves: the lines outside of the blocks
stay on the page, and the blocks are on the pages that their stubs name. -/
namespace Plumber.AutoSplit

open PyText MarkdownBlocks LogseqUuid PageFiles

def Extraction.covers (x : Extraction) (i : Nat) : Bool :=
  x.block.bulletIdx ≤ i && i < x.block.stop

/-- The lines from index `start` on that belong to none of the blocks. -/
def linesOutside (extracted : List Extraction) (start : Nat) (lines : List Str) : List Str :=
  ((lines.zipIdx start).filter fun line => extracted.all fun x => !x.covers line.2).map Prod.fst

/-- The lines of the page outside of the blocks are still on the page, in their
order, and every block is on the page that its stub names. -/
structure Conserved (oldText : Str) (pagePath : Str) (commit : Commit) : Prop where
  outside : ∃ newText, commit.pages pagePath = some newText ∧
    (linesOutside commit.extracted 0 (splitlinesKeep oldText)).Sublist (splitlinesKeep newText)
  held : ∀ x ∈ commit.extracted, ∃ text, commit.pages x.childPath = some text ∧
    x.subtree <:+: text

section Planned

variable (g : Graph) (pageTitle : Str)

/-- The blocks that the candidates stand for, as they are on the page before
anything is cut out. -/
def planned (lines : List Str) (cs : List Candidate) : List Extraction :=
  cs.filterMap fun c => (g.safePagePath (childTitle pageTitle c)).map fun childPath =>
    ⟨c, childTitle pageTitle c, childPath, subtreeText lines c.bulletIdx c.stop⟩

def plannedExtractions (threshold : Int) (lines : List Str) : List Extraction :=
  planned g pageTitle lines (orderedCandidates g.tables threshold lines)

def Extraction.disjoint (x y : Extraction) : Prop :=
  x.block.stop ≤ y.block.bulletIdx ∨ y.block.stop ≤ x.block.bulletIdx

/-- What a page holds once the blocks are out: a page that was there is left as it
was, and another one is written for the first block that goes to it. -/
def childContent (pages : Str → Option Str) (extracted : List Extraction) (path : Str) :
    Option Str :=
  pages path <|> (extracted.find? fun x => x.childPath = path).map fun x =>
    childText g pageTitle x.block.blockCount x.subtree

end Planned

theorem linesOutside_append (extracted : List Extraction) (start : Nat) (xs ys : List Str) :
    linesOutside extracted start (xs ++ ys) =
      linesOutside extracted start xs ++ linesOutside extracted (start + xs.length) ys := by
  simp [linesOutside, List.zipIdx_append]

theorem linesOutside_sublist (extracted : List Extraction) (start : Nat) (xs : List Str) :
    (linesOutside extracted start xs).Sublist xs := by
  have hAll := (List.filter_sublist (p := fun line : Str × Nat =>
    extracted.all fun x => !x.covers line.2) (l := xs.zipIdx start)).map Prod.fst
  rwa [List.zipIdx_map_fst] at hAll

/-- Lines in front of all blocks, and lines inside one of them. -/
theorem linesOutside_of_notCovered {extracted : List Extraction} {start : Nat} {xs : List Str}
    (h : ∀ x ∈ extracted, start + xs.length ≤ x.block.bulletIdx) :
    linesOutside extracted start xs = xs := by
  rw [linesOutside, List.filter_eq_self.mpr, List.zipIdx_map_fst]
  intro line hLine
  obtain ⟨_, hLt, _⟩ := List.mem_zipIdx hLine
  simp only [List.all_eq_true, Extraction.covers, Bool.not_eq_true', Bool.and_eq_false_iff,
    decide_eq_false_iff_not]
  intro x hx
  have := h x hx
  omega

theorem linesOutside_of_covered {extracted : List Extraction} {start : Nat} {xs : List Str}
    {x : Extraction} (hx : x ∈ extracted) (hStart : x.block.bulletIdx ≤ start)
    (hStop : start + xs.length ≤ x.block.stop) : linesOutside extracted start xs = [] := by
  rw [linesOutside, List.filter_eq_nil_iff.mpr, List.map_nil]
  intro line hLine hAll
  obtain ⟨hLe, hLt, _⟩ := List.mem_zipIdx hLine
  have hOutside := List.all_eq_true.mp hAll x hx
  simp only [Extraction.covers, Bool.not_eq_true', Bool.and_eq_false_iff,
    decide_eq_false_iff_not] at hOutside
  omega

/-- A block further up does not concern the lines below it. -/
theorem linesOutside_concat {extracted : List Extraction} {start : Nat} {xs : List Str}
    {x : Extraction} (h : x.block.stop ≤ start) :
    linesOutside (extracted ++ [x]) start xs = linesOutside extracted start xs := by
  rw [linesOutside, linesOutside]
  congr 1
  apply List.filter_congr
  intro line hLine
  obtain ⟨hLe, _, _⟩ := List.mem_zipIdx hLine
  have hOutside : x.covers line.2 = false := by
    simp only [Extraction.covers, Bool.and_eq_false_iff, decide_eq_false_iff_not]
    omega
  simp [hOutside]

section Loop

variable (g : Graph) (pageTitle : Str) (lines : List Str) (pages : Str → Option Str)

/-- The loop after some of the blocks, when the page is as it was up to line
`front`. -/
structure Loop (s : SplitState) (front : Nat) : Prop where
  front_le : front ≤ lines.length
  starts : ∀ x ∈ s.extracted, front ≤ x.block.bulletIdx
  kept : ∃ rest, s.lines = lines.take front ++ rest ∧
    (linesOutside s.extracted front (lines.drop front)).Sublist rest
  terminated : ∀ l ∈ s.lines.dropLast, Terminated l
  pages : ∀ path, s.pages path = childContent g pageTitle pages s.extracted path

theorem childContent_concat (extracted : List Extraction) (x : Extraction) (path : Str) :
    childContent g pageTitle pages (extracted ++ [x]) path =
      (childContent g pageTitle pages extracted path <|>
        if x.childPath = path then some (childText g pageTitle x.block.blockCount x.subtree)
        else none) := by
  rw [childContent, childContent, List.find?_append, Option.map_or]
  by_cases hPath : x.childPath = path
  · simp [hPath]
  · simp [hPath]

theorem stub_terminated (indent title : Str) (blockUuid : Uuid) :
    Terminated (stub pageTitle indent title blockUuid) := by
  have hStub : stub pageTitle indent title blockUuid =
      (indent ++ "- \x7b\x7bembed [[".toList ++ title ++ "]]\x7d\x7d\n".toList ++
        indent ++ "  id:: ".toList ++ blockUuid.text ++ ['\n'] ++
        indent ++ "  matryca-split-from:: [[".toList ++ pageTitle ++ "]]".toList) ++ ['\n'] := by
    rw [stub]
    simp only [List.append_assoc]
    rfl
  rw [hStub]
  exact terminated_newline _

variable {g pageTitle lines pages} {s t : SplitState} {front : Nat} {c : Candidate}

/-- What is in a line of a subtree besides blanks is in its text. -/
theorem exists_mem_normalizedLine {line : Str} (baseIndent : Nat)
    (h : isBlank (stripNewlines line) = false) :
    ∃ ch ∈ normalizedLine baseIndent line, isSpace ch = false := by
  rw [normalizedLine]
  split
  next => exact ⟨'-', by simp, by decide⟩
  next =>
    rw [isBlank, List.all_eq_false] at h
    obtain ⟨ch, hMem, hSpace⟩ := h
    exact ⟨ch, hMem, Bool.eq_false_iff.mpr hSpace⟩

theorem mem_join_of_mem_head {xs : List Str} {x : Str} {ch : Char} (h : ch ∈ x) :
    ch ∈ join ['\n'] (x :: xs) := by
  cases xs with
  | nil => exact h
  | cons second rest =>
      rw [join]
      simp [h]

/-- A subtree whose first line is not blank is not blank. -/
theorem subtreeText_not_blank_of_line {lines : List Str} {b stop : Nat} {line : Str}
    (hLine : lines[b]? = some line) (hLt : b < stop)
    (hText : isBlank (stripNewlines line) = false) : isBlank (subtreeText lines b stop) = false := by
  have hSlice : slice lines b stop = line :: slice lines (b + 1) stop := by
    obtain ⟨hBound, hGet⟩ := List.getElem?_eq_some_iff.mp hLine
    have hLength : b < (lines.take stop).length := by
      rw [List.length_take]
      omega
    rw [slice, List.drop_eq_getElem_cons hLength, List.getElem_take, hGet, slice]
  rw [subtreeText, hSlice]
  dsimp only
  rw [List.map_cons]
  obtain ⟨ch, hMem, hSpace⟩ := exists_mem_normalizedLine _ hText
  rw [isBlank, List.all_eq_false]
  refine ⟨ch, List.mem_append_left _ (mem_strip (mem_join_of_mem_head hMem) hSpace), ?_⟩
  rw [hSpace]
  exact Bool.false_ne_true

theorem isBlank_eq_false_of_bullet {line : Str} (h : (bulletMatch? line).isSome = true) :
    isBlank line = false := by
  by_contra hBlank
  rw [Bool.not_eq_false, isBlank, List.all_eq_true] at hBlank
  rw [bulletMatch?, List.dropWhile_eq_nil_iff.mpr hBlank] at h
  cases h

/-- A subtree that starts with a bullet is not blank. -/
theorem subtreeText_not_blank (hLt : c.bulletIdx < c.stop) (hStop : c.stop ≤ lines.length)
    (hBullet : (bulletMatch? (stripNewlines (lines.getD c.bulletIdx []))).isSome = true) :
    isBlank (subtreeText lines c.bulletIdx c.stop) = false := by
  have hLine : lines[c.bulletIdx]? = some (lines.getD c.bulletIdx []) := by
    rw [List.getD, List.getElem?_eq_getElem (by omega), Option.getD_some]
  exact subtreeText_not_blank_of_line hLine hLt (isBlank_eq_false_of_bullet hBullet)

theorem extractCandidate_skip (hPath : g.safePagePath (childTitle pageTitle c) = none)
    (hStep : extractCandidate g pageTitle s c = some t) : t = s := by
  simp only [extractCandidate, hPath] at hStep
  split_ifs at hStep <;> exact (Option.some.inj hStep).symm

theorem terminated_replaced {xs : List Str} {text : Str} {b e : Nat}
    (h : ∀ l ∈ xs.dropLast, Terminated l) (hLt : b < xs.length) (hText : Terminated text) :
    ∀ l ∈ (xs.take b ++ text :: xs.drop e).dropLast, Terminated l := by
  intro l hl
  rw [List.dropLast_append_cons, List.mem_append] at hl
  cases hl with
  | inl hBefore =>
      apply h l
      rw [List.dropLast_eq_take]
      exact (List.take_prefix_take_left (by omega)).subset hBefore
  | inr hAfter =>
      cases hDrop : xs.drop e with
      | nil =>
          rw [hDrop] at hAfter
          cases hAfter
      | cons m ms =>
          rw [hDrop, List.dropLast_cons_cons, ← hDrop] at hAfter
          cases List.mem_cons.mp hAfter with
          | inl hEq => exact hEq ▸ hText
          | inr hMem =>
              apply h l
              apply List.drop_subset e
              rwa [List.dropLast_eq_take, List.drop_take, ← Nat.sub_right_comm,
                ← List.length_drop, ← List.dropLast_eq_take]

theorem written_page {old new : Str → Option Str} {path text : Str}
    (h : (match old path with
      | some _ => some old
      | none => writePage old path text) = some new) (p : Str) :
    new p = (old p <|> if path = p then some text else none) := by
  cases hOld : old path with
  | some content =>
      rw [hOld] at h
      obtain rfl := Option.some.inj h
      by_cases hEq : path = p
      · rw [← hEq, hOld]
        rfl
      · simp [hEq]
  | none =>
      rw [hOld] at h
      simp only [writePage] at h
      split_ifs at h
      obtain rfl := Option.some.inj h
      by_cases hEq : path = p
      · rw [← hEq, setAt_self, hOld]
        simp
      · rw [setAt_ne _ _ (Ne.symm hEq)]
        simp [hEq]

/-- The cutting out of a block that lies in front of all blocks that are out. -/
theorem Loop.extract {path : Str} (h : Loop g pageTitle lines pages s front)
    (hLt : c.bulletIdx < c.stop) (hFront : c.stop ≤ front)
    (hBullet : (bulletMatch? (stripNewlines (lines.getD c.bulletIdx []))).isSome = true)
    (hPath : g.safePagePath (childTitle pageTitle c) = some path)
    (hStep : extractCandidate g pageTitle s c = some t) :
    t.extracted = s.extracted ++ [⟨c, childTitle pageTitle c, path,
      subtreeText lines c.bulletIdx c.stop⟩] ∧ Loop g pageTitle lines pages t c.bulletIdx := by
  obtain ⟨rest, hLines, hRest⟩ := h.kept
  have hLe := h.front_le
  have hLength : c.stop ≤ (lines.take front).length := by
    rw [List.length_take]
    omega
  have hSubtree : subtreeText s.lines c.bulletIdx c.stop =
      subtreeText lines c.bulletIdx c.stop := by
    rw [subtreeText, subtreeText, slice, slice, hLines, List.take_append_of_le_length hLength,
      List.take_take, Nat.min_eq_left hFront]
  have hNonblank := subtreeText_not_blank hLt (by omega : c.stop ≤ lines.length) hBullet
  simp only [extractCandidate, hSubtree, hNonblank, hPath, Bool.false_eq_true, if_false] at hStep
  obtain ⟨newPages, hWritten, rfl⟩ := Option.map_eq_some_iff.mp hStep
  refine ⟨rfl, ?_, ?_, ?_, ?_, ?_⟩
  · omega
  · intro x hx
    cases List.mem_append.mp hx with
    | inl hOld =>
        have := h.starts x hOld
        omega
    | inr hNew => rw [List.mem_singleton.mp hNew]
  · have hSlice : slice lines c.bulletIdx c.stop ++ (slice lines c.stop front ++ lines.drop front) =
        lines.drop c.bulletIdx := by
      rw [slice_append_drop _ hFront, slice_append_drop _ (by omega)]
    have hReplaced (text : Str) : s.lines.take c.bulletIdx ++ text :: s.lines.drop c.stop =
        lines.take c.bulletIdx ++ text :: (slice lines c.stop front ++ rest) := by
      rw [hLines, List.take_append_of_le_length (by omega), List.take_take,
        Nat.min_eq_left (by omega), List.drop_append_of_le_length hLength]
      rfl
    refine ⟨_, hReplaced _, List.Sublist.cons _ ?_⟩
    rw [← hSlice, linesOutside_append, linesOutside_append,
      linesOutside_of_covered (List.mem_append_right _ List.mem_cons_self) (Nat.le_refl _)
        (by rw [length_slice _ (by omega)]; show c.bulletIdx + (c.stop - c.bulletIdx) ≤ c.stop; omega),
      List.nil_append, length_slice _ (by omega), length_slice _ hLe]
    have hStart : c.bulletIdx + (c.stop - c.bulletIdx) = c.stop := by omega
    have hNext : c.stop + (front - c.stop) = front := by omega
    rw [hStart, hNext, linesOutside_concat (Nat.le_refl _), linesOutside_concat hFront]
    exact (linesOutside_sublist _ _ _).append hRest
  · have hLt' : c.bulletIdx < s.lines.length := by
      rw [hLines, List.length_append, List.length_take]
      omega
    exact terminated_replaced h.terminated hLt' (stub_terminated _ _ _ _)
  · intro p
    rw [childContent_concat, ← h.pages]
    exact written_page hWritten p

/-- A candidate is an interval of the page that starts with a bullet. -/
structure Candidate.On (c : Candidate) (lines : List Str) : Prop where
  lt : c.bulletIdx < c.stop
  stop_le : c.stop ≤ lines.length
  bullet : (bulletMatch? (stripNewlines (lines.getD c.bulletIdx []))).isSome = true

/-- The loop over candidates from the end of the page to its beginning, none of
which reaches into the one before it. -/
theorem Loop.run {cs : List Candidate} (h : Loop g pageTitle lines pages s front)
    (hOn : ∀ c ∈ cs, c.On lines)
    (hFront : ∀ x ∈ planned g pageTitle lines cs, x.block.stop ≤ front)
    (hApart : (planned g pageTitle lines cs).Pairwise fun x y => y.block.stop ≤ x.block.bulletIdx)
    (hRun : cs.foldlM (extractCandidate g pageTitle) s = some t) :
    t.extracted = s.extracted ++ planned g pageTitle lines cs ∧
      ∃ front', Loop g pageTitle lines pages t front' := by
  induction cs generalizing s front with
  | nil =>
      obtain rfl := Option.some.inj hRun
      exact ⟨(List.append_nil _).symm, front, h⟩
  | cons c cs ih =>
      rw [List.foldlM_cons] at hRun
      obtain ⟨u, hStep, hRest⟩ := Option.bind_eq_some_iff.mp hRun
      rw [List.forall_mem_cons] at hOn
      cases hPath : g.safePagePath (childTitle pageTitle c) with
      | none =>
          have hPlanned : planned g pageTitle lines (c :: cs) = planned g pageTitle lines cs := by
            simp [planned, hPath]
          obtain rfl := extractCandidate_skip hPath hStep
          rw [hPlanned] at hFront hApart ⊢
          exact ih h hOn.2 hFront hApart hRest
      | some path =>
          have hPlanned : planned g pageTitle lines (c :: cs) =
              ⟨c, childTitle pageTitle c, path, subtreeText lines c.bulletIdx c.stop⟩ ::
                planned g pageTitle lines cs := by
            simp [planned, hPath]
          rw [hPlanned, List.forall_mem_cons] at hFront
          rw [hPlanned, List.pairwise_cons] at hApart
          obtain ⟨hExtracted, hLoop⟩ :=
            h.extract hOn.1.lt hFront.1 hOn.1.bullet hPath hStep
          obtain ⟨hAll, hEnd⟩ := ih hLoop hOn.2 hApart.1 hApart.2 hRest
          refine ⟨?_, hEnd⟩
          rw [hAll, hExtracted, hPlanned, List.append_assoc]
          rfl

theorem candidate?_on {tables : CaseTables} {threshold : Int} {line : Str}
    (h : candidate? tables threshold (lines.map stripNewlines) line = some c) : c.On lines := by
  rw [candidate?.eq_def] at h
  cases hUuid : idLineUuid? tables line with
  | none =>
      rw [hUuid] at h
      cases h
  | some blockUuid =>
      cases hLocate : locateBlockByUuid tables (lines.map stripNewlines) blockUuid with
      | none =>
          simp only [hUuid, hLocate] at h
          cases h
      | some located =>
          obtain ⟨bulletIdx, idIdx, stop⟩ := located
          simp only [hUuid, hLocate] at h
          split_ifs at h
          cases hBullet : bulletMatch? ((lines.map stripNewlines).getD bulletIdx []) with
          | none =>
              simp only [hBullet] at h
              cases h
          | some bullet =>
              simp only [hBullet] at h
              obtain rfl := Option.some.inj h
              obtain ⟨hId, hStop, hLength⟩ := locateBlockByUuid_bounds hLocate
              rw [List.length_map] at hLength
              refine ⟨by show bulletIdx < stop; omega, hLength, ?_⟩
              have hLine : (lines.map stripNewlines).getD bulletIdx [] =
                  stripNewlines (lines.getD bulletIdx []) := by
                rw [List.getD, List.getD, List.getElem?_map]
                cases lines[bulletIdx]? <;> rfl
              rw [← hLine, hBullet]
              rfl

/-- The candidates are intervals of the page, the later ones first. -/
theorem orderedCandidates_spec (tables : CaseTables) (threshold : Int) (lines : List Str) :
    (∀ c ∈ orderedCandidates tables threshold lines, c.On lines) ∧
      (orderedCandidates tables threshold lines).Pairwise
        fun c c' => c'.bulletIdx ≤ c.bulletIdx := by
  constructor
  · intro c hc
    rw [orderedCandidates, List.mem_insertionSort, List.mem_filterMap] at hc
    obtain ⟨line, _, hCandidate⟩ := hc
    exact candidate?_on hCandidate
  · have hTotal : Std.Total fun c c' : Candidate => c'.bulletIdx ≤ c.bulletIdx :=
      ⟨fun c c' => Nat.le_total c'.bulletIdx c.bulletIdx⟩
    have hTrans : IsTrans Candidate fun c c' => c'.bulletIdx ≤ c.bulletIdx :=
      ⟨fun _ _ _ h h' => Nat.le_trans h' h⟩
    exact List.pairwise_insertionSort _ _

/-- Disjoint blocks, the later ones first, do not reach into each other. -/
theorem plannedExtractions_apart {threshold : Int}
    (hDisjoint : (plannedExtractions g pageTitle threshold lines).Pairwise Extraction.disjoint) :
    (plannedExtractions g pageTitle threshold lines).Pairwise
      fun x y => y.block.stop ≤ x.block.bulletIdx := by
  obtain ⟨hOn, hOrder⟩ := orderedCandidates_spec g.tables threshold lines
  have hMem : ∀ x ∈ plannedExtractions g pageTitle threshold lines, x.block.On lines := by
    intro x hx
    obtain ⟨c, hc, hMap⟩ := List.mem_filterMap.mp hx
    obtain ⟨path, _, rfl⟩ := Option.map_eq_some_iff.mp hMap
    exact hOn c hc
  have hSorted : (plannedExtractions g pageTitle threshold lines).Pairwise
      fun x y => y.block.bulletIdx ≤ x.block.bulletIdx := by
    apply hOrder.filterMap
    intro c c' hLe x hx y hy
    obtain ⟨_, _, rfl⟩ := Option.map_eq_some_iff.mp hx
    obtain ⟨_, _, rfl⟩ := Option.map_eq_some_iff.mp hy
    exact hLe
  apply (hDisjoint.and hSorted).imp_of_mem
  intro x y hx _ hBoth
  have hLt := (hMem x hx).lt
  obtain ⟨hEither | hEither, hLe⟩ := hBoth
  · omega
  · exact hEither

end Loop

section Main

variable {g : Graph} {pagePath pageTitle : Str} {threshold : Int} {pages : Str → Option Str}
  {raw : Str} {commit : Commit}

theorem Loop.initial (lines : List Str) (h : PageLines lines) :
    Loop g pageTitle lines pages ⟨lines, pages, []⟩ lines.length where
  front_le := Nat.le_refl _
  starts := fun x hx => by cases hx
  kept := ⟨[], by simp, by simp [linesOutside]⟩
  terminated := fun l hl => (h.dropLast_closed l hl).terminated
  pages := fun path => by simp [childContent]

/-- A committed split of disjoint blocks cuts out the planned ones, keeps the
other lines, and writes every child page at most once. -/
theorem commit_spec (hRaw : pages pagePath = some raw)
    (hCommit : runAutoSplit g pageTitle pagePath threshold pages = some commit)
    (hDisjoint : (plannedExtractions g pageTitle threshold
      (splitlinesKeep (universalNewlines raw))).Pairwise Extraction.disjoint) :
    commit.extracted = plannedExtractions g pageTitle threshold
        (splitlinesKeep (universalNewlines raw)) ∧
      (∃ newText, commit.pages pagePath = some newText ∧
        (linesOutside commit.extracted 0 (splitlinesKeep (universalNewlines raw))).Sublist
          (splitlinesKeep newText)) ∧
      ∀ path, path ≠ pagePath →
        commit.pages path = childContent g pageTitle pages commit.extracted path := by
  simp only [runAutoSplit, hRaw] at hCommit
  split_ifs at hCommit
  generalize hLines : splitlinesKeep (universalNewlines raw) = lines at hCommit hDisjoint ⊢
  have hPage : PageLines lines := by
    rw [← hLines]
    exact pageLines_splitlinesKeep (cr_notMem_universalNewlines raw)
  cases hRun : (orderedCandidates g.tables threshold lines).foldlM
      (extractCandidate g pageTitle) ⟨lines, pages, []⟩ with
  | none =>
      simp only [hRun] at hCommit
      cases hCommit
  | some s =>
      simp only [hRun] at hCommit
      obtain ⟨newPages, hWrite, rfl⟩ := Option.map_eq_some_iff.mp hCommit
      simp only [writePage] at hWrite
      split_ifs at hWrite
      obtain rfl := Option.some.inj hWrite
      obtain ⟨hOn, _⟩ := orderedCandidates_spec g.tables threshold lines
      have hFront : ∀ x ∈ plannedExtractions g pageTitle threshold lines,
          x.block.stop ≤ lines.length := by
        intro x hx
        obtain ⟨c, hc, hMap⟩ := List.mem_filterMap.mp hx
        obtain ⟨path, _, rfl⟩ := Option.map_eq_some_iff.mp hMap
        exact (hOn c hc).stop_le
      obtain ⟨hExtracted, front, hLoop⟩ :=
        (Loop.initial lines hPage).run hOn hFront (plannedExtractions_apart hDisjoint) hRun
      refine ⟨hExtracted, ⟨_, setAt_self _ _ _, ?_⟩, ?_⟩
      · obtain ⟨rest, hNew, hRest⟩ := hLoop.kept
        have hOutside : (linesOutside s.extracted 0 lines).Sublist s.lines := by
          rw [hNew]
          conv_lhs => rw [← List.take_append_drop front lines, linesOutside_append]
          have hStart : 0 + (lines.take front).length = front := by
            have := hLoop.front_le
            rw [List.length_take]
            omega
          rw [hStart]
          exact (linesOutside_sublist _ _ _).append hRest
        rw [splitlinesKeep_flatten_terminated hLoop.terminated]
        have hSelf : (linesOutside s.extracted 0 lines).flatMap splitlinesKeep =
            linesOutside s.extracted 0 lines := by
          rw [List.flatMap_congr fun l hl =>
            hPage.splitlinesKeep_mem ((linesOutside_sublist _ _ _).subset hl)]
          simp
        rw [← hSelf]
        exact hOutside.flatMap _
      · intro path hPath
        exact (setAt_ne _ _ hPath).trans (hLoop.pages path)

end Main

section Sample

def sampleGraph : Graph where
  tables := asciiCase
  safePagePath title := some (title ++ ".md".toList)
  stampProperties text := text
  freshUuid _ := sampleId

def samplePage : Str := "- a\n  id:: ".toList ++ sampleId.text ++ "\n- z\n".toList

def sampleSubtree : Str := "- a\n  id:: ".toList ++ sampleId.text ++ "\n".toList

def sampleBlock : Extraction where
  block := ⟨0, 2, 1, "a".toList⟩
  childTitle := "P — a".toList
  childPath := "P — a.md".toList
  subtree := sampleSubtree

def samplePages (child : Option Str) : Str → Option Str := fun path =>
  if path = "P.md".toList then some samplePage
  else if path = "P — a.md".toList then child else none

theorem sample_planned : plannedExtractions sampleGraph "P".toList 1
    (splitlinesKeep (universalNewlines samplePage)) = [sampleBlock] := by
  decide +kernel

end Sample

end Plumber.AutoSplit
