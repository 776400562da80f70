import MatrycaPlumber.Text.Basic
import Mathlib.Data.List.Chain

/-! The paged read of one journal file. -/
namespace Plumber.JournalRead

open PyText

section Model

/-- `content.rfind("\n", start, stop)`. -/
def rfindNewline (content : Str) (start : ℕ) : ℕ → Option ℕ
  | 0 => none
  | stop + 1 =>
      if stop < start then none
      else if content[stop]? = some '\n' then some stop
      else rfindNewline content start stop

/-- Behind the last newline of the window, if it does not reach the end of the content. -/
def newlineEnd (content : Str) (cursor requestedEnd : ℕ) : ℕ :=
  if requestedEnd < content.length then
    match rfindNewline content cursor requestedEnd with
    | some lastNewline => lastNewline + 1
    | none => requestedEnd
  else requestedEnd

def pageEnd (content : Str) (cursor requestedEnd : ℕ) : ℕ :=
  if newlineEnd content cursor requestedEnd ≤ cursor then requestedEnd
  else newlineEnd content cursor requestedEnd

/-- `_journal_page`. -/
def journalPage (content : Str) (cursor maxChars : ℕ) : Str × Option ℕ :=
  let stop := pageEnd content cursor (min (cursor + maxChars) content.length)
  (slice content cursor stop, if stop < content.length then some stop else none)

/-- The part of the envelope that says where the page is, and the page. -/
structure Page where
  returnedStart : ℕ
  returnedEnd : ℕ
  nextCursor : Option ℕ
  content : Str
  deriving DecidableEq

inductive Answer where
  | empty
  | cursorOutOfRange (cursor sourceChars : ℕ)
  | ok (page : Page)
  deriving DecidableEq

/-- `read_journal_day_markdown`, once the file has been read. -/
def readJournalPage (rawContent : Str) (cursor contentBudget : ℕ) : Answer :=
  if strip rawContent = [] then .empty
  else if rawContent.length ≤ cursor then .cursorOutOfRange cursor rawContent.length
  else
    let (content, nextCursor) := journalPage rawContent cursor contentBudget
    .ok
      { returnedStart := cursor
        returnedEnd := cursor + content.length
        nextCursor := nextCursor
        content := content }

end Model

example : journalPage "ab\ncd\nef".toList 0 5 = ("ab\n".toList, some 3) := by decide

/-- The pages of a reader that follows the cursor from one answer to the next, each request with
a budget of its own. -/
def Follows (content : Str) (budgets : ℕ → ℕ) : ℕ → ℕ → List Page → Prop
  | _, _, [] => False
  | request, cursor, page :: pages =>
      readJournalPage content cursor (budgets request) = .ok page ∧
        match page.nextCursor with
        | none => pages = []
        | some next => Follows content budgets (request + 1) next pages

/-- What every page is, for the budget of its request. -/
structure PageFits (content : Str) (budget : ℕ) (page : Page) : Prop where
  ne_nil : page.content ≠ []
  length_le : page.content.length ≤ budget
  content_eq : page.content = slice content page.returnedStart page.returnedEnd
  newline : page.returnedEnd < content.length →
    '\n' ∈ slice content page.returnedStart (page.returnedStart + budget) →
      page.content.getLast? = some '\n'

section Pages

variable {content : Str} {cursor budget start stop : ℕ}

theorem rfindNewline_eq_some {i : ℕ} (h : rfindNewline content start stop = some i) :
    start ≤ i ∧ i < stop ∧ content[i]? = some '\n' := by
  induction stop with
  | zero => cases h
  | succ stop ih =>
      rw [rfindNewline] at h
      split_ifs at h with hStart hNewline
      · rw [Option.some.injEq] at h
        subst h
        exact ⟨not_lt.mp hStart, Nat.lt_succ_self _, hNewline⟩
      · obtain ⟨hLe, hLt, hAt⟩ := ih h
        exact ⟨hLe, Nat.lt_succ_of_lt hLt, hAt⟩

theorem rfindNewline_eq_none (h : rfindNewline content start stop = none) {i : ℕ} (hLe : start ≤ i)
    (hLt : i < stop) : content[i]? ≠ some '\n' := by
  induction stop with
  | zero => exact absurd hLt (Nat.not_lt_zero i)
  | succ stop ih =>
      rw [rfindNewline] at h
      split_ifs at h with hStart hNewline
      · omega
      · rcases Nat.lt_succ_iff_lt_or_eq.mp hLt with hBefore | rfl
        · exact ih h hBefore
        · exact hNewline

theorem mem_slice_iff {c : Char} :
    c ∈ slice content start stop ↔ ∃ i, start ≤ i ∧ i < stop ∧ content[i]? = some c := by
  rw [slice, List.mem_iff_getElem?]
  constructor
  · rintro ⟨i, hi⟩
    rw [List.getElem?_drop, List.getElem?_take] at hi
    split_ifs at hi with hLt
    exact ⟨start + i, Nat.le_add_right _ _, hLt, hi⟩
  · rintro ⟨i, hLe, hLt, hi⟩
    refine ⟨i - start, ?_⟩
    rw [List.getElem?_drop, Nat.add_sub_cancel' hLe, List.getElem?_take, if_pos hLt, hi]

theorem length_slice (h : stop ≤ content.length) :
    (slice content start stop).length = stop - start := by
  rw [slice, List.length_drop, List.length_take, Nat.min_eq_left h]

theorem slice_append_drop (content : Str) (h : start ≤ stop) :
    slice content start stop ++ content.drop stop = content.drop start := by
  have hDrop : content.drop stop = (content.drop start).drop (stop - start) := by
    rw [List.drop_drop, Nat.add_sub_cancel' h]
  rw [slice, List.drop_take, hDrop, List.take_append_drop]

/-- Where a page ends: behind the last newline of its window, else where the window ends. -/
theorem pageEnd_spec (content : Str) {requestedEnd : ℕ} (hStart : cursor < requestedEnd) :
    cursor < pageEnd content cursor requestedEnd ∧
      pageEnd content cursor requestedEnd ≤ requestedEnd ∧
      (pageEnd content cursor requestedEnd < content.length → requestedEnd < content.length ∧
        ('\n' ∈ slice content cursor requestedEnd →
          content[pageEnd content cursor requestedEnd - 1]? = some '\n')) := by
  rw [pageEnd, newlineEnd]
  by_cases hShort : requestedEnd < content.length
  · rw [if_pos hShort]
    cases hFind : rfindNewline content cursor requestedEnd with
    | none =>
        rw [ite_self]
        refine ⟨hStart, Nat.le_refl _, fun _ => ⟨hShort, fun hMem => ?_⟩⟩
        obtain ⟨i, hLe, hLt, hAt⟩ := mem_slice_iff.mp hMem
        exact absurd hAt (rfindNewline_eq_none hFind hLe hLt)
    | some lastNewline =>
        obtain ⟨hLe, hLt, hAt⟩ := rfindNewline_eq_some hFind
        dsimp only
        rw [if_neg (by omega)]
        refine ⟨by omega, hLt, fun _ => ⟨hShort, fun _ => ?_⟩⟩
        rwa [Nat.add_sub_cancel]
  · rw [if_neg hShort, ite_self]
    exact ⟨hStart, Nat.le_refl _, fun hCut => absurd hCut hShort⟩

theorem journalPage_spec (hCursor : cursor < content.length) (hBudget : 1 ≤ budget) :
    ∃ stop, journalPage content cursor budget =
        (slice content cursor stop, if stop < content.length then some stop else none) ∧
      cursor < stop ∧ stop ≤ cursor + budget ∧ stop ≤ content.length ∧
      (stop < content.length → '\n' ∈ slice content cursor (cursor + budget) →
        content[stop - 1]? = some '\n') := by
  have hStart : cursor < min (cursor + budget) content.length := by omega
  obtain ⟨hLt, hLe, hNewline⟩ := pageEnd_spec content hStart
  refine ⟨_, rfl, hLt, hLe.trans (Nat.min_le_left _ _), hLe.trans (Nat.min_le_right _ _), ?_⟩
  intro hCut hMem
  obtain ⟨hShort, hEnd⟩ := hNewline hCut
  apply hEnd
  rwa [Nat.min_eq_left (by omega)]

/-- A request that is within the content is answered with a page that goes on from its cursor. -/
theorem readJournalPage_ok (hBlank : strip content ≠ []) (hCursor : cursor < content.length)
    (hBudget : 1 ≤ budget) :
    ∃ page, readJournalPage content cursor budget = .ok page ∧ PageFits content budget page ∧
      page.returnedStart = cursor ∧ cursor < page.returnedEnd ∧
      page.returnedEnd ≤ content.length ∧
      page.nextCursor =
        if page.returnedEnd < content.length then some page.returnedEnd else none := by
  obtain ⟨stop, hPage, hLt, hBudgetEnd, hInside, hNewline⟩ := journalPage_spec hCursor hBudget
  have hLength : (slice content cursor stop).length = stop - cursor := length_slice hInside
  have hReturned : cursor + (slice content cursor stop).length = stop := by omega
  refine ⟨⟨cursor, stop, if stop < content.length then some stop else none,
    slice content cursor stop⟩, ?_, ⟨?_, ?_, rfl, ?_⟩, rfl, hLt, hInside, rfl⟩
  · rw [readJournalPage, if_neg hBlank, if_neg (not_le.mpr hCursor), hPage]
    dsimp only
    rw [hReturned]
  · intro hNil
    dsimp only at hNil
    rw [hNil, List.length_nil] at hLength
    omega
  · dsimp only
    omega
  · intro hCut hMem
    dsimp only
    rw [List.getLast?_eq_getElem?, hLength, slice, List.getElem?_drop, List.getElem?_take,
      if_pos (by omega)]
    have hAt : cursor + (stop - cursor - 1) = stop - 1 := by omega
    rw [hAt]
    exact hNewline hCut hMem

end Pages

section Runs

variable {content : Str} {budgets : ℕ → ℕ}

/-- The pages of a reader from a cursor on. -/
theorem follows_from (hBlank : strip content ≠ []) (hBudgets : ∀ k, 1 ≤ budgets k) :
    ∀ (request cursor : ℕ), cursor < content.length →
      ∃ pages, Follows content budgets request cursor pages ∧
        pages.length ≤ content.length - cursor ∧
        (∀ k page, pages[k]? = some page → PageFits content (budgets (request + k)) page) ∧
        (∀ page ∈ pages.head?, page.returnedStart = cursor) ∧
        pages.IsChain (fun page next => page.returnedEnd = next.returnedStart) ∧
        pages.flatMap Page.content = content.drop cursor := by
  intro request cursor
  induction hLeft : content.length - cursor using Nat.strong_induction_on
    generalizing request cursor with
  | _ left ih =>
      intro hCursor
      obtain ⟨page, hAnswer, hFits, hStart, hProgress, hInside, hNext⟩ :=
        readJournalPage_ok hBlank hCursor (hBudgets request)
      have hSlice := slice_append_drop content hProgress.le
      have hContent := hFits.content_eq
      rw [hStart] at hContent
      rw [← hContent] at hSlice
      by_cases hCut : page.returnedEnd < content.length
      · rw [if_pos hCut] at hNext
        obtain ⟨pages, hFollows, hLength, hAll, hHead, hChain, hFlat⟩ :=
          ih (content.length - page.returnedEnd) (by omega) (request + 1) page.returnedEnd rfl hCut
        refine ⟨page :: pages, ?_, ?_, ?_, ?_, ?_, ?_⟩
        · rw [Follows, hNext]
          exact ⟨hAnswer, hFollows⟩
        · rw [List.length_cons]
          omega
        · intro k other hAt
          cases k with
          | zero =>
              rw [List.getElem?_cons_zero, Option.some.injEq] at hAt
              rw [← hAt]
              exact hFits
          | succ k =>
              rw [List.getElem?_cons_succ] at hAt
              have hOther := hAll k other hAt
              rwa [Nat.add_assoc, Nat.add_comm 1 k] at hOther
        · intro first hFirst
          rw [List.head?_cons, Option.mem_some_iff] at hFirst
          rw [← hFirst, hStart]
        · exact List.isChain_cons.mpr ⟨fun next hMem => (hHead next hMem).symm, hChain⟩
        · rw [List.flatMap_cons, hFlat, hSlice]
      · rw [if_neg hCut] at hNext
        have hEnd : page.returnedEnd = content.length := by omega
        refine ⟨[page], ?_, ?_, ?_, ?_, List.isChain_singleton page, ?_⟩
        · rw [Follows, hNext]
          exact ⟨hAnswer, rfl⟩
        · rw [List.length_singleton]
          omega
        · intro k other hAt
          cases k with
          | zero =>
              rw [List.getElem?_cons_zero, Option.some.injEq] at hAt
              rw [← hAt]
              exact hFits
          | succ k => simp at hAt
        · intro first hFirst
          rw [List.head?_cons, Option.mem_some_iff] at hFirst
          rw [← hFirst, hStart]
        · rw [hEnd, List.drop_length, List.append_nil] at hSlice
          rw [List.flatMap_singleton, hSlice]

/-- Whatever the budgets of the requests are, a reader that follows the cursor gets the whole
content after finitely many pages, which meet exactly. -/
theorem journal_paging_lossless (content : Str) (hBlank : strip content ≠ []) (budgets : ℕ → ℕ)
    (hBudgets : ∀ k, 1 ≤ budgets k) :
    ∃ pages, Follows content budgets 0 0 pages ∧ pages.length ≤ content.length ∧
      (∀ k page, pages[k]? = some page → PageFits content (budgets k) page) ∧
      (∀ page ∈ pages.head?, page.returnedStart = 0) ∧
      pages.IsChain (fun page next => page.returnedEnd = next.returnedStart) ∧
      pages.flatMap Page.content = content := by
  have hPositive : 0 < content.length := by
    rw [List.length_pos_iff]
    rintro rfl
    exact hBlank rfl
  obtain ⟨pages, hFollows, hLength, hAll, hHead, hChain, hFlat⟩ :=
    follows_from hBlank hBudgets 0 0 hPositive
  refine ⟨pages, hFollows, hLength, fun k page hAt => ?_, hHead, hChain, hFlat⟩
  have hFits := hAll k page hAt
  rwa [Nat.zero_add] at hFits

end Runs

theorem journal_paging_lossless_two_lines :
    ∃ pages, Follows "- a\n- b".toList (fun k => k + 1) 0 0 pages ∧
      pages.length ≤ "- a\n- b".toList.length ∧
      (∀ k page, pages[k]? = some page → PageFits "- a\n- b".toList (k + 1) page) ∧
      (∀ page ∈ pages.head?, page.returnedStart = 0) ∧
      pages.IsChain (fun page next => page.returnedEnd = next.returnedStart) ∧
      pages.flatMap Page.content = "- a\n- b".toList :=
  journal_paging_lossless "- a\n- b".toList (by decide) (fun k => k + 1) fun k => Nat.le_add_left 1 k

end Plumber.JournalRead
