import MatrycaPlumber.Text.Basic

/-! Searches of a text for the first line at which something is found. -/
namespace PyText

variable {α : Type*}

/-- `re.search` under `re.MULTILINE` of a pattern that begins with `^`, when `f` says
what the pattern finds from a position. -/
def searchLines (f : Str → Option α) : Bool → Str → Option α
  | atStart, [] => if atStart then f [] else none
  | atStart, c :: rest =>
      (if atStart then f (c :: rest) else none).or (searchLines f (c = '\n') rest)

/-- The text up to the end of its first line, where only `\n` ends a line. -/
def firstLine (s : Str) : Str := s.takeWhile (· ≠ '\n')

/-- What `\s*(.+?)\s*$` captures. If nothing but whitespace is left, the last character
that is no newline is given back to the group. -/
def capturedText (s : Str) : Option Str :=
  if lstrip s = [] then (s.reverse.find? (· ≠ '\n')).map fun c => [c]
  else some (rstrip (firstLine (lstrip s)))

/-- What `\s*(\S+)\s*$` captures. -/
def capturedWord (s : Str) : Option Str :=
  let word := (lstrip s).takeWhile fun c => !isSpace c
  if word ≠ [] ∧ isBlank (firstLine ((lstrip s).drop word.length)) then some word else none

variable {f : Str → Option α}

theorem searchLines_cons (atStart : Bool) (c : Char) (rest : Str) :
    searchLines f atStart (c :: rest) =
      (if atStart then f (c :: rest) else none).or (searchLines f (c = '\n') rest) := rfl

theorem searchLines_false_line {l : Str} (hLine : '\n' ∉ l) (rest : Str) :
    searchLines f false (l ++ '\n' :: rest) = searchLines f true rest := by
  induction l with
  | nil => rfl
  | cons c l ih =>
      rw [List.mem_cons, not_or] at hLine
      rw [List.cons_append, searchLines_cons, decide_eq_false (Ne.symm hLine.1), ih hLine.2]
      rfl

theorem searchLines_false_last {l : Str} (hLine : '\n' ∉ l) : searchLines f false l = none := by
  induction l with
  | nil => rfl
  | cons c l ih =>
      rw [List.mem_cons, not_or] at hLine
      rw [searchLines_cons, decide_eq_false (Ne.symm hLine.1), ih hLine.2]
      rfl

theorem searchLines_of_some {s : Str} {a : α} (h : f s = some a) :
    searchLines f true s = some a := by
  cases s with
  | nil => exact h
  | cons c s => rw [searchLines_cons, if_pos rfl, h, Option.some_or]

/-- A search goes from line to line. -/
theorem searchLines_line {l : Str} (hLine : '\n' ∉ l) (rest : Str) :
    searchLines f true (l ++ '\n' :: rest) =
      (f (l ++ '\n' :: rest)).or (searchLines f true rest) := by
  cases l with
  | nil => rfl
  | cons c l =>
      rw [List.mem_cons, not_or] at hLine
      rw [List.cons_append, searchLines_cons, decide_eq_false (Ne.symm hLine.1),
        searchLines_false_line hLine.2]
      rfl

theorem searchLines_last {l : Str} (hLine : '\n' ∉ l) : searchLines f true l = f l := by
  cases l with
  | nil => rfl
  | cons c l =>
      rw [List.mem_cons, not_or] at hLine
      rw [searchLines_cons, decide_eq_false (Ne.symm hLine.1), searchLines_false_last hLine.2]
      exact Option.or_none

/-- What is found is found at some position. -/
theorem exists_of_searchLines {atStart : Bool} {s : Str} {a : α}
    (h : searchLines f atStart s = some a) : ∃ t, f t = some a := by
  induction s generalizing atStart with
  | nil =>
      cases atStart with
      | true => exact ⟨[], h⟩
      | false => cases h
  | cons c s ih =>
      rw [searchLines_cons] at h
      cases atStart with
      | false => exact ih (by simpa using h)
      | true =>
          cases hHere : f (c :: s) with
          | some b =>
              refine ⟨c :: s, ?_⟩
              rw [if_pos rfl, hHere] at h
              rw [hHere]
              exact h
          | none =>
              rw [if_pos rfl, hHere] at h
              exact ih h

/-- What is found above a line at which nothing is found does not depend on what follows
this line, when no position above looks past it. -/
theorem searchLines_append (fence : Str) (hFence : '\n' ∉ fence) {more : Str}
    (hAbove : ∀ s, f (s ++ '\n' :: (fence ++ '\n' :: more)) = f (s ++ '\n' :: fence))
    (hNone : f fence = none) (hNoneMore : f (fence ++ '\n' :: more) = none) (text : Str) :
    searchLines f true (text ++ '\n' :: (fence ++ '\n' :: more)) =
      (searchLines f true (text ++ '\n' :: fence)).or (searchLines f true more) := by
  have hEnd : searchLines f true (fence ++ '\n' :: more) =
      (searchLines f true fence).or (searchLines f true more) := by
    rw [searchLines_line hFence, searchLines_last hFence, hNone, hNoneMore]
  have hGeneral : ∀ atStart, searchLines f atStart (text ++ '\n' :: (fence ++ '\n' :: more)) =
      (searchLines f atStart (text ++ '\n' :: fence)).or (searchLines f true more) := by
    induction text with
    | nil =>
        intro atStart
        have hHere := hAbove []
        rw [List.nil_append, List.nil_append] at hHere ⊢
        rw [searchLines_cons, searchLines_cons, hHere, decide_eq_true rfl, hEnd, Option.or_assoc]
    | cons c text ih =>
        intro atStart
        have hHere := hAbove (c :: text)
        rw [List.cons_append, List.cons_append] at hHere ⊢
        rw [searchLines_cons, searchLines_cons, hHere, ih, Option.or_assoc]
  exact hGeneral true

/-- Where nothing above looks past a line break, both sides are searched on their own. -/
theorem searchLines_split (rest : Str)
    (hAbove : ∀ s, f (s ++ '\n' :: rest) = f s) (text : Str) :
    searchLines f true (text ++ '\n' :: rest) =
      (searchLines f true text).or (searchLines f true rest) := by
  have hGeneral : ∀ atStart, searchLines f atStart (text ++ '\n' :: rest) =
      (searchLines f atStart text).or (searchLines f true rest) := by
    induction text with
    | nil =>
        intro atStart
        have hHere := hAbove []
        rw [List.nil_append] at hHere ⊢
        rw [searchLines_cons, hHere]
        rfl
    | cons c text ih =>
        intro atStart
        have hHere := hAbove (c :: text)
        rw [List.cons_append] at hHere ⊢
        rw [searchLines_cons, searchLines_cons, hHere, ih, Option.or_assoc]
  exact hGeneral true

theorem newline_notMem_firstLine (s : Str) : '\n' ∉ firstLine s := by
  intro hMem
  simpa using List.mem_takeWhile_imp hMem

theorem firstLine_append_of_notMem {l : Str} (hLine : '\n' ∉ l) (rest : Str) :
    firstLine (l ++ rest) = l ++ firstLine rest := by
  apply List.takeWhile_append_of_pos
  intro c hc
  rw [decide_eq_true_eq]
  rintro rfl
  exact hLine hc

theorem firstLine_of_notMem {l : Str} (hLine : '\n' ∉ l) : firstLine l = l := by
  have hAppend := firstLine_append_of_notMem hLine []
  rw [List.append_nil] at hAppend
  exact hAppend.trans (List.append_nil l)

theorem firstLine_append_of_mem {l : Str} (hBreak : '\n' ∈ l) (rest : Str) :
    firstLine (l ++ rest) = firstLine l := by
  induction l with
  | nil => cases hBreak
  | cons c l ih =>
      by_cases hc : c = '\n'
      · rw [hc]
        rfl
      · have hBreak := (List.mem_cons.mp hBreak).resolve_left (Ne.symm hc)
        rw [firstLine, firstLine, List.cons_append, List.takeWhile_cons_of_pos (by simpa using hc),
          List.takeWhile_cons_of_pos (by simpa using hc)]
        exact congrArg _ (ih hBreak)

theorem takeWhile_append_cons {p : Char → Bool} {c : Char} (hc : p c = false) (l rest : Str) :
    (l ++ c :: rest).takeWhile p = l.takeWhile p := by
  induction l with
  | nil => rw [List.nil_append, List.takeWhile_cons_of_neg (by simp [hc]), List.takeWhile_nil]
  | cons d l ih => rw [List.cons_append, List.takeWhile_cons, List.takeWhile_cons, ih]

/-- The first line does not depend on what follows it. -/
theorem firstLine_append_cons (l rest : Str) : firstLine (l ++ '\n' :: rest) = firstLine l :=
  takeWhile_append_cons (by decide) l rest

theorem capturedText_of_lstrip {s : Str} (h : lstrip s ≠ []) :
    capturedText s = some (rstrip (firstLine (lstrip s))) := by
  rw [capturedText, if_neg h]

theorem newline_notMem_of_capturedText {s text : Str} (h : capturedText s = some text) :
    '\n' ∉ text := by
  rw [capturedText] at h
  split_ifs at h
  · obtain ⟨c, hFind, rfl⟩ := Option.map_eq_some_iff.mp h
    have hc := List.find?_some hFind
    rw [List.mem_singleton]
    rintro rfl
    simp at hc
  · obtain rfl := Option.some.inj h
    intro hMem
    exact newline_notMem_firstLine _ ((List.rdropWhile_prefix _ _).subset hMem)

end PyText
