import MatrycaPlumber.Text.JsonDocument

/-! `re.sub` with a matcher for its pattern, and when it leaves the text of a JSON value as
it is. -/
namespace PyText

/-- From the text before a place, read backwards, and the text at the place: the length of the
match there, and what replaces it. -/
abbrev Matcher := Str → Str → Option (ℕ × Str)

/-- `re.sub`, with the number of characters that still belong to the last match. -/
def subFrom (find : Matcher) : Str → ℕ → Str → Str
  | _, _, [] => []
  | before, skip + 1, c :: s => subFrom find (c :: before) skip s
  | before, 0, c :: s =>
      match find before (c :: s) with
      | none => c :: subFrom find (c :: before) 0 s
      | some (0, repl) => repl ++ c :: subFrom find (c :: before) 0 s
      | some (len + 1, repl) => repl ++ subFrom find (c :: before) len s

def sub (find : Matcher) (s : Str) : Str := subFrom find [] 0 s

/-- Every match that starts in a part of a text is replaced by itself. -/
def untouched (find : Matcher) : Str → Str → Str → Bool
  | _, [], _ => true
  | before, c :: s, rest =>
      (match find before (c :: s ++ rest) with
        | none => true
        | some (len, repl) => repl = (c :: s ++ rest).take len) &&
      untouched find (c :: before) s rest

variable {find : Matcher}

theorem subFrom_cons (before : Str) (c : Char) (s : Str) :
    subFrom find before 0 (c :: s) =
      match find before (c :: s) with
      | none => c :: subFrom find (c :: before) 0 s
      | some (0, repl) => repl ++ c :: subFrom find (c :: before) 0 s
      | some (len + 1, repl) => repl ++ subFrom find (c :: before) len s :=
  rfl

theorem untouched_cons {before s rest : Str} {c : Char} :
    untouched find before (c :: s) rest = true ↔
      (∀ m, find before (c :: s ++ rest) = some m → m.2 = (c :: s ++ rest).take m.1) ∧
        untouched find (c :: before) s rest = true := by
  rw [untouched, Bool.and_eq_true]
  cases find before (c :: s ++ rest) with
  | none => simp
  | some m => simp

theorem subFrom_eq_drop {before s : Str} (h : untouched find before s [] = true) (skip : ℕ) :
    subFrom find before skip s = s.drop skip := by
  induction s generalizing before skip with
  | nil =>
      rw [List.drop_nil]
      cases skip <;> rfl
  | cons c s ih =>
      rw [untouched_cons, List.append_nil] at h
      cases skip with
      | succ skip => exact ih h.2 skip
      | zero =>
          rw [subFrom_cons]
          split
          · rw [ih h.2]
            rfl
          · next repl hFind =>
              obtain rfl : repl = [] := h.1 _ hFind
              rw [ih h.2]
              rfl
          · next len repl hFind =>
              obtain rfl : repl = c :: s.take len := h.1 _ hFind
              rw [ih h.2, List.cons_append, List.take_append_drop]
              rfl

/-- A text whose matches are all replaced by themselves comes out as it was. -/
theorem sub_eq_self {s : Str} (h : untouched find [] s [] = true) : sub find s = s :=
  subFrom_eq_drop h 0

theorem untouched_append (before a b rest : Str) :
    untouched find before (a ++ b) rest =
      (untouched find before a (b ++ rest) && untouched find (a.reverse ++ before) b rest) := by
  induction a generalizing before with
  | nil => rfl
  | cons c a ih =>
      rw [List.cons_append, untouched, untouched, ih, List.reverse_cons, Bool.and_assoc]
      simp only [List.cons_append, List.append_assoc, List.nil_append]

theorem untouched_of_none {before s rest : Str}
    (h : ∀ before s', s' <:+ s → find before (s' ++ rest) = none) :
    untouched find before s rest = true := by
  induction s generalizing before with
  | nil => rfl
  | cons c s ih =>
      rw [untouched_cons, h before (c :: s) (List.suffix_refl _)]
      constructor
      · intro m hM
        cases hM
      · apply ih
        intro before s' hS
        exact h before s' (hS.trans (List.suffix_cons c s))

section Forward

variable {look : Str → Option (ℕ × Str)}

/-- A matcher that does not look back goes on behind a match as on a text of its own. -/
theorem subFrom_forward (before other s : Str) (skip : ℕ) :
    subFrom (fun _ => look) before skip s = subFrom (fun _ => look) other 0 (s.drop skip) := by
  induction s generalizing before other skip with
  | nil =>
      rw [List.drop_nil]
      cases skip <;> rfl
  | cons c s ih =>
      cases skip with
      | succ skip => exact ih _ other skip
      | zero =>
          rw [List.drop_zero, subFrom_cons, subFrom_cons]
          split
          · rw [ih _ (c :: other), List.drop_zero]
          · rw [ih _ (c :: other), List.drop_zero]
          · next len repl _ => rw [ih _ (c :: other), ih (c :: other) (c :: other)]

theorem sub_forward_none {c : Char} {s : Str} (h : look (c :: s) = none) :
    sub (fun _ => look) (c :: s) = c :: sub (fun _ => look) s := by
  rw [sub, subFrom_cons, h]
  exact congrArg (c :: ·) (subFrom_forward _ [] s 0)

theorem sub_forward_some {c : Char} {m s repl : Str}
    (h : look (c :: m ++ s) = some (m.length + 1, repl)) :
    sub (fun _ => look) (c :: m ++ s) = repl ++ sub (fun _ => look) s := by
  rw [List.cons_append] at h ⊢
  rw [sub, subFrom_cons, h]
  have hBehind : subFrom (fun _ => look) [c] m.length (m ++ s) =
      subFrom (fun _ => look) [] 0 ((m ++ s).drop m.length) := subFrom_forward _ _ _ _
  rw [List.drop_left] at hBehind
  exact congrArg (repl ++ ·) hBehind

end Forward

end PyText

namespace PyJson

open PyText

section Clean

/-- A cut text without a backslash outside its literals, and without a literal right behind
another one: `behind` says that a literal stands in front. -/
inductive Clean : Bool → List Str → Prop where
  | last {behind : Bool} {gap : Str} (hQuote : '"' ∉ gap) (hBackslash : '\\' ∉ gap) :
      Clean behind [gap]
  | cons {behind : Bool} {gap raw : Str} {rest : List Str} (hQuote : '"' ∉ gap)
      (hBackslash : '\\' ∉ gap) (hApart : behind = true → gap ≠ []) (hRaw : Literal raw)
      (hRest : Clean true rest) : Clean behind (gap :: raw :: rest)

theorem Clean.wellCut {behind : Bool} {ps : List Str} (h : Clean behind ps) : WellCut ps := by
  induction h with
  | last hQuote hBackslash => exact .last hQuote
  | cons hQuote hBackslash hApart hRaw hRest ih => exact .cons hQuote hRaw ih

/-- Sound tokens come from a clean text. -/
theorem clean_of_sound {ps : List Str} (h : WellCut ps) (behind : Bool)
    (hWords : ∀ w, .word w ∈ lexPieces ps → '\\' ∉ w)
    (hSpaced : (lexPieces ps).IsChain Apart)
    (hBehind : behind = true → ∀ t, (lexPieces ps).head? = some t → t.isStr = false) :
    Clean behind ps := by
  have hBackslash {gap : Str} (hGap : ∀ w, .word w ∈ lexGap [] gap → '\\' ∉ w) : '\\' ∉ gap := by
    intro hMem
    obtain ⟨w, hW, hIn⟩ := mem_word_of_mem_gap (c := '\\') (by decide) rfl (.inr hMem)
    exact hGap w hW hIn
  induction h generalizing behind with
  | last hGap => exact .last hGap (hBackslash hWords)
  | @cons gap raw rest hGap hRaw hRest ih =>
      rw [lexPieces_cons hRest.ne_nil] at hWords hSpaced hBehind
      have hChain := (List.isChain_append.mp hSpaced).2.1
      rw [List.isChain_cons] at hChain
      refine .cons hGap (hBackslash fun w hW => hWords w (List.mem_append_left _ hW)) ?_ hRaw
        (ih true ?_ hChain.2 ?_)
      · rintro hTrue rfl
        exact absurd (hBehind hTrue (.str raw) rfl) (by simp [Token.isStr])
      · intro w hW
        exact hWords w (List.mem_append_right _ (List.mem_cons_of_mem _ hW))
      · intro _ t hHead
        have hApart := hChain.1 t hHead
        rw [Bool.eq_false_iff]
        exact fun hStr => hApart ⟨rfl, hStr⟩

theorem Reads.clean {ps : List Str} {v : Json} (h : Reads ps v) : Clean false ps := by
  have hSound := h.sound.1
  apply clean_of_sound h.cut false ?_ hSound.spaced (by simp)
  intro w hW
  exact backslash_notMem_word (hSound.words w hW)

end Clean

section Locality

/-- What stands behind a literal: text without quotes and backslashes, up to the end or to
another literal, which is not right behind. -/
def Between (behind : Str) : Prop :=
  ∃ gap rest, behind = gap ++ rest ∧ '"' ∉ gap ∧ '\\' ∉ gap ∧
    (rest = [] ∨ gap ≠ [] ∧ ∃ s, rest = '"' :: s)

/-- A matcher whose matches in the text of a value all stand within a literal. -/
structure Local (find : Matcher) : Prop where
  gap : ∀ before gap rest, '\\' ∉ gap → (rest = [] ∨ ∃ s, rest = '"' :: s) →
    find before (gap ++ rest) = none
  literal : ∀ before a b behind m, Literal (a ++ b) → b ≠ [] → before.head? ≠ some '\\' →
    Between behind → find (a.reverse ++ '"' :: before) (b ++ '"' :: behind) = some m →
    find a.reverse b = some m ∧ m.1 ≤ b.length

variable {find : Matcher}

theorem Local.untouched_gap (h : Local find) {gap rest : Str} (hGap : '\\' ∉ gap)
    (hRest : rest = [] ∨ ∃ s, rest = '"' :: s) (before : Str) :
    untouched find before gap rest = true := by
  apply untouched_of_none
  intro before s hS
  exact h.gap before s rest (fun hMem => hGap (hS.subset hMem)) hRest

theorem Local.untouched_literal (h : Local find) {before a b behind : Str}
    (hRaw : Literal (a ++ b)) (hBefore : before.head? ≠ some '\\') (hBehind : Between behind)
    (hAlone : untouched find a.reverse b [] = true) :
    untouched find (a.reverse ++ '"' :: before) b ('"' :: behind) = true := by
  induction b generalizing a with
  | nil => rfl
  | cons c b ih =>
      rw [untouched_cons, List.append_nil] at hAlone
      rw [untouched_cons]
      constructor
      · intro m hM
        obtain ⟨hFind, hLength⟩ := h.literal _ _ _ _ m hRaw (List.cons_ne_nil c b) hBefore hBehind hM
        rw [hAlone.1 m hFind, List.take_append_of_le_length hLength]
      · have hNext := ih (a := a ++ [c]) (by simpa using hRaw)
          (by simpa using hAlone.2)
        simpa using hNext

theorem Clean.between {ps : List Str} (h : Clean true ps) : Between (quoted ps) := by
  cases h with
  | @last _ gap hQuote hBackslash =>
      exact ⟨gap, [], (List.append_nil gap).symm, hQuote, hBackslash, .inl rfl⟩
  | @cons _ gap raw rest hQuote hBackslash hApart hRaw hRest =>
      refine ⟨gap, _, quoted_cons_cons hRest.wellCut.ne_nil gap raw, hQuote, hBackslash, .inr ?_⟩
      exact ⟨hApart rfl, _, rfl⟩

/-- A local matcher touches the text of a value only where it touches a literal. -/
theorem Local.untouched_quoted (h : Local find) {front : Bool} {ps : List Str} (hPs : Clean front ps)
    (hAlone : ∀ raw ∈ literals ps, untouched find [] raw [] = true) {before : Str}
    (hBefore : before.head? ≠ some '\\') : untouched find before (quoted ps) [] = true := by
  have hQuoteMark (before rest : Str) : untouched find before ['"'] rest = true := by
    rw [untouched_cons]
    refine ⟨fun m hM => ?_, rfl⟩
    have hNone := h.gap before [] ('"' :: rest) List.not_mem_nil (.inr ⟨rest, rfl⟩)
    rw [List.nil_append] at hNone
    rw [List.cons_append, List.nil_append, hNone] at hM
    cases hM
  induction hPs generalizing before with
  | last hQuote hBackslash => exact h.untouched_gap hBackslash (.inl rfl) before
  | @cons front gap raw rest hQuote hBackslash hApart hRaw hRest ih =>
      rw [literals, List.forall_mem_cons] at hAlone
      have hHead : (gap.reverse ++ before).head? ≠ some '\\' := by
        cases hGap : gap.reverse with
        | nil => exact hBefore
        | cons c s =>
            intro hEq
            obtain rfl := Option.some.inj hEq
            apply hBackslash
            rw [← List.mem_reverse, hGap]
            exact List.mem_cons_self
      have hText : quoted (gap :: raw :: rest) =
          gap ++ (['"'] ++ (raw ++ (['"'] ++ quoted rest))) := by
        rw [quoted_cons_cons hRest.wellCut.ne_nil]
        rfl
      rw [hText, untouched_append, untouched_append, untouched_append, untouched_append,
        Bool.and_eq_true, Bool.and_eq_true, Bool.and_eq_true, Bool.and_eq_true]
      refine ⟨h.untouched_gap hBackslash (.inr ⟨_, rfl⟩) before, hQuoteMark _ _, ?_,
        hQuoteMark _ _, ?_⟩
      · have hLiteral := h.untouched_literal (a := []) hRaw hHead hRest.between hAlone.1
        simpa using hLiteral
      · exact ih hAlone.2 (by simp)

end Locality

end PyJson
