import MatrycaPlumber.Text.Stripping
import MatrycaPlumber.Utils.JsonRepair

/-! Where the patterns of the repair can match in the text of a JSON value: only within a
literal, and the pattern of doubly escaped quotes nowhere. -/
namespace Plumber.JsonRepair

open PyText PyJson

section Literals

/-- In front of the last backslash of a literal stands another one. -/
theorem backslash_of_literal {escape : Bool} {a : Str} {c : Char}
    (h : escapes escape (a ++ [c, '\\']) = some false) : c = '\\' := by
  induction a generalizing escape with
  | nil =>
      cases escape with
      | true => exact absurd h (by simp [escapes])
      | false =>
          by_contra hC
          rw [List.nil_append, escapes] at h
          split_ifs at h
          rw [decide_eq_false hC] at h
          exact absurd h (by simp [escapes])
  | cons d a ih =>
      cases escape with
      | true => exact ih h
      | false =>
          rw [List.cons_append, escapes] at h
          split_ifs at h
          exact ih h

/-- A literal does not end in a backslash behind text without one. -/
theorem not_literal_of_last {a ys : Str} {d : Char} (hD : d ≠ '\\') (hYs : '\\' ∉ ys) :
    ¬ Literal (a ++ d :: (ys ++ ['\\'])) := by
  intro h
  rcases List.eq_nil_or_concat' ys with rfl | ⟨zs, z, rfl⟩
  · exact hD (backslash_of_literal h)
  · have hText : a ++ d :: (zs ++ [z] ++ ['\\']) = (a ++ d :: zs) ++ [z, '\\'] := by simp
    rw [Literal, hText] at h
    obtain rfl := backslash_of_literal h
    exact hYs (by simp)

/-- No two quotes follow a backslash within a literal. -/
theorem not_literal_of_quotes {escape : Bool} {a t : Str} :
    escapes escape (a ++ '\\' :: '"' :: '"' :: t) ≠ some false := by
  induction a generalizing escape with
  | nil => cases escape <;> simp [escapes]
  | cons d a ih =>
      cases escape with
      | true => exact ih
      | false =>
          rw [List.cons_append, escapes]
          split_ifs
          · simp
          · exact ih

end Literals

section Fronts

/-- A run at the front of a text ends at a quote, at the latest. -/
theorem dropWhile_quote {p : Char → Bool} (hp : p '"' = false) (x behind : Str) :
    (x ++ '"' :: behind).dropWhile p = '"' :: behind ∨
      x.dropWhile p ≠ [] ∧ (x ++ '"' :: behind).dropWhile p = x.dropWhile p ++ '"' :: behind ∧
        (x ++ '"' :: behind).takeWhile p = x.takeWhile p := by
  induction x with
  | nil =>
      left
      rw [List.nil_append, List.dropWhile_cons_of_neg (by rw [hp]; exact Bool.false_ne_true)]
  | cons c x ih =>
      rw [List.cons_append]
      cases hC : p c with
      | true =>
          rw [List.dropWhile_cons_of_pos hC, List.dropWhile_cons_of_pos hC,
            List.takeWhile_cons_of_pos hC, List.takeWhile_cons_of_pos hC]
          rcases ih with h | ⟨hNe, hDrop, hTake⟩
          · exact .inl h
          · exact .inr ⟨hNe, hDrop, by rw [hTake]⟩
      | false =>
          right
          rw [List.dropWhile_cons_of_neg (by rw [hC]; exact Bool.false_ne_true),
            List.dropWhile_cons_of_neg (by rw [hC]; exact Bool.false_ne_true),
            List.takeWhile_cons_of_neg (by rw [hC]; exact Bool.false_ne_true),
            List.takeWhile_cons_of_neg (by rw [hC]; exact Bool.false_ne_true)]
          exact ⟨List.cons_ne_nil _ _, rfl, rfl⟩

/-- The text behind a gap. -/
def GapEnd (rest : Str) : Prop := rest = [] ∨ ∃ s, rest = '"' :: s

theorem head_of_gap {gap rest : Str} (hGap : '\\' ∉ gap) (hRest : GapEnd rest) :
    (gap ++ rest).head? ≠ some '\\' := by
  cases gap with
  | nil =>
      rcases hRest with rfl | ⟨s, rfl⟩ <;> simp
  | cons c gap =>
      intro h
      obtain rfl := Option.some.inj h
      exact hGap List.mem_cons_self

/-- Blanks are dropped within a gap. -/
theorem lstrip_gap {gap rest : Str} (hGap : '\\' ∉ gap) (hRest : GapEnd rest) :
    ∃ gap', gap' <:+ gap ∧ lstrip (gap ++ rest) = gap' ++ rest := by
  induction gap with
  | nil =>
      refine ⟨[], List.suffix_refl _, ?_⟩
      rcases hRest with rfl | ⟨s, rfl⟩ <;> rfl
  | cons c gap ih =>
      rw [List.mem_cons, not_or] at hGap
      rw [lstrip, List.cons_append]
      cases hC : isSpace c with
      | true =>
          obtain ⟨gap', hSuffix, hText⟩ := ih hGap.2
          rw [List.dropWhile_cons_of_pos hC]
          exact ⟨gap', hSuffix.trans (List.suffix_cons c gap), hText⟩
      | false =>
          rw [List.dropWhile_cons_of_neg (by rw [hC]; exact Bool.false_ne_true)]
          exact ⟨c :: gap, List.suffix_refl _, rfl⟩

theorem escapedQuote_gap {gap rest : Str} (hGap : '\\' ∉ gap) (hRest : GapEnd rest) :
    escapedQuote? (gap ++ rest) = none := by
  obtain ⟨gap', hSuffix, hText⟩ := lstrip_gap hGap hRest
  have hHead := head_of_gap (fun hMem => hGap (hSuffix.subset hMem)) hRest
  rw [escapedQuote?, hText]
  split
  · next h =>
      rw [h] at hHead
      exact absurd rfl hHead
  · rfl

/-- An escaped quote whose quote is not the one that ends the literal. -/
theorem escapedQuote_literal {a b behind : Str} {d : Char} {len : ℕ}
    (hRaw : Literal (a ++ d :: b)) (hD : d ≠ '\\')
    (h : escapedQuote? (b ++ '"' :: behind) = some len) :
    escapedQuote? b = some len ∧ len ≤ b.length := by
  have hShort : (lstrip b).length ≤ b.length := (List.dropWhile_suffix isSpace).length_le
  unfold escapedQuote? at h
  split at h
  · next rest hFront =>
      rcases dropWhile_quote (p := isSpace) rfl b behind with hDrop | ⟨-, hDrop, -⟩
      · rw [lstrip, hDrop] at hFront
        cases (List.cons.inj hFront).1
      · rw [lstrip, hDrop] at hFront
        cases hB : b.dropWhile isSpace with
        | nil =>
            rw [hB] at hFront
            cases (List.cons.inj hFront).1
        | cons c tail =>
            rw [hB] at hFront
            obtain ⟨rfl, hTail⟩ := List.cons.inj hFront
            cases tail with
            | nil =>
                have hText := List.takeWhile_append_dropWhile (p := isSpace) (l := b)
                rw [hB] at hText
                rw [← hText] at hRaw
                refine absurd hRaw (not_literal_of_last hD fun hMem => ?_)
                exact absurd (List.mem_takeWhile_imp hMem) (by decide)
            | cons q tail =>
                obtain ⟨rfl, hRest⟩ := List.cons.inj hTail
                obtain rfl : tail ++ '"' :: behind = rest := hRest
                obtain rfl := Option.some.inj h
                rw [lstrip, hB] at hShort
                rw [escapedQuote?, lstrip, hB]
                simp only [List.length_append, List.length_cons] at hShort ⊢
                constructor
                · congr 1
                  omega
                · omega
  · cases h

end Fronts

section Runs

theorem pairRun_length (x y : Char) (s : Str) : 2 * pairRun x y s ≤ s.length := by
  fun_induction pairRun x y s with
  | case1 a b s _ ih =>
      simp only [List.length_cons]
      omega
  | case2 => simp
  | case3 => simp

theorem pairRun_head {x y : Char} {s : Str} (h : s.head? ≠ some x) : pairRun x y s = 0 := by
  rw [pairRun.eq_def]
  split
  · next a b t =>
      rw [if_neg]
      rintro ⟨rfl, -⟩
      exact h rfl
  · rfl

/-- The pairs of a text in front of a quote, which may be the second half of one more. -/
theorem pairRun_quote {x y : Char} (hx : x ≠ '"') (s behind : Str) (hBehind : behind.head? ≠ some x) :
    pairRun x y (s ++ '"' :: behind) = pairRun x y s ∨
      y = '"' ∧ (s = [x] ∧ pairRun x y (s ++ '"' :: behind) = 1 ∨ ∃ a, s = a ++ ['"', x]) := by
  fun_induction pairRun x y s with
  | case1 a b s hPair ih =>
      obtain ⟨rfl, rfl⟩ := hPair
      rw [List.cons_append, List.cons_append, pairRun, if_pos ⟨rfl, rfl⟩]
      rcases ih with h | ⟨rfl, ⟨rfl, -⟩ | ⟨t, rfl⟩⟩
      · left
        rw [h]
      · exact .inr ⟨rfl, .inr ⟨[a], rfl⟩⟩
      · exact .inr ⟨rfl, .inr ⟨a :: '"' :: t, rfl⟩⟩
  | case2 a b s hNot =>
      left
      rw [List.cons_append, List.cons_append, pairRun, if_neg hNot]
  | case3 s hShort =>
      cases s with
      | nil => exact .inl (pairRun_head (by simpa using hx.symm))
      | cons a s =>
          cases s with
          | cons b s => exact absurd rfl (hShort a b s)
          | nil =>
              rw [List.singleton_append, pairRun]
              split_ifs with hPair
              · obtain ⟨rfl, rfl⟩ := hPair
                right
                refine ⟨rfl, .inl ⟨rfl, ?_⟩⟩
                rw [pairRun_head hBehind]
              · exact .inl rfl

theorem literalNewlines_length (after : Bool) (s : Str) :
    (literalNewlines after s).2 ≤ s.length := by
  fun_induction literalNewlines after s with
  | case1 after s ih =>
      simp only [List.length_cons]
      omega
  | case2 after c s _ _ ih =>
      simp only [List.length_cons]
      omega
  | case3 => simp
  | case4 => simp

theorem literalNewlines_head {s : Str} (h : s.head? ≠ some '\\') :
    literalNewlines false s = (0, 0) := by
  rw [literalNewlines.eq_def]
  split
  · exact absurd rfl h
  · rw [if_neg]
    simp
  · rfl

theorem literalNewlines_quote (after : Bool) (s behind : Str) :
    literalNewlines after (s ++ '"' :: behind) = literalNewlines after s := by
  fun_induction literalNewlines after s with
  | case1 after s ih =>
      rw [List.cons_append, List.cons_append, literalNewlines, ih]
  | case2 after c s hNot hBlank ih =>
      rw [List.cons_append, literalNewlines.eq_2 _ _ _ ?_, if_pos hBlank, ih]
      rintro t rfl -
      exact absurd hBlank.2 (by decide)
  | case3 after c s hNot hStop =>
      rw [List.cons_append, literalNewlines.eq_2 _ _ _ ?_, if_neg hStop]
      intro t hC hS
      cases s with
      | nil => cases (List.cons.inj hS).1
      | cons d s =>
          obtain ⟨rfl, -⟩ := List.cons.inj hS
          exact hNot s hC rfl
  | case4 after =>
      rw [List.nil_append, literalNewlines.eq_2 _ _ _ ?_, if_neg]
      · rintro ⟨-, hBlank⟩
        exact absurd hBlank (by decide)
      · rintro t hC -
        cases hC

end Runs

section Passes

theorem head_of_between {behind : Str} (h : Between behind) : behind.head? ≠ some '\\' := by
  obtain ⟨gap, rest, rfl, -, hGap, hRest⟩ := h
  apply head_of_gap hGap
  rcases hRest with rfl | ⟨-, s, rfl⟩
  · exact .inl rfl
  · exact .inr ⟨s, rfl⟩

/-- A pattern that begins with a backslash and never looks behind a bare quote. -/
theorem local_of_head {find : Matcher} (hHead : ∀ before s, s.head? ≠ some '\\' → find before s = none)
    (hLiteral : ∀ before before' a b behind m, Literal (a ++ b) → Between behind →
      find before (b ++ '"' :: behind) = some m → find before' b = some m ∧ m.1 ≤ b.length) :
    Local find where
  gap _ _ _ hGap hRest := hHead _ _ (head_of_gap hGap hRest)
  literal _ a b behind m hRaw _ _ hBehind h := hLiteral _ _ a b behind m hRaw hBehind h

theorem literalNewlineRun_local : Local literalNewlineRun := by
  apply local_of_head
  · intro before s hS
    rw [literalNewlineRun, literalNewlines_head hS]
    rfl
  · intro before before' a b behind m hRaw hBehind h
    rw [literalNewlineRun, literalNewlines_quote] at h
    rw [literalNewlineRun]
    split_ifs at h ⊢
    obtain rfl := Option.some.inj h
    exact ⟨rfl, literalNewlines_length false b⟩

/-- A run of at least two escapes. -/
theorem pairRunMatcher_local {y : Char} {least : ℕ} (hLeast : 2 ≤ least) :
    Local (pairRunMatcher '\\' y least) := by
  apply local_of_head
  · intro before s hS
    rw [pairRunMatcher, pairRun_head hS, if_neg (by omega)]
  · intro before before' a b behind m hRaw hBehind h
    have hSame (hRun : pairRun '\\' y (b ++ '"' :: behind) = pairRun '\\' y b) :
        pairRunMatcher '\\' y least before' b = some m ∧ m.1 ≤ b.length := by
      rw [pairRunMatcher, hRun] at h
      rw [pairRunMatcher]
      split_ifs at h ⊢
      obtain rfl := Option.some.inj h
      exact ⟨rfl, pairRun_length _ _ b⟩
    rcases pairRun_quote (x := '\\') (by decide) b behind (head_of_between hBehind) with hRun | ⟨-, ⟨-, hRun⟩ | ⟨t, rfl⟩⟩
    · exact hSame hRun
    · rw [pairRunMatcher, hRun, if_neg (by omega)] at h
      cases h
    · refine absurd hRaw ?_
      have hText : a ++ (t ++ ['"', '\\']) = (a ++ t) ++ '"' :: ([] ++ ['\\']) := by simp
      rw [hText]
      exact not_literal_of_last (by decide) List.not_mem_nil

theorem literalTabRun_local : Local literalTabRun := pairRunMatcher_local (by omega)

theorem literalQuoteRun_local : Local literalQuoteRun := pairRunMatcher_local (by omega)

theorem leakedNewline_local : Local leakedNewline := by
  constructor
  · intro before gap rest hGap hRest
    unfold leakedNewline
    split
    · rfl
    · next c s hText =>
        split_ifs with hC
        · cases gap with
          | nil =>
              rcases hRest with rfl | ⟨t, rfl⟩
              · cases hText
              · obtain ⟨rfl, -⟩ := List.cons.inj hText
                rcases hC with hC | hC <;> cases hC
          | cons d gap =>
              obtain ⟨rfl, rfl⟩ := List.cons.inj hText
              rw [List.mem_cons, not_or] at hGap
              obtain ⟨gap', hSuffix, hFront⟩ := lstrip_gap hGap.2 hRest
              have hHead := head_of_gap (fun hMem => hGap.2 (hSuffix.subset hMem)) hRest
              split
              · next hEq =>
                  have hEq' : gap' ++ rest = _ := hFront.symm.trans hEq
                  rw [hEq'] at hHead
                  exact absurd rfl hHead
              · rfl
        · rfl
  · intro before a b behind m hRaw hB _ hBehind h
    cases b with
    | nil => exact absurd rfl hB
    | cons c b =>
        rw [List.cons_append, leakedNewline] at h
        rw [leakedNewline]
        split_ifs at h ⊢ with hC
        rcases dropWhile_quote (p := isSpace) rfl b behind with hDrop | ⟨hNe, hDrop, hTake⟩
        · rw [lstrip, hDrop] at h
          cases h
        · have hParts := List.takeWhile_append_dropWhile (p := isSpace) (l := b)
          have hLength := congrArg List.length hParts
          rw [List.length_append] at hLength
          rw [lstrip, hDrop, hTake] at h
          rw [lstrip]
          split at h
          · next rest hFront =>
              cases hTail : b.dropWhile isSpace with
              | nil => exact absurd hTail hNe
              | cons d tail =>
                  rw [hTail] at hFront hParts hLength
                  obtain ⟨rfl, hRest⟩ := List.cons.inj hFront
                  cases tail with
                  | nil => cases (List.cons.inj hRest).1
                  | cons n tail =>
                      obtain ⟨rfl, rfl⟩ := List.cons.inj hRest
                      obtain ⟨len, hLen, rfl⟩ := Option.map_eq_some_iff.mp h
                      have hText : a ++ c :: b =
                          (a ++ c :: (b.takeWhile isSpace ++ ['\\'])) ++ 'n' :: tail := by
                        conv_lhs => rw [← hParts]
                        simp
                      rw [hText] at hRaw
                      obtain ⟨hAlone, hShort⟩ := escapedQuote_literal hRaw (by decide) hLen
                      constructor
                      · show Option.map _ (escapedQuote? tail) = _
                        rw [hAlone]
                        rfl
                      · simp only [List.length_cons] at hLength ⊢
                        omega
          · cases h

/-- What is ahead of a leaked key lies within the literal. -/
theorem leakedKeyAhead_literal {a b behind : Str} (hRaw : Literal (a ++ b))
    (h : leakedKeyAhead (b ++ '"' :: behind) = true) : leakedKeyAhead b = true := by
  cases b with
  | nil => cases h
  | cons c b =>
      rw [List.cons_append, leakedKeyAhead, Bool.and_eq_true] at h
      rw [leakedKeyAhead, Bool.and_eq_true]
      refine ⟨h.1, ?_⟩
      have hAhead := h.2
      have hParts := List.takeWhile_append_dropWhile (p := isKeyChar) (l := b)
      rcases dropWhile_quote (p := isKeyChar) rfl b behind with hDrop | ⟨hNe, hDrop, -⟩
      · rw [hDrop] at hAhead
        cases hAhead
      · rw [hDrop] at hAhead
        split at hAhead
        · next rest hFront =>
            cases hTail : b.dropWhile isKeyChar with
            | nil => exact absurd hTail hNe
            | cons d tail =>
                rw [hTail] at hFront hParts
                obtain ⟨rfl, hRest⟩ := List.cons.inj hFront
                cases tail with
                | nil =>
                    rw [← hParts] at hRaw
                    refine absurd hRaw (not_literal_of_last ?_ fun hMem => ?_)
                    · rintro rfl
                      exact absurd h.1 (by decide)
                    · exact absurd (List.mem_takeWhile_imp hMem) (by decide)
                | cons q tail =>
                    obtain ⟨rfl, rfl⟩ := List.cons.inj hRest
                    show decide ((lstrip tail).head? = some ':') = true
                    rcases dropWhile_quote (p := isSpace) rfl tail behind with
                      hEnd | ⟨hNonblank, hEnd, -⟩
                    · rw [lstrip] at hAhead
                      rw [show List.append tail ('"' :: behind) = tail ++ '"' :: behind from rfl,
                        hEnd] at hAhead
                      cases hAhead
                    · rw [lstrip] at hAhead ⊢
                      rw [show List.append tail ('"' :: behind) = tail ++ '"' :: behind from rfl,
                        hEnd] at hAhead
                      cases hColon : tail.dropWhile isSpace with
                      | nil => exact absurd hColon hNonblank
                      | cons x xs =>
                          rw [hColon] at hAhead
                          exact hAhead
        · cases hAhead

theorem leakedKey_local : Local leakedKey := by
  constructor
  · intro before gap rest hGap hRest
    unfold leakedKey
    split
    · next behind hText =>
        cases gap with
        | nil => rcases hRest with rfl | ⟨t, rfl⟩ <;> cases hText
        | cons d gap =>
            obtain ⟨rfl, rfl⟩ := List.cons.inj hText
            rw [List.mem_cons, not_or] at hGap
            have hNone := escapedQuote_gap hGap.2 hRest
            split
            · next hSome =>
                have hSome' : escapedQuote? (gap ++ rest) = _ := hSome
                rw [hNone] at hSome'
                cases hSome'
            · rfl
    · rfl
  · intro before a b behind m hRaw hB hBefore _ h
    unfold leakedKey at h
    split at h
    · next front rest hFront hText =>
        cases b with
        | nil => exact absurd rfl hB
        | cons c b =>
            obtain ⟨rfl, rfl⟩ := List.cons.inj hText
            have hBehindComma : ∃ front, a.reverse = '"' :: '\\' :: front := by
              cases hA : a.reverse with
              | nil =>
                  rw [hA] at hFront
                  obtain ⟨-, rfl⟩ := List.cons.inj hFront
                  exact absurd rfl hBefore
              | cons x xs =>
                  rw [hA] at hFront
                  obtain ⟨rfl, hTail⟩ := List.cons.inj hFront
                  cases xs with
                  | nil => cases (List.cons.inj hTail).1
                  | cons y ys =>
                      obtain ⟨rfl, -⟩ := List.cons.inj hTail
                      exact ⟨ys, rfl⟩
            obtain ⟨ys, hA⟩ := hBehindComma
            split at h
            · next len hLen =>
                obtain ⟨hAlone, hShort⟩ := escapedQuote_literal hRaw (by decide) hLen
                have hDrop : (b ++ '"' :: behind).drop len = b.drop len ++ '"' :: behind :=
                  List.drop_append_of_le_length hShort
                have hText' : a ++ ',' :: b = (a ++ ',' :: b.take len) ++ b.drop len := by
                  rw [List.append_assoc, List.cons_append, List.take_append_drop]
                split_ifs at h with hAhead
                obtain rfl := Option.some.inj h
                rw [show List.append b ('"' :: behind) = b ++ '"' :: behind from rfl, hDrop] at hAhead
                rw [hText'] at hRaw
                rw [hA, leakedKey, hAlone]
                refine ⟨if_pos (leakedKeyAhead_literal hRaw hAhead), ?_⟩
                rw [List.length_cons]
                omega
            · cases h
    · cases h

/-- The pattern of doubly escaped quotes has no match in the text of a value. -/
theorem doubleEscapedQuote_local : Local doubleEscapedQuote := by
  apply local_of_head
  · intro before s hS
    unfold doubleEscapedQuote
    split
    · exact absurd rfl hS
    · rfl
  · intro before before' a b behind m hRaw hBehind h
    exfalso
    obtain ⟨gap, rest, rfl, hQuote, hGap, hRest⟩ := hBehind
    have hEnd : GapEnd rest := hRest.imp id And.right
    -- a bare quote right behind the literal would begin another one
    have hApart {s : Str} (hText : gap ++ rest = '"' :: s) : False := by
      cases gap with
      | nil =>
          rcases hRest with rfl | ⟨hNe, -⟩
          · cases hText
          · exact hNe rfl
      | cons x xs =>
          obtain ⟨rfl, -⟩ := List.cons.inj hText
          exact hQuote List.mem_cons_self
    unfold doubleEscapedQuote at h
    split at h
    · next rest' hText =>
        cases b with
        | nil => cases (List.cons.inj hText).1
        | cons c b =>
            obtain ⟨rfl, hTail⟩ := List.cons.inj hText
            cases b with
            | nil => exact hApart (List.cons.inj hTail).2
            | cons d b =>
                obtain ⟨rfl, hLast⟩ := List.cons.inj hTail
                cases b with
                | cons e b =>
                    obtain ⟨rfl, -⟩ := List.cons.inj hLast
                    exact not_literal_of_quotes hRaw
                | nil =>
                    obtain ⟨-, rfl⟩ := List.cons.inj hLast
                    obtain ⟨gap', hSuffix, hFront⟩ := lstrip_gap hGap hEnd
                    have hGap' : '\\' ∉ gap' := fun hMem => hGap (hSuffix.subset hMem)
                    rw [hFront] at h
                    split at h
                    · next tail hComma =>
                        cases gap' with
                        | nil =>
                            rcases hEnd with rfl | ⟨s, rfl⟩ <;> cases hComma
                        | cons x xs =>
                            obtain ⟨-, rfl⟩ := List.cons.inj hComma
                            rw [List.mem_cons, not_or] at hGap'
                            have hNone := escapedQuote_gap hGap'.2 hEnd
                            obtain ⟨len, hLen, -⟩ := Option.map_eq_some_iff.mp h
                            have hLen' : escapedQuote? (xs ++ rest) = some len := hLen
                            rw [hNone] at hLen'
                            cases hLen'
                    · cases h
    · cases h

theorem doubleEscapedQuote_untouched {raw : Str} (h : Literal raw) :
    untouched doubleEscapedQuote [] raw [] = true := by
  apply untouched_of_none
  rintro before s ⟨a, rfl⟩
  rw [List.append_nil]
  unfold doubleEscapedQuote
  split
  · exact absurd h not_literal_of_quotes
  · rfl

end Passes

end Plumber.JsonRepair
