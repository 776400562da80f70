import MatrycaPlumber.Graph.BlockInsertion

/-! The outline that the bullets of a page make by their indentation. -/
namespace Plumber.MarkdownBlocks

open PyText

/-- The nearest bullet above line `j` that is indented by less than `width` characters. -/
def bulletAbove (lines : List Str) (width : ℕ) : ℕ → Option ℕ
  | 0 => none
  | j + 1 =>
      match bulletIndent? (stripLineEndings (lines.getD j [])) with
      | some ws => if ws.length < width then some j else bulletAbove lines width j
      | none => bulletAbove lines width j

/-- Line `j` is a bullet below the bullet line `b` in the outline. -/
def IsChildOf (lines : List Str) (b j : ℕ) : Prop :=
  ∃ ws, bulletIndent? (stripLineEndings (lines.getD j [])) = some ws ∧
    bulletAbove lines ws.length j = some b

/-- The bullets between two lines are indented by at least `width` characters. -/
def IndentedBy (lines : List Str) (width b e : ℕ) : Prop :=
  ∀ j, b < j → j < e → ∀ ws ∈ bulletIndent? (stripLineEndings (lines.getD j [])), width ≤ ws.length

section Bullets

variable {lines : List Str} {line ws : Str} {width b j : ℕ}

/-- A bullet line is its indentation, the marker and a space in front of anything. -/
theorem bulletIndent?_eq_some : bulletIndent? line = some ws ↔
    ∃ m c rest, line = ws ++ m :: c :: rest ∧ isBlank ws = true ∧ isListMarker m = true ∧
      isSpace c = true := by
  rw [bulletIndent?]
  constructor
  · intro h
    split at h
    · next m c rest hLine =>
        split_ifs at h with hMarker
        rw [Bool.and_eq_true] at hMarker
        obtain rfl := Option.some.inj h
        refine ⟨m, c, rest, ?_, ?_, hMarker⟩
        · rw [← hLine, List.takeWhile_append_dropWhile]
        · rw [isBlank, List.all_eq_true]
          exact fun d hd => List.mem_takeWhile_imp hd
    · cases h
  · rintro ⟨m, c, rest, rfl, hBlank, hMarker, hSpace⟩
    have hNot : isSpace m = false := by
      simp only [isListMarker, Bool.or_eq_true, decide_eq_true_eq] at hMarker
      rcases hMarker with (rfl | rfl) | rfl
      · rfl
      · rfl
      · rfl
    rw [isBlank, List.all_eq_true] at hBlank
    rw [List.dropWhile_append_of_pos hBlank, List.takeWhile_append_of_pos hBlank,
      List.dropWhile_cons_of_neg (by simp [hNot]), List.takeWhile_cons_of_neg (by simp [hNot])]
    dsimp only
    rw [hMarker, hSpace, List.append_nil]
    rfl

theorem bulletAbove_succ_of_less (h : bulletIndent? (stripLineEndings (lines.getD j [])) = some ws)
    (hLess : ws.length < width) : bulletAbove lines width (j + 1) = some j := by
  rw [bulletAbove, h]
  exact if_pos hLess

theorem bulletAbove_succ_of_not (h : ¬∃ ws ∈ bulletIndent? (stripLineEndings (lines.getD j [])),
    ws.length < width) : bulletAbove lines width (j + 1) = bulletAbove lines width j := by
  rw [bulletAbove]
  split
  · next ws hLine =>
      apply if_neg
      intro hLess
      exact h ⟨ws, hLine, hLess⟩
  · rfl

/-- The bullet above is indented by less, and no bullet in between is. -/
theorem bulletAbove_eq_some : bulletAbove lines width j = some b ↔
    b < j ∧ (∃ ws ∈ bulletIndent? (stripLineEndings (lines.getD b [])), ws.length < width) ∧
      ∀ k, b < k → k < j → ∀ ws ∈ bulletIndent? (stripLineEndings (lines.getD k [])),
        width ≤ ws.length := by
  induction j with
  | zero => simp [bulletAbove]
  | succ j ih =>
      by_cases hStop : ∃ ws ∈ bulletIndent? (stripLineEndings (lines.getD j [])), ws.length < width
      · obtain ⟨ws, hLine, hLess⟩ := hStop
        rw [bulletAbove_succ_of_less hLine hLess]
        constructor
        · intro h
          obtain rfl := Option.some.inj h
          refine ⟨Nat.lt_succ_self j, ⟨ws, hLine, hLess⟩, ?_⟩
          intro k hjk hkj
          omega
        · rintro ⟨hb, _, hBetween⟩
          rcases Nat.lt_succ_iff_lt_or_eq.mp hb with hLt | rfl
          · have := hBetween j hLt (Nat.lt_succ_self j) ws hLine
            omega
          · rfl
      · rw [bulletAbove_succ_of_not hStop, ih]
        constructor
        · rintro ⟨hb, hLess, hBetween⟩
          refine ⟨Nat.lt_succ_of_lt hb, hLess, ?_⟩
          intro k hbk hk ws hLine
          rcases Nat.lt_succ_iff_lt_or_eq.mp hk with hLt | rfl
          · exact hBetween k hbk hLt ws hLine
          · by_contra hNot
            exact hStop ⟨ws, hLine, Nat.lt_of_not_le hNot⟩
        · rintro ⟨hb, hLess, hBetween⟩
          rcases Nat.lt_succ_iff_lt_or_eq.mp hb with hLt | rfl
          · exact ⟨hLt, hLess, fun k hbk hk => hBetween k hbk (Nat.lt_succ_of_lt hk)⟩
          · exact absurd hLess hStop

end Bullets

end Plumber.MarkdownBlocks
