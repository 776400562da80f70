import MatrycaPlumber.Text.Cuts

/-! Searching and replacing a plain text: `str.find`, `str.count` and `str.replace`. -/
namespace PyText

/-- `t.find(s, i)`. -/
def findFrom? (s t : Str) (i : ℕ) : Option ℕ :=
  if i ≤ t.length then ((t.drop i).tails.findIdx? (startsWith s)).map (· + i) else none

/-- Disjoint occurrences from the left, with the number of characters still to be passed. -/
def occurrencesFrom (s : Str) : ℕ → Str → ℕ
  | _, [] => 0
  | skip + 1, _ :: t => occurrencesFrom s skip t
  | 0, c :: t =>
      if startsWith s (c :: t) then occurrencesFrom s (s.length - 1) t + 1
      else occurrencesFrom s 0 t

/-- `t.count(s)`. The empty text also occurs at the end. -/
def occurrences (s t : Str) : ℕ := occurrencesFrom s 0 t + if s = [] then 1 else 0

def replaceFrom (s repl : Str) : ℕ → Str → Str
  | _, [] => []
  | skip + 1, _ :: t => replaceFrom s repl skip t
  | 0, c :: t =>
      if s = [] then repl ++ c :: replaceFrom s repl 0 t
      else if startsWith s (c :: t) then repl ++ replaceFrom s repl (s.length - 1) t
      else c :: replaceFrom s repl 0 t

/-- `t.replace(s, repl)`. -/
def replaceAll (s repl t : Str) : Str :=
  replaceFrom s repl 0 t ++ if s = [] then repl else []

theorem findFrom?_bounds {s t : Str} {i j : ℕ} (h : findFrom? s t i = some j) :
    i ≤ j ∧ i ≤ t.length := by
  rw [findFrom?] at h
  split_ifs at h with hi
  obtain ⟨k, _, rfl⟩ := Option.map_eq_some_iff.mp h
  exact ⟨Nat.le_add_left i k, hi⟩

theorem findFrom?_zero_eq_none {s t : Str} :
    findFrom? s t 0 = none ↔ ∀ u, u <:+ t → startsWith s u = false := by
  rw [findFrom?, if_pos (Nat.zero_le _), Option.map_eq_none_iff, List.findIdx?_eq_none_iff]
  simp only [List.drop_zero, List.mem_tails]

theorem occurrencesFrom_eq_zero {s t : Str} :
    occurrencesFrom s 0 t = 0 ↔ ∀ u, u <:+ t → u ≠ [] → startsWith s u = false := by
  induction t with
  | nil =>
      refine ⟨fun _ u hu hNe => absurd (List.suffix_nil.mp hu) hNe, fun _ => rfl⟩
  | cons c t ih =>
      rw [occurrencesFrom]
      split_ifs with hHere
      · refine ⟨fun h => h.elim, fun h => ?_⟩
        rw [h (c :: t) (List.suffix_refl _) (List.cons_ne_nil c t)] at hHere
        cases hHere
      · rw [ih]
        constructor
        · intro h u hu hNe
          rcases List.suffix_cons_iff.mp hu with rfl | hu
          · exact Bool.eq_false_iff.mpr hHere
          · exact h u hu hNe
        · intro h u hu hNe
          exact h u (hu.trans (List.suffix_cons c t)) hNe

/-- Counting and searching agree on whether there is anything to find. -/
theorem occurrences_eq_zero {s t : Str} : occurrences s t = 0 ↔ findFrom? s t 0 = none := by
  rw [occurrences, Nat.add_eq_zero_iff, occurrencesFrom_eq_zero, findFrom?_zero_eq_none]
  constructor
  · rintro ⟨hNone, hSearch⟩ u hu
    have hNe : s ≠ [] := by
      rintro rfl
      simp at hSearch
    cases u with
    | nil =>
        rw [← Bool.not_eq_true, startsWith_iff, List.prefix_nil]
        exact hNe
    | cons c u => exact hNone _ hu (List.cons_ne_nil c u)
  · intro h
    refine ⟨fun u hu _ => h u hu, ?_⟩
    rw [if_neg]
    rintro rfl
    have := h [] (List.nil_suffix)
    cases this

end PyText
