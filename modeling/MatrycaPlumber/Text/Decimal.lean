import MatrycaPlumber.System.RecursiveQuery
import MatrycaPlumber.Text.Basic
import Mathlib.Data.Char
import Mathlib.Tactic.IntervalCases

/-! Decimal numerals, their order as texts when they are padded with zeros, and the
search for one between commas. -/
namespace PyText

open RecursiveQuery

def decimal (n : ℕ) : Str := Nat.toDigits 10 n

/-- `printf('%0wd', n)`. -/
def zeroPadded (w n : ℕ) : Str := (decimal n).leftpad w '0'

theorem decimal_injective : Function.Injective decimal := by
  intro m n h
  have hValue := congrArg (fun digits => Nat.ofDigitChars 10 digits 0) h
  simpa only [decimal, Nat.ofDigitChars_ten_toDigits] using hValue

theorem zeroPadded_injective (w : ℕ) : Function.Injective (zeroPadded w) := by
  intro m n h
  have hZeros (k : ℕ) (digits : Str) : Nat.ofDigitChars 10 (List.replicate k '0' ++ digits) 0 =
      Nat.ofDigitChars 10 digits 0 := by
    induction k with
    | zero => rfl
    | succ k ih => exact ih
  have hValue := congrArg (fun digits => Nat.ofDigitChars 10 digits 0) h
  simp only [zeroPadded, List.leftpad, hZeros] at hValue
  simpa only [decimal, Nat.ofDigitChars_ten_toDigits] using hValue

theorem isDigit_of_mem_decimal {n : ℕ} {c : Char} (h : c ∈ decimal n) : c.isDigit = true :=
  Nat.isDigit_of_mem_toDigits (by decide) (by decide) h

theorem notMem_decimal {n : ℕ} {c : Char} (h : c.isDigit = false) : c ∉ decimal n := by
  intro hMem
  rw [isDigit_of_mem_decimal hMem] at h
  cases h

theorem length_zeroPadded {w n : ℕ} (hW : 0 < w) (h : n < 10 ^ w) : (zeroPadded w n).length = w := by
  have hLe : (decimal n).length ≤ w := (Nat.length_toDigits_le_iff (by decide) hW).mpr h
  rw [zeroPadded, List.leftpad, List.length_append, List.length_replicate]
  omega

/-- The last digit of a padded numeral comes after that of the rest of the number. -/
theorem zeroPadded_succ {w : ℕ} (hW : 0 < w) (n : ℕ) :
    zeroPadded (w + 1) n = zeroPadded w (n / 10) ++ [(n % 10).digitChar] := by
  by_cases hSmall : n < 10
  · rw [zeroPadded, zeroPadded, decimal, decimal, Nat.toDigits_of_lt_base hSmall,
      Nat.div_eq_of_lt hSmall, Nat.mod_eq_of_lt hSmall, Nat.toDigits_zero, List.leftpad,
      List.leftpad]
    obtain ⟨v, rfl⟩ : ∃ v, w = v + 1 := ⟨w - 1, by omega⟩
    simp [List.replicate_succ']
  · rw [zeroPadded, zeroPadded, decimal, decimal,
      Nat.toDigits_of_base_le (by decide) (by omega : 10 ≤ n), List.leftpad, List.leftpad]
    simp

theorem digitChar_lt {m n : ℕ} (h : m < n) (hN : n < 10) : m.digitChar < n.digitChar := by
  interval_cases n <;> interval_cases m <;> decide

/-- Padded numerals of one width are ordered like their numbers. -/
theorem zeroPadded_lt {w : ℕ} (hW : 0 < w) : ∀ {m n : ℕ}, m < n → n < 10 ^ w →
    zeroPadded w m < zeroPadded w n := by
  induction w, hW using Nat.le_induction with
  | base =>
      intro m n hLt hN
      have hDigit (k : ℕ) (hK : k < 10) : zeroPadded 1 k = [k.digitChar] := by
        rw [zeroPadded, decimal, Nat.toDigits_of_lt_base hK]
        rfl
      rw [hDigit m (by omega), hDigit n (by omega)]
      exact List.cons_lt_cons_iff.mpr (Or.inl (digitChar_lt hLt (by omega)))
  | succ w hW ih =>
      intro m n hLt hN
      rw [zeroPadded_succ hW, zeroPadded_succ hW]
      have hHigh : n / 10 < 10 ^ w := by
        rw [Nat.pow_succ] at hN
        omega
      rcases Nat.lt_or_ge (m / 10) (n / 10) with hDiv | hDiv
      · apply append_lt_append (ih hDiv hHigh)
        rw [length_zeroPadded hW (by omega), length_zeroPadded hW hHigh]
      · have hSame : m / 10 = n / 10 := by omega
        rw [hSame]
        apply List.append_left_lt
        exact List.cons_lt_cons_iff.mpr (Or.inl (digitChar_lt (by omega) (by omega)))

/-- Texts that are closed by commas, after a comma in front. -/
def separated (vs : List Str) : Str := ',' :: vs.flatMap (· ++ [','])

theorem separated_cons (v : Str) (vs : List Str) :
    separated (v :: vs) = ',' :: (v ++ separated vs) := by
  simp [separated]

theorem separated_concat (vs : List Str) (v : Str) :
    separated (vs ++ [v]) = separated vs ++ v ++ [','] := by
  simp [separated]

theorem eq_of_prefix_comma {x v rest : Str} (hX : ',' ∉ x) (hV : ',' ∉ v)
    (h : x ++ [','] <+: v ++ ',' :: rest) : x = v := by
  obtain ⟨t, hEq⟩ := h
  have hTake (s t : Str) (hS : ',' ∉ s) : (s ++ ',' :: t).takeWhile (· != ',') = s := by
    rw [List.takeWhile_append_of_pos]
    · simp
    · intro c hC
      have hNe : c ≠ ',' := fun hComma => hS (hComma ▸ hC)
      simpa using hNe
  rw [List.append_assoc, List.singleton_append] at hEq
  rw [← hTake x t hX, hEq, hTake v rest hV]

theorem infix_of_infix_append {needle : Str} (c : Char) {v t : Str} (hV : c ∉ v)
    (h : c :: needle <:+: v ++ t) : c :: needle <:+: t := by
  induction v with
  | nil => exact h
  | cons d v ih =>
      rw [List.mem_cons, not_or] at hV
      rcases List.infix_cons_iff.mp h with hPrefix | hInfix
      · exact absurd (List.cons_prefix_cons.mp hPrefix).1 hV.1
      · exact ih hV.2 hInfix

/-- What stands between two commas is one of the texts. -/
theorem mem_of_infix_separated {x : Str} (hX : ',' ∉ x) : ∀ {vs : List Str},
    (∀ v ∈ vs, ',' ∉ v) → ',' :: (x ++ [',']) <:+: separated vs → x ∈ vs
  | [], _, h => by
      have hLength := h.length_le
      simp [separated] at hLength
  | v :: vs, hVs, h => by
      have hV := hVs v List.mem_cons_self
      rw [separated_cons] at h
      rcases List.infix_cons_iff.mp h with hPrefix | hInfix
      · have hRest := (List.cons_prefix_cons.mp hPrefix).2
        rw [eq_of_prefix_comma hX hV hRest]
        exact List.mem_cons_self
      · apply List.mem_cons_of_mem
        apply mem_of_infix_separated hX fun u hU => hVs u (List.mem_cons_of_mem _ hU)
        exact infix_of_infix_append ',' hV hInfix

end PyText
