import Mathlib.Algebra.Group.Int.Defs
import Mathlib.Algebra.GroupWithZero.Nat
import Mathlib.Data.List.Basic
import Mathlib.Data.List.DropRight
import Mathlib.Data.List.Infix
import Mathlib.Data.List.TakeWhile

/-! Python `str` values as lists of code points, with the character classes
and the stripping methods that line-oriented scanners are written in. -/
namespace PyText

abbrev Str := List Char

instance instLawfulBEqStr : LawfulBEq Str := inferInstanceAs (LawfulBEq (List Char))

/-- What is said of the characters of a text is decided along the text, not by
going through all characters. -/
instance (priority := high) decidableForallMem {s : Str} {P : Char → Prop} [DecidablePred P] :
    Decidable (∀ c ∈ s, P c) :=
  List.decidableBAll P s

instance (priority := high) decidableForallMemOption {c? : Option Char} {P : Char → Prop}
    [DecidablePred P] : Decidable (∀ c ∈ c?, P c) :=
  match c? with
  | none => .isTrue (by simp)
  | some c => decidable_of_iff (P c) (by simp)

/-- `str.isspace`, which is also what `\s` matches in a `str` pattern. -/
def isSpace (c : Char) : Bool :=
  let n := c.toNat
  (9 ≤ n && n ≤ 13) || (28 ≤ n && n ≤ 32) || n == 0x85 || n == 0xA0 || n == 0x1680 ||
    (0x2000 ≤ n && n ≤ 0x200A) || n == 0x2028 || n == 0x2029 || n == 0x202F ||
    n == 0x205F || n == 0x3000

/-- The line boundaries of `str.splitlines`. -/
def isLineBreak (c : Char) : Bool :=
  let n := c.toNat
  (10 ≤ n && n ≤ 13) || (28 ≤ n && n ≤ 30) || n == 0x85 || n == 0x2028 || n == 0x2029

/-- Every line boundary is whitespace; the converse fails for blanks and tabs. -/
theorem isSpace_of_isLineBreak {c : Char} (h : isLineBreak c = true) : isSpace c = true := by
  simp only [isLineBreak, isSpace, Bool.or_eq_true, Bool.and_eq_true, decide_eq_true_eq,
    beq_iff_eq] at h ⊢
  omega

theorem not_isLineBreak_of_not_isSpace {c : Char} (h : isSpace c = false) :
    isLineBreak c = false := by
  cases hb : isLineBreak c with
  | false => rfl
  | true => rw [isSpace_of_isLineBreak hb] at h; exact h

def lstrip (s : Str) : Str := s.dropWhile isSpace

def rstrip (s : Str) : Str := s.rdropWhile isSpace

def strip (s : Str) : Str := rstrip (lstrip s)

/-- `s.rstrip(chars)` for an explicit set of characters. -/
def rstripChars (chars s : Str) : Str := s.rdropWhile (fun c => chars.contains c)

/-- `s.lstrip(chars)` for an explicit set of characters. -/
def lstripChars (chars s : Str) : Str := s.dropWhile (fun c => chars.contains c)

/-- `not s.strip()`: the text is empty or holds whitespace only. -/
def isBlank (s : Str) : Bool := s.all isSpace

/-- `s.startswith(p)` together with the rest of `s`. -/
def dropPrefix? : Str → Str → Option Str
  | [], s => some s
  | _ :: _, [] => none
  | p :: ps, c :: cs => if p = c then dropPrefix? ps cs else none

def startsWith (p s : Str) : Bool := (dropPrefix? p s).isSome

def endsWith (p s : Str) : Bool := startsWith p.reverse s.reverse

theorem dropPrefix?_eq_some {p s rest : Str} :
    dropPrefix? p s = some rest ↔ s = p ++ rest := by
  induction p generalizing s with
  | nil => simp [dropPrefix?, eq_comm]
  | cons c p ih =>
      cases s with
      | nil => simp [dropPrefix?]
      | cons d s =>
          by_cases h : c = d
          · simp [dropPrefix?, h, ih]
          · simp [dropPrefix?, h, Ne.symm h]

theorem startsWith_iff {p s : Str} : startsWith p s = true ↔ p <+: s := by
  simp only [startsWith, Option.isSome_iff_exists, dropPrefix?_eq_some, List.IsPrefix]
  exact ⟨fun ⟨t, h⟩ => ⟨t, h.symm⟩, fun ⟨t, h⟩ => ⟨t, h.symm⟩⟩

theorem endsWith_iff {p s : Str} : endsWith p s = true ↔ p <:+ s := by
  rw [endsWith, startsWith_iff, List.reverse_prefix]

/-- `sep.join(parts)`. -/
def join (sep : Str) : List Str → Str
  | [] => []
  | [p] => p
  | p :: q :: ps => p ++ sep ++ join sep (q :: ps)

/-- `s[i:j]` of a list with non-negative bounds. -/
def slice {α : Type*} (xs : List α) (i j : Nat) : List α := (xs.take j).drop i

theorem isBlank_iff_strip_eq_nil (s : Str) : isBlank s = true ↔ strip s = [] := by
  simp only [isBlank, List.all_eq_true, strip, rstrip, lstrip, List.rdropWhile_eq_nil_iff]
  constructor
  · intro h c hc
    exact h c ((List.dropWhile_suffix _).subset hc)
  · intro h c hc
    by_contra hn
    have hmem : c ∈ s.dropWhile isSpace := by
      rw [← List.takeWhile_append_dropWhile (p := isSpace) (l := s), List.mem_append] at hc
      rcases hc with hc | hc
      · exact absurd (List.mem_takeWhile_imp hc) hn
      · exact hc
    exact hn (h c hmem)

/-- Stripping only removes characters at the ends. -/
theorem strip_isInfix (s : Str) : strip s <:+: s :=
  (List.rdropWhile_prefix _ _).isInfix.trans (List.dropWhile_suffix _).isInfix

theorem mem_strip {s : Str} {c : Char} (h : c ∈ s) (hc : isSpace c = false) : c ∈ strip s := by
  have hDrop (t : Str) (ht : c ∈ t) : c ∈ t.dropWhile isSpace := by
    rw [← List.takeWhile_append_dropWhile (p := isSpace) (l := t), List.mem_append] at ht
    cases ht with
    | inl hTaken =>
        rw [List.mem_takeWhile_imp hTaken] at hc
        cases hc
    | inr hRest => exact hRest
  rw [strip, rstrip, lstrip, List.rdropWhile, List.mem_reverse]
  exact hDrop _ (List.mem_reverse.mpr (hDrop s h))

end PyText
