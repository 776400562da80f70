import MatrycaPlumber.Text.Pieces
import Mathlib.Data.List.Basic

/-! Lines put in between the lines of a page. -/
namespace PyText

section Lists

variable {α : Type*} {xs ys ins : List α} {k m : Nat} {x : α}

/-- The list with `ins` put in ahead of index `k`. -/
def splice (xs : List α) (k : Nat) (ins : List α) : List α := xs.take k ++ ins ++ xs.drop k

theorem getElem?_splice_lt (ins : List α) (hk : k ≤ xs.length) {j : Nat} (hj : j < k) :
    (splice xs k ins)[j]? = xs[j]? := by
  have hTaken : j < (xs.take k).length := by
    rw [List.length_take]
    omega
  rw [splice, List.append_assoc, List.getElem?_append_left hTaken, List.getElem?_take_of_lt hj]

theorem getElem?_splice_add (hk : k ≤ xs.length) {j : Nat} (hj : j < ins.length) :
    (splice xs k ins)[k + j]? = ins[j]? := by
  have hLength : (xs.take k).length = k := List.length_take_of_le hk
  rw [splice, List.append_assoc, List.getElem?_append_right (by omega), hLength,
    Nat.add_sub_cancel_left, List.getElem?_append_left hj]

theorem splice_eq_append (ins : List α) (hk : k = xs.length) : splice xs k ins = xs ++ ins := by
  rw [splice, hk, List.take_length, List.drop_length, List.append_nil]

/-- Two ways to cut a list at a line and a marked one behind it are the same, where neither
starts with a marked line. -/
theorem eq_of_marked {P Q : α → Prop} {before before' after after' : List α} {x y x' y' : α}
    (h : before ++ x :: y :: after = before' ++ x' :: y' :: after')
    (hBefore : ∀ a ∈ before, ¬P a) (hBefore' : ∀ a ∈ before', ¬P a) (hy : P y) (hy' : P y')
    (hx : Q x) (hx' : Q x') (hNot : ¬Q y) (hNot' : ¬Q y') :
    before = before' ∧ x = x' ∧ y = y' ∧ after = after' := by
  induction before generalizing before' with
  | nil =>
      cases before' with
      | nil => simpa using h
      | cons b before' =>
          have hRest := (List.cons.inj h).2
          cases before' with
          | nil =>
              obtain ⟨rfl, _⟩ := List.cons.inj hRest
              exact absurd hx' hNot
          | cons c before' =>
              obtain ⟨rfl, _⟩ := List.cons.inj hRest
              exact absurd hy (hBefore' y (by simp))
  | cons a before ih =>
      rw [List.forall_mem_cons] at hBefore
      cases before' with
      | nil =>
          have hRest := (List.cons.inj h).2
          cases before with
          | nil =>
              obtain ⟨rfl, _⟩ := List.cons.inj hRest
              exact absurd hx hNot'
          | cons c before =>
              obtain ⟨rfl, _⟩ := List.cons.inj hRest
              exact absurd hy' (hBefore.2 c List.mem_cons_self)
      | cons b before' =>
          obtain ⟨rfl, hRest⟩ := List.cons.inj h
          rw [List.forall_mem_cons] at hBefore'
          obtain ⟨rfl, hSame⟩ := ih hRest hBefore.2 hBefore'.2
          exact ⟨rfl, hSame⟩

end Lists

section Lines

variable {lines ins : List Str} {k : Nat} {line : Str}

theorem splitlinesKeep_splice (hLines : PageLines lines) (hIns : ∀ l ∈ ins, Closed l)
    (hEnd : k < lines.length ∨ ∀ l ∈ lines, Closed l) :
    splitlinesKeep (splice lines k ins).flatten = splice lines k ins := by
  apply splitlinesKeep_flatten
  have hTaken : ∀ l ∈ lines.take k, Closed l := by
    intro l hl
    cases hEnd with
    | inr hClosed => exact hClosed l (List.mem_of_mem_take hl)
    | inl hk =>
        apply closed_of_pageLines_append (X := lines.take k) (Y := lines.drop k) _ _ l hl
        · rwa [List.take_append_drop]
        · exact List.drop_eq_nil_iff.not.mpr (by omega)
  rw [splice, List.append_assoc]
  apply pageLines_append_of_closed hTaken
  apply pageLines_append_of_closed hIns
  have hParts : PageLines (lines.take k ++ lines.drop k) := by rwa [List.take_append_drop]
  exact (pageLines_append hParts).2

/-- Lines put in behind an unterminated one: the first of them is glued to it. -/
theorem splitlinesKeep_splice_open {before : List Str} {first : Str} (hOpen : Unterminated line)
    (hBefore : ∀ l ∈ before, Closed l) (hIns : ∀ l ∈ first :: ins, Closed l) :
    splitlinesKeep (splice (before ++ [line]) (before.length + 1) (first :: ins)).flatten =
      before ++ (line ++ first) :: ins := by
  rw [splice_eq_append _ (by simp)]
  have hGlued : PageLines (before ++ (line ++ first) :: ins) := by
    apply pageLines_of_closed
    rw [List.forall_mem_append, List.forall_mem_cons]
    rw [List.forall_mem_cons] at hIns
    exact ⟨hBefore, hIns.1.prepend line hOpen.2, hIns.2⟩
  rw [← splitlinesKeep_flatten hGlued]
  simp

/-- A page ends in a boundary when all of its lines do. -/
theorem closed_iff_getLast {text : Str} (h : '\r' ∉ text) :
    (∀ l ∈ splitlinesKeep text, Closed l) ↔ ∀ c ∈ text.getLast?, isLineBreak c = true := by
  have hPage := pageLines_splitlinesKeep h
  have hText := flatten_splitlinesKeep text
  generalize splitlinesKeep text = ls at hPage hText
  subst hText
  cases List.eq_nil_or_concat' ls with
  | inl hNil =>
      rw [hNil]
      simp
  | inr hConcat =>
      obtain ⟨init, m, rfl⟩ := hConcat
      rw [← closed_last_iff hPage, List.forall_mem_append, List.forall_mem_singleton]
      exact and_iff_right (pageLines_append_iff.mp hPage).1

/-- What the lines of a page are after others were put in. The first of these stands behind
what the page ended with, when it ended without a boundary there. -/
theorem splitlinesKeep_splice_cons {first : Str} (hLines : PageLines lines)
    (hIns : ∀ l ∈ first :: ins, Closed l) (hk : k ≤ lines.length) :
    ∃ before tail after, splitlinesKeep (splice lines k (first :: ins)).flatten =
        before ++ (tail ++ first) :: (ins ++ after) ∧
      (∀ l ∈ before, l ∈ lines) ∧
      (tail = [] → before = lines.take k ∧ after = lines.drop k ∧
        (k < lines.length ∨ ∀ l ∈ lines, Closed l)) := by
  by_cases hEnd : k < lines.length ∨ ∀ l ∈ lines, Closed l
  · refine ⟨lines.take k, [], lines.drop k, ?_, fun l => List.mem_of_mem_take, fun _ => ⟨rfl, rfl, hEnd⟩⟩
    rw [splitlinesKeep_splice hLines hIns hEnd, splice]
    simp
  · rw [not_or] at hEnd
    obtain rfl : k = lines.length := by omega
    obtain ⟨init, line, rfl⟩ := (List.eq_nil_or_concat' lines).resolve_left (by
      rintro rfl
      exact hEnd.2 (by simp))
    obtain ⟨hInit, hLine⟩ := pageLines_append_iff.mp hLines
    have hOpen : Unterminated line := hLine.resolve_left fun hClosed =>
      hEnd.2 (List.forall_mem_append.mpr ⟨hInit, List.forall_mem_singleton.mpr hClosed⟩)
    refine ⟨init, line, [], ?_, fun l => List.mem_append_left _, fun hNil => absurd hNil hOpen.1⟩
    rw [List.length_append, List.length_singleton, splitlinesKeep_splice_open hOpen hInit hIns,
      List.append_nil]

end Lines

end PyText
