import MatrycaPlumber.Text.Basic
import Mathlib.Data.List.Range
import Mathlib.Data.List.Perm.Basic

/-! Cutting intervals of positions out of a list. What remains and what was cut
out together are a rearrangement of the list. -/
namespace PyText

variable {α β : Type*}

/-- What remains of `xs` from `cursor` on when the intervals are cut out. -/
def cut (xs : List α) : Nat → List (Nat × Nat) → List α
  | cursor, [] => xs.drop cursor
  | cursor, (b, e) :: ivs => slice xs cursor b ++ cut xs e ivs

/-- Non-empty intervals in order, each after the one before it, up to `n`. -/
inductive OrderedFrom (n : Nat) : Nat → List (Nat × Nat) → Prop where
  | nil {cursor : Nat} (hEnd : cursor ≤ n) : OrderedFrom n cursor []
  | cons {cursor b e : Nat} {ivs : List (Nat × Nat)} (hStart : cursor ≤ b) (hLt : b < e)
      (rest : OrderedFrom n e ivs) : OrderedFrom n cursor ((b, e) :: ivs)

theorem OrderedFrom.le {n cursor : Nat} {ivs : List (Nat × Nat)} (h : OrderedFrom n cursor ivs) :
    cursor ≤ n := by
  induction h with
  | nil hEnd => exact hEnd
  | cons hStart hLt _ ih => omega

theorem OrderedFrom.start_le {n cursor : Nat} {ivs : List (Nat × Nat)}
    (h : OrderedFrom n cursor ivs) : ∀ iv ∈ ivs, cursor ≤ iv.1 := by
  induction h with
  | nil _ => simp
  | cons hStart hLt _ ih =>
      refine List.forall_mem_cons.mpr ⟨hStart, ?_⟩
      intro iv hiv
      have := ih iv hiv
      omega

theorem map_slice (f : α → β) (xs : List α) (b e : Nat) :
    (slice xs b e).map f = slice (xs.map f) b e := by
  simp [slice, List.map_take, List.map_drop]

theorem map_cut (f : α → β) (xs : List α) (cursor : Nat) (ivs : List (Nat × Nat)) :
    (cut xs cursor ivs).map f = cut (xs.map f) cursor ivs := by
  induction ivs generalizing cursor with
  | nil => simp [cut, List.map_drop]
  | cons iv ivs ih => simp [cut, map_slice, ih]

theorem slice_append_drop (xs : List α) {b e : Nat} (h : b ≤ e) :
    slice xs b e ++ xs.drop e = xs.drop b := by
  rw [slice, List.drop_take]
  conv_rhs => rw [← List.take_append_drop (e - b) (xs.drop b)]
  rw [List.drop_drop, show b + (e - b) = e by omega]

theorem slice_sublist_drop (xs : List α) (b e : Nat) : (slice xs b e).Sublist (xs.drop b) := by
  rw [slice, List.drop_take]
  exact List.take_sublist _ _

theorem length_slice (xs : List α) {b e : Nat} (h : e ≤ xs.length) :
    (slice xs b e).length = e - b := by
  rw [slice, List.length_drop, List.length_take, Nat.min_eq_left h]

theorem mem_slice_range {n b e i : Nat} :
    i ∈ slice (List.range n) b e ↔ b ≤ i ∧ i < e ∧ i < n := by
  simp only [slice, List.mem_drop_iff_getElem, List.length_take, List.length_range,
    List.getElem_take, List.getElem_range]
  constructor
  · rintro ⟨j, hj, rfl⟩
    omega
  · rintro ⟨hb, he, hn⟩
    exact ⟨i - b, by omega, by omega⟩

/-- A filter that only keeps positions of an interval may look at the interval alone. -/
theorem filter_slice_range {n b e : Nat} {p : Nat → Bool}
    (h : ∀ i < n, p i = true → b ≤ i ∧ i < e) :
    (List.range n).filter p = (slice (List.range n) b e).filter p := by
  have hFront : ((List.range n).take b).filter p = [] := by
    rw [List.filter_eq_nil_iff]
    intro i hi hp
    rw [List.take_range, List.mem_range] at hi
    have := (h i (by omega) hp).1
    omega
  have hBehind : ((List.range n).drop e).filter p = [] := by
    rw [List.filter_eq_nil_iff]
    intro i hi hp
    rw [List.mem_drop_iff_getElem] at hi
    obtain ⟨k, hk, rfl⟩ := hi
    rw [List.getElem_range] at hp
    rw [List.length_range] at hk
    have := (h (e + k) (by omega) hp).2
    omega
  by_cases hOrder : b ≤ e
  · conv_lhs => rw [← List.take_append_drop b (List.range n), ← slice_append_drop _ hOrder]
    rw [List.filter_append, List.filter_append, hFront, hBehind, List.nil_append, List.append_nil]
  · have hNone : (List.range n).filter p = [] := by
      rw [List.filter_eq_nil_iff]
      intro i hi hp
      have := h i (List.mem_range.mp hi) hp
      omega
    rw [hNone, slice, List.drop_eq_nil_of_le]
    · rfl
    · rw [List.length_take]
      omega

theorem getLast?_slice_range {n b e : Nat} (hLt : b < e) (hLe : e ≤ n) :
    (slice (List.range n) b e).getLast? = some (e - 1) := by
  rw [List.getLast?_eq_getElem?, length_slice _ (by simpa using hLe), slice, List.getElem?_drop,
    show b + (e - b - 1) = e - 1 by omega, List.getElem?_take_of_lt (by omega),
    List.getElem?_range (by omega)]

/-- The part after the first interval. -/
theorem drop_cut_cons {xs : List α} {b e : Nat} {ivs : List (Nat × Nat)} (h : b ≤ xs.length) :
    (cut xs 0 ((b, e) :: ivs)).drop b = cut xs e ivs := by
  rw [cut, List.drop_append_of_le_length (by rw [length_slice xs h]; omega),
    List.drop_of_length_le (by rw [length_slice xs h]; omega), List.nil_append]

/-- Nothing is lost and nothing is invented by cutting. -/
theorem cut_perm {xs : List α} {cursor : Nat} {ivs : List (Nat × Nat)}
    (h : OrderedFrom xs.length cursor ivs) :
    (cut xs cursor ivs ++ ivs.flatMap fun iv => slice xs iv.1 iv.2).Perm (xs.drop cursor) := by
  induction h with
  | nil _ => simp [cut]
  | @cons cursor b e ivs hStart hLt _ ih =>
      have hHead : xs.drop cursor = slice xs cursor b ++ (slice xs b e ++ xs.drop e) := by
        rw [slice_append_drop xs hLt.le, slice_append_drop xs hStart]
      rw [cut, List.flatMap_cons, hHead, List.append_assoc]
      apply List.Perm.append_left
      rw [← List.append_assoc]
      refine (List.Perm.append_right _ List.perm_append_comm).trans ?_
      rw [List.append_assoc]
      exact ih.append_left _

theorem cut_sublist {xs : List α} {cursor : Nat} {ivs : List (Nat × Nat)}
    (h : OrderedFrom xs.length cursor ivs) : (cut xs cursor ivs).Sublist (xs.drop cursor) := by
  induction h with
  | nil _ => exact List.Sublist.refl _
  | @cons cursor b e ivs hStart hLt _ ih =>
      rw [cut, ← slice_append_drop xs hStart]
      refine (List.Sublist.refl _).append (ih.trans ?_)
      rw [← slice_append_drop xs hLt.le]
      exact List.sublist_append_right _ _

theorem cut_range_sublist {n cursor : Nat} {ivs : List (Nat × Nat)} (h : OrderedFrom n cursor ivs) :
    (cut (List.range n) cursor ivs).Sublist ((List.range n).drop cursor) := by
  apply cut_sublist
  rw [List.length_range]
  exact h

/-- A position is cut out exactly when one of the intervals holds it. -/
theorem mem_cut_range_iff {n i : Nat} {ivs : List (Nat × Nat)} (h : OrderedFrom n 0 ivs) :
    i ∈ cut (List.range n) 0 ivs ↔ i < n ∧ ∀ iv ∈ ivs, ¬(iv.1 ≤ i ∧ i < iv.2) := by
  have hPerm : (cut (List.range n) 0 ivs ++ ivs.flatMap fun iv => slice (List.range n) iv.1 iv.2).Perm
      ((List.range n).drop 0) := cut_perm (by rw [List.length_range]; exact h)
  rw [List.drop_zero] at hPerm
  have hNodup := hPerm.nodup_iff.mpr List.nodup_range
  obtain ⟨_, _, hDisjoint⟩ := List.nodup_append.mp hNodup
  have hMem := hPerm.mem_iff (a := i)
  simp only [List.mem_append, List.mem_flatMap, List.mem_range] at hMem
  constructor
  · intro hi
    have hn := hMem.mp (Or.inl hi)
    refine ⟨hn, ?_⟩
    intro iv hiv hIn
    have hCut := mem_slice_range.mpr ⟨hIn.1, hIn.2, hn⟩
    exact hDisjoint i hi i (List.mem_flatMap.mpr ⟨iv, hiv, hCut⟩) rfl
  · rintro ⟨hn, hOut⟩
    cases hMem.mpr hn with
    | inl hi => exact hi
    | inr hi =>
        obtain ⟨iv, hiv, hIn⟩ := hi
        obtain ⟨hb, he, _⟩ := mem_slice_range.mp hIn
        exact absurd ⟨hb, he⟩ (hOut iv hiv)

end PyText
