import MatrycaPlumber.System.Forest
import Mathlib.Data.List.Lex
import Mathlib.Data.List.Pairwise
import Mathlib.Data.List.Perm.Basic
import Mathlib.Data.List.Sort

/-! Recursive queries: rows that are expanded level by level until nothing is left. What
they collect is what a depth-first traversal meets, and keys that extend the key of the
parent put it into that order. -/
namespace RecursiveQuery

open Forest

variable {ρ : Type*}

/-- `WITH RECURSIVE` and `UNION ALL`, for at most `n` levels; nothing if rows are left then. -/
def recursiveQuery (expand : ρ → List ρ) : ℕ → List ρ → Option (List ρ)
  | _, [] => some []
  | 0, _ :: _ => none
  | n + 1, a :: level =>
      (recursiveQuery expand n ((a :: level).flatMap expand)).map (a :: level ++ ·)

section Place

variable (height : ρ → ℕ) (rows : List ρ)

/-- How many rows are of less height. -/
def place (a : ρ) : ℕ := rows.countP fun b => height b < height a

theorem countP_lt_of_mem {p q : ρ → Bool} {a : ρ} (hImp : ∀ b ∈ rows, p b → q b) (hA : a ∈ rows)
    (hQ : q a = true) (hP : p a = false) : rows.countP p < rows.countP q := by
  obtain ⟨before, after, rfl⟩ := List.append_of_mem hA
  have hBefore : before.countP p ≤ before.countP q :=
    List.countP_mono_left fun b hB => hImp b (List.mem_append_left _ hB)
  have hAfter : after.countP p ≤ after.countP q :=
    List.countP_mono_left fun b hB =>
      hImp b (List.mem_append_right _ (List.mem_cons_of_mem _ hB))
  rw [List.countP_append, List.countP_append, List.countP_cons_of_pos hQ,
    List.countP_cons_of_neg (by simp [hP])]
  omega

theorem place_lt_place {a b : ρ} (hA : a ∈ rows) (h : height a < height b) :
    place height rows a < place height rows b := by
  apply countP_lt_of_mem rows _ hA
  · simpa using h
  · simp
  · intro c _ hC
    have hLt : height c < height a := by simpa using hC
    simpa using hLt.trans h

theorem place_lt_length {a : ρ} (hA : a ∈ rows) : place height rows a < rows.length := by
  rw [← List.countP_true]
  apply countP_lt_of_mem rows _ hA rfl
  · simp
  · exact fun _ _ _ => rfl

end Place

section Order

variable {good : ρ → Prop} {expand other : ρ → List ρ}

theorem forall_mem_preorder (hGood : ∀ a, good a → ∀ b ∈ expand a, good b) :
    ∀ (n : ℕ) (a : ρ), good a → ∀ b ∈ preorder expand n a, good b
  | 0, _, _, _, hB => absurd hB List.not_mem_nil
  | n + 1, a, hA, b, hB => by
      rcases List.mem_cons.mp hB with rfl | hB
      · exact hA
      · obtain ⟨c, hC, hBelow⟩ := List.mem_flatMap.mp hB
        exact forall_mem_preorder hGood n c (hGood a hA c hC) b hBelow

/-- One level more meets the children of what has been met. -/
theorem mem_preorder_succ {b c : ρ} (hC : c ∈ expand b) :
    ∀ {n : ℕ} {a : ρ}, b ∈ preorder expand n a → c ∈ preorder expand (n + 1) a
  | 0, _, hB => absurd hB List.not_mem_nil
  | n + 1, a, hB => by
      rw [preorder]
      apply List.mem_cons_of_mem
      rcases List.mem_cons.mp hB with rfl | hB
      · exact List.mem_flatMap.mpr ⟨c, hC, List.mem_cons_self⟩
      · obtain ⟨d, hD, hBelow⟩ := List.mem_flatMap.mp hB
        exact List.mem_flatMap.mpr ⟨d, hD, mem_preorder_succ hC hBelow⟩

/-- The order of the children decides about the order of the rows only. -/
theorem preorder_perm (hGood : ∀ a, good a → ∀ b ∈ expand a, good b)
    (hPerm : ∀ a, good a → (expand a).Perm (other a)) :
    ∀ (n : ℕ) (a : ρ), good a → (preorder expand n a).Perm (preorder other n a)
  | 0, _, _ => .refl _
  | n + 1, a, hA => by
      apply List.Perm.cons
      apply List.Perm.trans _ ((hPerm a hA).flatMap_right _)
      apply List.Perm.flatMap_left
      intro b hB
      exact preorder_perm hGood hPerm n b (hGood a hA b hB)

/-- A traversal that is deep enough meets all that a deeper one meets. -/
theorem preorder_stable {rank : ρ → ℕ} {bound : ℕ}
    (hGood : ∀ a, good a → ∀ b ∈ expand a, good b ∧ rank a < rank b)
    (hBound : ∀ a, good a → rank a < bound) :
    ∀ (n m : ℕ) (a : ρ), good a → bound ≤ rank a + n → n ≤ m →
      preorder expand n a = preorder expand m a
  | 0, _, a, hA, hDeep, _ => absurd hDeep (by have := hBound a hA; omega)
  | n + 1, 0, _, _, _, hLe => absurd hLe (by omega)
  | n + 1, m + 1, a, hA, hDeep, hLe => by
      rw [preorder, preorder]
      congr 1
      apply List.flatMap_congr
      intro b hB
      obtain ⟨hGoodB, hRank⟩ := hGood a hA b hB
      exact preorder_stable hGood hBound n m b hGoodB (by omega) (by omega)

/-- The rows of a query whose expansion goes up in rank are those of a traversal. -/
theorem recursiveQuery_perm {rank : ρ → ℕ} {bound : ℕ}
    (hGood : ∀ a, good a → ∀ b ∈ expand a, good b ∧ rank a < rank b)
    (hBound : ∀ a, good a → rank a < bound) :
    ∀ (n : ℕ) (level : List ρ), (∀ a ∈ level, good a ∧ bound ≤ rank a + n) →
      ∃ rows, recursiveQuery expand n level = some rows ∧
        rows.Perm (level.flatMap (preorder expand n))
  | _, [], _ => by
      rw [recursiveQuery]
      exact ⟨[], rfl, .refl _⟩
  | 0, a :: level, hLevel => by
      obtain ⟨hA, hDeep⟩ := hLevel a List.mem_cons_self
      have hLt := hBound a hA
      omega
  | n + 1, a :: level, hLevel => by
      have hNext : ∀ b ∈ (a :: level).flatMap expand, good b ∧ bound ≤ rank b + n := by
        intro b hB
        obtain ⟨c, hC, hBelow⟩ := List.mem_flatMap.mp hB
        obtain ⟨hGoodC, hDeep⟩ := hLevel c hC
        obtain ⟨hGoodB, hRank⟩ := hGood c hGoodC b hBelow
        exact ⟨hGoodB, by omega⟩
      obtain ⟨rows, hRows, hPerm⟩ := recursiveQuery_perm hGood hBound n _ hNext
      refine ⟨a :: level ++ rows, ?_, ?_⟩
      · rw [recursiveQuery, hRows]
        rfl
      · rw [List.flatMap_assoc] at hPerm
        apply (hPerm.append_left (a :: level)).trans
        have hSplit := List.map_append_flatMap_perm (a :: level) id
          fun b => (expand b).flatMap (preorder expand n)
        rw [List.map_id] at hSplit
        exact hSplit

end Order

section Keys

variable {β : Type*} {good : ρ → Prop} {expand : ρ → List ρ} {key : ρ → List β}

/-- Each row has the key of its parent with something more. -/
def Extends (key : ρ → List β) (a b : ρ) : Prop := ∃ x, x ≠ [] ∧ key b = key a ++ x

theorem prefix_of_mem_preorder (hGood : ∀ a, good a → ∀ b ∈ expand a, good b)
    (hExtends : ∀ a, good a → ∀ b ∈ expand a, Extends key a b) :
    ∀ (n : ℕ) (a : ρ), good a → ∀ b ∈ preorder expand n a, key a <+: key b
  | 0, _, _, _, hB => absurd hB List.not_mem_nil
  | n + 1, a, hA, b, hB => by
      rcases List.mem_cons.mp hB with rfl | hB
      · exact List.prefix_rfl
      · obtain ⟨c, hC, hBelow⟩ := List.mem_flatMap.mp hB
        obtain ⟨x, -, hKey⟩ := hExtends a hA c hC
        apply List.IsPrefix.trans _
          (prefix_of_mem_preorder hGood hExtends n c (hGood a hA c hC) b hBelow)
        rw [hKey]
        exact List.prefix_append _ _

variable [LinearOrder β]

/-- Of two keys of one length the lesser stays less with any ends. -/
theorem append_lt_append : ∀ {a b : List β}, a < b → a.length = b.length → ∀ x y : List β,
    a ++ x < b ++ y
  | [], [], h, _, _, _ => absurd h (lt_irrefl _)
  | a :: as, b :: bs, h, hLength, x, y => by
      rw [List.cons_append, List.cons_append]
      rcases List.cons_lt_cons_iff.mp h with hHead | ⟨rfl, hTail⟩
      · exact List.cons_lt_cons_iff.mpr (Or.inl hHead)
      · have hRest := append_lt_append hTail (Nat.succ.inj hLength) x y
        exact List.cons_lt_cons_iff.mpr (Or.inr ⟨rfl, hRest⟩)

theorem lt_append_of_ne_nil : ∀ (a : List β) {x : List β}, x ≠ [] → a < a ++ x
  | [], [], h => absurd rfl h
  | [], _ :: _, _ => List.nil_lt_cons ..
  | a :: as, x, h => by
      rw [List.cons_append]
      exact List.cons_lt_cons_iff.mpr (Or.inr ⟨rfl, lt_append_of_ne_nil as h⟩)

/-- Keys of siblings are increasing and of one length. -/
def Ascending (key : ρ → List β) (a b : ρ) : Prop :=
  key a < key b ∧ (key a).length = (key b).length

/-- The keys of a depth-first traversal go up. -/
theorem pairwise_preorder (hGood : ∀ a, good a → ∀ b ∈ expand a, good b)
    (hExtends : ∀ a, good a → ∀ b ∈ expand a, Extends key a b)
    (hAscending : ∀ a, good a → (expand a).Pairwise (Ascending key)) :
    ∀ (n : ℕ) (a : ρ), good a → (preorder expand n a).Pairwise fun b c => key b < key c
  | 0, _, _ => .nil
  | n + 1, a, hA => by
      rw [preorder, List.pairwise_cons]
      constructor
      · intro b hB
        obtain ⟨c, hC, hBelow⟩ := List.mem_flatMap.mp hB
        obtain ⟨x, hNil, hKey⟩ := hExtends a hA c hC
        obtain ⟨y, hPrefix⟩ := prefix_of_mem_preorder hGood hExtends n c (hGood a hA c hC) b hBelow
        rw [← hPrefix, hKey, List.append_assoc]
        exact lt_append_of_ne_nil _ (List.append_ne_nil_of_left_ne_nil hNil _)
      · rw [List.pairwise_flatMap]
        constructor
        · intro b hB
          exact pairwise_preorder hGood hExtends hAscending n b (hGood a hA b hB)
        · apply (hAscending a hA).imp_of_mem
          rintro b c hB hC ⟨hLt, hLength⟩ d hD e hE
          obtain ⟨x, hD⟩ := prefix_of_mem_preorder hGood hExtends n b (hGood a hA b hB) d hD
          obtain ⟨y, hE⟩ := prefix_of_mem_preorder hGood hExtends n c (hGood a hA c hC) e hE
          rw [← hD, ← hE]
          exact append_lt_append hLt hLength x y

/-- Rows that are sorted by their keys are in the order in which the keys go up. -/
theorem insertionSort_eq_of_perm {rows sorted : List ρ} (hPerm : rows.Perm sorted)
    (hSorted : sorted.Pairwise fun b c => key b < key c) :
    rows.insertionSort (fun b c => key b ≤ key c) = sorted := by
  have hTotal : Std.Total fun b c : ρ => key b ≤ key c := ⟨fun b c => le_total (key b) (key c)⟩
  have hTrans : IsTrans ρ fun b c => key b ≤ key c := ⟨fun _ _ _ hLe hLe' => hLe.trans hLe'⟩
  have hPermSorted := (List.perm_insertionSort (fun b c => key b ≤ key c) rows).trans hPerm
  apply hPermSorted.eq_of_pairwise _ (List.pairwise_insertionSort _ _)
    (hSorted.imp fun hLt => hLt.le)
  intro b c hB hC hLe hLe'
  by_contra hNe
  have hKeys : sorted.Pairwise fun b c => key b ≠ key c := hSorted.imp fun hLt => hLt.ne
  have hSymm : Std.Symm fun b c : ρ => key b ≠ key c := ⟨fun _ _ => Ne.symm⟩
  have hDistinct := hKeys.forall (hPermSorted.subset hB) hC hNe
  exact hDistinct (le_antisymm hLe hLe')

end Keys

end RecursiveQuery
