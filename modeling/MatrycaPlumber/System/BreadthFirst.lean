import Mathlib.Data.Finset.Sort
import Mathlib.Data.Finset.Union
import Mathlib.Data.Set.Basic

/-! Breadth-first levels of a relation. A level is the list of the first new neighbours, in the
order of the elements and with at most so many to a level. As long as no level is full, the levels
are the elements at distance 1, 2, .. from where the search starts. -/
namespace BreadthFirst

section Distance

variable {α : Type*} (R : α → α → Prop) (start : α → Prop)

/-- What is reached from the start by `n` links. -/
inductive Reached : ℕ → α → Prop
  | start {v : α} (h : start v) : Reached 0 v
  | link {n : ℕ} {u v : α} (h : Reached n u) (hLink : R u v) : Reached (n + 1) v

/-- The distance from the start is `n`. -/
structure AtDistance (n : ℕ) (v : α) : Prop where
  reached : Reached R start n v
  least : ∀ m, Reached R start m v → n ≤ m

variable {R start} {n m : ℕ} {v : α}

theorem reached_zero : Reached R start 0 v ↔ start v := by
  constructor
  · rintro (h | _)
    exact h
  · exact .start

theorem reached_succ : Reached R start (n + 1) v ↔ ∃ u, Reached R start n u ∧ R u v := by
  constructor
  · rintro (_ | ⟨h, hLink⟩)
    exact ⟨_, h, hLink⟩
  · rintro ⟨u, h, hLink⟩
    exact .link h hLink

theorem AtDistance.unique (h : AtDistance R start n v) (h' : AtDistance R start m v) : n = m :=
  le_antisymm (h.least m h'.reached) (h'.least n h.reached)

theorem exists_atDistance (h : Reached R start n v) : ∃ m ≤ n, AtDistance R start m v := by
  induction n using Nat.strong_induction_on with
  | _ n ih =>
      by_cases hEarlier : ∃ m < n, Reached R start m v
      · obtain ⟨m, hLt, hReached⟩ := hEarlier
        obtain ⟨k, hLe, hAt⟩ := ih m hLt hReached
        exact ⟨k, hLe.trans hLt.le, hAt⟩
      · refine ⟨n, le_rfl, h, ?_⟩
        intro m hReached
        by_contra hLt
        exact hEarlier ⟨m, not_le.mp hLt, hReached⟩

theorem atDistance_zero : AtDistance R start 0 v ↔ start v :=
  ⟨fun h => reached_zero.mp h.reached, fun h => ⟨.start h, fun m _ => m.zero_le⟩⟩

/-- The next distance is that of the neighbours that are not nearer. -/
theorem atDistance_succ : AtDistance R start (n + 1) v ↔
    (∃ u, AtDistance R start n u ∧ R u v) ∧ ∀ m ≤ n, ¬AtDistance R start m v := by
  constructor
  · intro h
    obtain ⟨u, hReached, hLink⟩ := reached_succ.mp h.reached
    refine ⟨⟨u, ⟨hReached, ?_⟩, hLink⟩, ?_⟩
    · intro m hEarlier
      exact Nat.le_of_succ_le_succ (h.least (m + 1) (.link hEarlier hLink))
    · intro m hLe hAt
      have hLeast := h.least m hAt.reached
      omega
  · rintro ⟨⟨u, hAt, hLink⟩, hNew⟩
    refine ⟨.link hAt.reached hLink, ?_⟩
    intro m hReached
    by_contra hLt
    obtain ⟨k, hLe, hNearer⟩ := exists_atDistance hReached
    exact hNew k (by omega) hNearer

/-- Nothing lies beyond an empty distance. -/
theorem not_atDistance_of_le (h : ∀ v, ¬AtDistance R start n v) (hLe : n ≤ m) (v : α) :
    ¬AtDistance R start m v := by
  induction m, hLe using Nat.le_induction generalizing v with
  | base => exact h v
  | succ m hLe ih =>
      intro hAt
      obtain ⟨⟨u, hU, -⟩, -⟩ := atDistance_succ.mp hAt
      exact ih u hU

end Distance

section Firsts

variable {α γ : Type*} [DecidableEq α] (key : γ → α)

/-- The first entry of every new key in turn, at most `cap` of them. -/
def firsts : ℕ → Finset α → List γ → List γ
  | 0, _, _ => []
  | _ + 1, _, [] => []
  | cap + 1, seen, x :: xs =>
      if key x ∈ seen then firsts (cap + 1) seen xs
      else x :: firsts cap (insert (key x) seen) xs

variable {key} {cap : ℕ} {seen : Finset α} {xs : List γ}

theorem firsts_sublist (cap : ℕ) (seen : Finset α) (xs : List γ) :
    (firsts key cap seen xs).Sublist xs := by
  induction xs generalizing cap seen with
  | nil => cases cap <;> exact .slnil
  | cons x xs ih =>
      cases cap with
      | zero => exact List.nil_sublist _
      | succ cap =>
          rw [firsts]
          split_ifs with hSeen
          · exact (ih (cap + 1) seen).cons x
          · exact (ih cap (insert (key x) seen)).cons_cons x

end Firsts

section Sorted

variable {α γ : Type*} [LinearOrder α] [DecidableEq α] {key : γ → α}

/-- Of entries in the order of their keys, the keys of the first ones are the least of the new. -/
theorem map_firsts (cap : ℕ) (seen : Finset α) {xs : List γ}
    (h : (xs.map key).Pairwise (· ≤ ·)) :
    (firsts key cap seen xs).map key = ((xs.map key).toFinset \ seen).sort.take cap := by
  induction xs generalizing cap seen with
  | nil =>
      rw [List.map_nil, List.toFinset_nil, Finset.empty_sdiff, Finset.sort_empty, List.take_nil]
      cases cap <;> rfl
  | cons x xs ih =>
      rw [List.map_cons, List.pairwise_cons] at h
      cases cap with
      | zero => rfl
      | succ cap =>
          rw [firsts, List.map_cons, List.toFinset_cons]
          by_cases hSeen : key x ∈ seen
          · rw [if_pos hSeen, ih (cap + 1) seen h.2, Finset.insert_sdiff_of_mem _ hSeen]
          · have hRest : insert (key x) (xs.map key).toFinset \ seen =
                insert (key x) ((xs.map key).toFinset \ insert (key x) seen) := by
              ext v
              rw [Finset.mem_insert, Finset.mem_sdiff, Finset.mem_insert, Finset.mem_sdiff,
                Finset.mem_insert]
              by_cases hEq : v = key x
              · subst hEq
                simp [hSeen]
              · simp [hEq]
            have hFirst : ∀ v ∈ (xs.map key).toFinset \ insert (key x) seen, key x ≤ v := by
              intro v hMem
              exact h.1 v (List.mem_toFinset.mp (Finset.mem_sdiff.mp hMem).1)
            have hNew : key x ∉ (xs.map key).toFinset \ insert (key x) seen := by
              rw [Finset.mem_sdiff, not_and_not_right]
              exact fun _ => Finset.mem_insert_self _ _
            rw [if_neg hSeen, List.map_cons, ih cap (insert (key x) seen) h.2, hRest,
              Finset.sort_insert _ hFirst hNew, List.take_succ_cons]

end Sorted

section Levels

variable {α : Type*} [LinearOrder α] [DecidableEq α] (neighbours : α → Finset α) (cap : ℕ)

/-- The first of the new neighbours of a level. -/
def next (visited : Finset α) (frontier : List α) : List α :=
  (frontier.toFinset.biUnion neighbours \ visited).sort.take cap

/-- The levels that follow, until one is empty. -/
def levels : ℕ → Finset α → List α → List (List α)
  | 0, _, _ => []
  | n + 1, visited, frontier =>
      if frontier = [] then []
      else
        let level := next neighbours cap visited frontier
        level :: levels n (visited ∪ level.toFinset) level

variable {neighbours cap} {visited : Finset α} {frontier : List α} {n : ℕ} {v : α}

theorem mem_of_mem_next (h : v ∈ next neighbours cap visited frontier) :
    (∃ u ∈ frontier, v ∈ neighbours u) ∧ v ∉ visited := by
  have hMem := (Finset.mem_sort _).mp (List.mem_of_mem_take h)
  obtain ⟨hNeighbour, hNew⟩ := Finset.mem_sdiff.mp hMem
  obtain ⟨u, hU, hLink⟩ := Finset.mem_biUnion.mp hNeighbour
  exact ⟨⟨u, List.mem_toFinset.mp hU, hLink⟩, hNew⟩

theorem nodup_next (visited : Finset α) (frontier : List α) :
    (next neighbours cap visited frontier).Nodup :=
  (Finset.sort_nodup _ _).sublist (List.take_sublist cap _)

theorem length_next_le (visited : Finset α) (frontier : List α) :
    (next neighbours cap visited frontier).length ≤ cap :=
  List.length_take_le cap _

/-- A level that is not full has every new neighbour. -/
theorem mem_next_of_not_full (hCap : (next neighbours cap visited frontier).length < cap) :
    v ∈ next neighbours cap visited frontier ↔
      (∃ u ∈ frontier, v ∈ neighbours u) ∧ v ∉ visited := by
  refine ⟨mem_of_mem_next, ?_⟩
  rintro ⟨⟨u, hU, hLink⟩, hNew⟩
  rw [next, List.length_take, min_lt_iff] at hCap
  have hLength := hCap.resolve_left (lt_irrefl cap)
  rw [next, List.take_of_length_le hLength.le, Finset.mem_sort, Finset.mem_sdiff,
    Finset.mem_biUnion]
  exact ⟨⟨u, List.mem_toFinset.mpr hU, hLink⟩, hNew⟩

theorem levels_nil (n : ℕ) (visited : Finset α) : levels neighbours cap n visited [] = [] := by
  cases n <;> rfl

theorem length_levels_le (n : ℕ) (visited : Finset α) (frontier : List α) :
    (levels neighbours cap n visited frontier).length ≤ n := by
  induction n generalizing visited frontier with
  | zero => exact le_rfl
  | succ n ih =>
      rw [levels]
      split_ifs
      · exact Nat.zero_le _
      · exact Nat.succ_le_succ (ih _ _)

/-- Whatever the bound, nothing is found twice or found again. -/
theorem nodup_levels (n : ℕ) (visited : Finset α) (frontier : List α) :
    (levels neighbours cap n visited frontier).flatten.Nodup ∧
      ∀ v ∈ (levels neighbours cap n visited frontier).flatten, v ∉ visited := by
  induction n generalizing visited frontier with
  | zero => exact ⟨List.nodup_nil, List.forall_mem_nil _⟩
  | succ n ih =>
      rw [levels]
      split_ifs
      · exact ⟨List.nodup_nil, List.forall_mem_nil _⟩
      · obtain ⟨hNodup, hNew⟩ := ih (visited ∪ (next neighbours cap visited frontier).toFinset)
          (next neighbours cap visited frontier)
        have hApart : ∀ v ∈ (levels neighbours cap n
            (visited ∪ (next neighbours cap visited frontier).toFinset)
            (next neighbours cap visited frontier)).flatten,
            v ∉ visited ∧ v ∉ next neighbours cap visited frontier := by
          intro v hMem
          have hNot := hNew v hMem
          rw [Finset.mem_union, List.mem_toFinset, not_or] at hNot
          exact hNot
        rw [List.flatten_cons]
        constructor
        · refine List.nodup_append.mpr ⟨nodup_next visited frontier, hNodup, ?_⟩
          rintro a hA b hB rfl
          exact (hApart a hB).2 hA
        · intro v hMem
          rcases List.mem_append.mp hMem with hHere | hBelow
          · exact (mem_of_mem_next hHere).2
          · exact (hApart v hBelow).1

/-- While no level is full, each one is the first part of the elements at its distance. -/
theorem levels_eq_layer {start : α → Prop} {d k : ℕ}
    (hFrontier : ∀ v, v ∈ frontier ↔ AtDistance (fun u v => v ∈ neighbours u) start d v)
    (hVisited : ∀ v, v ∈ visited ↔
      ∃ m ≤ d, AtDistance (fun u v => v ∈ neighbours u) start m v)
    (hK : k < n) (hCap : ∀ j < k,
      ((levels neighbours cap n visited frontier).getD j []).length < cap) :
    ∃ layer : Finset α,
      (∀ v, v ∈ layer ↔ AtDistance (fun u v => v ∈ neighbours u) start (d + 1 + k) v) ∧
        (levels neighbours cap n visited frontier).getD k [] = layer.sort.take cap := by
  induction n generalizing visited frontier d k with
  | zero => exact absurd hK (Nat.not_lt_zero k)
  | succ n ih =>
      by_cases hEmpty : frontier = []
      · subst hEmpty
        have hNone (v : α) : ¬AtDistance (fun u v => v ∈ neighbours u) start d v := by
          rw [← hFrontier v]
          exact List.not_mem_nil
        refine ⟨∅, ?_, ?_⟩
        · intro v
          have hLe : d ≤ d + 1 + k := Nat.le_add_right_of_le d.le_succ
          have hFar := not_atDistance_of_le hNone hLe v
          simp [hFar]
        · rw [levels_nil, Finset.sort_empty, List.take_nil, List.getD_nil]
      · have hLayer (v : α) : v ∈ frontier.toFinset.biUnion neighbours \ visited ↔
            AtDistance (fun u v => v ∈ neighbours u) start (d + 1) v := by
          rw [Finset.mem_sdiff, Finset.mem_biUnion, hVisited, atDistance_succ]
          simp only [List.mem_toFinset, hFrontier, not_exists, not_and]
        rw [levels, if_neg hEmpty] at hCap ⊢
        dsimp only at hCap ⊢
        cases k with
        | zero => exact ⟨_, hLayer, rfl⟩
        | succ k =>
            have hFull : (next neighbours cap visited frontier).length < cap :=
              hCap 0 k.succ_pos
            have hNext (v : α) : v ∈ next neighbours cap visited frontier ↔
                AtDistance (fun u v => v ∈ neighbours u) start (d + 1) v := by
              rw [mem_next_of_not_full hFull, ← hLayer, Finset.mem_sdiff, Finset.mem_biUnion]
              simp only [List.mem_toFinset]
            have hSeen (v : α) :
                v ∈ visited ∪ (next neighbours cap visited frontier).toFinset ↔
                  ∃ m ≤ d + 1, AtDistance (fun u v => v ∈ neighbours u) start m v := by
              rw [Finset.mem_union, List.mem_toFinset, hNext, hVisited]
              constructor
              · rintro (⟨m, hLe, hAt⟩ | hAt)
                · exact ⟨m, hLe.trans d.le_succ, hAt⟩
                · exact ⟨d + 1, le_rfl, hAt⟩
              · rintro ⟨m, hLe, hAt⟩
                rcases Nat.le_succ_iff.mp hLe with hNearer | rfl
                · exact .inl ⟨m, hNearer, hAt⟩
                · exact .inr hAt
            have hBelow := ih hNext hSeen (Nat.lt_of_succ_lt_succ hK) (by
              intro j hJ
              exact hCap (j + 1) (Nat.succ_lt_succ hJ))
            rw [Nat.add_right_comm d 1 1, Nat.add_assoc (d + 1), Nat.add_comm 1 k,
              ← Nat.add_assoc] at hBelow
            exact hBelow

end Levels

end BreadthFirst
