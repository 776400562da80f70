import Mathlib.Algebra.GroupWithZero.Nat
import Mathlib.Algebra.BigOperators.Group.List.Basic
import Mathlib.Data.List.Nodup
import Mathlib.Data.Nat.Basic

/-! An `OrderedDict` of results, oldest use first, with a running total of their sizes.
Results are evicted from the front while there are too many of them or while the total
is over its bound. -/

structure OrderedCache (κ ν : Type*) where
  entries : List (κ × ν) := []
  total : Nat := 0
  evictions : Nat := 0

namespace OrderedCache

variable {κ ν : Type*}

section Operations

variable [DecidableEq κ]

def get (c : OrderedCache κ ν) (key : κ) : Option ν :=
  (c.entries.find? fun entry => entry.1 = key).map Prod.snd

/-- `c[key] = value` and `c.move_to_end(key)`. -/
def setLast (c : OrderedCache κ ν) (key : κ) (value : ν) : OrderedCache κ ν :=
  { c with entries := c.entries.filter (fun entry => entry.1 ≠ key) ++ [(key, value)] }

/-- `c.pop(key, None)`. -/
def pop (c : OrderedCache κ ν) (key : κ) : OrderedCache κ ν :=
  { c with entries := c.entries.filter fun entry => entry.1 ≠ key }

/-- A result that is found becomes the last one. -/
def moveToEnd (c : OrderedCache κ ν) (key : κ) : OrderedCache κ ν :=
  match c.get key with
  | none => c
  | some value => c.setLast key value

/-- `popitem(last=False)` as long as a bound is exceeded. -/
def evictOldest (size : ν → Nat) (maxEntries maxTotal : Nat) :
    List (κ × ν) → Nat → Nat → OrderedCache κ ν
  | [], total, evictions => ⟨[], total, evictions⟩
  | entry :: rest, total, evictions =>
      if maxEntries < rest.length + 1 ∨ maxTotal < total then
        evictOldest size maxEntries maxTotal rest (total - size entry.2) (evictions + 1)
      else ⟨entry :: rest, total, evictions⟩

/-- A new result is counted and stored last, and old ones make room for it. -/
def store (size : ν → Nat) (maxEntries maxTotal : Nat) (c : OrderedCache κ ν) (key : κ)
    (value : ν) : OrderedCache κ ν :=
  evictOldest size maxEntries maxTotal (c.setLast key value).entries (c.total + size value)
    c.evictions

end Operations

/-- `popitem(last=False)` as long as there are too many. -/
def trim (maxEntries : Nat) (c : OrderedCache κ ν) : OrderedCache κ ν :=
  { c with entries := c.entries.drop (c.entries.length - maxEntries) }

def sizes (size : ν → Nat) (entries : List (κ × ν)) : Nat :=
  (entries.map fun entry => size entry.2).sum

/-- The total is that of the results, both bounds hold, and no key is twice there. -/
structure Exact (size : ν → Nat) (maxEntries maxTotal : Nat) (c : OrderedCache κ ν) : Prop where
  nodup : (c.entries.map Prod.fst).Nodup
  total : c.total = sizes size c.entries
  entries_le : c.entries.length ≤ maxEntries
  total_le : c.total ≤ maxTotal

section Lemmas

variable {size : ν → Nat} {maxEntries maxTotal : Nat}

theorem exact_empty (evictions : Nat) :
    Exact size maxEntries maxTotal (⟨[], 0, evictions⟩ : OrderedCache κ ν) where
  nodup := List.nodup_nil
  total := rfl
  entries_le := Nat.zero_le _
  total_le := Nat.zero_le _

theorem mem_of_mem_trim {maxEntries : Nat} {c : OrderedCache κ ν} {entry : κ × ν}
    (h : entry ∈ (c.trim maxEntries).entries) : entry ∈ c.entries :=
  List.mem_of_mem_drop h

/-- An eviction leaves a suffix with its exact total, and the loop ends within both
bounds. -/
theorem evictOldest_spec (size : ν → Nat) (maxEntries maxTotal : Nat) {entries : List (κ × ν)}
    (h : (entries.map Prod.fst).Nodup) (evictions : Nat) :
    Exact size maxEntries maxTotal
      (evictOldest size maxEntries maxTotal entries (sizes size entries) evictions) ∧
    (evictOldest size maxEntries maxTotal entries (sizes size entries) evictions).entries <:+
      entries := by
  induction entries generalizing evictions with
  | nil => exact ⟨exact_empty evictions, List.suffix_rfl⟩
  | cons entry rest ih =>
      have hRest : sizes size (entry :: rest) - size entry.2 = sizes size rest := by
        simp [sizes]
      have ih := ih (List.nodup_cons.mp h).2 (evictions + 1)
      rw [evictOldest]
      split_ifs with hOver
      · rw [hRest]
        exact ⟨ih.1, ih.2.trans (List.suffix_cons entry rest)⟩
      · rw [not_or, Nat.not_lt, Nat.not_lt] at hOver
        exact ⟨⟨h, rfl, hOver.1, hOver.2⟩, List.suffix_rfl⟩

variable [DecidableEq κ]

theorem mem_of_get {c : OrderedCache κ ν} {key : κ} {value : ν} (h : c.get key = some value) :
    (key, value) ∈ c.entries := by
  obtain ⟨entry, hFind, rfl⟩ := Option.map_eq_some_iff.mp h
  have hKey : entry.1 = key := by simpa using List.find?_some hFind
  rw [← hKey]
  exact List.mem_of_find?_eq_some hFind

theorem filter_of_get_eq_none {c : OrderedCache κ ν} {key : κ} (h : c.get key = none) :
    c.entries.filter (fun entry => entry.1 ≠ key) = c.entries := by
  rw [get, Option.map_eq_none_iff, List.find?_eq_none] at h
  apply List.filter_eq_self.mpr
  intro entry hMem
  simpa using h entry hMem

theorem mem_pop {c : OrderedCache κ ν} {key : κ} {entry : κ × ν} :
    entry ∈ (c.pop key).entries ↔ entry ∈ c.entries ∧ entry.1 ≠ key := by
  simp [pop]

theorem mem_setLast_iff {c : OrderedCache κ ν} {key : κ} {value : ν} {entry : κ × ν} :
    entry ∈ (c.setLast key value).entries ↔
      entry ∈ (c.pop key).entries ∨ entry = (key, value) := by
  simp [setLast, pop]

theorem mem_setLast {c : OrderedCache κ ν} {key : κ} {value : ν} {entry : κ × ν}
    (h : entry ∈ (c.setLast key value).entries) : entry ∈ c.entries ∨ entry = (key, value) := by
  cases List.mem_append.mp h with
  | inl hOld => exact .inl (List.mem_of_mem_filter hOld)
  | inr hNew => exact .inr (List.mem_singleton.mp hNew)

theorem nodup_setLast {c : OrderedCache κ ν} (h : (c.entries.map Prod.fst).Nodup) (key : κ)
    (value : ν) : ((c.setLast key value).entries.map Prod.fst).Nodup := by
  rw [setLast, List.map_append, List.nodup_append]
  refine ⟨h.sublist (List.filter_sublist.map Prod.fst), List.nodup_singleton key, ?_⟩
  intro other hOther last hLast
  obtain ⟨entry, hEntry, rfl⟩ := List.mem_map.mp hOther
  obtain rfl : last = key := by simpa using hLast
  simpa using (List.mem_filter.mp hEntry).2

/-- A result that is there is only moved. -/
theorem perm_setLast {entries : List (κ × ν)} (h : (entries.map Prod.fst).Nodup) {key : κ}
    {value : ν} (hMem : (key, value) ∈ entries) :
    (entries.filter (fun entry => entry.1 ≠ key) ++ [(key, value)]).Perm entries := by
  obtain ⟨before, after, rfl⟩ := List.append_of_mem hMem
  have hOthers : ∀ entry ∈ before ++ after, entry.1 ≠ key := by
    rw [List.map_append, List.map_cons, List.nodup_middle, List.nodup_cons,
      ← List.map_append] at h
    intro entry hEntry hKey
    exact h.1 (List.mem_map.mpr ⟨entry, hEntry, hKey⟩)
  have hFilter : (before ++ (key, value) :: after).filter (fun entry => entry.1 ≠ key) =
      before ++ after := by
    rw [List.filter_append, List.filter_cons_of_neg (by simp), ← List.filter_append]
    apply List.filter_eq_self.mpr
    intro entry hEntry
    simpa using hOthers entry hEntry
  rw [hFilter]
  exact (List.perm_append_singleton _ _).trans List.perm_middle.symm

theorem Exact.moveToEnd {c : OrderedCache κ ν} (h : Exact size maxEntries maxTotal c) (key : κ) :
    Exact size maxEntries maxTotal (c.moveToEnd key) := by
  cases hGet : c.get key with
  | none => simpa only [OrderedCache.moveToEnd, hGet] using h
  | some value =>
      simp only [OrderedCache.moveToEnd, hGet]
      have hPerm := perm_setLast h.nodup (mem_of_get hGet)
      refine ⟨nodup_setLast h.nodup key value, ?_, ?_, h.total_le⟩
      · exact h.total.trans (hPerm.map _).sum_eq.symm
      · exact hPerm.length_eq.trans_le h.entries_le

theorem mem_moveToEnd {c : OrderedCache κ ν} {key : κ} {entry : κ × ν}
    (h : entry ∈ (c.moveToEnd key).entries) : entry ∈ c.entries := by
  cases hGet : c.get key with
  | none => simpa only [OrderedCache.moveToEnd, hGet] using h
  | some value =>
      simp only [OrderedCache.moveToEnd, hGet] at h
      cases mem_setLast h with
      | inl hOld => exact hOld
      | inr hNew =>
          subst hNew
          exact mem_of_get hGet

/-- The stored results are the old ones and the new one, and the counting is exact. -/
theorem Exact.store {c : OrderedCache κ ν} (h : Exact size maxEntries maxTotal c) {key : κ}
    (hNew : c.get key = none) (value : ν) :
    Exact size maxEntries maxTotal (c.store size maxEntries maxTotal key value) ∧
      ∀ entry ∈ (c.store size maxEntries maxTotal key value).entries,
        entry ∈ c.entries ∨ entry = (key, value) := by
  have hTotal : c.total + size value = sizes size (c.setLast key value).entries := by
    rw [setLast, filter_of_get_eq_none hNew, h.total]
    simp [sizes]
  have hSpec := evictOldest_spec size maxEntries maxTotal
    (nodup_setLast h.nodup key value) c.evictions
  rw [OrderedCache.store, hTotal]
  exact ⟨hSpec.1, fun entry hMem => mem_setLast (hSpec.2.mem hMem)⟩

end Lemmas

end OrderedCache
