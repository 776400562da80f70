import Mathlib.Data.List.Induction
import Mathlib.Data.List.Nodup

/-! A `dict` with its keys in the order in which they were first inserted. A value that
is replaced keeps its place. -/

structure InsertionDict (κ ν : Type*) where
  entries : List (κ × ν)
  nodup : (entries.map Prod.fst).Nodup

namespace InsertionDict

variable {κ ν : Type*}

def empty : InsertionDict κ ν := ⟨[], List.nodup_nil⟩

def keys (d : InsertionDict κ ν) : List κ := d.entries.map Prod.fst

@[simp] theorem keys_empty : (empty : InsertionDict κ ν).keys = [] := rfl

/-- `del d[key]` for every key of an entry with `p`. -/
def deleteWhere (p : κ × ν → Bool) (d : InsertionDict κ ν) : InsertionDict κ ν :=
  ⟨d.entries.filter fun entry => !p entry, (d.entries.filter_sublist.map Prod.fst).nodup d.nodup⟩

variable [DecidableEq κ]

def get? (d : InsertionDict κ ν) (key : κ) : Option ν :=
  (d.entries.find? fun entry => entry.1 = key).map Prod.snd

/-- The value of a key is replaced where it stands, and a new key comes last. -/
def putEntries (key : κ) (value : ν) : List (κ × ν) → List (κ × ν)
  | [] => [(key, value)]
  | entry :: rest =>
      if entry.1 = key then (key, value) :: rest else entry :: putEntries key value rest

theorem keys_putEntries (key : κ) (value : ν) (entries : List (κ × ν)) :
    (putEntries key value entries).map Prod.fst =
      if key ∈ entries.map Prod.fst then entries.map Prod.fst else entries.map Prod.fst ++ [key] := by
  induction entries with
  | nil => rfl
  | cons entry rest ih =>
      rw [putEntries]
      by_cases hKey : entry.1 = key
      · simp [hKey]
      · rw [if_neg hKey, List.map_cons, ih]
        simp only [List.map_cons, List.mem_cons, Ne.symm hKey, false_or]
        split_ifs <;> rfl

theorem nodup_putEntries (key : κ) (value : ν) {entries : List (κ × ν)}
    (h : (entries.map Prod.fst).Nodup) : ((putEntries key value entries).map Prod.fst).Nodup := by
  rw [keys_putEntries]
  split_ifs with hMem
  · exact h
  · exact List.nodup_append.mpr ⟨h, List.nodup_singleton key, fun a ha b hb hEq =>
      hMem (List.mem_singleton.mp hb ▸ hEq ▸ ha)⟩

/-- `d[key] = value`. -/
def put (d : InsertionDict κ ν) (key : κ) (value : ν) : InsertionDict κ ν :=
  ⟨putEntries key value d.entries, nodup_putEntries key value d.nodup⟩

theorem keys_put (d : InsertionDict κ ν) (key : κ) (value : ν) :
    (d.put key value).keys = if key ∈ d.keys then d.keys else d.keys ++ [key] :=
  keys_putEntries key value d.entries

theorem mem_keys_put {d : InsertionDict κ ν} {key other : κ} {value : ν} :
    other ∈ (d.put key value).keys ↔ other = key ∨ other ∈ d.keys := by
  rw [keys_put]
  split_ifs with hMem
  · exact ⟨.inr, fun h => h.elim (fun hEq => hEq ▸ hMem) id⟩
  · rw [List.mem_append, List.mem_singleton, or_comm]

theorem entries_put_of_notMem {d : InsertionDict κ ν} {key : κ} {value : ν} (h : key ∉ d.keys) :
    (d.put key value).entries = d.entries ++ [(key, value)] := by
  have hEntries (entries : List (κ × ν)) (h : key ∉ entries.map Prod.fst) :
      putEntries key value entries = entries ++ [(key, value)] := by
    induction entries with
    | nil => rfl
    | cons entry rest ih =>
        rw [List.map_cons, List.mem_cons, not_or] at h
        rw [putEntries, if_neg (Ne.symm h.1), ih h.2, List.cons_append]
  exact hEntries d.entries h

theorem length_put (d : InsertionDict κ ν) (key : κ) (value : ν) :
    (d.put key value).keys.length = d.keys.length + if key ∈ d.keys then 0 else 1 := by
  rw [keys_put]
  split_ifs <;> simp

/-- A key keeps its place. -/
theorem idxOf_put {d : InsertionDict κ ν} {other : κ} (h : other ∈ d.keys) (key : κ) (value : ν) :
    (d.put key value).keys.idxOf other = d.keys.idxOf other := by
  rw [keys_put]
  split_ifs
  · rfl
  · exact List.idxOf_append_of_mem h

theorem get?_eq_none {d : InsertionDict κ ν} {key : κ} : d.get? key = none ↔ key ∉ d.keys := by
  rw [get?, Option.map_eq_none_iff, List.find?_eq_none, keys, List.mem_map]
  simp only [decide_eq_true_eq, not_exists, not_and]

theorem mem_putEntries {key : κ} {value : ν} {entries : List (κ × ν)} {entry : κ × ν}
    (hNodup : (entries.map Prod.fst).Nodup) :
    entry ∈ putEntries key value entries ↔
      entry = (key, value) ∨ (entry ∈ entries ∧ entry.1 ≠ key) := by
  induction entries with
  | nil => simp [putEntries]
  | cons first rest ih =>
      rw [List.map_cons, List.nodup_cons] at hNodup
      have hFirst (hMem : entry ∈ rest) : entry.1 ≠ first.1 := fun hEq =>
        hNodup.1 (hEq ▸ List.mem_map_of_mem hMem)
      rw [putEntries]
      by_cases hKey : first.1 = key
      · subst hKey
        rw [if_pos rfl, List.mem_cons, List.mem_cons]
        apply or_congr_right
        constructor
        · exact fun hMem => ⟨.inr hMem, hFirst hMem⟩
        · rintro ⟨rfl | hMem, hNe⟩
          · exact absurd rfl hNe
          · exact hMem
      · rw [if_neg hKey, List.mem_cons, List.mem_cons, ih hNodup.2]
        constructor
        · rintro (rfl | rfl | h)
          · exact .inr ⟨.inl rfl, hKey⟩
          · exact .inl rfl
          · exact .inr ⟨.inr h.1, h.2⟩
        · rintro (rfl | ⟨rfl | hMem, hNe⟩)
          · exact .inr (.inl rfl)
          · exact .inl rfl
          · exact .inr (.inr ⟨hMem, hNe⟩)

theorem mem_put {d : InsertionDict κ ν} {key : κ} {value : ν} {entry : κ × ν} :
    entry ∈ (d.put key value).entries ↔
      entry = (key, value) ∨ (entry ∈ d.entries ∧ entry.1 ≠ key) :=
  mem_putEntries d.nodup

theorem get?_entries_perm {α : Type*} {entries : List (κ × List α)} (key : κ) (x : α) :
    ((putEntries key
      (((entries.find? fun entry => entry.1 = key).map Prod.snd).getD [] ++ [x]) entries).flatMap
        Prod.snd).Perm (entries.flatMap Prod.snd ++ [x]) := by
  induction entries with
  | nil => exact List.Perm.refl _
  | cons entry rest ih =>
      rw [putEntries]
      by_cases hKey : entry.1 = key
      · rw [if_pos hKey, List.find?_cons_of_pos (by simpa using hKey), List.flatMap_cons,
          List.flatMap_cons, List.append_assoc, List.append_assoc]
        exact (List.perm_append_comm).append_left entry.2
      · rw [if_neg hKey, List.find?_cons_of_neg (by simpa using hKey), List.flatMap_cons,
          List.flatMap_cons, List.append_assoc]
        exact ih.append_left entry.2

/-- `d[key].append(value)` for each pair, on an empty `defaultdict(list)`. -/
def collect {α : Type*} (pairs : List (κ × α)) : InsertionDict κ (List α) :=
  pairs.foldl (fun d pair => d.put pair.1 ((d.get? pair.1).getD [] ++ [pair.2])) empty

/-- Collecting values under their keys keeps every value once. -/
theorem collect_perm {α : Type*} (pairs : List (κ × α)) :
    ((collect pairs).entries.flatMap Prod.snd).Perm (pairs.map Prod.snd) := by
  induction pairs using List.reverseRecOn with
  | nil => exact List.Perm.refl _
  | append_singleton pairs pair ih =>
      rw [collect, List.foldl_append, List.map_append]
      exact (get?_entries_perm pair.1 pair.2).trans (ih.append_right _)

end InsertionDict
