import Mathlib.Data.List.AList
import Mathlib.Data.List.Sort

/-! A `dict` as a finite map, for programs in which the order of the keys has no
effect, with the loops that write and delete many keys at a time. -/
namespace PyDict

variable {κ ν : Type*}

abbrev Dict (κ ν : Type*) := AList fun _ : κ => ν

/-- `sorted(d)` has every key once, in the order of the keys. -/
theorem pairwise_sorted_keys [LinearOrder κ] (d : Dict κ ν) :
    (d.keys.insertionSort (· ≤ ·)).Pairwise (· < ·) := by
  have hNodup : (d.keys.insertionSort (· ≤ ·)).Nodup :=
    (List.perm_insertionSort (· ≤ ·) d.keys).nodup_iff.mpr d.keys_nodup
  exact (List.pairwise_insertionSort (· ≤ ·) d.keys).imp₂
    (fun a b hLe hNe => lt_of_le_of_ne hLe hNe) hNodup

variable [DecidableEq κ]

theorem lookup_insert (d : Dict κ ν) (key other : κ) (value : ν) :
    (d.insert key value).lookup other = if other = key then some value else d.lookup other := by
  by_cases h : other = key
  · subst h
    simp [AList.lookup_insert]
  · simp [h, AList.lookup_insert_ne]

theorem lookup_erase (d : Dict κ ν) (key other : κ) :
    (d.erase key).lookup other = if other = key then none else d.lookup other := by
  by_cases h : other = key
  · subst h
    simp [AList.lookup_erase]
  · simp [h, AList.lookup_erase_ne]

/-- The number of the keys, when it is known what they are. -/
theorem length_keys {d : Dict κ ν} {keys : List κ} (hNodup : keys.Nodup)
    (h : ∀ key, key ∈ keys ↔ (d.lookup key).isSome) : d.keys.length = keys.length := by
  have hPerm : d.keys.Perm keys := by
    apply (List.perm_ext_iff_of_nodup d.keys_nodup hNodup).mpr
    intro key
    rw [h, AList.lookup_isSome, AList.mem_keys]
  exact hPerm.length_eq

/-- The map with the value of one key replaced, where `none` deletes the key. -/
def update (d : Dict κ ν) (key : κ) (value : Option ν) : Dict κ ν :=
  match value with
  | none => d.erase key
  | some value => d.insert key value

theorem lookup_update (d : Dict κ ν) (key other : κ) (value : Option ν) :
    (update d key value).lookup other = if other = key then value else d.lookup other := by
  cases value with
  | none => exact lookup_erase d key other
  | some value => exact lookup_insert d key other value

/-- `for key in keys: d[key] = f(key, d.get(key))`, with a deletion where `f` has no
value. -/
def alterAll (f : κ → Option ν → Option ν) (keys : List κ) (d : Dict κ ν) : Dict κ ν :=
  keys.foldl (fun d key => update d key (f key (d.lookup key))) d

theorem lookup_alterAll_of_notMem {f : κ → Option ν → Option ν} {keys : List κ} {key : κ}
    (h : key ∉ keys) (d : Dict κ ν) : (alterAll f keys d).lookup key = d.lookup key := by
  induction keys generalizing d with
  | nil => rfl
  | cons first keys ih =>
      rw [List.mem_cons, not_or] at h
      have hRest := ih h.2 (update d first (f first (d.lookup first)))
      rwa [lookup_update, if_neg h.1] at hRest

/-- Each key is altered once, or altering it again has no effect. -/
theorem lookup_alterAll_of_mem {f : κ → Option ν → Option ν} {keys : List κ} {key : κ}
    (h : keys.Nodup ∨ ∀ value, f key (f key value) = f key value) (hMem : key ∈ keys)
    (d : Dict κ ν) : (alterAll f keys d).lookup key = f key (d.lookup key) := by
  induction keys generalizing d with
  | nil => cases hMem
  | cons first keys ih =>
      let next := update d first (f first (d.lookup first))
      show (alterAll f keys next).lookup key = f key (d.lookup key)
      have hNext : next.lookup key = if key = first then f first (d.lookup first)
          else d.lookup key := lookup_update _ _ _ _
      by_cases hFirst : key = first
      · subst hFirst
        rw [if_pos rfl] at hNext
        by_cases hLater : key ∈ keys
        · cases h with
          | inl hNodup => exact absurd hLater (List.nodup_cons.mp hNodup).1
          | inr hIdem => rw [ih (.inr hIdem) hLater, hNext, hIdem]
        · rw [lookup_alterAll_of_notMem hLater, hNext]
      · rw [if_neg hFirst] at hNext
        have hRest := (List.mem_cons.mp hMem).resolve_left hFirst
        rw [ih (h.imp_left fun hNodup => (List.nodup_cons.mp hNodup).2) hRest, hNext]

theorem lookup_alterAll {f : κ → Option ν → Option ν} {keys : List κ} (hNodup : keys.Nodup)
    (d : Dict κ ν) (key : κ) [Decidable (key ∈ keys)] :
    (alterAll f keys d).lookup key =
      if key ∈ keys then f key (d.lookup key) else d.lookup key := by
  split_ifs with hMem
  · exact lookup_alterAll_of_mem (.inl hNodup) hMem d
  · exact lookup_alterAll_of_notMem hMem d

/-- `for key in keys: d.pop(key, None)`. -/
def popAll (keys : List κ) (d : Dict κ ν) : Dict κ ν := alterAll (fun _ _ => none) keys d

theorem lookup_popAll_of_mem {keys : List κ} {key : κ} (h : key ∈ keys) (d : Dict κ ν) :
    (popAll keys d).lookup key = none :=
  lookup_alterAll_of_mem (.inr fun _ => rfl) h d

theorem lookup_popAll_of_notMem {keys : List κ} {key : κ} (h : key ∉ keys) (d : Dict κ ν) :
    (popAll keys d).lookup key = d.lookup key :=
  lookup_alterAll_of_notMem h d

theorem lookup_popAll (keys : List κ) (d : Dict κ ν) (key : κ) [Decidable (key ∈ keys)] :
    (popAll keys d).lookup key = if key ∈ keys then none else d.lookup key := by
  split_ifs with hMem
  · exact lookup_popAll_of_mem hMem d
  · exact lookup_popAll_of_notMem hMem d

/-- `[key for key, value in d.items() if p(value)]`. -/
def keysWhere (p : ν → Bool) (d : Dict κ ν) : List κ :=
  (d.entries.filter fun row => p row.2).map Sigma.fst

theorem lookup_popAll_keysWhere (p : ν → Bool) (d : Dict κ ν) (key : κ) :
    (popAll (keysWhere p d) d).lookup key = (d.lookup key).filter fun value => !p value := by
  have hKeys : key ∈ keysWhere p d ↔ ∃ value, d.lookup key = some value ∧ p value = true := by
    simp [keysWhere, ← AList.mem_lookup_iff]
  cases hLookup : d.lookup key with
  | none =>
      rw [lookup_popAll_of_notMem (by simp [hKeys, hLookup]), hLookup]
      rfl
  | some value =>
      cases hValue : p value with
      | true =>
          rw [lookup_popAll_of_mem (hKeys.mpr ⟨value, hLookup, hValue⟩)]
          simp [Option.filter, hValue]
      | false =>
          rw [lookup_popAll_of_notMem (by simp [hKeys, hLookup, hValue]), hLookup]
          simp [Option.filter, hValue]

/-- A loop that replaces the values of some keys by those of a table. -/
def readAll (table : κ → Option ν) (keys : List κ) (d : Dict κ ν) : Dict κ ν :=
  alterAll (fun key _ => table key) keys d

theorem lookup_readAll (table : κ → Option ν) (keys : List κ) (d : Dict κ ν) (key : κ)
    [Decidable (key ∈ keys)] :
    (readAll table keys d).lookup key = if key ∈ keys then table key else d.lookup key := by
  split_ifs with hMem
  · exact lookup_alterAll_of_mem (.inr fun _ => rfl) hMem d
  · exact lookup_alterAll_of_notMem hMem d

/-- `dict(a) == dict(b)`. -/
def same [DecidableEq ν] (a b : Dict κ ν) : Bool :=
  (a.keys ++ b.keys).all fun key => a.lookup key = b.lookup key

theorem same_iff [DecidableEq ν] {a b : Dict κ ν} :
    same a b = true ↔ ∀ key, a.lookup key = b.lookup key := by
  simp only [same, List.all_eq_true, List.mem_append, decide_eq_true_eq]
  constructor
  · intro h key
    by_cases hMem : key ∈ a.keys ∨ key ∈ b.keys
    · exact h key hMem
    · rw [not_or, ← AList.mem_keys, ← AList.mem_keys, ← AList.lookup_eq_none,
        ← AList.lookup_eq_none] at hMem
      rw [hMem.1, hMem.2]
  · intro h key _
    exact h key

/-- `for key, value in rows.items(): d[key] = f(d.get(key), value)`. -/
def mergeWith (f : Option ν → ν → ν) (d rows : Dict κ ν) : Dict κ ν :=
  rows.entries.foldl (fun d row => d.insert row.1 (f (d.lookup row.1) row.2)) d

theorem lookup_foldl_insert (f : Option ν → ν → ν) (rows : List (Sigma fun _ : κ => ν))
    (hNodup : rows.NodupKeys) (d : Dict κ ν) (key : κ) :
    (rows.foldl (fun d row => d.insert row.1 (f (d.lookup row.1) row.2)) d).lookup key =
      (rows.dlookup key).elim (d.lookup key) fun value => some (f (d.lookup key) value) := by
  induction rows generalizing d with
  | nil => rfl
  | cons row rows ih =>
      obtain ⟨first, value⟩ := row
      rw [List.nodupKeys_cons] at hNodup
      rw [List.foldl_cons, ih hNodup.2, lookup_insert]
      by_cases h : key = first
      · subst h
        rw [List.dlookup_eq_none.mpr hNodup.1, List.dlookup_cons_eq]
        simp
      · rw [if_neg h, List.dlookup_cons_ne _ _ h]

theorem lookup_mergeWith (f : Option ν → ν → ν) (d rows : Dict κ ν) (key : κ) :
    (mergeWith f d rows).lookup key =
      (rows.lookup key).elim (d.lookup key) fun value => some (f (d.lookup key) value) :=
  lookup_foldl_insert f rows.entries rows.nodupKeys d key

end PyDict
