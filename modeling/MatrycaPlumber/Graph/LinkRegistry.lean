import MatrycaPlumber.System.Dict
import MatrycaPlumber.Text.Basic

/-! The link registry: one row for each link of a block, kept in a JSON file that page
merges, purges and verification batches read and write under its lock. -/
namespace Plumber.LinkRegistry

open PyText PyDict

inductive LinkKind where
  | url
  | asset
  deriving DecidableEq

def LinkKind.text : LinkKind → Str
  | .url => "url".toList
  | .asset => "asset".toList

structure LinkRegistryEntry where
  kind : LinkKind
  target : Str
  pageRelpath : Str
  blockUuid : Str
  strikes : Int := 0
  lastStatus : Option Int := none
  lastCheckedAt : Option Str := none
  flagged : Bool := false
  deriving DecidableEq

def LinkRegistryEntry.registryKey (entry : LinkRegistryEntry) : Str :=
  entry.pageRelpath ++ '|' :: entry.blockUuid ++ '|' :: entry.kind.text ++ '|' :: entry.target

abbrev Registry := Dict Str LinkRegistryEntry

/-- `_load_registry_unlocked` drops the rows whose page key leads out of the graph. -/
def loadRegistryUnlocked (safePage : Str → Bool) (file : Registry) : Registry :=
  popAll (keysWhere (fun entry => !safePage entry.pageRelpath) file) file

/-- A link that was registered before keeps what is known of it. -/
def carryOver (prior : Option LinkRegistryEntry) (entry : LinkRegistryEntry) : LinkRegistryEntry :=
  match prior with
  | none => entry
  | some prior =>
      { entry with
        strikes := prior.strikes
        flagged := prior.flagged
        lastStatus := prior.lastStatus
        lastCheckedAt := prior.lastCheckedAt }

/-- The rows of a page that is registered without their links. -/
def staleKeys (pageRelpath : Str) (newEntries : List LinkRegistryEntry) (registry : Registry) :
    List Str :=
  (keysWhere (fun entry => entry.pageRelpath = pageRelpath) registry).filter
    (· ∉ newEntries.map LinkRegistryEntry.registryKey)

def upsertEntry (registry : Registry) (entry : LinkRegistryEntry) : Registry :=
  registry.insert entry.registryKey (carryOver (registry.lookup entry.registryKey) entry)

/-- The file after `merge_page_links_into_registry`, with the links of the page. -/
def mergePageLinks (safePage : Str → Bool) (pageRelpath : Str)
    (newEntries : List LinkRegistryEntry) (file : Registry) : Registry :=
  let registry := loadRegistryUnlocked safePage file
  newEntries.foldl upsertEntry (popAll (staleKeys pageRelpath newEntries registry) registry)

/-- The file after `_purge_registry_entries_for_page`, which leaves it as it is when the
page has no rows. -/
def purgePage (safePage : Str → Bool) (pageRelpath : Str) (file : Registry) : Registry :=
  let registry := loadRegistryUnlocked safePage file
  let stale := staleKeys pageRelpath [] registry
  if stale = [] then file else popAll stale registry

/-- The file after `_persist_checked_registry_updates`. -/
def persistCheckedUpdates (safePage : Str → Bool) (updates : Registry) (checkedKeys : List Str)
    (file : Registry) : Registry :=
  if checkedKeys = [] then file
  else
    let fresh := loadRegistryUnlocked safePage file
    readAll updates.lookup (checkedKeys.filter fun key => (updates.lookup key).isSome) fresh

section Rows

variable (safePage : Str → Bool) (file : Registry)

theorem lookup_loadRegistryUnlocked (key : Str) :
    (loadRegistryUnlocked safePage file).lookup key =
      (file.lookup key).filter fun entry => safePage entry.pageRelpath := by
  rw [loadRegistryUnlocked, lookup_popAll_keysWhere]
  simp only [Bool.not_not]

theorem lookup_upsertEntry (registry : Registry) (entry : LinkRegistryEntry) (key : Str) :
    (upsertEntry registry entry).lookup key =
      if key = entry.registryKey then some (carryOver (registry.lookup key) entry)
      else registry.lookup key := by
  rw [upsertEntry, lookup_insert]
  by_cases hKey : key = entry.registryKey
  · rw [if_pos hKey, if_pos hKey, hKey]
  · rw [if_neg hKey, if_neg hKey]

/-- A merge leaves the rows under other keys. -/
theorem lookup_foldl_upsertEntry_of_notMem {newEntries : List LinkRegistryEntry} {key : Str}
    (h : key ∉ newEntries.map LinkRegistryEntry.registryKey) (registry : Registry) :
    (newEntries.foldl upsertEntry registry).lookup key = registry.lookup key := by
  induction newEntries generalizing registry with
  | nil => rfl
  | cons entry newEntries ih =>
      rw [List.map_cons, List.mem_cons, not_or] at h
      rw [List.foldl_cons, ih h.2, lookup_upsertEntry, if_neg h.1]

/-- A stale row is gone after the merge. -/
theorem lookup_mergePageLinks_of_stale {pageRelpath : Str} {newEntries : List LinkRegistryEntry}
    {key : Str}
    (h : key ∈ staleKeys pageRelpath newEntries (loadRegistryUnlocked safePage file)) :
    (mergePageLinks safePage pageRelpath newEntries file).lookup key = none := by
  have hKey := of_decide_eq_true (List.mem_filter.mp h).2
  rw [mergePageLinks, lookup_foldl_upsertEntry_of_notMem hKey, lookup_popAll_of_mem h]

theorem lookup_mergePageLinks_of_none {pageRelpath : Str} {newEntries : List LinkRegistryEntry}
    {key : Str} (hKey : key ∉ newEntries.map LinkRegistryEntry.registryKey)
    (hNone : file.lookup key = none) :
    (mergePageLinks safePage pageRelpath newEntries file).lookup key = none := by
  have hLoad : (loadRegistryUnlocked safePage file).lookup key = none := by
    rw [lookup_loadRegistryUnlocked, hNone]
    rfl
  rw [mergePageLinks, lookup_foldl_upsertEntry_of_notMem hKey, lookup_popAll]
  split_ifs
  · rfl
  · exact hLoad

theorem lookup_purgePage_of_stale {pageRelpath key : Str}
    (h : key ∈ staleKeys pageRelpath [] (loadRegistryUnlocked safePage file)) :
    (purgePage safePage pageRelpath file).lookup key = none := by
  rw [purgePage, if_neg (List.ne_nil_of_mem h), lookup_popAll_of_mem h]

theorem lookup_purgePage_of_none {key : Str} (pageRelpath : Str) (hNone : file.lookup key = none) :
    (purgePage safePage pageRelpath file).lookup key = none := by
  have hLoad : (loadRegistryUnlocked safePage file).lookup key = none := by
    rw [lookup_loadRegistryUnlocked, hNone]
    rfl
  simp only [purgePage]
  split_ifs
  · exact hNone
  · rw [lookup_popAll]
    split_ifs
    · rfl
    · exact hLoad

/-- The row under a key after a batch has persisted. -/
theorem lookup_persistCheckedUpdates (updates : Registry) {checkedKeys : List Str}
    (hChecked : checkedKeys ≠ []) (key : Str) :
    (persistCheckedUpdates safePage updates checkedKeys file).lookup key =
      if key ∈ checkedKeys ∧ (updates.lookup key).isSome then updates.lookup key
      else (loadRegistryUnlocked safePage file).lookup key := by
  rw [persistCheckedUpdates, if_neg hChecked, lookup_readAll]
  simp only [List.mem_filter]

end Rows

end Plumber.LinkRegistry
