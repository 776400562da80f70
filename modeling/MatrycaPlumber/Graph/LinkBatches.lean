import MatrycaPlumber.Graph.LinkRegistry
import MatrycaPlumber.System.Transition

/-! A verification batch checks a copy of the link registry and merges the checked rows
back, while pages are merged into the file and purged from it. -/
namespace Plumber.LinkRegistry

open PyText PyDict Transition

/-- What a check of one link brings: the status of the target, the time, and what the
page writes return that clear and set the property of the block. -/
structure CheckResult where
  status : Option Int
  checkedAt : Str
  cleared : Bool
  marked : Bool

def urlCheckFailed (status : Option Int) : Bool := status.elim true (400 ≤ ·)

/-- `_recover_flagged_entry`. -/
def recoverFlaggedEntry (cleared : Bool) (entry : LinkRegistryEntry) : LinkRegistryEntry :=
  if !entry.flagged then { entry with strikes := 0 }
  else if cleared then { entry with strikes := 0, flagged := false }
  else entry

/-- The row after the body of the loop of `verify_registry_batch`. A missing asset has the
status 404 and one that is there 200. -/
def checkEntry (threshold : Int) (result : CheckResult) (entry : LinkRegistryEntry) :
    LinkRegistryEntry :=
  let seen := { entry with lastCheckedAt := some result.checkedAt, lastStatus := result.status }
  let counted :=
    if urlCheckFailed result.status then
      if entry.flagged then seen else { seen with strikes := seen.strikes + 1 }
    else recoverFlaggedEntry result.cleared seen
  if threshold ≤ counted.strikes ∧ !counted.flagged ∧ result.marked then
    { counted with flagged := true }
  else counted

/-- The keys of the rows of a batch: `order` is that of the registry, and rows that are
flagged come last. -/
def pendingKeys (entries : Registry) (order : List Str) (batchSize : Nat) : List Str :=
  let flagged (key : Str) : Bool := (entries.lookup key).any LinkRegistryEntry.flagged
  (order.filter (fun key => !flagged key) ++ order.filter flagged).take batchSize

/-- A batch after its load. `dropped` has the rows that merges and purges have removed
from the file since then, if no merge has brought them back. -/
structure Batch where
  entries : Registry
  pending : List Str
  checkedKeys : List Str := []
  dropped : List Str := []

structure System where
  file : Registry
  batch : Option Batch

/-- Each action holds the lock of the file or does not touch it. -/
inductive Action where
  | load (order : List Str) (batchSize : Nat)
  | check (result : CheckResult)
  | persist
  | abort
  | merge (pageRelpath : Str) (newEntries : List LinkRegistryEntry)
  | purge (pageRelpath : Str)

def initialSystem (file : Registry) : System where
  file := file
  batch := none

/-- The rows that a merge drops are added, and those that it writes are taken out. -/
def Batch.drop (b : Batch) (stale : List Str) (newEntries : List LinkRegistryEntry) : Batch :=
  { b with
    dropped := stale ++ b.dropped.filter (· ∉ newEntries.map LinkRegistryEntry.registryKey) }

variable (safePage : Str → Bool) (threshold : Int)

def step (s : System) : Action → Option System
  | .load order batchSize =>
      let entries := loadRegistryUnlocked safePage s.file
      if s.batch.isNone ∧ order.Perm entries.keys ∧ pendingKeys entries order batchSize ≠ [] then
        some { s with
          batch := some { entries := entries, pending := pendingKeys entries order batchSize } }
      else none
  | .check result =>
      match s.batch with
      | some ⟨entries, key :: pending, checkedKeys, dropped⟩ =>
          (entries.lookup key).map fun entry =>
            { s with
              batch := some
                ⟨entries.insert key (checkEntry threshold result entry), pending,
                  entry.registryKey :: checkedKeys, dropped⟩ }
      | _ => none
  | .persist =>
      match s.batch with
      | some ⟨entries, [], checkedKeys, _⟩ =>
          some ⟨persistCheckedUpdates safePage entries checkedKeys s.file, none⟩
      | _ => none
  | .abort => some { s with batch := none }
  | .merge pageRelpath newEntries =>
      let stale := staleKeys pageRelpath newEntries (loadRegistryUnlocked safePage s.file)
      some ⟨mergePageLinks safePage pageRelpath newEntries s.file,
        s.batch.map fun b => b.drop stale newEntries⟩
  | .purge pageRelpath =>
      let stale := staleKeys pageRelpath [] (loadRegistryUnlocked safePage s.file)
      some ⟨purgePage safePage pageRelpath s.file, s.batch.map fun b => b.drop stale []⟩

/-- The rows that the batch writes to the file. -/
def Batch.Writes (b : Batch) (key : Str) : Prop :=
  key ∈ b.checkedKeys ∧ (b.entries.lookup key).isSome
  deriving Decidable

/-- The dropped rows are not in the file, and a batch without rows left has checked one. -/
structure Invariant (s : System) : Prop where
  absent : ∀ b, s.batch = some b → ∀ key ∈ b.dropped, s.file.lookup key = none
  checked : ∀ b, s.batch = some b → b.pending = [] → b.checkedKeys ≠ []

variable {safePage threshold}

theorem invariant_initialSystem (file : Registry) : Invariant (initialSystem file) where
  absent _ hBatch := by cases hBatch
  checked _ hBatch := by cases hBatch

/-- A merge or a purge has the rows that it drops out of the file, and keeps out those
that were dropped before, unless it writes them. -/
theorem Invariant.drop {s : System} (h : Invariant s) {file : Registry} {stale : List Str}
    {newEntries : List LinkRegistryEntry}
    (hStale : ∀ key ∈ stale, file.lookup key = none)
    (hKept : ∀ key ∉ newEntries.map LinkRegistryEntry.registryKey,
      s.file.lookup key = none → file.lookup key = none) :
    Invariant ⟨file, s.batch.map fun b => b.drop stale newEntries⟩ := by
  constructor
  · intro b hBatch key hKey
    obtain ⟨prior, hPrior, rfl⟩ := Option.map_eq_some_iff.mp hBatch
    cases List.mem_append.mp hKey with
    | inl hNow => exact hStale key hNow
    | inr hBefore =>
        have hParts := List.mem_filter.mp hBefore
        exact hKept key (of_decide_eq_true hParts.2) (h.absent prior hPrior key hParts.1)
  · intro b hBatch hPending
    obtain ⟨prior, hPrior, rfl⟩ := Option.map_eq_some_iff.mp hBatch
    exact h.checked prior hPrior hPending

theorem Invariant.step {s t : System} {a : Action} (h : Invariant s)
    (hStep : step safePage threshold s a = some t) : Invariant t := by
  cases a with
  | load order batchSize =>
      simp only [LinkRegistry.step] at hStep
      split_ifs at hStep with hStart
      obtain rfl := Option.some.inj hStep
      constructor
      · intro b hBatch key hKey
        obtain rfl := Option.some.inj hBatch
        cases hKey
      · intro b hBatch hPending
        obtain rfl := Option.some.inj hBatch
        exact absurd hPending hStart.2.2
  | check result =>
      obtain ⟨file, _ | ⟨entries, _ | ⟨key, pending⟩, checkedKeys, dropped⟩⟩ := s
      · cases hStep
      · cases hStep
      · obtain ⟨entry, hEntry, rfl⟩ := Option.map_eq_some_iff.mp hStep
        constructor
        · intro b hBatch other hOther
          obtain rfl := Option.some.inj hBatch
          exact h.absent ⟨entries, key :: pending, checkedKeys, dropped⟩ rfl other hOther
        · intro b hBatch _
          obtain rfl := Option.some.inj hBatch
          exact List.cons_ne_nil _ _
  | persist =>
      obtain ⟨file, _ | ⟨entries, _ | ⟨key, pending⟩, checkedKeys, dropped⟩⟩ := s
      · cases hStep
      · obtain rfl := Option.some.inj hStep
        exact invariant_initialSystem _
      · cases hStep
  | abort =>
      obtain rfl := Option.some.inj hStep
      exact invariant_initialSystem _
  | merge pageRelpath newEntries =>
      obtain rfl := Option.some.inj hStep
      apply h.drop
      · intro key hKey
        exact lookup_mergePageLinks_of_stale safePage s.file hKey
      · intro key hKey hNone
        exact lookup_mergePageLinks_of_none safePage s.file hKey hNone
  | purge pageRelpath =>
      obtain rfl := Option.some.inj hStep
      apply h.drop
      · intro key hKey
        exact lookup_purgePage_of_stale safePage s.file hKey
      · intro key _ hNone
        exact lookup_purgePage_of_none safePage s.file pageRelpath hNone

theorem lookup_persist {s t : System} {b : Batch} (h : Invariant s) (hBatch : s.batch = some b)
    (hStep : step safePage threshold s .persist = some t) (key : Str) :
    t.file.lookup key =
      if b.Writes key then b.entries.lookup key
      else (loadRegistryUnlocked safePage s.file).lookup key := by
  obtain ⟨file, _ | ⟨entries, _ | ⟨first, pending⟩, checkedKeys, dropped⟩⟩ := s
  · cases hBatch
  · obtain rfl := Option.some.inj hBatch
    obtain rfl := Option.some.inj hStep
    have hRows := lookup_persistCheckedUpdates safePage file entries (h.checked _ rfl rfl) key
    rw [hRows]
    rfl
  · cases hStep

/-- After a batch has persisted, the dropped rows are absent and the rows that it did not
check are those of the file, exactly if the batch has checked none of the dropped rows. -/
theorem dropped_absent_iff {file : Registry} {s t : System} {b : Batch}
    (run : Run (step safePage threshold) (fun _ _ => True) (initialSystem file) s)
    (hBatch : s.batch = some b) (hStep : step safePage threshold s .persist = some t) :
    ((∀ key ∈ b.dropped, t.file.lookup key = none) ∧
      ∀ key ∉ b.checkedKeys,
        t.file.lookup key = (loadRegistryUnlocked safePage s.file).lookup key) ↔
    ∀ key ∈ b.dropped, ¬b.Writes key := by
  have hInvariant : Invariant s :=
    run.invariant (invariant_initialSystem file) fun _ _ _ h _ hStep => h.step hStep
  have hAfter := lookup_persist hInvariant hBatch hStep
  constructor
  · intro hBoth key hKey hWrites
    have hAbsent := hBoth.1 key hKey
    rw [hAfter, if_pos hWrites] at hAbsent
    have hSome := hWrites.2
    rw [hAbsent] at hSome
    cases hSome
  · intro hFree
    constructor
    · intro key hKey
      rw [hAfter, if_neg (hFree key hKey), lookup_loadRegistryUnlocked,
        hInvariant.absent b hBatch key hKey]
      rfl
    · intro key hKey
      rw [hAfter, if_neg fun hWrites => hKey hWrites.1]

section Samples

def sampleEntry (pageRelpath : Str) : LinkRegistryEntry where
  kind := .url
  target := "https://example.org".toList
  pageRelpath := pageRelpath
  blockUuid := "6ba7b810-9dad-41d1-80b4-00c04fd430c8".toList

def gardenEntry : LinkRegistryEntry := sampleEntry "pages/Garden.md".toList

def housesEntry : LinkRegistryEntry := sampleEntry "pages/Houses.md".toList

def sampleFile : Registry :=
  ((∅ : Registry).insert gardenEntry.registryKey gardenEntry).insert housesEntry.registryKey housesEntry

def sampleOrder : List Str := [gardenEntry.registryKey, housesEntry.registryKey]

def sampleResult : CheckResult := ⟨some 200, "2025-03-01".toList, true, true⟩

/-- A batch of one row, between whose load and check a page is purged: the state before it
persists, the batch, and the state after. -/
def purgedBatch (pageRelpath : Str) : Option (System × Batch × System) :=
  (exec (step (fun _ => true) 2) (fun _ _ => True) (initialSystem sampleFile)
    [.load sampleOrder 1, .purge pageRelpath, .check sampleResult]).bind fun s =>
      s.batch.bind fun b => (step (fun _ => true) 2 s .persist).map fun t => (s, b, t)

theorem run_purgedBatch {pageRelpath : Str} {s t : System} {b : Batch}
    (h : purgedBatch pageRelpath = some (s, b, t)) :
    Run (step (fun _ => true) 2) (fun _ _ => True) (initialSystem sampleFile) s ∧
      s.batch = some b ∧ step (fun _ => true) 2 s .persist = some t := by
  obtain ⟨s', hRun, h⟩ := Option.bind_eq_some_iff.mp h
  obtain ⟨b', hBatch, h⟩ := Option.bind_eq_some_iff.mp h
  obtain ⟨t', hStep, h⟩ := Option.map_eq_some_iff.mp h
  cases h
  exact ⟨Run.of_exec hRun, hBatch, hStep⟩

/-- The purged page is not the one whose row is checked. -/
theorem dropped_absent_iff_houses : ∃ s b t,
    purgedBatch housesEntry.pageRelpath = some (s, b, t) ∧ housesEntry.registryKey ∈ b.dropped ∧
      t.file.lookup housesEntry.registryKey = none := by
  have hSome : (purgedBatch housesEntry.pageRelpath).isSome := by decide +kernel
  obtain ⟨⟨s, b, t⟩, hs⟩ := Option.isSome_iff_exists.mp hSome
  have hRows : (purgedBatch housesEntry.pageRelpath).map (fun r => (r.2.1.dropped, r.2.1.checkedKeys)) =
      some ([housesEntry.registryKey], [gardenEntry.registryKey]) := by decide +kernel
  have hNe : housesEntry.registryKey ∉ [gardenEntry.registryKey] := by decide +kernel
  obtain ⟨hRun, hBatch, hStep⟩ := run_purgedBatch hs
  rw [hs, Option.map_some, Option.some.injEq, Prod.mk.injEq] at hRows
  have hMem : housesEntry.registryKey ∈ b.dropped := by
    rw [hRows.1]
    exact List.mem_cons_self
  have hFree : ∀ key ∈ b.dropped, ¬b.Writes key := by
    intro key hKey hWrites
    have hChecked := hWrites.1
    rw [hRows.2] at hChecked
    rw [hRows.1, List.mem_singleton] at hKey
    rw [hKey] at hChecked
    exact hNe hChecked
  exact ⟨s, b, t, hs, hMem, ((dropped_absent_iff hRun hBatch hStep).mpr hFree).1 _ hMem⟩

/-- The row of a purged page comes back with the batch that has checked it. -/
theorem purged_row_returns : ∃ s b t,
    Run (step (fun _ => true) 2) (fun _ _ => True) (initialSystem sampleFile) s ∧
      s.batch = some b ∧ step (fun _ => true) 2 s .persist = some t ∧
      gardenEntry.registryKey ∈ b.dropped ∧ t.file.lookup gardenEntry.registryKey ≠ none := by
  have hSome : (purgedBatch gardenEntry.pageRelpath).isSome := by decide +kernel
  obtain ⟨⟨s, b, t⟩, hs⟩ := Option.isSome_iff_exists.mp hSome
  have hRows : ∀ r ∈ purgedBatch gardenEntry.pageRelpath, gardenEntry.registryKey ∈ r.2.1.dropped ∧
      r.2.2.file.lookup gardenEntry.registryKey ≠ none := by decide +kernel
  obtain ⟨hRun, hBatch, hStep⟩ := run_purgedBatch hs
  exact ⟨s, b, t, hRun, hBatch, hStep, hRows _ hs⟩

end Samples

end Plumber.LinkRegistry
