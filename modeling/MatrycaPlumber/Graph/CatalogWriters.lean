import MatrycaPlumber.Graph.MasterCatalog
import MatrycaPlumber.System.Transition

/-! Catalogs of several processes over one file. Each is loaded from the file, changed
in memory, and saved under the lock of the file. -/
namespace Plumber.CatalogWriters

open PyText PyDict MasterCatalog

/-- A loaded catalog with the operations since its load or last save. -/
structure Writer where
  catalog : Catalog
  ops : List (Str × Op)

/-- `history` are the saved operations in the order of the saves. -/
structure Writers where
  diskPages : Rows
  writers : List Writer
  history : List (Str × Op)

inductive Action where
  | load
  | upsert (i : Nat) (pageTitle : Str) (entry : CatalogEntry)
  | remove (i : Nat) (pageTitle : Str)
  | pruneMissingPages (i : Nat) (liveTitles : List Str)
  | save (i : Nat) (replace : Bool)

def initialWriters (diskPages : Rows) : Writers where
  diskPages := diskPages
  writers := []
  history := []

def Writer.load (diskPages : Rows) : Writer := ⟨{ pages := diskPages }, []⟩

def Writer.upsert (w : Writer) (pageTitle : Str) (entry : CatalogEntry) : Writer :=
  ⟨w.catalog.upsert pageTitle entry, w.ops ++ [(pageTitle, .upsert entry)]⟩

def Writer.remove (w : Writer) (pageTitle : Str) : Writer :=
  ⟨w.catalog.remove pageTitle, w.ops ++ [(pageTitle, .remove)]⟩

def Writer.pruneMissingPages (w : Writer) (liveTitles : List Str) : Writer :=
  ⟨(w.catalog.pruneMissingPages liveTitles).1,
    w.ops ++ (w.catalog.stale liveTitles).map fun title => (title, .remove)⟩

/-- The rows that a save of the writer leaves in the file. -/
def Writer.saves (w : Writer) (replace : Bool) (diskPages : Rows) : Rows :=
  savedRows replace diskPages w.catalog.pages w.catalog.pendingRemovals

def Writers.update (s : Writers) (i : Nat) (f : Writer → Writer) : Option Writers :=
  s.writers[i]?.map fun w => { s with writers := s.writers.set i (f w) }

def step (s : Writers) : Action → Option Writers
  | .load => some { s with writers := s.writers ++ [Writer.load s.diskPages] }
  | .upsert i pageTitle entry => s.update i fun w => w.upsert pageTitle entry
  | .remove i pageTitle => s.update i fun w => w.remove pageTitle
  | .pruneMissingPages i liveTitles => s.update i fun w => w.pruneMissingPages liveTitles
  | .save i replace =>
      s.writers[i]?.map fun w =>
        let mergedPages := w.saves replace s.diskPages
        { diskPages := mergedPages
          writers := s.writers.set i ⟨w.catalog.writeBack mergedPages, []⟩
          history := s.history ++ w.ops }

/-- The saves merge; a save with `replace` writes the rows of one writer only. -/
def Merging (_ : Writers) : Action → Prop
  | .save _ replace => replace = false
  | .load | .upsert _ _ _ | .remove _ _ | .pruneMissingPages _ _ => True

instance (s : Writers) : (a : Action) → Decidable (Merging s a)
  | .save _ replace => inferInstanceAs (Decidable (replace = false))
  | .load | .upsert _ _ _ | .remove _ _ | .pruneMissingPages _ _ => .isTrue trivial

/-- What a merging save does to the file: a removed title is gone, an upserted row is
there unless the file has a newer one, and no other row of the file is lost or becomes
older. -/
structure SaveMerges (diskPages : Rows) (w : Writer) (mergedPages : Rows) : Prop where
  removed : ∀ title, lastOp w.ops title = some .remove → mergedPages.lookup title = none
  upserted : ∀ title entry, lastOp w.ops title = some (.upsert entry) →
    mergedPages.lookup title = some (mergeRow (diskPages.lookup title) entry)
  others : ∀ title row, lastOp w.ops title = none → diskPages.lookup title = some row →
    mergedPages.lookup title = some row ∨ ∃ newer, w.catalog.pages.lookup title = some newer ∧
      row.mtimeNs ≤ newer.mtimeNs ∧ mergedPages.lookup title = some newer

/-- A title that was upserted last has a row that is not older. -/
def NoneLost (s : Writers) : Prop :=
  ∀ title entry, lastOp s.history title = some (.upsert entry) →
    ∃ row, s.diskPages.lookup title = some row ∧ entry.mtimeNs ≤ row.mtimeNs

/-- Where the file has the last operation on every title. -/
def Reflects (s : Writers) : Prop :=
  ∀ title op, lastOp s.history title = some op →
    s.diskPages.lookup title = match op with
      | .upsert entry => some entry
      | .remove => none

/-- The operations of a writer are in its rows and pending removals. -/
structure Writer.Inv (w : Writer) : Prop where
  upserted : ∀ title entry, lastOp w.ops title = some (.upsert entry) →
    w.catalog.pages.lookup title = some entry
  removals : ∀ title, title ∈ w.catalog.pendingRemovals ↔ lastOp w.ops title = some .remove
  removed : ∀ title, lastOp w.ops title = some .remove → w.catalog.pages.lookup title = none

theorem Writer.Inv.load (diskPages : Rows) : (Writer.load diskPages).Inv where
  upserted title entry hLast := by cases hLast
  removals title := by simp [Writer.load, lastOp]
  removed title hLast := by cases hLast

/-- After a save, nothing is pending. -/
theorem Writer.Inv.writeBack (w : Writer) (mergedPages : Rows) :
    (Writer.mk (w.catalog.writeBack mergedPages) []).Inv where
  upserted title entry hLast := by cases hLast
  removals title := by simp [Catalog.writeBack, lastOp]
  removed title hLast := by cases hLast

theorem Writer.Inv.upsert {w : Writer} (h : w.Inv) (pageTitle : Str) (entry : CatalogEntry) :
    (w.upsert pageTitle entry).Inv := by
  have hOps : ∀ title, lastOp (w.upsert pageTitle entry).ops title =
      if title = pageTitle then some (.upsert entry) else lastOp w.ops title := by
    intro title
    rw [Writer.upsert, lastOp_append, lastOp_singleton]
    by_cases hTitle : title = pageTitle <;> simp [hTitle]
  constructor
  · intro title other hLast
    rw [hOps] at hLast
    rw [Writer.upsert, Catalog.lookup_upsert]
    split_ifs at hLast ⊢ with hTitle
    · cases hLast
      rfl
    · exact h.upserted title other hLast
  · intro title
    rw [hOps, Writer.upsert, Catalog.mem_pendingRemovals_upsert, h.removals]
    by_cases hTitle : title = pageTitle <;> simp [hTitle]
  · intro title hLast
    rw [hOps] at hLast
    rw [Writer.upsert, Catalog.lookup_upsert]
    split_ifs at hLast ⊢ with hTitle
    · cases hLast
    · exact h.removed title hLast

/-- The removal of one title, and of the stale ones. -/
theorem Writer.Inv.removeAll {w : Writer} (h : w.Inv) (titles : List Str) {catalog : Catalog}
    (hPages : ∀ title, catalog.pages.lookup title =
      if title ∈ titles then none else w.catalog.pages.lookup title)
    (hRemovals : ∀ title, title ∈ catalog.pendingRemovals ↔
      title ∈ titles ∨ title ∈ w.catalog.pendingRemovals) :
    (Writer.mk catalog (w.ops ++ titles.map fun title => (title, .remove))).Inv := by
  have hOps : ∀ title, lastOp (w.ops ++ titles.map fun title => (title, .remove)) title =
      if title ∈ titles then some .remove else lastOp w.ops title := by
    intro title
    rw [lastOp_append, lastOp_removals]
    by_cases hTitle : title ∈ titles <;> simp [hTitle]
  constructor
  · intro title entry hLast
    rw [hOps] at hLast
    rw [hPages]
    split_ifs at hLast ⊢ with hTitle
    · cases hLast
    · exact h.upserted title entry hLast
  · intro title
    rw [hOps, hRemovals, h.removals]
    by_cases hTitle : title ∈ titles <;> simp [hTitle]
  · intro title hLast
    rw [hOps] at hLast
    rw [hPages]
    split_ifs at hLast ⊢ with hTitle
    · rfl
    · exact h.removed title hLast

theorem Writer.Inv.remove {w : Writer} (h : w.Inv) (pageTitle : Str) :
    (w.remove pageTitle).Inv := by
  apply h.removeAll [pageTitle]
  · intro title
    simp [Catalog.lookup_remove]
  · intro title
    simp [Catalog.mem_pendingRemovals_remove]

theorem Writer.Inv.pruneMissingPages {w : Writer} (h : w.Inv) (liveTitles : List Str) :
    (w.pruneMissingPages liveTitles).Inv := by
  apply h.removeAll
  · exact Catalog.lookup_prune w.catalog liveTitles
  · intro title
    exact List.mem_append

theorem Writer.Inv.saveMerges {w : Writer} (h : w.Inv) (diskPages : Rows) :
    SaveMerges diskPages w (w.saves false diskPages) where
  removed title hLast := by
    rw [Writer.saves, savedRows, if_neg Bool.false_ne_true]
    exact lookup_popAll_of_mem ((h.removals title).mpr hLast) _
  upserted title entry hLast := by
    have hNotMem : title ∉ w.catalog.pendingRemovals := by
      rw [h.removals, hLast]
      simp
    rw [Writer.saves, savedRows, if_neg Bool.false_ne_true, lookup_popAll_of_notMem hNotMem,
      lookup_mergeCatalogPageDeltas, h.upserted title entry hLast]
    rfl
  others title row hLast hRow := by
    have hNotMem : title ∉ w.catalog.pendingRemovals := by
      rw [h.removals, hLast]
      simp
    rw [Writer.saves, savedRows, if_neg Bool.false_ne_true, lookup_popAll_of_notMem hNotMem,
      lookup_mergeCatalogPageDeltas, hRow]
    cases hOwn : w.catalog.pages.lookup title with
    | none => exact .inl rfl
    | some newer =>
        simp only [Option.elim_some, mergeRow]
        split_ifs with hLe
        · exact .inr ⟨newer, rfl, hLe, rfl⟩
        · exact .inl rfl

/-- A row that a merging save leaves for an upserted title is not older. -/
theorem SaveMerges.noneLost {s : Writers} {w : Writer} {mergedPages : Rows} (h : NoneLost s)
    (hMerges : SaveMerges s.diskPages w mergedPages) {title : Str} {entry : CatalogEntry}
    (hLast : lastOp (s.history ++ w.ops) title = some (.upsert entry)) :
    ∃ row, mergedPages.lookup title = some row ∧ entry.mtimeNs ≤ row.mtimeNs := by
  rw [lastOp_append] at hLast
  cases hOwn : lastOp w.ops title with
  | some op =>
      rw [hOwn] at hLast
      obtain rfl := Option.some.inj hLast
      refine ⟨_, hMerges.upserted title entry hOwn, ?_⟩
      exact le_mtimeNs_mergeRow _ entry
  | none =>
      rw [hOwn] at hLast
      obtain ⟨row, hRow, hLe⟩ := h title entry hLast
      cases hMerges.others title row hOwn hRow with
      | inl hSame => exact ⟨row, hSame, hLe⟩
      | inr hNewer =>
          obtain ⟨newer, -, hNewer, hMerged⟩ := hNewer
          exact ⟨newer, hMerged, hLe.trans hNewer⟩

structure Inv (s : Writers) : Prop where
  writers : ∀ w ∈ s.writers, w.Inv
  noneLost : NoneLost s

theorem Inv.update {s t : Writers} (h : Inv s) {i : Nat} {f : Writer → Writer}
    (hWriter : ∀ w, w.Inv → (f w).Inv) (hStep : s.update i f = some t) : Inv t := by
  obtain ⟨w, hGet, rfl⟩ := Option.map_eq_some_iff.mp hStep
  refine ⟨?_, h.noneLost⟩
  intro other hOther
  cases List.mem_or_eq_of_mem_set hOther with
  | inl hOld => exact h.writers other hOld
  | inr hNew =>
      subst hNew
      exact hWriter w (h.writers w (List.mem_of_getElem? hGet))

theorem Inv.step {s t : Writers} {a : Action} (h : Inv s) (hMerging : Merging s a)
    (hStep : step s a = some t) : Inv t := by
  cases a with
  | load =>
      obtain rfl := Option.some.inj hStep
      refine ⟨?_, h.noneLost⟩
      intro w hMem
      cases List.mem_append.mp hMem with
      | inl hOld => exact h.writers w hOld
      | inr hNew =>
          obtain rfl := List.mem_singleton.mp hNew
          exact .load s.diskPages
  | upsert i pageTitle entry => exact h.update (fun w hInv => hInv.upsert pageTitle entry) hStep
  | remove i pageTitle => exact h.update (fun w hInv => hInv.remove pageTitle) hStep
  | pruneMissingPages i liveTitles =>
      exact h.update (fun w hInv => hInv.pruneMissingPages liveTitles) hStep
  | save i replace =>
      obtain rfl : replace = false := hMerging
      obtain ⟨w, hGet, rfl⟩ := Option.map_eq_some_iff.mp hStep
      have hWriter := h.writers w (List.mem_of_getElem? hGet)
      constructor
      · intro other hOther
        cases List.mem_or_eq_of_mem_set hOther with
        | inl hOld => exact h.writers other hOld
        | inr hNew =>
            subst hNew
            exact .writeBack w _
      · intro title entry hLast
        exact (hWriter.saveMerges s.diskPages).noneLost h.noneLost hLast

theorem inv_of_run {diskPages : Rows} {s : Writers}
    (hRun : Transition.Run step Merging (initialWriters diskPages) s) : Inv s := by
  apply hRun.invariant
  · constructor
    · intro w hMem
      cases hMem
    · intro title entry hLast
      cases hLast
  · intro t a u hInv hMerging hStep
    exact hInv.step hMerging hStep

/-- For any number of writers over one file and every order of their steps, a save
removes what its writer removed, writes what it upserted unless the file has a newer
row, and loses no other row; so a title that was upserted last has a row that is not
older. -/
theorem saves_merge_by_mtime {diskPages : Rows} {s : Writers}
    (hRun : Transition.Run step Merging (initialWriters diskPages) s) :
    NoneLost s ∧ ∀ i w t, s.writers[i]? = some w → step s (.save i false) = some t →
      SaveMerges s.diskPages w t.diskPages := by
  have hInv := inv_of_run hRun
  refine ⟨hInv.noneLost, fun i w t hGet hStep => ?_⟩
  simp only [step, hGet, Option.map_some, Option.some.injEq] at hStep
  subst hStep
  exact (hInv.writers w (List.mem_of_getElem? hGet)).saveMerges s.diskPages

section Sample

def sampleTitle : Str := "A".toList

def oldEntry : CatalogEntry := { summary := "old".toList, lastMtime := 10 ^ 18 }

def newEntry : CatalogEntry := { summary := "new".toList, lastMtime := 2 * 10 ^ 18 }

/-- Two writers over an empty file, each with a row of the same title. -/
theorem saves_merge_by_mtime_two_writers :
    ∃ s, Transition.Run step Merging (initialWriters ∅) s ∧
      s.diskPages.lookup sampleTitle = some newEntry ∧ NoneLost s := by
  have hExec : (Transition.exec step Merging (initialWriters ∅)
      [.load, .load, .upsert 0 sampleTitle newEntry, .save 0 false, .upsert 1 sampleTitle oldEntry,
        .save 1 false]).map (fun s => s.diskPages.lookup sampleTitle) = some (some newEntry) := by
    decide +kernel
  obtain ⟨s, hRun, hEnd⟩ := Option.map_eq_some_iff.mp hExec
  have hRun := Transition.Run.of_exec hRun
  exact ⟨s, hRun, hEnd, (saves_merge_by_mtime hRun).1⟩

/-- The page is restored to an older state: its row is upserted and saved by the only
writer, and the file keeps the row of the newer state. -/
theorem older_upsert_is_not_saved :
    ¬∀ (diskPages : Rows) (s : Writers),
      Transition.Run step Merging (initialWriters diskPages) s → Reflects s := by
  intro h
  have hExec : (Transition.exec step Merging (initialWriters ((∅ : Rows).insert sampleTitle newEntry))
      [.load, .upsert 0 sampleTitle oldEntry, .save 0 false]).map
        (fun s => (lastOp s.history sampleTitle, s.diskPages.lookup sampleTitle)) =
      some (some (.upsert oldEntry), some newEntry) := by
    decide +kernel
  obtain ⟨s, hRun, hEnd⟩ := Option.map_eq_some_iff.mp hExec
  obtain ⟨hLast, hNew⟩ := Prod.mk.inj hEnd
  have hReflects := h _ s (Transition.Run.of_exec hRun) sampleTitle _ hLast
  rw [hNew] at hReflects
  revert hReflects
  decide +kernel

end Sample

end Plumber.CatalogWriters
