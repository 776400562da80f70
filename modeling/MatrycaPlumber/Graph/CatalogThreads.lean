import MatrycaPlumber.Graph.MasterCatalog
import MatrycaPlumber.System.Transition

/-! Threads that share one catalog. A save holds the lock of the catalog while it
takes a snapshot and again while it writes the merged rows back; between the two it
holds the lock of the file only. -/
namespace Plumber.CatalogThreads

open PyText PyDict MasterCatalog

/-- A save that has taken its snapshot, with the rows it has written to the file.
`seen` counts the operations before the snapshot. -/
structure Save where
  replace : Bool
  pending : Rows
  removals : List Str
  mergedPages : Option Rows
  seen : Nat

/-- `ops` are all operations so far, and `since` of them came before the snapshot of
the save that has finished last. -/
structure Shared where
  catalog : Catalog
  diskPages : Rows
  saves : List Save
  ops : List (Str × Op)
  since : Nat

/-- A thread takes an atomic step, or another process replaces the file. -/
inductive Action where
  | upsert (pageTitle : Str) (entry : CatalogEntry)
  | remove (pageTitle : Str)
  | pruneMissingPages (liveTitles : List Str)
  | replaceFile (diskPages : Rows)
  | takeSnapshot (replace : Bool)
  | writeFile (i : Nat)
  | writeBack (i : Nat)
  | abort (i : Nat) (corrupt : Bool)

def initialShared (catalog : Catalog) (diskPages : Rows) : Shared where
  catalog := catalog
  diskPages := diskPages
  saves := []
  ops := []
  since := 0

/-- A save refuses to start on a catalog that could not be loaded. A file that cannot
be merged forbids the later saves. -/
def step (s : Shared) : Action → Option Shared
  | .upsert pageTitle entry =>
      some { s with
        catalog := s.catalog.upsert pageTitle entry
        ops := s.ops ++ [(pageTitle, .upsert entry)] }
  | .remove pageTitle =>
      some { s with
        catalog := s.catalog.remove pageTitle
        ops := s.ops ++ [(pageTitle, .remove)] }
  | .pruneMissingPages liveTitles =>
      some { s with
        catalog := (s.catalog.pruneMissingPages liveTitles).1
        ops := s.ops ++ (s.catalog.stale liveTitles).map fun title => (title, .remove) }
  | .replaceFile diskPages => some { s with diskPages := diskPages }
  | .takeSnapshot replace =>
      if s.catalog.persistAllowed then
        some { s with
          saves := s.saves ++
            [⟨replace, s.catalog.pages, s.catalog.pendingRemovals, none, s.ops.length⟩] }
      else none
  | .writeFile i =>
      match s.saves[i]? with
      | some ⟨replace, pending, removals, none, seen⟩ =>
          let mergedPages := savedRows replace s.diskPages pending removals
          some { s with
            diskPages := mergedPages
            saves := s.saves.set i ⟨replace, pending, removals, some mergedPages, seen⟩ }
      | some ⟨_, _, _, some _, _⟩ | none => none
  | .writeBack i =>
      match s.saves[i]? with
      | some ⟨_, _, _, some mergedPages, seen⟩ =>
          some { s with
            catalog := s.catalog.writeBack mergedPages
            saves := s.saves.eraseIdx i
            since := seen }
      | some ⟨_, _, _, none, _⟩ | none => none
  | .abort i corrupt =>
      some { s with
        catalog := { s.catalog with persistAllowed := s.catalog.persistAllowed && !corrupt }
        saves := s.saves.eraseIdx i }

def Present (c : Catalog) (title : Str) : Op → Prop
  | .upsert entry => c.pages.lookup title = some entry
  | .remove => title ∈ c.pendingRemovals

/-- What happened after the snapshot of the save that has finished last is still
present, unless a later operation on the same title overrode it. -/
def Kept (s : Shared) : Prop :=
  ∀ title op, lastOp (s.ops.drop s.since) title = some op → Present s.catalog title op

/-- A save writes back only if nothing was upserted or removed since its snapshot. -/
def NoneBetween (s : Shared) : Action → Prop
  | .writeBack i => ∀ save ∈ s.saves[i]?, save.seen = s.ops.length
  | .upsert _ _ | .remove _ | .pruneMissingPages _ | .replaceFile _ | .takeSnapshot _
  | .writeFile _ | .abort _ _ => True

instance (s : Shared) : (a : Action) → Decidable (NoneBetween s a)
  | .writeBack _ => Option.decidableForallMem _
  | .upsert _ _ | .remove _ | .pruneMissingPages _ | .replaceFile _ | .takeSnapshot _
  | .writeFile _ | .abort _ _ => .isTrue trivial

/-- An operation on one title is present, and what the others had is still there. -/
theorem Present.of_frame {c d : Catalog} {title : Str} {op : Op} (h : Present c title op)
    (hPages : d.pages.lookup title = c.pages.lookup title)
    (hRemovals : title ∈ c.pendingRemovals → title ∈ d.pendingRemovals) : Present d title op := by
  cases op with
  | upsert entry => exact hPages.trans h
  | remove => exact hRemovals h

structure Inv (s : Shared) : Prop where
  kept : Kept s
  since : s.since ≤ s.ops.length

/-- The rule for a step that adds operations: the new ones are present, and the titles
without a new one are as before. -/
theorem Inv.extend {s : Shared} (h : Inv s) {later : List (Str × Op)} {catalog : Catalog}
    (hNew : ∀ title op, lastOp later title = some op → Present catalog title op)
    (hFrame : ∀ title, lastOp later title = none →
      catalog.pages.lookup title = s.catalog.pages.lookup title ∧
        (title ∈ s.catalog.pendingRemovals → title ∈ catalog.pendingRemovals)) :
    Inv { s with catalog := catalog, ops := s.ops ++ later } where
  kept title op hLast := by
    rw [List.drop_append_of_le_length h.since, lastOp_append] at hLast
    cases hLater : lastOp later title with
    | some newer =>
        rw [hLater] at hLast
        obtain rfl := Option.some.inj hLast
        exact hNew title newer hLater
    | none =>
        rw [hLater] at hLast
        have hFrame := hFrame title hLater
        exact (h.kept title op hLast).of_frame hFrame.1 hFrame.2
  since := by
    have hSince := h.since
    simp only [List.length_append]
    omega

/-- Steps that change no row and add no operation. -/
theorem Inv.same {s t : Shared} (h : Inv s) (hPages : t.catalog.pages = s.catalog.pages)
    (hRemovals : t.catalog.pendingRemovals = s.catalog.pendingRemovals) (hOps : t.ops = s.ops)
    (hSince : t.since = s.since) : Inv t where
  kept title op hLast := by
    rw [hOps, hSince] at hLast
    apply (h.kept title op hLast).of_frame
    · rw [hPages]
    · rw [hRemovals]
      exact id
  since := by
    rw [hOps, hSince]
    exact h.since

theorem Inv.upsert {s : Shared} (h : Inv s) (pageTitle : Str) (entry : CatalogEntry) :
    Inv { s with
      catalog := s.catalog.upsert pageTitle entry
      ops := s.ops ++ [(pageTitle, .upsert entry)] } := by
  apply h.extend
  · intro title op hLast
    rw [lastOp_singleton] at hLast
    split_ifs at hLast with hTitle
    obtain rfl := Option.some.inj hLast
    simp [Present, Catalog.lookup_upsert, hTitle]
  · intro title hLast
    have hTitle : title ≠ pageTitle := by simpa [lastOp_singleton] using hLast
    simp [Catalog.lookup_upsert, Catalog.mem_pendingRemovals_upsert, hTitle]

theorem Inv.remove {s : Shared} (h : Inv s) (pageTitle : Str) :
    Inv { s with
      catalog := s.catalog.remove pageTitle
      ops := s.ops ++ [(pageTitle, .remove)] } := by
  apply h.extend
  · intro title op hLast
    rw [lastOp_singleton] at hLast
    split_ifs at hLast with hTitle
    obtain rfl := Option.some.inj hLast
    simp [Present, Catalog.mem_pendingRemovals_remove, hTitle]
  · intro title hLast
    have hTitle : title ≠ pageTitle := by simpa [lastOp_singleton] using hLast
    simp only [Catalog.lookup_remove, Catalog.mem_pendingRemovals_remove, if_neg hTitle]
    exact ⟨trivial, Or.inr⟩

theorem Inv.pruneMissingPages {s : Shared} (h : Inv s) (liveTitles : List Str) :
    Inv { s with
      catalog := (s.catalog.pruneMissingPages liveTitles).1
      ops := s.ops ++ (s.catalog.stale liveTitles).map fun title => (title, .remove) } := by
  apply h.extend
  · intro title op hLast
    rw [lastOp_removals] at hLast
    split_ifs at hLast with hStale
    obtain rfl := Option.some.inj hLast
    exact List.mem_append_left _ hStale
  · intro title hLast
    have hStale : title ∉ s.catalog.stale liveTitles := by simpa [lastOp_removals] using hLast
    exact ⟨lookup_popAll_of_notMem hStale _, List.mem_append_right _⟩

theorem Inv.step {s t : Shared} {a : Action} (h : Inv s) (hNone : NoneBetween s a)
    (hStep : step s a = some t) : Inv t := by
  cases a with
  | upsert pageTitle entry =>
      obtain rfl := Option.some.inj hStep
      exact h.upsert pageTitle entry
  | remove pageTitle =>
      obtain rfl := Option.some.inj hStep
      exact h.remove pageTitle
  | pruneMissingPages liveTitles =>
      obtain rfl := Option.some.inj hStep
      exact h.pruneMissingPages liveTitles
  | replaceFile diskPages =>
      obtain rfl := Option.some.inj hStep
      exact h.same rfl rfl rfl rfl
  | takeSnapshot replace =>
      simp only [CatalogThreads.step, Option.ite_none_right_eq_some, Option.some.injEq] at hStep
      obtain ⟨-, rfl⟩ := hStep
      exact h.same rfl rfl rfl rfl
  | writeFile i =>
      simp only [CatalogThreads.step] at hStep
      split at hStep
      · rename_i replace pending removals seen hGet
        obtain rfl := Option.some.inj hStep
        exact h.same rfl rfl rfl rfl
      · cases hStep
      · cases hStep
  | writeBack i =>
      simp only [CatalogThreads.step] at hStep
      split at hStep
      · rename_i replace pending removals mergedPages seen hGet
        obtain rfl := Option.some.inj hStep
        have hSeen : seen = s.ops.length := hNone _ hGet
        subst hSeen
        refine ⟨?_, le_rfl⟩
        intro title op hLast
        rw [List.drop_length] at hLast
        cases hLast
      · cases hStep
      · cases hStep
  | abort i corrupt =>
      obtain rfl := Option.some.inj hStep
      exact h.same rfl rfl rfl rfl

/-- A save keeps what came after its snapshot exactly where it is an upsert of the row
that the save writes: a removal is always forgotten. -/
theorem kept_writeBack {s t : Shared} {i : Nat} {save : Save} {mergedPages : Rows}
    (hGet : s.saves[i]? = some save) (hMerged : save.mergedPages = some mergedPages)
    (hStep : step s (.writeBack i) = some t) :
    Kept t ↔ ∀ title op, lastOp (s.ops.drop save.seen) title = some op →
      ∃ entry, op = .upsert entry ∧ mergedPages.lookup title = some entry := by
  obtain ⟨replace, pending, removals, merged, seen⟩ := save
  simp only at hMerged
  subst hMerged
  simp only [step, hGet, Option.some.injEq] at hStep
  subst hStep
  refine forall_congr' fun title => forall_congr' fun op => imp_congr_right fun hLast => ?_
  cases op with
  | upsert entry => simp [Present, Catalog.writeBack]
  | remove => simp [Present, Catalog.writeBack]

section Run

variable {catalog : Catalog} {diskPages : Rows} {s : Shared}

end Run

section Sample

def sampleTitle : Str := "A".toList

def sampleEntry : CatalogEntry := { summary := "a".toList, lastMtime := 10 ^ 18 }

end Sample

end Plumber.CatalogThreads
