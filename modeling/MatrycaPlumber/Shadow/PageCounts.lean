import Mathlib.Data.List.Dedup
import MatrycaPlumber.Shadow.SyncOrder
import MatrycaPlumber.System.Transition

/-! The counts that a rebuild writes beside the rows, and the health that is read off them
after rebuilds, syncs and deletions. -/
namespace Plumber.Shadow

open PyText PyDict Transition

/-- The database. An empty error is `none`, and `syncFailed` is the marker of a failed sync,
which only a rebuild removes. -/
structure ShadowDb where
  tables : Tables := {}
  lastFullSyncCompleted : Bool := false
  indexedPageCount : Option Nat := none
  sourcePageCount : Option Nat := none
  lastSyncError : Option SyncError := none
  syncFailed : Bool := false

def ShadowDb.pageCount (db : ShadowDb) : Nat := db.tables.pages.keys.length

def ShadowDb.quarantinedPageCount (db : ShadowDb) : Nat := db.tables.quarantined.keys.length

inductive ShadowHealthState where
  | disabled
  | bootstrapping
  | ready
  | stale
  | error
  deriving DecidableEq

def shadowMetaMatchesPageRows (indexed source : Option Nat) (actual quarantined : Nat) : Bool :=
  if indexed.any (· ≠ actual) then false else source.all (· = actual + quarantined)

/-- The health of a database that is there, in its present schema. -/
def resolveShadowHealth (enabled bootstrapping : Bool) (db : ShadowDb) : ShadowHealthState :=
  if !enabled then .disabled
  else if bootstrapping then .bootstrapping
  else if db.syncFailed then .error
  else if db.lastSyncError.isSome then .error
  else if db.lastFullSyncCompleted then
    if shadowMetaMatchesPageRows db.indexedPageCount db.sourcePageCount db.pageCount
        db.quarantinedPageCount then .ready
    else .stale
  else .stale

/-- `built` has the files of the last rebuild that was committed. -/
structure System where
  files : Files := ∅
  db : ShadowDb := {}
  built : Option Files := none

inductive Action where
  | edit (rel : Str) (file : Option SourceFile)
  | rebuild
  | sync (rel : Str)
  | delete (rel : Str)

variable (V : Vault)

/-- A rebuild writes the counts with the rows, or the error alone. A sync or a deletion
writes rows. -/
def step (s : System) : Action → Option System
  | .edit rel file => some { s with files := update s.files rel file }
  | .rebuild =>
      match V.rebuild s.files with
      | .ok (tables, indexed) =>
          some { s with
            db := ⟨tables, true, some indexed, some (V.sourcePaths s.files).length, none, false⟩
            built := some s.files }
      | .error error => some { s with db := { s.db with lastSyncError := some error } }
  | .sync rel =>
      match V.syncPage s.files rel s.db.tables with
      | .ok (tables, _) => some { s with db := { s.db with tables := tables } }
      | .error error =>
          some { s with db := { s.db with lastSyncError := some error, syncFailed := true } }
  | .delete rel =>
      let tables : Tables := ⟨deleteWhere (fun row => row.filePath = rel) s.db.tables.pages,
        s.db.tables.quarantined.erase rel⟩
      some { s with db := { s.db with tables := tables } }

/-- The action writes to the database and is committed. -/
def Commits (s : System) : Action → Prop
  | .edit _ _ => False
  | .rebuild => ∃ result, V.rebuild s.files = .ok result
  | .sync rel => ∃ result, V.syncPage s.files rel s.db.tables = .ok result
  | .delete _ => True

/-- The rows and the parked pages are those of a rebuild of the files. -/
def InLine (s : System) : Prop :=
  ∃ built indexed, V.rebuild s.files = .ok (built, indexed) ∧
    (∀ title, s.db.tables.pages.lookup title = built.pages.lookup title) ∧
      ∀ rel, (s.db.tables.quarantined.lookup rel).isSome = (built.quarantined.lookup rel).isSome

/-- The counts are those of the rows, and the database is ready. -/
structure CountsRight (s : System) : Prop where
  indexed : s.db.indexedPageCount = some s.db.pageCount
  source : s.db.sourcePageCount = some (s.db.pageCount + s.db.quarantinedPageCount)
  ready : resolveShadowHealth true false s.db = .ready

/-- The paths of the files that can be parsed. -/
def parsedPaths (files : Files) : List Str :=
  (V.sourcePaths files).filter fun rel => (V.row files rel).isSome

def unparsedPaths (files : Files) : List Str :=
  (V.sourcePaths files).filter fun rel => (V.row files rel).isNone

/-- The titles of the pages of the files that can be parsed. -/
def pageTitles (files : Files) : List Str := ((parsedPaths V files).map V.pageTitle).dedup

/-- No two parsed files have one title when they are all read. Afterwards no sync and no
rebuild has failed since the last rebuild, as many titles are parsed now as files were
then, and as many files cannot be parsed. -/
def CountsKept (s : System) : Action → Prop
  | .rebuild => ((parsedPaths V s.files).map V.pageTitle).Nodup
  | _ => s.db.syncFailed = false ∧ s.db.lastSyncError.isNone ∧ ∃ built, s.built = some built ∧
      (pageTitles V s.files).length = (parsedPaths V built).length ∧
        (unparsedPaths V s.files).length = (unparsedPaths V built).length

section Counts

variable {V} {s t : System} {files : Files} {rel title : Str}

theorem mem_parsedPaths : rel ∈ parsedPaths V files ↔ (V.row files rel).isSome := by
  rw [parsedPaths, List.mem_filter, and_iff_right_iff_imp]
  intro hRow
  obtain ⟨row, hSome⟩ := Option.isSome_iff_exists.mp hRow
  exact mem_sourcePaths.mpr (exists_of_row hSome)

theorem mem_pageTitles : title ∈ pageTitles V files ↔
    (V.lastRow files (V.sourcePaths files) title).isSome := by
  rw [pageTitles, List.mem_dedup, List.mem_map]
  constructor
  · rintro ⟨rel, hRel, rfl⟩
    obtain ⟨row, hRow⟩ := Option.isSome_iff_exists.mp (mem_parsedPaths.mp hRel)
    rw [Option.isSome_iff_ne_none]
    intro hNone
    exact lastRow_eq_none.mp hNone rel (mem_sourcePaths.mpr (exists_of_row hRow)) row hRow
      (filePath_of_row hRow).2
  · intro hSome
    obtain ⟨row, hLast⟩ := Option.isSome_iff_exists.mp hSome
    obtain ⟨_, hRow, hTitle⟩ := lastRow_eq_some hLast
    refine ⟨row.filePath, mem_parsedPaths.mpr (Option.isSome_iff_exists.mpr ⟨row, hRow⟩), ?_⟩
    rw [← (filePath_of_row hRow).2, hTitle]

/-- In line with the files, there is one row for each title of a parsed file. -/
theorem pageCount_of_inLine (h : InLine V s) :
    s.db.pageCount = (pageTitles V s.files).length := by
  obtain ⟨built, indexed, hBuilt, hSame, -⟩ := h
  have hNodup : (pageTitles V s.files).Nodup := List.nodup_dedup _
  apply length_keys hNodup
  intro title
  rw [mem_pageTitles, hSame, lookup_rebuild hBuilt]

theorem quarantinedPageCount_of_inLine (h : InLine V s) :
    s.db.quarantinedPageCount = (unparsedPaths V s.files).length := by
  obtain ⟨built, indexed, hBuilt, -, hSame⟩ := h
  have hNodup : (unparsedPaths V s.files).Nodup := (nodup_sourcePaths V s.files).filter _
  apply length_keys hNodup
  intro rel
  rw [hSame, quarantined_syncPages (nodup_sourcePaths V s.files) hBuilt, unparsedPaths,
    List.mem_filter]
  by_cases hMem : rel ∈ V.sourcePaths s.files
  · have hThere := Option.isSome_iff_ne_none.mpr (mem_sourcePaths.mp hMem)
    rw [if_pos hMem, hThere, Bool.true_and]
    simp [hMem]
  · rw [if_neg hMem, AList.lookup_empty]
    simp [hMem]

theorem indexed_rebuild {built : Tables} {indexed : Nat}
    (h : V.rebuild files = .ok (built, indexed)) : indexed = (parsedPaths V files).length := by
  obtain ⟨-, hIndexed, -⟩ := syncPages_eq_ok (nodup_sourcePaths V files) filed_empty h
  rw [hIndexed, List.countP_eq_length_filter]
  rfl

theorem length_sourcePaths (V : Vault) (files : Files) :
    (V.sourcePaths files).length =
      (parsedPaths V files).length + (unparsedPaths V files).length := by
  rw [parsedPaths, unparsedPaths, ← List.countP_eq_length_filter, ← List.countP_eq_length_filter,
    List.length_eq_countP_add_countP fun rel => (V.row files rel).isSome]
  congr 2
  funext rel
  cases V.row files rel <;> rfl

/-- The counts are those of the files of the last rebuild. -/
structure Counted (V : Vault) (s : System) : Prop where
  unbuilt : s.built = none → s.db.indexedPageCount = none
  built : ∀ files, s.built = some files → s.db.lastFullSyncCompleted = true ∧
    s.db.indexedPageCount = some (parsedPaths V files).length ∧
      s.db.sourcePageCount = some ((parsedPaths V files).length + (unparsedPaths V files).length)

theorem counted_empty : Counted V {} where
  unbuilt _ := rfl
  built _ h := by cases h

theorem Counted.step {a : Action} (h : Counted V s) (hStep : step V s a = some t) :
    Counted V t := by
  cases a with
  | edit rel file =>
      obtain rfl := Option.some.inj hStep
      exact ⟨h.unbuilt, h.built⟩
  | rebuild =>
      rw [Shadow.step] at hStep
      split at hStep
      · next tables indexed hBuilt =>
          obtain rfl := Option.some.inj hStep
          constructor
          · intro hNone
            cases hNone
          · intro files hFiles
            obtain rfl := Option.some.inj hFiles
            refine ⟨rfl, congrArg some (indexed_rebuild hBuilt), ?_⟩
            exact congrArg some (length_sourcePaths V s.files)
      · obtain rfl := Option.some.inj hStep
        exact ⟨h.unbuilt, h.built⟩
  | sync rel =>
      rw [Shadow.step] at hStep
      split at hStep
      · obtain rfl := Option.some.inj hStep
        exact ⟨h.unbuilt, h.built⟩
      · obtain rfl := Option.some.inj hStep
        exact ⟨h.unbuilt, h.built⟩
  | delete rel =>
      obtain rfl := Option.some.inj hStep
      exact ⟨h.unbuilt, h.built⟩

/-- With the counts of some files, a database in line with other files is right if no error
is left and the numbers agree. -/
theorem countsRight_iff (h : Counted V t) (hInLine : InLine V t) :
    CountsRight t ↔ t.db.syncFailed = false ∧ t.db.lastSyncError.isNone ∧
      ∃ built, t.built = some built ∧
        (pageTitles V t.files).length = (parsedPaths V built).length ∧
          (unparsedPaths V t.files).length = (unparsedPaths V built).length := by
  have hPages := pageCount_of_inLine hInLine
  have hQuarantined := quarantinedPageCount_of_inLine hInLine
  constructor
  · intro hRight
    have hReady := hRight.ready
    have hFailed : t.db.syncFailed = false := by
      cases hCase : t.db.syncFailed with
      | false => rfl
      | true => simp [resolveShadowHealth, hCase] at hReady
    have hError : t.db.lastSyncError.isNone := by
      cases hCase : t.db.lastSyncError with
      | none => rfl
      | some error => simp [resolveShadowHealth, hFailed, hCase] at hReady
    refine ⟨hFailed, hError, ?_⟩
    cases hBuilt : t.built with
    | none =>
        have hIndexed := hRight.indexed
        rw [h.unbuilt hBuilt] at hIndexed
        cases hIndexed
    | some built =>
        obtain ⟨_, hIndexed, hSource⟩ := h.built built hBuilt
        have hCount := Option.some.inj (hIndexed.symm.trans hRight.indexed)
        have hSum := Option.some.inj (hSource.symm.trans hRight.source)
        exact ⟨built, rfl, by omega, by omega⟩
  · rintro ⟨hFailed, hError, built, hBuilt, hTitles, hUnparsed⟩
    obtain ⟨hCompleted, hIndexed, hSource⟩ := h.built built hBuilt
    have hCount : t.db.indexedPageCount = some t.db.pageCount := by
      rw [hIndexed, hPages, hTitles]
    have hSum : t.db.sourcePageCount = some (t.db.pageCount + t.db.quarantinedPageCount) := by
      rw [hSource, hPages, hQuarantined, hTitles, hUnparsed]
    refine ⟨hCount, hSum, ?_⟩
    have hNoError : t.db.lastSyncError.isSome = false := by
      rw [← Option.not_isNone, hError]
      rfl
    simp [resolveShadowHealth, hFailed, hNoError, hCompleted, hCount, hSum,
      shadowMetaMatchesPageRows]

/-- After every committed rebuild, and after every committed sync or deletion that brings
the database in line with the files, the counts are right exactly if they were kept. -/
theorem countsRight_iff_countsKept {a : Action} (run : Run (step V) (fun _ _ => True) {} s)
    (hCommits : Commits V s a) (hStep : step V s a = some t) (hInLine : InLine V t) :
    CountsRight t ↔ CountsKept V s a := by
  have hCounted : Counted V s :=
    run.invariant counted_empty fun _ _ _ h _ hStep => h.step hStep
  rw [countsRight_iff (hCounted.step hStep) hInLine]
  cases a with
  | edit rel file => exact hCommits.elim
  | rebuild =>
      obtain ⟨⟨tables, indexed⟩, hBuilt⟩ := hCommits
      rw [step, hBuilt] at hStep
      obtain rfl := Option.some.inj hStep
      rw [CountsKept, pageTitles]
      constructor
      · rintro ⟨-, -, built, hFiles, hLength, -⟩
        obtain rfl := Option.some.inj hFiles
        have hSame : ((parsedPaths V s.files).map V.pageTitle).dedup =
            (parsedPaths V s.files).map V.pageTitle := by
          apply (List.dedup_sublist _).eq_of_length
          rw [List.length_map]
          exact hLength
        exact List.dedup_eq_self.mp hSame
      · intro hNodup
        refine ⟨rfl, rfl, s.files, rfl, ?_, rfl⟩
        rw [List.dedup_eq_self.mpr hNodup, List.length_map]
  | sync rel =>
      obtain ⟨⟨tables, present⟩, hSync⟩ := hCommits
      rw [step, hSync] at hStep
      obtain rfl := Option.some.inj hStep
      rfl
  | delete rel =>
      obtain rfl := Option.some.inj hStep
      rfl

end Counts

section Samples

/-- A sufficient condition for the graph of the samples to be in line. -/
def sameTables (s : System) : Bool :=
  match garden.rebuild s.files with
  | .ok (built, _) =>
      same s.db.tables.pages built.pages && s.db.tables.quarantined.keys = [] &&
        built.quarantined.keys = []
  | .error _ => false

theorem inLine_of_sameTables {s : System} (h : sameTables s) : InLine garden s := by
  rw [sameTables] at h
  split at h
  · next built indexed hBuilt =>
      simp only [Bool.and_eq_true, decide_eq_true_eq] at h
      refine ⟨built, indexed, hBuilt, same_iff.mp h.1.1, ?_⟩
      intro rel
      have hNone : ∀ d : Dict Str QuarantineRow, d.keys = [] → d.lookup rel = none := by
        intro d hKeys
        rw [AList.lookup_eq_none, AList.mem_keys, hKeys]
        exact List.not_mem_nil
      rw [hNone _ h.1.2, hNone _ h.2]
  · cases h

/-- A page that has no blocks. -/
def emptyPage : SourceFile := ⟨[], 1, 0⟩

def stepped (s : System) (a : Action) : System := (step garden s a).getD s

/-- The graph with one page. -/
def oneFile : System := stepped {} (.edit bedsPath (some emptyPage))

/-- A second page is created after the rebuild. -/
def twoFiles : System :=
  stepped (stepped oneFile .rebuild) (.edit pathsPath (some emptyPage))

theorem run_oneFile : Run (step garden) (fun _ _ => True) {} oneFile :=
  (Run.refl _).tail (a := .edit bedsPath (some emptyPage)) trivial rfl

theorem run_twoFiles : Run (step garden) (fun _ _ => True) {} twoFiles :=
  (run_oneFile.tail (a := .rebuild) trivial rfl).tail
    (a := .edit pathsPath (some emptyPage)) trivial rfl

theorem countsRight_iff_countsKept_beds : CountsRight (stepped oneFile .rebuild) := by
  have hInLine := inLine_of_sameTables (s := stepped oneFile .rebuild) (by decide +kernel)
  apply (countsRight_iff_countsKept run_oneFile (a := .rebuild) ⟨_, rfl⟩ rfl hInLine).mpr
  rw [CountsKept]
  decide +kernel

/-- A page that is created and synced leaves the counts behind. -/
theorem created_page_is_not_counted :
    ¬∀ (V : Vault) (s t : System) (a : Action), Run (step V) (fun _ _ => True) {} s →
      Commits V s a → step V s a = some t → InLine V t → CountsRight t := by
  intro h
  have hInLine := inLine_of_sameTables (s := stepped twoFiles (.sync pathsPath))
    (by decide +kernel)
  have hRight := h garden twoFiles (stepped twoFiles (.sync pathsPath)) (.sync pathsPath)
    run_twoFiles ⟨_, rfl⟩ rfl hInLine
  have hCounts : (stepped twoFiles (.sync pathsPath)).db.indexedPageCount = some 1 ∧
      (stepped twoFiles (.sync pathsPath)).db.pageCount = 2 := by decide +kernel
  have hIndexed := hRight.indexed
  rw [hCounts.1, hCounts.2] at hIndexed
  cases hIndexed

end Samples

end Plumber.Shadow
