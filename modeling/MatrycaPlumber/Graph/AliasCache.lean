import Mathlib.Data.Char
import Mathlib.Data.List.Lex
import MatrycaPlumber.Graph.AliasPatch
import MatrycaPlumber.System.Transition

/-! Runs of the cached alias index. It is patched with the touched pages or purged of the
deleted ones, and a getter returns it as long as the times of the files are those of its
signature. -/
namespace Plumber.Alias

open PyText PyDict Generational FirstClaim

/-- `seen` are the files as the cached index has them. -/
structure AliasCache (π : Type) where
  files : Files π
  cached : Option (Signature π × AliasIndex π)
  seen : Files π

/-- A file is written or deleted, the cache is patched, purged, asked for, or given up
for that of another graph. -/
inductive Action (π : Type) where
  | touch (path : π) (file : Option SourceFile)
  | patch (changedPaths removedRels : List π)
  | gc
  | get
  | release

variable {π : Type} [LinearOrder π] (scan : Scan π)

def initialCache (files : Files π) : AliasCache π := ⟨files, none, files⟩

/-- The cached index, if its signature is that of the present files. -/
def AliasCache.hit (s : AliasCache π) : Option (AliasIndex π) :=
  match s.cached with
  | none => none
  | some (sig, idx) =>
      if same sig (signature s.files (iterAliasSourcePaths s.files)) then some idx else none

/-- `cached_build_alias_index` when no file changes during the call. -/
def AliasCache.get (s : AliasCache π) : AliasCache π :=
  match s.hit with
  | some _ => s
  | none =>
      { s with
        cached := some (signature s.files (iterAliasSourcePaths s.files),
          buildAliasIndex scan s.files)
        seen := s.files }

def step (s : AliasCache π) : Action π → Option (AliasCache π)
  | .touch path file => some { s with files := update s.files path file }
  | .patch changedPaths removedRels =>
      some { s with
        cached := s.cached.map (patchAliases scan s.files changedPaths removedRels)
        seen := readAll s.files.lookup changedPaths (popAll removedRels s.seen) }
  | .gc =>
      some { s with
        cached := s.cached.map (gcGenerationalAliasCache scan s.files)
        seen := s.files }
  | .get => some (s.get scan)
  | .release => some { s with cached := none }

/-- Every change of a content changes the time, also against what the index has seen. -/
def NewTimes (s : AliasCache π) : Action π → Prop
  | .touch path file => ∀ new ∈ file, ∀ old, s.files.lookup path = some old ∨
      s.seen.lookup path = some old → old.mtimeNs = new.mtimeNs → old.text = new.text
  | .patch _ _ | .gc | .get | .release => True

/-- The pages of a patch, one after the other, with what is read of them. -/
def TurnsKept (old : Reading π) : List (π × Option (List Str)) → Prop
  | [] => True
  | (path, new) :: turns => PathKept scan old path new ∧ TurnsKept (Function.update old path new) turns

def patchTurns (files : Files π) (changedPaths removedRels : List π) :
    List (π × Option (List Str)) :=
  removedRels.map (fun path => (path, none)) ++
    changedPaths.map fun path => (path, reading scan files path)

/-- Where the patches and purges of a cached index are rebuilds. -/
def OwnersKept (s : AliasCache π) : Action π → Prop
  | .patch changedPaths removedRels => s.cached ≠ none →
      TurnsKept scan (reading scan s.seen) (patchTurns scan s.files changedPaths removedRels)
  | .gc => s.cached ≠ none → GcKept scan (reading scan s.seen) (reading scan s.files)
      ((iterAliasSourcePaths s.files).map scan.pageTitle)
  | .touch _ _ | .get | .release => True

structure Inv (s : AliasCache π) : Prop where
  represents : ∀ sig idx, s.cached = some (sig, idx) → Represents scan idx (reading scan s.seen)
  signature : ∀ sig idx, s.cached = some (sig, idx) → ∀ path,
    sig.lookup path = mtimeNs s.seen path
  times : s.cached ≠ none → ∀ path old new, s.seen.lookup path = some old →
    s.files.lookup path = some new → old.mtimeNs = new.mtimeNs → old.text = new.text

section Turns

variable {scan} {old : Reading π}

def applyTurns (old : Reading π) (turns : List (π × Option (List Str))) : Reading π :=
  turns.foldl (fun old turn => Function.update old turn.1 turn.2) old

theorem applyTurns_map (table : π → Option (List Str)) (paths : List π) (old : Reading π)
    (path : π) : applyTurns old (paths.map fun path => (path, table path)) path =
      if path ∈ paths then table path else old path := by
  induction paths generalizing old with
  | nil => simp [applyTurns]
  | cons first paths ih =>
      have hRest := ih (Function.update old first (table first))
      rw [applyTurns] at hRest ⊢
      rw [List.map_cons, List.foldl_cons, hRest]
      by_cases hFirst : path = first
      · subst hFirst
        simp
      · simp [hFirst]

theorem turnsKept_append {turns later : List (π × Option (List Str))} :
    TurnsKept scan old (turns ++ later) ↔
      TurnsKept scan old turns ∧ TurnsKept scan (applyTurns old turns) later := by
  induction turns generalizing old with
  | nil => simp [TurnsKept, applyTurns]
  | cons turn turns ih =>
      simp only [List.cons_append, TurnsKept, ih, and_assoc]
      rfl

theorem finite_update (hFinite : {path | old path ≠ none}.Finite) (path : π)
    (new : Option (List Str)) : {other | Function.update old path new other ≠ none}.Finite := by
  apply (hFinite.insert path).subset
  intro other hOther
  by_cases hEq : other = path
  · exact .inl hEq
  · right
    simpa [hEq] using hOther

/-- A loop over pages that patches one at a time. -/
theorem Represents.foldl_patched {f : AliasIndex π → π → AliasIndex π}
    {table : π → Option (List Str)} (hStep : ∀ idx path, Patched scan idx (f idx path) path (table path))
    {idx : AliasIndex π} (h : Represents scan idx old) (hFinite : {path | old path ≠ none}.Finite)
    {paths : List π} (hKept : TurnsKept scan old (paths.map fun path => (path, table path))) :
    Represents scan (paths.foldl f idx) (applyTurns old (paths.map fun path => (path, table path))) ∧
      {path | applyTurns old (paths.map fun path => (path, table path)) path ≠ none}.Finite := by
  induction paths generalizing idx old with
  | nil => exact ⟨h, hFinite⟩
  | cons path paths ih =>
      exact ih (h.patched hFinite hKept.1 (hStep idx path)) (finite_update hFinite path _) hKept.2

end Turns

section Run

variable {scan} {s t : AliasCache π}

theorem reading_readAll (files seen : Files π) (changedPaths removedRels : List π) (path : π) :
    reading scan (readAll files.lookup changedPaths (popAll removedRels seen)) path =
      if path ∈ changedPaths then reading scan files path
      else if path ∈ removedRels then none else reading scan seen path := by
  simp only [reading, readText, lookup_readAll, lookup_popAll]
  split_ifs <;> rfl

theorem Inv.patch (h : Inv scan s) {changedPaths removedRels : List π}
    (hKept : OwnersKept scan s (.patch changedPaths removedRels)) :
    Inv scan { s with
      cached := s.cached.map (patchAliases scan s.files changedPaths removedRels)
      seen := readAll s.files.lookup changedPaths (popAll removedRels s.seen) } := by
  constructor
  · intro sig idx hCached
    obtain ⟨⟨oldSig, oldIdx⟩, hOld, hPatch⟩ := Option.map_eq_some_iff.mp hCached
    obtain ⟨-, rfl⟩ := Prod.mk.inj hPatch
    have hTurns := turnsKept_append.mp (hKept (by simp [hOld]))
    have hRemoved := (h.represents oldSig oldIdx hOld).foldl_patched
      (f := fun idx rel => removePageFromAliasIndex idx (scan.pageTitle rel))
      (fun idx path => patched_remove idx path) (reading_finite s.seen) hTurns.1
    have hChanged := hRemoved.1.foldl_patched (f := patchPath scan s.files)
      (patched_patchPath s.files) hRemoved.2 hTurns.2
    apply hChanged.1.congr
    intro path
    rw [reading_readAll, applyTurns_map, applyTurns_map]
  · intro sig idx hCached path
    obtain ⟨⟨oldSig, oldIdx⟩, hOld, hPatch⟩ := Option.map_eq_some_iff.mp hCached
    obtain ⟨rfl, -⟩ := Prod.mk.inj hPatch
    rw [lookup_patchSignature, h.signature oldSig oldIdx hOld]
    simp only [mtimeNs, lookup_readAll, lookup_popAll]
    split_ifs <;> rfl
  · intro hCached path old new hSeen hFile
    have hOld : s.cached ≠ none := fun hNone => hCached (by simp [hNone])
    simp only [lookup_readAll, lookup_popAll] at hSeen
    split_ifs at hSeen with hChanged
    · obtain rfl := Option.some.inj (hSeen.symm.trans hFile)
      exact fun _ => rfl
    · exact h.times hOld path old new hSeen hFile

theorem reading_of_missing {files : Files π} {path : π} (h : path ∉ files.keys) :
    reading scan files path = none := by
  rw [reading, readText, AList.lookup_eq_none.mpr (mt AList.mem_keys.mp h)]
  rfl

theorem signature_files (files : Files π) (path : π) :
    (signature files (iterAliasSourcePaths files)).lookup path = mtimeNs files path := by
  apply lookup_signature_of_mem
  intro hFile
  rwa [iterAliasSourcePaths, List.mem_insertionSort, ← AList.mem_keys, ← AList.lookup_isSome]

theorem live_of_reading (files : Files π) (path : π) (h : reading scan files path ≠ none) :
    scan.pageTitle path ∈ (iterAliasSourcePaths files).map scan.pageTitle := by
  apply List.mem_map_of_mem
  rw [iterAliasSourcePaths, List.mem_insertionSort]
  by_contra hMissing
  exact h (reading_of_missing hMissing)

theorem Inv.gc (h : Inv scan s) (hKept : OwnersKept scan s .gc) :
    Inv scan { s with
      cached := s.cached.map (gcGenerationalAliasCache scan s.files)
      seen := s.files } := by
  constructor
  · intro sig idx hCached
    obtain ⟨⟨oldSig, oldIdx⟩, hOld, hPurge⟩ := Option.map_eq_some_iff.mp hCached
    obtain ⟨-, rfl⟩ := Prod.mk.inj hPurge
    exact (h.represents oldSig oldIdx hOld).purge (reading_finite s.seen)
      (live_of_reading s.files) (hKept (by simp [hOld]))
  · intro sig idx hCached path
    obtain ⟨old, -, hPurge⟩ := Option.map_eq_some_iff.mp hCached
    obtain ⟨rfl, -⟩ := Prod.mk.inj hPurge
    exact signature_files s.files path
  · intro _ path old new hSeen hFile _
    rw [Option.some.inj (hSeen.symm.trans hFile)]

theorem Inv.get (h : Inv scan s) : Inv scan (s.get scan) := by
  rw [AliasCache.get]
  cases s.hit with
  | some idx => exact h
  | none =>
      constructor
      · intro sig idx hCached
        obtain ⟨-, rfl⟩ := Prod.mk.inj (Option.some.inj hCached)
        exact represents_build s.files
      · intro sig idx hCached path
        obtain ⟨rfl, -⟩ := Prod.mk.inj (Option.some.inj hCached)
        exact signature_files s.files path
      · intro _ path old new hSeen hFile _
        rw [Option.some.inj (hSeen.symm.trans hFile)]

theorem Inv.step {a : Action π} (h : Inv scan s) (hTimes : NewTimes s a)
    (hKept : OwnersKept scan s a) (hStep : step scan s a = some t) : Inv scan t := by
  cases a with
  | touch path file =>
      obtain rfl := Option.some.inj hStep
      refine ⟨h.represents, h.signature, ?_⟩
      intro hCached other old new hSeen hFile
      rw [lookup_update] at hFile
      split_ifs at hFile with hPath
      · subst hPath
        exact hTimes new hFile old (.inr hSeen)
      · exact h.times hCached other old new hSeen hFile
  | patch changedPaths removedRels =>
      obtain rfl := Option.some.inj hStep
      exact h.patch hKept
  | gc =>
      obtain rfl := Option.some.inj hStep
      exact h.gc hKept
  | get =>
      obtain rfl := Option.some.inj hStep
      exact h.get
  | release =>
      obtain rfl := Option.some.inj hStep
      refine ⟨?_, ?_, fun hCached => absurd rfl hCached⟩
      · intro sig idx hCached
        cases hCached
      · intro sig idx hCached
        cases hCached

/-- Files with the same times have the same contents, so a hit is right. -/
theorem Inv.hit (h : Inv scan s) {idx : AliasIndex π} (hHit : s.hit = some idx) :
    SameIndex idx (buildAliasIndex scan s.files) := by
  rw [AliasCache.hit] at hHit
  cases hCached : s.cached with
  | none =>
      rw [hCached] at hHit
      cases hHit
  | some cached =>
      obtain ⟨sig, cachedIdx⟩ := cached
      simp only [hCached, Option.ite_none_right_eq_some, Option.some.injEq] at hHit
      obtain ⟨hSame, rfl⟩ := hHit
      apply Represents.sameIndex _ (represents_build s.files)
      apply (h.represents sig cachedIdx hCached).congr
      intro path
      have hTime : mtimeNs s.seen path = mtimeNs s.files path := by
        rw [← h.signature sig cachedIdx hCached, same_iff.mp hSame, signature_files]
      have hText : readText s.seen path = readText s.files path := by
        cases hSeen : s.seen.lookup path with
        | none =>
            rw [readText_of_missing ((mtimeNs_eq_none s.seen path).mpr hSeen)]
            rw [(mtimeNs_eq_none s.seen path).mpr hSeen] at hTime
            rw [readText_of_missing hTime.symm]
        | some old =>
            cases hFile : s.files.lookup path with
            | none => simp [mtimeNs, hSeen, hFile] at hTime
            | some new =>
                have hEq : old.mtimeNs = new.mtimeNs := by
                  simpa [mtimeNs, hSeen, hFile] using hTime
                have hText := h.times (by simp [hCached]) path old new hSeen hFile hEq
                simp [readText, hSeen, hFile, hText]
      rw [reading, reading, hText]

/-- In every run whose changes of a content change the time and whose patches and purges
keep the owners, a hit has the maps of a rebuild from the present files. -/
theorem hit_eq_rebuild {files : Files π} {idx : AliasIndex π}
    (hRun : Transition.Run (step scan) (fun s a => NewTimes s a ∧ OwnersKept scan s a)
      (initialCache files) s)
    (hHit : s.hit = some idx) : SameIndex idx (buildAliasIndex scan s.files) := by
  have hInv : Inv scan s := by
    apply hRun.invariant
    · refine ⟨?_, ?_, fun hCached => absurd rfl hCached⟩
      · intro sig idx hCached
        cases hCached
      · intro sig idx hCached
        cases hCached
    · intro t a u hInv hMeets hStep
      exact hInv.step hMeets.1 hMeets.2 hStep
  exact hInv.hit hHit

end Run

section Sample

instance (s : AliasCache π) : (a : Action π) → Decidable (NewTimes s a)
  | .touch path file => decidable_of_iff (∀ new ∈ file,
      (∀ old ∈ s.files.lookup path, old.mtimeNs = new.mtimeNs → old.text = new.text) ∧
        ∀ old ∈ s.seen.lookup path, old.mtimeNs = new.mtimeNs → old.text = new.text) (by
      simp only [NewTimes, Option.mem_def, or_imp, forall_and])
  | .patch _ _ | .gc | .get | .release => .isTrue trivial

/-- One alias line in a file, whose stem is the title. -/
def sampleScan : Scan Str where
  pageTitle path := (path.drop 6).dropLast.dropLast.dropLast
  aliasSegments text := if text.take 8 = "alias:: ".toList then [text.drop 8] else []
  normalizeConceptKey := id

def pathA : Str := "pages/A.md".toList

def pathB : Str := "pages/B.md".toList

def sampleFile (time : Int) (text : String) : SourceFile := ⟨10 ^ 18 + time, some text.toList⟩

/-- Touches and getters need no owner to be kept. -/
def NoPatch : Action Str → Prop
  | .touch _ _ | .get | .release => True
  | .patch _ _ | .gc => False

instance : (a : Action Str) → Decidable (NoPatch a)
  | .touch _ _ | .get | .release => .isTrue trivial
  | .patch _ _ | .gc => .isFalse id

theorem ownersKept_of_noPatch {s : AliasCache Str} {a : Action Str} (h : NoPatch a) :
    OwnersKept sampleScan s a := by
  cases a with
  | touch path file => trivial
  | get => trivial
  | release => trivial
  | patch changedPaths removedRels => exact absurd h id
  | gc => exact absurd h id

/-- A page gets another alias while the index is warm. -/
theorem hit_eq_rebuild_new_alias :
    ∃ s : AliasCache Str, ∃ idx, Transition.Run (step sampleScan)
        (fun s a => NewTimes s a ∧ OwnersKept sampleScan s a) (initialCache ∅) s ∧
      s.hit = some idx ∧ idx.aliasToPage.lookup "y".toList = some "A".toList ∧
      SameIndex idx (buildAliasIndex sampleScan s.files) := by
  have hExec : (Transition.exec (step sampleScan) (fun s a => NewTimes s a ∧ NoPatch a)
      (initialCache ∅) [.touch pathA (some (sampleFile 0 "alias:: x")), .get,
        .touch pathA (some (sampleFile 1 "alias:: y"))]).map
        (fun s => (s.seen.keys, (step sampleScan s (.patch [pathA] [])).bind fun t =>
          t.hit.map fun idx => idx.aliasToPage.lookup "y".toList)) =
      some ([pathA], some (some "A".toList)) := by
    decide +kernel
  obtain ⟨s, hRun, hEnd⟩ := Option.map_eq_some_iff.mp hExec
  obtain ⟨hSeen, hPatched⟩ := Prod.mk.inj hEnd
  obtain ⟨t, hStep, hHit⟩ := Option.bind_eq_some_iff.mp hPatched
  obtain ⟨idx, hHit, hOwner⟩ := Option.map_eq_some_iff.mp hHit
  have hRun : Transition.Run (step sampleScan) (fun s a => NewTimes s a ∧ OwnersKept sampleScan s a)
      (initialCache ∅) s :=
    (Transition.Run.of_exec hRun).mono fun s a hMeets => ⟨hMeets.1, ownersKept_of_noPatch hMeets.2⟩
  have hUnseen : ∀ other, other ≠ pathA → reading sampleScan s.seen other = none := by
    intro other hNe
    apply reading_of_missing
    rw [hSeen, List.mem_singleton]
    exact hNe
  have hKept : OwnersKept sampleScan s (.patch [pathA] []) := by
    intro _
    refine ⟨pathKept_of_unshared ?_ ?_, trivial⟩
    · intro other hNe hRead
      exact absurd (hUnseen other hNe) hRead
    · intro key other hNe hClaims
      obtain ⟨segments, hRead, -⟩ := reading_of_mem_claimers hClaims
      rw [hUnseen other hNe] at hRead
      cases hRead
  have hTimes : NewTimes s (.patch [pathA] []) := trivial
  have hRun := hRun.tail ⟨hTimes, hKept⟩ hStep
  exact ⟨t, idx, hRun, hHit, hOwner, hit_eq_rebuild hRun hHit⟩

/-- Two pages claim an alias. When the first one gives it up, the patch leaves the alias
without an owner, and the second one does not get it. -/
theorem given_up_alias_is_lost :
    ¬∀ (scan : Scan Str) (files : Files Str) (s : AliasCache Str) (idx : AliasIndex Str),
      Transition.Run (step scan) NewTimes (initialCache files) s → s.hit = some idx →
        SameIndex idx (buildAliasIndex scan s.files) := by
  intro h
  have hExec : (Transition.exec (step sampleScan) NewTimes (initialCache ∅)
      [.touch pathA (some (sampleFile 0 "alias:: x")), .patch [pathA] [],
        .touch pathB (some (sampleFile 1 "alias:: x")), .patch [pathB] [], .get,
        .touch pathA (some (sampleFile 2 "")), .patch [pathA] []]).bind
        (fun s => s.hit.map fun idx => (idx.aliasToPage.lookup "x".toList,
          (buildAliasIndex sampleScan s.files).aliasToPage.lookup "x".toList)) =
      some (none, some "B".toList) := by
    decide +kernel
  obtain ⟨s, hRun, hEnd⟩ := Option.bind_eq_some_iff.mp hExec
  obtain ⟨idx, hHit, hOwners⟩ := Option.map_eq_some_iff.mp hEnd
  obtain ⟨hCached, hFresh⟩ := Prod.mk.inj hOwners
  have hSame := (h sampleScan ∅ s idx (Transition.Run.of_exec hRun) hHit).aliasToPage "x".toList
  rw [hCached, hFresh] at hSame
  cases hSame

end Sample

end Plumber.Alias
