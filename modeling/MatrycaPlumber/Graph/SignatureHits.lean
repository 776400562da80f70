import MatrycaPlumber.Graph.CacheSteps

/-! A hit of a cached getter returns a structure that was built from the texts the files
have at its signature, as long as no write falls between the read of a path and the stat
that dates it. -/
namespace Plumber.Generational

open PyText PyDict

variable {π D : Type} [LinearOrder π]

/-- The structure was built by one scan and patched page by page, and these are the texts
that were read last. -/
inductive BuiltFrom (K : Kind π D) : D → (π → Option Str) → Prop where
  | build {read : List (π × Option Str)} (hNodup : (read.map Prod.fst).Nodup) :
      BuiltFrom K (K.build read) (textRead read)
  | clear {value : D} {texts : π → Option Str} (prior : BuiltFrom K value texts) :
      BuiltFrom K (K.clear value) texts
  | replacePage {value : D} {texts : π → Option Str} (prior : BuiltFrom K value texts) (path : π)
      (text : Option Str) :
      BuiltFrom K (K.replacePage value path text) (Function.update texts path text)

theorem BuiltFrom.congr {K : Kind π D} {value : D} {texts other : π → Option Str}
    (h : BuiltFrom K value texts) (hSame : ∀ path, texts path = other path) :
    BuiltFrom K value other := by
  rwa [← funext hSame]

section Versions

omit [LinearOrder π]

/-- A file that has been at the path, or none. -/
def Version (versions : List (π × SourceFile)) (path : π) (file : Option SourceFile) : Prop :=
  ∀ version ∈ file, (path, version) ∈ versions

/-- The path had this text at this time. -/
def Dated (versions : List (π × SourceFile)) (path : π) (time : Option Int)
    (text : Option Str) : Prop :=
  ∃ file, Version versions path file ∧ file.map SourceFile.mtimeNs = time ∧
    file.bind SourceFile.text = text

/-- The time of a file tells its text. -/
def TimesTellTexts (versions : List (π × SourceFile)) : Prop :=
  ∀ path old new, (path, old) ∈ versions → (path, new) ∈ versions →
    old.mtimeNs = new.mtimeNs → old.text = new.text

variable {files : Files π} {versions : List (π × SourceFile)} {path : π}

theorem dated_missing : Dated versions path none none :=
  ⟨none, fun version hVersion => (by cases hVersion), rfl, rfl⟩

theorem Dated.text_eq {time : Option Int} {text other : Option Str}
    (h : Dated versions path time text) (h' : Dated versions path time other)
    (hTells : TimesTellTexts versions) : text = other := by
  obtain ⟨old, hOld, hTime, rfl⟩ := h
  obtain ⟨new, hNew, hSame, rfl⟩ := h'
  rw [← hSame] at hTime
  cases old with
  | none =>
      cases new with
      | none => rfl
      | some new => cases hTime
  | some old =>
      cases new with
      | none => cases hTime
      | some new => exact hTells path old new (hOld old rfl) (hNew new rfl) (Option.some.inj hTime)

variable [LinearOrder π]

theorem dated_current (h : Version versions path (files.lookup path)) :
    Dated versions path (mtimeNs files path) (readText files path) :=
  ⟨files.lookup path, h, rfl, rfl⟩

omit [LinearOrder π] in
theorem Dated.append {time : Option Int} {text : Option Str} (h : Dated versions path time text)
    (new : List (π × SourceFile)) : Dated (new ++ versions) path time text := by
  obtain ⟨file, hVersion, hTime, hText⟩ := h
  exact ⟨file, fun version hFile => List.mem_append_right new (hVersion version hFile), hTime, hText⟩

theorem mtimeNs_update (file : Option SourceFile) (other : π) :
    mtimeNs (update files path file) other =
      if other = path then file.map SourceFile.mtimeNs else mtimeNs files other := by
  rw [mtimeNs, lookup_update]
  split_ifs <;> rfl

theorem readText_update (file : Option SourceFile) (other : π) :
    readText (update files path file) other =
      if other = path then file.bind SourceFile.text else readText files other := by
  rw [readText, lookup_update]
  split_ifs <;> rfl

theorem mem_sourcePaths {K : Kind π D} : path ∈ sourcePaths K files ↔
    (files.lookup path).isSome ∧ K.scannable path = true := by
  rw [sourcePaths, List.mem_insertionSort, List.mem_filter, ← AList.mem_keys, AList.lookup_isSome]

theorem nodup_sourcePaths (K : Kind π D) (files : Files π) : (sourcePaths K files).Nodup :=
  (List.perm_insertionSort _ _).nodup_iff.mpr (files.keys_nodup.filter _)

end Versions

section Invariant

variable (K : Kind π D)

/-- The texts of a patch: those that it read are still there, and the others are dated by
the signature, or gone. -/
def PatchedFrom (files : Files π) (versions : List (π × SourceFile)) (sig : Signature π)
    (changedPaths removedRels rest : List π) (read : List (π × Option Str)) (value : D) : Prop :=
  ∃ texts, BuiltFrom K value texts ∧ ∀ path,
    (path ∈ changedPaths ↔ path ∈ rest ∨ read.lookup path ≠ none) ∧
    (∀ text ∈ read.lookup path, texts path = text ∧ (path ∉ rest → readText files path = text)) ∧
    (read.lookup path = none → if path ∈ removedRels then texts path = none
      else Dated versions path (sig.lookup path) (texts path))

def PhaseInv (files : Files π) (versions : List (π × SourceFile)) (moment : Files π) :
    Phase π D → Prop
  | .idle => True
  | .statBefore _ _ rest sig => ∀ path,
      (path ∈ rest ∨ sig.lookup path ≠ none → K.scannable path = true) ∧
      sig.lookup path = mtimeNs moment path ∧ Version versions path (moment.lookup path)
  | .buildReads _ true before rest read =>
      (read.map Prod.fst ++ rest).Nodup ∧
      (∀ path ∈ read.map Prod.fst ++ rest, K.scannable path = true) ∧
      ∀ path ∉ rest, mtimeNs files path = before.lookup path →
        readText files path = textRead read path
  | .buildReads _ false _ _ _ => True
  | .statAfter _ before read rest sig =>
      (read.map Prod.fst).Nodup ∧ ∀ path,
        (path ∈ rest → mtimeNs files path = before.lookup path →
          readText files path = textRead read path) ∧
        (path ∉ rest → sig.lookup path = before.lookup path →
          Dated versions path (sig.lookup path) (textRead read path))
  | .patchReads sig changedPaths removedRels rest read value =>
      PatchedFrom K files versions sig changedPaths removedRels rest read value
  | .patchRead sig changedPaths removedRels path rest read value =>
      PatchedFrom K files versions sig changedPaths removedRels (path :: rest) read value
  | .patchStats read value rest sig =>
      ∃ texts, BuiltFrom K value texts ∧ ∀ path,
        (path ∈ rest → read.lookup path = some (texts path) ∧
          readText files path = texts path) ∧
        (path ∉ rest → Dated versions path (sig.lookup path) (texts path))

structure Inv (s : Generation π D) : Prop where
  current : ∀ path, Version s.versions path (s.files.lookup path)
  tells : TimesTellTexts s.versions
  cached : ∀ sig value, s.cached = some (sig, value) → ∃ texts, BuiltFrom K value texts ∧
    ∀ path, Dated s.versions path (sig.lookup path) (texts path)
  phase : PhaseInv K s.files s.versions s.moment s.phase

end Invariant

section Writes

variable {K : Kind π D} {files : Files π} {versions : List (π × SourceFile)} {path : π}
  {file : Option SourceFile}

/-- A path that is written keeps what was read of it only by the condition. -/
theorem readText_update_of_eq {other : π} {text : Option Str}
    (hText : readText files other = text) (hWrite : other = path → file.bind SourceFile.text = text) :
    readText (update files path file) other = text := by
  rw [readText_update]
  split_ifs with hPath
  · exact hWrite hPath
  · exact hText

theorem PatchedFrom.write {sig : Signature π} {changedPaths removedRels rest : List π}
    {read : List (π × Option Str)} {value : D}
    (h : PatchedFrom K files versions sig changedPaths removedRels rest read value)
    (hAllows : path ∉ rest → ∀ text ∈ read.lookup path, file.bind SourceFile.text = text)
    (new : List (π × SourceFile)) :
    PatchedFrom K (update files path file) (new ++ versions) sig changedPaths removedRels rest
      read value := by
  obtain ⟨texts, hBuilt, hTexts⟩ := h
  refine ⟨texts, hBuilt, fun other => ?_⟩
  obtain ⟨hChanged, hRead, hUnread⟩ := hTexts other
  refine ⟨hChanged, ?_, ?_⟩
  · intro text hText
    refine ⟨(hRead text hText).1, fun hRest => ?_⟩
    apply readText_update_of_eq ((hRead text hText).2 hRest)
    rintro rfl
    exact hAllows hRest text hText
  · intro hNone
    have hOld := hUnread hNone
    split_ifs at hOld ⊢ with hRemoved
    · exact hOld
    · exact hOld.append new

/-- What a build knows of a path that it has read. -/
theorem agree_write {before : Signature π} {text : Option Str} {other : π}
    (h : mtimeNs files other = before.lookup other → readText files other = text)
    (hAllows : other = path → file.map SourceFile.mtimeNs = before.lookup other →
      file.bind SourceFile.text = text) :
    mtimeNs (update files path file) other = before.lookup other →
      readText (update files path file) other = text := by
  rw [mtimeNs_update, readText_update]
  split_ifs with hPath
  · exact hAllows hPath
  · exact h

theorem PhaseInv.write {moment : Files π} {phase : Phase π D}
    (h : PhaseInv K files versions moment phase) (hAllows : phase.Allows path file)
    (new : List (π × SourceFile)) :
    PhaseInv K (update files path file) (new ++ versions) moment phase := by
  cases phase with
  | idle => trivial
  | statBefore attempts resident rest sig =>
      intro other
      obtain ⟨hScannable, hSig, hVersion⟩ := h other
      exact ⟨hScannable, hSig, fun version hFile => List.mem_append_right new (hVersion version hFile)⟩
  | buildReads attempts resident before rest read =>
      cases resident with
      | false => trivial
      | true =>
          refine ⟨h.1, h.2.1, fun other hRest => ?_⟩
          apply agree_write (h.2.2 other hRest)
          rintro rfl
          exact hAllows hRest
  | statAfter attempts before read rest sig =>
      refine ⟨h.1, fun other => ⟨fun hRest => ?_, fun hRest hSame => ?_⟩⟩
      · apply agree_write ((h.2 other).1 hRest)
        rintro rfl
        exact hAllows hRest
      · exact ((h.2 other).2 hRest hSame).append new
  | patchReads sig changedPaths removedRels rest read value => exact PatchedFrom.write h hAllows new
  | patchRead sig changedPaths removedRels next rest read value =>
      exact PatchedFrom.write h hAllows new
  | patchStats read value rest sig =>
      obtain ⟨texts, hBuilt, hTexts⟩ := h
      refine ⟨texts, hBuilt, fun other => ⟨fun hRest => ?_, fun hRest => ?_⟩⟩
      · obtain ⟨hRead, hText⟩ := (hTexts other).1 hRest
        refine ⟨hRead, readText_update_of_eq hText ?_⟩
        rintro rfl
        exact hAllows hRest _ hRead
      · exact ((hTexts other).2 hRest).append new

theorem Inv.write {s : Generation π D} (h : Inv K s) (hTells : TimeTells s (.write path file))
    (hKept : ReadKept s (.write path file)) :
    Inv K { s with
      files := update s.files path file
      versions := (file.map fun new => (path, new)).toList ++ s.versions } where
  current other := by
    intro version hVersion
    rw [lookup_update] at hVersion
    split_ifs at hVersion with hPath
    · subst hPath
      rw [Option.mem_def] at hVersion
      simp [hVersion]
    · exact List.mem_append_right _ (h.current other version hVersion)
  tells other old new hOld hNew hTime := by
    have hVersions : ∀ version, (other, version) ∈
        (file.map fun new => (path, new)).toList ++ s.versions →
        other = path ∧ file = some version ∨ (other, version) ∈ s.versions := by
      intro version hMem
      cases file with
      | none => exact .inr hMem
      | some written =>
          cases List.mem_cons.mp hMem with
          | inl hNew =>
              obtain ⟨rfl, rfl⟩ := Prod.mk.inj hNew
              exact .inl ⟨rfl, rfl⟩
          | inr hSeen => exact .inr hSeen
    cases hVersions old hOld with
    | inl hOldNew =>
        cases hVersions new hNew with
        | inl hNewNew =>
            rw [Option.some.inj (hOldNew.2.symm.trans hNewNew.2)]
        | inr hNewSeen =>
            exact (hTells old hOldNew.2 (other, new) hNewSeen hOldNew.1 hTime.symm).symm
    | inr hOldSeen =>
        cases hVersions new hNew with
        | inl hNewNew => exact hTells new hNewNew.2 (other, old) hOldSeen hNewNew.1 hTime
        | inr hNewSeen => exact h.tells other old new hOldSeen hNewSeen hTime
  cached sig value hCached := by
    obtain ⟨texts, hBuilt, hDated⟩ := h.cached sig value hCached
    exact ⟨texts, hBuilt, fun other => (hDated other).append _⟩
  phase := h.phase.write hKept _

end Writes

section Steps

variable {K : Kind π D} {s t : Generation π D}

theorem Inv.withPhase (h : Inv K s) {moment : Files π} {phase : Phase π D}
    (hPhase : PhaseInv K s.files s.versions moment phase) :
    Inv K { s with phase := phase, moment := moment } :=
  ⟨h.current, h.tells, h.cached, hPhase⟩

theorem Inv.attempt (h : Inv K s) (attempts : Nat) (resident : Bool) :
    Inv K (s.attempt K attempts resident) := by
  apply h.withPhase
  intro path
  refine ⟨fun hListed => ?_, rfl, fun version hVersion => ?_⟩
  · exact (mem_sourcePaths.mp (hListed.resolve_right (absurd rfl))).2
  · cases hVersion

/-- What is stored at the end of a call is dated by its signature. -/
theorem Inv.store (h : Inv K s) {sig : Signature π} {value : D} {texts : π → Option Str}
    (hBuilt : BuiltFrom K value texts)
    (hDated : ∀ path, Dated s.versions path (sig.lookup path) (texts path)) :
    Inv K { s with cached := some (sig, value), phase := .idle } := by
  refine ⟨h.current, h.tells, fun stored cachedValue hCached => ?_, trivial⟩
  obtain ⟨rfl, rfl⟩ := Prod.mk.inj (Option.some.inj hCached)
  exact ⟨texts, hBuilt, hDated⟩

theorem Inv.statBefore (h : Inv K s) {attempts : Nat} {resident : Bool} {path : π}
    {rest : List π} {sig : Signature π}
    (hPhase : s.phase = .statBefore attempts resident (path :: rest) sig) :
    Inv K { s with
      phase := .statBefore attempts resident rest (update sig path (mtimeNs s.files path))
      moment := update s.moment path (s.files.lookup path) } := by
  have hOld := h.phase
  rw [hPhase] at hOld
  apply h.withPhase
  intro other
  obtain ⟨hScannable, hSig, hVersion⟩ := hOld other
  rw [lookup_update, mtimeNs_update, lookup_update]
  split_ifs with hPath
  · subst hPath
    exact ⟨fun _ => hScannable (.inl List.mem_cons_self), rfl, h.current other⟩
  · exact ⟨fun hMem => hScannable (hMem.imp_left (List.mem_cons_of_mem path)), hSig, hVersion⟩

/-- A path that is not listed for the build has no file, or is none of the cache. -/
theorem Inv.startBuild (h : Inv K s) {attempts : Nat} {resident : Bool} {sig : Signature π}
    (hPhase : s.phase = .statBefore attempts resident [] sig) :
    Inv K { s with phase := .buildReads attempts resident sig (sourcePaths K s.files) [] } := by
  have hOld := h.phase
  rw [hPhase] at hOld
  apply h.withPhase
  cases resident with
  | false => trivial
  | true =>
      refine ⟨nodup_sourcePaths K s.files, fun path hListed => (mem_sourcePaths.mp hListed).2, ?_⟩
      intro path hListed hTime
      apply readText_of_missing
      by_contra hFile
      apply hListed
      rw [mem_sourcePaths, ← Option.ne_none_iff_isSome]
      exact ⟨mt (mtimeNs_eq_none s.files path).mpr hFile, (hOld path).1 (.inr (hTime ▸ hFile))⟩

theorem lookup_eq_none_iff {read : List (π × Option Str)} {path : π} :
    read.lookup path = none ↔ path ∉ read.map Prod.fst := by
  rw [List.lookup_eq_none_iff, List.mem_map]
  constructor
  · rintro hNone ⟨entry, hMem, rfl⟩
    simpa using hNone entry hMem
  · intro hMem entry hEntry
    rw [bne_iff_ne]
    rintro rfl
    exact hMem ⟨entry, hEntry, rfl⟩

theorem textRead_of_notMem {read : List (π × Option Str)} {path : π}
    (h : path ∉ read.map Prod.fst) : textRead read path = none := by
  rw [textRead, lookup_eq_none_iff.mpr h]
  rfl

theorem textRead_append_self {read : List (π × Option Str)} {path : π}
    (h : path ∉ read.map Prod.fst) (text : Option Str) :
    textRead (read ++ [(path, text)]) path = text := by
  rw [textRead, List.lookup_append, lookup_eq_none_iff.mpr h, List.lookup_cons_self]
  rfl

theorem textRead_append_of_ne {path other : π} (h : other ≠ path) (read : List (π × Option Str))
    (text : Option Str) : textRead (read ++ [(path, text)]) other = textRead read other := by
  rw [textRead, List.lookup_append, List.lookup_cons, beq_false_of_ne h]
  exact congrArg Option.join Option.or_none

theorem lookup_cons_read (read : List (π × Option Str)) (path other : π) (text : Option Str) :
    ((path, text) :: read).lookup other = if other = path then some text else read.lookup other := by
  split_ifs with hPath
  · subst hPath
    exact List.lookup_cons_self
  · rw [List.lookup_cons, beq_false_of_ne hPath]

theorem Inv.buildRead (h : Inv K s) {attempts : Nat} {resident : Bool} {before : Signature π}
    {path : π} {rest : List π} {read : List (π × Option Str)}
    (hPhase : s.phase = .buildReads attempts resident before (path :: rest) read) :
    Inv K { s with
      phase := .buildReads attempts resident before rest
        (read ++ [(path, readText s.files path)]) } := by
  have hOld := h.phase
  rw [hPhase] at hOld
  apply h.withPhase
  cases resident with
  | false => trivial
  | true =>
      obtain ⟨hNodup, hScannable, hAgree⟩ := hOld
      have hSame : (read ++ [(path, readText s.files path)]).map Prod.fst ++ rest =
          read.map Prod.fst ++ path :: rest := by simp
      refine ⟨by rwa [hSame], by rwa [hSame], fun other hRest hTime => ?_⟩
      by_cases hPath : other = path
      · subst hPath
        have hUnread : other ∉ read.map Prod.fst := fun hRead =>
          (List.nodup_append.mp hNodup).2.2 other hRead other List.mem_cons_self rfl
        rw [textRead_append_self hUnread]
      · rw [textRead_append_of_ne hPath]
        apply hAgree other _ hTime
        rw [List.mem_cons, not_or]
        exact ⟨hPath, hRest⟩

theorem mem_iff_textRead {read : List (π × Option Str)} (hNodup : (read.map Prod.fst).Nodup)
    (path : π) (text : Str) : (path, some text) ∈ read ↔ textRead read path = some text := by
  induction read with
  | nil => simp [textRead]
  | cons row read ih =>
      obtain ⟨first, firstText⟩ := row
      rw [List.map_cons, List.nodup_cons] at hNodup
      rw [textRead, lookup_cons_read, List.mem_cons, ih hNodup.2]
      split_ifs with hPath
      · subst hPath
        rw [textRead_of_notMem hNodup.1]
        simp [eq_comm]
      · simp [hPath, textRead]

/-- A path that is not listed at the second time has no file, or is none of the cache. -/
theorem Inv.buildDone (h : Inv K s) {attempts : Nat} {before : Signature π}
    {read : List (π × Option Str)} (hPhase : s.phase = .buildReads attempts true before [] read) :
    Inv K { s with phase := .statAfter attempts before read (sourcePaths K s.files) ∅ } := by
  have hOld := h.phase
  rw [hPhase] at hOld
  obtain ⟨hNodup, hScannable, hAgree⟩ := hOld
  rw [List.append_nil] at hNodup hScannable
  apply h.withPhase
  refine ⟨hNodup, fun path => ⟨fun _ => hAgree path List.not_mem_nil, fun hListed hTime => ?_⟩⟩
  have hText : textRead read path = none := by
    by_cases hFile : (s.files.lookup path).isSome
    · have hUnread : path ∉ read.map Prod.fst := fun hRead =>
        hListed (mem_sourcePaths.mpr ⟨hFile, hScannable path hRead⟩)
      exact textRead_of_notMem hUnread
    · have hMissing : mtimeNs s.files path = none := by
        rwa [mtimeNs_eq_none, ← Option.not_isSome_iff_eq_none]
      rw [← hAgree path List.not_mem_nil (hMissing.trans hTime), readText_of_missing hMissing]
  rw [hText]
  exact dated_missing

theorem Inv.statAfter (h : Inv K s) {attempts : Nat} {before sig : Signature π} {path : π}
    {rest : List π} {read : List (π × Option Str)}
    (hPhase : s.phase = .statAfter attempts before read (path :: rest) sig) :
    Inv K { s with
      phase := .statAfter attempts before read rest (update sig path (mtimeNs s.files path)) } := by
  have hOld := h.phase
  rw [hPhase] at hOld
  apply h.withPhase
  refine ⟨hOld.1, fun other => ⟨fun hRest => (hOld.2 other).1 (List.mem_cons_of_mem path hRest), ?_⟩⟩
  intro hRest
  rw [lookup_update]
  split_ifs with hPath
  · subst hPath
    intro hTime
    rw [← (hOld.2 other).1 List.mem_cons_self hTime]
    exact dated_current (h.current other)
  · apply (hOld.2 other).2
    rw [List.mem_cons, not_or]
    exact ⟨hPath, hRest⟩

theorem Inv.statAfterDone (h : Inv K s) {attempts : Nat} {before sig : Signature π}
    {read : List (π × Option Str)} (hPhase : s.phase = .statAfter attempts before read [] sig)
    (hSame : same before sig = true) :
    Inv K { s with cached := some (sig, K.build read), phase := .idle } := by
  have hOld := h.phase
  rw [hPhase] at hOld
  apply h.store (.build hOld.1)
  intro path
  exact (hOld.2 path).2 List.not_mem_nil (same_iff.mp hSame path).symm

theorem foldl_remove {value : D} {texts : π → Option Str} (h : BuiltFrom K value texts)
    (removedRels : List π) :
    BuiltFrom K (removedRels.foldl (fun value rel => K.replacePage value rel none) value)
      fun path => if path ∈ removedRels then none else texts path := by
  induction removedRels generalizing value texts with
  | nil => exact h.congr fun path => by simp
  | cons rel removedRels ih =>
      apply (ih (h.replacePage rel none)).congr
      intro path
      by_cases hRel : path = rel
      · simp [hRel]
      · simp [hRel]

theorem patchedFrom_start {versions : List (π × SourceFile)} {sig : Signature π} {value : D}
    {texts : π → Option Str} (files : Files π) (changedPaths : List π) {removedRels : List π}
    (hBuilt : BuiltFrom K value fun path => if path ∈ removedRels then none else texts path)
    (hDated : ∀ path, Dated versions path (sig.lookup path) (texts path)) :
    PatchedFrom K files versions sig changedPaths removedRels changedPaths [] value := by
  refine ⟨_, hBuilt, fun path => ⟨?_, ?_, ?_⟩⟩
  · simp
  · intro text hText
    cases hText
  · intro _
    split_ifs with hRemoved
    · rfl
    · exact hDated path

theorem Inv.startPatch (h : Inv K s) (changedPaths removedRels : List π) :
    Inv K (s.startPatch K changedPaths removedRels) := by
  cases hCached : s.cached with
  | none =>
      rw [Generation.startPatch, hCached]
      exact h
  | some cached =>
      obtain ⟨sig, value⟩ := cached
      obtain ⟨texts, hBuilt, hDated⟩ := h.cached sig value hCached
      have hCleared : BuiltFrom K
          (if changedPaths = [] ∧ removedRels = [] then value else K.clear value) texts := by
        split_ifs
        · exact hBuilt
        · exact hBuilt.clear
      have hStart := patchedFrom_start s.files changedPaths (foldl_remove hCleared removedRels) hDated
      have hNext := h.withPhase (show PhaseInv K s.files s.versions s.moment (.patchReads sig changedPaths
        removedRels changedPaths [] _) from hStart)
      rw [Generation.startPatch, hCached]
      rwa [hCached] at hNext

/-- A changed path that was read, or is not there. -/
theorem PatchedFrom.replacePage {sig : Signature π} {changedPaths removedRels rest : List π}
    {read : List (π × Option Str)} {value : D} {path : π}
    (h : PatchedFrom K s.files s.versions sig changedPaths removedRels (path :: rest) read value) :
    PatchedFrom K s.files s.versions sig changedPaths removedRels rest
      ((path, readText s.files path) :: read)
      (K.replacePage value path (readText s.files path)) := by
  obtain ⟨texts, hBuilt, hTexts⟩ := h
  refine ⟨_, hBuilt.replacePage path _, fun other => ?_⟩
  obtain ⟨hChanged, hRead, hUnread⟩ := hTexts other
  rw [lookup_cons_read]
  by_cases hPath : other = path
  · subst hPath
    simp only [if_pos, Function.update_self]
    refine ⟨?_, ?_, ?_⟩
    · simpa using hChanged
    · intro text hText
      obtain rfl := Option.some.inj hText
      exact ⟨rfl, fun _ => rfl⟩
    · intro hNone
      cases hNone
  · rw [if_neg hPath, Function.update_of_ne hPath]
    have hRest : other ∈ path :: rest ↔ other ∈ rest := by simp [hPath]
    rw [hRest] at hChanged
    refine ⟨hChanged, fun text hText => ?_, hUnread⟩
    rw [← hRest]
    exact hRead text hText

theorem Inv.patchDone (h : Inv K s) {sig : Signature π} {changedPaths removedRels : List π}
    {read : List (π × Option Str)} {value : D}
    (hPhase : s.phase = .patchReads sig changedPaths removedRels [] read value) :
    Inv K { s with phase := .patchStats read value changedPaths (popAll removedRels sig) } := by
  have hOld := h.phase
  rw [hPhase] at hOld
  obtain ⟨texts, hBuilt, hTexts⟩ := hOld
  apply h.withPhase
  refine ⟨texts, hBuilt, fun path => ?_⟩
  obtain ⟨hChanged, hRead, hUnread⟩ := hTexts path
  constructor
  · intro hMem
    obtain ⟨text, hText⟩ := Option.ne_none_iff_exists'.mp
      ((hChanged.mp hMem).resolve_left List.not_mem_nil)
    obtain ⟨rfl, hFile⟩ := hRead text hText
    exact ⟨hText, hFile List.not_mem_nil⟩
  · intro hMem
    have hNone : read.lookup path = none := by
      by_contra hSome
      exact hMem (hChanged.mpr (.inr hSome))
    have hText := hUnread hNone
    rw [lookup_popAll]
    split_ifs at hText ⊢ with hRemoved
    · rw [hText]
      exact dated_missing
    · exact hText

theorem Inv.patchStat (h : Inv K s) {sig : Signature π} {path : π} {rest : List π}
    {read : List (π × Option Str)} {value : D}
    (hPhase : s.phase = .patchStats read value (path :: rest) sig) :
    Inv K { s with
      phase := .patchStats read value rest (update sig path (mtimeNs s.files path)) } := by
  have hOld := h.phase
  rw [hPhase] at hOld
  obtain ⟨texts, hBuilt, hTexts⟩ := hOld
  apply h.withPhase
  refine ⟨texts, hBuilt, fun other => ⟨fun hRest => ?_, fun hRest => ?_⟩⟩
  · exact (hTexts other).1 (List.mem_cons_of_mem path hRest)
  · rw [lookup_update]
    split_ifs with hPath
    · subst hPath
      rw [← ((hTexts other).1 List.mem_cons_self).2]
      exact dated_current (h.current other)
    · apply (hTexts other).2
      rw [List.mem_cons, not_or]
      exact ⟨hPath, hRest⟩

theorem Inv.advance (h : Inv K s) (hStep : s.advance K = some t) : Inv K t := by
  have hPhaseInv := h.phase
  cases hPhase : s.phase with
  | idle =>
      rw [Generation.advance, hPhase] at hStep
      cases hStep
  | statBefore attempts resident rest sig =>
      cases rest with
      | cons path rest =>
          rw [Generation.advance, hPhase] at hStep
          obtain rfl := Option.some.inj hStep
          exact h.statBefore hPhase
      | nil =>
          simp only [Generation.advance, hPhase] at hStep
          cases hHit : s.hit with
          | some value =>
              rw [hHit] at hStep
              obtain rfl := Option.some.inj hStep
              exact h.withPhase trivial
          | none =>
              rw [hHit] at hStep
              obtain rfl := Option.some.inj hStep
              exact h.startBuild hPhase
  | buildReads attempts resident before rest read =>
      cases rest with
      | cons path rest =>
          rw [Generation.advance, hPhase] at hStep
          obtain rfl := Option.some.inj hStep
          exact h.buildRead hPhase
      | nil =>
          cases resident with
          | true =>
              rw [Generation.advance, hPhase] at hStep
              obtain rfl := Option.some.inj hStep
              exact h.buildDone hPhase
          | false =>
              rw [Generation.advance, hPhase] at hStep
              obtain rfl := Option.some.inj hStep
              exact h.withPhase trivial
  | statAfter attempts before read rest sig =>
      cases rest with
      | cons path rest =>
          rw [Generation.advance, hPhase] at hStep
          obtain rfl := Option.some.inj hStep
          exact h.statAfter hPhase
      | nil =>
          simp only [Generation.advance, hPhase] at hStep
          split_ifs at hStep with hSame
          · obtain rfl := Option.some.inj hStep
            exact h.statAfterDone hPhase hSame
          · cases attempts with
            | zero =>
                obtain rfl := Option.some.inj hStep
                exact h.withPhase trivial
            | succ attempts =>
                obtain rfl := Option.some.inj hStep
                exact h.attempt attempts true
  | patchReads sig changedPaths removedRels rest read value =>
      rw [hPhase] at hPhaseInv
      cases rest with
      | cons path rest =>
          simp only [Generation.advance, hPhase] at hStep
          split_ifs at hStep with hFile
          · obtain rfl := Option.some.inj hStep
            exact h.withPhase hPhaseInv
          · obtain rfl := Option.some.inj hStep
            have hMissing : readText s.files path = none := by
              rw [readText, Option.not_isSome_iff_eq_none.mp hFile]
              rfl
            have hNext := PatchedFrom.replacePage hPhaseInv
            rw [hMissing] at hNext
            exact h.withPhase hNext
      | nil =>
          rw [Generation.advance, hPhase] at hStep
          obtain rfl := Option.some.inj hStep
          exact h.patchDone hPhase
  | patchRead sig changedPaths removedRels path rest read value =>
      rw [hPhase] at hPhaseInv
      rw [Generation.advance, hPhase] at hStep
      obtain rfl := Option.some.inj hStep
      exact h.withPhase (PatchedFrom.replacePage hPhaseInv)
  | patchStats read value rest sig =>
      rw [hPhase] at hPhaseInv
      cases rest with
      | cons path rest =>
          rw [Generation.advance, hPhase] at hStep
          obtain rfl := Option.some.inj hStep
          exact h.patchStat hPhase
      | nil =>
          rw [Generation.advance, hPhase] at hStep
          obtain rfl := Option.some.inj hStep
          obtain ⟨texts, hBuilt, hTexts⟩ := hPhaseInv
          exact h.store hBuilt fun path => (hTexts path).2 List.not_mem_nil

theorem Inv.step {a : Action π} (h : Inv K s) (hTells : TimeTells s a) (hKept : ReadKept s a)
    (hStep : step K s a = some t) : Inv K t := by
  cases a with
  | write path file =>
      obtain rfl := Option.some.inj hStep
      exact h.write hTells hKept
  | advance => exact h.advance hStep
  | startGet resident =>
      rw [Generational.step] at hStep
      split at hStep
      · obtain rfl := Option.some.inj hStep
        exact h.attempt 2 resident
      · cases hStep
  | startPatch changedPaths removedRels =>
      rw [Generational.step] at hStep
      split at hStep
      · obtain rfl := Option.some.inj hStep
        exact h.startPatch changedPaths removedRels
      · cases hStep
  | release =>
      rw [Generational.step] at hStep
      split at hStep
      · obtain rfl := Option.some.inj hStep
        refine ⟨h.current, h.tells, fun sig value hCached => ?_, h.phase⟩
        cases hCached
      · cases hStep

theorem inv_initial (files : Files π) : Inv K (initial files : Generation π D) where
  current path version hVersion := by
    rw [AList.mem_lookup_iff] at hVersion
    exact List.mem_map_of_mem hVersion
  tells path old new hOld hNew _ := by
    have hRow : ∀ version, (path, version) ∈ files.entries.map (fun row => (row.1, row.2)) →
        files.lookup path = some version := by
      intro version hMem
      obtain ⟨row, hRow, hEq⟩ := List.mem_map.mp hMem
      obtain ⟨rfl, rfl⟩ := Prod.mk.inj hEq
      exact AList.mem_lookup_iff.mpr hRow
    rw [Option.some.inj ((hRow old hOld).symm.trans (hRow new hNew))]
  cached sig value hCached := by cases hCached
  phase := trivial

/-- What is returned on a hit was built from the texts at its signature. -/
theorem Inv.hit (h : Inv K s) {value : D} (hHit : s.hit = some value) :
    BuiltFrom K value s.signedTexts := by
  have hPhaseInv := h.phase
  rw [Generation.hit] at hHit
  split at hHit
  · next attempts sig stored cached hPhase hCached =>
      rw [hPhase] at hPhaseInv
      split_ifs at hHit with hSame
      obtain rfl := Option.some.inj hHit
      obtain ⟨texts, hBuilt, hDated⟩ := h.cached stored cached hCached
      apply hBuilt.congr
      intro path
      obtain ⟨-, hSig, hVersion⟩ := hPhaseInv path
      have hMoment : Dated s.versions path (sig.lookup path) (readText s.moment path) :=
        ⟨s.moment.lookup path, hVersion, hSig.symm, rfl⟩
      rw [← same_iff.mp hSame path] at hMoment
      exact (hDated path).text_eq hMoment h.tells
  · cases hHit

/-- In every run whose writes keep what a call has read until it is dated, a hit returns
a structure that was built from the texts at its signature. -/
theorem hit_builtFrom {files : Files π} {value : D}
    (hRun : Transition.Run (Generational.step K) (fun s a => TimeTells s a ∧ ReadKept s a)
      (initial files) s)
    (hHit : s.hit = some value) : BuiltFrom K value s.signedTexts := by
  have hInv : Inv K s := by
    apply hRun.invariant (inv_initial files)
    intro t a u hInv hMeets hStep
    exact hInv.step hMeets.1 hMeets.2 hStep
  exact hInv.hit hHit

end Steps

end Plumber.Generational
