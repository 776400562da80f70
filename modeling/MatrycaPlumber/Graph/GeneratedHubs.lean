import MatrycaPlumber.Graph.PageFiles
import MatrycaPlumber.System.Transition

/-! The compile of a generated hub page as a sequence of atomic steps, interleaved with the
writes of other programs. -/
namespace Plumber.GeneratedHubs

open PyText PageFiles Transition

/-- `write_master_index_page` hands its baseline on, and `write_graph_insights_page` takes
another one when it has none. -/
inductive Hub where
  | masterIndex
  | graphInsights
deriving DecidableEq, Repr

/-- What comes next in the compile. -/
inductive Phase where
  | start
  | found
  | compiling
  | handed
  | handedFound
  | called
  | waiting
  | locked
  | present
  | settled
  | armed
  | checked
  | committing
  | returned (written : Bool)
  | raised
deriving DecidableEq, Repr

/-- A compile under way: `preMtime` is the baseline, from the caller or from the second
snapshot, and `currentMtime` the third one, for the conditional write. -/
structure Compile where
  hub : Hub
  markdown : Str
  phase : Phase := .start
  preMtime : Option Nat := none
  currentMtime : Option Nat := none

def Compile.goto (c : Compile) (phase : Phase) : Compile := { c with phase }

/-- A comparison with a snapshot, from which the compile goes on to `next`. -/
def Compile.compare (c : Compile) (file : Option FileState) (mtime : Option Nat) (next : Phase) :
    Compile :=
  match mtime with
  | none => c.goto next
  | some mtime => if fileMtimeDrifted file mtime then c.goto (.returned false) else c.goto next

/-- The next step when the page is in the given state, up to the replacement. -/
def Compile.advance (c : Compile) (file : Option FileState) : Compile :=
  match c.phase with
  -- `path.is_file()`, and then `occ_snapshot(path)`
  | .start => c.goto (if file.isSome then .found else .compiling)
  | .found => { c with preMtime := file.map FileState.mtimeNs, phase := .compiling }
  | .compiling => c.goto (if c.hub = .graphInsights ∧ c.preMtime = none then .handed else .called)
  | .handed => c.goto (if file.isSome then .handedFound else .called)
  | .handedFound => { c with preMtime := file.map FileState.mtimeNs, phase := .called }
  -- `write_generated_hub_page` from its first line to the lock
  | .called =>
      { c with preMtime := c.preMtime <|> file.map FileState.mtimeNs, phase := .waiting }
  | .waiting => c.goto .locked
  | .locked => c.goto (if file.isSome then .present else .committing)
  | .present => c.compare file c.preMtime .settled
  | .settled =>
      match file with
      | none => c.goto (.returned false)
      | some file => { c with currentMtime := some file.mtimeNs, phase := .armed }
  -- the comparisons of `atomic_write_bytes_if_unchanged` and `atomic_write_bytes`
  | .armed => c.compare file c.currentMtime .checked
  | .checked => c.compare file c.currentMtime .committing
  | .committing | .returned _ | .raised => c

/-- The page on disk and the compile, with what the page was when the baseline was taken,
what the write replaced, and what other programs left last. -/
structure World where
  file : Option FileState
  compile : Compile
  baselineFile : Option FileState
  replaced : Option (Option FileState) := none
  left : Option FileState

inductive Action where
  | external (file : Option FileState)
  | run
  | replace (mtimeNs : Nat)
  | retry
  | raise

def initial (hub : Hub) (markdown : Str) (file : Option FileState) : World where
  file := file
  compile := { hub, markdown }
  baselineFile := file
  left := file

/-- The baseline is taken as long as this is what comes next. -/
def Phase.beforeBaseline : Phase → Bool
  | start | found => true
  | _ => false

def step (w : World) : Action → Option World
  | .external file => some { w with file := file, left := file }
  | .run =>
      match w.compile.phase with
      | .committing | .returned _ | .raised => none
      | phase =>
          some { w with
            compile := w.compile.advance w.file
            baselineFile := if phase.beforeBaseline then w.file else w.baselineFile }
  | .replace mtimeNs =>
      if w.compile.phase = .committing then
        some { w with
          file := some ⟨w.compile.markdown, mtimeNs⟩
          compile := w.compile.goto (.returned true)
          replaced := some w.file }
      else none
  -- an `OSError` of the write is tried again, behind another comparison if there is a
  -- snapshot, and raised in the end
  | .retry =>
      if w.compile.phase = .committing then
        some { w with compile := w.compile.goto (if w.compile.currentMtime.isSome then .checked
          else .committing) }
      else none
  | .raise =>
      if w.compile.phase = .committing then some { w with compile := w.compile.goto .raised }
      else none

/-- What the compile relies on until its next comparison: nothing, a snapshot that is still
compared, or the page as it is. -/
inductive Guard where
  | free
  | exposed
  | watching (mtimeNs : Nat)

def Guard.ofSnapshot : Option Nat → Guard
  | none => .free
  | some mtimeNs => .watching mtimeNs

def Compile.guard (c : Compile) : Guard :=
  match c.phase with
  | .compiling | .handed | .handedFound | .called | .waiting | .locked | .present =>
      .ofSnapshot c.preMtime
  | .armed | .checked => .ofSnapshot c.currentMtime
  | .settled | .committing => .exposed
  | .start | .found | .returned _ | .raised => .free

/-- A write by another program does not fall between a comparison and what relies on it,
and changes the time that a comparison to come looks for. -/
def Guard.Tolerates (file : Option FileState) : Guard → Prop
  | free => True
  | exposed => False
  | watching mtimeNs => fileMtimeDrifted file mtimeNs = true

/-- Other programs write where a comparison notices it, a page that was missing at the
baseline is missing when the second snapshot is taken, and the page is there under the lock
exactly if it was at the baseline. -/
def Noticed (w : World) : Action → Prop
  | .external file => w.compile.guard.Tolerates file
  | .run =>
      (w.compile.phase = .handedFound ∨ w.compile.phase = .called →
        w.compile.preMtime = none → w.file = none) ∧
      (w.compile.phase = .locked → w.file.isSome = w.compile.preMtime.isSome)
  | _ => True

instance (file : Option FileState) : (g : Guard) → Decidable (g.Tolerates file)
  | .free => .isTrue trivial
  | .exposed => .isFalse id
  | .watching mtimeNs => inferInstanceAs (Decidable (fileMtimeDrifted file mtimeNs = true))

instance (w : World) : (a : Action) → Decidable (Noticed w a)
  | .external file => inferInstanceAs (Decidable (w.compile.guard.Tolerates file))
  | .run => instDecidableAnd
  | .replace _ | .retry | .raise => .isTrue trivial

/-- A write that is reported replaced what the page was at the baseline, and without one
the page is as the other programs left it. -/
structure KeepsEdits (w : World) : Prop where
  written : w.compile.phase = .returned true → w.replaced = some w.baselineFile
  skipped : w.compile.phase ≠ .returned true → w.file = w.left

/-- What the compile relies on is the case. -/
def Guard.Relies (file baselineFile : Option FileState) : Guard → Prop
  | free => True
  | exposed => file = baselineFile
  | watching mtimeNs => ∀ f, file = some f → mtimeDrifted f.mtimeNs mtimeNs = false →
      file = baselineFile

/-- The snapshots that the compile has at each point. -/
def Compile.HasSnapshots (c : Compile) (baselineFile : Option FileState) : Prop :=
  match c.phase with
  | .start | .found => c.preMtime = none
  | .handed | .handedFound => c.preMtime = none ∧ baselineFile = none
  | .compiling | .called | .waiting | .locked =>
      c.preMtime = baselineFile.map FileState.mtimeNs
  | .present => c.preMtime.isSome = true
  | .armed | .checked => c.currentMtime.isSome = true
  | .settled | .committing | .returned _ | .raised => True

structure Invariant (w : World) : Prop where
  relies : w.compile.guard.Relies w.file w.baselineFile
  snapshots : w.compile.HasSnapshots w.baselineFile
  keeps : KeepsEdits w

section Steps

variable {w u : World} {file : Option FileState}

theorem relies_ofSnapshot_file (file : Option FileState) :
    (Guard.ofSnapshot (file.map FileState.mtimeNs)).Relies file file := by
  cases file with
  | none => trivial
  | some f => exact fun _ _ _ => rfl

/-- A comparison that succeeds finds the page of the baseline. -/
theorem eq_of_not_drifted {baselineFile : Option FileState} {mtimeNs : Nat}
    (h : (Guard.watching mtimeNs).Relies file baselineFile)
    (hSame : ¬fileMtimeDrifted file mtimeNs = true) : file = baselineFile := by
  cases file with
  | none => exact absurd rfl hSame
  | some f => exact h f rfl (Bool.eq_false_iff.mpr hSame)

theorem Invariant.external (h : Invariant w) (hNoticed : w.compile.guard.Tolerates file) :
    Invariant { w with file, left := file } := by
  refine ⟨?_, h.snapshots, h.keeps.written, fun _ => rfl⟩
  dsimp only
  cases hGuard : w.compile.guard with
  | free => trivial
  | exposed =>
      rw [hGuard] at hNoticed
      cases hNoticed
  | watching mtimeNs =>
      rw [hGuard] at hNoticed
      rintro f rfl hSame
      have hDrift : mtimeDrifted f.mtimeNs mtimeNs = true := hNoticed
      rw [hSame] at hDrift
      cases hDrift

/-- A step of the compile that writes nothing and reports no write. -/
theorem Invariant.of_quiet (h : Invariant w) {c : Compile} {baselineFile : Option FileState}
    (hBefore : w.compile.phase ≠ .returned true) (hAfter : c.phase ≠ .returned true)
    (hRelies : c.guard.Relies w.file baselineFile) (hSnapshots : c.HasSnapshots baselineFile) :
    Invariant { w with compile := c, baselineFile } :=
  ⟨hRelies, hSnapshots, fun hWritten => absurd hWritten hAfter, fun _ => h.keeps.skipped hBefore⟩

/-- A comparison under the lock: the page has drifted and nothing is written, or it is
still the one of the baseline. -/
theorem Invariant.compare (h : Invariant w) {mtime : Option Nat} {next : Phase}
    (hSome : mtime.isSome = true) (hBefore : w.compile.phase ≠ .returned true)
    (hGuard : (Guard.ofSnapshot mtime).Relies w.file w.baselineFile) (hNext : next ≠ .returned true)
    (hGoto : w.file = w.baselineFile → (w.compile.goto next).guard.Relies w.file w.baselineFile)
    (hSnapshots : (w.compile.goto next).HasSnapshots w.baselineFile) :
    Invariant { w with compile := w.compile.compare w.file mtime next } := by
  obtain ⟨mtimeNs, rfl⟩ := Option.isSome_iff_exists.mp hSome
  rw [Compile.compare]
  split_ifs with hDrift
  · exact h.of_quiet hBefore (by simp [Compile.goto]) trivial trivial
  · exact h.of_quiet hBefore hNext (hGoto (eq_of_not_drifted hGuard hDrift)) hSnapshots

theorem Invariant.run (h : Invariant w) (hNoticed : Noticed w .run)
    (hStep : step w .run = some u) : Invariant u := by
  obtain ⟨hMissing, hThere⟩ := hNoticed
  obtain ⟨file, ⟨hub, markdown, phase, preMtime, currentMtime⟩, baselineFile, replaced, left⟩ := w
  have hRelies := h.relies
  have hSnapshots := h.snapshots
  rw [step] at hStep
  cases phase <;> cases hStep
  case start =>
    cases file with
    | none => exact h.of_quiet nofun nofun (show Guard.Relies _ _ (.ofSnapshot preMtime) from
        (show preMtime = none from hSnapshots) ▸ trivial) hSnapshots
    | some f => exact h.of_quiet nofun nofun trivial hSnapshots
  case found => exact h.of_quiet nofun nofun (relies_ofSnapshot_file file) rfl
  case compiling =>
    rw [Compile.HasSnapshots] at hSnapshots
    cases hub with
    | masterIndex => exact h.of_quiet nofun nofun hRelies hSnapshots
    | graphInsights =>
        cases preMtime with
        | some mtime => exact h.of_quiet nofun nofun hRelies hSnapshots
        | none =>
            have hNone : baselineFile = none := Option.map_eq_none_iff.mp hSnapshots.symm
            exact h.of_quiet nofun nofun hRelies ⟨rfl, hNone⟩
  case handed =>
    obtain ⟨rfl, rfl⟩ := hSnapshots
    cases file with
    | none => exact h.of_quiet nofun nofun hRelies rfl
    | some f => exact h.of_quiet nofun nofun hRelies ⟨rfl, rfl⟩
  case handedFound =>
    obtain ⟨rfl, rfl⟩ := hSnapshots
    obtain rfl : file = none := hMissing (.inl rfl) rfl
    exact h.of_quiet nofun nofun hRelies rfl
  case called =>
    cases preMtime with
    | some mtime => exact h.of_quiet nofun nofun hRelies hSnapshots
    | none =>
        obtain rfl : file = none := hMissing (.inr rfl) rfl
        exact h.of_quiet nofun nofun hRelies hSnapshots
  case waiting => exact h.of_quiet nofun nofun hRelies hSnapshots
  case locked =>
    cases file with
    | some f => exact h.of_quiet nofun nofun hRelies (hThere rfl).symm
    | none =>
        have hNone : baselineFile = none := by
          have hPre : preMtime = none :=
            Option.isNone_iff_eq_none.mp (Option.isSome_eq_false_iff.mp (hThere rfl).symm)
          rw [Compile.HasSnapshots] at hSnapshots
          exact Option.map_eq_none_iff.mp (hSnapshots.symm.trans hPre)
        exact h.of_quiet nofun nofun hNone.symm trivial
  case present => exact h.compare hSnapshots nofun hRelies nofun id trivial
  case settled =>
    cases file with
    | none => exact h.of_quiet nofun nofun trivial trivial
    | some f => exact h.of_quiet nofun nofun (fun _ _ _ => hRelies) rfl
  case armed => exact h.compare hSnapshots nofun hRelies nofun (fun _ => hRelies) hSnapshots
  case checked => exact h.compare hSnapshots nofun hRelies nofun id trivial

theorem Invariant.step {a : Action} (h : Invariant w) (hNoticed : Noticed w a)
    (hStep : GeneratedHubs.step w a = some u) : Invariant u := by
  have hCurrent (hPhase : w.compile.phase = .committing) : w.file = w.baselineFile := by
    have hRelies := h.relies
    rw [Compile.guard, hPhase] at hRelies
    exact hRelies
  cases a with
  | external file =>
      cases hStep
      exact h.external hNoticed
  | run => exact h.run hNoticed hStep
  | replace mtimeNs =>
      rw [GeneratedHubs.step] at hStep
      split_ifs at hStep with hPhase
      cases hStep
      exact ⟨trivial, trivial, fun _ => congrArg some (hCurrent hPhase), fun hNever => absurd rfl hNever⟩
  | retry =>
      rw [GeneratedHubs.step] at hStep
      split_ifs at hStep with hPhase hSome
      · cases hStep
        obtain ⟨mtimeNs, hMtime⟩ := Option.isSome_iff_exists.mp hSome
        have hWatching : (w.compile.goto .checked).guard.Relies w.file w.baselineFile := by
          rw [Compile.guard, Compile.goto, hMtime]
          exact fun _ _ _ => hCurrent hPhase
        exact h.of_quiet (hPhase ▸ nofun) nofun hWatching hSome
      · cases hStep
        exact h.of_quiet (hPhase ▸ nofun) nofun (hCurrent hPhase) trivial
  | raise =>
      rw [GeneratedHubs.step] at hStep
      split_ifs at hStep with hPhase
      cases hStep
      exact h.of_quiet (hPhase ▸ nofun) nofun trivial trivial

/-- However other programs write, as long as it is noticed no edit is overwritten. -/
theorem keeps_edits {hub : Hub} {markdown : Str}
    (run : Run GeneratedHubs.step Noticed (initial hub markdown file) w) : KeepsEdits w := by
  have hAll : Invariant w := by
    apply run.invariant
    · exact ⟨trivial, rfl, nofun, fun _ => rfl⟩
    · exact fun _ _ _ hInv hNoticed hStep => Invariant.step hInv hNoticed hStep
  exact hAll.keeps

end Steps

section Runs

def hubPage (text : String) (mtimeNs : Nat) : Option FileState := some ⟨text.toList, mtimeNs⟩

def runs (n : Nat) : List Action := List.replicate n .run

/-- An edit during the compile is noticed, and stays. -/
def noticedEdit : List Action :=
  runs 2 ++ [.external (hubPage "- user" (10 ^ 18 + 1))] ++ runs 5

theorem keeps_edits_noticed : ∃ w, exec step Noticed
    (initial .masterIndex "- index".toList (hubPage "- old" (10 ^ 18))) noticedEdit = some w ∧
      w.compile.phase = .returned false ∧ KeepsEdits w := by
  have hExec : exec step Noticed
    (initial .masterIndex "- index".toList (hubPage "- old" (10 ^ 18))) noticedEdit = some _ := rfl
  exact ⟨_, hExec, rfl, keeps_edits (Run.of_exec hExec)⟩

def Overwrites (file : Option FileState) (acts : List Action) : Prop :=
  ∃ w, exec step (fun _ _ => True) (initial .masterIndex "- index".toList file) acts = some w ∧
    w.compile.phase = .returned true ∧ w.replaced ≠ some w.baselineFile

/-- A page that is created during the compile is overwritten. So is one that is deleted, and
one that is edited behind the comparison under the lock, behind the last one, or with its
old time. -/
theorem created_page_overwritten :
    (¬∀ w, Run step (fun _ _ => True) (initial .masterIndex "- index".toList none) w →
      KeepsEdits w) ∧
    Overwrites (hubPage "- old" (10 ^ 18))
      (runs 2 ++ [.external none] ++ runs 4 ++ [.replace (10 ^ 18 + 2)]) ∧
    Overwrites (hubPage "- old" (10 ^ 18))
      (runs 7 ++ [.external (hubPage "- user" (10 ^ 18 + 1))] ++ runs 3 ++
        [.replace (10 ^ 18 + 2)]) ∧
    Overwrites (hubPage "- old" (10 ^ 18))
      (runs 10 ++ [.external (hubPage "- user" (10 ^ 18 + 1)), .replace (10 ^ 18 + 2)]) ∧
    Overwrites (hubPage "- old" (10 ^ 18))
      (runs 2 ++ [.external (hubPage "- user" (10 ^ 18))] ++ runs 8 ++ [.replace (10 ^ 18 + 2)]) := by
  refine ⟨fun h => ?_, ⟨_, rfl, rfl, by decide⟩, ⟨_, rfl, rfl, by decide⟩, ⟨_, rfl, rfl, by decide⟩,
    ⟨_, rfl, rfl, by decide⟩⟩
  have hExec : exec step (fun _ _ => True) (initial .masterIndex "- index".toList none)
    (runs 1 ++ [.external (hubPage "- user" (10 ^ 18 + 1))] ++ runs 8 ++
      [.replace (10 ^ 18 + 2)]) = some _ := rfl
  exact absurd ((h _ (Run.of_exec hExec)).written rfl) (by decide)

end Runs

end Plumber.GeneratedHubs
