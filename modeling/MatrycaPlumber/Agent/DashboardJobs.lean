import MatrycaPlumber.Agent.DashboardProtocol
import MatrycaPlumber.System.Transition

/-! The one permit under which dashboards are read. A read that is admitted has an owner thread,
which supervises a worker process. The task of the caller waits for the owner, may be cancelled,
and gives the permit back only after a verified cleanup. -/
namespace Plumber.Dashboard

open PyText

/-- Times are in nanoseconds of the monotonic clock. -/
structure DashboardLimits where
  executionTime : ℕ
  cleanupTime : ℕ

structure JobControl where
  started : ℕ
  executionDeadline : ℕ
  cleanupTime : ℕ
  cancelled : Bool := false
  cleanupDeadline : Option ℕ := none
  reason : Option DashboardCode := none

namespace JobControl

def new (limits : DashboardLimits) (now : ℕ) : JobControl where
  started := now
  executionDeadline := now + limits.executionTime
  cleanupTime := limits.cleanupTime

def beginCleanup (now : ℕ) (reason : Option DashboardCode) (control : JobControl) : JobControl :=
  match control.cleanupDeadline with
  | some _ => control
  | none => { control with cleanupDeadline := some (now + control.cleanupTime), reason }

/-- The result is admitted unless something else came first. -/
def finishExecution (now : ℕ) (reason : Option DashboardCode) (control : JobControl) : JobControl :=
  control.beginCleanup now (if control.executionDeadline ≤ now then some .timeout else reason)

/-- `stopped` is true past the deadline, and after a cancellation. -/
def stopped (now : ℕ) (control : JobControl) : Bool × JobControl :=
  if control.executionDeadline ≤ now then (true, control.beginCleanup now (some .timeout))
  else (control.cancelled, control)

end JobControl

/-- How the supervisor leaves its loop over the pipes. -/
inductive CaptureEnd where
  | stopped
  | failed (code : DashboardCode)
  | raised (raised : Raised)
  /-- All pipes are closed and the worker has exited. Its output is one frame, or no frame. -/
  | ended (returncode : ℤ) (frame : Except Raised DashboardFrame)

structure Capture where
  stderr : List Bytes
  ending : CaptureEnd

/-- What the supervisor has in hand when it comes to its `finally`. -/
structure Attempt where
  code : Option DashboardCode
  lastPhase : Option DashboardPhase := none
  markdown : Option Str := none
  spawnEntered : Bool
  process : Bool

def Attempt.unspawned (code : DashboardCode) : Attempt where
  code := code
  spawnEntered := false
  process := false

def Attempt.spawned (code : Option DashboardCode) (lastPhase : Option DashboardPhase)
    (markdown : Option Str) : Attempt where
  code := code
  lastPhase := lastPhase
  markdown := markdown
  spawnEntered := true
  process := true

def JobControl.stopCode (control : JobControl) : DashboardCode :=
  control.reason.getD .workerFailed

/-- The code of a worker that has ended, and its text. -/
def frameOf (requestId : Str) (reader : PhaseReader) (returncode : ℤ)
    (frame : Except Raised DashboardFrame) : Except Raised (Option DashboardCode × Option Str) :=
  match reader.finish with
  | .error (raised, _) => .error raised
  | .ok reader =>
      if returncode ≠ 0 then .ok (some .workerFailed, none)
      else match frame with
        | .error raised => .error raised
        | .ok frame =>
            match checkFrame frame requestId reader.isComplete with
            | .error raised => .error raised
            | .ok checked =>
                match checked.result with
                | .ok markdown => .ok (none, some markdown)
                | .error code => .ok (some code, none)

def Capture.attempt (decode : LineDecoder) (requestId : Str) (control : JobControl)
    (capture : Capture) : Attempt :=
  match PhaseReader.feedAll decode {} capture.stderr with
  | .error (raised, count) => .spawned (some raised.code) (PhaseReader.lastPhase count) none
  | .ok reader =>
      match capture.ending with
      | .stopped => .spawned (some control.stopCode) (PhaseReader.lastPhase reader.count) none
      | .failed code => .spawned (some code) (PhaseReader.lastPhase reader.count) none
      | .raised raised => .spawned (some raised.code) (PhaseReader.lastPhase reader.count) none
      | .ended returncode frame =>
          match frameOf requestId reader returncode frame with
          | .error raised => .spawned (some raised.code) (PhaseReader.lastPhase reader.count) none
          | .ok (code, markdown) =>
              .spawned code (PhaseReader.lastPhase reader.count) markdown

/-- What the finalizer of the worker saw. Signal 0 to the group says whether it exists. -/
structure Cleanup where
  finalized : Bool
  stdinClosed : Bool
  eventless : Bool
  reaped : Bool
  groupState : Option Bool

def Cleanup.verified (seen : Cleanup) : Bool :=
  seen.finalized && seen.stdinClosed && seen.eventless && seen.reaped &&
    seen.groupState == some false

inductive OwnerPhase where
  | unstarted
  | starting
  | preparing
  | launching
  | launched
  | capturing
  | finishing (attempt : Attempt)
  | finalizing (attempt : Attempt)
  | logging
  | exiting
  | exited

def OwnerPhase.alive : OwnerPhase → Bool
  | .unstarted | .exited => false
  | _ => true

inductive ReaderPhase where
  | starting
  /-- The deadline of a cancellation is set, and its event is not. -/
  | flagging (setDone : Bool)
  | waiting
  | settling
  /-- Without an answer where the cancellation is raised again. -/
  | returned (verified : Bool) (answer : Option DashboardOutcome)

structure Job where
  requestId : Str
  control : JobControl
  owner : OwnerPhase := .unstarted
  done : Bool := false
  outcome : Option DashboardOutcome := none
  reader : ReaderPhase := .starting
  cancelRequested : Bool := false
  /-- Whether a process of the worker's group exists. -/
  worker : Bool := false
  /-- What was captured of the worker, kept for the statements about it. -/
  capture : Option Capture := none

inductive OwnerAct where
  | enter (platformSupported : Bool)
  | prepare (result : Except Raised Unit)
  /-- A launch that fails may leave a process behind. -/
  | launch (result : Except Raised Unit) (left : Bool)
  | recheck
  | capture (capture : Capture)
  | finish
  | finalize (seen : Cleanup)
  | log (written : Bool)
  | exit

inductive ReaderAct where
  /-- A thread whose start fails may run all the same. -/
  | start (started ran : Bool)
  | cancel
  | flag
  | check

namespace Job

def elapsedMs (now : ℕ) (job : Job) : ℕ := (now - job.control.started) / 1000000

/-- The supervisor goes on to a phase, unless the job has been stopped. -/
def unlessStopped (now : ℕ) (next : OwnerPhase) (stop : DashboardCode → Attempt) (job : Job) :
    Job :=
  let control := (job.control.stopped now).2
  { job with
    control
    owner := if (job.control.stopped now).1 then .finishing (stop control.stopCode) else next }

def cleanupOk (now : ℕ) (attempt : Attempt) (seen : Cleanup) (job : Job) : Bool :=
  let inTime := job.control.cleanupDeadline.any (now < ·)
  if attempt.process then seen.verified && inTime else !attempt.spawnEntered && inTime

def outcomeOf (now : ℕ) (attempt : Attempt) (cleanupOk : Bool) (job : Job) : DashboardOutcome where
  code := if cleanupOk then attempt.code else some .cleanupUnverified
  lastPhase := attempt.lastPhase
  elapsedMs := job.elapsedMs now
  cleanupVerified := cleanupOk
  markdown := if cleanupOk ∧ attempt.code = none then attempt.markdown else none

/-- An outcome that could not be logged is not a success. -/
def unlogged (outcome : DashboardOutcome) : DashboardOutcome :=
  if outcome.code = none then { outcome with code := some .workerFailed, markdown := none }
  else outcome

/-- `run_dashboard_process` under `_own`, in its thread. -/
def ownerStep (decode : LineDecoder) (now : ℕ) (job : Job) : OwnerAct → Option Job
  | .enter supported =>
      match job.owner with
      | .starting =>
          if supported then some (job.unlessStopped now .preparing .unspawned)
          else some { job with owner := .finishing (.unspawned .platformUnsupported) }
      | _ => none
  | .prepare result =>
      match job.owner with
      | .preparing =>
          match result with
          | .error raised => some { job with owner := .finishing (.unspawned raised.code) }
          | .ok () => some (job.unlessStopped now .launching .unspawned)
      | _ => none
  | .launch result left =>
      match job.owner with
      | .launching =>
          match result with
          | .error raised =>
              some { job with
                worker := left
                owner := .finishing { Attempt.unspawned raised.code with spawnEntered := true } }
          | .ok () => some { job with worker := true, owner := .launched }
      | _ => none
  | .recheck =>
      match job.owner with
      | .launched =>
          some (job.unlessStopped now .capturing fun code => .spawned (some code) none none)
      | _ => none
  | .capture capture =>
      match job.owner with
      | .capturing =>
          match capture.ending with
          | .stopped =>
              let (stopped, control) := job.control.stopped now
              if stopped then
                some { job with
                  control
                  capture
                  owner := .finishing (capture.attempt decode job.requestId control) }
              else none
          | _ =>
              some { job with
                capture
                owner := .finishing (capture.attempt decode job.requestId job.control) }
      | _ => none
  | .finish =>
      match job.owner with
      | .finishing attempt =>
          let control := job.control.finishExecution now attempt.code
          some { job with control, owner := .finalizing { attempt with code := control.reason } }
      | _ => none
  | .finalize seen =>
      match job.owner with
      | .finalizing attempt =>
          -- a group that signal 0 does not find has no process left
          if seen.groupState = some false ∧ job.worker then none
          else some { job with
            outcome := some (job.outcomeOf now attempt (job.cleanupOk now attempt seen))
            owner := .logging }
      | _ => none
  | .log written =>
      match job.owner with
      | .logging =>
          if written then some { job with done := true, owner := .exiting }
          else some { job with
            control := job.control.beginCleanup now (some .workerFailed)
            outcome := job.outcome.map unlogged
            done := true
            owner := .exiting }
      | _ => none
  | .exit =>
      match job.owner with
      | .exiting => some { job with owner := .exited }
      | _ => none

/-- `read` and `_wait_owner`, in the task of the caller. -/
def readerStep (now : ℕ) (job : Job) : ReaderAct → Option Job
  | .start started ran =>
      match job.reader with
      | .starting =>
          if started then some { job with owner := .starting, reader := .waiting }
          else some { job with
            control := job.control.beginCleanup now (some .workerFailed)
            owner := if ran then .starting else .unstarted
            reader := .flagging true }
      | _ => none
  | .cancel =>
      match job.reader with
      | .waiting =>
          some { job with
            control := job.control.beginCleanup now (some .workerFailed)
            cancelRequested := true
            reader := .flagging false }
      | _ => none
  | .flag =>
      match job.reader with
      | .flagging setDone =>
          some { job with
            control := { job.control with cancelled := true }
            done := job.done || setDone
            reader := .waiting }
      | _ => none
  | .check =>
      match job.reader with
      | .waiting =>
          if job.done && !job.owner.alive then some { job with reader := .settling }
          else
            let control :=
              if job.control.executionDeadline ≤ now then
                job.control.beginCleanup now (some .timeout)
              else job.control
            some { job with
              control
              reader := if control.cleanupDeadline.any (· ≤ now) then .settling else .waiting }
      | _ => none

def joined (now : ℕ) (job : Job) : Bool :=
  job.done && !job.owner.alive && job.control.cleanupDeadline.any (now < ·)

def verified (now : ℕ) (job : Job) : Bool :=
  job.joined now && job.outcome.any (·.cleanupVerified)

/-- The outcome of the read. An unverified one says nothing but how far the worker came. -/
def settled (now : ℕ) (job : Job) : DashboardOutcome :=
  match job.verified now, job.outcome with
  | true, some outcome => outcome
  | _, outcome =>
      { code := some .cleanupUnverified
        lastPhase := outcome.bind (·.lastPhase)
        elapsedMs := job.elapsedMs now
        cleanupVerified := false }

end Job

structure DashboardJobs where
  now : ℕ := 0
  active : Option ℕ := none
  poisoned : Bool := false
  jobs : List Job := []

inductive Action where
  | read (requestId : Str)
  | owner (i : ℕ) (act : OwnerAct)
  | reader (i : ℕ) (act : ReaderAct)
  | settle (i : ℕ)
  | workerExits (i : ℕ)
  | tick (elapsed : ℕ)

namespace DashboardJobs

/-- What a read is answered that finds the permit taken. -/
def refusal (s : DashboardJobs) : Option DashboardOutcome :=
  s.active.map fun _ =>
    { code := some (if s.poisoned then .cleanupUnverified else .busy)
      elapsedMs := 0
      cleanupVerified := false }

def modify (i : ℕ) (f : Job → Option Job) (s : DashboardJobs) : Option DashboardJobs :=
  (s.jobs[i]?.bind f).map fun job => { s with jobs := s.jobs.set i job }

/-- The end of `read`, under the lock. -/
def settle (i : ℕ) (s : DashboardJobs) : Option DashboardJobs :=
  match s.jobs[i]? with
  | some job =>
      match job.reader with
      | .settling =>
          let verified := job.verified s.now
          let answer := if job.cancelRequested then none else some (job.settled s.now)
          some { s with
            active := if verified then none else s.active
            poisoned := s.poisoned || !verified
            jobs := s.jobs.set i { job with reader := .returned verified answer } }
      | _ => none
  | none => none

def step (decode : LineDecoder) (limits : DashboardLimits) (s : DashboardJobs) :
    Action → Option DashboardJobs
  | .read requestId =>
      if s.active.isSome then some s
      else some { s with
        active := some s.jobs.length
        jobs := s.jobs ++ [{ requestId, control := .new limits s.now }] }
  | .owner i act => s.modify i (·.ownerStep decode s.now act)
  | .reader i act => s.modify i (·.readerStep s.now act)
  | .settle i => s.settle i
  | .workerExits i => s.modify i fun job => some { job with worker := false }
  | .tick elapsed => some { s with now := s.now + elapsed }

end DashboardJobs

/-! ## At most one worker -/

section Exclusion

variable {decode : LineDecoder} {limits : DashboardLimits} {s t : DashboardJobs} {a : Action}
  {now i : ℕ} {job next : Job}

/-- Whether a phase leaves room for a process of the worker's group. -/
def Job.MayWork (job : Job) : Prop :=
  match job.owner with
  | .unstarted | .starting | .preparing | .launching => False
  | .launched | .capturing => True
  | .finishing attempt | .finalizing attempt => attempt.spawnEntered = true
  | .logging | .exiting | .exited => ∀ o, job.outcome = some o → o.cleanupVerified = false

/-- Whether the owner has left its outcome. -/
def OwnerPhase.reported : OwnerPhase → Bool
  | .logging | .exiting | .exited => true
  | _ => false

theorem OwnerPhase.eq_exited {phase : OwnerPhase} (hAlive : phase.alive = false)
    (hReported : phase.reported = true) : phase = .exited := by
  cases phase <;> simp_all [alive, reported]

structure JobInv (job : Job) : Prop where
  worker : job.worker = true → job.MayWork
  reported : job.outcome.isSome = job.owner.reported
  entered : ∀ attempt, job.owner = .finishing attempt ∨ job.owner = .finalizing attempt →
    attempt.process = true → attempt.spawnEntered = true
  unread : job.reader = .starting → job.owner = .unstarted
  returned : ∀ answer, job.reader = .returned true answer →
    job.owner = .exited ∧ job.worker = false

theorem Attempt.capture_entered (decode : LineDecoder) (requestId : Str) (control : JobControl)
    (capture : Capture) :
    (capture.attempt decode requestId control).spawnEntered = true ∧
      (capture.attempt decode requestId control).process = true := by
  rw [Capture.attempt]
  split
  · exact ⟨rfl, rfl⟩
  · split
    · exact ⟨rfl, rfl⟩
    · exact ⟨rfl, rfl⟩
    · exact ⟨rfl, rfl⟩
    · split <;> exact ⟨rfl, rfl⟩

theorem Job.unlessStopped_owner (now : ℕ) (phase : OwnerPhase) (stop : DashboardCode → Attempt)
    (job : Job) : (job.unlessStopped now phase stop).owner = phase ∨
      ∃ code, (job.unlessStopped now phase stop).owner = .finishing (stop code) := by
  rw [unlessStopped]
  dsimp only
  split_ifs
  · exact .inr ⟨_, rfl⟩
  · exact .inl rfl

/-- While the owner is alive, its reader has started it and has not given the permit back. -/
theorem JobInv.of_alive (h : JobInv job) (hAlive : job.owner.alive = true)
    (hReader : next.reader = job.reader) (hWorker : next.worker = true → next.MayWork)
    (hReported : next.outcome.isSome = next.owner.reported)
    (hEntered : ∀ attempt, next.owner = .finishing attempt ∨ next.owner = .finalizing attempt →
      attempt.process = true → attempt.spawnEntered = true) : JobInv next where
  worker := hWorker
  reported := hReported
  entered := hEntered
  unread := by
    intro hStarting
    rw [h.unread (hReader.symm.trans hStarting)] at hAlive
    cases hAlive
  returned := by
    intro answer hReturned
    rw [(h.returned answer (hReader.symm.trans hReturned)).1] at hAlive
    cases hAlive

theorem JobInv.unlessStopped (h : JobInv job) {phase : OwnerPhase}
    {stop : DashboardCode → Attempt} (hAlive : job.owner.alive = true)
    (hReported : job.owner.reported = false) (hPhase : phase.reported = false)
    (hWorker : job.worker = true → (∀ code, (stop code).spawnEntered = true) ∧
      ({ job with owner := phase } : Job).MayWork)
    (hStop : ∀ code, (stop code).process = true → (stop code).spawnEntered = true)
    (hNext : ∀ attempt, phase ≠ .finishing attempt ∧ phase ≠ .finalizing attempt) :
    JobInv (job.unlessStopped now phase stop) := by
  have hNone : job.outcome.isSome = false := h.reported.trans hReported
  rcases job.unlessStopped_owner now phase stop with hOwner | ⟨code, hOwner⟩
  · refine h.of_alive hAlive rfl ?_ ?_ ?_
    · intro hHas
      have hMay := (hWorker hHas).2
      rw [Job.MayWork] at hMay ⊢
      rw [hOwner]
      exact hMay
    · rw [hOwner, hPhase]
      exact hNone
    · intro attempt hAttempt
      rw [hOwner] at hAttempt
      exact absurd hAttempt (not_or.mpr (hNext attempt))
  · refine h.of_alive hAlive rfl ?_ ?_ ?_
    · intro hHas
      rw [Job.MayWork, hOwner]
      exact (hWorker hHas).1 code
    · rw [hOwner]
      exact hNone
    · intro attempt hAttempt
      rw [hOwner] at hAttempt
      rcases hAttempt with hEq | hEq <;> cases hEq
      exact hStop code

theorem Job.enter_eq_some {supported : Bool} :
    job.ownerStep decode now (.enter supported) = some next ↔ job.owner = .starting ∧
      (if supported then job.unlessStopped now .preparing .unspawned
        else { job with owner := .finishing (.unspawned .platformUnsupported) }) = next := by
  rw [ownerStep]
  split
  · split_ifs <;> simp_all
  · simp_all

theorem Job.prepare_eq_some {result : Except Raised Unit} :
    job.ownerStep decode now (.prepare result) = some next ↔ job.owner = .preparing ∧
      (match result with
        | .error raised => { job with owner := .finishing (.unspawned raised.code) }
        | .ok () => job.unlessStopped now .launching .unspawned) = next := by
  rw [ownerStep.eq_def]
  dsimp only
  cases result <;> split <;> simp_all

theorem Job.launch_eq_some {result : Except Raised Unit} {left : Bool} :
    job.ownerStep decode now (.launch result left) = some next ↔ job.owner = .launching ∧
      (match result with
        | .error raised =>
            { job with
              worker := left
              owner := .finishing { Attempt.unspawned raised.code with spawnEntered := true } }
        | .ok () => { job with worker := true, owner := .launched }) = next := by
  rw [ownerStep.eq_def]
  dsimp only
  cases result <;> split <;> simp_all

theorem Job.recheck_eq_some :
    job.ownerStep decode now .recheck = some next ↔ job.owner = .launched ∧
      job.unlessStopped now .capturing (fun code => .spawned (some code) none none) = next := by
  rw [ownerStep]
  split <;> simp_all

/-- The supervisor reads the clock in every round, and stops when it is late. -/
theorem Job.capture_eq_some {capture : Capture} :
    job.ownerStep decode now (.capture capture) = some next → job.owner = .capturing ∧
      ∃ control, (control = job.control ∨ control = (job.control.stopped now).2) ∧
        { job with
          control
          capture
          owner := .finishing (capture.attempt decode job.requestId control) } = next := by
  rw [ownerStep]
  intro h
  split at h
  · refine ⟨by assumption, ?_⟩
    split at h
    · dsimp only at h
      split_ifs at h
      exact ⟨_, .inr rfl, Option.some.inj h⟩
    · exact ⟨_, .inl rfl, Option.some.inj h⟩
  · cases h

theorem Job.finish_eq_some :
    job.ownerStep decode now .finish = some next ↔ ∃ attempt, job.owner = .finishing attempt ∧
      { job with
        control := job.control.finishExecution now attempt.code
        owner := .finalizing { attempt with
          code := (job.control.finishExecution now attempt.code).reason } } = next := by
  rw [ownerStep]
  split <;> simp_all

theorem Job.finalize_eq_some {seen : Cleanup} :
    job.ownerStep decode now (.finalize seen) = some next ↔
      ∃ attempt, job.owner = .finalizing attempt ∧
        ¬(seen.groupState = some false ∧ job.worker = true) ∧
        { job with
          outcome := some (job.outcomeOf now attempt (job.cleanupOk now attempt seen))
          owner := .logging } = next := by
  rw [ownerStep]
  split
  · split_ifs <;> simp_all
  · simp_all

theorem Job.log_eq_some {written : Bool} :
    job.ownerStep decode now (.log written) = some next ↔ job.owner = .logging ∧
      (if written then { job with done := true, owner := .exiting }
        else { job with
          control := job.control.beginCleanup now (some .workerFailed)
          outcome := job.outcome.map unlogged
          done := true
          owner := .exiting }) = next := by
  rw [ownerStep]
  split
  · split_ifs <;> simp_all
  · simp_all

theorem Job.exit_eq_some :
    job.ownerStep decode now .exit = some next ↔ job.owner = .exiting ∧
      { job with owner := .exited } = next := by
  rw [ownerStep]
  split <;> simp_all

theorem JobInv.idle (h : JobInv job) (hMay : ¬job.MayWork) : job.worker = false := by
  cases hWorker : job.worker with
  | false => rfl
  | true => exact absurd (h.worker hWorker) hMay

theorem JobInv.outcome_eq_none (h : JobInv job) (hReported : job.owner.reported = false) :
    job.outcome.isSome = false := h.reported.trans hReported

/-- An outcome whose cleanup is verified leaves no process behind. -/
theorem JobInv.cleanupOk (h : JobInv job) {attempt : Attempt} {seen : Cleanup}
    (hOwner : job.owner = .finalizing attempt)
    (hSeen : ¬(seen.groupState = some false ∧ job.worker = true))
    (hOk : job.cleanupOk now attempt seen = true) : job.worker = false := by
  cases hWorker : job.worker with
  | false => rfl
  | true =>
      have hMay := h.worker hWorker
      rw [Job.MayWork, hOwner] at hMay
      have hEntered : attempt.spawnEntered = true := hMay
      rw [Job.cleanupOk] at hOk
      split_ifs at hOk with hProcess
      · simp only [Cleanup.verified, Bool.and_eq_true, beq_iff_eq] at hOk
        exact absurd ⟨hOk.1.2, hWorker⟩ hSeen
      · rw [hEntered] at hOk
        cases hOk

theorem JobInv.ownerStep (h : JobInv job) {act : OwnerAct}
    (hStep : job.ownerStep decode now act = some next) : JobInv next := by
  cases act with
  | enter supported =>
      obtain ⟨hOwner, rfl⟩ := Job.enter_eq_some.mp hStep
      have hIdle := h.idle (by rw [Job.MayWork, hOwner]; exact not_false)
      have hNone := h.outcome_eq_none (by rw [hOwner]; rfl)
      split_ifs
      · refine h.unlessStopped (by rw [hOwner]; rfl) (by rw [hOwner]; rfl) rfl ?_ ?_ ?_
        · intro hHas
          rw [hIdle] at hHas
          cases hHas
        · rintro code ⟨⟩
        · exact fun attempt => ⟨by rintro ⟨⟩, by rintro ⟨⟩⟩
      · refine h.of_alive (by rw [hOwner]; rfl) rfl ?_ hNone ?_
        · intro hHas
          exact absurd (hIdle.symm.trans hHas) Bool.false_ne_true
        · rintro attempt (hEq | hEq) <;> cases hEq
          rintro ⟨⟩
  | prepare result =>
      obtain ⟨hOwner, rfl⟩ := Job.prepare_eq_some.mp hStep
      have hIdle := h.idle (by rw [Job.MayWork, hOwner]; exact not_false)
      have hNone := h.outcome_eq_none (by rw [hOwner]; rfl)
      cases result with
      | error raised =>
          refine h.of_alive (by rw [hOwner]; rfl) rfl ?_ hNone ?_
          · intro hHas
            exact absurd (hIdle.symm.trans hHas) Bool.false_ne_true
          · rintro attempt (hEq | hEq) <;> cases hEq
            rintro ⟨⟩
      | ok u =>
          refine h.unlessStopped (by rw [hOwner]; rfl) (by rw [hOwner]; rfl) rfl ?_ ?_ ?_
          · intro hHas
            rw [hIdle] at hHas
            cases hHas
          · rintro code ⟨⟩
          · exact fun attempt => ⟨by rintro ⟨⟩, by rintro ⟨⟩⟩
  | launch result left =>
      obtain ⟨hOwner, rfl⟩ := Job.launch_eq_some.mp hStep
      have hNone := h.outcome_eq_none (by rw [hOwner]; rfl)
      cases result with
      | error raised =>
          refine h.of_alive (by rw [hOwner]; rfl) rfl (fun _ => rfl) hNone ?_
          rintro attempt (hEq | hEq) <;> cases hEq
          rintro ⟨⟩
      | ok u =>
          refine h.of_alive (by rw [hOwner]; rfl) rfl (fun _ => trivial) hNone ?_
          rintro attempt (hEq | hEq) <;> cases hEq
  | recheck =>
      obtain ⟨hOwner, rfl⟩ := Job.recheck_eq_some.mp hStep
      refine h.unlessStopped (by rw [hOwner]; rfl) (by rw [hOwner]; rfl) rfl ?_ ?_ ?_
      · exact fun _ => ⟨fun code => rfl, trivial⟩
      · exact fun code _ => rfl
      · exact fun attempt => ⟨by rintro ⟨⟩, by rintro ⟨⟩⟩
  | capture capture =>
      obtain ⟨hOwner, control, -, rfl⟩ := Job.capture_eq_some hStep
      have hNone := h.outcome_eq_none (by rw [hOwner]; rfl)
      have hEntered := Attempt.capture_entered decode job.requestId control capture
      refine h.of_alive (by rw [hOwner]; rfl) rfl (fun _ => hEntered.1) hNone ?_
      rintro attempt (hEq | hEq) <;> cases hEq
      exact fun _ => hEntered.1
  | finish =>
      obtain ⟨attempt, hOwner, rfl⟩ := Job.finish_eq_some.mp hStep
      have hNone := h.outcome_eq_none (by rw [hOwner]; rfl)
      refine h.of_alive (by rw [hOwner]; rfl) rfl ?_ hNone ?_
      · intro hHas
        have hMay := h.worker hHas
        rw [Job.MayWork, hOwner] at hMay
        exact hMay
      · rintro other (hEq | hEq) <;> cases hEq
        exact h.entered attempt (.inl hOwner)
  | finalize seen =>
      obtain ⟨attempt, hOwner, hSeen, rfl⟩ := Job.finalize_eq_some.mp hStep
      refine h.of_alive (by rw [hOwner]; rfl) rfl ?_ rfl ?_
      · rintro hHas o hOutcome
        obtain rfl := Option.some.inj hOutcome
        cases hOk : job.cleanupOk now attempt seen with
        | false => rfl
        | true => exact absurd ((h.cleanupOk hOwner hSeen hOk).symm.trans hHas) Bool.false_ne_true
      · rintro other (hEq | hEq) <;> cases hEq
  | log written =>
      obtain ⟨hOwner, rfl⟩ := Job.log_eq_some.mp hStep
      have hSome : job.outcome.isSome = true := by rw [h.reported, hOwner]; rfl
      have hMay (hHas : job.worker = true) :
          ∀ o, job.outcome = some o → o.cleanupVerified = false := by
        have hMay := h.worker hHas
        rwa [Job.MayWork, hOwner] at hMay
      split_ifs
      · refine h.of_alive (by rw [hOwner]; rfl) rfl hMay hSome ?_
        rintro other (hEq | hEq) <;> cases hEq
      · refine h.of_alive (by rw [hOwner]; rfl) rfl ?_ (by rw [Option.isSome_map]; exact hSome) ?_
        · rintro hHas o hOutcome
          obtain ⟨before, hBefore, rfl⟩ := Option.map_eq_some_iff.mp hOutcome
          rw [Job.unlogged]
          split_ifs <;> exact hMay hHas before hBefore
        · rintro other (hEq | hEq) <;> cases hEq
  | exit =>
      obtain ⟨hOwner, rfl⟩ := Job.exit_eq_some.mp hStep
      have hSome : job.outcome.isSome = true := by rw [h.reported, hOwner]; rfl
      refine h.of_alive (by rw [hOwner]; rfl) rfl ?_ hSome ?_
      · intro hHas
        have hMay := h.worker hHas
        rwa [Job.MayWork, hOwner] at hMay
      · rintro other (hEq | hEq) <;> cases hEq

theorem Job.start_eq_some {started ran : Bool} :
    job.readerStep now (.start started ran) = some next ↔ job.reader = .starting ∧
      (if started then { job with owner := .starting, reader := .waiting }
        else { job with
          control := job.control.beginCleanup now (some .workerFailed)
          owner := if ran then .starting else .unstarted
          reader := .flagging true }) = next := by
  rw [readerStep]
  split
  · cases started <;> simp_all
  · simp_all

theorem Job.cancel_eq_some :
    job.readerStep now .cancel = some next ↔ job.reader = .waiting ∧
      { job with
        control := job.control.beginCleanup now (some .workerFailed)
        cancelRequested := true
        reader := .flagging false } = next := by
  rw [readerStep]
  split <;> simp_all

theorem Job.flag_eq_some :
    job.readerStep now .flag = some next ↔ ∃ setDone, job.reader = .flagging setDone ∧
      { job with
        control := { job.control with cancelled := true }
        done := job.done || setDone
        reader := .waiting } = next := by
  rw [readerStep]
  split <;> simp_all

/-- A check ends the waiting or goes on with it, and may set the deadline of the cleanup. -/
theorem Job.check_eq_some (h : job.readerStep now .check = some next) :
    job.reader = .waiting ∧ ∃ control phase, (phase = .settling ∨ phase = .waiting) ∧
      (control = job.control ∨ job.control.executionDeadline ≤ now ∧
        control = job.control.beginCleanup now (some .timeout)) ∧
      { job with control, reader := phase } = next := by
  rw [readerStep] at h
  split at h
  · refine ⟨by assumption, ?_⟩
    split_ifs at h with hDone hLate
    · exact ⟨job.control, _, .inl rfl, .inl rfl, Option.some.inj h⟩
    · refine ⟨_, _, ?_, .inr ⟨hLate, rfl⟩, Option.some.inj h⟩
      split_ifs
      · exact .inl rfl
      · exact .inr rfl
    · refine ⟨_, _, ?_, .inl rfl, Option.some.inj h⟩
      split_ifs
      · exact .inl rfl
      · exact .inr rfl
  · cases h

/-- What a step keeps that leaves the owner, the outcome and the worker alone. -/
theorem JobInv.of_owner (h : JobInv job) (hOwner : next.owner = job.owner)
    (hOutcome : next.outcome = job.outcome) (hWorker : next.worker = true → job.worker = true)
    (hUnread : next.reader = .starting → job.reader = .starting)
    (hReturned : ∀ answer, next.reader = .returned true answer →
      next.owner = .exited ∧ next.worker = false) : JobInv next where
  worker := by
    intro hHas
    have hMay := h.worker (hWorker hHas)
    rw [Job.MayWork] at hMay ⊢
    rw [hOwner, hOutcome]
    exact hMay
  reported := by
    rw [hOwner, hOutcome]
    exact h.reported
  entered := by
    rw [hOwner]
    exact h.entered
  unread := by
    intro hStarting
    rw [hOwner]
    exact h.unread (hUnread hStarting)
  returned := hReturned

theorem JobInv.started (h : JobInv job) (hReader : job.reader = .starting)
    {phase : OwnerPhase} (hPhase : phase = .starting ∨ phase = .unstarted)
    {control : JobControl} {reader : ReaderPhase} (hNext : reader ≠ .starting)
    (hReturned : ∀ answer, reader ≠ .returned true answer) :
    JobInv { job with control, owner := phase, reader } := by
  have hOwner := h.unread hReader
  have hIdle := h.idle (by rw [Job.MayWork, hOwner]; exact not_false)
  have hNone := h.outcome_eq_none (by rw [hOwner]; rfl)
  refine ⟨?_, ?_, ?_, fun hStarting => absurd hStarting hNext, ?_⟩
  · intro hHas
    exact absurd (hIdle.symm.trans hHas) Bool.false_ne_true
  · rcases hPhase with rfl | rfl <;> exact hNone
  · rcases hPhase with rfl | rfl <;> rintro attempt (hEq | hEq) <;> cases hEq
  · intro answer hEq
    exact absurd hEq (hReturned answer)

theorem JobInv.readerStep (h : JobInv job) {act : ReaderAct}
    (hStep : job.readerStep now act = some next) : JobInv next := by
  cases act with
  | start started ran =>
      obtain ⟨hReader, rfl⟩ := Job.start_eq_some.mp hStep
      cases started with
      | true => exact h.started hReader (.inl rfl) (by rintro ⟨⟩) (by rintro answer ⟨⟩)
      | false =>
          cases ran with
          | true => exact h.started hReader (.inl rfl) (by rintro ⟨⟩) (by rintro answer ⟨⟩)
          | false => exact h.started hReader (.inr rfl) (by rintro ⟨⟩) (by rintro answer ⟨⟩)
  | cancel =>
      obtain ⟨hReader, rfl⟩ := Job.cancel_eq_some.mp hStep
      exact h.of_owner rfl rfl id (by rintro ⟨⟩) (by rintro answer ⟨⟩)
  | flag =>
      obtain ⟨setDone, hReader, rfl⟩ := Job.flag_eq_some.mp hStep
      exact h.of_owner rfl rfl id (by rintro ⟨⟩) (by rintro answer ⟨⟩)
  | check =>
      obtain ⟨hReader, control, phase, hPhase, -, rfl⟩ := Job.check_eq_some hStep
      rcases hPhase with rfl | rfl
      · exact h.of_owner rfl rfl id (by rintro ⟨⟩) (by rintro answer ⟨⟩)
      · exact h.of_owner rfl rfl id (by rintro ⟨⟩) (by rintro answer ⟨⟩)

/-- A verified end is that of an owner which has exited, with no process left. -/
theorem JobInv.of_verified (h : JobInv job) (hVerified : job.verified now = true) :
    job.owner = .exited ∧ job.worker = false := by
  rw [Job.verified, Job.joined, Bool.and_eq_true, Bool.and_eq_true, Bool.and_eq_true,
    Bool.not_eq_true'] at hVerified
  obtain ⟨⟨⟨-, hAlive⟩, -⟩, hAny⟩ := hVerified
  cases hOutcome : job.outcome with
  | none =>
      rw [hOutcome] at hAny
      cases hAny
  | some o =>
      rw [hOutcome] at hAny
      have hReported := h.reported
      rw [hOutcome] at hReported
      have hExited := OwnerPhase.eq_exited hAlive hReported.symm
      refine ⟨hExited, h.idle ?_⟩
      rw [Job.MayWork, hExited]
      intro hMay
      exact absurd ((hMay o hOutcome).symm.trans hAny) Bool.false_ne_true

theorem JobInv.new (requestId : Str) (control : JobControl) : JobInv { requestId, control } where
  worker := by rintro ⟨⟩
  reported := rfl
  entered := by rintro attempt (hEq | hEq) <;> cases hEq
  unread _ := rfl
  returned := by rintro answer ⟨⟩

/-- The permit belongs to the one job that has not been verified, and a poisoned permit to one
whose reader has left. -/
structure Inv (s : DashboardJobs) : Prop where
  job : ∀ (i : ℕ) job, s.jobs[i]? = some job → JobInv job
  rest : ∀ (i : ℕ) job, s.jobs[i]? = some job → s.active ≠ some i →
    ∃ answer, job.reader = .returned true answer
  active : ∀ i : ℕ, s.active = some i → ∃ job, s.jobs[i]? = some job ∧
    ∀ verified answer, job.reader = .returned verified answer →
      verified = false ∧ s.poisoned = true
  poisoned : s.poisoned = true → ∃ (i : ℕ) (job : Job) (answer : Option DashboardOutcome),
    s.active = some i ∧ s.jobs[i]? = some job ∧ job.reader = .returned false answer

theorem DashboardJobs.modify_eq_some {f : Job → Option Job} :
    s.modify i f = some t ↔ ∃ job next, s.jobs[i]? = some job ∧ f job = some next ∧
      { s with jobs := s.jobs.set i next } = t := by
  rw [modify]
  cases s.jobs[i]? <;> simp

theorem Job.unlessStopped_reader (now : ℕ) (phase : OwnerPhase) (stop : DashboardCode → Attempt)
    (job : Job) : (job.unlessStopped now phase stop).reader = job.reader := rfl

theorem Job.ownerStep_reader {act : OwnerAct} (hStep : job.ownerStep decode now act = some next) :
    next.reader = job.reader := by
  cases act with
  | enter supported =>
      obtain ⟨-, rfl⟩ := enter_eq_some.mp hStep
      cases supported <;> rfl
  | prepare result =>
      obtain ⟨-, rfl⟩ := prepare_eq_some.mp hStep
      cases result <;> rfl
  | launch result left =>
      obtain ⟨-, rfl⟩ := launch_eq_some.mp hStep
      cases result <;> rfl
  | recheck =>
      obtain ⟨-, rfl⟩ := recheck_eq_some.mp hStep
      rfl
  | capture capture =>
      obtain ⟨-, control, -, rfl⟩ := capture_eq_some hStep
      rfl
  | finish =>
      obtain ⟨attempt, -, rfl⟩ := finish_eq_some.mp hStep
      rfl
  | finalize seen =>
      obtain ⟨attempt, -, -, rfl⟩ := finalize_eq_some.mp hStep
      rfl
  | log written =>
      obtain ⟨-, rfl⟩ := log_eq_some.mp hStep
      cases written <;> rfl
  | exit =>
      obtain ⟨-, rfl⟩ := exit_eq_some.mp hStep
      rfl

/-- The reader moves only until its end under the lock. -/
theorem Job.readerStep_reader {act : ReaderAct} (hStep : job.readerStep now act = some next) :
    (∀ verified answer, job.reader ≠ .returned verified answer) ∧
      ∀ verified answer, next.reader ≠ .returned verified answer := by
  cases act with
  | start started ran =>
      obtain ⟨hReader, rfl⟩ := start_eq_some.mp hStep
      rw [hReader]
      cases started <;> exact ⟨by rintro verified answer ⟨⟩, by rintro verified answer ⟨⟩⟩
  | cancel =>
      obtain ⟨hReader, rfl⟩ := cancel_eq_some.mp hStep
      rw [hReader]
      exact ⟨by rintro verified answer ⟨⟩, by rintro verified answer ⟨⟩⟩
  | flag =>
      obtain ⟨setDone, hReader, rfl⟩ := flag_eq_some.mp hStep
      rw [hReader]
      exact ⟨by rintro verified answer ⟨⟩, by rintro verified answer ⟨⟩⟩
  | check =>
      obtain ⟨hReader, control, phase, hPhase, -, rfl⟩ := check_eq_some hStep
      rw [hReader]
      rcases hPhase with rfl | rfl <;>
        exact ⟨by rintro verified answer ⟨⟩, by rintro verified answer ⟨⟩⟩

/-- A job may take a step that does not end its read. -/
theorem Inv.set (h : Inv s) (hGet : s.jobs[i]? = some job) (hNext : JobInv next)
    (hReader : next.reader = job.reader ∨
      (∀ verified answer, job.reader ≠ .returned verified answer) ∧
        ∀ verified answer, next.reader ≠ .returned verified answer) :
    Inv { s with jobs := s.jobs.set i next } := by
  have hLt : i < s.jobs.length := (List.getElem?_eq_some_iff.mp hGet).1
  have hSelf : (s.jobs.set i next)[i]? = some next := List.getElem?_set_self hLt
  have hOther {j : ℕ} (hNe : i ≠ j) : (s.jobs.set i next)[j]? = s.jobs[j]? :=
    List.getElem?_set_ne hNe
  have hReturned {verified : Bool} {answer : Option DashboardOutcome}
      (hEnd : job.reader = .returned verified answer) : next.reader = job.reader :=
    hReader.resolve_right fun hNot => hNot.1 _ _ hEnd
  refine ⟨?_, ?_, ?_, ?_⟩
  · intro j other hJ
    by_cases hNe : i = j
    · subst hNe
      obtain rfl := Option.some.inj (hSelf.symm.trans hJ)
      exact hNext
    · exact h.job j other ((hOther hNe).symm.trans hJ)
  · intro j other hJ hActive
    by_cases hNe : i = j
    · subst hNe
      obtain rfl := Option.some.inj (hSelf.symm.trans hJ)
      obtain ⟨answer, hEnd⟩ := h.rest i job hGet hActive
      exact ⟨answer, (hReturned hEnd).trans hEnd⟩
    · exact h.rest j other ((hOther hNe).symm.trans hJ) hActive
  · intro j hActive
    obtain ⟨other, hJ, hEnd⟩ := h.active j hActive
    by_cases hNe : i = j
    · subst hNe
      obtain rfl := Option.some.inj (hGet.symm.trans hJ)
      refine ⟨next, hSelf, ?_⟩
      intro verified answer hNextEnd
      rcases hReader with hSame | hNot
      · exact hEnd verified answer (hSame.symm.trans hNextEnd)
      · exact absurd hNextEnd (hNot.2 _ _)
    · exact ⟨other, (hOther hNe).trans hJ, hEnd⟩
  · intro hPoisoned
    obtain ⟨j, other, answer, hActive, hJ, hEnd⟩ := h.poisoned hPoisoned
    by_cases hNe : i = j
    · subst hNe
      obtain rfl := Option.some.inj (hGet.symm.trans hJ)
      exact ⟨i, next, answer, hActive, hSelf, (hReturned hEnd).trans hEnd⟩
    · exact ⟨j, other, answer, hActive, (hOther hNe).trans hJ, hEnd⟩

/-- Only the job with the permit is not verified yet, unless the permit is poisoned. -/
theorem Inv.settling (h : Inv s) (hGet : s.jobs[i]? = some job) (hReader : job.reader = .settling) :
    s.active = some i ∧ s.poisoned = false := by
  have hActive : s.active = some i := by
    by_contra hNe
    obtain ⟨answer, hEnd⟩ := h.rest i job hGet hNe
    rw [hReader] at hEnd
    cases hEnd
  refine ⟨hActive, ?_⟩
  cases hPoisoned : s.poisoned with
  | false => rfl
  | true =>
      obtain ⟨j, other, answer, hOther, hJ, hEnd⟩ := h.poisoned hPoisoned
      obtain rfl := Option.some.inj (hActive.symm.trans hOther)
      obtain rfl := Option.some.inj (hGet.symm.trans hJ)
      rw [hReader] at hEnd
      cases hEnd

theorem DashboardJobs.settle_eq_some :
    s.settle i = some t ↔ ∃ job, s.jobs[i]? = some job ∧ job.reader = .settling ∧
      { s with
        active := if job.verified s.now then none else s.active
        poisoned := s.poisoned || !job.verified s.now
        jobs := s.jobs.set i { job with
          reader := .returned (job.verified s.now)
            (if job.cancelRequested then none else some (job.settled s.now)) } } = t := by
  rw [settle]
  cases s.jobs[i]? with
  | none => simp
  | some job =>
      dsimp only
      split <;> simp_all

theorem Inv.settle (h : Inv s) (hStep : s.settle i = some t) : Inv t := by
  obtain ⟨job, hGet, hReader, rfl⟩ := DashboardJobs.settle_eq_some.mp hStep
  obtain ⟨hActive, hPoisoned⟩ := h.settling hGet hReader
  have hJob := h.job i job hGet
  have hLt : i < s.jobs.length := (List.getElem?_eq_some_iff.mp hGet).1
  generalize (if job.cancelRequested then none else some (job.settled s.now)) = answer
  have hSelf (next : Job) : (s.jobs.set i next)[i]? = some next := List.getElem?_set_self hLt
  have hOther {j : ℕ} (next : Job) (hNe : i ≠ j) : (s.jobs.set i next)[j]? = s.jobs[j]? :=
    List.getElem?_set_ne hNe
  have hNext : JobInv { job with reader := .returned (job.verified s.now) answer } := by
    refine hJob.of_owner rfl rfl id (by rintro ⟨⟩) ?_
    intro other hEnd
    injection hEnd with hVerified
    exact hJob.of_verified hVerified
  refine ⟨?_, ?_, ?_, ?_⟩
  · intro j other hJ
    by_cases hNe : i = j
    · subst hNe
      obtain rfl := Option.some.inj ((hSelf _).symm.trans hJ)
      exact hNext
    · exact h.job j other ((hOther _ hNe).symm.trans hJ)
  · intro j other hJ hNotActive
    by_cases hNe : i = j
    · subst hNe
      obtain rfl := Option.some.inj ((hSelf _).symm.trans hJ)
      cases hVerified : job.verified s.now with
      | true => exact ⟨answer, rfl⟩
      | false =>
          rw [hVerified] at hNotActive
          exact absurd hActive hNotActive
    · refine h.rest j other ((hOther _ hNe).symm.trans hJ) ?_
      rw [hActive]
      exact fun hEq => hNe (Option.some.inj hEq)
  · intro j hStill
    cases hVerified : job.verified s.now with
    | true =>
        rw [hVerified] at hStill
        cases hStill
    | false =>
        rw [hVerified] at hStill
        obtain rfl := Option.some.inj (hActive.symm.trans hStill)
        refine ⟨_, hSelf _, ?_⟩
        intro verified other hEnd
        injection hEnd with hEq
        exact ⟨hEq.symm, Bool.or_true _⟩
  · intro hNow
    cases hVerified : job.verified s.now with
    | true =>
        rw [hVerified, hPoisoned] at hNow
        cases hNow
    | false => exact ⟨i, _, answer, hActive, hSelf _, rfl⟩

theorem getElem?_concat_cases {jobs : List Job} {last : Job} (h : (jobs ++ [last])[i]? = some job) :
    jobs[i]? = some job ∨ i = jobs.length ∧ last = job := by
  rw [List.getElem?_append] at h
  split_ifs at h with hLt
  · exact .inl h
  · obtain ⟨hIndex, hEq⟩ := List.getElem?_eq_some_iff.mp h
    rw [List.length_singleton] at hIndex
    rw [List.getElem_singleton] at hEq
    exact .inr ⟨by omega, hEq⟩

/-- A read is admitted while no job has the permit. -/
theorem Inv.read (h : Inv s) (hFree : s.active = none) (requestId : Str) (control : JobControl) :
    Inv { s with
      active := some s.jobs.length
      jobs := s.jobs ++ [{ requestId, control }] } where
  job := by
    intro i job hGet
    rcases getElem?_concat_cases hGet with hOld | ⟨-, rfl⟩
    · exact h.job i job hOld
    · exact .new requestId control
  rest := by
    intro i job hGet hActive
    rcases getElem?_concat_cases hGet with hOld | ⟨rfl, -⟩
    · refine h.rest i job hOld ?_
      rw [hFree]
      rintro ⟨⟩
    · exact absurd rfl hActive
  active := by
    intro i hActive
    obtain rfl := Option.some.inj hActive
    exact ⟨_, List.getElem?_concat_length, by rintro verified answer ⟨⟩⟩
  poisoned := by
    intro hPoisoned
    obtain ⟨i, job, answer, hActive, -⟩ := h.poisoned hPoisoned
    rw [hFree] at hActive
    cases hActive

theorem Inv.step (h : Inv s) (hStep : s.step decode limits a = some t) : Inv t := by
  cases a with
  | read requestId =>
      rw [DashboardJobs.step] at hStep
      split_ifs at hStep with hTaken
      · obtain rfl := Option.some.inj hStep
        exact h
      · obtain rfl := Option.some.inj hStep
        exact h.read (Option.not_isSome_iff_eq_none.mp hTaken) requestId _
  | owner i act =>
      obtain ⟨job, next, hGet, hNext, rfl⟩ := DashboardJobs.modify_eq_some.mp hStep
      exact h.set hGet ((h.job i job hGet).ownerStep hNext) (.inl (Job.ownerStep_reader hNext))
  | reader i act =>
      obtain ⟨job, next, hGet, hNext, rfl⟩ := DashboardJobs.modify_eq_some.mp hStep
      exact h.set hGet ((h.job i job hGet).readerStep hNext) (.inr (Job.readerStep_reader hNext))
  | settle i => exact h.settle hStep
  | workerExits i =>
      obtain ⟨job, next, hGet, hNext, rfl⟩ := DashboardJobs.modify_eq_some.mp hStep
      obtain rfl := Option.some.inj hNext
      have hJob := h.job i job hGet
      refine h.set hGet (hJob.of_owner rfl rfl (by rintro ⟨⟩) id ?_) (.inl rfl)
      exact fun answer hEnd => ⟨(hJob.returned answer hEnd).1, rfl⟩
  | tick elapsed =>
      obtain rfl := Option.some.inj hStep
      exact ⟨h.job, h.rest, h.active, h.poisoned⟩

theorem Inv.init (now : ℕ) : Inv { now } where
  job := by rintro i job ⟨⟩
  rest := by rintro i job ⟨⟩
  active := by rintro i ⟨⟩
  poisoned := by rintro ⟨⟩

theorem Inv.run (h : Inv s) {C : DashboardJobs → Action → Prop}
    (run : Transition.Run (DashboardJobs.step decode limits) C s t) : Inv t :=
  run.invariant h fun _ _ _ hInv _ hStep => hInv.step hStep

section Samples

/-- A line of one byte names the stage with that number. -/
def sampleDecode : LineDecoder
  | [number] => .ok phases[number.toNat]?
  | _ => .ok none

def sampleLimits : DashboardLimits := ⟨1800, 5⟩

/-- The state after some actions. -/
def sampleState (acts : List Action) : DashboardJobs :=
  (Transition.exec (DashboardJobs.step sampleDecode sampleLimits) (fun _ _ => True) {} acts).getD {}

theorem sampleState_append (acts more : List Action)
    (h : (Transition.exec (DashboardJobs.step sampleDecode sampleLimits) (fun _ _ => True) {}
      (acts ++ more)).isSome = true) :
    Transition.Run (DashboardJobs.step sampleDecode sampleLimits) (fun _ _ => True)
      (sampleState acts) (sampleState (acts ++ more)) := by
  obtain ⟨t, hT⟩ := Option.isSome_iff_exists.mp h
  have hBoth := hT
  rw [Transition.exec, List.foldlM_append] at hBoth
  obtain ⟨s, hFirst, hMore⟩ := Option.bind_eq_some_iff.mp hBoth
  rw [sampleState, sampleState, hT, Transition.exec, hFirst]
  exact .of_exec hMore

theorem sampleState_run (acts : List Action)
    (h : (Transition.exec (DashboardJobs.step sampleDecode sampleLimits) (fun _ _ => True) {}
      acts).isSome = true) :
    Transition.Run (DashboardJobs.step sampleDecode sampleLimits) (fun _ _ => True) { now := 0 }
      (sampleState acts) :=
  sampleState_append [] acts h

/-- A read whose worker is running. -/
def sampleActs (i : ℕ) : List Action :=
  [.read "r".toList, .reader i (.start true false), .owner i (.enter true),
    .owner i (.prepare (.ok ())), .owner i (.launch (.ok ()) false), .owner i .recheck]

/-- The worker enters every stage and answers. -/
def sampleCapture : Capture where
  stderr := [[0, 10, 1, 10, 2], [10, 3, 10, 4, 10, 5, 10, 6, 10]]
  ending := .ended 0 (.ok ⟨"r".toList, .ok "pages".toList⟩)

def sampleCleanup : Cleanup := ⟨true, true, true, true, some false⟩

/-- The worker is gone in time, and the permit is given back. -/
def sampleEnd (i : ℕ) : List Action :=
  [.owner i (.capture sampleCapture), .owner i .finish, .workerExits i,
    .owner i (.finalize sampleCleanup), .owner i (.log true), .owner i .exit, .reader i .check,
    .settle i]

/-- The caller cancels, and the deadline of the cleanup passes. -/
def sampleAbandoned (i : ℕ) : List Action :=
  [.reader i .cancel, .reader i .flag, .tick 5, .reader i .check, .settle i]

end Samples

/-- An owner or a worker of the job is still there. -/
def Job.Busy (job : Job) : Prop := job.owner.alive = true ∨ job.worker = true

/-- In every interleaving of reads, cancellations, owners and workers, at most one job has an
owner thread or a worker process. -/
theorem busy_unique {decode : LineDecoder} {limits : DashboardLimits} {start : ℕ}
    {s : DashboardJobs}
    (run : Transition.Run (DashboardJobs.step decode limits) (fun _ _ => True) { now := start } s)
    {i j : ℕ} {a b : Job} (hA : s.jobs[i]? = some a) (hB : s.jobs[j]? = some b)
    (hBusyA : a.Busy) (hBusyB : b.Busy) : i = j := by
  have hInv := (Inv.init start).run run
  have hActive {k : ℕ} {job : Job} (hGet : s.jobs[k]? = some job) (hBusy : job.Busy) :
      s.active = some k := by
    by_contra hNe
    obtain ⟨answer, hEnd⟩ := hInv.rest k job hGet hNe
    obtain ⟨hOwner, hWorker⟩ := (hInv.job k job hGet).returned answer hEnd
    rcases hBusy with hAlive | hHas
    · rw [hOwner] at hAlive
      cases hAlive
    · exact absurd (hWorker.symm.trans hHas) Bool.false_ne_true
  exact Option.some.inj ((hActive hA hBusyA).symm.trans (hActive hB hBusyB))

theorem busy_unique_second_read :
    (sampleState (sampleActs 0 ++ sampleEnd 0 ++ sampleActs 1)).jobs.length = 2 ∧ (1 : ℕ) = 1 :=
  ⟨rfl, busy_unique (sampleState_run (sampleActs 0 ++ sampleEnd 0 ++ sampleActs 1) rfl)
    rfl rfl (.inl rfl) (.inr rfl)⟩

/-- A poisoned permit stays where it is, and no read is admitted any more. -/
theorem Inv.stays_poisoned (h : Inv s) (hPoisoned : s.poisoned = true)
    (hStep : s.step decode limits a = some t) :
    t.poisoned = true ∧ t.active = s.active ∧ t.jobs.length = s.jobs.length := by
  cases a with
  | read requestId =>
      obtain ⟨i, job, answer, hActive, -⟩ := h.poisoned hPoisoned
      rw [DashboardJobs.step, hActive] at hStep
      obtain rfl := Option.some.inj hStep
      exact ⟨hPoisoned, rfl, rfl⟩
  | owner i act =>
      obtain ⟨job, next, -, -, rfl⟩ := DashboardJobs.modify_eq_some.mp hStep
      exact ⟨hPoisoned, rfl, List.length_set⟩
  | reader i act =>
      obtain ⟨job, next, -, -, rfl⟩ := DashboardJobs.modify_eq_some.mp hStep
      exact ⟨hPoisoned, rfl, List.length_set⟩
  | settle i =>
      obtain ⟨job, hGet, hReader, -⟩ := DashboardJobs.settle_eq_some.mp hStep
      exact absurd ((h.settling hGet hReader).2.symm.trans hPoisoned) Bool.false_ne_true
  | workerExits i =>
      obtain ⟨job, next, -, -, rfl⟩ := DashboardJobs.modify_eq_some.mp hStep
      exact ⟨hPoisoned, rfl, List.length_set⟩
  | tick elapsed =>
      obtain rfl := Option.some.inj hStep
      exact ⟨hPoisoned, rfl, rfl⟩

/-- Once a cleanup was not verified, no read is admitted until the process is restarted: each one
is told so, whatever happens to the job that was left. -/
theorem poisoned_for_good {decode : LineDecoder} {limits : DashboardLimits} {start : ℕ}
    {s t : DashboardJobs}
    (before : Transition.Run (DashboardJobs.step decode limits) (fun _ _ => True)
      { now := start } s) (hPoisoned : s.poisoned = true)
    (after : Transition.Run (DashboardJobs.step decode limits) (fun _ _ => True) s t) :
    t.jobs.length = s.jobs.length ∧ ∃ refused, t.refusal = some refused ∧
      refused.publicText = .failure .cleanupUnverified none 0 false := by
  have hInv := (Inv.init start).run before
  have hKept : t.poisoned = true ∧ t.active = s.active ∧ t.jobs.length = s.jobs.length := by
    induction after with
    | refl => exact ⟨hPoisoned, rfl, rfl⟩
    | tail prior hMeets last ih =>
        have hStep := (hInv.run prior).stays_poisoned ih.1 last
        exact ⟨hStep.1, hStep.2.1.trans ih.2.1, hStep.2.2.trans ih.2.2⟩
  obtain ⟨i, job, answer, hActive, -⟩ := hInv.poisoned hPoisoned
  refine ⟨hKept.2.2, _, by rw [DashboardJobs.refusal, hKept.2.1, hActive]; rfl, ?_⟩
  rw [hKept.1]
  rfl

theorem poisoned_for_good_abandoned :
    (sampleState (sampleActs 0 ++ sampleAbandoned 0)).jobs.length = 1 ∧
      ∃ refused, (sampleState (sampleActs 0 ++ sampleAbandoned 0)).refusal = some refused ∧
        refused.publicText = .failure .cleanupUnverified none 0 false :=
  poisoned_for_good (sampleState_run (sampleActs 0 ++ sampleAbandoned 0) rfl) rfl (.refl _)

end Exclusion

end Plumber.Dashboard
