import MatrycaPlumber.Agent.DashboardJobs

/-! What a dashboard read may answer. The first of a cancellation, the deadline and the result of
the worker settles how a job ends, and nothing that comes later changes it. -/
namespace Plumber.Dashboard

open PyText

variable {decode : LineDecoder} {limits : DashboardLimits} {s t : DashboardJobs} {a : Action}
  {now i : ℕ} {job next : Job} {control after : JobControl} {reason : Option DashboardCode}

namespace JobControl

/-- What no step takes back. -/
structure Kept (control after : JobControl) : Prop where
  limits : after.executionDeadline = control.executionDeadline ∧
    after.cleanupTime = control.cleanupTime
  terminal : ∀ d, control.cleanupDeadline = some d →
    after.cleanupDeadline = some d ∧ after.reason = control.reason

theorem Kept.refl (control : JobControl) : Kept control control where
  limits := ⟨rfl, rfl⟩
  terminal _ h := ⟨h, rfl⟩

theorem Kept.trans {last : JobControl} (h : Kept control after) (h' : Kept after last) :
    Kept control last where
  limits := ⟨h'.limits.1.trans h.limits.1, h'.limits.2.trans h.limits.2⟩
  terminal := by
    intro d hD
    obtain ⟨hDeadline, hReason⟩ := h.terminal d hD
    obtain ⟨hLast, hLastReason⟩ := h'.terminal d hDeadline
    exact ⟨hLast, hLastReason.trans hReason⟩

theorem beginCleanup_of_some {d : ℕ} (h : control.cleanupDeadline = some d) :
    control.beginCleanup now reason = control := by
  rw [beginCleanup, h]

theorem beginCleanup_of_none (h : control.cleanupDeadline = none) :
    control.beginCleanup now reason =
      { control with cleanupDeadline := some (now + control.cleanupTime), reason } := by
  rw [beginCleanup, h]

theorem beginCleanup_kept (now : ℕ) (reason : Option DashboardCode) (control : JobControl) :
    Kept control (control.beginCleanup now reason) := by
  cases h : control.cleanupDeadline with
  | some d =>
      rw [beginCleanup_of_some h]
      exact .refl control
  | none =>
      rw [beginCleanup_of_none h]
      refine ⟨⟨rfl, rfl⟩, ?_⟩
      intro d hD
      rw [h] at hD
      cases hD

theorem stopped_kept (now : ℕ) (control : JobControl) : Kept control (control.stopped now).2 := by
  rw [stopped]
  split_ifs
  · exact beginCleanup_kept now _ control
  · exact .refl control

/-- A cleanup that has begun has a reason, as long as no result has been admitted. -/
def Triggered (control : JobControl) : Prop :=
  ∀ d, control.cleanupDeadline = some d → control.reason ≠ none

theorem Triggered.beginCleanup (h : control.Triggered) (code : DashboardCode) :
    (control.beginCleanup now (some code)).Triggered := by
  cases hDeadline : control.cleanupDeadline with
  | some d =>
      rw [beginCleanup_of_some hDeadline]
      exact h
  | none =>
      rw [beginCleanup_of_none hDeadline]
      exact fun d _ => Option.some_ne_none code

theorem Triggered.stopped (h : control.Triggered) : (control.stopped now).2.Triggered := by
  rw [JobControl.stopped]
  split_ifs
  · exact h.beginCleanup .timeout
  · exact h

/-- Nothing came before the result, and the result came before its deadline. -/
def InTime (control : JobControl) : Prop :=
  control.reason = none ∧ ∃ d, control.cleanupDeadline = some d ∧
    d < control.executionDeadline + control.cleanupTime

theorem InTime.kept (h : control.InTime) (hKept : Kept control after) : after.InTime := by
  obtain ⟨hReason, d, hDeadline, hLt⟩ := h
  obtain ⟨hAfter, hSame⟩ := hKept.terminal d hDeadline
  refine ⟨hSame.trans hReason, d, hAfter, ?_⟩
  rw [hKept.limits.1, hKept.limits.2]
  exact hLt

theorem Triggered.finishExecution (h : control.Triggered)
    (hReason : (control.finishExecution now reason).reason = none) :
    reason = none ∧ (control.finishExecution now reason).InTime := by
  rw [JobControl.finishExecution] at hReason ⊢
  cases hDeadline : control.cleanupDeadline with
  | some d =>
      rw [beginCleanup_of_some hDeadline] at hReason
      exact absurd hReason (h d hDeadline)
  | none =>
      rw [beginCleanup_of_none hDeadline] at hReason ⊢
      by_cases hLate : control.executionDeadline ≤ now
      · rw [if_pos hLate] at hReason
        cases hReason
      · rw [if_neg hLate] at hReason ⊢
        refine ⟨hReason, hReason, _, rfl, ?_⟩
        dsimp only
        omega

end JobControl

theorem Job.ownerStep_kept {act : OwnerAct} (hStep : job.ownerStep decode now act = some next) :
    job.control.Kept next.control ∧ next.requestId = job.requestId := by
  cases act with
  | enter supported =>
      obtain ⟨-, rfl⟩ := enter_eq_some.mp hStep
      split_ifs
      · exact ⟨JobControl.stopped_kept now job.control, rfl⟩
      · exact ⟨.refl _, rfl⟩
  | prepare result =>
      obtain ⟨-, rfl⟩ := prepare_eq_some.mp hStep
      cases result with
      | error raised => exact ⟨.refl _, rfl⟩
      | ok u => exact ⟨JobControl.stopped_kept now job.control, rfl⟩
  | launch result left =>
      obtain ⟨-, rfl⟩ := launch_eq_some.mp hStep
      cases result <;> exact ⟨.refl _, rfl⟩
  | recheck =>
      obtain ⟨-, rfl⟩ := recheck_eq_some.mp hStep
      exact ⟨JobControl.stopped_kept now job.control, rfl⟩
  | capture capture =>
      obtain ⟨-, control, rfl | rfl, rfl⟩ := capture_eq_some hStep
      · exact ⟨.refl _, rfl⟩
      · exact ⟨JobControl.stopped_kept now job.control, rfl⟩
  | finish =>
      obtain ⟨attempt, -, rfl⟩ := finish_eq_some.mp hStep
      exact ⟨JobControl.beginCleanup_kept now _ job.control, rfl⟩
  | finalize seen =>
      obtain ⟨attempt, -, -, rfl⟩ := finalize_eq_some.mp hStep
      exact ⟨.refl _, rfl⟩
  | log written =>
      obtain ⟨-, rfl⟩ := log_eq_some.mp hStep
      split_ifs
      · exact ⟨.refl _, rfl⟩
      · exact ⟨JobControl.beginCleanup_kept now _ job.control, rfl⟩
  | exit =>
      obtain ⟨-, rfl⟩ := exit_eq_some.mp hStep
      exact ⟨.refl _, rfl⟩

theorem Job.readerStep_kept {act : ReaderAct} (hStep : job.readerStep now act = some next) :
    job.control.Kept next.control ∧ next.requestId = job.requestId ∧
      (job.control.Triggered → next.control.Triggered) := by
  cases act with
  | start started ran =>
      obtain ⟨-, rfl⟩ := start_eq_some.mp hStep
      cases started with
      | true => exact ⟨.refl _, rfl, id⟩
      | false =>
          exact ⟨JobControl.beginCleanup_kept now _ job.control, rfl, fun h => h.beginCleanup _⟩
  | cancel =>
      obtain ⟨-, rfl⟩ := cancel_eq_some.mp hStep
      exact ⟨JobControl.beginCleanup_kept now _ job.control, rfl, fun h => h.beginCleanup _⟩
  | flag =>
      obtain ⟨setDone, -, rfl⟩ := flag_eq_some.mp hStep
      exact ⟨⟨⟨rfl, rfl⟩, fun d h => ⟨h, rfl⟩⟩, rfl, id⟩
  | check =>
      obtain ⟨-, control, phase, -, rfl | ⟨-, rfl⟩, rfl⟩ := check_eq_some hStep
      · exact ⟨.refl _, rfl, id⟩
      · exact ⟨JobControl.beginCleanup_kept now _ job.control, rfl, fun h => h.beginCleanup _⟩

theorem step_kept (hStep : s.step decode limits a = some t) (hGet : s.jobs[i]? = some job) :
    ∃ next, t.jobs[i]? = some next ∧ job.control.Kept next.control := by
  have hLt : i < s.jobs.length := (List.getElem?_eq_some_iff.mp hGet).1
  have hSet {k : ℕ} {old new : Job} (hOld : s.jobs[k]? = some old)
      (hKept : old.control.Kept new.control) :
      ∃ next, (s.jobs.set k new)[i]? = some next ∧ job.control.Kept next.control := by
    by_cases hNe : k = i
    · subst hNe
      obtain rfl := Option.some.inj (hGet.symm.trans hOld)
      exact ⟨new, List.getElem?_set_self hLt, hKept⟩
    · exact ⟨job, (List.getElem?_set_ne hNe).trans hGet, .refl _⟩
  cases a with
  | read requestId =>
      rw [DashboardJobs.step] at hStep
      split_ifs at hStep
      · obtain rfl := Option.some.inj hStep
        exact ⟨job, hGet, .refl _⟩
      · obtain rfl := Option.some.inj hStep
        exact ⟨job, (List.getElem?_append_left hLt).trans hGet, .refl _⟩
  | owner k act =>
      obtain ⟨old, new, hOld, hNew, rfl⟩ := DashboardJobs.modify_eq_some.mp hStep
      exact hSet hOld (Job.ownerStep_kept hNew).1
  | reader k act =>
      obtain ⟨old, new, hOld, hNew, rfl⟩ := DashboardJobs.modify_eq_some.mp hStep
      exact hSet hOld (Job.readerStep_kept hNew).1
  | settle k =>
      obtain ⟨old, hOld, -, rfl⟩ := DashboardJobs.settle_eq_some.mp hStep
      exact hSet hOld (.refl _)
  | workerExits k =>
      obtain ⟨old, new, hOld, hNew, rfl⟩ := DashboardJobs.modify_eq_some.mp hStep
      obtain rfl := Option.some.inj hNew
      exact hSet hOld (.refl _)
  | tick elapsed =>
      obtain rfl := Option.some.inj hStep
      exact ⟨job, hGet, .refl _⟩

/-- The deadline of a cleanup is set once, and the reason it was set for stands. -/
theorem deadline_fixed {decode : LineDecoder} {limits : DashboardLimits} {s t : DashboardJobs}
    (run : Transition.Run (DashboardJobs.step decode limits) (fun _ _ => True) s t)
    {i : ℕ} {job : Job} (hGet : s.jobs[i]? = some job) {d : ℕ}
    (hDeadline : job.control.cleanupDeadline = some d) :
    ∃ next, t.jobs[i]? = some next ∧ next.control.cleanupDeadline = some d ∧
      next.control.reason = job.control.reason := by
  have hKept : ∃ next, t.jobs[i]? = some next ∧ job.control.Kept next.control := by
    induction run with
    | refl => exact ⟨job, hGet, .refl _⟩
    | tail prior hMeets last ih =>
        obtain ⟨middle, hMiddle, hFirst⟩ := ih
        obtain ⟨next, hNext, hLast⟩ := step_kept last hMiddle
        exact ⟨next, hNext, hFirst.trans hLast⟩
  obtain ⟨next, hNext, hControl⟩ := hKept
  exact ⟨next, hNext, hControl.terminal d hDeadline⟩

theorem deadline_fixed_cancelled :
    ∃ next, (sampleState (sampleActs 0 ++ [.reader 0 .cancel] ++
        [.reader 0 .flag, .tick 9, .owner 0 (.capture sampleCapture)])).jobs[0]? = some next ∧
      next.control.cleanupDeadline = some 5 ∧ next.control.reason = some .workerFailed := by
  have hDeadline : ((sampleState (sampleActs 0 ++ [.reader 0 .cancel])).jobs[0]?.map fun job =>
      (job.control.cleanupDeadline, job.control.reason)) = some (some 5, some .workerFailed) := rfl
  obtain ⟨job, hGet, hControl⟩ := Option.map_eq_some_iff.mp hDeadline
  rw [← (Prod.mk.inj hControl).2]
  exact deadline_fixed (sampleState_append (sampleActs 0 ++ [.reader 0 .cancel])
    [.reader 0 .flag, .tick 9, .owner 0 (.capture sampleCapture)] rfl) hGet (Prod.mk.inj hControl).1

/-! ## What is shown -/

/-- The worker entered every stage, exited with 0 and sent the frame of this read. -/
def Job.Complete (decode : LineDecoder) (job : Job) (markdown : Option Str) : Prop :=
  ∃ capture text, job.capture = some capture ∧ markdown = some text ∧
    (∃ reader, PhaseReader.feedAll decode {} capture.stderr = .ok reader ∧
      reader.isComplete = true) ∧
    capture.ending = .ended 0 (.ok ⟨job.requestId, .ok text⟩)

theorem checkFrame_eq_ok {frame checked : DashboardFrame} {requestId : Str} {complete : Bool}
    (h : checkFrame frame requestId complete = .ok checked) :
    checked = frame ∧ frame.requestId = requestId ∧
      ∀ text, frame.result = .ok text → complete = true := by
  obtain ⟨id, result⟩ := frame
  rw [checkFrame] at h
  by_cases hId : id = requestId
  · rw [if_neg (not_not.mpr hId)] at h
    cases result with
    | error code => exact ⟨(Except.ok.inj h).symm, hId, by rintro text ⟨⟩⟩
    | ok text =>
        cases complete with
        | true => exact ⟨(Except.ok.inj h).symm, hId, fun _ _ => rfl⟩
        | false => cases h
  · rw [if_pos hId] at h
    cases h

theorem frameOf_eq_ok {requestId : Str} {reader : PhaseReader} {returncode : ℤ}
    {frame : Except Raised DashboardFrame} {markdown : Option Str}
    (h : frameOf requestId reader returncode frame = .ok (none, markdown)) :
    reader.isComplete = true ∧ returncode = 0 ∧ ∃ text, markdown = some text ∧
      frame = .ok ⟨requestId, .ok text⟩ := by
  rw [frameOf] at h
  split at h
  · cases h
  next reader' hFinish =>
    rw [PhaseReader.finish] at hFinish
    split_ifs at hFinish with hPending
    obtain rfl := Except.ok.inj hFinish
    split_ifs at h with hCode
    · cases h
    rw [not_not] at hCode
    split at h
    · cases h
    next frame =>
      split at h
      · cases h
      next checked hChecked =>
        obtain ⟨rfl, hId, hComplete⟩ := checkFrame_eq_ok hChecked
        split at h
        next text hText =>
          obtain ⟨id, result⟩ := checked
          obtain rfl : result = .ok text := hText
          obtain rfl : id = requestId := hId
          exact ⟨hComplete text rfl, hCode, text, (Prod.mk.inj (Except.ok.inj h)).2.symm, rfl⟩
        · cases h

theorem Capture.attempt_complete {capture : Capture} {requestId : Str}
    (h : (capture.attempt decode requestId control).code = none) :
    ∃ text, (capture.attempt decode requestId control).markdown = some text ∧
      (∃ reader, PhaseReader.feedAll decode {} capture.stderr = .ok reader ∧
        reader.isComplete = true) ∧ capture.ending = .ended 0 (.ok ⟨requestId, .ok text⟩) := by
  rw [attempt] at h ⊢
  cases hFeed : PhaseReader.feedAll decode {} capture.stderr with
  | error refused =>
      rw [hFeed] at h
      cases h
  | ok reader =>
      rw [hFeed] at h
      cases hEnding : capture.ending with
      | ended returncode frame =>
          rw [hEnding] at h
          dsimp only at h ⊢
          cases hFrame : frameOf requestId reader returncode frame with
          | error raised =>
              rw [hFrame] at h
              cases h
          | ok pair =>
              obtain ⟨code, markdown⟩ := pair
              rw [hFrame] at h
              obtain rfl : code = none := h
              obtain ⟨hComplete, rfl, text, rfl, rfl⟩ := frameOf_eq_ok hFrame
              exact ⟨text, rfl, ⟨reader, rfl, hComplete⟩, rfl⟩
      | _ =>
          rw [hEnding] at h
          cases h

/-- Whether the owner has yet to admit its result. -/
def OwnerPhase.early : OwnerPhase → Bool
  | .finalizing _ | .logging | .exiting | .exited => false
  | _ => true

structure AnswerInv (decode : LineDecoder) (job : Job) : Prop where
  triggered : job.owner.early = true → job.control.Triggered
  finishing : ∀ attempt, job.owner = .finishing attempt → attempt.code = none →
    job.Complete decode attempt.markdown
  finalizing : ∀ attempt, job.owner = .finalizing attempt → attempt.code = none →
    job.Complete decode attempt.markdown ∧ job.control.InTime
  outcome : ∀ o, job.outcome = some o → o.code = none →
    job.Complete decode o.markdown ∧ job.control.InTime
  returned : ∀ verified o, job.reader = .returned verified (some o) →
    verified = true ∧ job.outcome = some o ∨ o.cleanupVerified = false

theorem AnswerInv.new (requestId : Str) (limits : DashboardLimits) (now : ℕ) :
    AnswerInv decode { requestId, control := .new limits now } where
  triggered := by rintro - d ⟨⟩
  finishing := by rintro attempt ⟨⟩
  finalizing := by rintro attempt ⟨⟩
  outcome := by rintro o ⟨⟩
  returned := by rintro verified o ⟨⟩

theorem AnswerInv.returned_of_alive (h : AnswerInv decode job) (hJob : JobInv job)
    (hAlive : job.owner.alive = true) {verified : Bool} {o : DashboardOutcome}
    (hReader : job.reader = .returned verified (some o)) : o.cleanupVerified = false := by
  rcases h.returned verified o hReader with ⟨rfl, -⟩ | hNot
  · rw [(hJob.returned _ hReader).1] at hAlive
    cases hAlive
  · exact hNot

theorem JobInv.outcome_of_early (h : JobInv job) (hEarly : job.owner.early = true) :
    job.outcome = none := by
  have hReported : job.owner.reported = false := by
    cases hOwner : job.owner <;> rw [hOwner] at hEarly <;> first | rfl | cases hEarly
  exact Option.not_isSome_iff_eq_none.mp
    (by rw [h.outcome_eq_none hReported]; exact Bool.false_ne_true)

/-- A step before the result is admitted. -/
theorem AnswerInv.of_early (h : AnswerInv decode job) (hJob : JobInv job)
    (hEarly : job.owner.early = true) (hAlive : job.owner.alive = true)
    (hReader : next.reader = job.reader) (hOutcome : next.outcome = job.outcome)
    (hTriggered : next.control.Triggered)
    (hFinishing : ∀ attempt, next.owner = .finishing attempt → attempt.code = none →
      next.Complete decode attempt.markdown)
    (hFinalizing : ∀ attempt, next.owner ≠ .finalizing attempt) : AnswerInv decode next where
  triggered _ := hTriggered
  finishing := hFinishing
  finalizing attempt hOwner := absurd hOwner (hFinalizing attempt)
  outcome := by
    rw [hOutcome, hJob.outcome_of_early hEarly]
    rintro o ⟨⟩
  returned := by
    intro verified o hEnd
    exact .inr (h.returned_of_alive hJob hAlive (hReader.symm.trans hEnd))

theorem AnswerInv.unlessStopped (h : AnswerInv decode job) (hJob : JobInv job)
    (hEarly : job.owner.early = true) (hAlive : job.owner.alive = true) {phase : OwnerPhase}
    {stop : DashboardCode → Attempt} (hStop : ∀ code, (stop code).code ≠ none)
    (hNext : ∀ attempt, phase ≠ .finishing attempt ∧ phase ≠ .finalizing attempt) :
    AnswerInv decode (job.unlessStopped now phase stop) := by
  refine h.of_early hJob hEarly hAlive rfl rfl (h.triggered hEarly).stopped ?_ ?_
  · intro attempt hOwner hCode
    rcases job.unlessStopped_owner now phase stop with hPhase | ⟨code, hPhase⟩
    · exact absurd (hPhase.symm.trans hOwner) (hNext attempt).1
    · injection hPhase.symm.trans hOwner with hAttempt
      rw [← hAttempt] at hCode
      exact absurd hCode (hStop code)
  · intro attempt hOwner
    rcases job.unlessStopped_owner now phase stop with hPhase | ⟨code, hPhase⟩
    · exact (hNext attempt).2 (hPhase.symm.trans hOwner)
    · cases hPhase.symm.trans hOwner

theorem AnswerInv.ownerStep (h : AnswerInv decode job) (hJob : JobInv job) {act : OwnerAct}
    (hStep : job.ownerStep decode now act = some next) : AnswerInv decode next := by
  cases act with
  | enter supported =>
      obtain ⟨hOwner, rfl⟩ := Job.enter_eq_some.mp hStep
      have hEarly : job.owner.early = true := by rw [hOwner]; rfl
      have hAlive : job.owner.alive = true := by rw [hOwner]; rfl
      split_ifs
      · exact h.unlessStopped hJob hEarly hAlive (by rintro code ⟨⟩)
          fun attempt => ⟨by rintro ⟨⟩, by rintro ⟨⟩⟩
      · refine h.of_early hJob hEarly hAlive rfl rfl (h.triggered hEarly) ?_ (by rintro attempt ⟨⟩)
        rintro attempt ⟨⟩ ⟨⟩
  | prepare result =>
      obtain ⟨hOwner, rfl⟩ := Job.prepare_eq_some.mp hStep
      have hEarly : job.owner.early = true := by rw [hOwner]; rfl
      have hAlive : job.owner.alive = true := by rw [hOwner]; rfl
      cases result with
      | error raised =>
          refine h.of_early hJob hEarly hAlive rfl rfl (h.triggered hEarly) ?_
            (by rintro attempt ⟨⟩)
          rintro attempt ⟨⟩ ⟨⟩
      | ok u =>
          exact h.unlessStopped hJob hEarly hAlive (by rintro code ⟨⟩)
            fun attempt => ⟨by rintro ⟨⟩, by rintro ⟨⟩⟩
  | launch result left =>
      obtain ⟨hOwner, rfl⟩ := Job.launch_eq_some.mp hStep
      have hEarly : job.owner.early = true := by rw [hOwner]; rfl
      have hAlive : job.owner.alive = true := by rw [hOwner]; rfl
      cases result with
      | error raised =>
          refine h.of_early hJob hEarly hAlive rfl rfl (h.triggered hEarly) ?_
            (by rintro attempt ⟨⟩)
          rintro attempt ⟨⟩ ⟨⟩
      | ok u =>
          exact h.of_early hJob hEarly hAlive rfl rfl (h.triggered hEarly) (by rintro attempt ⟨⟩)
            (by rintro attempt ⟨⟩)
  | recheck =>
      obtain ⟨hOwner, rfl⟩ := Job.recheck_eq_some.mp hStep
      exact h.unlessStopped hJob (by rw [hOwner]; rfl) (by rw [hOwner]; rfl) (by rintro code ⟨⟩)
        fun attempt => ⟨by rintro ⟨⟩, by rintro ⟨⟩⟩
  | capture capture =>
      obtain ⟨hOwner, control, hControl, rfl⟩ := Job.capture_eq_some hStep
      have hEarly : job.owner.early = true := by rw [hOwner]; rfl
      have hTriggered : control.Triggered := by
        rcases hControl with rfl | rfl
        · exact h.triggered hEarly
        · exact (h.triggered hEarly).stopped
      refine h.of_early hJob hEarly (by rw [hOwner]; rfl) rfl rfl hTriggered ?_
        (by rintro attempt ⟨⟩)
      intro attempt hAttempt hCode
      injection hAttempt with hEq
      subst hEq
      obtain ⟨text, hText, hFeed, hEnding⟩ := Capture.attempt_complete hCode
      exact ⟨capture, text, rfl, hText, hFeed, hEnding⟩
  | finish =>
      obtain ⟨attempt, hOwner, rfl⟩ := Job.finish_eq_some.mp hStep
      have hEarly : job.owner.early = true := by rw [hOwner]; rfl
      refine ⟨by rintro ⟨⟩, by rintro other ⟨⟩, ?_, ?_, ?_⟩
      · intro other hOther hCode
        injection hOther with hEq
        subst hEq
        obtain ⟨hNone, hInTime⟩ := (h.triggered hEarly).finishExecution hCode
        exact ⟨h.finishing attempt hOwner hNone, hInTime⟩
      · rw [hJob.outcome_of_early hEarly]
        rintro o ⟨⟩
      · intro verified o hEnd
        exact .inr (h.returned_of_alive hJob (by rw [hOwner]; rfl) hEnd)
  | finalize seen =>
      obtain ⟨attempt, hOwner, -, rfl⟩ := Job.finalize_eq_some.mp hStep
      refine ⟨by rintro ⟨⟩, by rintro other ⟨⟩, by rintro other ⟨⟩, ?_, ?_⟩
      · intro o hOutcome hCode
        obtain rfl := Option.some.inj hOutcome
        cases hOk : job.cleanupOk now attempt seen with
        | false =>
            rw [hOk] at hCode
            cases hCode
        | true =>
            rw [hOk] at hCode
            have hNone : attempt.code = none := hCode
            obtain ⟨hComplete, hInTime⟩ := h.finalizing attempt hOwner hNone
            have hText : (job.outcomeOf now attempt true).markdown = attempt.markdown :=
              if_pos ⟨rfl, hNone⟩
            rw [hText]
            exact ⟨hComplete, hInTime⟩
      · intro verified o hEnd
        exact .inr (h.returned_of_alive hJob (by rw [hOwner]; rfl) hEnd)
  | log written =>
      obtain ⟨hOwner, rfl⟩ := Job.log_eq_some.mp hStep
      have hAlive : job.owner.alive = true := by rw [hOwner]; rfl
      cases written with
      | true =>
          refine ⟨by rintro ⟨⟩, by rintro other ⟨⟩, by rintro other ⟨⟩, h.outcome, ?_⟩
          intro verified o hEnd
          exact .inr (h.returned_of_alive hJob hAlive hEnd)
      | false =>
          refine ⟨by rintro ⟨⟩, by rintro other ⟨⟩, by rintro other ⟨⟩, ?_, ?_⟩
          · intro o hOutcome hCode
            obtain ⟨before, hBefore, rfl⟩ := Option.map_eq_some_iff.mp hOutcome
            rw [Job.unlogged] at hCode
            split_ifs at hCode with hNone
            exact absurd hCode hNone
          · intro verified o hEnd
            exact .inr (h.returned_of_alive hJob hAlive hEnd)
  | exit =>
      obtain ⟨hOwner, rfl⟩ := Job.exit_eq_some.mp hStep
      refine ⟨by rintro ⟨⟩, by rintro other ⟨⟩, by rintro other ⟨⟩, h.outcome, ?_⟩
      intro verified o hEnd
      exact .inr (h.returned_of_alive hJob (by rw [hOwner]; rfl) hEnd)

/-- What a step keeps that leaves the outcome and the capture alone. -/
theorem AnswerInv.of_kept (h : AnswerInv decode job) (hId : next.requestId = job.requestId)
    (hOutcome : next.outcome = job.outcome) (hCapture : next.capture = job.capture)
    (hOwner : next.owner = job.owner ∨ job.owner.early = true ∧
      (next.owner = .starting ∨ next.owner = .unstarted))
    (hControl : job.control.Kept next.control)
    (hTriggered : job.control.Triggered → next.control.Triggered)
    (hReturned : ∀ verified o, next.reader = .returned verified (some o) →
      verified = true ∧ next.outcome = some o ∨ o.cleanupVerified = false) :
    AnswerInv decode next := by
  have hComplete {markdown : Option Str} (hOld : job.Complete decode markdown) :
      next.Complete decode markdown := by
    rw [Job.Complete, hId, hCapture]
    exact hOld
  refine ⟨?_, ?_, ?_, ?_, hReturned⟩
  · intro hEarly
    apply hTriggered
    apply h.triggered
    rcases hOwner with hSame | ⟨hOld, -⟩
    · rwa [hSame] at hEarly
    · exact hOld
  · intro attempt hAttempt hCode
    rcases hOwner with hSame | ⟨-, hStarting | hUnstarted⟩
    · exact hComplete (h.finishing attempt (hSame.symm.trans hAttempt) hCode)
    · cases hStarting.symm.trans hAttempt
    · cases hUnstarted.symm.trans hAttempt
  · intro attempt hAttempt hCode
    rcases hOwner with hSame | ⟨-, hStarting | hUnstarted⟩
    · obtain ⟨hOld, hInTime⟩ := h.finalizing attempt (hSame.symm.trans hAttempt) hCode
      exact ⟨hComplete hOld, hInTime.kept hControl⟩
    · cases hStarting.symm.trans hAttempt
    · cases hUnstarted.symm.trans hAttempt
  · intro o hO hCode
    obtain ⟨hOld, hInTime⟩ := h.outcome o (hOutcome.symm.trans hO) hCode
    exact ⟨hComplete hOld, hInTime.kept hControl⟩

theorem AnswerInv.readerStep (h : AnswerInv decode job) (hJob : JobInv job) {act : ReaderAct}
    (hStep : job.readerStep now act = some next) : AnswerInv decode next := by
  obtain ⟨hControl, hId, hTriggered⟩ := Job.readerStep_kept hStep
  have hReturned {verified : Bool} {o : DashboardOutcome}
      (hEnd : next.reader = .returned verified (some o)) :
      verified = true ∧ next.outcome = some o ∨ o.cleanupVerified = false :=
    absurd hEnd ((Job.readerStep_reader hStep).2 _ _)
  cases act with
  | start started ran =>
      obtain ⟨hReader, rfl⟩ := Job.start_eq_some.mp hStep
      have hEarly : job.owner.early = true := by rw [hJob.unread hReader]; rfl
      cases started with
      | true =>
          exact h.of_kept hId rfl rfl (.inr ⟨hEarly, .inl rfl⟩) hControl hTriggered
            fun _ _ => hReturned
      | false =>
          refine h.of_kept hId rfl rfl (.inr ⟨hEarly, ?_⟩) hControl hTriggered fun _ _ => hReturned
          cases ran with
          | true => exact .inl rfl
          | false => exact .inr rfl
  | cancel =>
      obtain ⟨-, rfl⟩ := Job.cancel_eq_some.mp hStep
      exact h.of_kept hId rfl rfl (.inl rfl) hControl hTriggered fun _ _ => hReturned
  | flag =>
      obtain ⟨setDone, -, rfl⟩ := Job.flag_eq_some.mp hStep
      exact h.of_kept hId rfl rfl (.inl rfl) hControl hTriggered fun _ _ => hReturned
  | check =>
      obtain ⟨-, control, phase, -, -, rfl⟩ := Job.check_eq_some hStep
      exact h.of_kept hId rfl rfl (.inl rfl) hControl hTriggered fun _ _ => hReturned

/-- A verified read returns the outcome of its owner, and another read no success. -/
theorem AnswerInv.settled (h : AnswerInv decode job) : AnswerInv decode { job with
    reader := .returned (job.verified now)
      (if job.cancelRequested then none else some (job.settled now)) } := by
  refine h.of_kept rfl rfl rfl (.inl rfl) (.refl _) id ?_
  intro verified o hEnd
  injection hEnd with hVerified hAnswer
  split_ifs at hAnswer
  obtain rfl := Option.some.inj hAnswer
  subst hVerified
  rw [Job.settled]
  cases hEnds : job.verified now with
  | false => exact .inr rfl
  | true =>
      cases hOutcome : job.outcome with
      | none => exact .inr rfl
      | some outcome => exact .inl ⟨rfl, rfl⟩

theorem answers_step (h : Inv s)
    (hAnswers : ∀ (i : ℕ) job, s.jobs[i]? = some job → AnswerInv decode job)
    (hStep : s.step decode limits a = some t) :
    ∀ (i : ℕ) job, t.jobs[i]? = some job → AnswerInv decode job := by
  have hSet {k : ℕ} {old new : Job} (hOld : s.jobs[k]? = some old) (hNew : AnswerInv decode new) :
      ∀ (i : ℕ) job, (s.jobs.set k new)[i]? = some job → AnswerInv decode job := by
    intro i job hGet
    by_cases hNe : k = i
    · subst hNe
      have hLt : k < s.jobs.length := (List.getElem?_eq_some_iff.mp hOld).1
      obtain rfl := Option.some.inj ((List.getElem?_set_self hLt).symm.trans hGet)
      exact hNew
    · exact hAnswers i job ((List.getElem?_set_ne hNe).symm.trans hGet)
  cases a with
  | read requestId =>
      rw [DashboardJobs.step] at hStep
      split_ifs at hStep
      · obtain rfl := Option.some.inj hStep
        exact hAnswers
      · obtain rfl := Option.some.inj hStep
        intro i job hGet
        rcases getElem?_concat_cases hGet with hOld | ⟨-, rfl⟩
        · exact hAnswers i job hOld
        · exact .new requestId limits s.now
  | owner k act =>
      obtain ⟨old, new, hOld, hNew, rfl⟩ := DashboardJobs.modify_eq_some.mp hStep
      exact hSet hOld ((hAnswers k old hOld).ownerStep (h.job k old hOld) hNew)
  | reader k act =>
      obtain ⟨old, new, hOld, hNew, rfl⟩ := DashboardJobs.modify_eq_some.mp hStep
      exact hSet hOld ((hAnswers k old hOld).readerStep (h.job k old hOld) hNew)
  | settle k =>
      obtain ⟨old, hOld, -, rfl⟩ := DashboardJobs.settle_eq_some.mp hStep
      exact hSet hOld (hAnswers k old hOld).settled
  | workerExits k =>
      obtain ⟨old, new, hOld, hNew, rfl⟩ := DashboardJobs.modify_eq_some.mp hStep
      obtain rfl := Option.some.inj hNew
      have hAnswer := hAnswers k old hOld
      exact hSet hOld (hAnswer.of_kept rfl rfl rfl (.inl rfl) (.refl _) id hAnswer.returned)
  | tick elapsed =>
      obtain rfl := Option.some.inj hStep
      exact hAnswers

theorem answers_run {C : DashboardJobs → Action → Prop}
    (run : Transition.Run (DashboardJobs.step decode limits) C s t) (h : Inv s)
    (hAnswers : ∀ (i : ℕ) job, s.jobs[i]? = some job → AnswerInv decode job) :
    ∀ (i : ℕ) job, t.jobs[i]? = some job → AnswerInv decode job := by
  induction run with
  | refl => exact hAnswers
  | tail prior hMeets last ih => exact answers_step (h.run prior) ih last

/-- The text of a dashboard is shown only when the worker entered every stage, exited with 0 and
answered this very read before its deadline, when nothing had cancelled the job by then, and when
the worker is verified to be gone. -/
theorem content_complete {decode : LineDecoder} {limits : DashboardLimits} {start : ℕ}
    {s : DashboardJobs}
    (run : Transition.Run (DashboardJobs.step decode limits) (fun _ _ => True) { now := start } s)
    {i : ℕ} {job : Job} (hGet : s.jobs[i]? = some job) {verified : Bool} {o : DashboardOutcome}
    (hReader : job.reader = .returned verified (some o)) {text : Str}
    (hText : o.publicText = .content text) :
    job.Complete decode (some text) ∧ job.control.InTime ∧ job.owner = .exited ∧
      job.worker = false := by
  have hJob := ((Inv.init start).run run).job i job hGet
  have hAnswer := answers_run run (.init start) (by rintro i job ⟨⟩) i job hGet
  obtain ⟨hCode, hVerified, hMarkdown⟩ := DashboardOutcome.publicText_eq_content.mp hText
  rcases hAnswer.returned verified o hReader with ⟨rfl, hOutcome⟩ | hNot
  · obtain ⟨hComplete, hInTime⟩ := hAnswer.outcome o hOutcome hCode
    rw [hMarkdown] at hComplete
    exact ⟨hComplete, hInTime, hJob.returned _ hReader⟩
  · exact absurd (hNot.symm.trans hVerified) Bool.false_ne_true

theorem content_complete_answered :
    ∃ job, (sampleState (sampleActs 0 ++ sampleEnd 0)).jobs[0]? = some job ∧
      job.Complete sampleDecode (some "pages".toList) ∧ job.control.InTime ∧
        job.owner = .exited ∧ job.worker = false :=
  ⟨_, rfl, content_complete (i := 0) (sampleState_run (sampleActs 0 ++ sampleEnd 0) rfl) rfl rfl
    rfl⟩

end Plumber.Dashboard
