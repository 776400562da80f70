import Mathlib.Tactic.NormNum
import MatrycaPlumber.Daemon.FileWatcher

/-! Every event is delivered: a bound on the steps of the worker after which an event that
is pending, or in the batch, has been handed to the callback. -/
namespace Plumber.FileWatcher

open Transition

section Patience

variable {κ : Type} [DecidableEq κ]

/-- The watcher goes on, and does not look before the deadline of the path, which later
events of it move. -/
def Prompt (path : κ) (w : World κ) : Action κ → Prop
  | .cancelAll => False
  | .callEnds _ outcome => outcome ≠ .escaped
  | .look now => ∀ entry ∈ w.handler.pending.entries, entry.1 = path → entry.2.deadline ≤ now
  | _ => True

instance (path : κ) (w : World κ) (a : Action κ) : Decidable (Prompt path w a) :=
  match a with
  | .cancelAll => inferInstanceAs (Decidable False)
  | .callEnds _ outcome => inferInstanceAs (Decidable (outcome ≠ .escaped))
  | .look now => inferInstanceAs (Decidable (∀ entry ∈ w.handler.pending.entries,
      entry.1 = path → entry.2.deadline ≤ now))
  | .schedule _ _ _ | .wake _ | .call | .finish => inferInstanceAs (Decidable True)

/-- The worker needs no more than so many steps to its next look. -/
def Worker.stepsToLook : Worker κ → Nat
  | looking => 1
  | sleeping _ => 2
  | delivering due _ => 2 * due.length + 2
  | calling _ due _ => 2 * due.length + 3
  | unwinding _ | ended => 0

/-- The worker needs so many steps to the call for a path of its batch. -/
def Worker.stepsToCall (path : κ) : Worker κ → Nat
  | delivering due _ => 2 * (due.map Prod.fst).idxOf path + 1
  | calling _ due _ => 2 * (due.map Prod.fst).idxOf path + 2
  | _ => 0

/-- The steps to the call for an event that the batch may be too old for. -/
def Worker.patience (worker : Worker κ) (path : κ) (taken : Bool) (pending : List κ) : Nat :=
  if path ∈ worker.undelivered.map Prod.fst ∧ taken = true then worker.stepsToCall path
  else worker.stepsToLook + (2 * pending.idxOf path + 1)

def World.patience (w : World κ) (i : Nat) (path : κ) : Nat :=
  w.worker.patience path (i < w.takenAt) w.handler.pending.keys

/-- What the worker may do when the clock shows `now` and callbacks return. -/
def workerActions (now : ℚ) : List (Action κ) :=
  [.wake now, .look now, .call, .callEnds now .returned, .finish]

variable {w u : World κ} {i : Nat} {path : κ} {a : Action κ}

/-- An element comes no later in a part of the list. -/
theorem idxOf_le_of_sublist {l l' : List κ} (h : l.Sublist l') (hNodup : l'.Nodup) {x : κ}
    (hMem : x ∈ l) : l.idxOf x ≤ l'.idxOf x := by
  induction h with
  | slnil => cases hMem
  | cons y hRest ih =>
      rw [List.nodup_cons] at hNodup
      have hNe : y ≠ x := fun hEq => hNodup.1 (hEq ▸ hRest.subset hMem)
      rw [List.idxOf_cons_ne _ hNe]
      exact (ih hNodup.2 hMem).trans (Nat.le_succ _)
  | cons_cons y _ ih =>
      rw [List.nodup_cons] at hNodup
      by_cases hEq : y = x
      · rw [List.idxOf_cons_eq _ hEq, List.idxOf_cons_eq _ hEq]
      · rw [List.idxOf_cons_ne _ hEq, List.idxOf_cons_ne _ hEq]
        exact Nat.succ_le_succ (ih hNodup.2 ((List.mem_cons.mp hMem).resolve_left (Ne.symm hEq)))

theorem patience_pos : 0 < w.patience i path := by
  rw [World.patience, Worker.patience]
  split_ifs with hBatch
  · have hSome := hBatch.1
    cases hWorker : w.worker <;> rw [hWorker] at hSome
    case delivering => exact Nat.succ_pos _
    case calling => exact Nat.succ_pos _
    all_goals cases hSome
  · exact Nat.succ_pos _

/-- A worker without a batch has to look first. -/
theorem patience_of_undelivered {worker : Worker κ} (h : worker.undelivered = []) (taken : Bool)
    (pending : List κ) :
    worker.patience path taken pending = worker.stepsToLook + (2 * pending.idxOf path + 1) := by
  rw [Worker.patience, h, if_neg (fun hBatch => List.not_mem_nil hBatch.1)]

theorem patience_calling {current : κ × Entry} {rest : List (κ × Entry)}
    {completed : List (Nat × Bool)} {taken : Bool} {pending : List κ}
    (hOther : ¬(current.1 = path ∧ taken = true)) :
    (Worker.calling current rest completed).patience path taken pending <
      (Worker.delivering (current :: rest) completed).patience path taken pending := by
  cases taken with
  | false =>
      simp only [Worker.patience, Bool.false_eq_true, and_false, if_false, Worker.stepsToLook,
        List.length_cons]
      omega
  | true =>
      have hCurrent : current.1 ≠ path := fun hEq => hOther ⟨hEq, rfl⟩
      simp only [Worker.patience, Worker.undelivered, Worker.stepsToLook, Worker.stepsToCall,
        List.map_cons, List.mem_cons, Ne.symm hCurrent, false_or, and_true, List.length_cons,
        List.idxOf_cons_ne _ hCurrent]
      split_ifs <;> omega

theorem patience_delivering (current : κ × Entry) (rest : List (κ × Entry))
    (completed after : List (Nat × Bool)) (taken : Bool) (pending : List κ) :
    (Worker.delivering rest after).patience path taken pending <
      (Worker.calling current rest completed).patience path taken pending := by
  by_cases hBatch : path ∈ rest.map Prod.fst ∧ taken = true
  · have hAfter : (Worker.delivering rest after).patience path taken pending =
        2 * (rest.map Prod.fst).idxOf path + 1 := if_pos hBatch
    have hBefore : (Worker.calling current rest completed).patience path taken pending =
        2 * (rest.map Prod.fst).idxOf path + 2 := if_pos hBatch
    omega
  · have hAfter : (Worker.delivering rest after).patience path taken pending =
        2 * rest.length + 2 + (2 * pending.idxOf path + 1) := if_neg hBatch
    have hBefore : (Worker.calling current rest completed).patience path taken pending =
        2 * rest.length + 3 + (2 * pending.idxOf path + 1) := if_neg hBatch
    omega

theorem World.Handed.step (h : w.Handed i path) (hStep : FileWatcher.step w a = some u) :
    u.Handed i path := by
  obtain ⟨d, hd, hPath⟩ := h
  refine ⟨d, ?_, hPath⟩
  cases a with
  | call =>
      rw [FileWatcher.step] at hStep
      split at hStep <;> cases hStep
      exact List.mem_append_left _ hd
  | look now =>
      rw [FileWatcher.step] at hStep
      split at hStep <;> cases hStep
      rw [World.look]
      repeat' split
      all_goals exact hd
  | _ =>
      rw [FileWatcher.step] at hStep
      repeat' split at hStep
      all_goals cases hStep
      all_goals exact hd

theorem handed_exec {acts : List (Action κ)} (h : w.Handed i path)
    (hExec : exec step (Prompt path) w acts = some u) : u.Handed i path := by
  induction acts generalizing w with
  | nil =>
      cases hExec
      exact h
  | cons a acts ih =>
      obtain ⟨t, _, hFirst, hRest⟩ := exec_cons.mp hExec
      exact ih (h.step hFirst) hRest

theorem event_step {kind : FileEventKind} (h : w.events[i]? = some (path, kind))
    (hStep : step w a = some u) : u.events[i]? = some (path, kind) := by
  cases a with
  | schedule now other otherKind =>
      cases hStep
      exact (List.getElem?_append_left (List.getElem?_eq_some_iff.mp h).1).trans h
  | look now =>
      rw [step] at hStep
      split at hStep <;> cases hStep
      rw [World.look]
      repeat' split
      all_goals exact h
  | _ =>
      rw [step] at hStep
      repeat' split at hStep
      all_goals cases hStep
      all_goals exact h

theorem running_step (hStopped : w.handler.stopped = false) (hPrompt : Prompt path w a)
    (hStep : step w a = some u) : u.handler.stopped = false := by
  cases a with
  | cancelAll => cases hPrompt
  | look now =>
      rw [step] at hStep
      split at hStep <;> cases hStep
      rcases look_cases hStopped now with ⟨hEq, _⟩ | hEq <;> rw [hEq]
      all_goals exact hStopped
  | finish =>
      rw [step] at hStep
      split at hStep <;> cases hStep
      all_goals exact (foldl_complete _ _).2.1.trans hStopped
  | _ =>
      rw [step] at hStep
      repeat' split at hStep
      all_goals cases hStep
      all_goals exact hStopped

theorem patience_schedule {now : ℚ} {other : κ} {kind : FileEventKind}
    (hOpen : path ∈ w.handler.pending.keys ∨ w.InBatch i path)
    (hStep : step w (.schedule now other kind) = some u) :
    u.patience i path ≤ w.patience i path := by
  cases hStep
  rw [World.patience, World.patience, Worker.patience, Worker.patience]
  dsimp only [Handler.schedule]
  rw [undelivered_notify]
  split_ifs with hIn
  · cases w.worker <;> exact Nat.le_refl _
  · have hPending : path ∈ w.handler.pending.keys :=
      hOpen.resolve_right fun h => hIn ⟨h.1, decide_eq_true h.2⟩
    rw [InsertionDict.idxOf_put hPending]
    apply Nat.add_le_add_right
    cases w.worker
    case sleeping => exact Nat.le_succ 1
    all_goals exact Nat.le_refl _

/-- A look after the deadline of the path takes it. -/
theorem patience_look {now : ℚ} (hStopped : w.handler.stopped = false)
    (hOpen : path ∈ w.handler.pending.keys) (hi : i < w.events.length)
    (hWorker : w.worker = .looking) (hPrompt : Prompt path w (.look now)) :
    (w.look now).patience i path < w.patience i path := by
  obtain ⟨entry, hEntry, rfl⟩ := List.mem_map.mp hOpen
  have hDue : entry.2.deadline ≤ now := hPrompt entry hEntry rfl
  rcases look_cases hStopped now with ⟨_, hEarly⟩ | hEq
  · cases hNext : w.handler.nextDeadline with
    | none =>
        rw [nextDeadline_eq_none] at hNext
        rw [hNext] at hOpen
        cases hOpen
    | some next =>
        have hLe := nextDeadline_le hNext hEntry
        exact absurd (hEarly next hNext) (not_lt.mpr (hLe.trans hDue))
  · have hTaken : entry ∈ w.handler.pending.entries.filter (isDue now) :=
      List.mem_filter.mpr ⟨hEntry, decide_eq_true hDue⟩
    have hIndex := idxOf_le_of_sublist
      ((List.filter_sublist (p := isDue now)).map Prod.fst) w.handler.pending.nodup
      (List.mem_map_of_mem hTaken)
    have hAfter (pending : List κ) :
        (Worker.delivering (w.handler.pending.entries.filter (isDue now)) []).patience entry.1
          (decide (i < w.events.length)) pending =
        2 * ((w.handler.pending.entries.filter (isDue now)).map Prod.fst).idxOf entry.1 + 1 := by
      rw [Worker.patience]
      exact if_pos ⟨List.mem_map_of_mem hTaken, decide_eq_true hi⟩
    rw [hEq, World.patience, World.patience, hAfter, hWorker, patience_of_undelivered rfl]
    dsimp only [Worker.stepsToLook, InsertionDict.keys]
    omega

theorem patience_call (hStep : step w .call = some u) :
    u.Handed i path ∨ u.patience i path < w.patience i path := by
  rw [step] at hStep
  split at hStep <;> cases hStep
  case h_1 current rest completed hWorker =>
    by_cases hNow : current.1 = path ∧ i < w.takenAt
    · exact .inl ⟨_, List.mem_append_right _ (List.mem_singleton_self _), hNow⟩
    · right
      rw [World.patience, World.patience, hWorker]
      exact patience_calling fun h => hNow ⟨h.1, of_decide_eq_true h.2⟩

theorem patience_callEnds {now : ℚ} {outcome : Outcome} (hContained : outcome ≠ .escaped)
    (hStep : step w (.callEnds now outcome) = some u) : u.patience i path < w.patience i path := by
  rw [step] at hStep
  split at hStep <;> cases hStep
  case h_1 current rest completed hWorker =>
    rw [World.patience, World.patience, hWorker, if_neg hContained]
    exact patience_delivering current rest completed _ _ _

/-- Each step of the worker brings the event nearer to the callback, and no other step
takes it away from it. -/
theorem patience_step {kind : FileEventKind} (hInv : Invariant w)
    (hStopped : w.handler.stopped = false) (hEvent : w.events[i]? = some (path, kind))
    (hWaits : ¬w.Handed i path) (hPrompt : Prompt path w a) (hStep : step w a = some u) :
    u.Handed i path ∨ u.patience i path + a.isWorker.toNat ≤ w.patience i path := by
  have hOpen := (hInv.account.owed i path kind hEvent).resolve_left hWaits
  cases a with
  | schedule now other otherKind => exact .inr (patience_schedule hOpen hStep)
  | cancelAll => cases hPrompt
  | wake now =>
      right
      rw [step] at hStep
      split at hStep
      case h_2 => cases hStep
      case h_1 timeout hWorker =>
        split_ifs at hStep
        cases hStep
        rw [World.patience, World.patience, hWorker, patience_of_undelivered rfl,
          patience_of_undelivered rfl]
        dsimp only [Worker.stepsToLook, Action.isWorker, Bool.toNat_true]
        omega
  | look now =>
      right
      rw [step] at hStep
      split at hStep <;> cases hStep
      case h_1 hWorker =>
        have hBatch : ¬w.InBatch i path := by
          rw [World.InBatch, hWorker]
          exact fun h => List.not_mem_nil h.1
        exact patience_look hStopped (hOpen.resolve_right hBatch)
          (List.getElem?_eq_some_iff.mp hEvent).1 hWorker hPrompt
  | call => exact patience_call hStep
  | callEnds now outcome => exact .inr (patience_callEnds hPrompt hStep)
  | finish =>
      right
      have hAlive := hInv.worker
      rw [step] at hStep
      split at hStep <;> cases hStep
      case h_2 completed hWorker =>
        rw [hWorker] at hAlive
        cases hAlive
      case h_1 completed hWorker =>
        rw [World.patience, World.patience, hWorker, patience_of_undelivered rfl,
          patience_of_undelivered rfl, (foldl_complete completed w.handler).1]
        dsimp only [Worker.stepsToLook, Action.isWorker, Bool.toNat_true]
        rw [List.length_nil]
        omega

/-- The worker can go on whenever the deadline of the path is over. -/
theorem exists_workerAction {kind : FileEventKind} (hInv : Invariant w)
    (hEvent : w.events[i]? = some (path, kind)) (hWaits : ¬w.Handed i path) {now : ℚ}
    (hOver : ∀ entry ∈ w.handler.pending.entries, entry.1 = path → entry.2.deadline ≤ now) :
    ∃ a ∈ workerActions now, (step w a).isSome := by
  have hOpen := (hInv.account.owed i path kind hEvent).resolve_left hWaits
  have hAlive := hInv.worker
  cases hWorker : w.worker with
  | looking => exact ⟨.look now, by simp [workerActions], by simp [step, hWorker]⟩
  | delivering due completed =>
      cases due with
      | nil => exact ⟨.finish, by simp [workerActions], by simp [step, hWorker]⟩
      | cons current rest => exact ⟨.call, by simp [workerActions], by simp [step, hWorker]⟩
  | calling current rest completed =>
      exact ⟨.callEnds now .returned, by simp [workerActions], by simp [step, hWorker]⟩
  | unwinding completed =>
      rw [hWorker] at hAlive
      cases hAlive
  | ended =>
      rw [hWorker] at hAlive
      cases hAlive
  | sleeping timeout =>
      rw [hWorker] at hAlive
      have hPending : path ∈ w.handler.pending.keys := by
        apply hOpen.resolve_right
        rw [World.InBatch, hWorker]
        exact fun h => List.not_mem_nil h.1
      cases timeout with
      | none =>
          rw [nextDeadline_eq_none.mp hAlive.symm] at hPending
          cases hPending
      | some next =>
          obtain ⟨entry, hEntry, rfl⟩ := List.mem_map.mp hPending
          have hNext : next ≤ now :=
            (nextDeadline_le hAlive.symm hEntry).trans (hOver entry hEntry rfl)
          exact ⟨.wake now, by simp [workerActions], by simp [step, hWorker, hNext]⟩

/-- After enough steps of the worker the event has been handed over, or it is nearer. -/
theorem patience_exec {kind : FileEventKind} {acts : List (Action κ)} (hInv : Invariant w)
    (hStopped : w.handler.stopped = false) (hEvent : w.events[i]? = some (path, kind))
    (hExec : exec step (Prompt path) w acts = some u) :
    u.Handed i path ∨ u.patience i path + acts.countP Action.isWorker ≤ w.patience i path := by
  induction acts generalizing w with
  | nil =>
      cases hExec
      exact .inr (Nat.le_refl _)
  | cons a acts ih =>
      obtain ⟨t, hPrompt, hFirst, hRest⟩ := exec_cons.mp hExec
      have hRunning := running_step hStopped hPrompt hFirst
      have hContained : Contained w a := by
        cases a with
        | callEnds _ _ => exact hPrompt
        | _ => trivial
      have hNext := Invariant.step (fun _ => hInv) hContained hFirst hRunning
      by_cases hHanded : t.Handed i path
      · exact .inl (handed_exec hHanded hRest)
      · have hWaits : ¬w.Handed i path := fun h => hHanded (h.step hFirst)
        have hStep := (patience_step hInv hStopped hEvent hWaits hPrompt hFirst).resolve_left hHanded
        apply (ih hNext hRunning (event_step hEvent hFirst) hRest).imp_right
        intro hLater
        have hCount : (a :: acts).countP Action.isWorker =
            acts.countP Action.isWorker + a.isWorker.toNat := by
          rw [List.countP_cons]
          cases a.isWorker <;> rfl
        omega

/-- Whatever is scheduled while the worker takes, delivers and sleeps, every event is
accounted for until `cancel_all`, and is delivered after so many steps of the worker, which
can go on once the deadline is over. -/
theorem accounted_and_delivered {debounce : ℚ}
    (run : Run step Contained (initial debounce) w) (hStopped : w.handler.stopped = false) :
    Accounted w ∧ ∀ i path kind, w.events[i]? = some (path, kind) →
      (∀ acts u, exec step (Prompt path) w acts = some u →
        w.patience i path ≤ acts.countP Action.isWorker → u.Handed i path) ∧
      (¬w.Handed i path → ∀ now,
        (∀ entry ∈ w.handler.pending.entries, entry.1 = path → entry.2.deadline ≤ now) →
          ∃ a ∈ workerActions now, (step w a).isSome) := by
  have hInv := Invariant.run run hStopped
  refine ⟨hInv.account, fun i path kind hEvent => ⟨fun acts u hExec hEnough => ?_, ?_⟩⟩
  · apply (patience_exec hInv hStopped hEvent hExec).resolve_right
    have hPos : 0 < u.patience i path := patience_pos
    omega
  · exact fun hWaits now hOver => exists_workerAction hInv hEvent hWaits hOver

/-- The path of every last event that has not been handed over is pending. -/
def AllPending (w : World κ) : Prop :=
  ∀ i path kind, w.events[i]? = some (path, kind) →
    (∀ j later, i < j → w.events[j]? ≠ some (path, later)) →
      w.Handed i path ∨ path ∈ w.handler.pending.keys

end Patience

section Runs

def scheduledWorld : World String where
  handler := (initial (3 / 4)).handler.schedule 0 "pages/a.md" .modified
  events := [("pages/a.md", .modified)]

def entryA : String × Entry := ("pages/a.md", ⟨3 / 4, 0, .modified⟩)

theorem entries_scheduledWorld : scheduledWorld.handler.pending.entries = [entryA] := by
  simp [scheduledWorld, initial, Handler.schedule, InsertionDict.put, InsertionDict.putEntries,
    InsertionDict.get?, InsertionDict.empty, entryA]

/-- A second after the event its path has been taken. -/
theorem look_scheduledWorld : scheduledWorld.look 1 = { scheduledWorld with
    handler := { scheduledWorld.handler with
      pending := scheduledWorld.handler.pending.deleteWhere (isDue 1) }
    worker := .delivering [entryA] []
    takenAt := 1 } := by
  have hDue : isDue 1 entryA = true := by norm_num [isDue, entryA]
  rcases look_cases (w := scheduledWorld) rfl 1 with ⟨_, hEarly⟩ | hEq
  · have hNext := hEarly (3 / 4) (by rw [Handler.nextDeadline, entries_scheduledWorld]; rfl)
    norm_num at hNext
  · rw [hEq, entries_scheduledWorld, List.filter_cons_of_pos hDue]
    rfl

theorem keys_look_scheduledWorld : (scheduledWorld.look 1).handler.pending.keys = [] := by
  have hDue : isDue 1 entryA = true := by norm_num [isDue, entryA]
  rw [look_scheduledWorld]
  change (scheduledWorld.handler.pending.entries.filter fun entry => !isDue 1 entry).map Prod.fst = []
  rw [entries_scheduledWorld]
  simp [hDue]

theorem run_look_scheduledWorld {C : World String → Action String → Prop}
    (hC : ∀ w a, Contained w a → C w a) :
    Run step C (initial (3 / 4)) (scheduledWorld.look 1) :=
  (Run.mono (.tail (.tail (.refl _) (a := .schedule 0 "pages/a.md" .modified) trivial rfl)
    (a := .look 1) trivial rfl) hC)

theorem delivered_scheduledWorld : Accounted (scheduledWorld.look 1) :=
  (accounted_and_delivered (run_look_scheduledWorld fun _ _ h => h)
    (by rw [look_scheduledWorld]; rfl)).1

/-- A path that has just been taken is not pending, and an exception that is no `Exception`
ends the worker, which then never delivers what came in meanwhile. -/
theorem taken_not_pending :
    (∃ w : World String, Run step Contained (initial (3 / 4)) w ∧ w.handler.stopped = false ∧
      ¬AllPending w) ∧
    ∃ w : World String, Run step (fun _ _ => True) (initial (3 / 4)) w ∧
      w.handler.stopped = false ∧ w.events[1]? = some ("pages/b.md", .created) ∧
      ¬w.Handed 1 "pages/b.md" ∧ ∀ a, a.isWorker = true → step w a = none := by
  constructor
  · refine ⟨scheduledWorld.look 1, run_look_scheduledWorld fun _ _ h => h,
      by rw [look_scheduledWorld]; rfl, fun h => ?_⟩
    have hEvents : (scheduledWorld.look 1).events = [("pages/a.md", .modified)] := by
      rw [look_scheduledWorld]
      rfl
    have hLast (j : Nat) (later : FileEventKind) (hj : 0 < j) :
        (scheduledWorld.look 1).events[j]? ≠ some ("pages/a.md", later) := by
      rw [hEvents, List.getElem?_eq_none hj]
      exact fun hNever => by cases hNever
    rcases h 0 "pages/a.md" .modified (by rw [hEvents]; rfl) hLast with ⟨d, hd, _⟩ | hPending
    · rw [look_scheduledWorld] at hd
      cases hd
    · rw [keys_look_scheduledWorld] at hPending
      cases hPending
  · have run := run_look_scheduledWorld (C := fun _ _ => True) fun _ _ _ => trivial
    rw [look_scheduledWorld] at run
    refine ⟨_, .tail (.tail (.tail (.tail run (a := .schedule 1 "pages/b.md" .created) trivial rfl)
      (a := .call) trivial rfl) (a := .callEnds 2 .escaped) trivial rfl) (a := .finish) trivial rfl,
      rfl, rfl, ?_, fun a hWorker => ?_⟩
    · rintro ⟨d, hd, hPath, _⟩
      rw [List.mem_singleton.mp hd] at hPath
      exact absurd hPath (by decide)
    · cases a with
      | schedule _ _ _ => cases hWorker
      | cancelAll => cases hWorker
      | _ => rfl

end Runs

end Plumber.FileWatcher
