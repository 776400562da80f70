import Mathlib.Algebra.Order.Floor.Ring
import Mathlib.Data.Rat.Floor
import MatrycaPlumber.System.InsertionDict
import MatrycaPlumber.System.Transition

/-! The debounced file watcher: any number of threads schedule events of paths, and one
worker takes the paths that have been quiet for long enough and hands them to the callback
without the lock. -/
namespace Plumber.FileWatcher

open Transition

inductive FileEventKind where
  | created | modified | deleted
deriving DecidableEq, Repr

/-- What is pending for a path. -/
structure Entry where
  deadline : ℚ
  firstSeen : ℚ
  kind : FileEventKind

/-- The fields of `_DebouncedMarkdownHandler`. -/
structure Handler (κ : Type) where
  debounce : ℚ
  pending : InsertionDict κ Entry := .empty
  stopped : Bool := false
  scheduledCount : Nat := 0
  coalescedCount : Nat := 0
  dispatchedCount : Nat := 0
  callbackFailureCount : Nat := 0
  lastConvergenceLatencyNs : Nat := 0
  maxConvergenceLatencyNs : Nat := 0

/-- A callback returns, raises an `Exception`, which is logged, or raises something else,
which ends the thread. -/
inductive Outcome where
  | returned | failed | escaped
deriving DecidableEq, Repr

/-- Where `_run` is: at the head of the loop, in `wait`, before or in a callback of a
batch with the latencies and failures of those that are over, on the way out of it with an
exception, or over. -/
inductive Worker (κ : Type) where
  | looking
  | sleeping (timeout : Option ℚ)
  | delivering (due : List (κ × Entry)) (completed : List (Nat × Bool))
  | calling (current : κ × Entry) (due : List (κ × Entry)) (completed : List (Nat × Bool))
  | unwinding (completed : List (Nat × Bool))
  | ended

/-- A call of the callback, with the number of events that had been scheduled when its
batch was taken. -/
structure Delivery (κ : Type) where
  path : κ
  kind : FileEventKind
  takenAt : Nat
deriving DecidableEq

/-- The handler and its worker, with what has happened so far: all events, the number of
them when the last batch was taken, and all deliveries. -/
structure World (κ : Type) where
  handler : Handler κ
  worker : Worker κ := .looking
  events : List (κ × FileEventKind) := []
  takenAt : Nat := 0
  deliveries : List (Delivery κ) := []

inductive Action (κ : Type) where
  | schedule (now : ℚ) (path : κ) (kind : FileEventKind)
  | cancelAll
  | wake (now : ℚ)
  | look (now : ℚ)
  | call
  | callEnds (now : ℚ) (outcome : Outcome)
  | finish

/-- A step of the thread that delivers. -/
def Action.isWorker {κ : Type} : Action κ → Bool
  | schedule _ _ _ | cancelAll => false
  | wake _ | look _ | call | callEnds _ _ | finish => true

section Model

variable {κ : Type} [DecidableEq κ]

/-- `notify_all` ends a wait. -/
def Worker.notify : Worker κ → Worker κ
  | sleeping _ => looking
  | worker => worker

/-- `_schedule`, with the clock as it was read before the lock was taken. -/
def Handler.schedule (h : Handler κ) (now : ℚ) (path : κ) (kind : FileEventKind) : Handler κ :=
  let previous := h.pending.get? path
  { h with
    scheduledCount := h.scheduledCount + 1
    coalescedCount := h.coalescedCount + if previous.isSome then 1 else 0
    pending := h.pending.put path ⟨now + h.debounce, (previous.map Entry.firstSeen).getD now, kind⟩ }

def Handler.cancelAll (h : Handler κ) : Handler κ := { h with stopped := true, pending := .empty }

def isDue (now : ℚ) (entry : κ × Entry) : Bool := entry.2.deadline ≤ now

/-- `min(deadline for deadline, _, _, _ in self._pending.values())`. -/
def Handler.nextDeadline (h : Handler κ) : Option ℚ :=
  (h.pending.entries.map fun entry => entry.2.deadline).min?

/-- `max(0, int((now - first_seen) * 1e9))`. -/
def latencyNs (now firstSeen : ℚ) : Nat := ⌊(now - firstSeen) * 1000000000⌋.toNat

/-- One callback that is over is counted. -/
def Handler.complete (h : Handler κ) (done : Nat × Bool) : Handler κ :=
  { h with
    dispatchedCount := h.dispatchedCount + 1
    callbackFailureCount := h.callbackFailureCount + done.2.toNat
    lastConvergenceLatencyNs := done.1
    maxConvergenceLatencyNs := max h.maxConvergenceLatencyNs done.1 }

/-- The head of the loop in `_run`, up to the next wait or the release of the lock. -/
def World.look (w : World κ) (now : ℚ) : World κ :=
  if w.handler.stopped then { w with worker := .ended }
  else
    match w.handler.nextDeadline with
    | none => { w with worker := .sleeping none }
    | some next =>
        if next > now then { w with worker := .sleeping (some next) }
        else
          { w with
            handler := { w.handler with pending := w.handler.pending.deleteWhere (isDue now) }
            worker := .delivering (w.handler.pending.entries.filter (isDue now)) []
            takenAt := w.events.length }

def step (w : World κ) : Action κ → Option (World κ)
  | .schedule now path kind =>
      some { w with
        handler := w.handler.schedule now path kind
        worker := w.worker.notify
        events := w.events ++ [(path, kind)] }
  | .cancelAll => some { w with handler := w.handler.cancelAll, worker := w.worker.notify }
  | .wake now =>
      match w.worker with
      | .sleeping (some deadline) =>
          if deadline ≤ now then some { w with worker := .looking } else none
      | _ => none
  | .look now =>
      match w.worker with
      | .looking => some (w.look now)
      | _ => none
  | .call =>
      match w.worker with
      | .delivering (current :: rest) completed =>
          some { w with
            worker := .calling current rest completed
            deliveries := w.deliveries ++ [⟨current.1, current.2.kind, w.takenAt⟩] }
      | _ => none
  | .callEnds now outcome =>
      match w.worker with
      | .calling current rest completed =>
          let completed := completed ++ [(latencyNs now current.2.firstSeen, decide (outcome = .failed))]
          some { w with
            worker := if outcome = .escaped then .unwinding completed
              else .delivering rest completed }
      | _ => none
  | .finish =>
      match w.worker with
      | .delivering [] completed =>
          some { w with handler := completed.foldl Handler.complete w.handler, worker := .looking }
      | .unwinding completed =>
          some { w with handler := completed.foldl Handler.complete w.handler, worker := .ended }
      | _ => none

def initial (debounce : ℚ) : World κ := { handler := { debounce } }

/-- The kind of the last event of a path. -/
def latestKind (events : List (κ × FileEventKind)) (path : κ) : Option FileEventKind :=
  (events.filter fun event => event.1 = path).getLast?.map Prod.snd

/-- The entries of the batch that is being delivered, and how many of it there are. -/
def Worker.undelivered : Worker κ → List (κ × Entry)
  | delivering due _ | calling _ due _ => due
  | _ => []

def Worker.batchLength : Worker κ → Nat
  | delivering due completed => completed.length + due.length
  | calling _ due completed => completed.length + (due.length + 1)
  | _ => 0

/-- The event has been handed to the callback, itself or in a later one of its path. -/
def World.Handed (w : World κ) (i : Nat) (path : κ) : Prop :=
  ∃ d ∈ w.deliveries, d.path = path ∧ i < d.takenAt

/-- The event is in the batch that is being delivered and has not been handed over. -/
def World.InBatch (w : World κ) (i : Nat) (path : κ) : Prop :=
  path ∈ w.worker.undelivered.map Prod.fst ∧ i < w.takenAt

/-- Every event is counted once, every one that has not been handed over is pending or in
the batch, and each delivery carries the kind of the last event of its path when its batch
was taken. -/
structure Accounted (w : World κ) : Prop where
  counts : w.handler.scheduledCount = w.handler.coalescedCount + w.handler.dispatchedCount +
    w.handler.pending.keys.length + w.worker.batchLength
  owed : ∀ i path kind, w.events[i]? = some (path, kind) →
    w.Handed i path ∨ path ∈ w.handler.pending.keys ∨ w.InBatch i path
  kinds : ∀ d ∈ w.deliveries, latestKind (w.events.take d.takenAt) d.path = some d.kind

end Model

/-- No callback raises anything but an `Exception`. -/
def Contained {κ : Type} (_ : World κ) : Action κ → Prop
  | .callEnds _ outcome => outcome ≠ .escaped
  | _ => True

/-- The thread goes on, and sleeps no longer than until the next deadline. -/
def Worker.Alive {κ : Type} (next : Option ℚ) : Worker κ → Prop
  | sleeping timeout => timeout = next
  | unwinding _ | ended => False
  | _ => True

/-- The account, with what carries it: the kinds that are pending and in the batch, and a
worker that lives and sleeps no longer than until the next deadline. -/
structure Invariant {κ : Type} [DecidableEq κ] (w : World κ) : Prop where
  account : Accounted w
  pendingKinds : ∀ entry ∈ w.handler.pending.entries,
    latestKind w.events entry.1 = some entry.2.kind
  batchKinds : ∀ entry ∈ w.worker.undelivered,
    latestKind (w.events.take w.takenAt) entry.1 = some entry.2.kind
  takenAt_le : w.takenAt ≤ w.events.length
  delivered_le : ∀ d ∈ w.deliveries, d.takenAt ≤ w.events.length
  worker : w.worker.Alive w.handler.nextDeadline

section Steps

variable {κ : Type}

theorem nextDeadline_eq_none {h : Handler κ} : h.nextDeadline = none ↔ h.pending.keys = [] := by
  rw [Handler.nextDeadline, List.min?_eq_none_iff, List.map_eq_nil_iff, InsertionDict.keys,
    List.map_eq_nil_iff]

theorem nextDeadline_le {h : Handler κ} {next : ℚ} (hNext : h.nextDeadline = some next)
    {entry : κ × Entry} (hMem : entry ∈ h.pending.entries) : next ≤ entry.2.deadline :=
  (List.min?_eq_some_iff.mp hNext).2 _ (List.mem_map_of_mem hMem)

/-- Counting the callbacks that are over touches nothing else that the account is about. -/
theorem foldl_complete (completed : List (Nat × Bool)) (h : Handler κ) :
    (completed.foldl Handler.complete h).pending = h.pending ∧
      (completed.foldl Handler.complete h).stopped = h.stopped ∧
      (completed.foldl Handler.complete h).scheduledCount = h.scheduledCount ∧
      (completed.foldl Handler.complete h).coalescedCount = h.coalescedCount ∧
      (completed.foldl Handler.complete h).dispatchedCount =
        h.dispatchedCount + completed.length := by
  induction completed generalizing h with
  | nil => exact ⟨rfl, rfl, rfl, rfl, rfl⟩
  | cons done rest ih =>
      obtain ⟨hPending, hStopped, hScheduled, hCoalesced, hDispatched⟩ := ih (h.complete done)
      refine ⟨hPending, hStopped, hScheduled, hCoalesced, ?_⟩
      rw [List.foldl_cons, hDispatched, Handler.complete, List.length_cons]
      dsimp only
      omega

theorem undelivered_notify (worker : Worker κ) : worker.notify.undelivered = worker.undelivered := by
  cases worker <;> rfl

theorem batchLength_notify (worker : Worker κ) : worker.notify.batchLength = worker.batchLength := by
  cases worker <;> rfl

variable {w u : World κ}

/-- The worker waits for nothing as long as nothing is pending and for the next deadline
otherwise, or takes what is due. -/
theorem look_cases (hStopped : w.handler.stopped = false) (now : ℚ) :
    (w.look now = { w with worker := .sleeping w.handler.nextDeadline } ∧
        ∀ next, w.handler.nextDeadline = some next → now < next) ∨
      w.look now = { w with
        handler := { w.handler with pending := w.handler.pending.deleteWhere (isDue now) }
        worker := .delivering (w.handler.pending.entries.filter (isDue now)) []
        takenAt := w.events.length } := by
  rw [World.look, if_neg (by simp [hStopped])]
  cases hNext : w.handler.nextDeadline with
  | none => exact .inl ⟨rfl, fun _ h => by cases h⟩
  | some next =>
      dsimp only
      split_ifs with hLater
      · exact .inl ⟨rfl, fun _ h => Option.some.inj h ▸ hLater⟩
      · exact .inr rfl

variable [DecidableEq κ]

theorem latestKind_concat (events : List (κ × FileEventKind)) (path other : κ)
    (kind : FileEventKind) : latestKind (events ++ [(path, kind)]) other =
      if other = path then some kind else latestKind events other := by
  rw [latestKind, List.filter_append]
  by_cases hPath : other = path
  · rw [if_pos hPath, List.filter_cons_of_pos (by simp [hPath]), List.filter_nil,
      List.getLast?_concat]
    rfl
  · rw [if_neg hPath, List.filter_cons_of_neg (by simp [Ne.symm hPath]), List.filter_nil,
      List.append_nil]
    rfl

theorem invariant_initial (debounce : ℚ) : Invariant (initial debounce : World κ) where
  account := ⟨rfl, fun _ _ _ h => (by cases h), fun _ h => (by cases h)⟩
  pendingKinds _ h := by cases h
  batchKinds _ h := by cases h
  takenAt_le := Nat.le_refl 0
  delivered_le _ h := by cases h
  worker := trivial

theorem Invariant.schedule (h : Invariant w) {now : ℚ} {path : κ} {kind : FileEventKind}
    (hStep : step w (.schedule now path kind) = some u) : Invariant u := by
  obtain rfl := Option.some.inj hStep
  have hTake {n : Nat} (hn : n ≤ w.events.length) :
      (w.events ++ [(path, kind)]).take n = w.events.take n := List.take_append_of_le_length hn
  constructor
  case account =>
    constructor
    case counts =>
      have hPrevious : (w.handler.pending.get? path).isSome = true ↔ path ∈ w.handler.pending.keys := by
        rw [Option.isSome_iff_ne_none, ne_eq, InsertionDict.get?_eq_none, not_not]
      dsimp only [Handler.schedule]
      rw [InsertionDict.length_put, batchLength_notify, h.account.counts]
      by_cases hMem : path ∈ w.handler.pending.keys
      · rw [if_pos hMem, if_pos (hPrevious.mpr hMem)]
        omega
      · rw [if_neg hMem, if_neg (hPrevious.not.mpr hMem)]
        omega
    case owed =>
      intro i other otherKind hEvent
      dsimp only [Handler.schedule]
      rw [InsertionDict.mem_keys_put, World.InBatch, undelivered_notify]
      dsimp only at hEvent
      by_cases hi : i < w.events.length
      · rw [List.getElem?_append_left hi] at hEvent
        rcases h.account.owed i other otherKind hEvent with hHanded | hPending | hBatch
        · exact .inl hHanded
        · exact .inr (.inl (.inr hPending))
        · exact .inr (.inr hBatch)
      · rw [List.getElem?_append_right (Nat.le_of_not_lt hi)] at hEvent
        have hNew := List.mem_of_getElem? hEvent
        rw [List.mem_singleton, Prod.mk.injEq] at hNew
        exact .inr (.inl (.inl hNew.1))
    case kinds =>
      intro d hd
      dsimp only
      rw [hTake (h.delivered_le d hd)]
      exact h.account.kinds d hd
  case pendingKinds =>
    intro entry hEntry
    dsimp only [Handler.schedule] at hEntry ⊢
    rw [InsertionDict.mem_put] at hEntry
    rw [latestKind_concat]
    rcases hEntry with rfl | ⟨hOld, hNe⟩
    · rw [if_pos rfl]
    · rw [if_neg hNe]
      exact h.pendingKinds entry hOld
  case batchKinds =>
    intro entry hEntry
    dsimp only at hEntry ⊢
    rw [undelivered_notify] at hEntry
    rw [hTake h.takenAt_le]
    exact h.batchKinds entry hEntry
  case takenAt_le =>
    dsimp only
    rw [List.length_append]
    exact Nat.le_add_right_of_le h.takenAt_le
  case delivered_le =>
    intro d hd
    dsimp only
    rw [List.length_append]
    exact Nat.le_add_right_of_le (h.delivered_le d hd)
  case worker =>
    have hAlive := h.worker
    dsimp only
    cases hOld : w.worker <;> rw [hOld] at hAlive
    case unwinding => exact hAlive
    case ended => exact hAlive
    all_goals trivial

/-- The worker may move on with the same batch. -/
theorem Invariant.move (h : Invariant w) {worker : Worker κ}
    (hUndelivered : worker.undelivered = w.worker.undelivered)
    (hLength : worker.batchLength = w.worker.batchLength)
    (hAlive : worker.Alive w.handler.nextDeadline) : Invariant { w with worker } where
  account :=
    { counts := hLength ▸ h.account.counts
      owed := fun i path kind hEvent => by
        rw [World.InBatch, hUndelivered]
        exact h.account.owed i path kind hEvent
      kinds := h.account.kinds }
  pendingKinds := h.pendingKinds
  batchKinds := hUndelivered ▸ h.batchKinds
  takenAt_le := h.takenAt_le
  delivered_le := h.delivered_le
  worker := hAlive

theorem Invariant.wake (h : Invariant w) {now : ℚ} (hStep : step w (.wake now) = some u) :
    Invariant u := by
  rw [step] at hStep
  split at hStep
  case h_2 => cases hStep
  case h_1 timeout hWorker =>
    split_ifs at hStep
    obtain rfl := Option.some.inj hStep
    apply h.move
    · rw [hWorker]; rfl
    · rw [hWorker]; rfl
    · trivial

/-- What is due leaves the map for the batch, with the kinds it had. -/
theorem Invariant.take (h : Invariant w) (hWorker : w.worker = .looking) (now : ℚ) :
    Invariant { w with
      handler := { w.handler with pending := w.handler.pending.deleteWhere (isDue now) }
      worker := .delivering (w.handler.pending.entries.filter (isDue now)) []
      takenAt := w.events.length } := by
  constructor
  case account =>
    constructor
    case counts =>
      have hSplit := List.length_eq_length_filter_add (l := w.handler.pending.entries) (isDue now)
      have hCounts := h.account.counts
      rw [hWorker, InsertionDict.keys, List.length_map] at hCounts
      dsimp only [Worker.batchLength, InsertionDict.keys, InsertionDict.deleteWhere] at hCounts ⊢
      rw [List.length_map, List.length_nil]
      omega
    case owed =>
      intro i path kind hEvent
      have hOwed := h.account.owed i path kind hEvent
      rw [World.InBatch, hWorker] at hOwed
      rcases hOwed with hHanded | hPending | hBatch
      · exact .inl hHanded
      · obtain ⟨entry, hEntry, rfl⟩ := List.mem_map.mp hPending
        cases hDue : isDue now entry with
        | true =>
            have hTaken := List.mem_map_of_mem (f := Prod.fst) (List.mem_filter.mpr ⟨hEntry, hDue⟩)
            exact .inr (.inr ⟨hTaken, (List.getElem?_eq_some_iff.mp hEvent).1⟩)
        | false =>
            have hKept : entry ∈ (w.handler.pending.deleteWhere (isDue now)).entries :=
              List.mem_filter.mpr ⟨hEntry, by rw [hDue]; rfl⟩
            exact .inr (.inl (List.mem_map_of_mem hKept))
      · cases hBatch.1
    case kinds => exact h.account.kinds
  case pendingKinds => exact fun entry hEntry => h.pendingKinds entry (List.mem_filter.mp hEntry).1
  case batchKinds =>
    intro entry hEntry
    dsimp only
    rw [List.take_length]
    exact h.pendingKinds entry (List.mem_filter.mp hEntry).1
  case takenAt_le => exact Nat.le_refl _
  case delivered_le => exact h.delivered_le
  case worker => trivial

theorem Invariant.look (h : Invariant w) (hStopped : w.handler.stopped = false) {now : ℚ}
    (hStep : step w (.look now) = some u) : Invariant u := by
  rw [step] at hStep
  split at hStep
  case h_2 => cases hStep
  case h_1 hWorker =>
    obtain rfl := Option.some.inj hStep
    rcases look_cases hStopped now with ⟨hEq, _⟩ | hEq
    · rw [hEq]
      apply h.move
      · rw [hWorker]; rfl
      · rw [hWorker]; rfl
      · rfl
    · rw [hEq]
      exact h.take hWorker now

/-- The callback is called with the next entry of the batch. -/
theorem Invariant.call (h : Invariant w) (hStep : step w .call = some u) : Invariant u := by
  rw [step] at hStep
  split at hStep
  case h_2 => cases hStep
  case h_1 current rest completed hWorker =>
    obtain rfl := Option.some.inj hStep
    have hCounts := h.account.counts
    have hBatch := h.batchKinds
    rw [hWorker] at hCounts hBatch
    constructor
    case account =>
      refine ⟨hCounts, ?_, ?_⟩
      · intro i path kind hEvent
        have hOwed := h.account.owed i path kind hEvent
        rw [World.InBatch, hWorker] at hOwed
        rcases hOwed with ⟨d, hd, hPath⟩ | hPending | ⟨hMem, hTaken⟩
        · exact .inl ⟨d, List.mem_append_left _ hd, hPath⟩
        · exact .inr (.inl hPending)
        · rcases List.mem_cons.mp hMem with rfl | hRest
          · exact .inl ⟨_, List.mem_append_right _ (List.mem_singleton_self _), rfl, hTaken⟩
          · exact .inr (.inr ⟨hRest, hTaken⟩)
      · intro d hd
        rcases List.mem_append.mp hd with hOld | hNew
        · exact h.account.kinds d hOld
        · rw [List.mem_singleton.mp hNew]
          exact hBatch current List.mem_cons_self
    case pendingKinds => exact h.pendingKinds
    case batchKinds => exact fun entry hEntry => hBatch entry (List.mem_cons_of_mem _ hEntry)
    case takenAt_le => exact h.takenAt_le
    case delivered_le =>
      intro d hd
      rcases List.mem_append.mp hd with hOld | hNew
      · exact h.delivered_le d hOld
      · rw [List.mem_singleton.mp hNew]
        exact h.takenAt_le
    · trivial

theorem Invariant.callEnds (h : Invariant w) {now : ℚ} {outcome : Outcome}
    (hContained : outcome ≠ .escaped) (hStep : step w (.callEnds now outcome) = some u) :
    Invariant u := by
  rw [step] at hStep
  split at hStep
  case h_2 => cases hStep
  case h_1 current rest completed hWorker =>
    obtain rfl := Option.some.inj hStep
    rw [if_neg hContained]
    apply h.move
    · rw [hWorker]; rfl
    · rw [hWorker]
      dsimp only [Worker.batchLength]
      rw [List.length_append, List.length_singleton]
      omega
    · trivial

theorem Invariant.finish (h : Invariant w) (hStep : step w .finish = some u) : Invariant u := by
  rw [step] at hStep
  split at hStep
  case h_3 => cases hStep
  case h_2 completed hWorker =>
    have hAlive := h.worker
    rw [hWorker] at hAlive
    cases hAlive
  case h_1 completed hWorker =>
    obtain rfl := Option.some.inj hStep
    obtain ⟨hPending, _, hScheduled, hCoalesced, hDispatched⟩ := foldl_complete completed w.handler
    have hCounts := h.account.counts
    rw [hWorker] at hCounts
    refine ⟨⟨?_, ?_, h.account.kinds⟩, ?_, ?_, h.takenAt_le, h.delivered_le, ?_⟩
    · dsimp only [Worker.batchLength] at hCounts ⊢
      rw [hScheduled, hCoalesced, hDispatched, hPending]
      rw [List.length_nil] at hCounts
      omega
    · intro i path kind hEvent
      have hOwed := h.account.owed i path kind hEvent
      rw [World.InBatch, hWorker] at hOwed
      dsimp only
      rw [hPending]
      exact hOwed
    · dsimp only
      rw [hPending]
      exact h.pendingKinds
    · intro _ hNever
      cases hNever
    · trivial

/-- Once stopped, the watcher stays stopped. -/
theorem stopped_step {a : Action κ} (hStep : step w a = some u) (hStopped : w.handler.stopped = true) :
    u.handler.stopped = true := by
  cases a with
  | schedule _ _ _ => rw [← Option.some.inj hStep]; exact hStopped
  | cancelAll => rw [← Option.some.inj hStep]; rfl
  | wake _ | call | callEnds _ _ =>
      rw [step] at hStep
      repeat' split at hStep
      all_goals cases hStep
      all_goals exact hStopped
  | look now =>
      rw [step] at hStep
      split at hStep
      · rw [← Option.some.inj hStep, World.look, if_pos hStopped]
        exact hStopped
      · cases hStep
  | finish =>
      rw [step] at hStep
      split at hStep
      case h_3 => cases hStep
      all_goals rw [← Option.some.inj hStep]
      all_goals exact (foldl_complete _ _).2.1.trans hStopped

theorem Invariant.step {a : Action κ} (h : w.handler.stopped = false → Invariant w)
    (hContained : Contained w a) (hStep : FileWatcher.step w a = some u)
    (hStopped : u.handler.stopped = false) : Invariant u := by
  have hBefore : w.handler.stopped = false := by
    cases hWas : w.handler.stopped with
    | false => rfl
    | true => rw [stopped_step hStep hWas] at hStopped; cases hStopped
  cases a with
  | schedule now path kind => exact (h hBefore).schedule hStep
  | cancelAll => rw [← Option.some.inj hStep] at hStopped; cases hStopped
  | wake now => exact (h hBefore).wake hStep
  | look now => exact (h hBefore).look hBefore hStep
  | call => exact (h hBefore).call hStep
  | callEnds now outcome => exact (h hBefore).callEnds hContained hStep
  | finish => exact (h hBefore).finish hStep

/-- Whatever is scheduled and however the worker runs, nothing is lost before
`cancel_all`. -/
theorem Invariant.run {debounce : ℚ} (run : Run FileWatcher.step Contained (initial debounce) w)
    (hStopped : w.handler.stopped = false) : Invariant w := by
  have hAll : w.handler.stopped = false → Invariant w :=
    run.invariant (I := fun w => w.handler.stopped = false → Invariant w)
      (fun _ => invariant_initial debounce)
      fun _ _ _ hInv hContained hStep => Invariant.step hInv hContained hStep
  exact hAll hStopped

end Steps

end Plumber.FileWatcher
