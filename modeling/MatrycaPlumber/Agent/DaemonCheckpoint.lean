import Mathlib.Data.List.Pairwise
import MatrycaPlumber.Text.Basic
import MatrycaPlumber.System.Transition

/-! The checkpoint of the daemon. A persist takes a snapshot of the shared state
under the telemetry lock and saves it afterwards under the lock of the file, so
several of them may be between the two steps at a time. -/
namespace Plumber.DaemonCheckpoint

open PyText

inductive DaemonStatus where
  | idle
  | running
  | stopped
  | error
  deriving DecidableEq

/-- The part of the state that the persists read and write, for any type of file
records. -/
structure DaemonState (ρ : Type) where
  files : Str → Option ρ
  status : DaemonStatus
  sessionPromptTokens : Nat
  sessionCompletionTokens : Nat

/-- A copy of the state. The snapshots are numbered in the order in which they
are taken. -/
structure Snapshot (ρ : Type) where
  number : Nat
  content : DaemonState ρ

/-- `inFlight` are the snapshots that are taken and not yet saved, `taken` and
`saved` are all snapshots so far in the order of the two steps. -/
structure Plane (ρ : Type) where
  state : DaemonState ρ
  promptTokens : Nat
  completionTokens : Nat
  telemetryDirty : Bool
  lastHeartbeat : Nat
  inFlight : List (Snapshot ρ)
  taken : List (Snapshot ρ)
  saved : List (Snapshot ρ)
  checkpoint : Option (Snapshot ρ)

variable {ρ : Type}

def initialPlane (state : DaemonState ρ) : Plane ρ where
  state := state
  promptTokens := 0
  completionTokens := 0
  telemetryDirty := false
  lastHeartbeat := 0
  inFlight := []
  taken := []
  saved := []
  checkpoint := none

/-- `_persist_daemon_state`, `_maybe_heartbeat_checkpoint`, and a call of
`save_daemon_state` with the state itself, which is serialized before the lock of
the file is taken. -/
inductive Persist where
  | cycle (markRunning : Bool)
  | heartbeat (force : Bool)
  | plain

inductive Action (ρ : Type) where
  | change (state : DaemonState ρ)
  | count (promptTokens completionTokens : Nat)
  | markDirty
  | snapshot (persist : Persist) (now : Nat)
  | save (i : Nat)

/-- `_sync_live_telemetry`. -/
def Plane.syncLiveTelemetry (s : Plane ρ) (markRunning : Bool) : DaemonState ρ :=
  { s.state with
    sessionPromptTokens := s.promptTokens
    sessionCompletionTokens := s.completionTokens
    status := if markRunning && s.state.status != DaemonStatus.stopped then .running else s.state.status }

/-- A snapshot of the state, which is then on its way to the disk. -/
def Plane.take (s : Plane ρ) : Plane ρ :=
  let snapshot := ⟨s.taken.length, s.state⟩
  { s with inFlight := s.inFlight ++ [snapshot], taken := s.taken ++ [snapshot] }

/-- The first step of a persist at time `now`. A heartbeat does nothing if there is
nothing new and the last one is not long ago. -/
def Plane.snapshot (interval : Nat) (s : Plane ρ) (persist : Persist) (now : Nat) : Plane ρ :=
  match persist with
  | .cycle markRunning =>
      { s with
        state := s.syncLiveTelemetry markRunning
        lastHeartbeat := now
        telemetryDirty := false }.take
  | .heartbeat force =>
      if !force && !s.telemetryDirty && now - s.lastHeartbeat < interval then s
      else
        { s with
          state := s.syncLiveTelemetry (s.state.status != DaemonStatus.stopped)
          lastHeartbeat := now
          telemetryDirty := false }.take
  | .plain => s.take

def step (interval : Nat) (s : Plane ρ) : Action ρ → Option (Plane ρ)
  | .change state => some { s with state := state }
  | .count promptTokens completionTokens =>
      some { s with promptTokens := promptTokens, completionTokens := completionTokens }
  | .markDirty => some { s with telemetryDirty := true }
  | .snapshot persist now => some (s.snapshot interval persist now)
  | .save i =>
      match s.inFlight[i]? with
      | none => none
      | some snapshot =>
          some { s with
            inFlight := s.inFlight.eraseIdx i
            saved := s.saved ++ [snapshot]
            checkpoint := some snapshot }

/-- A save writes the oldest snapshot that is on its way. -/
def OldestFirst (s : Plane ρ) : Action ρ → Prop
  | .save i => ∀ snapshot ∈ s.inFlight[i]?, ∀ other ∈ s.inFlight, snapshot.number ≤ other.number
  | .change _ | .count _ _ | .markDirty | .snapshot _ _ => True

instance (s : Plane ρ) : (a : Action ρ) → Decidable (OldestFirst s a)
  | .save _ => Option.decidableForallMem _
  | .change _ | .count _ _ | .markDirty | .snapshot _ _ => .isTrue trivial

/-- The state after a restart. -/
def Plane.loadDaemonState (s : Plane ρ) : Option (DaemonState ρ) :=
  s.checkpoint.map Snapshot.content

/-- The saved snapshots are in the order of their numbers, the newest snapshot is
the checkpoint once nothing is on its way, and a file record of a saved snapshot
that all snapshots since have is there after a restart. -/
structure Monotone (s : Plane ρ) : Prop where
  forward : s.saved.Pairwise fun older newer => older.number < newer.number
  newest : s.inFlight = [] → s.checkpoint = s.taken.getLast?
  records : ∀ old ∈ s.saved, ∀ path record,
    (∀ snapshot ∈ s.taken, old.number ≤ snapshot.number →
      snapshot.content.files path = some record) →
    ∃ state, s.loadDaemonState = some state ∧ state.files path = some record

/-- With saves in the order of the snapshots, what is saved and what is on its way
are all snapshots in their order. -/
structure Inv (s : Plane ρ) : Prop where
  numbers : s.taken.map Snapshot.number = List.range s.taken.length
  split : s.saved ++ s.inFlight = s.taken
  checkpoint : s.checkpoint = s.saved.getLast?

theorem Inv.pairwise {s : Plane ρ} (h : Inv s) :
    s.taken.Pairwise fun older newer => older.number < newer.number := by
  rw [← List.pairwise_map, h.numbers]
  exact List.pairwise_lt_range

theorem Inv.take {s : Plane ρ} (h : Inv s) : Inv s.take where
  numbers := by simp [Plane.take, h.numbers, List.range_succ]
  split := by simp [Plane.take, ← h.split]
  checkpoint := h.checkpoint

/-- The clocks and the state itself are no part of the invariant. -/
theorem Inv.same {s t : Plane ρ} (h : Inv s) (hTaken : t.taken = s.taken)
    (hSaved : t.saved = s.saved) (hInFlight : t.inFlight = s.inFlight)
    (hCheckpoint : t.checkpoint = s.checkpoint) : Inv t where
  numbers := by rw [hTaken, h.numbers]
  split := by rw [hTaken, hSaved, hInFlight, h.split]
  checkpoint := by rw [hCheckpoint, hSaved, h.checkpoint]

/-- The oldest snapshot on its way is the first one. -/
theorem Inv.first {s : Plane ρ} (h : Inv s) {i : Nat} {snapshot : Snapshot ρ}
    (hGet : s.inFlight[i]? = some snapshot)
    (hOldest : ∀ other ∈ s.inFlight, snapshot.number ≤ other.number) : i = 0 := by
  have hPairwise := h.pairwise
  rw [← h.split, List.pairwise_append] at hPairwise
  obtain ⟨hLt, hEq⟩ := List.getElem?_eq_some_iff.mp hGet
  cases i with
  | zero => rfl
  | succ i =>
      have hOlder := List.pairwise_iff_getElem.mp hPairwise.2.1 0 (i + 1) (by omega) hLt (by omega)
      have hLe := hOldest _ (List.getElem_mem (by omega : 0 < s.inFlight.length))
      rw [hEq] at hOlder
      omega

theorem Inv.step {interval : Nat} {s t : Plane ρ} {a : Action ρ} (h : Inv s)
    (hOrder : OldestFirst s a) (hStep : step interval s a = some t) : Inv t := by
  cases a with
  | change state =>
      obtain rfl := Option.some.inj hStep
      exact h.same rfl rfl rfl rfl
  | count promptTokens completionTokens =>
      obtain rfl := Option.some.inj hStep
      exact h.same rfl rfl rfl rfl
  | markDirty =>
      obtain rfl := Option.some.inj hStep
      exact h.same rfl rfl rfl rfl
  | snapshot persist now =>
      obtain rfl := Option.some.inj hStep
      cases persist with
      | cycle markRunning =>
          apply Inv.take
          exact h.same rfl rfl rfl rfl
      | heartbeat force =>
          simp only [Plane.snapshot]
          split_ifs
          · exact h
          · apply Inv.take
            exact h.same rfl rfl rfl rfl
      | plain => exact h.take
  | save i =>
      simp only [DaemonCheckpoint.step] at hStep
      cases hGet : s.inFlight[i]? with
      | none =>
          rw [hGet] at hStep
          cases hStep
      | some snapshot =>
          simp only [hGet] at hStep
          obtain rfl := Option.some.inj hStep
          obtain rfl := h.first hGet (hOrder snapshot hGet)
          cases hFlight : s.inFlight with
          | nil =>
              rw [hFlight] at hGet
              cases hGet
          | cons first rest =>
              rw [hFlight] at hGet
              obtain rfl := Option.some.inj hGet
              refine ⟨h.numbers, ?_, by simp⟩
              rw [← h.split, hFlight]
              simp

theorem Inv.monotone {s : Plane ρ} (h : Inv s) : Monotone s where
  forward := by
    have hPairwise := h.pairwise
    rw [← h.split] at hPairwise
    exact (List.pairwise_append.mp hPairwise).1
  newest hNone := by
    rw [h.checkpoint, ← h.split, hNone, List.append_nil]
  records old hOld path record hKept := by
    have hNe : s.saved ≠ [] := List.ne_nil_of_mem hOld
    have hPairwise := h.pairwise
    rw [← h.split] at hPairwise
    have hSaved := (List.pairwise_append.mp hPairwise).1
    refine ⟨(s.saved.getLast hNe).content, ?_, ?_⟩
    · rw [Plane.loadDaemonState, h.checkpoint, List.getLast?_eq_some_getLast hNe]
      rfl
    · apply hKept
      · rw [← h.split]
        exact List.mem_append_left _ (List.getLast_mem hNe)
      · have hLe := hSaved.imp fun {a b : Snapshot ρ} (hLt : a.number < b.number) => hLt.le
        exact hLe.rel_getLast_of_rel_getLast_getLast hOld le_rfl

section Run

variable {interval : Nat} {state : DaemonState ρ} {s : Plane ρ}

theorem inv_of_run
    (hRun : Transition.Run (step interval) OldestFirst (initialPlane state) s) : Inv s := by
  apply hRun.invariant
  · exact ⟨rfl, rfl, rfl⟩
  · intro t a u hInv hOrder hStep
    exact hInv.step hOrder hStep

/-- With any number of threads, the checkpoint does not go backwards as long as
every save writes the oldest snapshot that is on its way. -/
theorem checkpoint_monotone
    (hRun : Transition.Run (step interval) OldestFirst (initialPlane state) s) : Monotone s :=
  (inv_of_run hRun).monotone

end Run

section Sample

def sampleState (files : Str → Option Nat) : DaemonState Nat := ⟨files, .running, 0, 0⟩

def sampleRecord : Str → Option Nat := fun path => if path = "pages/A.md".toList then some 1 else none

/-- A heartbeat and then a cycle, each saved before the next snapshot. -/
def sampleActions : List (Action Nat) :=
  [.snapshot (.heartbeat true) 0, .save 0, .change (sampleState sampleRecord),
    .snapshot (.cycle false) 1, .save 0]

/-- The heartbeat takes its snapshot and is slow to save it: the join of its thread
times out, the main loop saves the record of a file, and then the heartbeat saves. -/
def lateActions : List (Action Nat) :=
  [.snapshot (.heartbeat true) 0, .change (sampleState sampleRecord),
    .snapshot (.cycle false) 1, .save 1, .save 0]

theorem checkpoint_monotone_in_turn :
    ∃ s, Transition.Run (step 5) OldestFirst (initialPlane (sampleState fun _ => none)) s ∧
      s.taken.length = 2 ∧ s.inFlight.length = 0 ∧ Monotone s := by
  have hExec : (Transition.exec (step 5) OldestFirst (initialPlane (sampleState fun _ => none))
      sampleActions).map (fun s => (s.taken.length, s.inFlight.length)) = some (2, 0) := by
    decide +kernel
  obtain ⟨s, hRun, hEnd⟩ := Option.map_eq_some_iff.mp hExec
  have hRun := Transition.Run.of_exec hRun
  obtain ⟨hTaken, hFlight⟩ := Prod.mk.inj hEnd
  exact ⟨s, hRun, hTaken, hFlight, checkpoint_monotone hRun⟩

/-- The record of the file was saved, is in the newest snapshot and is not there
after a restart. -/
theorem late_heartbeat_goes_backwards :
    ¬∀ (state : DaemonState Nat) (s : Plane Nat),
      Transition.Run (step 5) (fun _ _ => True) (initialPlane state) s → Monotone s := by
  intro h
  have hExec : (Transition.exec (step 5) (fun _ _ => True)
      (initialPlane (sampleState fun _ => none)) lateActions).map
        (fun s => s.saved.map Snapshot.number) = some [1, 0] := by
    decide +kernel
  obtain ⟨s, hRun, hEnd⟩ := Option.map_eq_some_iff.mp hExec
  have hForward := (h _ s (Transition.Run.of_exec hRun)).forward
  rw [← List.pairwise_map, hEnd] at hForward
  revert hForward
  decide

end Sample

end Plumber.DaemonCheckpoint
