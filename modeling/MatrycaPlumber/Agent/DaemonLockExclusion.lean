import MatrycaPlumber.Agent.DaemonProcessLock

/-! At most one process has the daemon lock, as long as no lock is taken on a file that
has lost its name and no file that somebody owns loses it. -/
namespace Plumber.DaemonProcessLock

open Transition

/-- The attempt of a process that creates the lock file exclusively. -/
def Phase.attempt? : Phase → Option ℕ
  | .creating attempt => some attempt
  | .found attempt => some attempt
  | .removing attempt => some attempt
  | _ => none

/-- Whoever owns a lock file owns the one at the path, and is alone with it. -/
structure Invariant (path : LockPath) (s : State) : Prop where
  named : ∀ p inode, s.owns p inode → s.lockPath = some inode
  single : ∀ p q i j, s.owns p i → s.owns q j → p = q
  flocked : path = .fcntl → ∀ p inode, s.owns p inode → s.flocked inode = some p
  opened : path = .exclusive → ∀ p inode, s.phase p ≠ .opened inode
  attempt : path = .fcntl → ∀ p, (s.phase p).attempt? = none

section Steps

variable {path : LockPath} {s : State} {p : Pid} {phase : Phase}

theorem invariant_of_start (h : Start s) : Invariant path s where
  named p inode hOwns := by
    rw [State.owns, h.away] at hOwns
    cases hOwns
  single p q i j hOwns := by
    rw [State.owns, h.away] at hOwns
    cases hOwns
  flocked _ p inode hOwns := by
    rw [State.owns, h.away] at hOwns
    cases hOwns
  opened _ p inode hPhase := by
    rw [h.away] at hPhase
    cases hPhase
  attempt _ p := by
    rw [h.away]
    rfl

theorem Invariant.atMostOneDaemon (h : Invariant path s) : AtMostOneDaemon s := by
  intro p q i j hP hQ
  apply h.single p q i j
  · rw [State.owns, hP]
    rfl
  · rw [State.owns, hQ]
    rfl

/-- The phases that a process may be in on this kind of platform. -/
def Phase.allowed (path : LockPath) (phase : Phase) : Prop :=
  (path = .exclusive → ∀ inode, phase ≠ .opened inode) ∧
    (path = .fcntl → phase.attempt? = none)

/-- A step of a process that owns no file after it. -/
theorem Invariant.leave (h : Invariant path s) {t : State}
    (hPhase : t.phase = Function.update s.phase p phase) (hFile : phase.file? = none)
    (hAllowed : phase.allowed path) (hName : t.lockPath = s.lockPath ∨ s.pathUnowned)
    (hFlocked : ∀ q inode, q ≠ p → s.flocked inode = some q → t.flocked inode = some q) :
    Invariant path t := by
  have hOwns (q : Pid) (inode : ℕ) (hOwner : t.owns q inode) : q ≠ p ∧ s.owns q inode := by
    rw [State.owns, hPhase] at hOwner
    by_cases hEq : q = p
    · rw [hEq, Function.update_self, hFile] at hOwner
      cases hOwner
    · rw [Function.update_of_ne hEq] at hOwner
      exact ⟨hEq, hOwner⟩
  constructor
  · intro q inode hOwner
    have hNamed := h.named q inode (hOwns q inode hOwner).2
    rcases hName with hSame | hUnowned
    · rw [hSame, hNamed]
    · exact absurd (hOwns q inode hOwner).2 (hUnowned q inode hNamed)
  · intro q r i j hQ hR
    exact h.single q r i j (hOwns q i hQ).2 (hOwns r j hR).2
  · intro hPath q inode hOwner
    obtain ⟨hNe, hOld⟩ := hOwns q inode hOwner
    exact hFlocked q inode hNe (h.flocked hPath q inode hOld)
  · intro hPath q inode
    rw [hPhase]
    by_cases hEq : q = p
    · rw [hEq, Function.update_self]
      exact hAllowed.1 hPath inode
    · rw [Function.update_of_ne hEq]
      exact h.opened hPath q inode
  · intro hPath q
    rw [hPhase]
    by_cases hEq : q = p
    · rw [hEq, Function.update_self]
      exact hAllowed.2 hPath
    · rw [Function.update_of_ne hEq]
      exact h.attempt hPath q

/-- A step of a process to a phase in which it owns the file at the path, when nobody
else owns one. -/
theorem Invariant.own (h : Invariant path s) {t : State} {inode : ℕ}
    (hPhase : t.phase = Function.update s.phase p phase) (hFile : phase.file? = some inode)
    (hAlone : ∀ q i, s.owns q i → q = p) (hName : t.lockPath = some inode)
    (hFlocked : path = .fcntl → t.flocked inode = some p) : Invariant path t := by
  have hOwns (q : Pid) (i : ℕ) (hOwner : t.owns q i) : q = p ∧ i = inode := by
    rw [State.owns, hPhase] at hOwner
    by_cases hEq : q = p
    · rw [hEq, Function.update_self, hFile] at hOwner
      exact ⟨hEq, (Option.some.inj hOwner).symm⟩
    · rw [Function.update_of_ne hEq] at hOwner
      exact absurd (hAlone q i hOwner) hEq
  constructor
  · intro q i hOwner
    rw [hName, (hOwns q i hOwner).2]
  · intro q r i j hQ hR
    rw [(hOwns q i hQ).1, (hOwns r j hR).1]
  · intro hPath q i hOwner
    obtain ⟨rfl, rfl⟩ := hOwns q i hOwner
    exact hFlocked hPath
  · intro hPath q i
    rw [hPhase]
    by_cases hEq : q = p
    · rw [hEq, Function.update_self]
      rintro rfl
      cases hFile
    · rw [Function.update_of_ne hEq]
      exact h.opened hPath q i
  · intro hPath q
    rw [hPhase]
    by_cases hEq : q = p
    · rw [hEq, Function.update_self]
      cases phase with
      | creating attempt => cases hFile
      | found attempt => cases hFile
      | removing attempt => cases hFile
      | _ => rfl
    · rw [Function.update_of_ne hEq]
      exact h.attempt hPath q

/-- A process goes on with the file that it owns. -/
theorem Invariant.keep (h : Invariant path s) {t : State} {inode : ℕ} (hOwned : s.owns p inode)
    (hPhase : t.phase = Function.update s.phase p phase) (hFile : phase.file? = some inode)
    (hName : t.lockPath = s.lockPath) (hFlocked : t.flocked = s.flocked) : Invariant path t := by
  apply h.own hPhase hFile
  · intro q i hOwner
    exact h.single q p i inode hOwner hOwned
  · rw [hName, h.named p inode hOwned]
  · intro hPath
    rw [hFlocked, h.flocked hPath p inode hOwned]

/-- A step that removes the name of the file that nobody owns. -/
theorem Invariant.unlink (h : Invariant path s) {ok : Bool} (hCareful : ok → s.pathUnowned)
    (hFile : phase.file? = none) (hAllowed : phase.allowed path) :
    Invariant path ((s.unlinkPath ok).move p phase) := by
  cases ok with
  | false => exact h.leave rfl hFile hAllowed (Or.inl rfl) fun _ _ _ hHeld => hHeld
  | true => exact h.leave rfl hFile hAllowed (Or.inr (hCareful rfl)) fun _ _ _ hHeld => hHeld

theorem Invariant.dropFlocks (h : Invariant path s) (hFile : phase.file? = none)
    (hAllowed : phase.allowed path) : Invariant path ((s.dropFlocks p).move p phase) := by
  refine h.leave (t := (s.dropFlocks p).move p phase) rfl hFile hAllowed (Or.inl rfl) ?_
  intro q inode hNe hHeld
  have hOther : s.flocked inode ≠ some p := by
    rw [hHeld]
    exact fun hEq => hNe (Option.some.inj hEq)
  exact (if_neg hOther).trans hHeld

/-- A step that changes the phase only. -/
theorem Invariant.move (h : Invariant path s) (hFile : phase.file? = none)
    (hAllowed : phase.allowed path) : Invariant path (s.move p phase) :=
  h.leave rfl hFile hAllowed (Or.inl rfl) fun _ _ _ hHeld => hHeld

theorem Invariant.notOwned (h : Invariant path s) (hName : s.lockPath = none) (q : Pid)
    (inode : ℕ) : ¬ s.owns q inode := by
  intro hOwner
  have hNamed := h.named q inode hOwner
  rw [hName] at hNamed
  cases hNamed

theorem Invariant.ne_fcntl (h : Invariant path s) {attempt : ℕ} (hPhase : s.phase p = phase)
    (hAttempt : phase.attempt? = some attempt) : path ≠ .fcntl := by
  intro hPath
  have hNone := h.attempt hPath p
  rw [hPhase, hAttempt] at hNone
  cases hNone

theorem file?_nextAttempt (attempt : ℕ) : (nextAttempt attempt).file? = none := by
  rw [nextAttempt]
  split_ifs <;> rfl

/-- The invariant holds after every careful step. -/
theorem Invariant.step {a : Action} {t : State} (h : Invariant path s) (hCareful : Careful s a)
    (hStep : DaemonProcessLock.step path s a = some t) : Invariant path t := by
  cases a with
  | acquire p =>
      cases path with
      | fcntl =>
          rw [DaemonProcessLock.step] at hStep
          split at hStep
          next =>
            split at hStep
            next =>
              cases hStep
              exact h.move rfl (by simp [Phase.allowed, Phase.attempt?])
            next hName =>
              cases hStep
              refine h.leave rfl rfl (by simp [Phase.allowed, Phase.attempt?]) (Or.inr ?_)
                fun _ _ _ hHeld => hHeld
              exact fun q inode _ => h.notOwned hName q inode
          next => cases hStep
      | exclusive =>
          rw [DaemonProcessLock.step] at hStep
          split at hStep
          next =>
            cases hStep
            exact h.move rfl (by simp [Phase.allowed])
          next => cases hStep
  | flock p =>
      rw [DaemonProcessLock.step] at hStep
      split at hStep
      next inode hPhase =>
        split at hStep
        next hFree =>
          cases hStep
          have hName := hCareful inode hPhase hFree
          apply h.own rfl rfl
          · -- Another owner would have this inode, which is free.
            intro q i hOwner
            cases path with
            | exclusive => exact absurd hPhase (h.opened rfl p inode)
            | fcntl =>
                have hOther := h.named q i hOwner
                rw [hName] at hOther
                have hHeld := h.flocked rfl q i hOwner
                rw [← Option.some.inj hOther, hFree] at hHeld
                cases hHeld
          · exact hName
          · exact fun _ => Function.update_self ..
        next =>
          cases hStep
          exact h.move rfl (by simp [Phase.allowed, Phase.attempt?])
      next => cases hStep
  | closeRefused p =>
      rw [DaemonProcessLock.step] at hStep
      split at hStep
      next =>
        cases hStep
        exact h.move rfl (by simp [Phase.allowed, Phase.attempt?])
      next => cases hStep
  | create p ok =>
      rw [DaemonProcessLock.step] at hStep
      split at hStep
      next attempt hPhase =>
        have hPath := h.ne_fcntl hPhase rfl
        have hAllowed (n : ℕ) : (Phase.found n).allowed path := by
          simp [Phase.allowed, hPath]
        split at hStep
        next =>
          cases hStep
          cases ok with
          | false => exact h.move rfl (by simp [Phase.allowed, Phase.attempt?])
          | true => exact h.move rfl (hAllowed attempt)
        next hName =>
          cases hStep
          cases ok with
          | false => exact h.move rfl (by simp [Phase.allowed, Phase.attempt?])
          | true =>
              refine h.own rfl rfl ?_ rfl ?_
              · exact fun q i hOwner => absurd hOwner (h.notOwned hName q i)
              · exact fun hFcntl => absurd hFcntl hPath
      next => cases hStep
  | inspect p seen =>
      rw [DaemonProcessLock.step] at hStep
      split at hStep
      next attempt hPhase =>
        cases hStep
        have hPath := h.ne_fcntl hPhase rfl
        split_ifs
        · exact h.move rfl (by simp [Phase.allowed, hPath])
        · exact h.move rfl (by simp [Phase.allowed, Phase.attempt?])
      next => cases hStep
  | removeStale p ok =>
      rw [DaemonProcessLock.step] at hStep
      split at hStep
      next attempt hPhase =>
        cases hStep
        apply h.unlink hCareful (file?_nextAttempt attempt)
        constructor
        · intro _ inode
          rw [nextAttempt]
          split_ifs <;> exact Phase.noConfusion
        · exact fun hFcntl => absurd hFcntl (h.ne_fcntl hPhase rfl)
      next => cases hStep
  | writePid p ok =>
      rw [DaemonProcessLock.step] at hStep
      split at hStep
      next inode hPhase =>
        cases hStep
        have hOwned : s.owns p inode := by
          rw [State.owns, hPhase]
          rfl
        cases ok with
        | false => exact h.move rfl (by simp [Phase.allowed, Phase.attempt?])
        | true => exact h.keep hOwned rfl rfl rfl rfl
      next => cases hStep
  | lockByte p ok =>
      rw [DaemonProcessLock.step] at hStep
      split at hStep
      next inode hPhase =>
        cases hStep
        have hOwned : s.owns p inode := by
          rw [State.owns, hPhase]
          rfl
        cases ok with
        | false => exact h.move rfl (by simp [Phase.allowed, Phase.attempt?])
        | true => exact h.keep hOwned rfl rfl rfl rfl
      next => cases hStep
  | discard p ok =>
      rw [DaemonProcessLock.step] at hStep
      split at hStep
      next =>
        cases hStep
        exact h.unlink hCareful rfl (by simp [Phase.allowed, Phase.attempt?])
      next => cases hStep
  | unlock p =>
      rw [DaemonProcessLock.step] at hStep
      split at hStep
      next =>
        cases hStep
        exact h.dropFlocks rfl (by simp [Phase.allowed, Phase.attempt?])
      next => cases hStep
  | close p =>
      rw [DaemonProcessLock.step] at hStep
      split at hStep
      next =>
        cases hStep
        exact h.move rfl (by simp [Phase.allowed, Phase.attempt?])
      next => cases hStep
  | unlink p ok =>
      rw [DaemonProcessLock.step] at hStep
      split at hStep
      next =>
        cases hStep
        exact h.unlink hCareful rfl (by simp [Phase.allowed, Phase.attempt?])
      next => cases hStep
  | releaseAgain p =>
      rw [DaemonProcessLock.step] at hStep
      split at hStep
      next =>
        cases hStep
        exact h.move rfl (by simp [Phase.allowed, Phase.attempt?])
      next => cases hStep
  | exit p =>
      cases hStep
      exact h.dropFlocks rfl (by simp [Phase.allowed, Phase.attempt?])
  | spawn p =>
      rw [DaemonProcessLock.step] at hStep
      split at hStep
      next =>
        cases hStep
        exact h.move rfl (by simp [Phase.allowed, Phase.attempt?])
      next => cases hStep

end Steps

/-- In a run whose steps are careful there is never a second daemon. -/
theorem atMostOneDaemon_of_careful {path : LockPath} {s t : State} (hStart : Start s)
    (run : Run (step path) Careful s t) : AtMostOneDaemon t := by
  have hInvariant : Invariant path t :=
    run.invariant (invariant_of_start hStart) fun _ _ _ hInv hCareful hStep =>
      hInv.step hCareful hStep
  exact hInvariant.atMostOneDaemon

section Sample

def emptyGraph : State := ⟨none, fun _ => none, fun _ => none, fun _ => .away, 0⟩

theorem start_emptyGraph : Start emptyGraph := ⟨fun _ => rfl, fun _ => rfl⟩

/-- Process 2 locks the file that process 1 gives back, and process 3 a new one. -/
def unlinkedInode : List Action :=
  [.acquire 1, .flock 1, .acquire 2, .unlock 1, .flock 2, .close 1, .unlink 1 true, .acquire 3,
    .flock 3]

/-- Process 3 takes the file of process 2, which has no PID in it yet, for a stale one. -/
def unwrittenPid : List Action :=
  [.acquire 2, .create 2 true, .acquire 3, .create 3 true,
    .inspect 3 ⟨fun p => p = 2 ∨ p = 3, fun p => p = 2 ∨ p = 3⟩, .removeStale 3 true,
    .create 3 true, .writePid 3 true, .lockByte 3 true, .writePid 2 true, .lockByte 2 true]

theorem not_atMostOneDaemon (path : LockPath) (acts : List Action) (i j : ℕ)
    (h : (exec (step path) (fun _ _ => True) emptyGraph acts).map
      (fun t => (t.phase 2, t.phase 3)) = some (.holding i, .holding j)) :
    ¬ ∀ s t, Start s → Run (step path) (fun _ _ => True) s t → AtMostOneDaemon t := by
  intro hAll
  obtain ⟨t, hExec, hPhases⟩ := Option.map_eq_some_iff.mp h
  obtain ⟨h2, h3⟩ := Prod.mk.inj hPhases
  have hOne := hAll _ t start_emptyGraph (.of_exec hExec)
  exact absurd (hOne 2 3 i j h2 h3) (by decide)

/-- With and without `fcntl` there are runs to two daemons of one graph. -/
theorem two_daemons :
    (¬ ∀ s t, Start s → Run (step .fcntl) (fun _ _ => True) s t → AtMostOneDaemon t) ∧
      ¬ ∀ s t, Start s → Run (step .exclusive) (fun _ _ => True) s t → AtMostOneDaemon t := by
  constructor
  · exact not_atMostOneDaemon .fcntl unlinkedInode 0 1 (by decide +kernel)
  · exact not_atMostOneDaemon .exclusive unwrittenPid 0 1 (by decide +kernel)

theorem atMostOneDaemon_of_sample :
    AtMostOneDaemon (((emptyGraph.newFile.move 1 (.opened 0)).setFlock 0 (some 1)).move 1
      (.holding 0)) := by
  have hOpened : Run (step .fcntl) Careful emptyGraph (emptyGraph.newFile.move 1 (.opened 0)) :=
    .tail (.refl _) (a := .acquire 1) trivial rfl
  have hCareful : Careful (emptyGraph.newFile.move 1 (.opened 0)) (.flock 1) := by
    intro inode hPhase _
    obtain rfl : (0 : ℕ) = inode := Phase.opened.inj hPhase
    rfl
  exact atMostOneDaemon_of_careful start_emptyGraph (.tail hOpened hCareful rfl)

end Sample

end Plumber.DaemonProcessLock
