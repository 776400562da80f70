import MatrycaPlumber.System.Transition

/-! Processes that take and give back the daemon lock of a graph. The lock belongs to
a file, which the processes find by its path. -/
namespace Plumber.DaemonProcessLock

open Transition

abbrev Pid := ℕ

/-- Whether there is `fcntl`; without it the lock file is created exclusively. -/
inductive LockPath
  | fcntl
  | exclusive
  deriving DecidableEq

/-- Where a process is in `_try_acquire_daemon_process_lock`, in its variant without
`fcntl`, or in `_release_daemon_process_lock`. The numbers of `creating`, `found` and
`removing` are the attempts that have failed; the others are inodes. -/
inductive Phase
  | away
  | opened (inode : ℕ)
  | refused (inode : ℕ)
  | creating (attempt : ℕ)
  | found (attempt : ℕ)
  | removing (attempt : ℕ)
  | created (inode : ℕ)
  | written (inode : ℕ)
  | discarding
  | holding (inode : ℕ)
  | unlocked (inode : ℕ)
  | closed
  | released
  | exited
  deriving DecidableEq

/-- `lockPath` is the inode that the path names. `content` has the PID in the first line
of a file, if there is one. -/
structure State where
  lockPath : Option ℕ
  content : ℕ → Option Pid
  flocked : ℕ → Option Pid
  phase : Pid → Phase
  nextInode : ℕ

/-- What `is_process_alive` and `is_plumber_process` say when they are asked. -/
structure Observation where
  alive : Pid → Bool
  plumber : Pid → Bool

/-- `ok` says whether the system call of the step succeeds. -/
inductive Action
  | acquire (p : Pid)
  | flock (p : Pid)
  | closeRefused (p : Pid)
  | create (p : Pid) (ok : Bool)
  | inspect (p : Pid) (seen : Observation)
  | removeStale (p : Pid) (ok : Bool)
  | writePid (p : Pid) (ok : Bool)
  | lockByte (p : Pid) (ok : Bool)
  | discard (p : Pid) (ok : Bool)
  | unlock (p : Pid)
  | close (p : Pid)
  | unlink (p : Pid) (ok : Bool)
  | releaseAgain (p : Pid)
  | exit (p : Pid)
  | spawn (p : Pid)

namespace State

variable (s : State)

def move (p : Pid) (phase : Phase) : State := { s with phase := Function.update s.phase p phase }

def setFlock (inode : ℕ) (holder : Option Pid) : State :=
  { s with flocked := Function.update s.flocked inode holder }

/-- A new and empty file at the path. -/
def newFile : State :=
  { s with
    lockPath := some s.nextInode
    content := Function.update s.content s.nextInode none
    nextInode := s.nextInode + 1 }

def writeContent (inode : ℕ) (p : Pid) : State :=
  { s with content := Function.update s.content inode (some p) }

/-- `unlink(missing_ok=True)` under `suppress(OSError)`. -/
def unlinkPath (ok : Bool) : State := if ok then { s with lockPath := none } else s

/-- The locks of a process go with it. -/
def dropFlocks (p : Pid) : State :=
  { s with flocked := fun inode => if s.flocked inode = some p then none else s.flocked inode }

/-- `_read_lock_holder_pid`. -/
def readLockHolderPid : Option Pid := s.lockPath.bind s.content

end State

/-- The file is removed when it has no PID or that of a process that is gone. -/
def isStale (seen : Observation) (holder : Option Pid) : Bool :=
  match holder with
  | none => true
  | some pid => !seen.plumber pid && !seen.alive pid

/-- The three attempts of the loop. -/
def attempts : ℕ := 3

def nextAttempt (attempt : ℕ) : Phase :=
  if attempt + 1 < attempts then .creating (attempt + 1) else .away

def step (path : LockPath) (s : State) : Action → Option State
  | .acquire p =>
      match s.phase p with
      | .away =>
          match path with
          | .fcntl =>
              match s.lockPath with
              | some inode => some (s.move p (.opened inode))
              | none => some (s.newFile.move p (.opened s.nextInode))
          | .exclusive => some (s.move p (.creating 0))
      | _ => none
  | .flock p =>
      match s.phase p with
      | .opened inode =>
          match s.flocked inode with
          | none => some ((s.setFlock inode (some p)).move p (.holding inode))
          | some _ => some (s.move p (.refused inode))
      | _ => none
  | .closeRefused p =>
      match s.phase p with
      | .refused _ => some (s.move p .away)
      | _ => none
  | .create p ok =>
      match s.phase p with
      | .creating attempt =>
          match s.lockPath with
          | some _ => some (s.move p (if ok then .found attempt else .away))
          | none => some (if ok then s.newFile.move p (.created s.nextInode) else s.move p .away)
      | _ => none
  | .inspect p seen =>
      match s.phase p with
      | .found attempt =>
          some (s.move p (if isStale seen s.readLockHolderPid then .removing attempt else .away))
      | _ => none
  | .removeStale p ok =>
      match s.phase p with
      | .removing attempt => some ((s.unlinkPath ok).move p (nextAttempt attempt))
      | _ => none
  | .writePid p ok =>
      match s.phase p with
      | .created inode =>
          some (if ok then (s.writeContent inode p).move p (.written inode)
            else s.move p .discarding)
      | _ => none
  | .lockByte p ok =>
      match s.phase p with
      | .written inode => some (s.move p (if ok then .holding inode else .discarding))
      | _ => none
  | .discard p ok =>
      match s.phase p with
      | .discarding => some ((s.unlinkPath ok).move p .away)
      | _ => none
  | .unlock p =>
      match s.phase p with
      | .holding inode => some ((s.dropFlocks p).move p (.unlocked inode))
      | _ => none
  | .close p =>
      match s.phase p with
      | .unlocked _ => some (s.move p .closed)
      | _ => none
  | .unlink p ok =>
      match s.phase p with
      | .closed => some ((s.unlinkPath ok).move p .released)
      | _ => none
  | .releaseAgain p =>
      match s.phase p with
      | .released => some (s.move p .closed)
      | _ => none
  | .exit p => some ((s.dropFlocks p).move p .exited)
  | .spawn p =>
      match s.phase p with
      | .exited => some (s.move p .away)
      | _ => none

/-- Nobody is in one of the functions yet; the path may name a file that was left. -/
structure Start (s : State) : Prop where
  away : ∀ p, s.phase p = .away
  free : ∀ inode, s.flocked inode = none

/-- At most one process is between the acquiring and the releasing of the lock. -/
def AtMostOneDaemon (s : State) : Prop :=
  ∀ p q i j, s.phase p = .holding i → s.phase q = .holding j → p = q

/-- The lock file of the process in this phase, with its PID in it or not yet. -/
def Phase.file? : Phase → Option ℕ
  | .created inode => some inode
  | .written inode => some inode
  | .holding inode => some inode
  | _ => none

def State.owns (s : State) (p : Pid) (inode : ℕ) : Prop := (s.phase p).file? = some inode

/-- Nobody owns the file that the path names. -/
def State.pathUnowned (s : State) : Prop := ∀ p inode, s.lockPath = some inode → ¬ s.owns p inode

/-- A free inode is locked only while the path still names it, and a name is removed only
while nobody owns the file behind it. -/
def Careful (s : State) : Action → Prop
  | .flock p => ∀ inode, s.phase p = .opened inode → s.flocked inode = none →
      s.lockPath = some inode
  | .removeStale _ ok => ok → s.pathUnowned
  | .discard _ ok => ok → s.pathUnowned
  | .unlink _ ok => ok → s.pathUnowned
  | _ => True

end Plumber.DaemonProcessLock
