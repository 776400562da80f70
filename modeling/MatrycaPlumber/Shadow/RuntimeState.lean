import Mathlib.Data.List.Sort
import Mathlib.Logic.Function.Basic

/-! Threads that keep the shadow database of one graph in line with its files. A write is
synced at once, or deferred while a rebuild has the graph marked as bootstrapping. The
database has one writer lock, under which rebuilds run as well. -/
namespace Plumber.ShadowState

variable {τ κ : Type} [DecidableEq τ] [LinearOrder κ]

/-- Where a thread is. The number that comes with a path is the version of its file that
the thread has seen, and `rows` has those that a rebuild has read. -/
inductive Phase (κ : Type) where
  | idle
  | watched (path : κ) (deleted : Bool) (version : Nat)
  | checking (path : κ)
  | deferring (path : κ)
  | syncing (path : κ)
  | reading (path : κ)
  | committing (path : κ) (version : Nat)
  | deleting (path : κ) (version : Nat)
  | rebuilding
  | marking
  | opening
  | listing
  | scanning (paths : List κ) (rows : κ → Nat)
  | closing
  | clearing
  | popping
  | replaying (paths : List κ)
  | replayed (path : κ) (version : Nat) (paths : List κ)

namespace Phase

/-- The thread has the writer lock. -/
@[simp] def holds : Phase κ → Bool
  | reading _ | committing _ _ | marking | opening | listing | scanning _ _ | closing
  | clearing | popping | replaying _ | replayed _ _ _ => true
  | _ => false

/-- The thread is in a rebuild that has the locks. -/
def rebuilds : Phase κ → Bool
  | marking | opening | listing | scanning _ _ | closing | clearing | popping | replaying _
  | replayed _ _ _ => true
  | _ => false

/-- The rebuild has yet to pop the deferred paths. -/
@[simp] def beforePop : Phase κ → Bool
  | marking | opening | listing | scanning _ _ | closing | clearing | popping => true
  | _ => false

/-- The rebuild has marked the graph and has yet to clear it. -/
@[simp] def marked : Phase κ → Bool
  | opening | listing | scanning _ _ | closing | clearing => true
  | _ => false

/-- The thread handles a change of the file. -/
def Handles (path : κ) : Phase κ → Prop
  | watched other _ _ | checking other | deferring other | syncing other | reading other
  | committing other _ | deleting other _ => other = path
  | _ => False

/-- The rebuild replays the path, or has it among those that are left to replay. -/
def Replays (path : κ) : Phase κ → Prop
  | replaying paths => path ∈ paths
  | replayed other _ paths => other = path ∨ path ∈ paths
  | _ => False

end Phase

/-- `version` counts the changes of each file, a deletion among them, and `shadow` has the
version that the rows of a path reflect, if they were written since the start. -/
structure State (τ κ : Type) where
  version : κ → Nat
  shadow : κ → Option Nat
  bootstrapping : Bool
  deferred : List κ
  holder : Option τ
  phase : τ → Phase κ

def initialState : State τ κ where
  version _ := 0
  shadow _ := none
  bootstrapping := false
  deferred := []
  holder := none
  phase _ := .idle

inductive Action (τ κ : Type) where
  | write (t : τ) (path : κ)
  | watch (t : τ) (path : κ) (deleted : Bool)
  | check (t : τ)
  | defer (t : τ)
  | lock (t : τ)
  | read (t : τ)
  | commit (t : τ)
  | delete (t : τ)
  | fail (t : τ)
  | rebuild (t : τ)
  | giveUp (t : τ)
  | mark (t : τ)
  | openDb (t : τ) (succeeds : Bool)
  | list (t : τ) (paths : List κ)
  | scan (t : τ)
  | finish (t : τ)
  | rollback (t : τ)
  | close (t : τ) (succeeds : Bool)
  | clear (t : τ)
  | pop (t : τ)
  | leave (t : τ)

namespace State

variable (s : State τ κ) (t : τ)

def move (phase : Phase κ) : State τ κ := { s with phase := Function.update s.phase t phase }

/-- The thread goes on without the lock. -/
def unlock (phase : Phase κ) : State τ κ := { s.move t phase with holder := none }

def touch (path : κ) : State τ κ :=
  { s with version := Function.update s.version path (s.version path + 1) }

def deferSyncPath (path : κ) : State τ κ := { s with deferred := s.deferred.insert path }

def setShadow (path : κ) (version : Nat) : State τ κ :=
  { s with shadow := Function.update s.shadow path (some version) }

end State

/-- `sync_page_to_shadow` checks, waits for the lock, reads the file and commits its rows,
and the handler of the watcher checks before it calls that or deletes the rows. A replay
checks again. A rebuild that cannot open the database leaves without clearing the mark. -/
def step (s : State τ κ) : Action τ κ → Option (State τ κ)
  | .write t path =>
      match s.phase t with
      | .idle => some ((s.touch path).move t (.checking path))
      | _ => none
  | .watch t path deleted =>
      match s.phase t with
      | .idle => some ((s.touch path).move t (.watched path deleted (s.version path + 1)))
      | _ => none
  | .check t =>
      match s.phase t with
      | .watched path deleted version =>
          if s.bootstrapping then some (s.move t (.deferring path))
          else if deleted then some (s.move t (.deleting path version))
          else some (s.move t (.checking path))
      | .checking path =>
          if s.bootstrapping then some (s.move t (.deferring path))
          else some (s.move t (.syncing path))
      | _ => none
  | .defer t =>
      match s.phase t with
      | .deferring path => some ((s.deferSyncPath path).move t .idle)
      | _ => none
  | .lock t =>
      match s.holder, s.phase t with
      | none, .syncing path => some { s.move t (.reading path) with holder := some t }
      | none, .rebuilding => some { s.move t .marking with holder := some t }
      | _, _ => none
  | .read t =>
      match s.phase t with
      | .reading path => some (s.move t (.committing path (s.version path)))
      | .replaying (path :: paths) =>
          if s.bootstrapping then some ((s.deferSyncPath path).move t (.replaying paths))
          else some (s.move t (.replayed path (s.version path) paths))
      | _ => none
  | .commit t =>
      match s.phase t with
      | .committing path version => some ((s.setShadow path version).unlock t .idle)
      | .replayed path version paths =>
          some ((s.setShadow path version).move t (.replaying paths))
      | _ => none
  | .delete t =>
      match s.holder, s.phase t with
      | none, .deleting path version => some ((s.setShadow path version).move t .idle)
      | _, _ => none
  | .fail t =>
      match s.phase t with
      | .syncing _ | .deleting _ _ => some (s.move t .idle)
      | .reading _ | .committing _ _ => some (s.unlock t .idle)
      | .replaying (_ :: paths) | .replayed _ _ paths => some (s.move t (.replaying paths))
      | _ => none
  | .rebuild t =>
      match s.phase t with
      | .idle => some (s.move t .rebuilding)
      | _ => none
  | .giveUp t =>
      match s.phase t with
      | .rebuilding => some (s.move t .idle)
      | _ => none
  | .mark t =>
      match s.phase t with
      | .marking => some { s.move t .opening with bootstrapping := true }
      | _ => none
  | .openDb t succeeds =>
      match s.phase t with
      | .opening => if succeeds then some (s.move t .listing) else some (s.unlock t .idle)
      | _ => none
  | .list t paths =>
      match s.phase t with
      | .listing => some (s.move t (.scanning paths s.version))
      | _ => none
  | .scan t =>
      match s.phase t with
      | .scanning (path :: paths) rows =>
          some (s.move t (.scanning paths (Function.update rows path (s.version path))))
      | _ => none
  | .finish t =>
      match s.phase t with
      | .scanning [] rows => some { s.move t .closing with shadow := fun path => some (rows path) }
      | _ => none
  | .rollback t =>
      match s.phase t with
      | .listing | .scanning _ _ => some (s.move t .closing)
      | _ => none
  | .close t succeeds =>
      match s.phase t with
      | .closing => if succeeds then some (s.move t .clearing) else some (s.unlock t .idle)
      | _ => none
  | .clear t =>
      match s.phase t with
      | .clearing => some { s.move t .popping with bootstrapping := false }
      | _ => none
  | .pop t =>
      match s.phase t with
      | .popping =>
          some { s.move t (.replaying (s.deferred.insertionSort (· ≤ ·))) with deferred := [] }
      | _ => none
  | .leave t =>
      match s.phase t with
      | .replaying [] => some (s.unlock t .idle)
      | _ => none

/-- What was written is in the database, or will be replayed by a rebuild. -/
structure NothingLost (s : State τ κ) : Prop where
  synced : ∀ path, s.version path ≠ 0 → (∀ t, ¬(s.phase t).Handles path) →
    s.shadow path = some (s.version path) ∨
      (path ∈ s.deferred ∧ ∃ t, (s.phase t).beforePop) ∨ ∃ t, (s.phase t).Replays path
  deferred : (∀ t, ¬(s.phase t).rebuilds) → s.deferred = []
  bootstrapping : s.bootstrapping → ∃ t, (s.phase t).rebuilds

/-- The database opens and closes in a rebuild, no sync fails, a path is deferred before
the rebuild pops the set, and a deletion is handled while the file is deleted. -/
def Orderly (s : State τ κ) : Action τ κ → Prop
  | .openDb _ succeeds | .close _ succeeds => succeeds = true
  | .fail _ => False
  | .defer _ => ∃ t, (s.phase t).beforePop
  | .delete t => ∀ path version, s.phase t = .deleting path version → version = s.version path
  | _ => True

end Plumber.ShadowState
