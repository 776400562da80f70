import MatrycaPlumber.System.ReentrantLock
import MatrycaPlumber.System.Transition

/-! Threads that take page locks out of a bounded registry. The registry is changed under
its guard only; the locks themselves are taken and released outside of it. -/
namespace Plumber.PageWriteLock

open Transition ReentrantLock

variable {τ κ : Type} [DecidableEq τ] [DecidableEq κ]

/-- The value of `_MAX_PAGE_LOCK_REGISTRY`. -/
def maxPageLockRegistry : Nat := 4096

/-- A lock that a thread has looked up for a page. `retries` are those that are left, and
`none` waits for as long as it takes. -/
structure Fetched (κ : Type) where
  key : κ
  lock : Nat
  retries : Option Nat

/-- Where a thread is in `_try_evict_unlocked_registry_entry`: at the entry that comes next,
behind the probe `locked()` of an entry, behind its `acquire(blocking=False)`, and behind
the `release()` of it. -/
inductive Eviction (κ : Type) where
  | scan (oldKeys : List κ)
  | probed (oldKey : κ) (oldKeys : List κ)
  | acquired (oldKey : κ)
  | released (oldKey : κ)

/-- The thread that holds the guard of the registry to make room for a key. -/
structure Guarded (τ κ : Type) where
  thread : τ
  key : κ
  retries : Option Nat
  eviction : Eviction κ

/-- The registry has the entry that is used last at its end. `inside` has the bodies of
`page_rmw_lock` that a thread is in, the innermost first. -/
structure State (τ κ : Type) where
  registry : List (κ × Nat)
  locks : Nat → RLock τ
  nextLock : Nat
  guarded : Option (Guarded τ κ)
  fetched : τ → Option (Fetched κ)
  inside : τ → List (κ × Nat)

def initialState : State τ κ where
  registry := []
  locks _ := none
  nextLock := 0
  guarded := none
  fetched _ := none
  inside _ := []

def lockOf (registry : List (κ × Nat)) (key : κ) : Option Nat :=
  (registry.find? fun entry => entry.1 = key).map Prod.snd

def without (registry : List (κ × Nat)) (key : κ) : List (κ × Nat) :=
  registry.filter fun entry => entry.1 ≠ key

inductive Action (τ κ : Type) where
  | lookup (t : τ) (key : κ) (retries : Option Nat)
  | evict (t : τ)
  | acquire (t : τ)
  | release (t : τ)

namespace State

variable (s : State τ κ)

/-- The thread is not within a call that gets a lock. -/
def idle (t : τ) : Bool := (s.fetched t).isNone && s.guarded.all fun g => g.thread ≠ t

def fetch (t : τ) (fetched : Option (Fetched κ)) : State τ κ :=
  { s with fetched := Function.update s.fetched t fetched }

def setLock (lock : Nat) (value : RLock τ) : State τ κ :=
  { s with locks := Function.update s.locks lock value }

def setInside (t : τ) (inside : List (κ × Nat)) : State τ κ :=
  { s with inside := Function.update s.inside t inside }

/-- A new lock goes into the registry, and its thread leaves the guard with it. -/
def register (t : τ) (key : κ) (retries : Option Nat) (registry : List (κ × Nat)) : State τ κ :=
  { s with
    registry := registry ++ [(key, s.nextLock)]
    nextLock := s.nextLock + 1
    guarded := none
    fetched := Function.update s.fetched t (some ⟨key, s.nextLock, retries⟩) }

def evicting (g : Guarded τ κ) (eviction : Eviction κ) : State τ κ :=
  { s with guarded := some { g with eviction := eviction } }

/-- The next step of the thread that makes room in the registry. Where there is an
attribute `locked`, an entry that any thread holds is passed over. -/
def evict (hasLocked : Bool) (g : Guarded τ κ) : Option (State τ κ) :=
  match g.eviction with
  | .scan [] => some (s.register g.thread g.key g.retries s.registry)
  | .scan (oldKey :: oldKeys) =>
      (lockOf s.registry oldKey).map fun lock =>
        if hasLocked ∧ (s.locks lock).isSome then s.evicting g (.scan oldKeys)
        else s.evicting g (.probed oldKey oldKeys)
  | .probed oldKey oldKeys =>
      (lockOf s.registry oldKey).map fun lock =>
        match acquire (s.locks lock) g.thread with
        | some after => (s.setLock lock after).evicting g (.acquired oldKey)
        | none => s.evicting g (.scan oldKeys)
  | .acquired oldKey =>
      (lockOf s.registry oldKey).map fun lock =>
        (s.setLock lock (release (s.locks lock))).evicting g (.released oldKey)
  | .released oldKey => some (s.register g.thread g.key g.retries (without s.registry oldKey))

end State

/-- A lookup finds the entry of its key, adds one, or begins to make room for it. A thread
that does not get a lock tries again, and gives up when it has no retries left. -/
def step (hasLocked : Bool) (maxRegistry : Nat) (s : State τ κ) : Action τ κ → Option (State τ κ)
  | .lookup t key retries =>
      if s.guarded.isNone ∧ s.idle t then
        match lockOf s.registry key with
        | some lock =>
            some ({ s with registry := without s.registry key ++ [(key, lock)] }.fetch t
              (some ⟨key, lock, retries⟩))
        | none =>
            if s.registry.length < maxRegistry then some (s.register t key retries s.registry)
            else
              some { s with
                guarded := some ⟨t, key, retries, .scan (s.registry.map Prod.fst)⟩ }
      else none
  | .evict t =>
      match s.guarded with
      | some g => if g.thread = t then s.evict hasLocked g else none
      | none => none
  | .acquire t =>
      match s.fetched t with
      | none => none
      | some f =>
          match acquire (s.locks f.lock) t, f.retries with
          | some after, _ =>
              some (((s.setLock f.lock after).fetch t none).setInside t
                ((f.key, f.lock) :: s.inside t))
          | none, none => none
          | none, some 0 => some (s.fetch t none)
          | none, some (retries + 1) => some (s.fetch t (some { f with retries := some retries }))
  | .release t =>
      if s.idle t then
        match s.inside t with
        | [] => none
        | (_, lock) :: outer =>
            some ((s.setLock lock (release (s.locks lock))).setInside t outer)
      else none

/-- No thread is inside the page or has looked its lock up. -/
def State.Unused (s : State τ κ) (key : κ) : Prop :=
  ∀ t, (∀ f, s.fetched t = some f → f.key ≠ key) ∧ ∀ entry ∈ s.inside t, entry.1 ≠ key

/-- The step does not delete the entry of a page in use. -/
def KeepsUsed (s : State τ κ) : Action τ κ → Prop
  | .evict _ => ∀ g oldKey, s.guarded = some g → g.eviction = .released oldKey → s.Unused oldKey
  | _ => True

/-- No two threads are inside the same page. -/
def Exclusive (s : State τ κ) : Prop :=
  ∀ t u, ∀ entry ∈ s.inside t, ∀ other ∈ s.inside u, entry.1 = other.1 → t = u

/-- A thread that is inside a page gets its lock again without waiting. -/
def NestedReady (hasLocked : Bool) (maxRegistry : Nat) (s : State τ κ) : Prop :=
  ∀ t f, s.fetched t = some f → ∀ entry ∈ s.inside t, entry.1 = f.key →
    ∃ after, step hasLocked maxRegistry s (.acquire t) = some after ∧
      after.inside t = (f.key, f.lock) :: s.inside t

end Plumber.PageWriteLock
