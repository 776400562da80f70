import Mathlib.Data.List.Basic

/-! Locks that their owner may acquire again, such as `threading.RLock`. -/
namespace ReentrantLock

variable {τ : Type*} [DecidableEq τ]

/-- The owner of a lock, and how often it has acquired the lock again. -/
abbrev RLock (τ : Type*) := Option (τ × Nat)

/-- How often a thread holds the lock. -/
def depth (lock : RLock τ) (t : τ) : Nat :=
  match lock with
  | none => 0
  | some (owner, again) => if t = owner then again + 1 else 0

/-- `lock.acquire(blocking=False)`, with `none` where it fails. -/
def acquire (lock : RLock τ) (t : τ) : Option (RLock τ) :=
  match lock with
  | none => some (some (t, 0))
  | some (owner, again) => if t = owner then some (some (owner, again + 1)) else none

/-- `lock.release()` by a thread that holds the lock. -/
def release (lock : RLock τ) : RLock τ :=
  match lock with
  | some (owner, again + 1) => some (owner, again)
  | some (_, 0) | none => none

variable {lock after : RLock τ} {t u : τ}

theorem depth_acquire (h : acquire lock t = some after) (u : τ) :
    depth after u = depth lock u + if u = t then 1 else 0 := by
  cases lock with
  | none =>
      obtain rfl := Option.some.inj h
      by_cases hu : u = t <;> simp [depth, hu]
  | some holder =>
      obtain ⟨owner, again⟩ := holder
      simp only [acquire] at h
      split_ifs at h with hOwner
      obtain rfl := Option.some.inj h
      by_cases hu : u = owner <;> simp [depth, hu, hOwner]

theorem eq_owner {owner : τ} {again : Nat} (h : depth (some (owner, again)) t ≠ 0) : t = owner := by
  by_contra hNe
  exact h (if_neg hNe)

theorem depth_release (h : depth lock t ≠ 0) (u : τ) :
    depth (release lock) u = depth lock u - if u = t then 1 else 0 := by
  obtain _ | ⟨owner, again⟩ := lock
  · exact absurd rfl h
  · obtain rfl := eq_owner h
    cases again <;> by_cases hu : u = t <;> simp [depth, release, hu]

/-- A lock has one owner. -/
theorem eq_of_depth (ht : depth lock t ≠ 0) (hu : depth lock u ≠ 0) : t = u := by
  obtain _ | ⟨owner, again⟩ := lock
  · exact absurd rfl ht
  · rw [eq_owner ht, eq_owner hu]

/-- The owner does not wait. -/
theorem acquire_of_depth (h : depth lock t ≠ 0) : ∃ after, acquire lock t = some after := by
  obtain _ | ⟨owner, again⟩ := lock
  · exact absurd rfl h
  · exact ⟨some (owner, again + 1), if_pos (eq_owner h)⟩

end ReentrantLock
