import MatrycaPlumber.Graph.PageWriteLock

/-! Where page locks exclude each other: no entry of a page in use may leave the
registry. -/
namespace Plumber.PageWriteLock

open Transition ReentrantLock

variable {τ κ : Type} [DecidableEq τ] [DecidableEq κ]

section Registry

variable {registry : List (κ × Nat)} {key other : κ} {lock : Nat}

theorem lockOf_append (more : List (κ × Nat)) :
    lockOf (registry ++ more) key = (lockOf registry key).or (lockOf more key) := by
  simp only [lockOf, List.find?_append]
  cases registry.find? fun entry => entry.1 = key <;> rfl

theorem lockOf_singleton (lock : Nat) :
    lockOf [(key, lock)] other = if other = key then some lock else none := by
  by_cases h : other = key
  · simp [lockOf, h]
  · simp [lockOf, h, Ne.symm h]

theorem lockOf_without :
    lockOf (without registry key) other = if other = key then none else lockOf registry other := by
  simp only [lockOf, without, List.find?_filter]
  by_cases h : other = key
  · rw [if_pos h, List.find?_eq_none.mpr]
    · rfl
    · intro entry _
      simp [h]
  · rw [if_neg h]
    congr 2
    funext entry
    by_cases hEntry : entry.1 = other
    · simp [hEntry, h]
    · simp [hEntry]

/-- Moving an entry to the end leaves the lock of each key. -/
theorem lockOf_moved (h : lockOf registry key = some lock) :
    lockOf (without registry key ++ [(key, lock)]) other = lockOf registry other := by
  rw [lockOf_append, lockOf_without, lockOf_singleton]
  by_cases hKey : other = key
  · rw [if_pos hKey, if_pos hKey, hKey, h]
    rfl
  · rw [if_neg hKey, if_neg hKey, Option.or_none]

end Registry

section Invariant

variable {s t : State τ κ}

/-- How often the thread holds the lock because it probes an entry. -/
def probes (s : State τ κ) (lock : Nat) (t : τ) : Nat :=
  match s.guarded with
  | none => 0
  | some g =>
      match g.eviction with
      | .acquired oldKey =>
          if t = g.thread ∧ lockOf s.registry oldKey = some lock then 1 else 0
      | _ => 0

/-- A lock is held as often as its owner is inside a page with it or probes it. The lock
that a thread has looked up, or is inside a page with, is that of the registry. -/
structure Invariant (s : State τ κ) : Prop where
  held : ∀ lock t,
    depth (s.locks lock) t = (s.inside t).countP (fun entry => entry.2 = lock) + probes s lock t
  fetched : ∀ t f, s.fetched t = some f → lockOf s.registry f.key = some f.lock
  inside : ∀ t, ∀ entry ∈ s.inside t, lockOf s.registry entry.1 = some entry.2
  guarded : ∀ g, s.guarded = some g → lockOf s.registry g.key = none

theorem invariant_initialState : Invariant (initialState : State τ κ) where
  held _ _ := rfl
  fetched _ _ h := by cases h
  inside _ _ h := by cases h
  guarded _ h := by cases h

theorem Invariant.exclusive (h : Invariant s) : Exclusive s := by
  intro t u entry hEntry other hOther hKey
  have hLock : other.2 = entry.2 := by
    have hFirst := h.inside t entry hEntry
    rw [hKey, h.inside u other hOther] at hFirst
    exact Option.some.inj hFirst
  have hPos : ∀ v (e : κ × Nat), e ∈ s.inside v → e.2 = entry.2 →
      depth (s.locks entry.2) v ≠ 0 := by
    intro v e he hSame
    have hCount : 0 < (s.inside v).countP fun e => e.2 = entry.2 :=
      List.countP_pos_iff.mpr ⟨e, he, by simpa using hSame⟩
    rw [h.held]
    omega
  exact eq_of_depth (hPos t entry hEntry rfl) (hPos u other hOther hLock)

theorem step_acquire {hasLocked : Bool} {maxRegistry : Nat} {t : τ} {f : Fetched κ} {after : RLock τ}
    (hFetched : s.fetched t = some f) (hAfter : acquire (s.locks f.lock) t = some after) :
    step hasLocked maxRegistry s (.acquire t) =
      some (((s.setLock f.lock after).fetch t none).setInside t ((f.key, f.lock) :: s.inside t)) := by
  simp only [step, hFetched, hAfter]

theorem Invariant.nestedReady (h : Invariant s) (hasLocked : Bool) (maxRegistry : Nat) :
    NestedReady hasLocked maxRegistry s := by
  intro t f hFetched entry hEntry hKey
  have hLock : entry.2 = f.lock := by
    have hInside := h.inside t entry hEntry
    rw [hKey, h.fetched t f hFetched] at hInside
    exact (Option.some.inj hInside).symm
  have hDepth : depth (s.locks f.lock) t ≠ 0 := by
    have hCount : 0 < (s.inside t).countP fun e => e.2 = f.lock :=
      List.countP_pos_iff.mpr ⟨entry, hEntry, by simpa using hLock⟩
    rw [h.held]
    omega
  obtain ⟨after, hAfter⟩ := acquire_of_depth hDepth
  exact ⟨_, step_acquire hFetched hAfter, Function.update_self _ _ _⟩

/-- What a new entry must respect. -/
theorem Invariant.register (h : Invariant s) {thread : τ} {key : κ} (retries : Option Nat)
    {registry : List (κ × Nat)} (hProbes : ∀ lock t, probes s lock t = 0)
    (hNew : lockOf registry key = none)
    (hFetched : ∀ t f, s.fetched t = some f → lockOf registry f.key = some f.lock)
    (hInside : ∀ t, ∀ entry ∈ s.inside t, lockOf registry entry.1 = some entry.2) :
    Invariant (s.register thread key retries registry) where
  held lock t := by
    have hHeld := h.held lock t
    rw [hProbes] at hHeld
    exact hHeld
  fetched t f hf := by
    simp only [State.register, Function.update_apply] at hf ⊢
    rw [lockOf_append]
    split_ifs at hf with ht
    · obtain rfl := Option.some.inj hf
      rw [hNew, lockOf_singleton, if_pos rfl]
      rfl
    · rw [hFetched t f hf]
      rfl
  inside t entry hEntry := by
    simp only [State.register]
    rw [lockOf_append, hInside t entry hEntry]
    rfl
  guarded _ hg := by cases hg

theorem Invariant.evicting (h : Invariant s) {g : Guarded τ κ} {eviction : Eviction κ}
    (hg : s.guarded = some g)
    (hProbes : ∀ lock t, probes (s.evicting g eviction) lock t = probes s lock t) :
    Invariant (s.evicting g eviction) where
  held lock t := by
    rw [hProbes]
    exact h.held lock t
  fetched := h.fetched
  inside := h.inside
  guarded other hOther := by
    obtain rfl := Option.some.inj hOther
    exact h.guarded g hg

theorem Invariant.fetch (h : Invariant s) (thread : τ) (f? : Option (Fetched κ))
    (hLock : ∀ f, f? = some f → lockOf s.registry f.key = some f.lock) :
    Invariant (s.fetch thread f?) where
  held := h.held
  fetched t f hf := by
    simp only [State.fetch, Function.update_apply] at hf
    split_ifs at hf
    · exact hLock f hf
    · exact h.fetched t f hf
  inside := h.inside
  guarded := h.guarded

omit [DecidableEq κ] in
theorem depth_setLock {value : RLock τ} {lock other : Nat} {t : τ} :
    depth ((s.setLock lock value).locks other) t =
      if other = lock then depth value t else depth (s.locks other) t := by
  simp only [State.setLock, Function.update_apply]
  split_ifs <;> rfl

theorem probes_acquired {g : Guarded τ κ} {oldKey : κ} {lock : Nat} (hg : s.guarded = some g)
    (hEviction : g.eviction = .acquired oldKey) (hLock : lockOf s.registry oldKey = some lock)
    (other : Nat) (t : τ) : probes s other t = if other = lock ∧ t = g.thread then 1 else 0 := by
  simp only [probes, hg, hEviction, hLock, Option.some.injEq]
  by_cases hOther : other = lock
  · simp [hOther]
  · simp [hOther, Ne.symm hOther]

/-- A thread takes an entry's lock to see whether it is free. -/
theorem Invariant.probe (h : Invariant s) {g : Guarded τ κ} {oldKey : κ} {oldKeys : List κ}
    {lock : Nat} {after : RLock τ} (hg : s.guarded = some g)
    (hEviction : g.eviction = .probed oldKey oldKeys) (hLock : lockOf s.registry oldKey = some lock)
    (hAfter : acquire (s.locks lock) g.thread = some after) :
    Invariant ((s.setLock lock after).evicting g (.acquired oldKey)) where
  held other t := by
    have hBefore : probes s other t = 0 := by simp only [probes, hg, hEviction]
    have hNow : probes ((s.setLock lock after).evicting g (.acquired oldKey)) other t =
        if other = lock ∧ t = g.thread then 1 else 0 :=
      probes_acquired (s := (s.setLock lock after).evicting g (.acquired oldKey))
        (g := { g with eviction := .acquired oldKey }) rfl rfl hLock other t
    have hInside : ((s.setLock lock after).evicting g (.acquired oldKey)).inside = s.inside := rfl
    have hDepth : depth (((s.setLock lock after).evicting g (.acquired oldKey)).locks other) t =
        if other = lock then depth after t else depth (s.locks other) t := depth_setLock
    have hHeld := h.held other t
    rw [hBefore] at hHeld
    rw [hNow, hInside, hDepth]
    by_cases hOther : other = lock
    · subst hOther
      rw [if_pos rfl, depth_acquire hAfter, hHeld]
      simp
    · rw [if_neg hOther, hHeld]
      simp [hOther]
  fetched := h.fetched
  inside := h.inside
  guarded other hOther := by
    obtain rfl := Option.some.inj hOther
    exact h.guarded g hg

/-- It gives the lock back. -/
theorem Invariant.unprobe (h : Invariant s) {g : Guarded τ κ} {oldKey : κ} {lock : Nat}
    (hg : s.guarded = some g) (hEviction : g.eviction = .acquired oldKey)
    (hLock : lockOf s.registry oldKey = some lock) :
    Invariant ((s.setLock lock (release (s.locks lock))).evicting g (.released oldKey)) where
  held other t := by
    have hBefore := probes_acquired hg hEviction hLock
    have hNow : probes ((s.setLock lock (release (s.locks lock))).evicting g (.released oldKey))
        other t = 0 := rfl
    have hInside : ((s.setLock lock (release (s.locks lock))).evicting g (.released oldKey)).inside =
        s.inside := rfl
    have hDepth : depth (((s.setLock lock (release (s.locks lock))).evicting g
        (.released oldKey)).locks other) t =
          if other = lock then depth (release (s.locks lock)) t else depth (s.locks other) t :=
      depth_setLock
    have hOwner : depth (s.locks lock) g.thread ≠ 0 := by
      rw [h.held, hBefore, if_pos ⟨rfl, rfl⟩]
      omega
    have hHeld := h.held other t
    rw [hBefore] at hHeld
    rw [hNow, hInside, hDepth]
    by_cases hOther : other = lock
    · subst hOther
      rw [if_pos rfl, depth_release hOwner, hHeld]
      simp
    · rw [if_neg hOther, hHeld]
      simp [hOther]
  fetched := h.fetched
  inside := h.inside
  guarded other hOther := by
    obtain rfl := Option.some.inj hOther
    exact h.guarded g hg

/-- A thread goes into a page, or out of the innermost one. -/
theorem Invariant.setInside (h : Invariant s) {thread : τ} {lock : Nat} {value : RLock τ}
    {inside : List (κ × Nat)}
    (hKnown : ∀ entry ∈ inside, lockOf s.registry entry.1 = some entry.2)
    (hDepth : ∀ u, depth value u = (if u = thread then inside.countP (fun entry => entry.2 = lock)
      else (s.inside u).countP fun entry => entry.2 = lock) + probes s lock u)
    (hCount : ∀ other, other ≠ lock → inside.countP (fun entry => entry.2 = other) =
      (s.inside thread).countP fun entry => entry.2 = other) :
    Invariant ((s.setLock lock value).setInside thread inside) where
  held other t := by
    have hProbes : probes ((s.setLock lock value).setInside thread inside) other t =
        probes s other t := rfl
    have hLocks : depth (((s.setLock lock value).setInside thread inside).locks other) t =
        if other = lock then depth value t else depth (s.locks other) t := depth_setLock
    have hInside : ((s.setLock lock value).setInside thread inside).inside t =
        if t = thread then inside else s.inside t := Function.update_apply _ _ _ _
    rw [hProbes, hLocks, hInside]
    by_cases hOther : other = lock
    · subst hOther
      rw [if_pos rfl, hDepth]
      split_ifs <;> rfl
    · rw [if_neg hOther, h.held]
      split_ifs with ht
      · rw [hCount other hOther, ht]
      · rfl
  fetched := h.fetched
  inside t entry hEntry := by
    have hInside : ((s.setLock lock value).setInside thread inside).inside t =
        if t = thread then inside else s.inside t := Function.update_apply _ _ _ _
    rw [hInside] at hEntry
    split_ifs at hEntry
    · exact hKnown entry hEntry
    · exact h.inside t entry hEntry
  guarded := h.guarded

theorem Invariant.acquire (h : Invariant s) {t : τ} {f : Fetched κ} {after : RLock τ}
    (hFetched : s.fetched t = some f) (hAfter : ReentrantLock.acquire (s.locks f.lock) t = some after) :
    Invariant (((s.setLock f.lock after).fetch t none).setInside t ((f.key, f.lock) :: s.inside t)) := by
  have hInside : Invariant ((s.setLock f.lock after).setInside t ((f.key, f.lock) :: s.inside t)) := by
    apply h.setInside
    · rw [List.forall_mem_cons]
      exact ⟨h.fetched t f hFetched, h.inside t⟩
    · intro u
      rw [depth_acquire hAfter, h.held]
      by_cases hu : u = t
      · rw [if_pos hu, if_pos hu, List.countP_cons_of_pos (by simp), hu]
        omega
      · rw [if_neg hu, if_neg hu, Nat.add_zero]
    · intro other hOther
      exact List.countP_cons_of_neg (by simpa using Ne.symm hOther)
  exact hInside.fetch t none fun _ hNone => nomatch hNone

theorem Invariant.release (h : Invariant s) {t : τ} {entry : κ × Nat} {outer : List (κ × Nat)}
    (hEntry : s.inside t = entry :: outer) :
    Invariant ((s.setLock entry.2 (ReentrantLock.release (s.locks entry.2))).setInside t outer) := by
  have hCount : ∀ lock, (s.inside t).countP (fun e => e.2 = lock) =
      outer.countP (fun e => e.2 = lock) + if entry.2 = lock then 1 else 0 := by
    intro lock
    rw [hEntry, List.countP_cons]
    simp
  have hOwner : depth (s.locks entry.2) t ≠ 0 := by
    rw [h.held, hCount, if_pos rfl]
    omega
  apply h.setInside
  · intro other hOther
    apply h.inside t
    rw [hEntry]
    exact List.mem_cons_of_mem entry hOther
  · intro u
    rw [depth_release hOwner, h.held]
    by_cases hu : u = t
    · rw [if_pos hu, if_pos hu, hu, hCount, if_pos rfl]
      omega
    · rw [if_neg hu, if_neg hu, Nat.sub_zero]
  · intro other hOther
    rw [hCount, if_neg (Ne.symm hOther), Nat.add_zero]

/-- A lookup of a key that is there moves its entry to the end. -/
theorem Invariant.found (h : Invariant s) (thread : τ) {key : κ} (retries : Option Nat) {lock : Nat}
    (hGuard : s.guarded = none) (hLock : lockOf s.registry key = some lock) :
    Invariant ({ s with registry := without s.registry key ++ [(key, lock)] }.fetch thread
      (some ⟨key, lock, retries⟩)) := by
  have hMoved : Invariant { s with registry := without s.registry key ++ [(key, lock)] } := by
    constructor
    · intro other t
      have hHeld := h.held other t
      have hBefore : probes s other t = 0 := by simp only [probes, hGuard]
      rw [hBefore] at hHeld
      simp only [probes, hGuard]
      exact hHeld
    · intro t f hFetched
      rw [lockOf_moved hLock]
      exact h.fetched t f hFetched
    · intro t entry hEntry
      rw [lockOf_moved hLock]
      exact h.inside t entry hEntry
    · intro g hg
      rw [hGuard] at hg
      cases hg
  apply hMoved.fetch
  intro f hf
  obtain rfl := Option.some.inj hf
  rw [lockOf_moved hLock]
  exact hLock

/-- A lookup of a key that is not there begins to make room. -/
theorem Invariant.guard (h : Invariant s) (thread : τ) {key : κ} (retries : Option Nat)
    (oldKeys : List κ) (hGuard : s.guarded = none) (hLock : lockOf s.registry key = none) :
    Invariant { s with guarded := some ⟨thread, key, retries, .scan oldKeys⟩ } where
  held lock t := by
    have hHeld := h.held lock t
    have hBefore : probes s lock t = 0 := by simp only [probes, hGuard]
    rw [hBefore] at hHeld
    exact hHeld
  fetched := h.fetched
  inside := h.inside
  guarded g hg := by
    obtain rfl := Option.some.inj hg
    exact hLock

theorem Invariant.lookup {hasLocked : Bool} {maxRegistry : Nat} {thread : τ} {key : κ}
    {retries : Option Nat} (h : Invariant s)
    (hStep : step hasLocked maxRegistry s (.lookup thread key retries) = some t) : Invariant t := by
  simp only [PageWriteLock.step] at hStep
  by_cases hIdle : s.guarded.isNone ∧ s.idle thread
  · have hGuard : s.guarded = none := Option.isNone_iff_eq_none.mp hIdle.1
    have hProbes : ∀ lock u, probes s lock u = 0 := by
      intro lock u
      simp only [probes, hGuard]
    rw [if_pos hIdle] at hStep
    cases hLock : lockOf s.registry key with
    | some lock =>
        simp only [hLock, Option.some.injEq] at hStep
        obtain rfl := hStep
        exact h.found thread retries hGuard hLock
    | none =>
        simp only [hLock] at hStep
        by_cases hRoom : s.registry.length < maxRegistry
        · rw [if_pos hRoom] at hStep
          obtain rfl := Option.some.inj hStep
          exact h.register retries hProbes hLock h.fetched h.inside
        · rw [if_neg hRoom] at hStep
          obtain rfl := Option.some.inj hStep
          exact h.guard thread retries _ hGuard hLock
  · rw [if_neg hIdle] at hStep
    cases hStep

theorem Invariant.evict {hasLocked : Bool} {g : Guarded τ κ} (h : Invariant s)
    (hg : s.guarded = some g) (hKeeps : ∀ oldKey, g.eviction = .released oldKey → s.Unused oldKey)
    (hStep : s.evict hasLocked g = some t) : Invariant t := by
  have hPlain : ∀ eviction, (∀ oldKey, g.eviction ≠ .acquired oldKey) →
      (∀ oldKey, eviction ≠ .acquired oldKey) → Invariant (s.evicting g eviction) := by
    intro eviction hBefore hNow
    apply h.evicting hg
    intro lock u
    have hZero : probes s lock u = 0 := by simp only [probes, hg]
    rw [hZero]
    cases eviction with
    | acquired oldKey => exact absurd rfl (hNow oldKey)
    | _ => rfl
  rw [State.evict] at hStep
  cases hEviction : g.eviction with
  | scan oldKeys =>
      have hProbes : ∀ lock u, probes s lock u = 0 := by
        intro lock u
        simp only [probes, hg, hEviction]
      cases oldKeys with
      | nil =>
          simp only [hEviction, Option.some.injEq] at hStep
          obtain rfl := hStep
          exact h.register g.retries hProbes (h.guarded g hg) h.fetched h.inside
      | cons oldKey oldKeys =>
          simp only [hEviction] at hStep
          obtain ⟨lock, hLock, rfl⟩ := Option.map_eq_some_iff.mp hStep
          by_cases hHeld : hasLocked ∧ (s.locks lock).isSome
          · rw [if_pos hHeld]
            exact hPlain _ (by simp [hEviction]) (by simp)
          · rw [if_neg hHeld]
            exact hPlain _ (by simp [hEviction]) (by simp)
  | probed oldKey oldKeys =>
      simp only [hEviction] at hStep
      obtain ⟨lock, hLock, rfl⟩ := Option.map_eq_some_iff.mp hStep
      cases hAfter : ReentrantLock.acquire (s.locks lock) g.thread with
      | some after => exact h.probe hg hEviction hLock hAfter
      | none => exact hPlain _ (by simp [hEviction]) (by simp)
  | acquired oldKey =>
      simp only [hEviction] at hStep
      obtain ⟨lock, hLock, rfl⟩ := Option.map_eq_some_iff.mp hStep
      exact h.unprobe hg hEviction hLock
  | released oldKey =>
      simp only [hEviction, Option.some.injEq] at hStep
      obtain rfl := hStep
      have hUnused := hKeeps oldKey hEviction
      have hProbes : ∀ lock u, probes s lock u = 0 := by
        intro lock u
        simp only [probes, hg, hEviction]
      apply h.register g.retries hProbes
      · rw [lockOf_without, h.guarded g hg, ite_self]
      · intro u f hf
        rw [lockOf_without, if_neg ((hUnused u).1 f hf)]
        exact h.fetched u f hf
      · intro u entry hEntry
        rw [lockOf_without, if_neg ((hUnused u).2 entry hEntry)]
        exact h.inside u entry hEntry

/-- Every step that does not delete the entry of a page in use keeps the invariant. -/
theorem Invariant.step {hasLocked : Bool} {maxRegistry : Nat} {a : Action τ κ} (h : Invariant s)
    (hKeeps : KeepsUsed s a) (hStep : step hasLocked maxRegistry s a = some t) : Invariant t := by
  cases a with
  | lookup thread key retries => exact h.lookup hStep
  | evict thread =>
      simp only [PageWriteLock.step] at hStep
      cases hg : s.guarded with
      | none => simp [hg] at hStep
      | some g =>
          simp only [hg] at hStep
          by_cases hThread : g.thread = thread
          · rw [if_pos hThread] at hStep
            exact h.evict hg (fun oldKey => hKeeps g oldKey hg) hStep
          · rw [if_neg hThread] at hStep
            cases hStep
  | acquire thread =>
      cases hFetched : s.fetched thread with
      | none => simp [PageWriteLock.step, hFetched] at hStep
      | some f =>
          cases hAfter : ReentrantLock.acquire (s.locks f.lock) thread with
          | some after =>
              obtain rfl := Option.some.inj ((step_acquire hFetched hAfter).symm.trans hStep)
              exact h.acquire hFetched hAfter
          | none =>
              cases hRetries : f.retries with
              | none => simp [PageWriteLock.step, hFetched, hAfter, hRetries] at hStep
              | some retries =>
                  cases retries with
                  | zero =>
                      simp only [PageWriteLock.step, hFetched, hAfter, hRetries, Option.some.injEq] at hStep
                      obtain rfl := hStep
                      exact h.fetch thread none fun _ hNone => nomatch hNone
                  | succ retries =>
                      simp only [PageWriteLock.step, hFetched, hAfter, hRetries, Option.some.injEq] at hStep
                      obtain rfl := hStep
                      apply h.fetch thread _
                      intro g hg
                      obtain rfl := Option.some.inj hg
                      exact h.fetched thread f hFetched
  | release thread =>
      simp only [PageWriteLock.step] at hStep
      by_cases hIdle : s.idle thread = true
      · rw [if_pos hIdle] at hStep
        cases hInside : s.inside thread with
        | nil => simp [hInside] at hStep
        | cons entry outer =>
            simp only [hInside, Option.some.injEq] at hStep
            obtain rfl := hStep
            exact h.release hInside
      · rw [if_neg hIdle] at hStep
        cases hStep

/-- While no entry of a page in use is deleted, no two threads are inside the same page, and
a thread gets the lock of a page that it is inside again at once. -/
theorem exclusive_of_keepsUsed (hasLocked : Bool) (maxRegistry : Nat)
    (run : Run (step hasLocked maxRegistry) KeepsUsed (initialState : State τ κ) s) :
    Exclusive s ∧ NestedReady hasLocked maxRegistry s := by
  have hInvariant : Invariant s :=
    run.invariant invariant_initialState fun _ _ _ h hKeeps hStep => h.step hKeeps hStep
  exact ⟨hInvariant.exclusive, hInvariant.nestedReady hasLocked maxRegistry⟩

end Invariant

section Samples

variable {s start : State Bool Nat} {hasLocked : Bool} {maxRegistry : Nat} {t : Bool} {key lock : Nat}

/-- Any interleaving, with evictions of pages in use. -/
abbrev AnyRun (hasLocked : Bool) (maxRegistry : Nat) : State Bool Nat → State Bool Nat → Prop :=
  Run (step hasLocked maxRegistry) fun _ _ => True

/-- A full registry makes room for a key by its oldest entry, if that is free. -/
theorem run_evict {oldKey : Nat} {rest : List (Nat × Nat)}
    (run : AnyRun hasLocked maxRegistry start s) (hRegistry : s.registry = (oldKey, lock) :: rest)
    (hFull : ¬s.registry.length < maxRegistry) (hGuard : s.guarded = none)
    (hFetched : s.fetched t = none) (hKey : lockOf s.registry key = none)
    (hFree : s.locks lock = none) :
    AnyRun hasLocked maxRegistry start (s.register t key none (without s.registry oldKey)) := by
  have hIdle : s.idle t = true := by simp [State.idle, hFetched, hGuard]
  have hOld : lockOf s.registry oldKey = some lock := by simp [lockOf, hRegistry]
  let at_ (eviction : Eviction Nat) : State Bool Nat :=
    { s with guarded := some ⟨t, key, none, eviction⟩ }
  have hLookup : step hasLocked maxRegistry s (.lookup t key none) =
      some (at_ (.scan (s.registry.map Prod.fst))) := by
    simp [step, hGuard, hIdle, hKey, hFull, at_]
  have hScan : step hasLocked maxRegistry (at_ (.scan (s.registry.map Prod.fst))) (.evict t) =
      some (at_ (.probed oldKey (rest.map Prod.fst))) := by
    have hKeys : s.registry.map Prod.fst = oldKey :: rest.map Prod.fst := by rw [hRegistry]; rfl
    simp [step, State.evict, hKeys, hOld, hFree, at_, State.evicting]
  have hProbe : step hasLocked maxRegistry (at_ (.probed oldKey (rest.map Prod.fst))) (.evict t) =
      some ((at_ (.acquired oldKey)).setLock lock (some (t, 0))) := by
    simp [step, State.evict, hOld, hFree, at_, State.evicting, acquire, State.setLock]
  have hRelease : step hasLocked maxRegistry ((at_ (.acquired oldKey)).setLock lock (some (t, 0)))
      (.evict t) = some (at_ (.released oldKey)) := by
    have hLocks : Function.update s.locks lock none = s.locks := by
      rw [← hFree, Function.update_eq_self]
    simp [step, State.evict, hOld, at_, State.evicting, release, State.setLock, hLocks]
  have hDelete : step hasLocked maxRegistry (at_ (.released oldKey)) (.evict t) =
      some (s.register t key none (without s.registry oldKey)) := by
    simp [step, State.evict, at_, State.register]
  exact ((((run.tail trivial hLookup).tail trivial hScan).tail trivial hProbe).tail trivial
    hRelease).tail trivial hDelete

/-- A thread goes into a page with a free lock and out again. -/
theorem run_pass (run : AnyRun hasLocked maxRegistry start s) (hGuard : s.guarded = none)
    (hFetched : s.fetched t = some ⟨key, lock, none⟩) (hFree : s.locks lock = none)
    (hInside : s.inside t = []) : AnyRun hasLocked maxRegistry start (s.fetch t none) := by
  let inner : State Bool Nat :=
    ((s.setLock lock (some (t, 0))).fetch t none).setInside t [(key, lock)]
  have hAcquire : step hasLocked maxRegistry s (.acquire t) = some inner := by
    have hAfter : acquire (s.locks lock) t = some (some (t, 0)) := by rw [hFree]; rfl
    have hStep : step hasLocked maxRegistry s (.acquire t) = _ := step_acquire hFetched hAfter
    rw [hInside] at hStep
    exact hStep
  have hRelease : step hasLocked maxRegistry inner (.release t) = some (s.fetch t none) := by
    have hLocks : Function.update s.locks lock none = s.locks := by
      rw [← hFree, Function.update_eq_self]
    have hOuter : Function.update s.inside t [] = s.inside := by
      rw [← hInside, Function.update_eq_self]
    simp [step, inner, State.idle, State.fetch, State.setLock, State.setInside, hGuard, release,
      hLocks, hOuter]
  exact (run.tail trivial hAcquire).tail trivial hRelease

/-- One thread has looked up the lock of page 0 and not taken it yet. The other one has
been inside the pages up to `n`. -/
def filled (n : Nat) : State Bool Nat where
  registry := (0, 0) :: (List.range n).map fun k => (k + 1, k + 1)
  locks _ := none
  nextLock := n + 1
  guarded := none
  fetched := Function.update (fun _ => none) true (some ⟨0, 0, none⟩)
  inside _ := []

theorem lockOf_filled (n : Nat) : lockOf (filled n).registry (n + 1) = none := by
  simp only [lockOf, Option.map_eq_none_iff, List.find?_eq_none]
  intro entry hEntry
  simp only [filled, List.mem_cons, List.mem_map, List.mem_range] at hEntry
  cases hEntry with
  | inl hFirst => simp [hFirst]
  | inr hLater =>
      obtain ⟨k, hk, rfl⟩ := hLater
      simp only [decide_eq_true_eq]
      omega

theorem length_filled (n : Nat) : (filled n).registry.length = n + 1 := by
  simp [filled]

theorem run_filled {n : Nat} (h : n < maxRegistry) :
    AnyRun hasLocked maxRegistry initialState (filled n) := by
  induction n with
  | zero =>
      have hLookup : step hasLocked maxRegistry initialState (.lookup true 0 none) =
          some (filled 0) := by
        simp [step, initialState, State.idle, lockOf, h, State.register, filled]
      exact .tail (.refl _) trivial hLookup
  | succ n ih =>
      have hRoom : (filled n).registry.length < maxRegistry := by rwa [length_filled]
      have hLookup : step hasLocked maxRegistry (filled n) (.lookup false (n + 1) none) =
          some ((filled n).register false (n + 1) none (filled n).registry) := by
        have hIdle : (filled n).idle false = true := rfl
        have hGuard : (filled n).guarded = none := rfl
        simp [step, hGuard, hIdle, lockOf_filled, hRoom]
      have hNext : ((filled n).register false (n + 1) none (filled n).registry).fetch false none =
          filled (n + 1) := by
        have hRegistry : (filled n).registry ++ [(n + 1, n + 1)] = (filled (n + 1)).registry := by
          simp [filled, List.range_succ]
        have hFetched : Function.update (Function.update (filled n).fetched false
            (some ⟨n + 1, n + 1, none⟩)) false none = (filled (n + 1)).fetched := by
          rw [Function.update_idem]
          exact Function.update_eq_self false _
        simp only [State.register, State.fetch]
        rw [show (filled n).nextLock = n + 1 from rfl, hRegistry, hFetched]
        rfl
      have hOwn : ((filled n).register false (n + 1) none (filled n).registry).fetched false =
          some ⟨n + 1, n + 1, none⟩ := Function.update_self false _ (filled n).fetched
      have hPass := run_pass ((ih (by omega)).tail trivial hLookup) rfl hOwn rfl rfl
      rwa [hNext] at hPass

/-- The other thread drops page 0 from the full registry and goes into it with a new lock,
then the first thread goes in with the lock that it has looked up before. -/
theorem not_exclusive {m : Nat} (hMax : maxRegistry = m + 2) :
    ∃ s, AnyRun hasLocked maxRegistry initialState s ∧ ¬Exclusive s := by
  let full : State Bool Nat := filled (m + 1)
  let later : List (Nat × Nat) := (List.range m).map fun k => (k + 2, k + 2)
  have hFull : full.registry = (0, 0) :: (1, 1) :: later := by
    simp [full, filled, later, List.range_succ_eq_map, Function.comp_def]
  have hLater : without ((0, 0) :: (1, 1) :: later) 0 = (1, 1) :: later := by
    simp [without, later]
  have hNew : lockOf ((1, 1) :: later ++ [(m + 2, m + 2)]) 0 = none := by
    simp [lockOf, later]
  -- page 0 leaves the registry
  let gone : State Bool Nat := full.register false (m + 2) none (without full.registry 0)
  have hGone : AnyRun hasLocked maxRegistry initialState gone := by
    have hRun : AnyRun hasLocked maxRegistry initialState full := run_filled (by omega)
    refine run_evict hRun hFull ?_ rfl rfl (lockOf_filled (m + 1)) rfl
    rw [length_filled]
    omega
  have hGoneOwn : gone.fetched false = some ⟨m + 2, m + 2, none⟩ :=
    Function.update_self false _ full.fetched
  have hPassed := run_pass hGone rfl hGoneOwn rfl rfl
  -- and comes back with another lock
  let passed : State Bool Nat := gone.fetch false none
  have hPassedRegistry : passed.registry = (1, 1) :: (later ++ [(m + 2, m + 2)]) := by
    show without full.registry 0 ++ [(m + 2, m + 2)] = _
    rw [hFull, hLater]
    rfl
  let back : State Bool Nat := passed.register false 0 none (without passed.registry 1)
  have hBack : AnyRun hasLocked maxRegistry initialState back := by
    refine run_evict hPassed hPassedRegistry ?_ rfl (Function.update_self false _ gone.fetched) ?_ rfl
    · rw [hPassedRegistry]
      simp [later]
      omega
    · rw [hPassedRegistry]
      exact hNew
  have hOwn : back.fetched false = some ⟨0, m + 3, none⟩ :=
    Function.update_self false _ passed.fetched
  have hOther : back.fetched true = some ⟨0, 0, none⟩ := rfl
  let one := ((back.setLock (m + 3) (some (false, 0))).fetch false none).setInside false [(0, m + 3)]
  have hOne : AnyRun hasLocked maxRegistry initialState one :=
    hBack.tail trivial (step_acquire hOwn rfl)
  have hFetched : one.fetched true = some ⟨0, 0, none⟩ := rfl
  have hFree : one.locks 0 = none :=
    Function.update_of_ne (show (0 : Nat) ≠ m + 3 by omega) (some (false, 0)) back.locks
  have hAfter : acquire (one.locks 0) true = some (some (true, 0)) := by
    rw [hFree]
    rfl
  refine ⟨_, hOne.tail trivial (step_acquire hFetched hAfter), ?_⟩
  intro hExclusive
  have hSame := hExclusive false true (0, m + 3) List.mem_cons_self (0, 0) List.mem_cons_self rfl
  cases hSame

/-- Both threads are inside page 0. -/
theorem evicted_lock_admits_two :
    ∃ s : State Bool Nat, Run (step true maxPageLockRegistry) (fun _ _ => True) initialState s ∧
      ¬Exclusive s :=
  not_exclusive (show maxPageLockRegistry = 4094 + 2 from rfl)

/-- A lookup that finds room in the registry, or its key. -/
def NoEviction (_ : State Bool Nat) : Action Bool Nat → Prop
  | .evict _ => False
  | _ => True

instance (s : State Bool Nat) (a : Action Bool Nat) : Decidable (NoEviction s a) :=
  match a with
  | .evict _ => .isFalse id
  | .lookup _ _ _ | .acquire _ | .release _ => .isTrue trivial

/-- One thread is inside page 3 and about to go in again, the other inside page 5. -/
def nestedRun : Option (State Bool Nat) :=
  exec (step true maxPageLockRegistry) NoEviction initialState
    [.lookup true 3 (some 4), .lookup false 5 none, .acquire true, .acquire false,
      .lookup true 3 (some 4)]

theorem exclusive_of_keepsUsed_nested :
    ∃ s, nestedRun = some s ∧ Exclusive s ∧ NestedReady true maxPageLockRegistry s := by
  have hSome : nestedRun.isSome := by decide
  obtain ⟨s, hs⟩ := Option.isSome_iff_exists.mp hSome
  have hKeeps : ∀ (t : State Bool Nat) a, NoEviction t a → KeepsUsed t a := by
    intro t a hNone
    cases a with
    | evict _ => cases hNone
    | _ => trivial
  exact ⟨s, hs, exclusive_of_keepsUsed true maxPageLockRegistry ((Run.of_exec hs).mono hKeeps)⟩

end Samples

end Plumber.PageWriteLock
