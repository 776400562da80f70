import MatrycaPlumber.Shadow.RuntimeState
import MatrycaPlumber.System.Transition

/-! No change of a file is lost on the way to the shadow database, as long as no path is
deferred behind the pop of the rebuild that it waits for. -/
namespace Plumber.ShadowState

open Transition

variable {τ κ : Type}

/-- The thread will bring the rows of the path up to the current version. -/
@[simp] def Phase.Owes (current : Nat) (path : κ) : Phase κ → Prop
  | watched other deleted version => other = path ∧ (deleted = true → version = current)
  | checking other | deferring other | syncing other | reading other => other = path
  | committing other version | deleting other version => other = path ∧ version = current
  | replaying paths => path ∈ paths
  | replayed other version paths => (other = path ∧ version = current) ∨ path ∈ paths
  | _ => False

/-- The thread has the version of the path that it will write. -/
@[simp] def Phase.Brings (path : κ) (version : Nat) : Phase κ → Prop
  | committing other seen | replayed other seen _ => other = path ∧ seen = version
  | scanning paths rows => path ∉ paths ∧ rows path = version
  | _ => False

section Phases

variable {ph : Phase κ} {path : κ} {version : Nat}

theorem Phase.rebuilds_of_beforePop (h : ph.beforePop) : ph.rebuilds := by
  cases ph <;> first | rfl | cases h

theorem Phase.rebuilds_of_marked (h : ph.marked) : ph.rebuilds := by
  cases ph <;> first | rfl | cases h

theorem Phase.holds_of_marked (h : ph.marked) : ph.holds := by
  cases ph <;> first | rfl | cases h

theorem Phase.holds_of_beforePop (h : ph.beforePop) : ph.holds := by
  cases ph <;> first | rfl | cases h

theorem Phase.holds_of_brings (h : ph.Brings path version) : ph.holds := by
  cases ph <;> first | rfl | cases h

/-- A thread that owes the path handles a change of it or replays it. -/
theorem Phase.handles_or_replays (h : ph.Owes version path) :
    ph.Handles path ∨ ph.Replays path := by
  cases ph with
  | watched _ _ _ => exact .inl h.1
  | committing _ _ => exact .inl h.1
  | deleting _ _ => exact .inl h.1
  | checking _ => exact .inl h
  | deferring _ => exact .inl h
  | syncing _ => exact .inl h
  | reading _ => exact .inl h
  | replaying _ => exact .inr h
  | replayed _ _ _ => exact .inr (h.imp_left And.left)
  | _ => cases h

end Phases

namespace State

variable (s : State τ κ) (path : κ)

def Owed : Prop := path ∈ s.deferred ∨ ∃ t, (s.phase t).Owes (s.version path) path

def Settled : Prop := s.shadow path = some (s.version path) ∨ s.Owed path

end State

/-- The lock is with its holder, the mark and the deferred paths belong to a rebuild, and
what is written or about to be written is current, or owed. -/
structure Invariant (s : State τ κ) : Prop where
  lock : ∀ t, (s.phase t).holds ↔ s.holder = some t
  marked : s.bootstrapping → ∃ t, (s.phase t).marked
  deferred : s.deferred ≠ [] → ∃ t, (s.phase t).beforePop
  settled : ∀ path, s.version path ≠ 0 → s.Settled path
  fresh : ∀ t path version, (s.phase t).Brings path version → s.version path ≠ 0 →
    version = s.version path ∨ s.Owed path

theorem invariant_initialState : Invariant (initialState : State τ κ) where
  lock _ := by simp [initialState, Phase.holds]
  marked h := by cases h
  deferred h := absurd rfl h
  settled _ h := absurd rfl h
  fresh _ _ _ _ h := absurd rfl h

section Moves

variable {s u : State τ κ} {t : τ} {ph : Phase κ}

theorem Invariant.nothingLost (h : Invariant s) : NothingLost s where
  synced path hVersion hHandled := by
    cases h.settled path hVersion with
    | inl hCurrent => exact .inl hCurrent
    | inr hOwed =>
        cases hOwed with
        | inl hDeferred => exact .inr (.inl ⟨hDeferred, h.deferred (List.ne_nil_of_mem hDeferred)⟩)
        | inr hThread =>
            obtain ⟨t, hOwes⟩ := hThread
            exact .inr (.inr ⟨t, (Phase.handles_or_replays hOwes).resolve_left (hHandled t)⟩)
  deferred hIdle := by
    by_contra hSome
    obtain ⟨t, hBefore⟩ := h.deferred hSome
    exact hIdle t (Phase.rebuilds_of_beforePop hBefore)
  bootstrapping hFlag := by
    obtain ⟨t, hMarked⟩ := h.marked hFlag
    exact ⟨t, Phase.rebuilds_of_marked hMarked⟩

/-- No two threads hold the lock. -/
theorem Invariant.eq_of_holds (h : Invariant s) {w : τ} (ht : (s.phase t).holds)
    (hw : (s.phase w).holds) : w = t := by
  rw [h.lock] at ht hw
  rw [ht] at hw
  exact (Option.some.inj hw).symm

variable [DecidableEq τ]

theorem Invariant.lock_keep (h : Invariant s) (hHolds : ph.holds = (s.phase t).holds) (w : τ) :
    (Function.update s.phase t ph w).holds ↔ s.holder = some w := by
  by_cases hw : w = t
  · rw [hw, Function.update_self, hHolds, h.lock]
  · rw [Function.update_of_ne hw, h.lock]

theorem Invariant.lock_take (h : Invariant s) (hFree : s.holder = none) (hHolds : ph.holds) (w : τ) :
    (Function.update s.phase t ph w).holds ↔ some t = some w := by
  by_cases hw : w = t
  · rw [hw, Function.update_self]
    exact iff_of_true hHolds rfl
  · rw [Function.update_of_ne hw, h.lock, hFree]
    simp [Ne.symm hw]

theorem Invariant.lock_drop (h : Invariant s) (hHeld : (s.phase t).holds) (hHolds : ph.holds = false)
    (w : τ) : (Function.update s.phase t ph w).holds ↔ none = some w := by
  by_cases hw : w = t
  · rw [hw, Function.update_self, hHolds]
    simp
  · rw [Function.update_of_ne hw]
    have hOther : ¬(s.phase w).holds := fun hBoth => hw (h.eq_of_holds hHeld hBoth)
    simpa using hOther

/-- What a thread may do with the mark, with the deferred paths, and with what is owed. -/
theorem Invariant.move (h : Invariant s) (hPhase : u.phase = Function.update s.phase t ph)
    (hVersion : u.version = s.version)
    (hLock : ∀ w, (Function.update s.phase t ph w).holds ↔ u.holder = some w)
    (hMarked : u.bootstrapping →
      ph.marked ∨ (s.bootstrapping ∧ ((s.phase t).marked → ph.marked)))
    (hDeferred : u.deferred ≠ [] →
      ph.beforePop ∨ ((∃ w, (s.phase w).beforePop) ∧ ((s.phase t).beforePop → ph.beforePop)))
    (hSettled : ∀ path, s.version path ≠ 0 → s.Settled path → u.Settled path)
    (hFresh : ∀ path version, ph.Brings path version → s.version path ≠ 0 →
      version = s.version path ∨ u.Owed path)
    (hOthers : (∀ path, s.Owed path → u.Owed path) ∨ ∀ w, w ≠ t → ¬(s.phase w).holds) :
    Invariant u where
  lock := by
    rw [hPhase]
    exact hLock
  marked hFlag := by
    rw [hPhase]
    cases hMarked hFlag with
    | inl hNow => exact ⟨t, by rwa [Function.update_self]⟩
    | inr hBefore =>
        obtain ⟨w, hw⟩ := h.marked hBefore.1
        by_cases hSame : w = t
        · rw [hSame] at hw
          exact ⟨t, by rw [Function.update_self]; exact hBefore.2 hw⟩
        · exact ⟨w, by rwa [Function.update_of_ne hSame]⟩
  deferred hSome := by
    rw [hPhase]
    cases hDeferred hSome with
    | inl hNow => exact ⟨t, by rwa [Function.update_self]⟩
    | inr hBefore =>
        obtain ⟨⟨w, hw⟩, hKeep⟩ := hBefore
        by_cases hSame : w = t
        · rw [hSame] at hw
          exact ⟨t, by rw [Function.update_self]; exact hKeep hw⟩
        · exact ⟨w, by rwa [Function.update_of_ne hSame]⟩
  settled path hWritten := by
    rw [hVersion] at hWritten
    exact hSettled path hWritten (h.settled path hWritten)
  fresh w path version hBrings hWritten := by
    rw [hVersion] at hWritten ⊢
    rw [hPhase] at hBrings
    by_cases hSame : w = t
    · rw [hSame, Function.update_self] at hBrings
      exact hFresh path version hBrings hWritten
    · rw [Function.update_of_ne hSame] at hBrings
      cases hOthers with
      | inl hOwed => exact (h.fresh w path version hBrings hWritten).imp_right (hOwed path)
      | inr hAlone => exact absurd (Phase.holds_of_brings hBrings) (hAlone w hSame)

variable (s u) in
/-- A step that passes on all that its thread owes keeps what is owed. -/
theorem owed_of_owed {path : κ} (hPhase : u.phase = Function.update s.phase t ph)
    (hVersion : u.version = s.version) (hDeferred : path ∈ s.deferred → u.Owed path)
    (hOwes : (s.phase t).Owes (s.version path) path →
      path ∈ u.deferred ∨ ph.Owes (s.version path) path)
    (h : s.Owed path) : u.Owed path := by
  have hThread : ∀ w, (Function.update s.phase t ph w).Owes (s.version path) path →
      u.Owed path := by
    intro w hw
    refine .inr ⟨w, ?_⟩
    rwa [hPhase, hVersion]
  cases h with
  | inl hIn => exact hDeferred hIn
  | inr hBefore =>
      obtain ⟨w, hw⟩ := hBefore
      by_cases hSame : w = t
      · rw [hSame] at hw
        cases hOwes hw with
        | inl hIn => exact .inl hIn
        | inr hNow => exact hThread t (by rwa [Function.update_self])
      · exact hThread w (by rwa [Function.update_of_ne hSame])

/-- A step that writes no rows and passes on all that its thread owes. -/
theorem Invariant.pass (h : Invariant s) (hPhase : u.phase = Function.update s.phase t ph)
    (hVersion : u.version = s.version) (hShadow : u.shadow = s.shadow)
    (hLock : ∀ w, (Function.update s.phase t ph w).holds ↔ u.holder = some w)
    (hMarked : u.bootstrapping →
      ph.marked ∨ (s.bootstrapping ∧ ((s.phase t).marked → ph.marked)))
    (hDeferred : u.deferred ≠ [] →
      ph.beforePop ∨ ((∃ w, (s.phase w).beforePop) ∧ ((s.phase t).beforePop → ph.beforePop)))
    (hKept : ∀ path, path ∈ s.deferred → u.Owed path)
    (hOwes : ∀ path, (s.phase t).Owes (s.version path) path →
      path ∈ u.deferred ∨ ph.Owes (s.version path) path)
    (hFresh : ∀ path version, ph.Brings path version →
      version = s.version path ∨ (s.phase t).Brings path version) : Invariant u := by
  have hOwed : ∀ path, s.Owed path → u.Owed path := fun path =>
    owed_of_owed s u hPhase hVersion (hKept path) (hOwes path)
  refine h.move hPhase hVersion hLock hMarked hDeferred ?_ ?_ (.inl hOwed)
  · intro path _ hBefore
    rw [State.Settled, hShadow, hVersion]
    exact hBefore.imp_right (hOwed path)
  · intro path version hBrings hWritten
    cases hFresh path version hBrings with
    | inl hNow => exact .inl hNow
    | inr hBefore =>
        exact (h.fresh t path version hBefore hWritten).imp_right (hOwed path)

/-- A step that changes nothing but where its thread is. -/
theorem Invariant.goTo (h : Invariant s) (hHolds : ph.holds = (s.phase t).holds)
    (hMarked : ph.marked = (s.phase t).marked) (hBefore : ph.beforePop = (s.phase t).beforePop)
    (hOwes : ∀ path, (s.phase t).Owes (s.version path) path → ph.Owes (s.version path) path)
    (hFresh : ∀ path version, ph.Brings path version →
      version = s.version path ∨ (s.phase t).Brings path version) : Invariant (s.move t ph) := by
  apply h.pass (u := s.move t ph) rfl rfl rfl (h.lock_keep hHolds)
  · intro hFlag
    exact .inr ⟨hFlag, fun hm => by rwa [hMarked]⟩
  · intro hSome
    exact .inr ⟨h.deferred hSome, fun hb => by rwa [hBefore]⟩
  · intro path hMem
    exact .inl hMem
  · intro path hOwe
    exact .inr (hOwes path hOwe)
  · exact hFresh

/-- A step that writes rows, by a thread that has the lock or while nobody has it. -/
theorem Invariant.write (h : Invariant s) (hPhase : u.phase = Function.update s.phase t ph)
    (hVersion : u.version = s.version) (hFlag : u.bootstrapping = s.bootstrapping)
    (hDeferred : u.deferred = s.deferred)
    (hLock : ∀ w, (Function.update s.phase t ph w).holds ↔ u.holder = some w)
    (hAlone : ∀ w, w ≠ t → ¬(s.phase w).holds) (hMarked : ph.marked = (s.phase t).marked)
    (hBefore : ph.beforePop = (s.phase t).beforePop)
    (hSettled : ∀ path, s.version path ≠ 0 → s.Settled path → u.Settled path)
    (hBrings : ∀ path version, ¬ph.Brings path version) : Invariant u := by
  apply h.move hPhase hVersion hLock
  · intro hNow
    rw [hFlag] at hNow
    exact .inr ⟨hNow, fun hm => by rwa [hMarked]⟩
  · intro hSome
    rw [hDeferred] at hSome
    exact .inr ⟨h.deferred hSome, fun hb => by rwa [hBefore]⟩
  · exact hSettled
  · intro path version hNow
    exact absurd hNow (hBrings path version)
  · exact .inr hAlone

end Moves

section Steps

variable [DecidableEq τ] [LinearOrder κ] {s u : State τ κ} {t : τ}

/-- A change of a file is owed by the thread that handles it. -/
theorem Invariant.change (h : Invariant s) {ph : Phase κ} {path : κ} (hIdle : s.phase t = .idle)
    (hHolds : ph.holds = false) (hOwes : ph.Owes (s.version path + 1) path)
    (hBrings : ∀ other version, ¬ph.Brings other version) :
    Invariant ((s.touch path).move t ph) := by
  have hOwed : ∀ other, other ≠ path → s.Owed other → ((s.touch path).move t ph).Owed other := by
    intro other hOther hBefore
    refine hBefore.imp_right ?_
    rintro ⟨w, hw⟩
    refine ⟨w, ?_⟩
    have hSame : w ≠ t := by
      intro hSame
      rw [hSame, hIdle] at hw
      cases hw
    simp only [State.move, State.touch]
    rwa [Function.update_of_ne hSame, Function.update_of_ne hOther]
  have hNew : ((s.touch path).move t ph).Owed path := by
    refine .inr ⟨t, ?_⟩
    simp only [State.move, State.touch]
    rwa [Function.update_self, Function.update_self]
  have hVersion : ∀ other, other ≠ path →
      ((s.touch path).move t ph).version other = s.version other :=
    fun other hOther => Function.update_of_ne hOther _ _
  have hPhase : ∀ w, w ≠ t → ((s.touch path).move t ph).phase w = s.phase w :=
    fun w hw => Function.update_of_ne hw _ _
  have hOthers : ∀ p : Phase κ → Bool, p .idle = false → ∀ w, p (s.phase w) →
      p (((s.touch path).move t ph).phase w) := by
    intro p hp w hw
    rw [hPhase w]
    · exact hw
    · intro hSame
      rw [hSame, hIdle, hp] at hw
      cases hw
  constructor
  · apply h.lock_keep
    rw [hIdle, hHolds]
    rfl
  · intro hFlag
    obtain ⟨w, hw⟩ := h.marked hFlag
    exact ⟨w, hOthers Phase.marked rfl w hw⟩
  · intro hSome
    obtain ⟨w, hw⟩ := h.deferred hSome
    exact ⟨w, hOthers Phase.beforePop rfl w hw⟩
  · intro other hWritten
    by_cases hOther : other = path
    · rw [hOther]
      exact .inr hNew
    · rw [hVersion other hOther] at hWritten
      rw [State.Settled, hVersion other hOther]
      exact (h.settled other hWritten).imp_right (hOwed other hOther)
  · intro w other version hNow hWritten
    by_cases hOther : other = path
    · rw [hOther]
      exact .inr hNew
    · rw [hVersion other hOther] at hWritten ⊢
      by_cases hw : w = t
      · rw [hw] at hNow
        simp only [State.move, Function.update_self] at hNow
        exact absurd hNow (hBrings other version)
      · rw [hPhase w hw] at hNow
        exact (h.fresh w other version hNow hWritten).imp_right (hOwed other hOther)

theorem Invariant.check (h : Invariant s) (hStep : step s (.check t) = some u) : Invariant u := by
  simp only [step] at hStep
  split at hStep
  · next other deleted version hAt =>
      split_ifs at hStep with hFlag hDeleted
      · obtain rfl := Option.some.inj hStep
        apply h.goTo <;> simp +contextual [hAt]
      · obtain rfl := Option.some.inj hStep
        apply h.goTo <;> simp +contextual [hAt, hDeleted]
      · obtain rfl := Option.some.inj hStep
        apply h.goTo <;> simp +contextual [hAt]
  · next other hAt =>
      split_ifs at hStep with hFlag
      · obtain rfl := Option.some.inj hStep
        apply h.goTo <;> simp +contextual [hAt]
      · obtain rfl := Option.some.inj hStep
        apply h.goTo <;> simp +contextual [hAt]
  · cases hStep

/-- A path is deferred for a rebuild that has yet to pop it. -/
theorem Invariant.defer (h : Invariant s) (hOrderly : ∃ w, (s.phase w).beforePop)
    (hStep : step s (.defer t) = some u) : Invariant u := by
  simp only [step] at hStep
  split at hStep
  · next path hAt =>
      obtain rfl := Option.some.inj hStep
      apply h.pass (u := (s.deferSyncPath path).move t .idle) rfl rfl rfl
      · exact h.lock_keep (by simp [hAt])
      · intro hFlag
        exact .inr ⟨hFlag, by simp [hAt]⟩
      · intro _
        exact .inr ⟨hOrderly, by simp [hAt]⟩
      · intro other hMem
        exact .inl (List.mem_insert_of_mem hMem)
      · intro other hOwes
        rw [hAt] at hOwes
        rw [← show path = other from hOwes]
        exact .inl List.mem_insert_self
      · intro other version hBrings
        cases hBrings
  · cases hStep

theorem Invariant.takeLock (h : Invariant s) (hStep : step s (.lock t) = some u) :
    Invariant u := by
  simp only [step] at hStep
  split at hStep
  · next path hFree hAt =>
      obtain rfl := Option.some.inj hStep
      apply h.pass (u := { s.move t (.reading path) with holder := some t }) rfl rfl rfl
      · exact h.lock_take hFree rfl
      · intro hFlag
        exact .inr ⟨hFlag, by simp [hAt]⟩
      · intro hSome
        exact .inr ⟨h.deferred hSome, by simp [hAt]⟩
      · exact fun _ hMem => .inl hMem
      · intro other hOwes
        rw [hAt] at hOwes
        exact .inr hOwes
      · intro other version hBrings
        cases hBrings
  · next hFree hAt =>
      obtain rfl := Option.some.inj hStep
      apply h.pass (u := { s.move t .marking with holder := some t }) rfl rfl rfl
      · exact h.lock_take hFree rfl
      · intro hFlag
        exact .inr ⟨hFlag, by simp [hAt]⟩
      · intro hSome
        exact .inl rfl
      · exact fun _ hMem => .inl hMem
      · intro other hOwes
        rw [hAt] at hOwes
        cases hOwes
      · intro other version hBrings
        cases hBrings
  · cases hStep

omit [DecidableEq τ] [LinearOrder κ] in
/-- The mark is cleared before the paths are replayed. -/
theorem Invariant.not_bootstrapping (h : Invariant s) {paths : List κ}
    (hAt : s.phase t = .replaying paths) : ¬s.bootstrapping := by
  intro hFlag
  obtain ⟨w, hw⟩ := h.marked hFlag
  have hSame : w = t := h.eq_of_holds (by rw [hAt]; rfl) (Phase.holds_of_marked hw)
  rw [hSame, hAt] at hw
  cases hw

theorem Invariant.read (h : Invariant s) (hStep : step s (.read t) = some u) : Invariant u := by
  simp only [step] at hStep
  split at hStep
  · next path hAt =>
      obtain rfl := Option.some.inj hStep
      apply h.goTo <;> simp +contextual [hAt]
  · next path paths hAt =>
      rw [if_neg (h.not_bootstrapping hAt)] at hStep
      obtain rfl := Option.some.inj hStep
      apply h.goTo
      · simp [hAt]
      · simp [hAt]
      · simp [hAt]
      · intro other hOwes
        rw [hAt] at hOwes
        cases List.mem_cons.mp hOwes with
        | inl hFirst => exact .inl ⟨hFirst.symm, by rw [hFirst]⟩
        | inr hRest => exact .inr hRest
      · intro other version hBrings
        obtain ⟨rfl, rfl⟩ := hBrings
        exact .inl rfl
  · cases hStep

omit [DecidableEq τ] in
variable (s u) in
/-- Writing the rows of one path settles it if they are current, and they are unless the
path is owed. -/
theorem settled_setShadow {path : κ} {version : Nat} (hVersion : u.version = s.version)
    (hShadow : u.shadow = Function.update s.shadow path (some version))
    (hSeen : s.version path ≠ 0 → version = s.version path ∨ s.Owed path)
    (hOwed : ∀ other, ¬(path = other ∧ version = s.version other) → s.Owed other → u.Owed other)
    (other : κ) (hWritten : s.version other ≠ 0) (hSettled : s.Settled other) : u.Settled other := by
  rw [State.Settled, hVersion, hShadow]
  by_cases hOther : other = path
  · subst hOther
    rw [Function.update_self]
    by_cases hCurrent : version = s.version other
    · exact .inl (congrArg some hCurrent)
    · exact .inr (hOwed other (fun hBoth => hCurrent hBoth.2)
        ((hSeen hWritten).resolve_left hCurrent))
  · rw [Function.update_of_ne hOther]
    exact hSettled.imp_right (hOwed other fun hBoth => hOther hBoth.1.symm)

theorem Invariant.commit (h : Invariant s) (hStep : step s (.commit t) = some u) :
    Invariant u := by
  simp only [step] at hStep
  split at hStep
  · next path version hAt =>
      obtain rfl := Option.some.inj hStep
      have hHeld : (s.phase t).holds := by rw [hAt]; rfl
      have hBrings : (s.phase t).Brings path version := by rw [hAt]; exact ⟨rfl, rfl⟩
      apply h.write (u := (s.setShadow path version).unlock t .idle) rfl rfl rfl rfl
      · exact h.lock_drop hHeld rfl
      · exact fun w hw hBoth => hw (h.eq_of_holds hHeld hBoth)
      · simp [hAt]
      · simp [hAt]
      · apply settled_setShadow s ((s.setShadow path version).unlock t .idle) rfl rfl
          (h.fresh t path version hBrings)
        intro other hOther
        apply owed_of_owed s ((s.setShadow path version).unlock t .idle) rfl rfl Or.inl
        intro hOwes
        rw [hAt] at hOwes
        exact absurd hOwes hOther
      · exact fun _ _ hNow => hNow
  · next path version paths hAt =>
      obtain rfl := Option.some.inj hStep
      have hHeld : (s.phase t).holds := by rw [hAt]; rfl
      have hBrings : (s.phase t).Brings path version := by rw [hAt]; exact ⟨rfl, rfl⟩
      apply h.write (u := (s.setShadow path version).move t (.replaying paths)) rfl rfl rfl rfl
      · exact h.lock_keep (by rw [hAt]; rfl)
      · exact fun w hw hBoth => hw (h.eq_of_holds hHeld hBoth)
      · simp [hAt]
      · simp [hAt]
      · apply settled_setShadow s ((s.setShadow path version).move t (.replaying paths)) rfl
          rfl (h.fresh t path version hBrings)
        intro other hOther
        apply owed_of_owed s ((s.setShadow path version).move t (.replaying paths)) rfl rfl Or.inl
        intro hOwes
        rw [hAt] at hOwes
        exact .inr (hOwes.resolve_left hOther)
      · exact fun _ _ hNow => hNow
  · cases hStep

theorem Invariant.delete (h : Invariant s)
    (hOrderly : ∀ path version, s.phase t = .deleting path version → version = s.version path)
    (hStep : step s (.delete t) = some u) : Invariant u := by
  simp only [step] at hStep
  split at hStep
  · next path version hFree hAt =>
      obtain rfl := Option.some.inj hStep
      apply h.write (u := (s.setShadow path version).move t .idle) rfl rfl rfl rfl
      · exact h.lock_keep (by rw [hAt]; rfl)
      · intro w _ hHeld
        rw [h.lock, hFree] at hHeld
        cases hHeld
      · simp [hAt]
      · simp [hAt]
      · apply settled_setShadow s ((s.setShadow path version).move t .idle) rfl rfl
        · exact fun _ => .inl (hOrderly path version hAt)
        · intro other hOther
          apply owed_of_owed s ((s.setShadow path version).move t .idle) rfl rfl Or.inl
          intro hOwes
          rw [hAt] at hOwes
          exact absurd hOwes hOther
      · exact fun _ _ hNow => hNow
  · cases hStep

theorem Invariant.mark (h : Invariant s) (hStep : step s (.mark t) = some u) : Invariant u := by
  simp only [step] at hStep
  split at hStep
  · next hAt =>
      obtain rfl := Option.some.inj hStep
      apply h.pass (u := { s.move t .opening with bootstrapping := true }) rfl rfl rfl
      · exact h.lock_keep (by rw [hAt]; rfl)
      · exact fun _ => .inl rfl
      · exact fun _ => .inl rfl
      · exact fun _ hMem => .inl hMem
      · intro path hOwes
        rw [hAt] at hOwes
        cases hOwes
      · intro path version hBrings
        cases hBrings
  · cases hStep

theorem Invariant.openDb (h : Invariant s) {succeeds : Bool} (hOrderly : succeeds = true)
    (hStep : step s (.openDb t succeeds) = some u) : Invariant u := by
  simp only [step] at hStep
  split at hStep
  · next hAt =>
      rw [if_pos hOrderly] at hStep
      obtain rfl := Option.some.inj hStep
      apply h.goTo <;> simp [hAt]
  · cases hStep

theorem Invariant.close (h : Invariant s) {succeeds : Bool} (hOrderly : succeeds = true)
    (hStep : step s (.close t succeeds) = some u) : Invariant u := by
  simp only [step] at hStep
  split at hStep
  · next hAt =>
      rw [if_pos hOrderly] at hStep
      obtain rfl := Option.some.inj hStep
      apply h.goTo <;> simp [hAt]
  · cases hStep

/-- A file that is not listed has no rows from now on, as it is not there. -/
theorem Invariant.list (h : Invariant s) {paths : List κ}
    (hStep : step s (.list t paths) = some u) : Invariant u := by
  simp only [step] at hStep
  split at hStep
  · next hAt =>
      obtain rfl := Option.some.inj hStep
      apply h.goTo <;> simp +contextual [hAt]
  · cases hStep

theorem Invariant.scan (h : Invariant s) (hStep : step s (.scan t) = some u) : Invariant u := by
  simp only [step] at hStep
  split at hStep
  · next path paths rows hAt =>
      obtain rfl := Option.some.inj hStep
      apply h.goTo
      · simp [hAt]
      · simp [hAt]
      · simp [hAt]
      · intro other hOwes
        rw [hAt] at hOwes
        cases hOwes
      · intro other version hBrings
        obtain ⟨hScanned, hRow⟩ := hBrings
        by_cases hOther : other = path
        · rw [hOther, Function.update_self] at hRow
          exact .inl (by rw [hOther, hRow])
        · rw [Function.update_of_ne hOther] at hRow
          rw [hAt]
          exact .inr ⟨by simp [hOther, hScanned], hRow⟩
  · cases hStep

/-- The rows that a rebuild commits are current, or their paths are owed. -/
theorem Invariant.finish (h : Invariant s) (hStep : step s (.finish t) = some u) :
    Invariant u := by
  simp only [step] at hStep
  split at hStep
  · next rows hAt =>
      obtain rfl := Option.some.inj hStep
      have hHeld : (s.phase t).holds := by rw [hAt]; rfl
      let after : State τ κ := { s.move t .closing with shadow := fun path => some (rows path) }
      apply h.write (u := after) rfl rfl rfl rfl
      · exact h.lock_keep (by rw [hAt]; rfl)
      · exact fun w hw hBoth => hw (h.eq_of_holds hHeld hBoth)
      · simp [hAt]
      · simp [hAt]
      · intro path hWritten _
        have hBrings : (s.phase t).Brings path (rows path) := by
          rw [hAt]
          exact ⟨List.not_mem_nil, rfl⟩
        cases h.fresh t path (rows path) hBrings hWritten with
        | inl hCurrent => exact .inl (congrArg some hCurrent)
        | inr hOwed =>
            refine .inr (owed_of_owed s after rfl rfl Or.inl ?_ hOwed)
            intro hOwes
            rw [hAt] at hOwes
            cases hOwes
      · exact fun _ _ hNow => hNow
  · cases hStep

theorem Invariant.rollback (h : Invariant s) (hStep : step s (.rollback t) = some u) :
    Invariant u := by
  simp only [step] at hStep
  split at hStep
  · next hAt =>
      obtain rfl := Option.some.inj hStep
      apply h.goTo <;> simp [hAt]
  · next paths rows hAt =>
      obtain rfl := Option.some.inj hStep
      apply h.goTo <;> simp [hAt]
  · cases hStep

theorem Invariant.clear (h : Invariant s) (hStep : step s (.clear t) = some u) :
    Invariant u := by
  simp only [step] at hStep
  split at hStep
  · next hAt =>
      obtain rfl := Option.some.inj hStep
      apply h.pass (u := { s.move t .popping with bootstrapping := false }) rfl rfl rfl
      · exact h.lock_keep (by rw [hAt]; rfl)
      · exact fun hFlag => nomatch hFlag
      · exact fun _ => .inl rfl
      · exact fun _ hMem => .inl hMem
      · intro path hOwes
        rw [hAt] at hOwes
        cases hOwes
      · intro path version hBrings
        cases hBrings
  · cases hStep

/-- The paths that a rebuild pops are those that it replays. -/
theorem Invariant.pop (h : Invariant s) (hStep : step s (.pop t) = some u) : Invariant u := by
  simp only [step] at hStep
  split at hStep
  · next hAt =>
      obtain rfl := Option.some.inj hStep
      let paths := s.deferred.insertionSort (· ≤ ·)
      apply h.pass (u := { s.move t (.replaying paths) with deferred := [] }) rfl rfl rfl
      · exact h.lock_keep (by rw [hAt]; rfl)
      · intro hFlag
        exact .inr ⟨hFlag, by simp [hAt]⟩
      · exact fun hSome => absurd rfl hSome
      · intro path hMem
        refine .inr ⟨t, ?_⟩
        simp only [State.move, Function.update_self]
        exact (List.perm_insertionSort (· ≤ ·) s.deferred).mem_iff.mpr hMem
      · intro path hOwes
        rw [hAt] at hOwes
        cases hOwes
      · intro path version hBrings
        cases hBrings
  · cases hStep

theorem Invariant.leave (h : Invariant s) (hStep : step s (.leave t) = some u) :
    Invariant u := by
  simp only [step] at hStep
  split at hStep
  · next hAt =>
      obtain rfl := Option.some.inj hStep
      apply h.pass (u := s.unlock t .idle) rfl rfl rfl
      · exact h.lock_drop (by rw [hAt]; rfl) rfl
      · intro hFlag
        exact .inr ⟨hFlag, by simp [hAt]⟩
      · intro hSome
        exact .inr ⟨h.deferred hSome, by simp [hAt]⟩
      · exact fun _ hMem => .inl hMem
      · intro path hOwes
        rw [hAt] at hOwes
        cases hOwes
      · intro path version hBrings
        cases hBrings
  · cases hStep

theorem Invariant.step {a : Action τ κ} (h : Invariant s) (hOrderly : Orderly s a)
    (hStep : ShadowState.step s a = some u) : Invariant u := by
  cases a with
  | write t path =>
      simp only [ShadowState.step] at hStep
      split at hStep
      · next hAt =>
          obtain rfl := Option.some.inj hStep
          exact h.change hAt rfl rfl fun _ _ hNow => hNow
      · cases hStep
  | watch t path deleted =>
      simp only [ShadowState.step] at hStep
      split at hStep
      · next hAt =>
          obtain rfl := Option.some.inj hStep
          exact h.change hAt rfl ⟨rfl, fun _ => rfl⟩ fun _ _ hNow => hNow
      · cases hStep
  | rebuild t =>
      simp only [ShadowState.step] at hStep
      split at hStep
      · next hAt =>
          obtain rfl := Option.some.inj hStep
          apply h.goTo <;> simp [hAt]
      · cases hStep
  | giveUp t =>
      simp only [ShadowState.step] at hStep
      split at hStep
      · next hAt =>
          obtain rfl := Option.some.inj hStep
          apply h.goTo <;> simp [hAt]
      · cases hStep
  | fail t => exact hOrderly.elim
  | check t => exact h.check hStep
  | defer t => exact h.defer hOrderly hStep
  | lock t => exact h.takeLock hStep
  | read t => exact h.read hStep
  | commit t => exact h.commit hStep
  | delete t => exact h.delete hOrderly hStep
  | mark t => exact h.mark hStep
  | openDb t succeeds => exact h.openDb hOrderly hStep
  | list t paths => exact h.list hStep
  | scan t => exact h.scan hStep
  | finish t => exact h.finish hStep
  | rollback t => exact h.rollback hStep
  | close t succeeds => exact h.close hOrderly hStep
  | clear t => exact h.clear hStep
  | pop t => exact h.pop hStep
  | leave t => exact h.leave hStep

/-- In every interleaving of orderly steps, nothing that was written is lost. -/
theorem nothingLost_of_orderly (run : Run step Orderly (initialState : State τ κ) s) :
    NothingLost s := by
  have hInvariant : Invariant s := run.invariant invariant_initialState
    fun _ _ _ h hOrderly hStep => h.step hOrderly hStep
  exact hInvariant.nothingLost

end Steps

section Samples

/-- A decidable condition that orderly steps of two threads may be given by. -/
def plainly (s : State Bool Nat) : Action Bool Nat → Bool
  | .openDb _ succeeds | .close _ succeeds => succeeds
  | .defer _ => (s.phase false).beforePop
  | .fail _ | .delete _ => false
  | _ => true

theorem orderly_of_plainly {s : State Bool Nat} {a : Action Bool Nat} (h : plainly s a) :
    Orderly s a := by
  cases a with
  | openDb t succeeds => exact h
  | close t succeeds => exact h
  | defer t => exact ⟨false, h⟩
  | fail t => cases h
  | delete t => cases h
  | _ => trivial

/-- A write during a rebuild, which is deferred and replayed. -/
def deferredWrite : List (Action Bool Nat) :=
  [.rebuild false, .lock false, .mark false, .openDb false true, .list false [7], .scan false,
    .write true 7, .check true, .finish false, .close false true, .clear false, .defer true,
    .pop false, .read false, .commit false, .leave false]

theorem nothingLost_of_orderly_deferredWrite :
    ∃ s : State Bool Nat, Run step Orderly initialState s ∧ s.shadow 7 = some 1 ∧
      NothingLost s := by
  have hRun : (exec step (fun s a => plainly s a) initialState deferredWrite).map
      (fun s => s.shadow 7) = some (some 1) := by decide +kernel
  obtain ⟨s, hExec, hShadow⟩ := Option.map_eq_some_iff.mp hRun
  have run := (Run.of_exec hExec).mono fun _ _ => orderly_of_plainly
  exact ⟨s, run, hShadow, nothingLost_of_orderly run⟩

/-- The same write, when the rebuild pops the paths between its check and its deferral. -/
def lateWrite : List (Action Bool Nat) :=
  [.rebuild false, .lock false, .mark false, .openDb false true, .list false [7], .scan false,
    .write true 7, .check true, .finish false, .close false true, .clear false, .pop false,
    .leave false, .defer true]

/-- A rebuild that fails as it opens the database. -/
def failedOpen : List (Action Bool Nat) :=
  [.rebuild false, .lock false, .mark false, .openDb false false]

def succeeds : Action Bool Nat → Bool
  | .openDb _ succeeds | .close _ succeeds => succeeds
  | .fail _ => false
  | _ => true

def writes : Action Bool Nat → Bool
  | .write _ _ | .watch _ _ _ => true
  | _ => false

/-- A path is lost although nothing fails, and a mark stays although nothing is written. -/
theorem lost_without_failure_or_write :
    (¬∀ s : State Bool Nat, Run step (fun _ a => succeeds a) initialState s → NothingLost s) ∧
      ¬∀ s : State Bool Nat, Run step (fun _ a => writes a = false) initialState s →
        NothingLost s := by
  constructor
  · intro h
    have hRun : (exec step (fun _ a => succeeds a) initialState lateWrite).map
        (fun s => (s.deferred, (s.phase false).rebuilds, (s.phase true).rebuilds)) =
          some ([7], false, false) := by decide +kernel
    obtain ⟨s, hExec, hEnd⟩ := Option.map_eq_some_iff.mp hRun
    obtain ⟨hDeferred, hFalse, hTrue⟩ : s.deferred = [7] ∧ (s.phase false).rebuilds = false ∧
        (s.phase true).rebuilds = false := by simpa using hEnd
    have hNone := (h s (Run.of_exec hExec)).deferred (by simp [hFalse, hTrue])
    rw [hDeferred] at hNone
    cases hNone
  · intro h
    have hRun : (exec step (fun _ a => writes a = false) initialState failedOpen).map
        (fun s => (s.bootstrapping, (s.phase false).rebuilds, (s.phase true).rebuilds)) =
          some (true, false, false) := by decide +kernel
    obtain ⟨s, hExec, hEnd⟩ := Option.map_eq_some_iff.mp hRun
    obtain ⟨hFlag, hFalse, hTrue⟩ : s.bootstrapping = true ∧ (s.phase false).rebuilds = false ∧
        (s.phase true).rebuilds = false := by simpa using hEnd
    obtain ⟨t, ht⟩ := (h s (Run.of_exec hExec)).bootstrapping hFlag
    cases t with
    | false => rw [hFalse] at ht; cases ht
    | true => rw [hTrue] at ht; cases ht

end Samples

end Plumber.ShadowState
