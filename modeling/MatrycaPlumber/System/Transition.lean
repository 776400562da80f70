import Mathlib.Data.List.Induction

/-! Transition systems given by a partial step function, and their runs. A run
may be restricted to steps that meet a condition in the state in which they are
taken. -/
namespace Transition

variable {σ α : Type*} (step : σ → α → Option σ)

/-- `t` is reached from `s` by steps that all meet `C`. -/
inductive Run (C : σ → α → Prop) : σ → σ → Prop where
  | refl (s : σ) : Run C s s
  | tail {s t u : σ} {a : α} (prior : Run C s t) (hMeets : C t a) (last : step t a = some u) :
      Run C s u

variable {step} {C : σ → α → Prop} {s t u : σ}

/-- What holds at the start and is kept by every step of the run holds at its
end. -/
theorem Run.invariant {I : σ → Prop} (run : Run step C s t) (hInit : I s)
    (hStep : ∀ t a u, I t → C t a → step t a = some u → I u) : I t := by
  induction run with
  | refl => exact hInit
  | tail prior hMeets last ih => exact hStep _ _ _ ih hMeets last

theorem Run.mono {D : σ → α → Prop} (run : Run step C s t) (hImp : ∀ t a, C t a → D t a) :
    Run step D s t := by
  induction run with
  | refl => exact .refl _
  | tail prior hMeets last ih => exact .tail ih (hImp _ _ hMeets) last

/-- The state after a list of actions, when all of them are enabled and meet
`C`. -/
def exec (step : σ → α → Option σ) (C : σ → α → Prop) [∀ s a, Decidable (C s a)] (s : σ)
    (acts : List α) : Option σ :=
  acts.foldlM (fun t a => if C t a then step t a else none) s

theorem exec_cons [∀ s a, Decidable (C s a)] {a : α} {acts : List α} :
    exec step C s (a :: acts) = some u ↔
      ∃ t, C s a ∧ step s a = some t ∧ exec step C t acts = some u := by
  rw [exec, List.foldlM_cons]
  split_ifs with hMeets
  · simp only [hMeets, true_and]
    exact Option.bind_eq_some_iff
  · simp [hMeets]

theorem Run.of_exec [∀ s a, Decidable (C s a)] {acts : List α} (h : exec step C s acts = some t) :
    Run step C s t := by
  induction acts using List.reverseRecOn generalizing t with
  | nil =>
      obtain rfl := Option.some.inj h
      exact .refl _
  | append_singleton acts a ih =>
      rw [exec, List.foldlM_append] at h
      obtain ⟨u, hPrior, hLast⟩ := Option.bind_eq_some_iff.mp h
      rw [List.foldlM_cons] at hLast
      obtain ⟨v, hStep, hNil⟩ := Option.bind_eq_some_iff.mp hLast
      obtain rfl := Option.some.inj hNil
      split_ifs at hStep with hMeets
      exact .tail (ih hPrior) hMeets hStep

end Transition
