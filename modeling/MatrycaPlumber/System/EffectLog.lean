import Mathlib.Data.List.Basic

/-! Computations that may raise and whose state carries a log of what they have
done. What stands in the log stays there when the computation raises, so a
statement about such a computation speaks of the entries it adds in both cases. -/
namespace EffectLog

universe u

variable {ev : Type*} {σ ε α β : Type u}

/-- The outcome and the final state of a computation. -/
def outcome : EStateM.Result ε σ α → Except ε α × σ
  | .ok a s => (.ok a, s)
  | .error e s => (.error e, s)

/-- From every state the computation only adds entries to the log, and the
outcome and the added entries satisfy `P`. -/
def Emits (log : σ → List ev) (x : EStateM ε σ α) (P : Except ε α → List ev → Prop) : Prop :=
  ∀ s, ∃ es, log (outcome (x s)).2 = log s ++ es ∧ P (outcome (x s)).1 es

variable {log : σ → List ev} {x : EStateM ε σ α} {P : Except ε α → List ev → Prop}

theorem Emits.mono {Q : Except ε α → List ev → Prop} (hx : Emits log x P)
    (hImp : ∀ r es, P r es → Q r es) : Emits log x Q := by
  intro s
  obtain ⟨es, hLog, hP⟩ := hx s
  exact ⟨es, hLog, hImp _ es hP⟩

theorem Emits.pure {a : α} (h : P (.ok a) []) : Emits log (pure a : EStateM ε σ α) P :=
  fun _ => ⟨[], (List.append_nil _).symm, h⟩

theorem Emits.throw {e : ε} (h : P (.error e) []) : Emits log (throw e : EStateM ε σ α) P :=
  fun _ => ⟨[], (List.append_nil _).symm, h⟩

/-- A state change that leaves the log alone. -/
theorem Emits.modify {g : σ → σ} {Q : Except ε PUnit → List ev → Prop}
    (hLog : ∀ s, log (g s) = log s) (h : Q (.ok ⟨⟩) []) :
    Emits log (modify g : EStateM ε σ PUnit) Q :=
  fun s => ⟨[], by rw [List.append_nil]; exact hLog s, h⟩

theorem Emits.get {Q : Except ε σ → List ev → Prop} (h : ∀ s, Q (.ok s) []) :
    Emits log (get : EStateM ε σ σ) Q :=
  fun s => ⟨[], (List.append_nil _).symm, h s⟩

/-- A computation in two parts raises in the first one, or it adds what both
parts add. -/
theorem Emits.bind {f : α → EStateM ε σ β} {Q : α → Except ε β → List ev → Prop}
    (hx : Emits log x P) (hf : ∀ a, Emits log (f a) (Q a)) :
    Emits log (x >>= f) fun r es =>
      (∃ e, r = .error e ∧ P (.error e) es) ∨
        ∃ a es₁ es₂, es = es₁ ++ es₂ ∧ P (.ok a) es₁ ∧ Q a r es₂ := by
  intro s
  obtain ⟨es₁, hLog₁, hP⟩ := hx s
  cases hRun : x s with
  | ok a s' =>
      have hBind : (x >>= f) s = f a s' := by
        show EStateM.bind x f s = _
        simp only [EStateM.bind, hRun]
      rw [hRun] at hLog₁ hP
      obtain ⟨es₂, hLog₂, hQ⟩ := hf a s'
      refine ⟨es₁ ++ es₂, ?_, ?_⟩
      · rw [hBind, hLog₂, show log s' = log s ++ es₁ from hLog₁, List.append_assoc]
      · rw [hBind]
        exact Or.inr ⟨a, es₁, es₂, rfl, hP, hQ⟩
  | error e s' =>
      have hBind : (x >>= f) s = .error e s' := by
        show EStateM.bind x f s = _
        simp only [EStateM.bind, hRun]
      rw [hRun] at hLog₁ hP
      rw [hBind]
      exact ⟨es₁, hLog₁, Or.inl ⟨e, rfl, hP⟩⟩

end EffectLog
