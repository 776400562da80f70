import Mathlib.Data.List.Nodup
import Mathlib.Logic.Function.Basic

/-! Calls on one object whose outcome is that of the same calls one after another. -/
namespace Linearization

variable {ι σ ρ : Type*} (apply : ι → σ → σ × ρ)

/-- The state after the calls, one after another. -/
def runAll (order : List ι) (s : σ) : σ := order.foldl (fun s i => (apply i s).1) s

/-- What a call returns when the calls are made in this order. -/
def answer [DecidableEq ι] : List ι → σ → ι → Option ρ
  | [], _, _ => none
  | j :: rest, s, i => if i = j then some (apply j s).2 else answer rest (apply j s).1 i

/-- The calls that have returned can be put in an order that leads to `final` and gives every
one of them its answer. -/
def Explained [DecidableEq ι] (initial final : σ) (returned : ι → Option ρ) : Prop :=
  ∃ order : List ι, order.Nodup ∧ runAll apply order initial = final ∧
    ∀ i, returned i = answer apply order initial i

variable {apply} {initial final : σ} {returned : ι → Option ρ}

theorem runAll_snoc (order : List ι) (s : σ) (i : ι) :
    runAll apply (order ++ [i]) s = (apply i (runAll apply order s)).1 := by
  simp [runAll]

variable [DecidableEq ι]

theorem answer_eq_none {order : List ι} {i : ι} (s : σ) :
    answer apply order s i = none ↔ i ∉ order := by
  induction order generalizing s with
  | nil => simp [answer]
  | cons j rest ih =>
      rw [answer, List.mem_cons, not_or]
      split_ifs with hEq
      · simp [hEq]
      · simp [hEq, ih]

theorem answer_snoc_of_ne {i j : ι} (h : i ≠ j) (order : List ι) (s : σ) :
    answer apply (order ++ [j]) s i = answer apply order s i := by
  induction order generalizing s with
  | nil => simp [answer, h]
  | cons k rest ih => simp only [List.cons_append, answer, ih]

theorem answer_snoc_self {order : List ι} {i : ι} (h : i ∉ order) (s : σ) :
    answer apply (order ++ [i]) s i = some (apply i (runAll apply order s)).2 := by
  induction order generalizing s with
  | nil => simp [answer, runAll]
  | cons k rest ih =>
      rw [List.mem_cons, not_or] at h
      rw [List.cons_append, answer, if_neg h.1, ih h.2]
      rfl

theorem Explained.start (h : ∀ i, returned i = none) : Explained apply initial initial returned :=
  ⟨[], List.nodup_nil, rfl, h⟩

/-- A call returns what it returns on the present state, and leaves what it leaves there. -/
theorem Explained.return {i : ι} (h : Explained apply initial final returned)
    (hPending : returned i = none) :
    Explained apply initial (apply i final).1
      (Function.update returned i (some (apply i final).2)) := by
  obtain ⟨order, hNodup, rfl, hAnswers⟩ := h
  have hNew : i ∉ order := by
    have hNone : answer apply order initial i = none := by rw [← hAnswers, hPending]
    exact (answer_eq_none initial).mp hNone
  refine ⟨order ++ [i], hNodup.append (List.nodup_singleton i) ?_, runAll_snoc _ _ _, ?_⟩
  · simpa using hNew
  · intro j
    by_cases hEq : j = i
    · rw [hEq, Function.update_self, answer_snoc_self hNew]
    · rw [Function.update_of_ne hEq, answer_snoc_of_ne hEq, hAnswers]

end Linearization
