import Mathlib.Data.List.TakeWhile
import Mathlib.Tactic.Common

/-! Ordered trees without labels, written as the indentations of their nodes in preorder
and read back from them. -/
namespace DepthShapes

inductive Shape where
  | node (children : List Shape)

mutual

/-- The indentations of a tree whose root is at a level. -/
def widths (unit level : ℕ) : Shape → List ℕ
  | .node children => level * unit :: widthsAll unit (level + 1) children

def widthsAll (unit level : ℕ) : List Shape → List ℕ
  | [] => []
  | shape :: shapes => widths unit level shape ++ widthsAll unit level shapes

end

mutual

def count : Shape → ℕ
  | .node children => countAll children + 1

def countAll : List Shape → ℕ
  | [] => 0
  | shape :: shapes => count shape + countAll shapes

end

/-- What is indented deeper than a line, up to the next one that is not, is below it. -/
def readShapes : List ℕ → List Shape
  | [] => []
  | w :: ws => .node (readShapes (ws.takeWhile (w < ·))) :: readShapes (ws.dropWhile (w < ·))
termination_by ws => ws.length
decreasing_by
  · exact Nat.lt_succ_of_le (List.takeWhile_prefix _).length_le
  · exact Nat.lt_succ_of_le (List.dropWhile_suffix _).length_le

section Reading

variable {unit : ℕ}

/-- Reading makes one node of every line. -/
theorem countAll_readShapes (ws : List ℕ) : countAll (readShapes ws) = ws.length := by
  fun_induction readShapes ws with
  | case1 => rfl
  | case2 w ws ihBelow ihRest =>
      have hSplit := congrArg List.length (List.takeWhile_append_dropWhile (p := (w < ·)) (l := ws))
      rw [List.length_append] at hSplit
      rw [countAll, count, ihBelow, ihRest, List.length_cons]
      omega

variable (unit) in
mutual

theorem length_widths (level : ℕ) : ∀ shape : Shape, (widths unit level shape).length = count shape
  | .node children => by
      rw [widths, count, List.length_cons, length_widthsAll (level + 1) children]

theorem length_widthsAll (level : ℕ) : ∀ shapes : List Shape,
    (widthsAll unit level shapes).length = countAll shapes
  | [] => rfl
  | shape :: shapes => by
      rw [widthsAll, countAll, List.length_append, length_widths level shape,
        length_widthsAll level shapes]

end

mutual

theorem le_of_mem_widths (level : ℕ) : ∀ shape : Shape, ∀ w ∈ widths unit level shape,
    level * unit ≤ w
  | .node children => by
      intro w hw
      rw [widths] at hw
      rcases List.mem_cons.mp hw with rfl | hBelow
      · exact Nat.le_refl _
      · have hDeeper := le_of_mem_widthsAll (level + 1) children w hBelow
        rw [Nat.succ_mul] at hDeeper
        omega

theorem le_of_mem_widthsAll (level : ℕ) : ∀ shapes : List Shape,
    ∀ w ∈ widthsAll unit level shapes, level * unit ≤ w
  | [] => List.forall_mem_nil _
  | shape :: shapes => by
      intro w hw
      rw [widthsAll] at hw
      rcases List.mem_append.mp hw with hFirst | hRest
      · exact le_of_mem_widths level shape w hFirst
      · exact le_of_mem_widthsAll level shapes w hRest

end

/-- The first line of what follows a tree at its level is not below it. -/
theorem head?_widthsAll (level : ℕ) (shapes : List Shape) :
    ∀ w ∈ (widthsAll unit level shapes).head?, w = level * unit := by
  cases shapes with
  | nil =>
      intro w hw
      cases hw
  | cons shape shapes =>
      cases shape with
      | node children =>
          intro w hw
          rw [widthsAll, widths, List.cons_append, List.head?_cons, Option.mem_def,
            Option.some.injEq] at hw
          exact hw.symm

theorem takeWhile_append_of_head {p : ℕ → Bool} {xs ys : List ℕ} (hx : ∀ x ∈ xs, p x = true)
    (hy : ∀ y ∈ ys.head?, p y = false) :
    (xs ++ ys).takeWhile p = xs ∧ (xs ++ ys).dropWhile p = ys := by
  induction xs with
  | nil =>
      cases ys with
      | nil => exact ⟨rfl, rfl⟩
      | cons y ys =>
          have hFirst := hy y rfl
          simp [hFirst]
  | cons x xs ih =>
      rw [List.forall_mem_cons] at hx
      obtain ⟨hTake, hDrop⟩ := ih hx.2
      rw [List.cons_append, List.takeWhile_cons_of_pos hx.1, List.dropWhile_cons_of_pos hx.1, hTake]
      exact ⟨rfl, hDrop⟩

/-- Trees are read back from their indentations. -/
theorem readShapes_widthsAll (hUnit : 0 < unit) (level : ℕ) : ∀ shapes : List Shape,
    readShapes (widthsAll unit level shapes) = shapes
  | [] => by rw [widthsAll, readShapes]
  | .node children :: shapes => by
      have hBelow : ∀ w ∈ widthsAll unit (level + 1) children,
          decide (level * unit < w) = true := by
        intro w hw
        have hDeeper := le_of_mem_widthsAll (level + 1) children w hw
        rw [Nat.succ_mul] at hDeeper
        simp only [decide_eq_true_eq]
        omega
      have hRest : ∀ w ∈ (widthsAll unit level shapes).head?,
          decide (level * unit < w) = false := by
        intro w hw
        rw [head?_widthsAll level shapes w hw]
        simp
      obtain ⟨hTake, hDrop⟩ := takeWhile_append_of_head hBelow hRest
      rw [widthsAll, widths, List.cons_append, readShapes, hTake, hDrop,
        readShapes_widthsAll hUnit (level + 1) children, readShapes_widthsAll hUnit level shapes]

end Reading

end DepthShapes
