import Mathlib.Data.List.DropRight
import Mathlib.Data.List.Forall2
import Mathlib.Data.List.SplitBy
import Mathlib.Data.List.TakeWhile

/-! Lists cut into sections at marked elements, and lists of sections cut into runs of
neighbours that are alike. -/
namespace Sections

variable {α : Type*}

structure Section (α : Type*) where
  heading : α
  body : List α
  deriving DecidableEq

def Section.all (s : Section α) : List α := s.heading :: s.body

/-- What stands before the first marked element, and a section for each marked element. -/
def cut (p : α → Bool) : List α → List α × List (Section α)
  | [] => ([], [])
  | x :: xs =>
      if p x then ([], ⟨x, (cut p xs).1⟩ :: (cut p xs).2) else (x :: (cut p xs).1, (cut p xs).2)

variable {p : α → Bool} {x : α} {xs ys lead : List α} {secs : List (Section α)}

theorem cut_cons_of_pos (h : p x = true) :
    cut p (x :: xs) = ([], ⟨x, (cut p xs).1⟩ :: (cut p xs).2) := by
  rw [cut, if_pos h]

theorem cut_cons_of_neg (h : p x = false) :
    cut p (x :: xs) = (x :: (cut p xs).1, (cut p xs).2) := by
  rw [cut, if_neg (by simp [h])]

theorem cut_join : (cut p xs).1 ++ (cut p xs).2.flatMap Section.all = xs := by
  induction xs with
  | nil => rfl
  | cons x xs ih =>
      cases h : p x with
      | true =>
          rw [cut_cons_of_pos h]
          simpa [Section.all] using ih
      | false =>
          rw [cut_cons_of_neg h]
          simpa using ih

/-- A section begins with a marked element and has no other. -/
def WellCut (p : α → Bool) (s : Section α) : Prop :=
  p s.heading = true ∧ ∀ x ∈ s.body, p x = false

theorem cut_append_of_neg (h : ∀ x ∈ xs, p x = false) :
    cut p (xs ++ ys) = (xs ++ (cut p ys).1, (cut p ys).2) := by
  induction xs with
  | nil => rfl
  | cons x xs ih =>
      rw [List.cons_append, cut_cons_of_neg (h x List.mem_cons_self),
        ih fun y hy => h y (List.mem_cons_of_mem _ hy), List.cons_append]

/-- Elements that begin with a marked one add their sections to those before. -/
theorem cut_append (h : (cut p ys).1 = []) :
    cut p (xs ++ ys) = ((cut p xs).1, (cut p xs).2 ++ (cut p ys).2) := by
  induction xs with
  | nil => exact Prod.ext h rfl
  | cons x xs ih =>
      cases hx : p x with
      | true => rw [List.cons_append, cut_cons_of_pos hx, ih, cut_cons_of_pos hx, List.cons_append]
      | false => rw [List.cons_append, cut_cons_of_neg hx, ih, cut_cons_of_neg hx]

/-- The sections of a list are the only way to write it with one section for each marked
element. -/
theorem cut_of_wellCut (hLead : ∀ x ∈ lead, p x = false) (hSecs : ∀ s ∈ secs, WellCut p s) :
    cut p (lead ++ secs.flatMap Section.all) = (lead, secs) := by
  rw [cut_append_of_neg hLead]
  suffices hCut : cut p (secs.flatMap Section.all) = ([], secs) by
    rw [hCut, List.append_nil]
  induction secs with
  | nil => rfl
  | cons s secs ih =>
      have hFirst := hSecs s List.mem_cons_self
      rw [List.flatMap_cons, Section.all, List.cons_append, cut_cons_of_pos hFirst.1,
        cut_append_of_neg hFirst.2, ih fun t ht => hSecs t (List.mem_cons_of_mem _ ht),
        List.append_nil]

theorem wellCut_cut : (∀ x ∈ (cut p xs).1, p x = false) ∧ ∀ s ∈ (cut p xs).2, WellCut p s := by
  induction xs with
  | nil => simp [cut]
  | cons x xs ih =>
      cases h : p x with
      | true =>
          rw [cut_cons_of_pos h]
          refine ⟨by simp, fun s hs => ?_⟩
          cases List.mem_cons.mp hs with
          | inl hFirst =>
              subst hFirst
              exact ⟨h, ih.1⟩
          | inr hRest => exact ih.2 s hRest
      | false =>
          rw [cut_cons_of_neg h]
          refine ⟨fun y hy => ?_, ih.2⟩
          cases List.mem_cons.mp hy with
          | inl hFirst => rw [hFirst, h]
          | inr hRest => exact ih.1 y hRest

section Replacing

variable {f : α → List α}

/-- The section with each of its elements replaced. -/
def Section.flatMap (f : α → List α) (s : Section α) : Section α :=
  ⟨(f s.heading).headD s.heading, (f s.heading).tail ++ s.body.flatMap f⟩

/-- A replacement that keeps a marked element marked, and marks nothing else. -/
def KeepsMarks (p : α → Bool) (f : α → List α) (x : α) : Prop :=
  if p x then ∃ y ys, f x = y :: ys ∧ p y = true ∧ ∀ z ∈ ys, p z = false
  else ∀ z ∈ f x, p z = false

theorem cut_flatMap (h : ∀ x ∈ xs, KeepsMarks p f x) :
    cut p (xs.flatMap f) = ((cut p xs).1.flatMap f, (cut p xs).2.map (Section.flatMap f)) := by
  induction xs with
  | nil => rfl
  | cons x xs ih =>
      have hRest := ih fun y hy => h y (List.mem_cons_of_mem _ hy)
      have hFirst := h x List.mem_cons_self
      rw [List.flatMap_cons]
      cases hx : p x with
      | true =>
          rw [KeepsMarks, if_pos hx] at hFirst
          obtain ⟨y, ys, hEq, hMarked, hFree⟩ := hFirst
          rw [hEq, List.cons_append, cut_cons_of_pos hMarked, cut_append_of_neg hFree, hRest,
            cut_cons_of_pos hx, List.map_cons, Section.flatMap, hEq]
          rfl
      | false =>
          rw [KeepsMarks, if_neg (by simp [hx])] at hFirst
          rw [cut_append_of_neg hFirst, hRest, cut_cons_of_neg hx, List.flatMap_cons]

theorem Section.all_flatMap {s : Section α} (h : f s.heading ≠ []) :
    (s.flatMap f).all = s.all.flatMap f := by
  cases hEq : f s.heading with
  | nil => exact absurd hEq h
  | cons y ys => simp [Section.all, Section.flatMap, hEq]

theorem Section.wellCut_flatMap {s : Section α} (hWell : WellCut p s)
    (h : ∀ x ∈ s.all, KeepsMarks p f x) : WellCut p (s.flatMap f) := by
  have hHead := h s.heading List.mem_cons_self
  rw [KeepsMarks, if_pos hWell.1] at hHead
  obtain ⟨y, ys, hEq, hMarked, hFree⟩ := hHead
  rw [Section.flatMap, hEq]
  refine ⟨hMarked, fun z hz => ?_⟩
  cases List.mem_append.mp hz with
  | inl hExtra => exact hFree z hExtra
  | inr hBody =>
      obtain ⟨x, hx, hz⟩ := List.mem_flatMap.mp hBody
      have hKeeps := h x (List.mem_cons_of_mem _ hx)
      rw [KeepsMarks, if_neg (by simp [hWell.2 x hx])] at hKeeps
      exact hKeeps z hz

/-- The sections with `xs` put at the end of the last one. -/
def addToLast (xs : List α) : List (Section α) → List (Section α)
  | [] => []
  | [s] => [⟨s.heading, s.body ++ xs⟩]
  | s :: t :: secs => s :: addToLast xs (t :: secs)

theorem flatMap_all_addToLast (h : secs ≠ []) :
    (addToLast xs secs).flatMap Section.all = secs.flatMap Section.all ++ xs := by
  induction secs with
  | nil => exact absurd rfl h
  | cons s secs ih =>
      cases secs with
      | nil => simp [addToLast, Section.all]
      | cons t secs =>
          rw [addToLast, List.flatMap_cons, ih (List.cons_ne_nil _ _), ← List.append_assoc,
            ← List.flatMap_cons]

end Replacing

section Runs

variable {q : α → Bool}

/-- Neighbours that are all `q` make one run. Every other element is a run of its own. -/
def runs (q : α → Bool) (xs : List α) : List (List α) := xs.splitBy fun x y => q x && q y

theorem runs_cons_of_neg (h : q x = false) : runs q (x :: xs) = [x] :: runs q xs := by
  rw [runs, ← List.singleton_append, List.splitBy_append (by simp [h]),
    List.splitBy_of_isChain (by simp) (List.isChain_singleton x)]
  rfl

theorem runs_of_all (hne : xs ≠ []) (h : ∀ x ∈ xs, q x = true) : runs q xs = [xs] := by
  apply List.splitBy_of_isChain hne
  apply List.Pairwise.isChain
  apply List.pairwise_of_forall_mem_list
  intro x hx y hy
  rw [h x hx, h y hy]
  rfl

theorem runs_cons_of_pos (h : q x = true) :
    runs q (x :: xs) = (x :: xs.takeWhile q) :: runs q (xs.dropWhile q) := by
  have hAll : ∀ y ∈ x :: xs.takeWhile q, q y = true := by
    intro y hy
    cases List.mem_cons.mp hy with
    | inl hFirst => rw [hFirst, h]
    | inr hRest => exact List.mem_takeWhile_imp hRest
  have hLast : ∀ y ∈ (x :: xs.takeWhile q).getLast?, ∀ z ∈ (xs.dropWhile q).head?,
      (q y && q z) = false := by
    intro y _ z hz
    have hStop := List.head?_dropWhile_not q xs
    rw [Option.mem_def.mp hz] at hStop
    rw [hStop, Bool.and_false]
  have hSplit := List.splitBy_append hLast
  rw [List.cons_append, List.takeWhile_append_dropWhile] at hSplit
  rw [runs, hSplit]
  exact congrArg (· ++ _) (runs_of_all (List.cons_ne_nil _ _) hAll)

theorem all_of_isChain {y : α} (h : (x :: y :: ys).IsChain fun x y => (q x && q y) = true) :
    ∀ z ∈ x :: y :: ys, q z = true := by
  induction ys generalizing x y with
  | nil => simpa using h
  | cons w ys ih =>
      have hFirst := List.isChain_cons_cons.mp h
      intro z hz
      cases List.mem_cons.mp hz with
      | inl hHere =>
          rw [hHere]
          exact (Bool.and_eq_true_iff.mp hFirst.1).1
      | inr hThere => exact ih hFirst.2 z hThere

/-- A run is a single element that is not `q`, or all `q`. -/
theorem mem_runs (h : ys ∈ runs q xs) :
    (∃ x, ys = [x] ∧ q x = false) ∨ ys ≠ [] ∧ ∀ x ∈ ys, q x = true := by
  have hChain := List.isChain_of_mem_splitBy h
  match ys, List.ne_nil_of_mem_splitBy h with
  | [x], hne =>
      cases hq : q x with
      | false => exact Or.inl ⟨x, rfl, hq⟩
      | true => exact Or.inr ⟨hne, by simpa using hq⟩
  | x :: y :: ys, hne => exact Or.inr ⟨hne, all_of_isChain hChain⟩

theorem isChain_and_iff {zs : List α} (h : zs.map q = xs.map q) :
    (zs.IsChain fun x y => (q x && q y) = true) ↔
      xs.IsChain fun x y => (q x && q y) = true := by
  rw [← List.isChain_map (R := fun a b : Bool => (a && b) = true) q, h, List.isChain_map]

/-- Runs whose elements are replaced by elements of the same kind are the runs of what they
make together. -/
theorem runs_flatMap {F : List α → List α}
    (h : ∀ run ∈ runs q xs, (F run).map q = run.map q) :
    runs q ((runs q xs).flatMap F) = (runs q xs).map F := by
  have hLength : ∀ run ∈ runs q xs, (F run).length = run.length := by
    intro run hRun
    simpa using congrArg List.length (h run hRun)
  rw [runs, List.splitBy_eq_iff]
  refine ⟨List.flatMap_def, ?_, ?_, ?_⟩
  · intro hNil
    obtain ⟨run, hRun, hEmpty⟩ := List.mem_map.mp hNil
    have := hLength run hRun
    rw [hEmpty, List.length_nil] at this
    exact List.ne_nil_of_mem_splitBy hRun (List.length_eq_zero_iff.mp this.symm)
  · intro zs hMem
    obtain ⟨run, hRun, rfl⟩ := List.mem_map.mp hMem
    exact (isChain_and_iff (h run hRun)).mpr (List.isChain_of_mem_splitBy hRun)
  · rw [List.isChain_map]
    apply (List.isChain_getLast_head_splitBy _ xs).imp_of_mem_imp
    intro first second hFirst hSecond hApart
    obtain ⟨hne, hne', hEnd⟩ := hApart
    have hFirstNe : F first ≠ [] := by
      rw [← List.length_pos_iff, hLength first hFirst]
      exact List.length_pos_iff.mpr hne
    have hSecondNe : F second ≠ [] := by
      rw [← List.length_pos_iff, hLength second hSecond]
      exact List.length_pos_iff.mpr hne'
    refine ⟨hFirstNe, hSecondNe, ?_⟩
    have hLast : q ((F first).getLast hFirstNe) = q (first.getLast hne) := by
      have hSame := congrArg List.getLast? (h first hFirst)
      rw [List.getLast?_map, List.getLast?_map, List.getLast?_eq_some_getLast hFirstNe,
        List.getLast?_eq_some_getLast hne] at hSame
      exact Option.some.inj hSame
    have hHead : q ((F second).head hSecondNe) = q (second.head hne') := by
      have hSame := congrArg List.head? (h second hSecond)
      rw [List.head?_map, List.head?_map, List.head?_eq_some_head hSecondNe,
        List.head?_eq_some_head hne'] at hSame
      exact Option.some.inj hSame
    rw [hLast, hHead, hEnd]

theorem rdropWhile_append_rtakeWhile : xs.rdropWhile q ++ xs.rtakeWhile q = xs := by
  rw [List.rdropWhile, List.rtakeWhile, ← List.reverse_append, List.takeWhile_append_dropWhile,
    List.reverse_reverse]

theorem runs_rdropWhile_append :
    runs q (xs.rdropWhile q ++ ys) = runs q (xs.rdropWhile q) ++ runs q ys := by
  apply List.splitBy_append
  intro y hy z _
  obtain ⟨init, hEq⟩ := List.getLast?_eq_some_iff.mp hy
  have hne : xs.rdropWhile q ≠ [] := by simp [hEq]
  have hNot := List.rdropWhile_last_not q xs hne
  simp only [hEq, List.getLast_append_singleton, Bool.not_eq_true] at hNot
  rw [hNot, Bool.false_and]

/-- An element that is `q` joins the elements at the end of the list that are. -/
theorem runs_concat (h : q x = true) :
    runs q (xs ++ [x]) = runs q (xs.rdropWhile q) ++ [xs.rtakeWhile q ++ [x]] := by
  have hAll : ∀ y ∈ xs.rtakeWhile q ++ [x], q y = true := by
    intro y hy
    cases List.mem_append.mp hy with
    | inl hTaken => exact List.mem_rtakeWhile_imp hTaken
    | inr hLast => rw [List.mem_singleton.mp hLast, h]
  rw [← runs_of_all (by simp) hAll, ← runs_rdropWhile_append, ← List.append_assoc,
    rdropWhile_append_rtakeWhile]

theorem mem_runs_of_rdropWhile (h : ys ∈ runs q (xs.rdropWhile q)) : ys ∈ runs q xs := by
  have hSplit : runs q xs = runs q (xs.rdropWhile q) ++ runs q (xs.rtakeWhile q) := by
    rw [← runs_rdropWhile_append, rdropWhile_append_rtakeWhile]
  rw [hSplit]
  exact List.mem_append_left _ h

theorem forall₂_flatMap {R : α → α → Prop} {F : List α → List α} {rs : List (List α)}
    (hLength : ∀ run ∈ rs, (F run).length = run.length) :
    List.Forall₂ R rs.flatten (rs.flatMap F) ↔ ∀ run ∈ rs, List.Forall₂ R run (F run) := by
  induction rs with
  | nil => simp
  | cons run rs ih =>
      have hFirst := hLength run List.mem_cons_self
      rw [List.flatten_cons, List.flatMap_cons, List.forall_mem_cons,
        ← ih fun r hr => hLength r (List.mem_cons_of_mem _ hr)]
      constructor
      · intro h
        have hTake := List.forall₂_take run.length h
        have hDrop := List.forall₂_drop run.length h
        rw [List.take_left, ← hFirst, List.take_left] at hTake
        rw [List.drop_left, ← hFirst, List.drop_left] at hDrop
        exact ⟨hTake, hDrop⟩
      · intro h
        exact List.rel_append h.1 h.2

end Runs

end Sections
