import Mathlib.Data.List.Infix
import Mathlib.Data.List.Nodup
import Mathlib.Logic.Relation

/-! Forests that are given by records with an identifier and the identifier of a
parent: the depth-first preorder, and the lists that are one. -/
namespace Forest

variable {α ι : Type*}

/-- The first `n` levels below `a` in depth-first preorder. -/
def preorder (children : α → List α) : ℕ → α → List α
  | 0, _ => []
  | n + 1, a => a :: (children a).flatMap (preorder children n)

variable (ident : α → ι) (parent : α → Option ι)

/-- The list is the preorder of a forest whose roots have this parent. -/
inductive IsPreorder : Option ι → List α → Prop
  | nil (p : Option ι) : IsPreorder p []
  | cons {a : α} {below rest : List α} (hBelow : IsPreorder (some (ident a)) below)
      (hRest : IsPreorder (parent a) rest) : IsPreorder (parent a) (a :: (below ++ rest))

/-- One record is below another in the records of a list. -/
def Below (l : List α) : α → α → Prop :=
  Relation.ReflTransGen fun b a => b ∈ l ∧ parent b = some (ident a)

variable {ident parent}

namespace IsPreorder

theorem append {p : Option ι} {l l' : List α} (h : IsPreorder ident parent p l)
    (h' : IsPreorder ident parent p l') : IsPreorder ident parent p (l ++ l') := by
  induction h with
  | nil p => exact h'
  | cons hBelow hRest _ ihRest =>
      rw [List.cons_append, List.append_assoc]
      exact .cons hBelow (ihRest h')

/-- The preorder below records with one parent is a preorder. -/
theorem flatMap_preorder {children : α → List α}
    (hChildren : ∀ a, ∀ b ∈ children a, parent b = some (ident a)) :
    ∀ (n : ℕ) (p : Option ι) (roots : List α), (∀ a ∈ roots, parent a = p) →
      IsPreorder ident parent p (roots.flatMap (preorder children n))
  | n, p, [], _ => .nil p
  | 0, p, a :: roots, hRoots => by
      have hRest := flatMap_preorder hChildren 0 p roots fun b hB =>
        hRoots b (List.mem_cons_of_mem _ hB)
      rwa [List.flatMap_cons, preorder, List.nil_append]
  | n + 1, p, a :: roots, hRoots => by
      have hRest := flatMap_preorder hChildren (n + 1) p roots fun b hB =>
        hRoots b (List.mem_cons_of_mem _ hB)
      have hBelow := flatMap_preorder hChildren n _ (children a) (hChildren a)
      rw [← hRoots a List.mem_cons_self] at hRest ⊢
      rw [List.flatMap_cons, preorder, List.cons_append]
      exact .cons hBelow hRest

/-- A record of the list has its parent in the list, or is a root. -/
theorem parent_eq_or {p : Option ι} {l : List α} (h : IsPreorder ident parent p l) :
    ∀ a ∈ l, parent a = p ∨ ∃ b ∈ l, parent a = some (ident b) := by
  induction h with
  | nil p =>
      intro a hA
      cases hA
  | @cons a below rest _ _ ihBelow ihRest =>
      intro b hB
      rcases List.mem_cons.mp hB with rfl | hB
      · exact Or.inl rfl
      rcases List.mem_append.mp hB with hB | hB
      · rcases ihBelow b hB with hRoot | ⟨c, hC, hParent⟩
        · exact Or.inr ⟨a, List.mem_cons_self, hRoot⟩
        · exact Or.inr ⟨c, List.mem_cons_of_mem _ (List.mem_append_left _ hC), hParent⟩
      · rcases ihRest b hB with hRoot | ⟨c, hC, hParent⟩
        · exact Or.inl hRoot
        · exact Or.inr ⟨c, List.mem_cons_of_mem _ (List.mem_append_right _ hC), hParent⟩

end IsPreorder

/-- The parts of a preorder have identifiers of their own. -/
theorem nodup_parts {a : α} {below rest : List α}
    (h : ((a :: (below ++ rest)).map ident).Nodup) :
    (∀ b ∈ below, ident b ≠ ident a) ∧ (∀ b ∈ rest, ident b ≠ ident a) ∧
      (∀ b ∈ below, ∀ c ∈ rest, ident b ≠ ident c) ∧
        (below.map ident).Nodup ∧ (rest.map ident).Nodup := by
  simp only [List.map_cons, List.map_append, List.nodup_cons, List.nodup_append, List.mem_append,
    List.mem_map, not_or, not_exists, not_and] at h
  obtain ⟨⟨hBelow, hRest⟩, hNodup, hNodup', hDisjoint⟩ := h
  refine ⟨hBelow, hRest, ?_, hNodup, hNodup'⟩
  intro b hB c hC
  exact hDisjoint _ ⟨b, hB, rfl⟩ _ ⟨c, hC, rfl⟩

namespace IsPreorder

/-- All of a preorder hangs from the record that its roots have as their parent. -/
theorem forall_below {c : α} {p : Option ι} {l : List α} (h : IsPreorder ident parent p l) {all : List α}
    (hAll : ∀ a ∈ l, a ∈ all) (hRoot : p = some (ident c)) :
    ∀ b ∈ l, Below ident parent all b c := by
  induction h generalizing c with
  | nil p =>
      intro b hB
      cases hB
  | @cons a below rest _ _ ihBelow ihRest =>
      have hSelf : Below ident parent all a c := .single ⟨hAll a List.mem_cons_self, hRoot⟩
      intro b hB
      rcases List.mem_cons.mp hB with rfl | hB
      · exact hSelf
      rcases List.mem_append.mp hB with hB | hB
      · apply Relation.ReflTransGen.trans _ hSelf
        apply ihBelow _ rfl b hB
        exact fun d hD => hAll d (List.mem_cons_of_mem _ (List.mem_append_left _ hD))
      · apply ihRest _ hRoot b hB
        exact fun d hD => hAll d (List.mem_cons_of_mem _ (List.mem_append_right _ hD))

/-- The part of a preorder below one of its records is a run of it, from which
no other record hangs. -/
theorem exists_run {p : Option ι} {l : List α} (h : IsPreorder ident parent p l)
    (hNodup : (l.map ident).Nodup) (hRoot : ∀ a ∈ l, p ≠ some (ident a)) {a : α} (hA : a ∈ l) :
    ∃ below, IsPreorder ident parent (some (ident a)) below ∧ a :: below <:+: l ∧
      ∀ b ∈ l, ∀ c ∈ a :: below, parent b = some (ident c) → b ∈ a :: below := by
  induction h with
  | nil p => cases hA
  | @cons x below rest hBelow hRest ihBelow ihRest =>
      obtain ⟨hNeBelow, hNeRest, hDisjoint, hNodupBelow, hNodupRest⟩ := nodup_parts hNodup
      have hRootRest (b : α) (hB : b ∈ rest) : parent x ≠ some (ident b) :=
        hRoot b (List.mem_cons_of_mem _ (List.mem_append_right _ hB))
      have hNotFirst {b c : α} (hEq : b = x) (hC : c ∈ x :: (below ++ rest))
          (hParent : parent b = some (ident c)) : False := by
        rw [hEq] at hParent
        exact hRoot c hC hParent
      -- What hangs from the first record or below it is not in the rest.
      have hNotRest {b c : α} (hB : b ∈ rest) (hC : c ∈ x :: below)
          (hParent : parent b = some (ident c)) : False := by
        rcases hRest.parent_eq_or b hB with hEq | ⟨d, hD, hEq⟩
        · rw [hEq] at hParent
          apply hRoot c _ hParent
          exact List.mem_append_left rest hC
        · have hIdent := Option.some.inj (hEq.symm.trans hParent)
          rcases List.mem_cons.mp hC with rfl | hC
          · exact hNeRest d hD hIdent
          · exact hDisjoint c hC d hD hIdent.symm
      have hNotBelow {b c : α} (hB : b ∈ below) (hC : c ∈ rest)
          (hParent : parent b = some (ident c)) : False := by
        rcases hBelow.parent_eq_or b hB with hEq | ⟨d, hD, hEq⟩
        · exact hNeRest c hC (Option.some.inj (hParent.symm.trans hEq))
        · exact hDisjoint d hD c hC (Option.some.inj (hEq.symm.trans hParent))
      rcases List.mem_cons.mp hA with rfl | hA
      · refine ⟨below, hBelow, ⟨[], rest, rfl⟩, ?_⟩
        intro b hB c hC hParent
        rcases List.mem_append.mp (show b ∈ (a :: below) ++ rest from hB) with hB | hB
        · exact hB
        · exact (hNotRest hB hC hParent).elim
      rcases List.mem_append.mp hA with hA | hA
      · have hRootBelow (b : α) (hB : b ∈ below) : some (ident x) ≠ some (ident b) := by
          simpa using (hNeBelow b hB).symm
        obtain ⟨run, hRun, hInfix, hClosed⟩ := ihBelow hNodupBelow hRootBelow hA
        refine ⟨run, hRun, hInfix.trans ⟨[x], rest, by simp⟩, ?_⟩
        intro b hB c hC hParent
        have hC' := hInfix.subset hC
        rcases List.mem_cons.mp hB with hEq | hB
        · exact (hNotFirst hEq (List.mem_cons_of_mem _ (List.mem_append_left _ hC')) hParent).elim
        rcases List.mem_append.mp hB with hB | hB
        · exact hClosed b hB c hC hParent
        · exact (hNotRest hB (List.mem_cons_of_mem _ hC') hParent).elim
      · obtain ⟨run, hRun, hInfix, hClosed⟩ := ihRest hNodupRest hRootRest hA
        refine ⟨run, hRun, hInfix.trans ⟨x :: below, [], by simp⟩, ?_⟩
        intro b hB c hC hParent
        have hC' := hInfix.subset hC
        rcases List.mem_cons.mp hB with hEq | hB
        · exact (hNotFirst hEq (List.mem_cons_of_mem _ (List.mem_append_right _ hC')) hParent).elim
        rcases List.mem_append.mp hB with hB | hB
        · exact (hNotBelow hB hC' hParent).elim
        · exact hClosed b hB c hC hParent

/-- The records at and below one of a preorder are a contiguous run of it. -/
theorem exists_infix_iff_below {p : Option ι} {l : List α} (h : IsPreorder ident parent p l)
    (hNodup : (l.map ident).Nodup) (hRoot : ∀ a ∈ l, p ≠ some (ident a)) {a : α} (hA : a ∈ l) :
    ∃ run, run <:+: l ∧ ∀ b, b ∈ run ↔ Below ident parent l b a := by
  obtain ⟨below, hBelow, hInfix, hClosed⟩ := h.exists_run hNodup hRoot hA
  refine ⟨a :: below, hInfix, ?_⟩
  intro b
  constructor
  · intro hRun
    rcases List.mem_cons.mp hRun with rfl | hRun
    · exact .refl
    · exact hBelow.forall_below (fun c hC => hInfix.subset (List.mem_cons_of_mem _ hC)) rfl b hRun
  · intro hChain
    induction hChain using Relation.ReflTransGen.head_induction_on with
    | refl => exact List.mem_cons_self
    | head hStep _ ih => exact hClosed _ hStep.1 _ ih hStep.2

end IsPreorder

variable (ident parent) in
/-- The list goes on below each of the open ancestors, from the innermost outwards. -/
def Continues : List ι → List α → Prop
  | [], l => IsPreorder ident parent none l
  | i :: ancestors, l => ∃ below rest, l = below ++ rest ∧
      IsPreorder ident parent (some i) below ∧ Continues ancestors rest

theorem continues_of_roots {l : List α} (h : IsPreorder ident parent none l) :
    ∀ ancestors : List ι, Continues ident parent ancestors l
  | [] => h
  | _ :: ancestors => ⟨[], l, rfl, .nil _, continues_of_roots h ancestors⟩

theorem continues_of_dropWhile {f : ι → Bool} {l : List α} :
    ∀ {ancestors : List ι}, Continues ident parent (ancestors.dropWhile f) l →
      Continues ident parent ancestors l
  | [], h => h
  | i :: ancestors, h => by
      rw [List.dropWhile_cons] at h
      split at h
      next hDrop => exact ⟨[], l, rfl, .nil _, continues_of_dropWhile h⟩
      next hKeep => exact h

variable [DecidableEq ι]

variable (parent) in
/-- The records with a given parent, as they stand in the list. -/
def siblings (l : List α) (p : Option ι) : List α := l.filter fun a => parent a = p

theorem mem_siblings {l : List α} {p : Option ι} {a : α} :
    a ∈ siblings parent l p ↔ a ∈ l ∧ parent a = p := by
  simp [siblings]

theorem siblings_eq_nil {l : List α} {p : Option ι} (h : ∀ a ∈ l, parent a ≠ p) :
    siblings parent l p = [] := by
  rw [siblings, List.filter_eq_nil_iff]
  simpa using h

@[simp] theorem siblings_append (l l' : List α) (p : Option ι) :
    siblings parent (l ++ l') p = siblings parent l p ++ siblings parent l' p :=
  List.filter_append ..

theorem siblings_cons_of_eq {a : α} (l : List α) {p : Option ι} (h : parent a = p) :
    siblings parent (a :: l) p = a :: siblings parent l p := by
  simp [siblings, h]

theorem siblings_cons_of_ne {a : α} (l : List α) {p : Option ι} (h : parent a ≠ p) :
    siblings parent (a :: l) p = siblings parent l p := by
  simp [siblings, h]

namespace IsPreorder

/-- Nothing of a preorder hangs from a record that is neither in it nor its parent. -/
theorem siblings_eq_nil {p q : Option ι} {l : List α} (h : IsPreorder ident parent p l)
    (hRoot : p ≠ q) (hInside : ∀ a ∈ l, q ≠ some (ident a)) : siblings parent l q = [] := by
  apply Forest.siblings_eq_nil
  intro a hA hParent
  rcases h.parent_eq_or a hA with hEq | ⟨b, hB, hEq⟩
  · exact hRoot (hEq.symm.trans hParent)
  · exact hInside b hB (hParent.symm.trans hEq)

/-- A preorder is read off the parents of its records. -/
theorem eq_flatMap_preorder {p : Option ι} {l : List α} (h : IsPreorder ident parent p l)
    {children : α → List α} {n : ℕ} (hNodup : (l.map ident).Nodup)
    (hRoot : ∀ a ∈ l, p ≠ some (ident a))
    (hChildren : ∀ a ∈ l, children a = siblings parent l (some (ident a))) (hLength : l.length ≤ n) :
    l = (siblings parent l p).flatMap (preorder children n) := by
  induction h generalizing n with
  | nil p => rfl
  | @cons a below rest hBelow hRest ihBelow ihRest =>
      obtain ⟨hNeBelow, hNeRest, hDisjoint, hNodupBelow, hNodupRest⟩ := nodup_parts hNodup
      have hRootBelow (b : α) (hB : b ∈ below) : parent a ≠ some (ident b) :=
        hRoot b (List.mem_cons_of_mem _ (List.mem_append_left _ hB))
      have hRootRest (b : α) (hB : b ∈ rest) : parent a ≠ some (ident b) :=
        hRoot b (List.mem_cons_of_mem _ (List.mem_append_right _ hB))
      have hRootSelf : parent a ≠ some (ident a) := hRoot a List.mem_cons_self
      have hOf (i : ι) : some (ident a) ≠ some i ↔ i ≠ ident a := by
        rw [ne_eq, Option.some.injEq, eq_comm]
      -- The records that hang from each record are in its own part.
      have hSelf : children a = siblings parent below (some (ident a)) := by
        rw [hChildren a List.mem_cons_self, siblings_cons_of_ne _ hRootSelf, siblings_append,
          hRest.siblings_eq_nil hRootSelf fun b hB => (hOf _).mpr (hNeRest b hB),
          List.append_nil]
      have hOfBelow (b : α) (hB : b ∈ below) :
          children b = siblings parent below (some (ident b)) := by
        rw [hChildren b (List.mem_cons_of_mem _ (List.mem_append_left _ hB)),
          siblings_cons_of_ne _ (hRootBelow b hB), siblings_append,
          hRest.siblings_eq_nil (hRootBelow b hB), List.append_nil]
        intro c hC hEq
        exact hDisjoint b hB c hC (Option.some.inj hEq)
      have hOfRest (b : α) (hB : b ∈ rest) :
          children b = siblings parent rest (some (ident b)) := by
        rw [hChildren b (List.mem_cons_of_mem _ (List.mem_append_right _ hB)),
          siblings_cons_of_ne _ (hRootRest b hB), siblings_append,
          hBelow.siblings_eq_nil ((hOf _).mpr (hNeRest b hB)), List.nil_append]
        intro c hC hEq
        exact hDisjoint c hC b hB (Option.some.inj hEq.symm)
      have hRoots : siblings parent (a :: (below ++ rest)) (parent a) =
          a :: siblings parent rest (parent a) := by
        rw [siblings_cons_of_eq _ rfl, siblings_append,
          hBelow.siblings_eq_nil hRootSelf.symm hRootBelow, List.nil_append]
      rw [List.length_cons, List.length_append] at hLength
      cases n with
      | zero => omega
      | succ n =>
          have hBelowEq := ihBelow (n := n) hNodupBelow
            (fun b hB => (hOf _).mpr (hNeBelow b hB)) hOfBelow (by omega)
          have hRestEq := ihRest (n := n + 1) hNodupRest hRootRest hOfRest (by omega)
          rw [hRoots, List.flatMap_cons, preorder, hSelf, ← hBelowEq, ← hRestEq, List.cons_append]

end IsPreorder

/-- The ancestors that are open after a record: those above its parent are closed.
There is no result when the parent is not open. -/
def attach (ancestors : List ι) (p : Option ι) (i : ι) : Option (List ι) :=
  match p with
  | none => some [i]
  | some q =>
      match ancestors.dropWhile (· ≠ q) with
      | [] => none
      | kept => some (i :: kept)

variable (ident parent) in
def attachAll (ancestors : List ι) : List α → Option (List ι)
  | [] => some ancestors
  | a :: l =>
      match attach ancestors (parent a) (ident a) with
      | none => none
      | some next => attachAll next l

theorem continues_of_attachAll {l : List α} : ∀ {ancestors last : List ι},
    attachAll ident parent ancestors l = some last → Continues ident parent ancestors l := by
  induction l with
  | nil =>
      intro ancestors last _
      exact continues_of_roots (.nil none) ancestors
  | cons a l ih =>
      intro ancestors last hAll
      rw [attachAll] at hAll
      split at hAll
      next => cases hAll
      next next hAttach =>
        have hNext := ih hAll
        cases hParent : parent a with
        | none =>
            rw [hParent, attach] at hAttach
            cases hAttach
            obtain ⟨below, rest, rfl, hBelow, hRest⟩ := hNext
            apply continues_of_roots
            rw [← hParent]
            exact .cons hBelow (hParent ▸ hRest)
        | some q =>
            rw [hParent, attach] at hAttach
            split at hAttach
            next => cases hAttach
            next kept hKept =>
              cases hAttach
              obtain ⟨below, _, rfl, hBelow, hOuter⟩ := hNext
              apply continues_of_dropWhile (f := (· ≠ q))
              cases hDrop : ancestors.dropWhile (· ≠ q) with
              | nil => exact absurd hDrop hKept
              | cons i kept =>
                  have hHead : i = q := by
                    have hNot := List.head?_dropWhile_not (· ≠ q) ancestors
                    rw [hDrop] at hNot
                    simpa using hNot
                  rw [hDrop] at hOuter
                  obtain ⟨after, rest, rfl, hAfter, hRest⟩ := hOuter
                  refine ⟨a :: (below ++ after), rest, by simp, ?_, hRest⟩
                  rw [hHead] at hAfter ⊢
                  rw [← hParent] at hAfter ⊢
                  exact .cons hBelow hAfter

theorem attach_of_mem {before ancestors : List ι} {q : ι} (i : ι) (h : q ∉ before) :
    attach (before ++ q :: ancestors) (some q) i = some (i :: q :: ancestors) := by
  have hDrop : (before ++ q :: ancestors).dropWhile (· ≠ q) = q :: ancestors := by
    rw [List.dropWhile_append_of_pos]
    · simp
    · intro j hJ
      have hNe : j ≠ q := fun hEq => h (hEq ▸ hJ)
      simpa using hNe
  rw [attach, hDrop]

theorem attachAll_append {l l' : List α} : ∀ {ancestors next : List ι},
    attachAll ident parent ancestors l = some next →
      attachAll ident parent ancestors (l ++ l') = attachAll ident parent next l' := by
  induction l with
  | nil =>
      intro ancestors next h
      cases h
      rfl
  | cons a l ih =>
      intro ancestors next h
      rw [attachAll] at h
      rw [List.cons_append, attachAll]
      split at h
      next => cases h
      next => exact ih h

/-- The records of a preorder are attached one after the other, and what was open
below its roots is open again after them. -/
theorem IsPreorder.attachAll {p : Option ι} {l : List α} (h : IsPreorder ident parent p l)
    (hNodup : (l.map ident).Nodup) (hRoot : ∀ a ∈ l, p ≠ some (ident a)) :
    (∀ q, p = some q → ∀ before ancestors : List ι, q ∉ before →
      ∃ opened, attachAll ident parent (before ++ q :: ancestors) l =
          some (opened ++ q :: ancestors) ∧
        ∀ i ∈ opened, i ∈ before ∨ ∃ a ∈ l, ident a = i) ∧
      (p = none → ∀ ancestors, ∃ last, attachAll ident parent ancestors l = some last) := by
  induction h with
  | nil p =>
      constructor
      · rintro q - before ancestors -
        exact ⟨before, rfl, fun i hI => Or.inl hI⟩
      · rintro - ancestors
        exact ⟨ancestors, rfl⟩
  | @cons a below rest hBelow hRest ihBelow ihRest =>
      obtain ⟨hNeBelow, hNeRest, -, hNodupBelow, hNodupRest⟩ := nodup_parts hNodup
      have hBelowRun := (ihBelow hNodupBelow fun b hB => by
        simpa using (hNeBelow b hB).symm).1 _ rfl []
      have hRestRun := ihRest hNodupRest fun b hB =>
        hRoot b (List.mem_cons_of_mem _ (List.mem_append_right _ hB))
      constructor
      · intro q hParent before ancestors hBefore
        obtain ⟨opened, hOpened, hMem⟩ := hBelowRun (q :: ancestors) List.not_mem_nil
        have hNeOf (b : α) (hB : b ∈ a :: (below ++ rest)) : q ≠ ident b := by
          have hNe := hRoot b hB
          rw [hParent] at hNe
          simpa using hNe
        have hNotOpened : q ∉ opened ++ [ident a] := by
          intro hQ
          rcases List.mem_append.mp hQ with hQ | hQ
          · rcases hMem q hQ with hNil | ⟨b, hB, hEq⟩
            · cases hNil
            · exact hNeOf b (List.mem_cons_of_mem _ (List.mem_append_left _ hB)) hEq.symm
          · exact hNeOf a List.mem_cons_self (List.mem_singleton.mp hQ)
        obtain ⟨last, hLast, hMemLast⟩ := hRestRun.1 q hParent _ ancestors hNotOpened
        refine ⟨last, ?_, ?_⟩
        · rw [Forest.attachAll, hParent, attach_of_mem _ hBefore]
          rw [List.append_assoc, List.singleton_append] at hLast
          exact (attachAll_append hOpened).trans hLast
        · intro i hI
          rcases hMemLast i hI with hOpen | ⟨b, hB, rfl⟩
          · rcases List.mem_append.mp hOpen with hOpen | hSelf
            · rcases hMem i hOpen with hNil | ⟨b, hB, rfl⟩
              · cases hNil
              · exact Or.inr ⟨b, List.mem_cons_of_mem _ (List.mem_append_left _ hB), rfl⟩
            · exact Or.inr ⟨a, List.mem_cons_self, (List.mem_singleton.mp hSelf).symm⟩
          · exact Or.inr ⟨b, List.mem_cons_of_mem _ (List.mem_append_right _ hB), rfl⟩
      · intro hParent ancestors
        obtain ⟨opened, hOpened, -⟩ := hBelowRun [] List.not_mem_nil
        obtain ⟨last, hLast⟩ := hRestRun.2 hParent (opened ++ [ident a])
        refine ⟨last, ?_⟩
        rw [Forest.attachAll, hParent, attach]
        exact (attachAll_append hOpened).trans hLast

/-- The check of the open ancestors accepts exactly the preorders. -/
theorem attachAll_isSome_iff {l : List α} (hNodup : (l.map ident).Nodup) :
    (attachAll ident parent [] l).isSome ↔ IsPreorder ident parent none l := by
  rw [Option.isSome_iff_exists]
  constructor
  · rintro ⟨last, hAll⟩
    exact continues_of_attachAll hAll
  · intro h
    exact (h.attachAll hNodup fun a _ => Option.some_ne_none _ |>.symm).2 rfl []

end Forest
