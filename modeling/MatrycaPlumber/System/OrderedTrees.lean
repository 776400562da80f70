import MatrycaPlumber.System.Forest

/-! Ordered trees of records, the lists that are their preorders, and how deep a walk over
such a list has to go. -/
namespace Forest

variable {α ι : Type*}

inductive Tree (α : Type*) where
  | node (record : α) (children : List (Tree α))

mutual

/-- The records of a tree in depth-first preorder. -/
def records : Tree α → List α
  | .node a children => a :: recordsAll children

def recordsAll : List (Tree α) → List α
  | [] => []
  | tree :: trees => records tree ++ recordsAll trees

end

mutual

/-- The number of records on the longest path from the root. -/
def depth : Tree α → ℕ
  | .node _ children => depthAll children + 1

def depthAll : List (Tree α) → ℕ
  | [] => 0
  | tree :: trees => max (depth tree) (depthAll trees)

end

section Links

variable (ident : α → ι) (parent : α → Option ι)

mutual

/-- Every record names the record above it, and the root what the tree hangs from. -/
def Linked (p : Option ι) : Tree α → Prop
  | .node a children => parent a = p ∧ LinkedAll (some (ident a)) children

def LinkedAll (p : Option ι) : List (Tree α) → Prop
  | [] => True
  | tree :: trees => Linked p tree ∧ LinkedAll p trees

end

variable {ident parent}

theorem isPreorder_recordsAll : ∀ (p : Option ι) (trees : List (Tree α)),
    LinkedAll ident parent p trees → IsPreorder ident parent p (recordsAll trees)
  | p, [], _ => .nil p
  | p, .node a children :: trees, h => by
      rw [LinkedAll, Linked] at h
      obtain ⟨⟨rfl, hChildren⟩, hTrees⟩ := h
      rw [recordsAll, records, List.cons_append]
      exact .cons (isPreorder_recordsAll _ children hChildren)
        (isPreorder_recordsAll _ trees hTrees)

/-- The preorders are the lists of the records of trees. -/
theorem isPreorder_iff_trees {p : Option ι} {l : List α} : IsPreorder ident parent p l ↔
    ∃ trees, LinkedAll ident parent p trees ∧ recordsAll trees = l := by
  constructor
  · intro h
    induction h with
    | nil p => exact ⟨[], trivial, rfl⟩
    | @cons a below rest _ _ ihBelow ihRest =>
        obtain ⟨children, hChildren, rfl⟩ := ihBelow
        obtain ⟨trees, hTrees, rfl⟩ := ihRest
        refine ⟨.node a children :: trees, ?_, ?_⟩
        · rw [LinkedAll, Linked]
          exact ⟨⟨rfl, hChildren⟩, hTrees⟩
        · rw [recordsAll, records, List.cons_append]
  · rintro ⟨trees, hTrees, rfl⟩
    exact isPreorder_recordsAll p trees hTrees

theorem parent_ne_none_of_linkedAll : ∀ {q : ι} (trees : List (Tree α)),
    LinkedAll ident parent (some q) trees → ∀ a ∈ recordsAll trees, parent a ≠ none
  | q, [], _, a, hMem => by
      rw [recordsAll] at hMem
      cases hMem
  | q, .node b children :: trees, h, a, hMem => by
      rw [LinkedAll, Linked] at h
      obtain ⟨⟨hParent, hChildren⟩, hTrees⟩ := h
      rw [recordsAll, records, List.cons_append, List.mem_cons, List.mem_append] at hMem
      rcases hMem with rfl | hBelow | hRest
      · rw [hParent]
        exact Option.some_ne_none q
      · exact parent_ne_none_of_linkedAll children hChildren a hBelow
      · exact parent_ne_none_of_linkedAll trees hTrees a hRest

/-- A preorder that is not empty starts with a record that hangs from where it does. -/
theorem eq_nil_or_exists_parent {p : Option ι} {l : List α} (h : IsPreorder ident parent p l) :
    l = [] ∨ ∃ a ∈ l, parent a = p := by
  cases h with
  | nil => exact Or.inl rfl
  | cons => exact Or.inr ⟨_, List.mem_cons_self, rfl⟩

end Links

section Heights

variable [DecidableEq ι] (ident : α → ι) (parent : α → Option ι)

/-- The greatest number of ancestors that are open at once, each record with those above it. -/
def heights (ancestors : List ι) : List α → ℕ
  | [] => 0
  | a :: l =>
      match attach ancestors (parent a) (ident a) with
      | none => 0
      | some next => max next.length (heights next l)

variable {ident parent}

theorem heights_append {l l' : List α} : ∀ {ancestors next : List ι},
    attachAll ident parent ancestors l = some next →
      heights ident parent ancestors (l ++ l') =
        max (heights ident parent ancestors l) (heights ident parent next l') := by
  induction l with
  | nil =>
      intro ancestors next h
      cases h
      rw [List.nil_append, heights, Nat.zero_max]
  | cons a l ih =>
      intro ancestors next h
      rw [attachAll] at h
      cases hAttach : attach ancestors (parent a) (ident a) with
      | none =>
          rw [hAttach] at h
          cases h
      | some mid =>
          rw [hAttach] at h
          simp only [List.cons_append, heights, hAttach]
          rw [ih h, Nat.max_assoc]

/-- Below an open record the walk goes as deep as the trees that hang from it. -/
theorem attachAll_recordsAll : ∀ (trees : List (Tree α)) {q : ι} (before ancestors : List ι),
    LinkedAll ident parent (some q) trees → ((recordsAll trees).map ident).Nodup →
    q ∉ (recordsAll trees).map ident → q ∉ before →
    ∃ opened, attachAll ident parent (before ++ q :: ancestors) (recordsAll trees) =
        some (opened ++ q :: ancestors) ∧
      (∀ i ∈ opened, i ∈ before ∨ i ∈ (recordsAll trees).map ident) ∧
      max (ancestors.length + 1) (heights ident parent (before ++ q :: ancestors)
        (recordsAll trees)) = ancestors.length + 1 + depthAll trees
  | [], q, before, ancestors, _, _, _, _ =>
      ⟨before, rfl, fun i hI => Or.inl hI, by rw [recordsAll, heights, depthAll]; rfl⟩
  | .node a children :: trees, q, before, ancestors, hLinked, hNodup, hFresh, hBefore => by
      rw [LinkedAll, Linked] at hLinked
      obtain ⟨⟨hParent, hChildren⟩, hTrees⟩ := hLinked
      rw [recordsAll, records, List.cons_append, List.map_cons, List.map_append] at hNodup hFresh
      rw [List.nodup_cons, List.nodup_append, List.mem_append, not_or] at hNodup
      rw [List.mem_cons, List.mem_append, not_or, not_or] at hFresh
      obtain ⟨⟨hNotBelow, hNotRest⟩, hNodupBelow, hNodupRest, -⟩ := hNodup
      obtain ⟨hNe, hFreshBelow, hFreshRest⟩ := hFresh
      obtain ⟨opened, hOpened, hMem, hHeight⟩ := attachAll_recordsAll children [] (q :: ancestors)
        hChildren hNodupBelow hNotBelow List.not_mem_nil
      have hNotOpened : q ∉ opened ++ [ident a] := by
        rw [List.mem_append, List.mem_singleton, not_or]
        refine ⟨fun hQ => ?_, hNe⟩
        rcases hMem q hQ with hNil | hBelow
        · cases hNil
        · exact hFreshBelow hBelow
      obtain ⟨last, hLast, hMemLast, hHeightLast⟩ := attachAll_recordsAll trees
        (opened ++ [ident a]) ancestors hTrees hNodupRest hFreshRest hNotOpened
      rw [List.append_assoc, List.singleton_append] at hLast hHeightLast
      have hAttach : attach (before ++ q :: ancestors) (parent a) (ident a) =
          some (ident a :: q :: ancestors) := by
        rw [hParent]
        exact attach_of_mem _ hBefore
      rw [List.nil_append] at hOpened hHeight
      refine ⟨last, ?_, ?_, ?_⟩
      · rw [recordsAll, records, List.cons_append, attachAll, hAttach]
        exact (attachAll_append hOpened).trans hLast
      · intro i hI
        rw [recordsAll, records, List.cons_append, List.map_cons, List.map_append, List.mem_cons,
          List.mem_append]
        rcases hMemLast i hI with hOpen | hRest
        · rcases List.mem_append.mp hOpen with hOpen | hSelf
          · rcases hMem i hOpen with hNil | hBelow
            · cases hNil
            · exact Or.inr (Or.inr (Or.inl hBelow))
          · exact Or.inr (Or.inl (List.mem_singleton.mp hSelf))
        · exact Or.inr (Or.inr (Or.inr hRest))
      · rw [recordsAll, records, List.cons_append, heights, hAttach]
        dsimp only
        rw [heights_append hOpened, depthAll, depth]
        rw [List.length_cons] at hHeight
        simp only [List.length_cons]
        omega

/-- Records that all have parents are below the only root when they can be attached to it. -/
theorem exists_children_of_attachAll {q : ι} {l : List α}
    (h : (attachAll ident parent [q] l).isSome) (hParents : ∀ a ∈ l, parent a ≠ none) :
    ∃ children, LinkedAll ident parent (some q) children ∧ recordsAll children = l := by
  obtain ⟨last, hLast⟩ := Option.isSome_iff_exists.mp h
  obtain ⟨below, rest, rfl, hBelow, hRest⟩ := continues_of_attachAll hLast
  have hNoRest : rest = [] := by
    rcases eq_nil_or_exists_parent hRest with hNil | ⟨a, hMem, hNone⟩
    · exact hNil
    · exact absurd hNone (hParents a (List.mem_append_right _ hMem))
  rw [hNoRest, List.append_nil]
  exact isPreorder_iff_trees.mp hBelow

/-- The records below the only root are attached to it, and open as much as the tree is deep. -/
theorem attachAll_children {q : ι} {children : List (Tree α)}
    (hLinked : LinkedAll ident parent (some q) children)
    (hNodup : ((recordsAll children).map ident).Nodup)
    (hFresh : q ∉ (recordsAll children).map ident) :
    (attachAll ident parent [q] (recordsAll children)).isSome ∧
      max 1 (heights ident parent [q] (recordsAll children)) = depthAll children + 1 := by
  obtain ⟨opened, hOpened, -, hHeight⟩ := attachAll_recordsAll children [] [] hLinked hNodup
    hFresh List.not_mem_nil
  rw [List.nil_append] at hOpened hHeight
  refine ⟨Option.isSome_iff_exists.mpr ⟨_, hOpened⟩, ?_⟩
  rw [List.length_nil, Nat.zero_add] at hHeight
  rw [hHeight, Nat.add_comm]

end Heights

end Forest
