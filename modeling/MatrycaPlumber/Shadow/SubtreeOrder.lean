import MatrycaPlumber.Shadow.Subtree

/-! The recursive query for a subtree has its rows in depth-first preorder. -/
namespace Plumber.Subtree

open PyText Forest RecursiveQuery

/-- The blocks that have a block as their parent, by `sort_order` and `rowid`. -/
def treeChildren (table : BlocksTable) (r : BlockRow) : List BlockRow :=
  (siblings BlockRow.parentRowid table.rows (some r.rowid)).insertionSort siblingOrder

section Tree

variable {table : BlocksTable} {page : ℕ} {r child : BlockRow}

theorem mem_childRows : child ∈ childRows table page r ↔
    child ∈ table.rows ∧ child.parentRowid = some r.rowid ∧ child.pageId = page := by
  simp [childRows]

theorem mem_treeChildren : child ∈ treeChildren table r ↔
    child ∈ table.rows ∧ child.parentRowid = some r.rowid := by
  rw [treeChildren, List.mem_insertionSort, mem_siblings]

variable (table page) in
/-- A row of the page. -/
def OnPage (r : BlockRow) : Prop := r ∈ table.rows ∧ r.pageId = page

/-- A height that goes up from each block to its children. -/
def Heights (table : BlocksTable) (height : ℕ → ℕ) : Prop :=
  ∀ child ∈ table.rows, ∀ r ∈ table.rows,
    child.parentRowid = some r.rowid → height r.rowid < height child.rowid

variable (hTrees : TreesInPages table)

include hTrees

/-- All children of a block are on its page. -/
theorem childRows_eq (h : OnPage table page r) :
    childRows table page r = siblings BlockRow.parentRowid table.rows (some r.rowid) := by
  apply List.filter_congr
  intro child hChild
  apply decide_eq_decide.mpr
  constructor
  · exact fun hBoth => hBoth.1
  · intro hParent
    exact ⟨hParent, (hTrees.same_page child hChild r h.1 hParent).trans h.2⟩

theorem childRows_perm (h : OnPage table page r) :
    (childRows table page r).Perm (treeChildren table r) := by
  rw [childRows_eq hTrees h]
  exact (List.perm_insertionSort _ _).symm

theorem onPage_treeChildren (h : OnPage table page r) (hChild : child ∈ treeChildren table r) :
    OnPage table page child := by
  obtain ⟨hRow, hParent⟩ := mem_treeChildren.mp hChild
  exact ⟨hRow, (hTrees.same_page child hRow r h.1 hParent).trans h.2⟩

end Tree

theorem anyCall_eq_false {f : BlockRow → Option Bool} : ∀ {l : List BlockRow},
    (∀ r ∈ l, f r = some false) → anyCall f l = some false
  | [], _ => rfl
  | r :: rest, h => by
      rw [anyCall, h r List.mem_cons_self]
      exact anyCall_eq_false fun s hS => h s (List.mem_cons_of_mem _ hS)

section Walk

variable {table : BlocksTable} {height : ℕ → ℕ} {page : ℕ} {anchor r child : BlockRow}

/-- How many rows are of less height: the levels that a walk has behind it at most. -/
def levelOf (height : ℕ → ℕ) (table : BlocksTable) (r : BlockRow) : ℕ :=
  place (fun r : BlockRow => height r.rowid) table.rows r

theorem levelOf_lt_length (hRow : r ∈ table.rows) : levelOf height table r < table.rows.length :=
  place_lt_length _ _ hRow

variable (hHeights : Heights table height)

include hHeights

theorem levelOf_lt (hRow : r ∈ table.rows) (hChild : child ∈ table.rows)
    (hParent : child.parentRowid = some r.rowid) :
    levelOf height table r < levelOf height table child :=
  place_lt_place _ _ hRow (hHeights child hChild r hRow hParent)

theorem onPage_childRows (r : BlockRow) (h : OnPage table page r) :
    ∀ child ∈ childRows table page r,
      OnPage table page child ∧ levelOf height table r < levelOf height table child := by
  intro child hChild
  obtain ⟨hRow, hParent, hPage⟩ := mem_childRows.mp hChild
  exact ⟨⟨hRow, hPage⟩, levelOf_lt hHeights h.1 hRow hParent⟩

/-- A traversal with as many levels as there are rows is complete. -/
theorem preorder_treeChildren_stable {n : ℕ} (hRow : anchor ∈ table.rows)
    (hN : table.rows.length ≤ n) :
    preorder (treeChildren table) table.rows.length anchor =
      preorder (treeChildren table) n anchor := by
  have hGood (r : BlockRow) (hR : r ∈ table.rows) : ∀ child ∈ treeChildren table r,
      child ∈ table.rows ∧ levelOf height table r < levelOf height table child := by
    intro child hChild
    obtain ⟨hMem, hParent⟩ := mem_treeChildren.mp hChild
    exact ⟨hMem, levelOf_lt hHeights hR hMem hParent⟩
  exact preorder_stable hGood (fun _ => levelOf_lt_length) _ _ _ hRow (by omega) hN

/-- The blocks on the path to a block are of less height than it. -/
theorem hasCycle_eq_false : ∀ (n : ℕ) (path : List ℕ) (r : BlockRow), OnPage table page r →
    (∀ i ∈ path, height i < height r.rowid) → table.rows.length < levelOf height table r + n →
      hasCycle table page n path r = some false
  | 0, _, r, h, _, hDeep => by
      have hLt : levelOf height table r < table.rows.length := levelOf_lt_length h.1
      omega
  | n + 1, path, r, h, hPath, hDeep => by
      have hNew : r.rowid ∉ path := fun hMem => absurd (hPath _ hMem) (lt_irrefl _)
      rw [hasCycle, if_neg hNew]
      apply anyCall_eq_false
      intro child hChild
      rw [orderedChildren, List.mem_insertionSort] at hChild
      obtain ⟨hOnPage, hLevel⟩ := onPage_childRows hHeights r h child hChild
      obtain ⟨hRow, hParent, -⟩ := mem_childRows.mp hChild
      have hUp := hHeights child hRow r h.1 hParent
      apply hasCycle_eq_false n _ child hOnPage
      · intro i hI
        rcases List.mem_cons.mp hI with rfl | hI
        · exact hUp
        · exact (hPath i hI).trans hUp
      · omega

theorem hasCrossPageEdge_eq_false (hTrees : TreesInPages table) (h : anchor ∈ table.rows) :
    hasCrossPageEdge table anchor = some false := by
  have hGood (r : BlockRow) (hR : OnPage table anchor.pageId r) :
      ∀ child ∈ childRows table r.pageId r, OnPage table anchor.pageId child ∧
        levelOf height table r < levelOf height table child := by
    rw [hR.2]
    exact onPage_childRows hHeights r hR
  have hStart : ∀ r ∈ [anchor], OnPage table anchor.pageId r ∧
      table.rows.length ≤ levelOf height table r + fuel table := by
    intro r hR
    rw [List.mem_singleton.mp hR, fuel]
    exact ⟨⟨h, rfl⟩, by omega⟩
  obtain ⟨rows, hRows, hPerm⟩ :=
    recursiveQuery_perm hGood (fun r hR => levelOf_lt_length hR.1) (fuel table) [anchor] hStart
  rw [List.flatMap_singleton] at hPerm
  rw [hasCrossPageEdge, hRows]
  apply congrArg some
  rw [List.any_eq_false]
  intro child hChild hBoth
  simp only [decide_eq_true_eq, List.any_eq_true] at hBoth
  obtain ⟨hPage, r, hR, hParent⟩ := hBoth
  have hOnPage : OnPage table anchor.pageId r :=
    forall_mem_preorder (fun a hA b hB => (hGood a hA b hB).1) _ _ ⟨h, rfl⟩ r (hPerm.subset hR)
  apply hPage
  rw [hTrees.same_page child hChild r hOnPage.1 hParent, hOnPage.2]

end Walk

/-! ## The rows of the recursive table -/

section Rows

variable {table : BlocksTable} {height : ℕ → ℕ} {page cap : ℕ} {anchor child : BlockRow}
  {e : SubtreeRow}

variable (table height page) in
/-- A row whose visited blocks are not above it. -/
structure GoodRow (e : SubtreeRow) : Prop where
  onPage : OnPage table page e.block.row
  visited : ∃ ids : List ℕ, ',' :: (e.visited ++ [',']) = separated (ids.map decimal) ∧
    ∀ i ∈ ids, height i ≤ height e.block.row.rowid

theorem goodRow_anchorRow (h : anchor ∈ table.rows) :
    GoodRow table height anchor.pageId (anchorRow anchor) where
  onPage := ⟨h, rfl⟩
  visited := by
    refine ⟨[anchor.rowid], ?_, ?_⟩
    · simp [anchorRow, separated]
    · intro i hI
      rw [List.mem_singleton.mp hI]
      exact le_rfl

variable (table cap) in
/-- The children of a row in the order of the result. -/
def expandOrdered (e : SubtreeRow) : List SubtreeRow :=
  if e.block.depth < cap then (treeChildren table e.block.row).map (childRow e) else []

/-- A block is not among the visited ones of its parent. -/
theorem GoodRow.notVisited (h : GoodRow table height page e)
    (hUp : height e.block.row.rowid < height child.rowid) :
    Subtree.notVisited e.visited child = true := by
  obtain ⟨ids, hVisited, hIds⟩ := h.visited
  have hComma (n : ℕ) : ',' ∉ decimal n := notMem_decimal (by decide)
  rw [Subtree.notVisited, hVisited, Bool.not_eq_true', decide_eq_false_iff_not]
  intro hInfix
  have hMem := mem_of_infix_separated (hComma _) (by simpa using fun n _ => hComma n) hInfix
  obtain ⟨i, hI, hEq⟩ := List.mem_map.mp hMem
  have hLe := hIds i hI
  rw [decimal_injective hEq] at hLe
  omega

theorem GoodRow.childRow (h : GoodRow table height page e) (hChild : OnPage table page child)
    (hUp : height e.block.row.rowid < height child.rowid) :
    GoodRow table height page (Subtree.childRow e child) where
  onPage := hChild
  visited := by
    obtain ⟨ids, hVisited, hIds⟩ := h.visited
    refine ⟨ids ++ [child.rowid], ?_, ?_⟩
    · rw [List.map_append, List.map_singleton, separated_concat, ← hVisited]
      simp [Subtree.childRow]
    · intro i hI
      rcases List.mem_append.mp hI with hI | hI
      · exact (hIds i hI).trans hUp.le
      · rw [List.mem_singleton.mp hI]
        exact le_rfl

variable (hTrees : TreesInPages table) (hHeights : Heights table height)

include hHeights in
theorem expandSubtree_good (e : SubtreeRow) (h : GoodRow table height page e) :
    ∀ f ∈ expandSubtree table page cap e, GoodRow table height page f ∧
      levelOf height table e.block.row < levelOf height table f.block.row := by
  intro f hF
  obtain ⟨child, hMem, rfl⟩ := List.mem_map.mp hF
  have hChild := (List.mem_filter.mp hMem).1
  obtain ⟨hOnPage, hLevel⟩ := onPage_childRows hHeights _ h.onPage child hChild
  obtain ⟨hRow, hParent, -⟩ := mem_childRows.mp hChild
  exact ⟨h.childRow hOnPage (hHeights child hRow _ h.onPage.1 hParent), hLevel⟩

include hTrees hHeights

/-- In a tree the test for visited blocks drops nothing. -/
theorem expandSubtree_perm (e : SubtreeRow) (h : GoodRow table height page e) :
    (expandSubtree table page cap e).Perm (expandOrdered table cap e) := by
  rw [expandSubtree, expandOrdered]
  split_ifs with hDepth
  · apply List.Perm.map
    have hAll : (childRows table page e.block.row).filter (fun child =>
        e.block.depth < cap ∧ notVisited e.visited child = true) =
          childRows table page e.block.row := by
      apply List.filter_eq_self.mpr
      intro child hChild
      obtain ⟨hRow, hParent, -⟩ := mem_childRows.mp hChild
      have hUp := hHeights child hRow _ h.onPage.1 hParent
      simpa using ⟨hDepth, h.notVisited hUp⟩
    rw [hAll]
    exact childRows_perm hTrees h.onPage
  · simp [hDepth]

/-- The rows of the query are those of a depth-first traversal. -/
theorem subtreeRows_perm (h : anchor ∈ table.rows) (maxDepth : ℕ) :
    ∃ rows, subtreeRows table anchor maxDepth = some rows ∧
      rows.Perm (preorder (expandOrdered table (maxDepth - 1)) (fuel table) (anchorRow anchor)) := by
  have hGood : GoodRow table height anchor.pageId (anchorRow anchor) := goodRow_anchorRow h
  have hStart : ∀ e ∈ [anchorRow anchor], GoodRow table height anchor.pageId e ∧
      table.rows.length ≤ levelOf height table e.block.row + fuel table := by
    intro e hE
    rw [List.mem_singleton.mp hE, fuel]
    exact ⟨hGood, by omega⟩
  obtain ⟨rows, hRows, hPerm⟩ := recursiveQuery_perm (expandSubtree_good hHeights)
    (fun e hE => levelOf_lt_length hE.onPage.1) (fuel table) [anchorRow anchor] hStart
  rw [List.flatMap_singleton] at hPerm
  refine ⟨rows, hRows, hPerm.trans ?_⟩
  exact preorder_perm (fun e hE f hF => (expandSubtree_good hHeights e hE f hF).1)
    (expandSubtree_perm hTrees hHeights) _ _ hGood

end Rows

/-! ## The order of the path keys -/

section Keys

variable {table : BlocksTable} {cap : ℕ} {r s : BlockRow} {e : SubtreeRow}

theorem int64_lt_padded {n : ℕ} (h : n < 2 ^ 63) : n < 10 ^ 20 := by omega

theorem length_keySegment (h : r ∈ table.rows) : (keySegment r).length = 41 := by
  rw [keySegment, List.length_append, List.length_cons,
    length_zeroPadded (by decide) (int64_lt_padded (table.sortOrder_lt r h)),
    length_zeroPadded (by decide) (int64_lt_padded (table.rowid_lt r h))]

theorem keySegment_lt (hR : r ∈ table.rows) (hS : s ∈ table.rows) (h : siblingOrder r s)
    (hNe : r ≠ s) : keySegment r < keySegment s := by
  rw [keySegment, keySegment]
  rcases h with hOrder | ⟨hOrder, hRowid⟩
  · apply append_lt_append
    · exact zeroPadded_lt (by decide) hOrder (int64_lt_padded (table.sortOrder_lt s hS))
    · rw [length_zeroPadded (by decide) (int64_lt_padded (table.sortOrder_lt r hR)),
        length_zeroPadded (by decide) (int64_lt_padded (table.sortOrder_lt s hS))]
  · have hLt : r.rowid < s.rowid := by
      apply Nat.lt_of_le_of_ne hRowid
      intro hEq
      exact hNe (List.inj_on_of_nodup_map table.rowid_unique hR hS hEq)
    rw [hOrder]
    apply List.append_left_lt
    apply List.cons_lt_cons_iff.mpr
    exact Or.inr ⟨rfl, zeroPadded_lt (by decide) hLt (int64_lt_padded (table.rowid_lt s hS))⟩

theorem treeChildren_pairwise (r : BlockRow) : (treeChildren table r).Pairwise fun child other =>
    siblingOrder child other ∧ child ≠ other := by
  have hTotal : Std.Total siblingOrder := ⟨fun r s => by unfold siblingOrder; omega⟩
  have hTrans : IsTrans BlockRow siblingOrder := ⟨fun r s t hLe hLe' => by
    unfold siblingOrder at *
    omega⟩
  apply List.Pairwise.and (List.pairwise_insertionSort _ _)
  have hNodup : table.rows.Nodup := List.Nodup.of_map _ table.rowid_unique
  exact (List.perm_insertionSort _ _).nodup_iff.mpr (hNodup.filter _)

theorem extends_expandOrdered (e : SubtreeRow) : ∀ f ∈ expandOrdered table cap e,
    Extends (fun f : SubtreeRow => f.block.pathKey) e f := by
  intro f hF
  rw [expandOrdered] at hF
  split_ifs at hF
  · obtain ⟨child, -, rfl⟩ := List.mem_map.mp hF
    exact ⟨_, List.cons_ne_nil _ _, rfl⟩
  · cases hF

theorem ascending_expandOrdered (e : SubtreeRow) :
    (expandOrdered table cap e).Pairwise (Ascending fun f : SubtreeRow => f.block.pathKey) := by
  rw [expandOrdered]
  split_ifs
  · rw [List.pairwise_map]
    apply (treeChildren_pairwise e.block.row).imp_of_mem
    rintro child other hChild hOther ⟨hOrder, hNe⟩
    have hRow := (mem_treeChildren.mp hChild).1
    have hRow' := (mem_treeChildren.mp hOther).1
    constructor
    · apply List.append_left_lt
      exact List.cons_lt_cons_iff.mpr (Or.inr ⟨rfl, keySegment_lt hRow hRow' hOrder hNe⟩)
    · dsimp only [childRow]
      rw [List.length_append, List.length_append, List.length_cons, List.length_cons,
        length_keySegment hRow, length_keySegment hRow']
  · exact .nil

/-- Sorted by their path keys the rows are in depth-first preorder. -/
theorem sorted_rows {rows : List SubtreeRow} {n : ℕ}
    (hPerm : rows.Perm (preorder (expandOrdered table cap) n e)) :
    (rows.map (·.block)).insertionSort (fun b c => b.pathKey ≤ c.pathKey) =
      (preorder (expandOrdered table cap) n e).map (·.block) := by
  apply insertionSort_eq_of_perm (hPerm.map _)
  rw [List.pairwise_map]
  have hGood (e : SubtreeRow) (_ : True) : ∀ f ∈ expandOrdered table cap e, True :=
    fun _ _ => trivial
  exact pairwise_preorder hGood (fun e _ => extends_expandOrdered e)
    (fun e _ => ascending_expandOrdered e) n e trivial

/-- The blocks of the rows are a traversal of the tree down to the depth of the query. -/
theorem map_row_preorder : ∀ (n : ℕ) (e : SubtreeRow), e.block.depth ≤ cap →
    (preorder (expandOrdered table cap) n e).map (·.block.row) =
      preorder (treeChildren table) (min n (cap + 1 - e.block.depth)) e.block.row
  | 0, _, _ => by
      rw [Nat.zero_min]
      rfl
  | n + 1, e, hDepth => by
      obtain ⟨k, hK⟩ : ∃ k, min (n + 1) (cap + 1 - e.block.depth) = k + 1 :=
        ⟨min n (cap - e.block.depth), by omega⟩
      rw [preorder, hK, preorder, List.map_cons, List.map_flatMap, expandOrdered]
      congr 1
      split_ifs with hBelow
      · rw [List.flatMap_map]
        apply List.flatMap_congr
        intro child _
        rw [map_row_preorder n (childRow e child) (by simp only [childRow]; omega)]
        congr 1
        simp only [childRow]
        omega
      · have hZero : k = 0 := by omega
        simp [hZero, preorder]

end Keys

end Plumber.Subtree
