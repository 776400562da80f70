import MatrycaPlumber.Shadow.SubtreeOrder

/-! The subtree query is exact about its three limits: what it calls complete is the
whole subtree. -/
namespace Plumber.Subtree

open PyText Forest RecursiveQuery

/-- One block is another one or below it. -/
def Descends (table : BlocksTable) : BlockRow → BlockRow → Prop :=
  Below BlockRow.rowid BlockRow.parentRowid table.rows

section Rows

variable {table : BlocksTable} {height : ℕ → ℕ} {anchor r : BlockRow} {maxDepth : ℕ}

theorem preorder_descends : ∀ (n : ℕ) (a : BlockRow), ∀ r ∈ preorder (treeChildren table) n a,
    Descends table r a
  | 0, _, _, hR => absurd hR List.not_mem_nil
  | n + 1, a, r, hR => by
      rcases List.mem_cons.mp hR with rfl | hR
      · exact .refl
      · obtain ⟨child, hChild, hBelow⟩ := List.mem_flatMap.mp hR
        exact (preorder_descends n child r hBelow).tail (mem_treeChildren.mp hChild)

variable (hTrees : TreesInPages table) (hHeights : Heights table height)
  (hAnchor : anchor ∈ table.rows)

include hHeights hAnchor

theorem mem_preorder_iff_descends :
    r ∈ preorder (treeChildren table) table.rows.length anchor ↔ Descends table r anchor := by
  constructor
  · exact preorder_descends _ _ r
  · intro hChain
    induction hChain using Relation.ReflTransGen.head_induction_on with
    | refl =>
        obtain ⟨n, hN⟩ : ∃ n, table.rows.length = n + 1 :=
          ⟨table.rows.length - 1, by have := List.length_pos_of_mem hAnchor; omega⟩
        rw [hN]
        exact List.mem_cons_self
    | head hStep _ ih =>
        rw [preorder_treeChildren_stable hHeights hAnchor (Nat.le_succ _)]
        exact mem_preorder_succ (mem_treeChildren.mpr hStep) ih

include hTrees

/-- The blocks that are fetched, and how many there are to fetch. -/
theorem fetchSubtreeRows_eq (hDepth : 0 < maxDepth) (maxNodes : ℕ) :
    ∃ blocks : List SubtreeBlock, fetchSubtreeRows table anchor maxDepth maxNodes = some (blocks.take maxNodes) ∧
      countSubtreeNodes table anchor maxDepth = some blocks.length ∧
        blocks.map (·.row) = preorder (treeChildren table) maxDepth anchor := by
  obtain ⟨rows, hRows, hPerm⟩ := subtreeRows_perm hTrees hHeights hAnchor maxDepth
  refine ⟨(rows.map (·.block)).insertionSort (fun b c => b.pathKey ≤ c.pathKey), ?_, ?_, ?_⟩
  · rw [fetchSubtreeRows, hRows]
    rfl
  · rw [countSubtreeNodes, hRows, List.length_insertionSort, List.length_map]
    rfl
  · rw [sorted_rows hPerm, List.map_map]
    have hBlocks : (preorder (expandOrdered table (maxDepth - 1)) (fuel table)
        (anchorRow anchor)).map (·.block.row) = _ :=
      map_row_preorder (fuel table) (anchorRow anchor) (Nat.zero_le _)
    have hCap : maxDepth - 1 + 1 - (anchorRow anchor).block.depth = maxDepth := by
      simp only [anchorRow]
      omega
    rw [hCap] at hBlocks
    apply hBlocks.trans
    rcases Nat.le_total (fuel table) maxDepth with hLe | hLe
    · rw [Nat.min_eq_left hLe]
      have hLength : table.rows.length ≤ fuel table := Nat.le_succ _
      exact (preorder_treeChildren_stable hHeights hAnchor hLength).symm.trans
        (preorder_treeChildren_stable hHeights hAnchor (hLength.trans hLe))
    · rw [Nat.min_eq_right hLe]
      rfl

omit hTrees hAnchor in
theorem expandDepth_good {page cap : ℕ} (p : BlockRow × ℕ) (h : OnPage table page p.1) :
    ∀ q ∈ expandDepth table page cap p,
      OnPage table page q.1 ∧ levelOf height table p.1 < levelOf height table q.1 := by
  intro q hQ
  rw [expandDepth] at hQ
  split_ifs at hQ
  · obtain ⟨child, hChild, rfl⟩ := List.mem_map.mp hQ
    exact onPage_childRows hHeights _ h child hChild
  · cases hQ

omit hHeights hAnchor in
/-- A traversal is complete when none of its deepest blocks has children. -/
theorem preorder_complete {page cap : ℕ} : ∀ (k n d : ℕ) (r : BlockRow), d + k = cap → k < n →
    OnPage table page r →
      (∀ p ∈ preorder (expandDepth table page cap) n (r, d), p.2 = cap →
        childRows table page p.1 = []) →
        ∀ m, k < m → preorder (treeChildren table) (k + 1) r = preorder (treeChildren table) m r
  | _, 0, _, _, _, hN, _, _, _, _ => absurd hN (Nat.not_lt_zero _)
  | _, _, _, _, _, _, _, _, 0, hM => absurd hM (Nat.not_lt_zero _)
  | 0, n + 1, d, r, hCap, _, hPage, hLeaf, m + 1, _ => by
      have hNone : treeChildren table r = [] := by
        have hChildren := childRows_perm hTrees hPage
        rw [hLeaf (r, d) List.mem_cons_self (by omega)] at hChildren
        exact hChildren.nil_eq.symm
      rw [preorder, preorder, hNone]
      rfl
  | k + 1, n + 1, d, r, hCap, hN, hPage, hLeaf, m + 1, hM => by
      rw [preorder, preorder.eq_def _ (m + 1)]
      congr 1
      apply List.flatMap_congr
      intro child hChild
      have hOnPage := onPage_treeChildren hTrees hPage hChild
      have hCap' : d + 1 + k = cap := by omega
      apply preorder_complete k n (d + 1) child hCap' (Nat.lt_of_succ_lt_succ hN) hOnPage _ m
        (Nat.lt_of_succ_lt_succ hM)
      intro p hP
      apply hLeaf p
      rw [preorder]
      apply List.mem_cons_of_mem
      apply List.mem_flatMap.mpr
      refine ⟨(child, d + 1), ?_, hP⟩
      rw [expandDepth, if_pos (by show d < cap; omega)]
      exact List.mem_map_of_mem ((childRows_perm hTrees hPage).mem_iff.mpr hChild)

/-- The test for truncation has an answer, and without truncation nothing is missing. -/
theorem hasDepthOrNodeTruncation_eq {total : ℕ} (hDepth : 0 < maxDepth)
    (hCount : countSubtreeNodes table anchor maxDepth = some total) (maxNodes fetched : ℕ) :
    ∃ truncated, hasDepthOrNodeTruncation table anchor maxDepth maxNodes fetched =
        some truncated ∧
      (truncated = false → (maxNodes ≤ fetched → total ≤ fetched) ∧
        preorder (treeChildren table) maxDepth anchor =
          preorder (treeChildren table) table.rows.length anchor) := by
  have hStart : ∀ p ∈ [(anchor, 0)], OnPage table anchor.pageId p.1 ∧
      table.rows.length ≤ levelOf height table p.1 + fuel table := by
    intro p hP
    rw [List.mem_singleton.mp hP, fuel]
    exact ⟨⟨hAnchor, rfl⟩, by omega⟩
  obtain ⟨walk, hWalk, hPerm⟩ : ∃ walk, recursiveQuery
      (expandDepth table anchor.pageId (maxDepth - 1)) (fuel table) [(anchor, 0)] = some walk ∧ _ :=
    recursiveQuery_perm (expandDepth_good hHeights) (fun p hP => levelOf_lt_length hP.1) _ _ hStart
  rw [List.flatMap_singleton] at hPerm
  rw [hasDepthOrNodeTruncation, hCount, hWalk]
  refine ⟨_, rfl, ?_⟩
  intro hFalse
  rw [Bool.or_eq_false_iff, decide_eq_false_iff_not, List.any_eq_false] at hFalse
  obtain ⟨hNodes, hLeaves⟩ := hFalse
  refine ⟨fun hLe => by omega, ?_⟩
  rcases Nat.le_total table.rows.length maxDepth with hLe | hLe
  · exact (preorder_treeChildren_stable hHeights hAnchor hLe).symm
  · obtain ⟨cap, rfl⟩ : ∃ cap, maxDepth = cap + 1 := ⟨maxDepth - 1, by omega⟩
    have hFuel : cap < fuel table := by
      rw [fuel]
      omega
    apply preorder_complete hTrees cap (fuel table) 0 anchor (Nat.zero_add cap) hFuel
      ⟨hAnchor, rfl⟩ _ _ hLe
    intro p hP hDeepest
    by_contra hChildren
    exact hLeaves p (hPerm.symm.subset hP) (by simpa using ⟨hDeepest, hChildren⟩)

end Rows

/-! ## The limit on the output -/

section Output

variable (idProperty : Str → Str) (maxOutputBytes : ℕ)

theorem takeWithinBytes_spec : ∀ (used : ℕ) (blocks : List SubtreeBlock),
    (takeWithinBytes idProperty maxOutputBytes used blocks).1 <+: blocks ∧
      ((takeWithinBytes idProperty maxOutputBytes used blocks).2 = false →
        (takeWithinBytes idProperty maxOutputBytes used blocks).1 = blocks)
  | _, [] => ⟨List.prefix_rfl, fun _ => rfl⟩
  | used, block :: rest => by
      rw [takeWithinBytes]
      dsimp only
      split_ifs
      · exact ⟨List.nil_prefix, fun hFalse => nomatch hFalse⟩
      · obtain ⟨hPrefix, hAll⟩ := takeWithinBytes_spec
          (used + utf8Length (renderBlockLines idProperty block.row)) rest
        exact ⟨List.cons_prefix_cons.mpr ⟨rfl, hPrefix⟩, fun hFalse => by rw [hAll hFalse]⟩

/-- The output has the first blocks, and all of them unless it says that it is cut. -/
theorem applyOutputByteLimit_spec (blocks : List SubtreeBlock) :
    (applyOutputByteLimit idProperty maxOutputBytes blocks).1 <+: blocks ∧
      ((applyOutputByteLimit idProperty maxOutputBytes blocks).2.2 = false →
        (applyOutputByteLimit idProperty maxOutputBytes blocks).1 = blocks ∧
          (applyOutputByteLimit idProperty maxOutputBytes blocks).2.1 =
            renderBlocks idProperty blocks) := by
  cases blocks with
  | nil => exact ⟨List.prefix_rfl, fun _ => ⟨rfl, rfl⟩⟩
  | cons first rest =>
      obtain ⟨hPrefix, hAll⟩ := takeWithinBytes_spec idProperty maxOutputBytes
        (utf8Length (renderBlockLines idProperty first.row)) rest
      refine ⟨List.cons_prefix_cons.mpr ⟨rfl, hPrefix⟩, ?_⟩
      intro hFalse
      dsimp only [applyOutputByteLimit] at hFalse ⊢
      rw [if_neg (by simp [hFalse]), hAll (Bool.or_eq_false_iff.mp hFalse).2]
      exact ⟨rfl, rfl⟩

end Output

/-! ## The query -/

/-- A result for an anchor: the nodes are the first ones of the traversal that is cut at the
depth, and only a result that lacks nothing is complete. -/
structure SubtreeCorrect (idProperty : Str → Str) (table : BlocksTable) (anchor : BlockRow)
    (maxDepth : ℕ) (result : SubtreeQueryResult) : Prop where
  nodes_prefix : result.nodes.map (·.row) <+: preorder (treeChildren table) maxDepth anchor
  complete : result.status = .complete →
    result.nodes.map (·.row) = preorder (treeChildren table) table.rows.length anchor ∧
      (∀ r, r ∈ result.nodes.map (·.row) ↔ Descends table r anchor) ∧
        result.excerptMarkdown = renderBlocks idProperty result.nodes
  missing : ∀ r, Descends table r anchor → r ∉ result.nodes.map (·.row) →
    result.status = .truncated

section Query

variable (idProperty : Str → Str) {table : BlocksTable} (hTrees : TreesInPages table)

include hTrees

theorem limitedSubtree_correct {anchor : BlockRow} (hAnchor : anchor ∈ table.rows)
    (anchorUuid : Str) {maxDepth : ℕ} (hDepth : 0 < maxDepth) (maxNodes maxOutputBytes : ℕ) :
    ∃ result, limitedSubtree idProperty table anchorUuid anchor maxDepth maxNodes maxOutputBytes =
        some result ∧ SubtreeCorrect idProperty table anchor maxDepth result := by
  obtain ⟨height, hHeights⟩ := hTrees.no_cycle
  obtain ⟨blocks, hFetch, hCount, hBlocks⟩ :=
    fetchSubtreeRows_eq hTrees hHeights hAnchor hDepth maxNodes
  obtain ⟨hPrefix, hWhole⟩ :=
    applyOutputByteLimit_spec idProperty maxOutputBytes (blocks.take maxNodes)
  obtain ⟨byRows, hByRows, hRows⟩ := hasDepthOrNodeTruncation_eq hTrees hHeights hAnchor hDepth
    hCount maxNodes (blocks.take maxNodes).length
  generalize hOutput : applyOutputByteLimit idProperty maxOutputBytes (blocks.take maxNodes) =
    output at hPrefix hWhole
  obtain ⟨taken, excerpt, byBytes⟩ := output
  have hPrefixRows : taken.map (·.row) <+: preorder (treeChildren table) maxDepth anchor := by
    rw [← hBlocks]
    exact (hPrefix.trans (List.take_prefix _ _)).map _
  -- What is not cut by any of the three limits is the whole subtree.
  have hComplete (hBytes : byBytes = false) (hNodes : byRows = false) :
      taken.map (·.row) = preorder (treeChildren table) table.rows.length anchor ∧
        excerpt = renderBlocks idProperty taken := by
    obtain ⟨hTaken, hExcerpt⟩ := hWhole hBytes
    obtain ⟨hTotal, hFull⟩ := hRows hNodes
    have hAll : blocks.take maxNodes = blocks := by
      rw [List.length_take] at hTotal
      apply List.take_of_length_le
      omega
    dsimp only at hTaken hExcerpt
    rw [hTaken, hExcerpt, hAll]
    exact ⟨hBlocks.trans hFull, rfl⟩
  have hCorrect (truncated : Bool) (detail : Option Str)
      (hTruncated : truncated = false → byBytes = false ∧ byRows = false) :
      SubtreeCorrect idProperty table anchor maxDepth
        ⟨if truncated then .truncated else .complete, anchorUuid, some anchor.pageId, taken, excerpt,
          detail⟩ := by
    constructor
    · exact hPrefixRows
    · intro hStatus
      cases truncated with
      | true => cases hStatus
      | false =>
          obtain ⟨hBytes, hNodes⟩ := hTruncated rfl
          obtain ⟨hAll, hExcerpt⟩ := hComplete hBytes hNodes
          refine ⟨hAll, ?_, hExcerpt⟩
          intro r
          rw [hAll]
          exact mem_preorder_iff_descends hHeights hAnchor
    · intro r hDescends hMissing
      cases truncated with
      | true => rfl
      | false =>
          obtain ⟨hBytes, hNodes⟩ := hTruncated rfl
          dsimp only at hMissing
          rw [(hComplete hBytes hNodes).1] at hMissing
          exact absurd ((mem_preorder_iff_descends hHeights hAnchor).mpr hDescends) hMissing
  rw [limitedSubtree, hFetch, Option.bind_some, hOutput, hByRows]
  cases byBytes with
  | true => exact ⟨_, rfl, hCorrect true _ (fun hFalse => nomatch hFalse)⟩
  | false => exact ⟨_, rfl, hCorrect byRows _ fun hNodes => ⟨rfl, hNodes⟩⟩

end Query

section Sample

def sampleRow (rowid : ℕ) (uuid : Char) (parentRowid : Option ℕ) (sortOrder indentLevel : ℕ) :
    BlockRow :=
  ⟨rowid, [uuid], 1, parentRowid, sortOrder, indentLevel, [uuid], []⟩

/-- A block with two children, which were stored against their order. -/
def sampleTable : BlocksTable where
  rows := [sampleRow 1 'a' none 0 0, sampleRow 2 'c' (some 1) 1 1, sampleRow 3 'b' (some 1) 0 1]
  rowid_unique := by decide
  uuid_unique := by decide
  rowid_lt := by decide
  sortOrder_lt := by decide

theorem sampleTable_treesInPages : TreesInPages sampleTable where
  same_page := by decide
  no_cycle := ⟨id, by decide⟩

end Sample

end Plumber.Subtree
