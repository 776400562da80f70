import MatrycaPlumber.Graph.SemanticClustering

/-! The clusters of a catalog are a partition of its titles. -/
namespace Plumber.Clustering

open PyText

variable {S : Type} {A : Arithmetic S} {M : Similarity S}

section Sorting

theorem sorted_perm (titles : List Str) : (sorted titles).Perm titles :=
  List.perm_insertionSort _ _

theorem flatten_map_perm {f : List Str → List Str} (hf : ∀ cluster, (f cluster).Perm cluster)
    (clusters : List (List Str)) : (clusters.map f).flatten.Perm clusters.flatten := by
  induction clusters with
  | nil => exact List.Perm.refl _
  | cons cluster clusters ih => exact (hf cluster).append ih

/-- Strictly ordered titles stay behind the title that is before them all. -/
theorem sorted_cons {page : Str} {titles : List Str} (h : ∀ title ∈ titles, page < title) :
    sorted (page :: titles) = page :: sorted titles := by
  rw [sorted, List.insertionSort_cons, ← sorted]
  have hSorted (title : Str) (hTitle : title ∈ sorted titles) : page ≤ title :=
    (h title ((sorted_perm titles).mem_iff.mp hTitle)).le
  cases hFirst : sorted titles with
  | nil => rfl
  | cons first rest =>
      rw [hFirst] at hSorted
      exact List.orderedInsert_cons_of_le _ _ (hSorted first List.mem_cons_self)

end Sorting

section Adjacency

theorem mem_of_mem_collect {κ α : Type} [DecidableEq κ] {pairs : List (κ × α)}
    {group : List α} {x : α} (hGroup : group ∈ (InsertionDict.collect pairs).entries.map Prod.snd)
    (hx : x ∈ group) : x ∈ pairs.map Prod.snd := by
  obtain ⟨entry, hEntry, rfl⟩ := List.mem_map.mp hGroup
  exact (InsertionDict.collect_perm pairs).mem_iff.mp (List.mem_flatMap.mpr ⟨entry, hEntry, hx⟩)

theorem candidatePairs_mem {blockTitles : List Str} {pair : Str × Str}
    (h : pair ∈ candidatePairs M blockTitles) :
    pair.1 ∈ blockTitles ∧ pair.2 ∈ blockTitles := by
  rw [candidatePairs, List.mem_dedup] at h
  obtain ⟨found, hFound, rfl⟩ := List.mem_map.mp h
  obtain ⟨sharing, hSharing, hPair⟩ := List.mem_flatMap.mp hFound
  have hTitle {title : Str} (hTitle : title ∈ sharing) : title ∈ blockTitles := by
    have hTerm := mem_of_mem_collect (List.mem_of_mem_filter hSharing) hTitle
    simp only [List.map_flatMap, List.map_map, List.mem_flatMap, List.mem_map] at hTerm
    obtain ⟨other, hOther, term, -, rfl⟩ := hTerm
    exact hOther
  have hSublist := mem_orderedPairs hPair
  have hFirst := hTitle (hSublist.subset List.mem_cons_self)
  have hSecond := hTitle (hSublist.subset (List.mem_cons_of_mem _ List.mem_cons_self))
  split_ifs
  · exact ⟨hFirst, hSecond⟩
  · exact ⟨hSecond, hFirst⟩

theorem linkPairs_mem {titles : List Str} {pairs : List (Str × Str)}
    (hPairs : ∀ pair ∈ pairs, pair.1 ∈ titles ∧ pair.2 ∈ titles) (adjacency : Str → Neighbors S)
    (h : ∀ title, ∀ entry ∈ (adjacency title).entries, entry.1 ∈ titles) :
    ∀ title, ∀ entry ∈ (linkPairs A M adjacency pairs title).entries, entry.1 ∈ titles := by
  have hAdd (adjacency : Str → Neighbors S) (title other : Str) (sim : S) (hOther : other ∈ titles)
      (h : ∀ title, ∀ entry ∈ (adjacency title).entries, entry.1 ∈ titles) :
      ∀ at', ∀ entry ∈ (addNeighbor adjacency title other sim at').entries, entry.1 ∈ titles := by
    intro place entry hEntry
    rw [addNeighbor] at hEntry
    by_cases hPlace : place = title
    · subst hPlace
      rw [Function.update_self] at hEntry
      rcases InsertionDict.mem_put.mp hEntry with rfl | ⟨hOld, -⟩
      · exact hOther
      · exact h place entry hOld
    · rw [Function.update_of_ne hPlace] at hEntry
      exact h place entry hEntry
  induction pairs generalizing adjacency with
  | nil => exact h
  | cons pair pairs ih =>
      rw [List.forall_mem_cons] at hPairs
      apply ih hPairs.2
      dsimp only
      split_ifs
      · exact hAdd _ _ _ _ hPairs.1.1 (hAdd _ _ _ _ hPairs.1.2 h)
      · exact h

/-- The neighbours of a title are titles, so each has a community. -/
theorem buildSimilarityGraph_mem (key : Str → Str) (kNeighbors : ℕ) (titles : List Str)
    (title : Str) :
    ∀ entry ∈ buildSimilarityGraph A M key kNeighbors titles title, entry.1 ∈ titles := by
  have hFold (blocks : List (List Str)) (hBlocks : ∀ block ∈ blocks, ∀ title ∈ block, title ∈ titles)
      (adjacency : Str → Neighbors S)
      (h : ∀ title, ∀ entry ∈ (adjacency title).entries, entry.1 ∈ titles) :
      ∀ title, ∀ entry ∈ ((blocks.foldl (fun adjacency blockTitles =>
        linkPairs A M adjacency (M.setOrder (candidatePairs M blockTitles))) adjacency)
          title).entries, entry.1 ∈ titles := by
    induction blocks generalizing adjacency with
    | nil => exact h
    | cons block blocks ih =>
        rw [List.forall_mem_cons] at hBlocks
        apply ih hBlocks.2
        apply linkPairs_mem _ adjacency h
        intro pair hPair
        have hMem := candidatePairs_mem ((M.setOrder_perm _).mem_iff.mp hPair)
        exact ⟨hBlocks.1 _ hMem.1, hBlocks.1 _ hMem.2⟩
  have hAll := hFold (((InsertionDict.collect (titles.map fun title => (key title, title))).entries.map
    Prod.snd).filter (2 ≤ ·.length)) (fun block hBlock other hOther => by
      have hMem := mem_of_mem_collect (List.mem_of_mem_filter hBlock) hOther
      rw [List.map_map] at hMem
      obtain ⟨same, hSame, rfl⟩ := List.mem_map.mp hMem
      exact hSame) (fun _ => InsertionDict.empty) (fun _ => List.forall_mem_nil _) title
  intro entry hEntry
  rw [buildSimilarityGraph] at hEntry
  split_ifs at hEntry
  · exact hAll entry hEntry
  · exact hAll entry ((List.perm_insertionSort _ _).mem_iff.mp (List.mem_of_mem_take hEntry))

end Adjacency

section Louvain

variable (A) in
theorem louvain_titles (adjacency : Str → List (Str × S)) (maxIterations : ℕ) (nodes : List Str) :
    (louvainCommunities A adjacency maxIterations nodes).map Prod.fst = nodes := by
  unfold louvainCommunities
  split
  · rfl
  · rfl
  · dsimp only
    split_ifs
    · rw [List.map_map]
      exact List.map_id' nodes
    · rw [List.map_map]
      exact List.map_id' nodes

theorem communitiesToClusters_perm (assignments : List (Str × ℕ)) :
    (communitiesToClusters assignments).flatten.Perm (assignments.map Prod.fst) := by
  rw [communitiesToClusters]
  have hSorted := flatten_map_perm sorted_perm
    ((InsertionDict.collect (assignments.map Prod.swap)).entries.map Prod.snd)
  rw [List.map_map] at hSorted
  apply hSorted.trans
  have hCollect := InsertionDict.collect_perm (assignments.map Prod.swap)
  rw [List.map_map] at hCollect
  exact hCollect

end Louvain

section Splitting

variable (A M) (maxClusterSize : ℤ)

theorem splitPending_perm (pending : List (List Str)) (hNodup : pending.flatten.Nodup) :
    (splitPending A M maxClusterSize pending).flatten.Perm pending.flatten := by
  fun_induction splitPending A M maxClusterSize pending with
  | case1 => exact List.Perm.refl _
  | case2 current pending _ ih =>
      exact (ih (List.nodup_append.mp hNodup).2.1).append_left current
  | case3 current pending _ _ ih =>
      exact (ih (List.nodup_append.mp hNodup).2.1).append_left current
  | case4 current pending _ hRight ih =>
      have hLength : 2 ≤ current.length := two_le_of_bisect hRight
      have hSplit := (bisectCluster_spec A M hLength).2.2.2 (List.nodup_append.mp hNodup).1
      have hPerm : ((bisectCluster A M current).2 :: (bisectCluster A M current).1 ::
          pending).flatten.Perm (current :: pending).flatten := by
        rw [List.flatten_cons, List.flatten_cons, List.flatten_cons, ← List.append_assoc]
        exact (List.perm_append_comm.trans hSplit).append_right _
      exact (ih (hPerm.nodup_iff.mpr hNodup)).trans hPerm

theorem splitPending_size (pending : List (List Str)) :
    ∀ cluster ∈ splitPending A M maxClusterSize pending,
      (cluster.length : ℤ) ≤ max 1 maxClusterSize := by
  fun_induction splitPending A M maxClusterSize pending with
  | case1 => exact List.forall_mem_nil _
  | case2 current pending hSmall ih =>
      exact List.forall_mem_cons.mpr ⟨hSmall.trans (le_max_right _ _), ih⟩
  | case3 current pending _ hRight ih =>
      refine List.forall_mem_cons.mpr ⟨?_, ih⟩
      -- only a cluster of fewer than two titles cannot be split
      have hShort : current.length < 2 := by
        by_contra hLength
        exact (bisectCluster_spec A M (Nat.le_of_not_lt hLength)).2.1 hRight
      have := le_max_left 1 maxClusterSize
      omega
  | case4 current pending _ _ ih => exact ih

theorem splitOversized_perm (clusters : List (List Str)) (hNodup : clusters.flatten.Nodup) :
    (splitOversizedClusters A M maxClusterSize clusters).flatten.Perm clusters.flatten := by
  induction clusters with
  | nil => exact List.Perm.refl _
  | cons cluster clusters ih =>
      have hParts := List.nodup_append.mp hNodup
      have hFirst := splitPending_perm A M maxClusterSize [cluster]
        (by simpa using hParts.1)
      rw [splitOversizedClusters, List.flatMap_cons, List.flatten_append, List.flatten_cons]
      apply List.Perm.append
      · simpa using hFirst
      · exact ih hParts.2.1

theorem splitOversized_size (clusters : List (List Str)) :
    ∀ cluster ∈ splitOversizedClusters A M maxClusterSize clusters,
      (cluster.length : ℤ) ≤ max 1 maxClusterSize := by
  intro part hPart
  obtain ⟨cluster, -, hMem⟩ := List.mem_flatMap.mp hPart
  exact splitPending_size A M maxClusterSize [cluster] part hMem

end Splitting

section Balancing

variable (A M) (minClusterSize maxClusterSize : ℤ) {page : Str} {pool : List Str}

theorem sliceTo_sublist {α : Type} (xs : List α) (k : ℤ) : (sliceTo xs k).Sublist xs := by
  rw [sliceTo]
  split_ifs <;> exact List.take_sublist _ _

/-- A bin starts with its seed, and the others come from the candidates. -/
theorem greedySemanticBin_eq (h : ∀ title ∈ pool, page < title) :
    ∃ rest, greedySemanticBin A M maxClusterSize page pool = page :: rest ∧
      rest.Subperm pool := by
  rw [greedySemanticBin]
  split_ifs with hNil
  · exact ⟨[], rfl, List.nil_subperm⟩
  · have hScored : (sortedByScore A (M.pair page) pool).Perm pool := List.perm_insertionSort _ _
    have hTaken := sliceTo_sublist (sortedByScore A (M.pair page) pool) (maxClusterSize - 1)
    refine ⟨sorted (sliceTo (sortedByScore A (M.pair page) pool) (maxClusterSize - 1)), ?_, ?_⟩
    · apply sorted_cons
      intro title hTitle
      exact h title (hScored.mem_iff.mp (hTaken.subset hTitle))
    · exact (sorted_perm _).subperm.trans (hTaken.subperm.trans hScored.subperm)

theorem bestCluster_lt {kept : List (List Str)} {idx : ℕ} {score : S}
    (h : bestCluster A M maxClusterSize kept page = (some idx, score)) : idx < kept.length := by
  have hFold (entries : List (List Str × ℕ)) (best : Option ℕ × S)
      (hBest : ∀ i, best.1 = some i → i < kept.length)
      (hEntries : ∀ entry ∈ entries, entry.2 < kept.length) :
      ∀ i, (entries.foldl (fun best entry =>
        if entry.1.length ≥ maxClusterSize then best
        else
          let score := clusterAvgSimilarity A M [page] entry.1
          if A.lt best.2 score then (some entry.2, score) else best) best).1 = some i →
        i < kept.length := by
    induction entries generalizing best with
    | nil => exact hBest
    | cons entry entries ih =>
        rw [List.forall_mem_cons] at hEntries
        apply ih _ _ hEntries.2
        dsimp only
        split_ifs
        · exact hBest
        · intro i hi
          exact Option.some.inj hi ▸ hEntries.1
        · exact hBest
  exact hFold kept.zipIdx (none, A.negOne) (fun i hi => by cases hi)
    (fun entry hEntry => List.snd_lt_of_mem_zipIdx hEntry) idx (congrArg Prod.fst h)

theorem flatten_modify_perm {f : List Str → List Str}
    (hf : ∀ cluster, (f cluster).Perm (cluster ++ [page])) {kept : List (List Str)} {idx : ℕ}
    (h : idx < kept.length) : (kept.modify idx f).flatten.Perm (kept.flatten ++ [page]) := by
  induction kept generalizing idx with
  | nil => cases h
  | cons cluster kept ih =>
      cases idx with
      | zero =>
          rw [List.modify_zero_cons, List.flatten_cons, List.flatten_cons, List.append_assoc]
          apply ((hf cluster).append_right _).trans
          rw [List.append_assoc]
          exact List.perm_append_comm.append_left cluster
      | succ idx =>
          rw [List.modify_succ_cons, List.flatten_cons, List.flatten_cons, List.append_assoc]
          exact (ih (Nat.lt_of_succ_lt_succ h)).append_left cluster

/-- A new bin takes its titles from the pool. -/
theorem bin_perm (h : ∀ title ∈ pool, page < title) (kept : List (List Str)) :
    let picked := greedySemanticBin A M maxClusterSize page pool
    ((kept ++ [picked]).flatten ++ removePicked pool picked).Perm (kept.flatten ++ page :: pool) := by
  obtain ⟨rest, hPicked, hRest⟩ := greedySemanticBin_eq A M maxClusterSize h
  dsimp only
  rw [hPicked, removePicked, List.tail_cons, ← List.diff_eq_foldl, List.flatten_append,
    List.flatten_singleton, List.append_assoc]
  have hBack := List.subperm_append_diff_self_of_count_le (List.subperm_ext_iff.mp hRest)
  exact (hBack.cons page).append_left kept.flatten

theorem packPool_perm (kept : List (List Str)) (pool : List Str) (hPool : pool.Pairwise (· < ·)) :
    (packPool A M minClusterSize maxClusterSize kept pool).flatten.Perm (kept.flatten ++ pool) := by
  have hStay {page : Str} {pool : List Str} (picked : List Str)
      (h : (page :: pool).Pairwise (· < ·)) : (removePicked pool picked).Pairwise (· < ·) := by
    rw [removePicked, ← List.diff_eq_foldl]
    exact (List.pairwise_cons.mp h).2.sublist (List.diff_sublist pool picked.tail)
  fun_induction packPool A M minClusterSize maxClusterSize kept pool with
  | case1 kept =>
      rw [List.append_nil]
  | case2 kept page pool idx score hBest _ ih =>
      have hJoined := flatten_modify_perm (fun cluster => sorted_perm (cluster ++ [page]))
        (bestCluster_lt A M maxClusterSize hBest)
      apply (ih (List.pairwise_cons.mp hPool).2).trans
      rw [List.append_cons]
      exact hJoined.append_right pool
  | case3 kept page pool _ _ _ _ picked ih =>
      exact (ih (hStay picked hPool)).trans 
        (bin_perm A M _ (List.pairwise_cons.mp hPool).1 kept)
  | case4 kept page pool _ _ picked ih =>
      exact (ih (hStay picked hPool)).trans 
        (bin_perm A M _ (List.pairwise_cons.mp hPool).1 kept)

theorem sorted_pairwise_lt {titles : List Str} (h : titles.Nodup) :
    (sorted titles).Pairwise (· < ·) := by
  have hLe : (sorted titles).Pairwise (· ≤ ·) := List.pairwise_insertionSort _ _
  have hNodup : (sorted titles).Nodup := (sorted_perm titles).nodup_iff.mpr h
  exact (hLe.and hNodup).imp fun hBoth => lt_of_le_of_ne hBoth.1 hBoth.2

theorem filter_flatten_perm (p : List Str → Prop) [DecidablePred p] (clusters : List (List Str)) :
    ((clusters.filter fun cluster => p cluster).flatten ++
      (clusters.filter fun cluster => ¬p cluster).flatten).Perm clusters.flatten := by
  rw [← List.flatten_append]
  have hSplit := List.filter_append_perm (fun cluster => decide (p cluster)) clusters
  simpa only [decide_not] using hSplit.flatten

theorem finalize_perm (clusters : List (List Str)) (hNodup : clusters.flatten.Nodup) :
    (finalizeClusterBalance A M minClusterSize maxClusterSize clusters).flatten.Perm
      clusters.flatten := by
  rw [finalizeClusterBalance]
  have hAll := filter_flatten_perm (fun cluster => minClusterSize ≤ cluster.length) clusters
  generalize (clusters.filter fun cluster => minClusterSize ≤ cluster.length) = large at *
  generalize (clusters.filter fun cluster => ¬minClusterSize ≤ cluster.length).flatten = small at *
  have hSmall : small.Nodup := (List.nodup_append.mp (hAll.nodup_iff.mpr hNodup)).2.1
  rw [hSmall.dedup]
  have hPacked := packPool_perm A M minClusterSize maxClusterSize (large.map sorted)
    (sorted small) (sorted_pairwise_lt hSmall)
  have hBefore : ((large.map sorted).flatten ++ sorted small).Perm clusters.flatten :=
    ((flatten_map_perm sorted_perm large).append (sorted_perm small)).trans hAll
  have hPackedAll := hPacked.trans hBefore
  exact (splitOversized_perm A M maxClusterSize _ (hPackedAll.nodup_iff.mpr hNodup)).trans hPackedAll

theorem finalize_size (clusters : List (List Str)) :
    ∀ cluster ∈ finalizeClusterBalance A M minClusterSize maxClusterSize clusters,
      (cluster.length : ℤ) ≤ max 1 maxClusterSize :=
  splitOversized_size A M maxClusterSize _

/-- The rounds of balancing keep the titles and the bound. -/
theorem rebalance_spec (rounds : ℕ) (clusters : List (List Str)) (hNodup : clusters.flatten.Nodup)
    (hSize : ∀ cluster ∈ clusters, (cluster.length : ℤ) ≤ max 1 maxClusterSize) :
    let after := rebalance A M minClusterSize maxClusterSize rounds clusters
    after.flatten.Perm clusters.flatten ∧
      ∀ cluster ∈ after, (cluster.length : ℤ) ≤ max 1 maxClusterSize := by
  induction rounds generalizing clusters with
  | zero => exact ⟨List.Perm.refl _, hSize⟩
  | succ rounds ih =>
      have hPerm := finalize_perm A M minClusterSize maxClusterSize clusters hNodup
      rw [rebalance]
      dsimp only
      split_ifs
      · exact ⟨hPerm, finalize_size A M minClusterSize maxClusterSize clusters⟩
      · obtain ⟨hAfter, hBound⟩ := ih _ (hPerm.nodup_iff.mpr hNodup) (finalize_size A M minClusterSize maxClusterSize clusters)
        exact ⟨hAfter.trans hPerm, hBound⟩

end Balancing

section Naming

theorem clusterName_injective : Function.Injective clusterName := by
  intro m n h
  exact zeroPadded_injective 3 (List.append_cancel_left h)

theorem entries_nameClusters (clusters : List (List Str)) :
    (nameClusters clusters).entries =
      ((clusters.insertionSort fun a b => a.headD [] ≤ b.headD []).zipIdx 1).map fun entry =>
        (clusterName entry.2, sorted entry.1) := by
  rw [nameClusters]
  generalize clusters.insertionSort (fun a b => a.headD [] ≤ b.headD []) = ordered
  have hFold (entries : List (List Str × ℕ)) (result : InsertionDict Str (List Str))
      (hFresh : ∀ entry ∈ entries, clusterName entry.2 ∉ result.keys)
      (hNodup : (entries.map Prod.snd).Nodup) :
      (entries.foldl (fun result entry => result.put (clusterName entry.2) (sorted entry.1))
        result).entries =
          result.entries ++ entries.map fun entry => (clusterName entry.2, sorted entry.1) := by
    induction entries generalizing result with
    | nil => rw [List.foldl_nil, List.map_nil, List.append_nil]
    | cons entry entries ih =>
        rw [List.forall_mem_cons] at hFresh
        rw [List.map_cons, List.nodup_cons] at hNodup
        rw [List.foldl_cons, ih, InsertionDict.entries_put_of_notMem hFresh.1, List.append_assoc,
          List.map_cons, List.singleton_append]
        · intro other hOther hMem
          rcases InsertionDict.mem_keys_put.mp hMem with hSame | hOld
          · apply hNodup.1
            rw [← clusterName_injective hSame]
            exact List.mem_map_of_mem hOther
          · exact hFresh.2 other hOther hOld
        · exact hNodup.2
  apply hFold (ordered.zipIdx 1) InsertionDict.empty
  · intro entry _ hMem
    cases hMem
  · rw [List.zipIdx_map_snd]
    exact List.nodup_range'

/-- The names keep the clusters apart, and each cluster its members. -/
theorem nameClusters_spec {bound : ℤ} (clusters : List (List Str))
    (hSize : ∀ cluster ∈ clusters, (cluster.length : ℤ) ≤ bound) :
    ((nameClusters clusters).entries.map Prod.snd).flatten.Perm clusters.flatten ∧
      ∀ entry ∈ (nameClusters clusters).entries, (entry.2.length : ℤ) ≤ bound := by
  have hOrder := clusters.perm_insertionSort fun a b => a.headD [] ≤ b.headD []
  rw [entries_nameClusters]
  generalize clusters.insertionSort (fun a b => a.headD [] ≤ b.headD []) = ordered at hOrder ⊢
  have hValues : ((ordered.zipIdx 1).map fun entry => (clusterName entry.2, sorted entry.1)).map
      Prod.snd = ordered.map sorted := by
    conv_rhs => rw [← List.zipIdx_map_fst 1 ordered]
    rw [List.map_map, List.map_map]
    rfl
  constructor
  · rw [hValues]
    exact (flatten_map_perm sorted_perm ordered).trans hOrder.flatten
  · intro entry hEntry
    have hMember : entry.2 ∈ ordered.map sorted := by
      rw [← hValues]
      exact List.mem_map_of_mem hEntry
    obtain ⟨cluster, hCluster, hEq⟩ := List.mem_map.mp hMember
    rw [← hEq, (sorted_perm cluster).length_eq]
    exact hSize cluster (hOrder.mem_iff.mp hCluster)

end Naming

section Partition

variable (A : Arithmetic S) (M : Similarity S) (pages : CatalogPages)
  (isJournalPageTitle : Option (Str → Bool)) (maxClusterSize minClusterSize : ℤ)

theorem clusterableCatalogTitles_nodup :
    (clusterableCatalogTitles pages isJournalPageTitle).Nodup := by
  have hSorted : (sorted pages.keys).Nodup := (sorted_perm _).nodup_iff.mpr pages.nodup
  cases isJournalPageTitle with
  | none => exact hSorted
  | some isJournal => exact hSorted.filter _

/-- What the clusters of a catalog hold, and how much. -/
theorem computeSemanticClusters_spec :
    let result := computeSemanticClusters A M pages isJournalPageTitle maxClusterSize minClusterSize
    ((result.entries.map Prod.snd).flatten.Perm
      (clusterableCatalogTitles pages isJournalPageTitle)) ∧
    ∀ entry ∈ result.entries, (entry.2.length : ℤ) ≤ max 1 maxClusterSize := by
  have hNodup := clusterableCatalogTitles_nodup pages isJournalPageTitle
  rw [computeSemanticClusters]
  dsimp only
  generalize clusterableCatalogTitles pages isJournalPageTitle = titles at *
  split
  · exact ⟨List.Perm.refl _, List.forall_mem_nil _⟩
  · exact ⟨List.Perm.refl _, List.forall_mem_singleton.mpr (le_max_left _ _)⟩
  · have hAssigned := louvain_titles A
      (buildSimilarityGraph A M (blockKey M pages) 20 titles) louvainMaxIterations titles
    generalize louvainCommunities A (buildSimilarityGraph A M (blockKey M pages) 20 titles)
      louvainMaxIterations titles = assignments at *
    have hGrouped := communitiesToClusters_perm assignments
    rw [hAssigned] at hGrouped
    have hSplit := (splitOversized_perm A M maxClusterSize _
      (hGrouped.nodup_iff.mpr hNodup)).trans hGrouped
    have hSize := splitOversized_size A M maxClusterSize
      (communitiesToClusters assignments)
    generalize splitOversizedClusters A M maxClusterSize (communitiesToClusters assignments) =
      clusters at *
    generalize (if (titles.length : ℤ) < min minClusterSize maxClusterSize then 1
      else min minClusterSize maxClusterSize) = effectiveMin
    split_ifs
    · obtain ⟨hBalanced, hBound⟩ := rebalance_spec A M effectiveMin maxClusterSize 3
        clusters (hSplit.nodup_iff.mpr hNodup) hSize
      obtain ⟨hNamed, hNamedSize⟩ := nameClusters_spec _ hBound
      exact ⟨hNamed.trans (hBalanced.trans hSplit), hNamedSize⟩
    · obtain ⟨hNamed, hNamedSize⟩ := nameClusters_spec _ hSize
      exact ⟨hNamed.trans hSplit, hNamedSize⟩

/-- In a partition of distinct titles every title has one place. -/
theorem existsUnique_of_flatten_perm {entries : List (Str × List Str)} {titles : List Str}
    (hPerm : (entries.map Prod.snd).flatten.Perm titles) (hNodup : titles.Nodup)
    {title : Str} (h : title ∈ titles) :
    ∃! entry, entry ∈ entries ∧ title ∈ entry.2 := by
  have hFlat := hPerm.nodup_iff.mpr hNodup
  obtain ⟨members, hMembers, hTitle⟩ := List.mem_flatten.mp (hPerm.mem_iff.mpr h)
  obtain ⟨entry, hEntry, rfl⟩ := List.mem_map.mp hMembers
  refine ⟨entry, ⟨hEntry, hTitle⟩, ?_⟩
  rintro other ⟨hOther, hOtherTitle⟩
  by_contra hNe
  have hDisjoint := (List.nodup_flatten.mp hFlat).2
  rw [List.pairwise_map] at hDisjoint
  have : Std.Symm fun a b : Str × List Str => a.2.Disjoint b.2 := ⟨fun _ _ h => h.symm⟩
  exact hDisjoint.forall hOther hEntry hNe hOtherTitle hTitle

/-- Every title is in one cluster and no other title is in any. -/
structure Partitions (titles : List Str) (clusters : InsertionDict Str (List Str)) : Prop where
  one : ∀ title ∈ titles, ∃! entry, entry ∈ clusters.entries ∧ title ∈ entry.2
  nodup : ∀ entry ∈ clusters.entries, entry.2.Nodup
  inside : ∀ entry ∈ clusters.entries, ∀ title ∈ entry.2, title ∈ titles

/-- The clusters are a partition of the clusterable titles, and a cluster that could be split
has no more than the greatest number of members. -/
theorem clusters_partition :
    Partitions (clusterableCatalogTitles pages isJournalPageTitle)
        (computeSemanticClusters A M pages isJournalPageTitle maxClusterSize minClusterSize) ∧
      ∀ entry ∈ (computeSemanticClusters A M pages isJournalPageTitle maxClusterSize
        minClusterSize).entries, (entry.2.length : ℤ) ≤ max 1 maxClusterSize := by
  obtain ⟨hPerm, hSize⟩ := computeSemanticClusters_spec A M pages isJournalPageTitle maxClusterSize
    minClusterSize
  have hNodup := clusterableCatalogTitles_nodup pages isJournalPageTitle
  generalize computeSemanticClusters A M pages isJournalPageTitle maxClusterSize minClusterSize =
    result at *
  refine ⟨⟨fun title hTitle => ?_, fun entry hEntry => ?_, fun entry hEntry title hTitle => ?_⟩,
    hSize⟩
  · exact existsUnique_of_flatten_perm hPerm hNodup hTitle
  · exact (List.nodup_flatten.mp (hPerm.nodup_iff.mpr hNodup)).1 _ (List.mem_map_of_mem hEntry)
  · exact hPerm.mem_iff.mp (List.mem_flatten_of_mem (List.mem_map_of_mem hEntry) hTitle)

end Partition

/-- Numbers for scores, and titles that are as similar as they are long. -/
def sampleArithmetic : Arithmetic ℤ where
  zero := 0
  negOne := -1
  infinity := 1000000
  minSimilarity := 1
  add := (· + ·)
  sub := (· - ·)
  mul := (· * ·)
  div := (· / ·)
  ofNat := Int.ofNat
  lt a b := a < b
  le a b := a ≤ b
  eq a b := a = b

def sampleSimilarity : Similarity ℤ where
  lower := id
  terms title := [title.take 1]
  pair a b := a.length + b.length
  setOrder := id
  setOrder_perm := List.Perm.refl

/-- One page is a cluster of one member, also where none is allowed. -/
theorem cluster_beyond_bound :
    ∃ entry ∈ (computeSemanticClusters sampleArithmetic sampleSimilarity
      (InsertionDict.empty.put "Alpha".toList (some ⟨none⟩)) none 0 minClusterSize).entries,
        ¬(entry.2.length : ℤ) ≤ 0 :=
  ⟨(clusterName 1, ["Alpha".toList]), by decide, by decide⟩

end Plumber.Clustering
