import MatrycaPlumber.System.InsertionDict
import MatrycaPlumber.Text.Decimal
import Mathlib.Data.List.Sort
import Mathlib.Data.List.Perm.Basic
import Mathlib.Data.Finset.Basic

/-! Clusters of catalog pages by their similarity. -/
namespace Plumber.Clustering

open PyText

def minClusterSize : ℤ := 5

def defaultMaxClusterSize : ℤ := 35

def louvainMaxIterations : ℕ := 20

/-- The arithmetic of the similarities is left open, and so is how they compare. -/
structure Arithmetic (S : Type) where
  zero : S
  negOne : S
  infinity : S
  minSimilarity : S
  add : S → S → S
  sub : S → S → S
  mul : S → S → S
  div : S → S → S
  ofNat : ℕ → S
  lt : S → S → Bool
  le : S → S → Bool
  eq : S → S → Bool

variable {S : Type}

def Arithmetic.sum (A : Arithmetic S) (xs : List S) : S := xs.foldl A.add A.zero

/-- A record of the catalog, with its tags where they are a list. -/
structure CatalogRow where
  tags : Option (List Str)

/-- What is known of the pages. `setOrder` is the order in which a set of pairs is passed
through. -/
structure Similarity (S : Type) where
  lower : Str → Str
  terms : Str → List Str
  pair : Str → Str → S
  setOrder : List (Str × Str) → List (Str × Str)
  setOrder_perm : ∀ pairs, (setOrder pairs).Perm pairs

section Adjacency

variable (A : Arithmetic S) (M : Similarity S)

abbrev Neighbors (S : Type) := InsertionDict Str S

/-- `sorted(items, key=score, reverse=True)`. -/
def sortedByScore {α : Type} (score : α → S) (items : List α) : List α :=
  items.insertionSort fun a b => ¬A.lt (score a) (score b)

def sorted (titles : List Str) : List Str := titles.insertionSort (· ≤ ·)

/-- `for i, a in enumerate(titles): for b in titles[i + 1:]`. -/
def orderedPairs : List Str → List (Str × Str)
  | [] => []
  | title :: rest => rest.map (title, ·) ++ orderedPairs rest

/-- The pairs of one block that share a term that is neither too rare nor too common. -/
def candidatePairs (blockTitles : List Str) : List (Str × Str) :=
  let maxDf := max 4 (blockTitles.length / 2)
  let termToTitles := InsertionDict.collect
    (blockTitles.flatMap fun title => (M.terms title).map fun term => (term, title))
  let sharing := (termToTitles.entries.map Prod.snd).filter fun titles =>
    2 ≤ titles.length ∧ titles.length ≤ maxDf
  ((sharing.flatMap orderedPairs).map fun pair =>
    if pair.1 < pair.2 then pair else (pair.2, pair.1)).dedup

def addNeighbor (adjacency : Str → Neighbors S) (title other : Str) (sim : S) :
    Str → Neighbors S :=
  Function.update adjacency title ((adjacency title).put other sim)

def linkPairs (adjacency : Str → Neighbors S) (pairs : List (Str × Str)) : Str → Neighbors S :=
  pairs.foldl (fun adjacency pair =>
    let sim := M.pair pair.1 pair.2
    if A.le A.minSimilarity sim then
      addNeighbor (addNeighbor adjacency pair.1 pair.2 sim) pair.2 pair.1 sim
    else adjacency) adjacency

def buildSimilarityGraph (blockKey : Str → Str) (kNeighbors : ℕ) (titles : List Str)
    (title : Str) : List (Str × S) :=
  let blocks := InsertionDict.collect (titles.map fun title => (blockKey title, title))
  let adjacency := ((blocks.entries.map Prod.snd).filter (2 ≤ ·.length)).foldl
    (fun adjacency blockTitles =>
      linkPairs A M adjacency (M.setOrder (candidatePairs M blockTitles)))
    fun _ => InsertionDict.empty
  let neighbors := (adjacency title).entries
  if neighbors.length ≤ kNeighbors then neighbors
  else (sortedByScore A Prod.snd neighbors).take kNeighbors

end Adjacency

section Louvain

variable (A : Arithmetic S) (adjacency : Str → List (Str × S))

structure LouvainState (S : Type) where
  community : Str → ℕ
  commTotals : ℕ → S
  improved : Bool

/-- One node joins the community that gains most. -/
def moveNode (degree : Str → S) (totalWeight : S) (s : LouvainState S) (node : Str) :
    LouvainState S :=
  let currentComm := s.community node
  let totals := Function.update s.commTotals currentComm
    (A.sub (s.commTotals currentComm) (degree node))
  let neighborComms : InsertionDict ℕ S := (adjacency node).foldl (fun comms entry =>
    let comm := s.community entry.1
    comms.put comm (A.add ((comms.get? comm).getD A.zero) entry.2)) InsertionDict.empty
  let best := neighborComms.entries.foldl (fun best entry =>
    if entry.1 = currentComm then best
    else
      let gain := A.sub entry.2 (A.div (A.mul (totals entry.1) (degree node)) totalWeight)
      if A.lt best.2 gain then (entry.1, gain) else best) (currentComm, A.zero)
  let community := Function.update s.community node best.1
  { community
    commTotals := Function.update totals best.1 (A.add (totals best.1) (degree node))
    improved := s.improved || best.1 ≠ currentComm }

def louvainPass (degree : Str → S) (totalWeight : S) (nodes : List Str) (community : Str → ℕ) :
    LouvainState S :=
  let commTotals := nodes.foldl (fun totals node =>
    Function.update totals (community node) (A.add (totals (community node)) (degree node)))
    fun _ => A.zero
  nodes.foldl (moveNode A adjacency degree totalWeight) ⟨community, commTotals, false⟩

/-- The passes, with the number of those that are left. -/
def louvainLoop (degree : Str → S) (totalWeight : S) (nodes : List Str) :
    ℕ → (Str → ℕ) → Str → ℕ
  | 0, community => community
  | left + 1, community =>
      let s := louvainPass A adjacency degree totalWeight nodes community
      if s.improved then louvainLoop degree totalWeight nodes left s.community else s.community

def louvainCommunities (maxIterations : ℕ) (nodes : List Str) : List (Str × ℕ) :=
  match nodes with
  | [] => []
  | [node] => [(node, 0)]
  | _ =>
      let community : Str → ℕ := nodes.idxOf
      let degree node := A.sum ((adjacency node).map Prod.snd)
      let totalWeight := A.sum (nodes.map degree)
      if A.eq totalWeight A.zero then nodes.map fun node => (node, community node)
      else
        let community := louvainLoop A adjacency degree totalWeight nodes maxIterations community
        let unique := (nodes.map community).dedup.insertionSort (· ≤ ·)
        nodes.map fun node => (node, unique.idxOf (community node))

def communitiesToClusters (assignments : List (Str × ℕ)) : List (List Str) :=
  let grouped := InsertionDict.collect (assignments.map Prod.swap)
  grouped.entries.map fun entry => sorted entry.2

end Louvain

section Splitting

variable (A : Arithmetic S) (M : Similarity S)

def clusterAvgSimilarity (clusterA clusterB : List Str) : S :=
  let sims := clusterA.flatMap fun a => clusterB.map fun b => M.pair a b
  if sims = [] then A.zero else A.div (A.sum sims) (A.ofNat sims.length)

/-- The pair that is least similar, or the first one if none is. -/
def bisectSeeds (first second : Str) (titles : List Str) : Str × Str :=
  ((orderedPairs titles).foldl (fun least pair =>
    let sim := M.pair pair.1 pair.2
    if A.lt sim least.2 then (pair, sim) else least) ((first, second), A.infinity)).1

def bisectStep (seeds : Str × Str) (groups : List Str × List Str) (title : Str) :
    List Str × List Str :=
  if title = seeds.1 ∨ title = seeds.2 then groups
  else
    let simA := A.sum (groups.1.map (M.pair title))
    let simB := A.sum (groups.2.map (M.pair title))
    if A.le simB simA then (groups.1 ++ [title], groups.2) else (groups.1, groups.2 ++ [title])

def bisectCluster (titles : List Str) : List Str × List Str :=
  match titles with
  | first :: second :: _ =>
      let seeds := bisectSeeds A M first second titles
      titles.foldl (bisectStep A M seeds) ([seeds.1], [seeds.2])
  | _ => (titles, [])

theorem mem_orderedPairs {pair : Str × Str} {titles : List Str} (h : pair ∈ orderedPairs titles) :
    [pair.1, pair.2].Sublist titles := by
  induction titles with
  | nil => cases h
  | cons title rest ih =>
      rcases List.mem_append.mp h with hFirst | hRest
      · obtain ⟨other, hOther, rfl⟩ := List.mem_map.mp hFirst
        exact (List.singleton_sublist.mpr hOther).cons_cons title
      · exact (ih hRest).cons title

theorem bisectSeeds_mem (first second : Str) (rest : List Str) :
    bisectSeeds A M first second (first :: second :: rest) ∈
      orderedPairs (first :: second :: rest) := by
  have hFold (pairs : List (Str × Str)) (least : (Str × Str) × S) :
      (pairs.foldl (fun least pair =>
        let sim := M.pair pair.1 pair.2
        if A.lt sim least.2 then (pair, sim) else least) least).1 ∈ least.1 :: pairs := by
    induction pairs generalizing least with
    | nil => exact List.mem_cons_self
    | cons pair pairs ih =>
        rw [List.foldl_cons]
        dsimp only
        split_ifs
        · exact List.mem_cons_of_mem _ (ih _)
        · rcases List.mem_cons.mp (ih least) with hEq | hMem
          · rw [hEq]
            exact List.mem_cons_self
          · exact List.mem_cons_of_mem _ (List.mem_cons_of_mem _ hMem)
  rcases List.mem_cons.mp (hFold (orderedPairs (first :: second :: rest))
    ((first, second), A.infinity)) with hEq | hMem
  · rw [bisectSeeds, hEq]
    exact List.mem_cons_self
  · exact hMem

/-- Every title other than the seeds joins one of the groups. -/
theorem foldl_bisectStep (seeds : Str × Str) (titles : List Str) (groups : List Str × List Str) :
    let after := titles.foldl (bisectStep A M seeds) groups
    groups.1 <+: after.1 ∧ groups.2 <+: after.2 ∧
      (after.1 ++ after.2).Perm (groups.1 ++ groups.2 ++
        titles.filter fun title => ¬(title = seeds.1 ∨ title = seeds.2)) := by
  induction titles generalizing groups with
  | nil => simp
  | cons title titles ih =>
      rw [List.foldl_cons]
      obtain ⟨hLeft, hRight, hPerm⟩ := ih (bisectStep A M seeds groups title)
      dsimp only at hPerm ⊢
      by_cases hSeed : title = seeds.1 ∨ title = seeds.2
      · have hStep : bisectStep A M seeds groups title = groups := if_pos hSeed
        rw [hStep] at hLeft hRight hPerm ⊢
        rw [List.filter_cons_of_neg (by simpa [or_iff_not_imp_left] using hSeed)]
        exact ⟨hLeft, hRight, hPerm⟩
      · rw [List.filter_cons_of_pos (by simpa using hSeed)]
        generalize hAfter : titles.foldl (bisectStep A M seeds)
          (bisectStep A M seeds groups title) = after at hLeft hRight hPerm ⊢
        rw [bisectStep, if_neg hSeed] at hLeft hRight hPerm
        dsimp only at hLeft hRight hPerm
        split_ifs at hLeft hRight hPerm
        · refine ⟨(List.prefix_append _ _).trans hLeft, hRight, hPerm.trans ?_⟩
          simp only [List.append_assoc, List.singleton_append]
          exact (List.perm_middle.symm).append_left _
        · refine ⟨hLeft, (List.prefix_append _ _).trans hRight, hPerm.trans ?_⟩
          simp only [List.append_assoc, List.singleton_append]
          exact List.Perm.refl _

/-- Two or more titles are split into two groups, neither of which is empty. -/
theorem bisectCluster_spec {titles : List Str} (h : 2 ≤ titles.length) :
    (bisectCluster A M titles).1 ≠ [] ∧ (bisectCluster A M titles).2 ≠ [] ∧
      (bisectCluster A M titles).1.length + (bisectCluster A M titles).2.length ≤ titles.length ∧
      (titles.Nodup → ((bisectCluster A M titles).1 ++ (bisectCluster A M titles).2).Perm
        titles) := by
  match titles, h with
  | first :: second :: rest, _ =>
      rw [bisectCluster]
      generalize hTitles : first :: second :: rest = titles
      have hPair := mem_orderedPairs (bisectSeeds_mem A M first second rest)
      rw [hTitles] at hPair
      generalize bisectSeeds A M first second titles = seeds at hPair ⊢
      obtain ⟨hLeft, hRight, hPerm⟩ := foldl_bisectStep A M seeds titles ([seeds.1], [seeds.2])
      generalize titles.foldl (bisectStep A M seeds) ([seeds.1], [seeds.2]) = after at *
      obtain ⟨others, hOthers⟩ := hPair.exists_perm_append
      have hFilter : (titles.filter fun title => ¬(title = seeds.1 ∨ title = seeds.2)).Perm
          (others.filter fun title => ¬(title = seeds.1 ∨ title = seeds.2)) := by
        have := hOthers.filter fun title => ¬(title = seeds.1 ∨ title = seeds.2)
        simpa [List.filter_cons] using this
      refine ⟨fun hNil => ?_, fun hNil => ?_, ?_, fun hNodup => ?_⟩
      · rw [hNil] at hLeft
        exact absurd (List.prefix_nil.mp hLeft) (List.cons_ne_nil _ _)
      · rw [hNil] at hRight
        exact absurd (List.prefix_nil.mp hRight) (List.cons_ne_nil _ _)
      · have hLength := hPerm.length_eq
        have hTotal := hOthers.length_eq
        have hLe := List.length_filter_le (fun title => ¬(title = seeds.1 ∨ title = seeds.2)) others
        simp only [List.length_append, List.length_cons, List.length_nil] at hLength hTotal
        rw [hFilter.length_eq] at hLength
        omega
      · have hDisjoint := List.nodup_append.mp (hOthers.nodup_iff.mp hNodup)
        have hAll : others.filter (fun title => ¬(title = seeds.1 ∨ title = seeds.2)) = others := by
          apply List.filter_eq_self.mpr
          intro title hMem
          have := hDisjoint.2.2
          simp only [decide_not, Bool.not_eq_true', decide_eq_false_iff_not]
          rintro (rfl | rfl)
          · exact this _ (by simp) _ hMem rfl
          · exact this _ (by simp) _ hMem rfl
        rw [hAll] at hFilter
        exact hPerm.trans ((hFilter.append_left _).trans hOthers.symm)

/-- What is left to be split: nearly twice as much as there are titles. -/
def splitMeasure (pending : List (List Str)) : ℕ :=
  (pending.map fun cluster => if cluster = [] then 1 else 2 * cluster.length - 1).sum

theorem splitMeasure_cons (current : List Str) (pending : List (List Str)) :
    splitMeasure (current :: pending) =
      (if current = [] then 1 else 2 * current.length - 1) + splitMeasure pending :=
  List.sum_cons

theorem splitMeasure_tail_lt (current : List Str) (pending : List (List Str)) :
    splitMeasure pending < splitMeasure (current :: pending) := by
  rw [splitMeasure_cons]
  split_ifs with hNil
  · omega
  · have := List.length_pos_iff.mpr hNil
    omega

variable {A M} in
theorem two_le_of_bisect {current : List Str} (h : (bisectCluster A M current).2 ≠ []) :
    2 ≤ current.length := by
  by_contra hShort
  apply h
  match current, hShort with
  | [], _ => rfl
  | [_], _ => rfl
  | _ :: _ :: _, hShort => exact absurd (Nat.le_add_left 2 _) hShort

theorem splitMeasure_bisect_lt {current : List Str} (pending : List (List Str))
    (h : (bisectCluster A M current).2 ≠ []) :
    splitMeasure ((bisectCluster A M current).2 :: (bisectCluster A M current).1 :: pending) <
      splitMeasure (current :: pending) := by
  have hLength := two_le_of_bisect h
  obtain ⟨hLeft, hRight, hTotal, -⟩ := bisectCluster_spec A M hLength
  have hCurrent : current ≠ [] := by
    rintro rfl
    exact absurd hLength (by decide)
  rw [splitMeasure_cons, splitMeasure_cons, splitMeasure_cons, if_neg hLeft, if_neg hRight,
    if_neg hCurrent]
  have := List.length_pos_iff.mpr hLeft
  have := List.length_pos_iff.mpr hRight
  omega

/-- The stack of clusters that are to be split, with its top in front. -/
def splitPending (maxClusterSize : ℤ) (pending : List (List Str)) : List (List Str) :=
  match pending with
  | [] => []
  | current :: pending =>
      if current.length ≤ maxClusterSize then current :: splitPending maxClusterSize pending
      else if (bisectCluster A M current).2 = [] then
        current :: splitPending maxClusterSize pending
      else
        splitPending maxClusterSize
          ((bisectCluster A M current).2 :: (bisectCluster A M current).1 :: pending)
termination_by splitMeasure pending
decreasing_by
  · exact splitMeasure_tail_lt current pending
  · exact splitMeasure_tail_lt current pending
  · exact splitMeasure_bisect_lt A M pending ‹_›

def splitOversizedClusters (maxClusterSize : ℤ) (clusters : List (List Str)) : List (List Str) :=
  clusters.flatMap fun cluster => splitPending A M maxClusterSize [cluster]

end Splitting

section Balancing

variable (A : Arithmetic S) (M : Similarity S)

/-- `xs[:k]`. -/
def sliceTo {α : Type} (xs : List α) (k : ℤ) : List α :=
  if 0 ≤ k then xs.take k.toNat else xs.take (xs.length - (-k).toNat)

def greedySemanticBin (maxClusterSize : ℤ) (seed : Str) (candidates : List Str) : List Str :=
  if candidates = [] then [seed]
  else sorted (seed :: sliceTo (sortedByScore A (M.pair seed) candidates) (maxClusterSize - 1))

/-- The kept cluster with room that a page is most similar to, and how much. -/
def bestCluster (maxClusterSize : ℤ) (kept : List (List Str)) (page : Str) : Option ℕ × S :=
  kept.zipIdx.foldl (fun best entry =>
    if entry.1.length ≥ maxClusterSize then best
    else
      let score := clusterAvgSimilarity A M [page] entry.1
      if A.lt best.2 score then (some entry.2, score) else best) (none, A.negOne)

def targetSize (minClusterSize maxClusterSize remaining : ℤ) : ℤ :=
  let targetSize := min maxClusterSize (max minClusterSize remaining)
  if remaining > maxClusterSize ∧ remaining - targetSize < minClusterSize then
    remaining - minClusterSize
  else targetSize

/-- `for title in picked[1:]: if title in pool: pool.remove(title)`. -/
def removePicked (pool picked : List Str) : List Str := picked.tail.foldl List.erase pool

theorem length_removePicked_le (pool picked : List Str) :
    (removePicked pool picked).length ≤ pool.length := by
  rw [removePicked, ← List.diff_eq_foldl]
  exact (List.diff_sublist pool picked.tail).length_le

def packPool (minClusterSize maxClusterSize : ℤ) (kept : List (List Str)) :
    List Str → List (List Str)
  | [] => kept
  | page :: pool =>
      match bestCluster A M maxClusterSize kept page with
      | (some idx, score) =>
          if A.lt A.zero score then
            packPool minClusterSize maxClusterSize
              (kept.modify idx fun cluster => sorted (cluster ++ [page])) pool
          else
            let picked := greedySemanticBin A M
              (targetSize minClusterSize maxClusterSize (page :: pool).length) page pool
            packPool minClusterSize maxClusterSize (kept ++ [picked]) (removePicked pool picked)
      | (none, _) =>
          let picked := greedySemanticBin A M
            (targetSize minClusterSize maxClusterSize (page :: pool).length) page pool
          packPool minClusterSize maxClusterSize (kept ++ [picked]) (removePicked pool picked)
termination_by pool => pool.length
decreasing_by
  · exact Nat.lt_succ_self _
  · exact Nat.lt_succ_of_le (length_removePicked_le _ _)
  · exact Nat.lt_succ_of_le (length_removePicked_le _ _)

def finalizeClusterBalance (minClusterSize maxClusterSize : ℤ) (clusters : List (List Str)) :
    List (List Str) :=
  let kept := (clusters.filter fun cluster => minClusterSize ≤ cluster.length).map sorted
  let pool := (clusters.filter fun cluster => ¬minClusterSize ≤ cluster.length).flatten
  splitOversizedClusters A M maxClusterSize
    (packPool A M minClusterSize maxClusterSize kept (sorted pool.dedup))

/-- `for _ in range(3)`, which ends when all clusters are large enough. -/
def rebalance (minClusterSize maxClusterSize : ℤ) : ℕ → List (List Str) → List (List Str)
  | 0, clusters => clusters
  | left + 1, clusters =>
      let clusters := finalizeClusterBalance A M minClusterSize maxClusterSize clusters
      if clusters.all fun cluster => minClusterSize ≤ cluster.length then clusters
      else rebalance minClusterSize maxClusterSize left clusters

end Balancing

section Computing

variable (A : Arithmetic S) (M : Similarity S)

abbrev CatalogPages := InsertionDict Str (Option CatalogRow)

/-- The titles that are clustered. Where a graph is given, its journal pages are not. -/
def clusterableCatalogTitles (pages : CatalogPages) (isJournalPageTitle : Option (Str → Bool)) :
    List Str :=
  match isJournalPageTitle with
  | none => sorted pages.keys
  | some isJournal => (sorted pages.keys).filter fun title => !isJournal title

def blockKey (pages : CatalogPages) (title : Str) : Str :=
  match (pages.get? title).join with
  | some ⟨some (tag :: _)⟩ => M.lower tag
  | _ => title.take 24

def clusterName (index : ℕ) : Str := "cluster_".toList ++ zeroPadded 3 index

def nameClusters (clusters : List (List Str)) : InsertionDict Str (List Str) :=
  let clusters := clusters.insertionSort fun a b => a.headD [] ≤ b.headD []
  (clusters.zipIdx 1).foldl (fun result entry =>
    result.put (clusterName entry.2) (sorted entry.1)) InsertionDict.empty

def computeSemanticClusters (pages : CatalogPages) (isJournalPageTitle : Option (Str → Bool))
    (maxClusterSize minClusterSize : ℤ) : InsertionDict Str (List Str) :=
  let titles := clusterableCatalogTitles pages isJournalPageTitle
  match titles with
  | [] => InsertionDict.empty
  | [title] => InsertionDict.empty.put (clusterName 1) [title]
  | _ =>
      let adjacency := buildSimilarityGraph A M (blockKey M pages) 20 titles
      let assignments := louvainCommunities A adjacency louvainMaxIterations titles
      let clusters := communitiesToClusters assignments
      let effectiveMin := min minClusterSize maxClusterSize
      let effectiveMin := if titles.length < effectiveMin then 1 else effectiveMin
      let clusters := splitOversizedClusters A M maxClusterSize clusters
      let clusters :=
        if 1 < effectiveMin then rebalance A M effectiveMin maxClusterSize 3 clusters
        else clusters
      nameClusters clusters

end Computing

end Plumber.Clustering
