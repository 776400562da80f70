import MatrycaPlumber.System.BreadthFirst
import MatrycaPlumber.Text.PercentCoding
import Mathlib.Data.Char
import Mathlib.Data.List.GetD
import Mathlib.Data.List.Lex
import Mathlib.Data.Prod.Lex

/-! The structural graph of the pages, in which pages are linked by wikilinks, by shared tags and
by rings of one type or domain, and the hops from some pages to what is around them. -/
namespace Plumber.LinkTagHop

open PyText BreadthFirst

section Model

inductive Reason where
  | wikilink
  | tag
  | sameType
  | sameDomain
  deriving DecidableEq

def Reason.text : Reason → Str
  | .wikilink => "wikilink".toList
  | .tag => "tag".toList
  | .sameType => "same_type".toList
  | .sameDomain => "same_domain".toList

theorem Reason.text_injective : Function.Injective Reason.text := by
  intro a b h
  cases a <;> cases b <;> first | rfl | exact absurd h (by decide)

/-- Reasons are sorted as the texts they are. -/
instance : LinearOrder Reason := LinearOrder.lift' Reason.text Reason.text_injective

/-- `(target, reason)` among the edges of `source`. -/
structure Hop where
  source : Str
  target : Str
  reason : Reason
  deriving DecidableEq

/-- What the patterns find in the text of a page: the targets of its wikilinks, its tags in lower
case, and its first `type::` and `domain::`. -/
structure PageFacts where
  links : List Str
  tags : List Str
  type : Option Str
  domain : Option Str
  deriving DecidableEq

/-- A scanned file. One that cannot be read has a stem only. -/
structure ScannedPage where
  stem : Str
  facts : Option PageFacts
  deriving DecidableEq

/-- The files under `pages/` that a target may stand for, in their order. -/
def targetCandidates (raw : Str) : List Str :=
  let replaceBy (c d : Char) (s : Str) : Str := s.map fun x => if x = c then d else x
  [raw, replaceBy '/' '_' raw, unquote raw, replaceBy '/' '_' (unquote raw), replaceBy ' ' '_' raw]

/-- The stem of the first candidate that is a file; `file` has the stem of `pages/{c}.md`. -/
def resolveTargetToStem (file : Str → Option Str) (target : Str) : Option Str :=
  let raw := strip target
  if raw = [] then none else (targetCandidates raw).findSome? file

/-- Both directions of an edge. -/
def between (a b : Str) (reason : Reason) : Finset Hop := {⟨a, b, reason⟩, ⟨b, a, reason⟩}

def wikilinkEdges (file : Str → Option Str) (pages : List ScannedPage) (page : ScannedPage) :
    Finset Hop :=
  match page.facts with
  | none => ∅
  | some facts =>
      facts.links.toFinset.biUnion fun target =>
        match resolveTargetToStem file target with
        | some other =>
            if other ≠ [] ∧ other ≠ page.stem ∧ other ∈ pages.map (·.stem) then
              between page.stem other .wikilink
            else ∅
        | none => ∅

def ScannedPage.tags (page : ScannedPage) : List Str := (page.facts.map (·.tags)).getD []

/-- `tag_to_pages[tag]`. -/
def tagToPages (pages : List ScannedPage) (tag : Str) : Finset Str :=
  ((pages.filter (tag ∈ ·.tags)).map (·.stem)).toFinset

/-- Every two pages of a sorted list. -/
def clique : List Str → Finset Hop
  | [] => ∅
  | a :: rest => (rest.toFinset.biUnion fun b => between a b .tag) ∪ clique rest

/-- The stems in a ring, each linked with the next. -/
def addRing (group : List Str) (reason : Reason) : Finset Hop :=
  if group.length < 2 then ∅
  else
    let ring := group.toFinset.sort
    (Finset.range ring.length).biUnion fun i =>
      between (ring.getD i []) (ring.getD ((i + 1) % ring.length) []) reason

/-- The key under which a page is grouped by its type or domain. -/
def groupKey (lower : Str → Str) (field : PageFacts → Option Str) (page : ScannedPage) :
    Option Str :=
  ((page.facts.bind field).filter (· ≠ [])).map lower

def groupOf (lower : Str → Str) (field : PageFacts → Option Str) (pages : List ScannedPage)
    (key : Str) : List Str :=
  (pages.filter (groupKey lower field · = some key)).map (·.stem)

def ringEdges (lower : Str → Str) (field : PageFacts → Option Str) (reason : Reason)
    (pages : List ScannedPage) : Finset Hop :=
  (pages.filterMap (groupKey lower field)).toFinset.biUnion fun key =>
    addRing (groupOf lower field pages key) reason

def buildStructuralGraph (lower : Str → Str) (file : Str → Option Str)
    (pages : List ScannedPage) : Finset Hop :=
  pages.toFinset.biUnion (wikilinkEdges file pages) ∪
    (pages.flatMap (·.tags)).toFinset.biUnion (fun tag => clique (tagToPages pages tag).sort) ∪
    ringEdges lower (·.type) .sameType pages ∪ ringEdges lower (·.domain) .sameDomain pages

/-- The page that a seed stands for, which may be named by its file as well. -/
def seedStem (file : Str → Option Str) (seed : Str) : Str :=
  match resolveTargetToStem file seed with
  | some stem => stem
  | none => if (file seed).isSome then seed else []

/-- The pages that the seeds stand for, each once. -/
def resolveSeedStems (file : Str → Option Str) (seeds : List Str) : List Str :=
  seeds.foldl (fun resolved seed =>
    if seedStem file seed ≠ [] ∧ seedStem file seed ∉ resolved then
      resolved ++ [seedStem file seed]
    else resolved) []

/-- `adj.get(u, ())`. -/
def adjacent (graph : Finset Hop) (u : Str) : Finset (Str ×ₗ Reason) :=
  (graph.filter (·.source = u)).image fun hop => toLex (hop.target, hop.reason)

def Hop.key (hop : Hop) : Str ×ₗ Reason ×ₗ Str := toLex (hop.target, toLex (hop.reason, hop.source))

/-- The hops of one level: the candidates in order, for each new page the first. -/
def expandBfsFrontier (graph : Finset Hop) (maxPerLevel : ℕ) (visited : Finset Str)
    (frontier : List Str) : List Hop :=
  let candidates := frontier.flatMap fun u =>
    ((adjacent graph u).sort.filter fun p => (ofLex p).1 ∉ visited).map fun p =>
      (⟨u, (ofLex p).1, (ofLex p).2⟩ : Hop)
  firsts Hop.target maxPerLevel visited (candidates.insertionSort (Hop.key · ≤ Hop.key ·))

structure Level where
  depth : ℕ
  stems : List Str
  new : List Str

/-- The loop over the depths that are left. -/
def bfsLoop (graph : Finset Hop) (maxPerLevel : ℕ) :
    ℕ → ℕ → Finset Str → List Str → List Level × List (Hop × ℕ)
  | 0, _, _, _ => ([], [])
  | n + 1, depth, visited, frontier =>
      if frontier = [] then ([], [])
      else
        let hops := expandBfsFrontier graph maxPerLevel visited frontier
        let stems := hops.map (·.target)
        let below := bfsLoop graph maxPerLevel n (depth + 1) (visited ∪ stems.toFinset) stems
        (⟨depth, stems, stems⟩ :: below.1, hops.map (·, depth) ++ below.2)

/-- The levels and the edges that were used, each with its depth. -/
def bfsHops (graph : Finset Hop) (resolved : List Str) (maxDepth maxPerLevel : ℕ) :
    List Level × List (Hop × ℕ) :=
  let below := bfsLoop graph maxPerLevel maxDepth 1 resolved.toFinset resolved
  (⟨0, resolved, resolved⟩ :: below.1, below.2)

end Model

section Traversal

variable {graph : Finset Hop} {cap : ℕ} {visited : Finset Str} {frontier : List Str}

/-- The pages that a page is linked with. -/
def neighbours (graph : Finset Hop) (u : Str) : Finset Str :=
  (graph.filter (·.source = u)).image (·.target)

theorem mem_neighbours {u v : Str} :
    v ∈ neighbours graph u ↔ ∃ reason, ⟨u, v, reason⟩ ∈ graph := by
  rw [neighbours, Finset.mem_image]
  constructor
  · rintro ⟨⟨source, target, reason⟩, hMem, rfl⟩
    obtain ⟨hGraph, rfl⟩ := Finset.mem_filter.mp hMem
    exact ⟨reason, hGraph⟩
  · rintro ⟨reason, hGraph⟩
    exact ⟨⟨u, v, reason⟩, Finset.mem_filter.mpr ⟨hGraph, rfl⟩, rfl⟩

theorem mem_adjacent {u : Str} {p : Str ×ₗ Reason} :
    p ∈ adjacent graph u ↔ ⟨u, (ofLex p).1, (ofLex p).2⟩ ∈ graph := by
  rw [adjacent, Finset.mem_image]
  constructor
  · rintro ⟨⟨source, target, reason⟩, hMem, rfl⟩
    obtain ⟨hGraph, rfl⟩ := Finset.mem_filter.mp hMem
    exact hGraph
  · intro hGraph
    exact ⟨_, Finset.mem_filter.mpr ⟨hGraph, rfl⟩, rfl⟩

theorem mem_candidates {hop : Hop} :
    hop ∈ (frontier.flatMap fun u =>
      ((adjacent graph u).sort.filter fun p => (ofLex p).1 ∉ visited).map fun p =>
        (⟨u, (ofLex p).1, (ofLex p).2⟩ : Hop)) ↔
      hop ∈ graph ∧ hop.source ∈ frontier ∧ hop.target ∉ visited := by
  rw [List.mem_flatMap]
  constructor
  · rintro ⟨u, hU, hMem⟩
    obtain ⟨p, hP, rfl⟩ := List.mem_map.mp hMem
    obtain ⟨hAdjacent, hNew⟩ := List.mem_filter.mp hP
    exact ⟨mem_adjacent.mp ((Finset.mem_sort _).mp hAdjacent), hU, of_decide_eq_true hNew⟩
  · rintro ⟨hGraph, hSource, hNew⟩
    refine ⟨hop.source, hSource, List.mem_map.mpr ⟨toLex (hop.target, hop.reason), ?_, rfl⟩⟩
    refine List.mem_filter.mpr ⟨(Finset.mem_sort _).mpr (mem_adjacent.mpr hGraph), ?_⟩
    exact decide_eq_true hNew

/-- Every hop of a level goes from the level above to a new page. -/
theorem mem_expandBfsFrontier {hop : Hop} (h : hop ∈ expandBfsFrontier graph cap visited frontier) :
    hop ∈ graph ∧ hop.source ∈ frontier ∧ hop.target ∉ visited := by
  have hSorted := (firsts_sublist cap visited _).subset h
  rw [List.mem_insertionSort] at hSorted
  exact mem_candidates.mp hSorted

/-- The pages of a level are the first of the new neighbours. -/
theorem map_target_expandBfsFrontier :
    (expandBfsFrontier graph cap visited frontier).map Hop.target =
      next (neighbours graph) cap visited frontier := by
  have hSorted (hops : List Hop) :
      ((hops.insertionSort (Hop.key · ≤ Hop.key ·)).map Hop.target).Pairwise (· ≤ ·) := by
    rw [List.pairwise_map]
    refine (List.pairwise_insertionSort (Hop.key · ≤ Hop.key ·) hops).imp ?_
    intro a b hLe
    rcases Prod.Lex.le_iff.mp hLe with hLt | hEq
    · exact le_of_lt hLt
    · exact le_of_eq hEq.1
  rw [expandBfsFrontier, map_firsts cap visited (hSorted _), next]
  congr 2
  ext v
  rw [Finset.mem_sdiff, Finset.mem_sdiff, List.mem_toFinset, List.mem_map, Finset.mem_biUnion]
  constructor
  · rintro ⟨⟨hop, hMem, rfl⟩, hNew⟩
    rw [List.mem_insertionSort, mem_candidates] at hMem
    exact ⟨⟨hop.source, List.mem_toFinset.mpr hMem.2.1,
      mem_neighbours.mpr ⟨hop.reason, hMem.1⟩⟩, hNew⟩
  · rintro ⟨⟨u, hU, hLink⟩, hNew⟩
    obtain ⟨reason, hGraph⟩ := mem_neighbours.mp hLink
    refine ⟨⟨⟨u, v, reason⟩, ?_, rfl⟩, hNew⟩
    rw [List.mem_insertionSort, mem_candidates]
    exact ⟨hGraph, List.mem_toFinset.mp hU, hNew⟩

/-- The loop goes through the levels of the search. -/
theorem bfsLoop_levels (n depth : ℕ) (visited : Finset Str) (frontier : List Str) :
    (bfsLoop graph cap n depth visited frontier).1.map (·.stems) =
      levels (neighbours graph) cap n visited frontier := by
  induction n generalizing depth visited frontier with
  | zero => rfl
  | succ n ih =>
      rw [bfsLoop, levels]
      split_ifs
      · rfl
      · dsimp only
        rw [List.map_cons, ih, ← map_target_expandBfsFrontier]

/-- What is known of the edge by which a page was found at some depth. -/
structure Found (graph : Finset Hop) (levels : List Level) (edge : Hop × ℕ) : Prop where
  linked : edge.1 ∈ graph
  above : ∃ d level, edge.2 = d + 1 ∧ levels[d]? = some level ∧ edge.1.source ∈ level.stems
  here : ∃ level, levels[edge.2]? = some level ∧ edge.1.target ∈ level.stems

/-- The levels below a level, and the edges that lead to them. -/
structure Below (graph : Finset Hop) (cap : ℕ) (depth : ℕ) (frontier : List Str)
    (below : List Level × List (Hop × ℕ)) : Prop where
  depths : ∀ k level, below.1[k]? = some level → level.depth = depth + k
  length : ∀ level ∈ below.1, level.stems.length ≤ cap ∧ level.new = level.stems
  targets : below.2.map (·.1.target) = below.1.flatMap (·.stems)
  edges : ∀ edge ∈ below.2, edge.1 ∈ graph ∧ ∃ k,
    edge.2 = depth + k ∧ (∃ level, below.1[k]? = some level ∧ edge.1.target ∈ level.stems) ∧
      match k with
      | 0 => edge.1.source ∈ frontier
      | k + 1 => ∃ level, below.1[k]? = some level ∧ edge.1.source ∈ level.stems

theorem Below.nil (depth : ℕ) (frontier : List Str) : Below graph cap depth frontier ([], []) where
  depths k level h := by cases h
  length := List.forall_mem_nil _
  targets := rfl
  edges := List.forall_mem_nil _

theorem bfsLoop_below (n depth : ℕ) (visited : Finset Str) (frontier : List Str) :
    Below graph cap depth frontier (bfsLoop graph cap n depth visited frontier) := by
  induction n generalizing depth visited frontier with
  | zero => exact .nil depth frontier
  | succ n ih =>
      rw [bfsLoop]
      split_ifs
      · exact .nil depth frontier
      dsimp only
      generalize hHops : expandBfsFrontier graph cap visited frontier = hops
      have hBelow := ih (depth + 1) (visited ∪ (hops.map (·.target)).toFinset)
        (hops.map (·.target))
      have hFrom {hop : Hop} (hMem : hop ∈ hops) : hop ∈ graph ∧ hop.source ∈ frontier := by
        rw [← hHops] at hMem
        exact ⟨(mem_expandBfsFrontier hMem).1, (mem_expandBfsFrontier hMem).2.1⟩
      refine ⟨?_, ?_, ?_, ?_⟩
      · intro k level hLevel
        cases k with
        | zero => exact (congrArg Level.depth (Option.some.inj hLevel)).symm
        | succ k =>
            rw [hBelow.depths k level hLevel]
            omega
      · refine List.forall_mem_cons.mpr ⟨⟨?_, rfl⟩, hBelow.length⟩
        have hLength := @length_next_le _ _ _ (neighbours graph) cap visited frontier
        rw [← map_target_expandBfsFrontier, hHops] at hLength
        exact hLength
      · rw [List.map_append, List.map_map, hBelow.targets, List.flatMap_cons]
        rfl
      · intro edge hEdge
        rcases List.mem_append.mp hEdge with hHere | hLater
        · obtain ⟨hop, hMem, rfl⟩ := List.mem_map.mp hHere
          exact ⟨(hFrom hMem).1, 0, rfl, ⟨_, rfl, List.mem_map_of_mem hMem⟩, (hFrom hMem).2⟩
        · obtain ⟨hGraph, k, hDepth, hTarget, hSource⟩ := hBelow.edges edge hLater
          refine ⟨hGraph, k + 1, by omega, hTarget, ?_⟩
          cases k with
          | zero => exact ⟨_, rfl, hSource⟩
          | succ k => exact hSource

theorem nodup_resolveSeedStems (file : Str → Option Str) (seeds : List Str) :
    (resolveSeedStems file seeds).Nodup := by
  rw [resolveSeedStems]
  refine List.foldlRecOn seeds _ List.nodup_nil ?_
  intro resolved hNodup seed _
  split_ifs with hNew
  · exact List.nodup_append.mpr ⟨hNodup, List.nodup_singleton _, by
      rintro a hA b hB rfl
      exact hNew.2 (List.mem_singleton.mp hB ▸ hA)⟩
  · exact hNodup

/-- A forest over the seeds: no page is on two levels, and every page below the seeds has one
edge, which comes from a page one level above. -/
structure Forest (graph : Finset Hop) (cap : ℕ) (levels : List Level) (edges : List (Hop × ℕ)) :
    Prop where
  nodup : (levels.flatMap (·.stems)).Nodup
  targets : edges.map (·.1.target) = levels.tail.flatMap (·.stems)
  depths : ∀ k level, levels[k]? = some level →
    level.depth = k ∧ (0 < k → level.stems.length ≤ cap)
  found : ∀ edge ∈ edges, Found graph levels edge

/-- There is an edge between two pages. -/
def Linked (graph : Finset Hop) (u v : Str) : Prop := ∃ reason, ⟨u, v, reason⟩ ∈ graph

/-- The pages of a level. -/
def stemsAt (levels : List Level) (k : ℕ) : List Str := (levels.map (·.stems)).getD k []

/-- As long as the levels above it are not full, a level consists of the first of the pages at
its distance from the seeds, in their order, and of all of them when it is not full itself. -/
theorem stemsAt_distance (graph : Finset Hop) (resolved : List Str) {maxDepth cap k : ℕ}
    (hK : k < maxDepth) (hFree : ∀ j, 0 < j → j ≤ k →
      (stemsAt (bfsHops graph resolved maxDepth cap).1 j).length < cap) :
    ∃ layer : Finset Str,
      (∀ v, v ∈ layer ↔ AtDistance (Linked graph) (· ∈ resolved) (k + 1) v) ∧
        stemsAt (bfsHops graph resolved maxDepth cap).1 (k + 1) = layer.sort.take cap ∧
        ((stemsAt (bfsHops graph resolved maxDepth cap).1 (k + 1)).length < cap →
          stemsAt (bfsHops graph resolved maxDepth cap).1 (k + 1) = layer.sort) := by
  have hLinked : (fun u v => v ∈ neighbours graph u) = Linked graph := by
    funext u v
    exact propext mem_neighbours
  have hBelow (j : ℕ) : stemsAt (bfsHops graph resolved maxDepth cap).1 (j + 1) =
      (levels (neighbours graph) cap maxDepth resolved.toFinset resolved).getD j [] := by
    rw [stemsAt, bfsHops, List.map_cons, List.getD_cons_succ, bfsLoop_levels]
  have hStart (v : Str) :
      v ∈ resolved ↔ AtDistance (Linked graph) (· ∈ resolved) 0 v := atDistance_zero.symm
  have hSeen (v : Str) : v ∈ resolved.toFinset ↔
      ∃ m ≤ 0, AtDistance (Linked graph) (· ∈ resolved) m v := by
    rw [List.mem_toFinset, hStart]
    constructor
    · exact fun hAt => ⟨0, le_rfl, hAt⟩
    · rintro ⟨m, hLe, hAt⟩
      rwa [Nat.le_zero.mp hLe] at hAt
  rw [← hLinked] at hStart hSeen ⊢
  obtain ⟨layer, hLayer, hLevel⟩ := levels_eq_layer hStart hSeen hK fun j hJ => by
    rw [← hBelow]
    exact hFree (j + 1) j.succ_pos hJ
  rw [Nat.zero_add, Nat.add_comm] at hLayer
  rw [hBelow, hLevel]
  refine ⟨layer, hLayer, rfl, fun hLength => ?_⟩
  rw [List.length_take, min_lt_iff] at hLength
  exact List.take_of_length_le (hLength.resolve_left (lt_irrefl cap)).le

theorem stemsAt_distance_second :
    ∃ layer : Finset Str, (∀ v, v ∈ layer ↔ AtDistance (Linked
      (between ['A'] ['B'] .wikilink ∪ between ['B'] ['C'] .tag)) (· ∈ [['A']]) 2 v) ∧
      stemsAt (bfsHops (between ['A'] ['B'] .wikilink ∪ between ['B'] ['C'] .tag)
        [['A']] 3 2).1 2 = layer.sort.take 2 ∧
      ((stemsAt (bfsHops (between ['A'] ['B'] .wikilink ∪ between ['B'] ['C'] .tag)
        [['A']] 3 2).1 2).length < 2 →
        stemsAt (bfsHops (between ['A'] ['B'] .wikilink ∪ between ['B'] ['C'] .tag)
          [['A']] 3 2).1 2 = layer.sort) := by
  refine stemsAt_distance _ [['A']] (by decide) ?_
  intro j hPos hLe
  obtain rfl : j = 1 := by omega
  decide +kernel

end Traversal

section Edges

variable {a b : Str} {reason r : Reason} {graph : Finset Hop}

theorem mem_between {hop : Hop} :
    hop ∈ between a b reason ↔ hop = ⟨a, b, reason⟩ ∨ hop = ⟨b, a, reason⟩ := by
  rw [between, Finset.mem_insert, Finset.mem_singleton]

/-- Every edge is there in both directions. -/
def Undirected (graph : Finset Hop) : Prop := ∀ a b r, ⟨a, b, r⟩ ∈ graph → ⟨b, a, r⟩ ∈ graph

theorem Undirected.empty : Undirected ∅ :=
  fun _ _ _ h => absurd h (Finset.notMem_empty _)

theorem Undirected.between (a b : Str) (reason : Reason) : Undirected (between a b reason) := by
  intro u v r h
  rw [mem_between, Hop.mk.injEq, Hop.mk.injEq] at h ⊢
  rcases h with ⟨rfl, rfl, rfl⟩ | ⟨rfl, rfl, rfl⟩
  · exact .inr ⟨rfl, rfl, rfl⟩
  · exact .inl ⟨rfl, rfl, rfl⟩

theorem Undirected.union {other : Finset Hop} (h : Undirected graph) (hOther : Undirected other) :
    Undirected (graph ∪ other) := by
  intro a b r hMem
  rw [Finset.mem_union] at hMem ⊢
  exact hMem.imp (h a b r) (hOther a b r)

theorem Undirected.biUnion {ι : Type} [DecidableEq ι] {f : ι → Finset Hop} (s : Finset ι)
    (h : ∀ i, Undirected (f i)) : Undirected (s.biUnion f) := by
  intro a b r hMem
  rw [Finset.mem_biUnion] at hMem ⊢
  obtain ⟨i, hI, hEdge⟩ := hMem
  exact ⟨i, hI, h i a b r hEdge⟩

theorem undirected_wikilinkEdges (file : Str → Option Str) (pages : List ScannedPage)
    (page : ScannedPage) : Undirected (wikilinkEdges file pages page) := by
  rw [wikilinkEdges]
  split
  · exact .empty
  · refine .biUnion _ fun target => ?_
    split
    · split_ifs
      · exact .between _ _ _
      · exact .empty
    · exact .empty

theorem undirected_clique (stems : List Str) : Undirected (clique stems) := by
  induction stems with
  | nil => exact .empty
  | cons a rest ih => exact .union (.biUnion _ fun b => .between a b .tag) ih

theorem undirected_addRing (group : List Str) (reason : Reason) :
    Undirected (addRing group reason) := by
  rw [addRing]
  split_ifs
  · exact .empty
  · exact .biUnion _ fun i => .between _ _ _

theorem undirected_buildStructuralGraph (lower : Str → Str) (file : Str → Option Str)
    (pages : List ScannedPage) : Undirected (buildStructuralGraph lower file pages) := by
  refine .union (.union (.union ?_ ?_) ?_) ?_
  · exact .biUnion _ (undirected_wikilinkEdges file pages)
  · exact .biUnion _ fun tag => undirected_clique _
  · exact .biUnion _ fun key => undirected_addRing _ _
  · exact .biUnion _ fun key => undirected_addRing _ _

/-- A file with the stem `a` has a wikilink that stands for the scanned page `b`. -/
def LinksTo (file : Str → Option Str) (pages : List ScannedPage) (a b : Str) : Prop :=
  b ≠ [] ∧ b ∈ pages.map (·.stem) ∧
    ∃ page ∈ pages, page.stem = a ∧ ∃ facts, page.facts = some facts ∧
      ∃ target ∈ facts.links, resolveTargetToStem file target = some b

theorem mem_wikilinkEdges {file : Str → Option Str} {pages : List ScannedPage} :
    ⟨a, b, r⟩ ∈ pages.toFinset.biUnion (wikilinkEdges file pages) ↔
      r = .wikilink ∧ a ≠ b ∧ (LinksTo file pages a b ∨ LinksTo file pages b a) := by
  rw [Finset.mem_biUnion]
  constructor
  · rintro ⟨page, hPage, hMem⟩
    rw [List.mem_toFinset] at hPage
    rw [wikilinkEdges] at hMem
    split at hMem
    · exact absurd hMem (Finset.notMem_empty _)
    · next facts hFacts =>
        obtain ⟨target, hTarget, hEdge⟩ := Finset.mem_biUnion.mp hMem
        split at hEdge
        · next other hOther =>
            split_ifs at hEdge with hNew
            · have hLinks : LinksTo file pages page.stem other :=
                ⟨hNew.1, hNew.2.2, page, hPage, rfl, facts, hFacts, target,
                  List.mem_toFinset.mp hTarget, hOther⟩
              rw [mem_between, Hop.mk.injEq, Hop.mk.injEq] at hEdge
              rcases hEdge with ⟨rfl, rfl, rfl⟩ | ⟨rfl, rfl, rfl⟩
              · exact ⟨rfl, hNew.2.1.symm, .inl hLinks⟩
              · exact ⟨rfl, hNew.2.1, .inr hLinks⟩
            · exact absurd hEdge (Finset.notMem_empty _)
        · exact absurd hEdge (Finset.notMem_empty _)
  · have hOne {a b : Str} (hNe : a ≠ b) (hLinks : LinksTo file pages a b) :
        ∃ page ∈ pages.toFinset, ⟨a, b, .wikilink⟩ ∈ wikilinkEdges file pages page := by
      obtain ⟨hSome, hStem, page, hPage, rfl, facts, hFacts, target, hTarget, hOther⟩ := hLinks
      refine ⟨page, List.mem_toFinset.mpr hPage, ?_⟩
      rw [wikilinkEdges, hFacts]
      refine Finset.mem_biUnion.mpr ⟨target, List.mem_toFinset.mpr hTarget, ?_⟩
      rw [hOther]
      dsimp only
      rw [if_pos ⟨hSome, hNe.symm, hStem⟩]
      exact mem_between.mpr (.inl rfl)
    rintro ⟨rfl, hNe, hLinks | hLinks⟩
    · exact hOne hNe hLinks
    · obtain ⟨page, hPage, hEdge⟩ := hOne hNe.symm hLinks
      exact ⟨page, hPage, undirected_wikilinkEdges file pages page _ _ _ hEdge⟩

theorem mem_clique {stems : List Str} (hNodup : stems.Nodup) :
    ⟨a, b, r⟩ ∈ clique stems ↔ r = .tag ∧ a ≠ b ∧ a ∈ stems ∧ b ∈ stems := by
  induction stems with
  | nil => simp [clique]
  | cons c rest ih =>
      rw [List.nodup_cons] at hNodup
      rw [clique, Finset.mem_union, ih hNodup.2, Finset.mem_biUnion]
      constructor
      · rintro (⟨d, hD, hEdge⟩ | ⟨rfl, hNe, hA, hB⟩)
        · have hMem := List.mem_toFinset.mp hD
          have hNe : c ≠ d := by
            rintro rfl
            exact hNodup.1 hMem
          rw [mem_between, Hop.mk.injEq, Hop.mk.injEq] at hEdge
          rcases hEdge with ⟨rfl, rfl, rfl⟩ | ⟨rfl, rfl, rfl⟩
          · exact ⟨rfl, hNe, List.mem_cons_self, List.mem_cons_of_mem _ hMem⟩
          · exact ⟨rfl, hNe.symm, List.mem_cons_of_mem _ hMem, List.mem_cons_self⟩
        · exact ⟨rfl, hNe, List.mem_cons_of_mem _ hA, List.mem_cons_of_mem _ hB⟩
      · rintro ⟨rfl, hNe, hA, hB⟩
        rcases List.mem_cons.mp hA with rfl | hRestA
        · have hRestB := (List.mem_cons.mp hB).resolve_left hNe.symm
          exact .inl ⟨b, List.mem_toFinset.mpr hRestB, mem_between.mpr (.inl rfl)⟩
        · rcases List.mem_cons.mp hB with rfl | hRestB
          · exact .inl ⟨a, List.mem_toFinset.mpr hRestA, mem_between.mpr (.inr rfl)⟩
          · exact .inr ⟨rfl, hNe, hRestA, hRestB⟩

theorem mem_tagToPages {pages : List ScannedPage} {tag : Str} :
    a ∈ tagToPages pages tag ↔ ∃ page ∈ pages, tag ∈ page.tags ∧ page.stem = a := by
  rw [tagToPages, List.mem_toFinset, List.mem_map]
  constructor
  · rintro ⟨page, hMem, rfl⟩
    obtain ⟨hPage, hTag⟩ := List.mem_filter.mp hMem
    exact ⟨page, hPage, of_decide_eq_true hTag, rfl⟩
  · rintro ⟨page, hPage, hTag, rfl⟩
    exact ⟨page, List.mem_filter.mpr ⟨hPage, decide_eq_true hTag⟩, rfl⟩

theorem mem_tagEdges {pages : List ScannedPage} :
    ⟨a, b, r⟩ ∈ (pages.flatMap (·.tags)).toFinset.biUnion
        (fun tag => clique (tagToPages pages tag).sort) ↔
      r = .tag ∧ a ≠ b ∧ ∃ tag, a ∈ tagToPages pages tag ∧ b ∈ tagToPages pages tag := by
  rw [Finset.mem_biUnion]
  constructor
  · rintro ⟨tag, -, hEdge⟩
    rw [mem_clique (Finset.sort_nodup _ _), Finset.mem_sort, Finset.mem_sort] at hEdge
    exact ⟨hEdge.1, hEdge.2.1, tag, hEdge.2.2⟩
  · rintro ⟨rfl, hNe, tag, hA, hB⟩
    refine ⟨tag, ?_, ?_⟩
    · obtain ⟨page, hPage, hTag, -⟩ := mem_tagToPages.mp hA
      exact List.mem_toFinset.mpr (List.mem_flatMap.mpr ⟨page, hPage, hTag⟩)
    · rw [mem_clique (Finset.sort_nodup _ _), Finset.mem_sort, Finset.mem_sort]
      exact ⟨rfl, hNe, hA, hB⟩

theorem reason_of_mem_addRing {group : List Str} (h : ⟨a, b, r⟩ ∈ addRing group reason) :
    r = reason := by
  rw [addRing] at h
  split_ifs at h
  · exact absurd h (Finset.notMem_empty _)
  · obtain ⟨i, -, hEdge⟩ := Finset.mem_biUnion.mp h
    rw [mem_between, Hop.mk.injEq, Hop.mk.injEq] at hEdge
    rcases hEdge with ⟨-, -, rfl⟩ | ⟨-, -, rfl⟩ <;> rfl

theorem reason_of_mem_ringEdges {lower : Str → Str} {field : PageFacts → Option Str}
    {pages : List ScannedPage} (h : ⟨a, b, r⟩ ∈ ringEdges lower field reason pages) :
    r = reason := by
  obtain ⟨key, -, hEdge⟩ := Finset.mem_biUnion.mp h
  exact reason_of_mem_addRing hEdge

/-- The structural graph is undirected. Two pages are linked by a wikilink just when one of them
links to the other, and by a tag just when they share one, and no page is so linked with itself. -/
theorem structuralGraph_edges (lower : Str → Str) (file : Str → Option Str)
    (pages : List ScannedPage) :
    Undirected (buildStructuralGraph lower file pages) ∧
      (∀ a b, ⟨a, b, .wikilink⟩ ∈ buildStructuralGraph lower file pages ↔
        a ≠ b ∧ (LinksTo file pages a b ∨ LinksTo file pages b a)) ∧
      ∀ a b, ⟨a, b, .tag⟩ ∈ buildStructuralGraph lower file pages ↔
        a ≠ b ∧ ∃ tag, a ∈ tagToPages pages tag ∧ b ∈ tagToPages pages tag := by
  refine ⟨undirected_buildStructuralGraph lower file pages, fun a b => ?_, fun a b => ?_⟩
  · rw [buildStructuralGraph, Finset.mem_union, Finset.mem_union, Finset.mem_union,
      mem_wikilinkEdges, mem_tagEdges]
    constructor
    · rintro (((h | h) | h) | h)
      · exact h.2
      · cases h.1
      · cases reason_of_mem_ringEdges h
      · cases reason_of_mem_ringEdges h
    · exact fun h => .inl (.inl (.inl ⟨rfl, h⟩))
  · rw [buildStructuralGraph, Finset.mem_union, Finset.mem_union, Finset.mem_union,
      mem_wikilinkEdges, mem_tagEdges]
    constructor
    · rintro (((h | h) | h) | h)
      · cases h.1
      · exact h.2
      · cases reason_of_mem_ringEdges h
      · cases reason_of_mem_ringEdges h
    · exact fun h => .inl (.inl (.inr ⟨rfl, h⟩))

end Edges

section Rings

variable {a b : Str} {reason : Reason} {group : List Str}

/-- The stem at a place of a ring. -/
theorem mem_addRing (hTwo : 2 ≤ group.length) : ⟨a, b, reason⟩ ∈ addRing group reason ↔
    ∃ i, ∃ hI : i < group.toFinset.sort.length,
      ∃ hNext : (i + 1) % group.toFinset.sort.length < group.toFinset.sort.length,
        (a = group.toFinset.sort[i] ∧
          b = group.toFinset.sort[(i + 1) % group.toFinset.sort.length]) ∨
        (b = group.toFinset.sort[i] ∧
          a = group.toFinset.sort[(i + 1) % group.toFinset.sort.length]) := by
  rw [addRing, if_neg (Nat.not_lt.mpr hTwo), Finset.mem_biUnion]
  generalize group.toFinset.sort = ring
  constructor
  · rintro ⟨i, hI, hEdge⟩
    rw [Finset.mem_range] at hI
    have hNext := Nat.mod_lt (i + 1) (Nat.zero_lt_of_lt hI)
    rw [mem_between, List.getD_eq_getElem _ _ hI, List.getD_eq_getElem _ _ hNext, Hop.mk.injEq,
      Hop.mk.injEq] at hEdge
    refine ⟨i, hI, hNext, ?_⟩
    rcases hEdge with ⟨hA, hB, -⟩ | ⟨hA, hB, -⟩
    · exact .inl ⟨hA, hB⟩
    · exact .inr ⟨hB, hA⟩
  · rintro ⟨i, hI, hNext, hEdge⟩
    refine ⟨i, Finset.mem_range.mpr hI, ?_⟩
    rw [mem_between, List.getD_eq_getElem _ _ hI, List.getD_eq_getElem _ _ hNext, Hop.mk.injEq,
      Hop.mk.injEq]
    rcases hEdge with ⟨hA, hB⟩ | ⟨hB, hA⟩
    · exact .inl ⟨hA, hB, rfl⟩
    · exact .inr ⟨hA, hB, rfl⟩

theorem length_of_mem_addRing (h : ⟨a, b, reason⟩ ∈ addRing group reason) : 2 ≤ group.length := by
  by_contra hFew
  rw [addRing, if_pos (Nat.not_le.mp hFew)] at h
  exact Finset.notMem_empty _ h

theorem mem_group_of_mem_addRing (h : ⟨a, b, reason⟩ ∈ addRing group reason) : a ∈ group := by
  obtain ⟨i, hI, hNext, ⟨rfl, -⟩ | ⟨-, rfl⟩⟩ := (mem_addRing (length_of_mem_addRing h)).mp h
  · exact List.mem_toFinset.mp ((Finset.mem_sort _).mp (List.getElem_mem hI))
  · exact List.mem_toFinset.mp ((Finset.mem_sort _).mp (List.getElem_mem hNext))

/-- A ring leads from every stem to every other. -/
theorem addRing_connected (hA : a ∈ group) (hB : b ∈ group) :
    Relation.ReflTransGen (fun u v => ⟨u, v, reason⟩ ∈ addRing group reason) a b := by
  by_cases hTwo : 2 ≤ group.length
  · have hEdges {a b : Str} := @mem_addRing a b reason group hTwo
    have hPlace {c : Str} (hC : c ∈ group) := List.mem_iff_getElem.mp
      ((Finset.mem_sort (· ≤ ·)).mpr (List.mem_toFinset.mpr hC))
    generalize group.toFinset.sort = ring at hEdges hPlace
    have hForward (k : ℕ) (hFirst : 0 < ring.length) (hK : k < ring.length) :
        Relation.ReflTransGen (fun u v => ⟨u, v, reason⟩ ∈ addRing group reason)
          ring[0] ring[k] := by
      induction k with
      | zero => exact .refl
      | succ k ih =>
          have hMod : (k + 1) % ring.length = k + 1 := Nat.mod_eq_of_lt hK
          refine (ih (Nat.lt_of_succ_lt hK)).tail (hEdges.mpr ?_)
          refine ⟨k, Nat.lt_of_succ_lt hK, by rwa [hMod], .inl ⟨rfl, ?_⟩⟩
          simp only [hMod]
    obtain ⟨i, hI, rfl⟩ := hPlace hA
    obtain ⟨j, hJ, rfl⟩ := hPlace hB
    have hFirst := Nat.zero_lt_of_lt hI
    have hBack := Relation.ReflTransGen.mono (fun u v => undirected_addRing group reason v u reason)
      _ _ (Relation.ReflTransGen.swap _ _ (hForward i hFirst hI))
    exact hBack.trans (hForward j hFirst hJ)
  · obtain ⟨c, rfl⟩ : ∃ c, group = [c] := by
      apply List.length_eq_one_iff.mp
      have hPos := List.length_pos_of_mem hA
      omega
    rw [List.mem_singleton.mp hA, List.mem_singleton.mp hB]

/-- A ring gives a stem the neighbour behind it and the one before it. -/
theorem addRing_neighbours (group : List Str) (reason : Reason) (a : Str) :
    ∃ c d, ∀ b, ⟨a, b, reason⟩ ∈ addRing group reason → b = c ∨ b = d := by
  by_cases hTwo : 2 ≤ group.length
  · by_cases hMem : a ∈ group
    · obtain ⟨k, hK, rfl⟩ := List.mem_iff_getElem.mp
        ((Finset.mem_sort (· ≤ ·)).mpr (List.mem_toFinset.mpr hMem))
      have hNodup := Finset.sort_nodup group.toFinset (· ≤ ·)
      refine ⟨group.toFinset.sort.getD ((k + 1) % group.toFinset.sort.length) [],
        group.toFinset.sort.getD ((k + group.toFinset.sort.length - 1) %
          group.toFinset.sort.length) [], ?_⟩
      intro b hEdge
      obtain ⟨i, hI, hNext, ⟨hHere, rfl⟩ | ⟨rfl, hHere⟩⟩ := (mem_addRing hTwo).mp hEdge
      · obtain rfl := (hNodup.getElem_inj_iff).mp hHere
        exact .inl (List.getD_eq_getElem _ _ hNext).symm
      · have hPlace := (hNodup.getElem_inj_iff).mp hHere
        refine .inr ?_
        have hBefore : (k + group.toFinset.sort.length - 1) % group.toFinset.sort.length = i := by
          rcases Nat.lt_or_ge (i + 1) group.toFinset.sort.length with hLt | hGe
          · rw [Nat.mod_eq_of_lt hLt] at hPlace
            rw [hPlace, Nat.add_right_comm, Nat.add_sub_cancel, Nat.add_mod_right,
              Nat.mod_eq_of_lt hI]
          · have hLast : i + 1 = group.toFinset.sort.length := by omega
            rw [hLast, Nat.mod_self] at hPlace
            rw [hPlace, Nat.zero_add, Nat.mod_eq_of_lt (by omega)]
            omega
        rw [hBefore, List.getD_eq_getElem _ _ hI]
    · exact ⟨[], [], fun b hEdge => absurd (mem_group_of_mem_addRing hEdge) hMem⟩
  · exact ⟨[], [], fun b hEdge => absurd (length_of_mem_addRing hEdge) hTwo⟩

/-- A ring has a loop just when one stem stands for all of several files. -/
theorem addRing_loop :
    ⟨a, a, reason⟩ ∈ addRing group reason ↔ 2 ≤ group.length ∧ ∀ b ∈ group, b = a := by
  constructor
  · intro hLoop
    have hTwo := length_of_mem_addRing hLoop
    refine ⟨hTwo, ?_⟩
    have hNodup := Finset.sort_nodup group.toFinset (· ≤ ·)
    obtain ⟨i, hI, hNext, hEdge⟩ := (mem_addRing hTwo).mp hLoop
    have hSame : (i + 1) % group.toFinset.sort.length = i := by
      rcases hEdge with ⟨hA, hB⟩ | ⟨hA, hB⟩ <;>
        exact ((hNodup.getElem_inj_iff).mp (hA.symm.trans hB)).symm
    have hOne : group.toFinset.sort.length = 1 := by
      rcases Nat.lt_or_ge (i + 1) group.toFinset.sort.length with hLt | hGe
      · rw [Nat.mod_eq_of_lt hLt] at hSame
        omega
      · have hLast : i + 1 = group.toFinset.sort.length := by omega
        rw [hLast, Nat.mod_self] at hSame
        omega
    obtain ⟨c, hRing⟩ := List.length_eq_one_iff.mp hOne
    have hOnly {b : Str} (hB : b ∈ group) : b = c := by
      have hMem := (Finset.mem_sort (· ≤ ·)).mpr (List.mem_toFinset.mpr hB)
      rw [hRing] at hMem
      exact List.mem_singleton.mp hMem
    intro b hB
    rw [hOnly hB, hOnly (mem_group_of_mem_addRing hLoop)]
  · rintro ⟨hTwo, hAll⟩
    have hSet : group.toFinset = {a} := by
      obtain ⟨b, hB⟩ := List.exists_mem_of_length_pos (by omega : 0 < group.length)
      ext c
      rw [List.mem_toFinset, Finset.mem_singleton]
      constructor
      · exact hAll c
      · rintro rfl
        exact hAll b hB ▸ hB
    have hSort : group.toFinset.sort = [a] := by rw [hSet, Finset.sort_singleton]
    rw [addRing, if_neg (by omega), hSort]
    exact Finset.mem_biUnion.mpr ⟨0, Finset.mem_range.mpr Nat.one_pos, by simp [between]⟩

/-- What the rings of one kind are in a graph. -/
structure Rings (graph : Finset Hop) (group : Str → List Str) (reason : Reason) : Prop where
  within : ∀ a b, ⟨a, b, reason⟩ ∈ graph → ∃ key, a ∈ group key ∧ b ∈ group key
  connected : ∀ key, ∀ a ∈ group key, ∀ b ∈ group key,
    Relation.ReflTransGen (fun u v => ⟨u, v, reason⟩ ∈ graph) a b
  few : ∀ (a : Str) (keys : Finset Str), (∀ key, a ∈ group key → key ∈ keys) →
    ((graph.filter fun hop => hop.source = a ∧ hop.reason = reason).image (·.target)).card ≤
      2 * keys.card
  loop : ∀ a, ⟨a, a, reason⟩ ∈ graph ↔ ∃ key, 2 ≤ (group key).length ∧ ∀ b ∈ group key, b = a

theorem mem_ringEdges {lower : Str → Str} {field : PageFacts → Option Str}
    {pages : List ScannedPage} : ⟨a, b, reason⟩ ∈ ringEdges lower field reason pages ↔
      ∃ key, ⟨a, b, reason⟩ ∈ addRing (groupOf lower field pages key) reason := by
  rw [ringEdges, Finset.mem_biUnion]
  constructor
  · rintro ⟨key, -, hEdge⟩
    exact ⟨key, hEdge⟩
  · rintro ⟨key, hEdge⟩
    refine ⟨key, ?_, hEdge⟩
    obtain ⟨page, hMem, -⟩ := List.mem_map.mp (mem_group_of_mem_addRing hEdge)
    obtain ⟨hPage, hKey⟩ := List.mem_filter.mp hMem
    exact List.mem_toFinset.mpr
      (List.mem_filterMap.mpr ⟨page, hPage, of_decide_eq_true hKey⟩)

theorem rings_of_mem_iff {graph : Finset Hop} {group : Str → List Str}
    (h : ∀ a b, ⟨a, b, reason⟩ ∈ graph ↔ ∃ key, ⟨a, b, reason⟩ ∈ addRing (group key) reason) :
    Rings graph group reason where
  within a b hEdge := by
    obtain ⟨key, hRing⟩ := (h a b).mp hEdge
    exact ⟨key, mem_group_of_mem_addRing hRing,
      mem_group_of_mem_addRing (undirected_addRing _ _ _ _ _ hRing)⟩
  connected key a hA b hB :=
    Relation.ReflTransGen.mono (fun u v hEdge => (h u v).mpr ⟨key, hEdge⟩) _ _
      (addRing_connected hA hB)
  few a keys hKeys := by
    choose c d hTwo using fun key => addRing_neighbours (group key) reason a
    have hSubset : (graph.filter fun hop => hop.source = a ∧ hop.reason = reason).image (·.target) ⊆
        keys.image c ∪ keys.image d := by
      intro b hB
      obtain ⟨⟨source, target, r⟩, hMem, rfl⟩ := Finset.mem_image.mp hB
      obtain ⟨hGraph, rfl, rfl⟩ := Finset.mem_filter.mp hMem
      obtain ⟨key, hRing⟩ := (h _ _).mp hGraph
      have hKey := hKeys key (mem_group_of_mem_addRing hRing)
      rw [Finset.mem_union, Finset.mem_image, Finset.mem_image]
      rcases hTwo key _ hRing with hC | hD
      · exact .inl ⟨key, hKey, hC.symm⟩
      · exact .inr ⟨key, hKey, hD.symm⟩
    calc ((graph.filter fun hop => hop.source = a ∧ hop.reason = reason).image (·.target)).card
        ≤ (keys.image c ∪ keys.image d).card := Finset.card_le_card hSubset
      _ ≤ (keys.image c).card + (keys.image d).card := Finset.card_union_le _ _
      _ ≤ keys.card + keys.card := Nat.add_le_add Finset.card_image_le Finset.card_image_le
      _ = 2 * keys.card := (Nat.two_mul _).symm
  loop a := by
    rw [h]
    exact exists_congr fun key => addRing_loop

/-- The pages of one type are connected by their ring, as those of one domain are, with at most
two neighbours for each type or domain a page is of. A page is its own neighbour just when it
stands for all the files, and more than one, of a type or domain. -/
theorem structuralGraph_rings (lower : Str → Str) (file : Str → Option Str)
    (pages : List ScannedPage) :
    Rings (buildStructuralGraph lower file pages) (groupOf lower (·.type) pages) .sameType ∧
      Rings (buildStructuralGraph lower file pages) (groupOf lower (·.domain) pages)
        .sameDomain := by
  constructor
  · apply rings_of_mem_iff
    intro a b
    rw [← mem_ringEdges, buildStructuralGraph, Finset.mem_union, Finset.mem_union,
      Finset.mem_union, mem_wikilinkEdges, mem_tagEdges]
    constructor
    · rintro (((h | h) | h) | h)
      · cases h.1
      · cases h.1
      · exact h
      · cases reason_of_mem_ringEdges h
    · exact fun h => .inl (.inr h)
  · apply rings_of_mem_iff
    intro a b
    rw [← mem_ringEdges, buildStructuralGraph, Finset.mem_union, Finset.mem_union,
      Finset.mem_union, mem_wikilinkEdges, mem_tagEdges]
    constructor
    · rintro (((h | h) | h) | h)
      · cases h.1
      · cases h.1
      · cases reason_of_mem_ringEdges h
      · exact h
    · exact .inr

end Rings

end Plumber.LinkTagHop
