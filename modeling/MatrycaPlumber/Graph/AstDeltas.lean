import Mathlib.Data.Char
import Mathlib.Data.List.Lex
import Mathlib.Data.List.MinMax
import MatrycaPlumber.Graph.AstCache

/-! Page deltas and a rebuild of the cached graph. A map that has the last page of
every title loses the others, so a delta is a rebuild unless it takes the last page of
a title away from under another one, or puts a page before the last one. -/
namespace Plumber.AstCache

open PyText PyDict

variable {π γ β : Type} [LinearOrder π]

section Pages

variable (P : ParserPackage π γ β)

theorem pairwise_presentPages (files : Dict π γ) :
    (presentPages P files).Pairwise fun a b => a.sourcePath < b.sourcePath := by
  apply (pairwise_sorted_keys files).filterMap
  intro path other hLt page hPage otherPage hOther
  obtain ⟨content, -, rfl⟩ := Option.map_eq_some_iff.mp hPage
  obtain ⟨otherContent, -, rfl⟩ := Option.map_eq_some_iff.mp hOther
  exact hLt

theorem mem_presentPages (files : Dict π γ) (page : LogseqPage π β) :
    page ∈ presentPages P files ↔
      (files.lookup page.sourcePath).map (P.parseGraphPageBounded page.sourcePath) = some page := by
  simp only [presentPages, List.mem_filterMap, discoverGraphFiles, List.mem_insertionSort]
  constructor
  · rintro ⟨path, -, hPage⟩
    obtain ⟨content, hContent, rfl⟩ := Option.map_eq_some_iff.mp hPage
    exact hPage
  · intro hPage
    obtain ⟨content, hContent, -⟩ := Option.map_eq_some_iff.mp hPage
    refine ⟨page.sourcePath, ?_, hPage⟩
    rw [← AList.mem_keys, ← AList.lookup_isSome, hContent]
    rfl

/-- The page that a rebuild has under a title. -/
def IsWinner (files : Dict π γ) (title : Str) (page : LogseqPage π β) : Prop :=
  page ∈ presentPages P files ∧ page.title = title ∧
    ∀ other ∈ presentPages P files, other.title = title → other.sourcePath ≤ page.sourcePath

/-- A graph whose page map, without the added keys, is that of the files. -/
def Represents (graph : PageMap π β) (files : Dict π γ) : Prop :=
  ∃ d, graph = P.enrichPagesIndex d ∧ WellKeyed d ∧
    ∀ title page, d.lookup title = some page ↔ IsWinner P files title page

theorem represents_bootstrap (files : Dict π γ) : Represents P (bootstrap P files) files :=
  ⟨indexedPages (presentPages P files), rfl, wellKeyed_indexedPages _,
    lookup_indexedPages_of_sorted (pairwise_presentPages P files)⟩

variable {P}

/-- The page map is a function of the files. -/
theorem Represents.sameMap {graph other : PageMap π β} {files : Dict π γ}
    (h : Represents P graph files) (hOther : Represents P other files) : SameMap graph other := by
  obtain ⟨d, rfl, -, hWinner⟩ := h
  obtain ⟨e, rfl, -, hWinner'⟩ := hOther
  apply P.enrich_congr
  intro title
  apply Option.ext
  intro page
  rw [hWinner, hWinner']

/-- The page map after a delta. -/
theorem lookup_replace {d : PageMap π β} (h : WellKeyed d) (path : π)
    (replacement : Option (LogseqPage π β)) (title : Str) (page : LogseqPage π β) :
    (indexedPages ((P.iterCanonicalPages (P.enrichPagesIndex d)).filter
        (fun page => page.sourcePath ≠ path) ++ replacement.toList)).lookup title = some page ↔
      if ∃ new ∈ replacement, new.title = title then replacement = some page
      else d.lookup title = some page ∧ page.sourcePath ≠ path := by
  have hKept : (indexedPages ((P.iterCanonicalPages (P.enrichPagesIndex d)).filter
      fun page => page.sourcePath ≠ path)).lookup title = some page ↔
        d.lookup title = some page ∧ page.sourcePath ≠ path := by
    rw [lookup_indexedPages_of_pairwise ((pairwise_canonical h).filter _), List.mem_filter,
      mem_canonical h, decide_eq_true_eq]
    constructor
    · rintro ⟨⟨hLookup, hNe⟩, rfl⟩
      exact ⟨hLookup, hNe⟩
    · rintro ⟨hLookup, hNe⟩
      obtain rfl := h title page hLookup
      exact ⟨⟨hLookup, hNe⟩, rfl⟩
  cases replacement with
  | none => simpa using hKept
  | some new =>
      rw [Option.toList_some, lookup_indexedPages_append]
      by_cases hTitle : new.title = title
      · simp [hTitle]
      · have hNe : title ≠ new.title := fun hEq => hTitle hEq.symm
        simpa [hTitle, hNe] using hKept

end Pages

section Deltas

variable (P : ParserPackage π γ β)

/-- No present page of the touched path's title comes later, and where the touched path
gives a title up, either no other page has it or one that comes later. -/
def TitleKept (files : Dict π γ) (path : π) (replacement : Option (LogseqPage π β)) : Prop :=
  (∀ new ∈ replacement, ∀ other ∈ presentPages P files,
    other.title = new.title → other.sourcePath ≤ path) ∧
  ∀ old ∈ presentPages P files, old.sourcePath = path →
    (∀ new ∈ replacement, new.title ≠ old.title) →
      (∃ other ∈ presentPages P files, other.title = old.title ∧ path < other.sourcePath) ∨
        ∀ other ∈ presentPages P files, other.title = old.title → other.sourcePath = path

instance [DecidableEq β] (files : Dict π γ) (path : π) (replacement : Option (LogseqPage π β)) :
    Decidable (TitleKept P files path replacement) :=
  inferInstanceAs (Decidable (_ ∧ _))

theorem mem_presentPages_update (files : Dict π γ) (path : π) (content : Option γ)
    (page : LogseqPage π β) :
    page ∈ presentPages P (update files path content) ↔
      if page.sourcePath = path then content.map (P.parseGraphPageBounded path) = some page
      else page ∈ presentPages P files := by
  rw [mem_presentPages, lookup_update]
  split_ifs with hPath
  · rw [hPath]
  · rw [mem_presentPages]

/-- The members of the changed files, for a replacement that has the touched path. -/
theorem mem_changed {files : Dict π γ} {path : π} {content : Option γ}
    {replacement : Option (LogseqPage π β)}
    (hReplacement : content.map (P.parseGraphPageBounded path) = replacement)
    (page : LogseqPage π β) :
    page ∈ presentPages P (update files path content) ↔
      page.sourcePath = path ∧ replacement = some page ∨
        page.sourcePath ≠ path ∧ page ∈ presentPages P files := by
  rw [mem_presentPages_update, hReplacement]
  split_ifs with hPath
  · simp [hPath]
  · simp [hPath]

variable {P}

theorem exists_winner {files : Dict π γ} {page : LogseqPage π β}
    (h : page ∈ presentPages P files) : ∃ winner, IsWinner P files page.title winner := by
  let sameTitle := (presentPages P files).filter fun other => other.title = page.title
  cases hMax : sameTitle.argmax LogseqPage.sourcePath with
  | none =>
      have hMem : page ∈ sameTitle := List.mem_filter.mpr ⟨h, by simp⟩
      rw [List.argmax_eq_none.mp hMax] at hMem
      cases hMem
  | some winner =>
      have hMem := List.mem_filter.mp (List.argmax_mem hMax)
      refine ⟨winner, hMem.1, by simpa using hMem.2, ?_⟩
      intro other hOther hTitle
      exact List.le_of_mem_argmax (List.mem_filter.mpr ⟨hOther, by simpa using hTitle⟩) hMax

section Exactness

variable {files : Dict π γ} {path : π} {content : Option γ}
  {replacement : Option (LogseqPage π β)}

/-- Where the touched page has the title, it is the winner of the changed files. -/
theorem TitleKept.isWinner_new (h : TitleKept P files path replacement)
    (hReplacement : content.map (P.parseGraphPageBounded path) = replacement)
    {new : LogseqPage π β} (hNew : replacement = some new) (hPath : new.sourcePath = path)
    (page : LogseqPage π β) :
    replacement = some page ↔ IsWinner P (update files path content) new.title page := by
  constructor
  · intro hPage
    obtain rfl := Option.some.inj (hNew.symm.trans hPage)
    refine ⟨(mem_changed P hReplacement new).mpr (.inl ⟨hPath, hNew⟩), rfl, ?_⟩
    intro other hOther hTitle
    rw [hPath]
    cases (mem_changed P hReplacement other).mp hOther with
    | inl hSame => exact hSame.1.le
    | inr hOld => exact h.1 new hNew other hOld.2 hTitle
  · rintro ⟨hMem, hTitle, hLast⟩
    cases (mem_changed P hReplacement page).mp hMem with
    | inl hSame => exact hSame.2
    | inr hOld =>
        have hAfter := hLast new ((mem_changed P hReplacement new).mpr (.inl ⟨hPath, hNew⟩)) rfl
        rw [hPath] at hAfter
        exact absurd (le_antisymm (h.1 new hNew page hOld.2 hTitle) hAfter) hOld.1

/-- Where it has not, the winner is the old one, which is not the touched page. -/
theorem TitleKept.isWinner_other (h : TitleKept P files path replacement)
    (hReplacement : content.map (P.parseGraphPageBounded path) = replacement)
    {title : Str} (hTitle : ∀ new ∈ replacement, new.title ≠ title) (page : LogseqPage π β) :
    IsWinner P files title page ∧ page.sourcePath ≠ path ↔
      IsWinner P (update files path content) title page := by
  constructor
  · rintro ⟨⟨hMem, hPage, hLast⟩, hNe⟩
    refine ⟨(mem_changed P hReplacement page).mpr (.inr ⟨hNe, hMem⟩), hPage, ?_⟩
    intro other hOther hOtherTitle
    cases (mem_changed P hReplacement other).mp hOther with
    | inl hNew => exact absurd hOtherTitle (hTitle other hNew.2)
    | inr hOld => exact hLast other hOld.2 hOtherTitle
  · rintro ⟨hMem, hPage, hLast⟩
    cases (mem_changed P hReplacement page).mp hMem with
    | inl hNew => exact absurd hPage (hTitle page hNew.2)
    | inr hOld =>
        have hUnchanged : ∀ other ∈ presentPages P files, other.title = title →
            other.sourcePath ≠ path → other.sourcePath ≤ page.sourcePath :=
          fun other hOther hOtherTitle hNe =>
            hLast other ((mem_changed P hReplacement other).mpr (.inr ⟨hNe, hOther⟩)) hOtherTitle
        refine ⟨⟨hOld.2, hPage, ?_⟩, hOld.1⟩
        intro other hOther hOtherTitle
        by_cases hPath : other.sourcePath = path
        · have hGiven := h.2 other hOther hPath fun new hNew hEq =>
            hTitle new hNew (hEq.trans hOtherTitle)
          cases hGiven with
          | inl hLater =>
              obtain ⟨later, hLater, hLaterTitle, hLt⟩ := hLater
              rw [hPath]
              exact hLt.le.trans
                (hUnchanged later hLater (hLaterTitle.trans hOtherTitle) hLt.ne')
          | inr hOnly => exact absurd (hOnly page hOld.2 (hPage.trans hOtherTitle.symm)) hOld.1
        · exact hUnchanged other hOther hOtherTitle hPath

end Exactness

/-- A delta on the map of some files gives that of the changed files exactly when the
titles are kept. -/
theorem lookup_replace_iff {d : PageMap π β} (h : WellKeyed d) {files : Dict π γ}
    (hWinner : ∀ title page, d.lookup title = some page ↔ IsWinner P files title page)
    (path : π) (content : Option γ) :
    (∀ title page, (indexedPages ((P.iterCanonicalPages (P.enrichPagesIndex d)).filter
        (fun page => page.sourcePath ≠ path) ++
          (content.map (P.parseGraphPageBounded path)).toList)).lookup title = some page ↔
      IsWinner P (update files path content) title page) ↔
    TitleKept P files path (content.map (P.parseGraphPageBounded path)) := by
  have hNew : ∀ new ∈ content.map (P.parseGraphPageBounded path), new.sourcePath = path := by
    intro new hMem
    obtain ⟨c, -, rfl⟩ := Option.map_eq_some_iff.mp hMem
    rfl
  simp only [lookup_replace h, hWinner]
  generalize hReplacement : content.map (P.parseGraphPageBounded path) = replacement at hNew ⊢
  constructor
  · intro hSame
    constructor
    · intro new hMem other hOther hTitle
      have hWins := (hSame new.title new).mp (by rw [if_pos ⟨new, hMem, rfl⟩]; exact hMem)
      by_cases hPath : other.sourcePath = path
      · exact hPath.le
      · have hLast := hWins.2.2 other
          ((mem_changed P hReplacement other).mpr (.inr ⟨hPath, hOther⟩)) hTitle
        rwa [hNew new hMem] at hLast
    · intro old hOld hPath hTitle
      by_contra hNeither
      simp only [not_or, not_exists, not_and, not_lt, not_forall] at hNeither
      obtain ⟨hNoLater, other, hOther, hOtherTitle, hNe⟩ := hNeither
      have hPresent := (mem_changed P hReplacement other).mpr (.inr ⟨hNe, hOther⟩)
      obtain ⟨winner, hWins⟩ := exists_winner hPresent
      rw [hOtherTitle] at hWins
      have hBefore := (hSame old.title winner).mpr hWins
      rw [if_neg (by simpa using hTitle)] at hBefore
      have hAfter := hBefore.1.2.2 old hOld rfl
      rw [hPath] at hAfter
      exact hBefore.2 (le_antisymm (hNoLater winner hBefore.1.1 hBefore.1.2.1) hAfter)
  · intro hKept title page
    split_ifs with hTitle
    · obtain ⟨new, hMem, rfl⟩ := hTitle
      exact hKept.isWinner_new hReplacement hMem (hNew new hMem) page
    · apply hKept.isWinner_other hReplacement
      simpa using hTitle

theorem Represents.applyFileEvent {graph : PageMap π β} {files present : Dict π γ} {path : π}
    {kind : FileEventKind} (h : Represents P graph files)
    (hKind : kind = .deleted → present.lookup path = none)
    (hKept : TitleKept P files path ((present.lookup path).map (P.parseGraphPageBounded path))) :
    Represents P (AstCache.applyFileEvent P graph present path kind)
      (update files path (present.lookup path)) := by
  obtain ⟨d, rfl, hKeyed, hWinner⟩ := h
  have hReplace : AstCache.applyFileEvent P (P.enrichPagesIndex d) present path kind =
      replaceGraphPageBySourcePath P (P.enrichPagesIndex d) path
        ((present.lookup path).map (P.parseGraphPageBounded path)) := by
    unfold AstCache.applyFileEvent
    cases hContent : present.lookup path with
    | none => cases kind <;> rfl
    | some content =>
        cases kind with
        | created => rfl
        | modified => rfl
        | deleted =>
            rw [hKind rfl] at hContent
            cases hContent
  rw [hReplace]
  exact ⟨_, rfl, wellKeyed_indexedPages _, (lookup_replace_iff hKeyed hWinner path _).mpr hKept⟩

end Deltas

/-- The present files and the cached graph. `seen` are the files as the graph has them
and `pending` the touched paths that are not yet reported. -/
structure CachedGraph (π γ β : Type) where
  files : Dict π γ
  graph : Option (PageMap π β)
  seen : Dict π γ
  pending : List π

inductive Action (π γ : Type) where
  | touch (path : π) (content : Option γ)
  | getGraph
  | report (path : π) (kind : FileEventKind)

section Run

variable (P : ParserPackage π γ β)

def initialGraph (files : Dict π γ) : CachedGraph π γ β := ⟨files, none, files, []⟩

/-- The graph is built on the first access. -/
def CachedGraph.getGraph (s : CachedGraph π γ β) : PageMap π β × Dict π γ :=
  match s.graph with
  | some graph => (graph, s.seen)
  | none => (bootstrap P s.files, s.files)

def step (s : CachedGraph π γ β) : Action π γ → Option (CachedGraph π γ β)
  | .touch path content =>
      some { s with files := update s.files path content, pending := path :: s.pending }
  | .getGraph => some { s with graph := some (s.getGraph P).1, seen := (s.getGraph P).2 }
  | .report path kind =>
      some { s with
        graph := some (applyFileEvent P (s.getGraph P).1 s.files path kind)
        seen := update (s.getGraph P).2 path (s.files.lookup path)
        pending := s.pending.filter (· ≠ path) }

/-- A file that is reported as deleted is not there. -/
def Truthful (s : CachedGraph π γ β) : Action π γ → Prop
  | .report path kind => kind = .deleted → s.files.lookup path = none
  | .touch _ _ | .getGraph => True

def TitlesKept (s : CachedGraph π γ β) : Action π γ → Prop
  | .report path _ =>
      TitleKept P (s.getGraph P).2 path
        ((s.files.lookup path).map (P.parseGraphPageBounded path))
  | .touch _ _ | .getGraph => True

instance (s : CachedGraph π γ β) : (a : Action π γ) → Decidable (Truthful s a)
  | .report _ _ => inferInstanceAs (Decidable (_ → _))
  | .touch _ _ | .getGraph => .isTrue trivial

instance [DecidableEq β] (s : CachedGraph π γ β) : (a : Action π γ) → Decidable (TitlesKept P s a)
  | .report _ _ => inferInstanceAs (Decidable (TitleKept P _ _ _))
  | .touch _ _ | .getGraph => .isTrue trivial

/-- The graph is that of the files it has seen, and these are the present ones but for
what is not yet reported. -/
structure Inv (s : CachedGraph π γ β) : Prop where
  graph : ∀ graph, s.graph = some graph → Represents P graph s.seen
  seen : s.graph ≠ none → ∀ path, path ∉ s.pending → s.seen.lookup path = s.files.lookup path

variable {P}

theorem Inv.getGraph {s : CachedGraph π γ β} (h : Inv P s) :
    Represents P (s.getGraph P).1 (s.getGraph P).2 ∧
      ∀ path, path ∉ s.pending → (s.getGraph P).2.lookup path = s.files.lookup path := by
  cases hGraph : s.graph with
  | none =>
      simp only [CachedGraph.getGraph, hGraph]
      exact ⟨represents_bootstrap P s.files, fun _ _ => trivial⟩
  | some graph =>
      simp only [CachedGraph.getGraph, hGraph]
      exact ⟨h.graph graph hGraph, h.seen (by simp [hGraph])⟩

theorem Inv.step {s t : CachedGraph π γ β} {a : Action π γ} (h : Inv P s)
    (hTruthful : Truthful s a) (hKept : TitlesKept P s a) (hStep : step P s a = some t) :
    Inv P t := by
  have hGet := h.getGraph
  cases a with
  | touch path content =>
      obtain rfl := Option.some.inj hStep
      refine ⟨h.graph, ?_⟩
      intro hGraph other hOther
      rw [List.mem_cons, not_or] at hOther
      rw [lookup_update, if_neg hOther.1]
      exact h.seen hGraph other hOther.2
  | getGraph =>
      obtain rfl := Option.some.inj hStep
      constructor
      · intro graph hGraph
        obtain rfl := Option.some.inj hGraph
        exact hGet.1
      · intro _
        exact hGet.2
  | report path kind =>
      obtain rfl := Option.some.inj hStep
      constructor
      · intro graph hGraph
        obtain rfl := Option.some.inj hGraph
        exact hGet.1.applyFileEvent hTruthful hKept
      · intro _ other hOther
        rw [lookup_update]
        split_ifs with hPath
        · rw [hPath]
        · apply hGet.2
          intro hPending
          exact hOther (List.mem_filter.mpr ⟨hPending, by simpa using hPath⟩)

/-- Graphs of files with the same contents have the same map. -/
theorem Represents.congr {graph : PageMap π β} {files other : Dict π γ}
    (h : Represents P graph files) (hSame : ∀ path, files.lookup path = other.lookup path) :
    Represents P graph other := by
  have hMem : ∀ page, page ∈ presentPages P files ↔ page ∈ presentPages P other := by
    intro page
    rw [mem_presentPages, mem_presentPages, hSame]
  obtain ⟨d, rfl, hKeyed, hWinner⟩ := h
  refine ⟨d, rfl, hKeyed, fun title page => ?_⟩
  rw [hWinner]
  simp only [IsWinner, hMem]

theorem inv_of_run {files : Dict π γ} {s : CachedGraph π γ β}
    (hRun : Transition.Run (step P) (fun s a => Truthful s a ∧ TitlesKept P s a)
      (initialGraph files) s) : Inv P s := by
  apply hRun.invariant
  · constructor
    · intro graph hGraph
      cases hGraph
    · intro hGraph
      exact absurd rfl hGraph
  · intro t a u hInv hMeets hStep
    exact hInv.step hMeets.1 hMeets.2 hStep

/-- Once every touched path is reported, the cached graph has the page map of a fresh
one, if no report takes the last page of a title away from under another page or puts
a page before the last one of its title. -/
theorem deltas_eq_rebuild {files : Dict π γ} {s : CachedGraph π γ β} {graph : PageMap π β}
    (hRun : Transition.Run (step P) (fun s a => Truthful s a ∧ TitlesKept P s a)
      (initialGraph files) s)
    (hPending : s.pending = []) (hGraph : s.graph = some graph) :
    SameMap graph (bootstrap P s.files) := by
  have hInv := inv_of_run hRun
  have hSeen := hInv.seen (by simp [hGraph])
  rw [hPending] at hSeen
  apply Represents.sameMap _ (represents_bootstrap P s.files)
  apply (hInv.graph graph hGraph).congr
  intro path
  exact hSeen path List.not_mem_nil

end Run

section Sample

/-- A package that takes the stem of the file for the title and adds no keys. -/
def samplePackage : ParserPackage Str Str Str where
  parsePage path content := (((path.reverse.drop 3).takeWhile (· ≠ '/')).reverse, content)
  enrichPagesIndex d := d
  iterCanonicalPages d := d.entries.map Sigma.snd
  enrich_congr _ _ h := h
  canonical _ _ := .refl _

def journalPath : Str := "journals/A.md".toList

def pagePath : Str := "pages/A.md".toList

/-- The journal is created before the page of the same title, and the page is edited
and reported twice. -/
theorem deltas_eq_rebuild_shared_title :
    ∃ s : CachedGraph Str Str Str, ∃ graph,
      Transition.Run (step samplePackage)
        (fun s a => Truthful s a ∧ TitlesKept samplePackage s a) (initialGraph ∅) s ∧
      s.graph = some graph ∧ SameMap graph (bootstrap samplePackage s.files) := by
  have hExec : (Transition.exec (step samplePackage)
      (fun s a => Truthful s a ∧ TitlesKept samplePackage s a) (initialGraph ∅)
      [.touch journalPath (some "- a".toList), .getGraph, .report journalPath .created,
        .touch pagePath (some "- b".toList), .report pagePath .created,
        .touch pagePath (some "- c".toList), .report pagePath .modified]).map
        (fun s => (s.pending, s.graph.isSome)) = some ([], true) := by
    decide +kernel
  obtain ⟨s, hRun, hEnd⟩ := Option.map_eq_some_iff.mp hExec
  obtain ⟨hPending, hSome⟩ := Prod.mk.inj hEnd
  obtain ⟨graph, hGraph⟩ := Option.isSome_iff_exists.mp hSome
  have hRun := Transition.Run.of_exec hRun
  exact ⟨s, graph, hRun, hGraph, deltas_eq_rebuild hRun hPending hGraph⟩

/-- The page shadows the journal, and when it is deleted the title is gone. -/
theorem shadowed_page_is_lost :
    ¬∀ (P : ParserPackage Str Str Str) (files : Dict Str Str) (s : CachedGraph Str Str Str)
      (graph : PageMap Str Str), Transition.Run (step P) Truthful (initialGraph files) s →
        s.pending = [] → s.graph = some graph → SameMap graph (bootstrap P s.files) := by
  intro h
  have hExec : (Transition.exec (step samplePackage) Truthful (initialGraph ∅)
      [.touch journalPath (some "- a".toList), .touch pagePath (some "- b".toList), .getGraph,
        .report journalPath .created, .report pagePath .created,
        .touch pagePath none, .report pagePath .deleted]).map
        (fun s => (s.pending, s.graph.map fun graph =>
          ((graph.lookup "A".toList).isSome,
            ((bootstrap samplePackage s.files).lookup "A".toList).isSome))) =
      some ([], some (false, true)) := by
    decide +kernel
  obtain ⟨s, hRun, hEnd⟩ := Option.map_eq_some_iff.mp hExec
  obtain ⟨hPending, hMaps⟩ := Prod.mk.inj hEnd
  obtain ⟨graph, hGraph, hLost⟩ := Option.map_eq_some_iff.mp hMaps
  obtain ⟨hCached, hFresh⟩ := Prod.mk.inj hLost
  have hSame := h samplePackage ∅ s graph (Transition.Run.of_exec hRun) hPending hGraph
    "A".toList
  rw [hSame, hFresh] at hCached
  cases hCached

end Sample

end Plumber.AstCache
