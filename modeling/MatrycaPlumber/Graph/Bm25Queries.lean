import MatrycaPlumber.Graph.Bm25Cache

/-! Runs of page patches and queries. In every run the rows of a query are those of a
corpus that is built from the present pages. -/
namespace Plumber.Bm25

open PyText PyDict Generational

variable {S : Type}

structure GraphCache (S : Type) where
  files : Files Str
  cached : Option (Signature Str × Bm25Corpus S)

/-- Pages are written, created or deleted and reported as changed paths, or deleted and
reported as removed. Another graph's corpus may take the place of this one. -/
inductive Action (S : Type) where
  | patch (writes : List (Str × Option SourceFile)) (removals : List Str)
  | query (resident : Bool) (text : Str) (limit : Int) (k1 b : S)
  | release

def initialCache (files : Files Str) : GraphCache S := ⟨files, none⟩

def writeFiles (files : Files Str) (writes : List (Str × Option SourceFile)) (removals : List Str) :
    Files Str :=
  writes.foldl (fun files write => update files write.1 write.2) (popAll removals files)

section Steps

variable [LinearOrder S] (M : Scoring S) (scan : Scan)

/-- `rank_pages_by_bm25`: the rows and the cache after it. -/
def GraphCache.query (s : GraphCache S) (resident : Bool) (text : Str) (limit : Int) (k1 b : S) :
    Rows S × GraphCache S :=
  let got := getCachedBm25Corpus M scan s.files s.cached resident
  let scored := scoreBm25Query M got.1 (scan.tokenize text) limit k1 b
  -- a resident corpus is the one in the cache, and its query cache is updated in place
  (scored.1, { s with
    cached := if resident then got.2.map fun cached => (cached.1, scored.2) else got.2 })

def step (s : GraphCache S) : Action S → Option (GraphCache S)
  | .patch writes removals =>
      let files := writeFiles s.files writes removals
      some ⟨files, s.cached.map (patchBm25 M scan files (writes.map Prod.fst) removals)⟩
  | .query resident text limit k1 b => some (s.query M scan resident text limit k1 b).2
  | .release => some { s with cached := none }

/-- The stored results are those of the corpus, and they are counted. -/
structure QueryCacheRight (corpus : Bm25Corpus S) : Prop where
  rows : ∀ entry ∈ corpus.queryCache.entries, entry.2 = rankedRows M corpus entry.1
  exact : corpus.queryCache.Exact List.length queryCacheMaxEntries queryCacheMaxResultRows

/-- The documents of the cached corpus are the pages of its signature, as they are in
the files. -/
structure CachedRight (files : Files Str) (cached : Signature Str × Bm25Corpus S) : Prop where
  holds : Holds M cached.2 fun path =>
    if (cached.1.lookup path).isSome then pageDocument scan files path else none
  queries : QueryCacheRight M cached.2

end Steps

section Frames

variable (M : Scoring S)

theorem queryCache_removeBm25Doc (corpus : Bm25Corpus S) (rel : Str) :
    (removeBm25Doc M corpus rel).queryCache = corpus.queryCache := by
  rw [removeBm25Doc]
  split_ifs <;> rfl

theorem queryCache_replaceBm25Doc (corpus : Bm25Corpus S) (rel : Str) (tokens : List Str) :
    (replaceBm25Doc M corpus rel tokens).queryCache = corpus.queryCache := by
  rw [replaceBm25Doc]
  split_ifs
  · exact queryCache_removeBm25Doc M corpus rel
  · exact queryCache_removeBm25Doc M corpus rel

theorem queryCache_patchPath (scan : Scan) (files : Files Str) (corpus : Bm25Corpus S) (path : Str) :
    (patchPath M scan files corpus path).queryCache = corpus.queryCache := by
  rw [patchPath]
  cases pageTokens scan files path with
  | none => exact queryCache_removeBm25Doc M corpus path
  | some tokens => exact queryCache_replaceBm25Doc M corpus path tokens

/-- A loop over pages leaves the query cache alone. -/
theorem queryCache_foldl {f : Bm25Corpus S → Str → Bm25Corpus S}
    (hFrame : ∀ corpus path, (f corpus path).queryCache = corpus.queryCache) (paths : List Str)
    (corpus : Bm25Corpus S) : (paths.foldl f corpus).queryCache = corpus.queryCache := by
  induction paths generalizing corpus with
  | nil => rfl
  | cons path paths ih => rw [List.foldl_cons, ih, hFrame]

theorem queryCache_patchBm25 (scan : Scan) (files : Files Str) (changedPaths removedRels : List Str)
    (cached : Signature Str × Bm25Corpus S) :
    (patchBm25 M scan files changedPaths removedRels cached).2.queryCache =
      if changedPaths = [] ∧ removedRels = [] then cached.2.queryCache
      else { cached.2.queryCache with entries := [], total := 0 } := by
  rw [patchBm25, queryCache_foldl (queryCache_patchPath M scan files),
    queryCache_foldl (queryCache_removeBm25Doc M)]
  split_ifs <;> rfl

theorem lookup_writeFiles (files : Files Str) (writes : List (Str × Option SourceFile))
    (removals : List Str) {path : Str} (hWrites : path ∉ writes.map Prod.fst)
    (hRemovals : path ∉ removals) :
    (writeFiles files writes removals).lookup path = files.lookup path := by
  rw [writeFiles, ← lookup_popAll_of_notMem hRemovals files]
  induction writes generalizing removals files with
  | nil => rfl
  | cons write writes ih =>
      rw [List.map_cons, List.mem_cons, not_or] at hWrites
      rw [List.foldl_cons]
      have hRest := ih (update (popAll removals files) write.1 write.2) [] hWrites.2
        List.not_mem_nil
      exact hRest.trans ((lookup_update _ _ _ _).trans (if_neg hWrites.1))

end Frames

section Invariant

variable [LinearOrder S] {M : Scoring S} {scan : Scan}

theorem pageDocument_congr {files other : Files Str} {path : Str}
    (h : files.lookup path = other.lookup path) :
    pageDocument scan files path = pageDocument scan other path := by
  rw [pageDocument, pageDocument, pageTokens, pageTokens, readText, readText, h]

/-- A page that is not there has no document. -/
theorem pageDocument_of_missing {files : Files Str} {path : Str} (h : mtimeNs files path = none) :
    pageDocument scan files path = none := by
  rw [pageDocument, pageTokens, readText_of_missing h]
  rfl

theorem CachedRight.patch {files : Files Str} {cached : Signature Str × Bm25Corpus S}
    (h : CachedRight M scan files cached) (writes : List (Str × Option SourceFile))
    (removals : List Str) :
    CachedRight M scan (writeFiles files writes removals)
      (patchBm25 M scan (writeFiles files writes removals) (writes.map Prod.fst) removals
        cached) where
  holds := by
    apply (h.holds.patchBm25 _ _ _).congr
    intro path
    show _ = if ((patchSignature _ _ _ _).lookup path).isSome then _ else none
    rw [lookup_patchSignature]
    by_cases hWrites : path ∈ writes.map Prod.fst
    · simp only [if_pos hWrites]
      cases hMtime : mtimeNs (writeFiles files writes removals) path with
      | none => exact pageDocument_of_missing hMtime
      | some _ => rfl
    · simp only [if_neg hWrites]
      by_cases hRemovals : path ∈ removals
      · simp [hRemovals]
      · simp only [if_neg hRemovals]
        rw [pageDocument_congr (lookup_writeFiles files writes removals hWrites hRemovals)]
  queries := by
    by_cases hNone : writes.map Prod.fst = [] ∧ removals = []
    · have hSame : (patchBm25 M scan (writeFiles files writes removals) (writes.map Prod.fst)
          removals cached).2 = cached.2 := by
        rw [hNone.1, hNone.2]
        rfl
      rw [hSame]
      exact h.queries
    · have hCleared := queryCache_patchBm25 M scan (writeFiles files writes removals)
        (writes.map Prod.fst) removals cached
      rw [if_neg hNone] at hCleared
      constructor
      · intro entry hMem
        rw [hCleared] at hMem
        cases hMem
      · rw [hCleared]
        exact OrderedCache.exact_empty _

/-- The pages of the signature of the present files are the scannable ones. -/
theorem signature_table (files : Files Str) (path : Str) :
    (if ((signature files (bm25PagePaths scan files)).lookup path).isSome then
      pageDocument scan files path else none) =
    if scan.scannable path then pageDocument scan files path else none := by
  rw [lookup_signature]
  by_cases hScannable : scan.scannable path = true
  · rw [if_pos hScannable]
    by_cases hMem : path ∈ bm25PagePaths scan files
    · rw [if_pos hMem]
      cases hMtime : mtimeNs files path with
      | none => exact (pageDocument_of_missing hMtime).symm
      | some _ => rfl
    · rw [if_neg hMem]
      rw [mem_bm25PagePaths, not_and_or] at hMem
      have hMissing : files.lookup path = none := by
        simpa using hMem.resolve_right (not_not.mpr hScannable)
      exact (pageDocument_of_missing ((mtimeNs_eq_none files path).mpr hMissing)).symm
  · have hMem : path ∉ bm25PagePaths scan files := by
      rw [mem_bm25PagePaths]
      exact fun h => hScannable h.2
    rw [if_neg hScannable, if_neg hMem]
    rfl

/-- A new corpus has no results yet. -/
theorem cachedRight_fresh (files : Files Str) :
    CachedRight M scan files (signature files (bm25PagePaths scan files),
      freshCorpus M scan files) where
  holds := (holds_freshCorpus files).congr fun path => (signature_table files path).symm
  queries := by
    constructor
    · intro entry hMem
      cases hMem
    · exact OrderedCache.exact_empty _

/-- A hit has the documents of a rebuild. -/
theorem CachedRight.hit {files : Files Str} {cached : Signature Str × Bm25Corpus S}
    (h : CachedRight M scan files cached)
    (hSame : same cached.1 (signature files (bm25PagePaths scan files)) = true) :
    Holds M cached.2
      (fun path => if scan.scannable path then pageDocument scan files path else none) := by
  apply h.holds.congr
  intro path
  rw [same_iff.mp hSame, signature_table]

/-- What the getter returns has the documents of a rebuild and only right results, and so
has what it keeps. -/
theorem getCachedBm25Corpus_spec {files : Files Str} {cached : Option (Signature Str × Bm25Corpus S)}
    (h : ∀ c ∈ cached, CachedRight M scan files c) (resident : Bool) :
    Holds M (getCachedBm25Corpus M scan files cached resident).1
        (fun path => if scan.scannable path then pageDocument scan files path else none) ∧
      QueryCacheRight M (getCachedBm25Corpus M scan files cached resident).1 ∧
      (∀ c ∈ (getCachedBm25Corpus M scan files cached resident).2, CachedRight M scan files c) ∧
      (resident = true → ∀ c ∈ (getCachedBm25Corpus M scan files cached resident).2,
        c.2 = (getCachedBm25Corpus M scan files cached resident).1) := by
  have hFresh : CachedRight M scan files _ := cachedRight_fresh files
  have hMiss : ∀ c ∈ some (signature files (bm25PagePaths scan files), freshCorpus M scan files),
      CachedRight M scan files c ∧ c.2 = freshCorpus M scan files := by
    intro c hC
    obtain rfl := Option.some.inj hC
    exact ⟨hFresh, rfl⟩
  cases resident with
  | false => exact ⟨holds_freshCorpus files, hFresh.queries, h, fun hFalse => by cases hFalse⟩
  | true =>
      cases cached with
      | none =>
          exact ⟨holds_freshCorpus files, hFresh.queries, fun c hC => (hMiss c hC).1,
            fun _ c hC => (hMiss c hC).2⟩
      | some stored =>
          simp only [getCachedBm25Corpus, if_true]
          split_ifs with hSame
          · have hStored := h stored rfl
            refine ⟨hStored.hit hSame, hStored.queries, h, ?_⟩
            intro _ c hC
            obtain rfl := Option.some.inj hC
            rfl
          · exact ⟨holds_freshCorpus files, hFresh.queries, fun c hC => (hMiss c hC).1,
              fun _ c hC => (hMiss c hC).2⟩

theorem scoreBm25Query_rows {corpus : Bm25Corpus S} (h : QueryCacheRight M corpus)
    (tokens : List Str) (limit : Int) (k1 b : S) :
    (scoreBm25Query M corpus tokens limit k1 b).1 =
      if tokens = [] ∨ corpus.nDocs = 0 then []
      else rankedRows M corpus (queryKey tokens limit k1 b) := by
  rw [scoreBm25Query]
  split_ifs with hEmpty
  · rfl
  · cases hGet : corpus.queryCache.get (queryKey tokens limit k1 b) with
    | none => simp only [hGet]
    | some rows =>
        simp only [hGet]
        exact h.rows _ (OrderedCache.mem_of_get hGet)

theorem scoreBm25Query_right {corpus : Bm25Corpus S} (h : QueryCacheRight M corpus)
    (tokens : List Str) (limit : Int) (k1 b : S) :
    QueryCacheRight M (scoreBm25Query M corpus tokens limit k1 b).2 := by
  rw [scoreBm25Query]
  split_ifs with hEmpty
  · exact h
  · cases hGet : corpus.queryCache.get (queryKey tokens limit k1 b) with
    | none =>
        have hStore := h.exact.store hGet (rankedRows M corpus (queryKey tokens limit k1 b))
        simp only [hGet]
        refine ⟨?_, hStore.1⟩
        intro entry hMem
        cases hStore.2 entry hMem with
        | inl hOld => exact h.rows entry hOld
        | inr hNew =>
            rw [hNew]
            rfl
    | some rows =>
        simp only [hGet]
        exact ⟨fun entry hMem => h.rows entry (OrderedCache.mem_moveToEnd hMem),
          h.exact.moveToEnd _⟩

/-- A query changes neither the documents nor their counters. -/
theorem scoreBm25Query_documents (corpus : Bm25Corpus S) (tokens : List Str) (limit : Int)
    (k1 b : S) {table : Str → Option (List Str)} (h : Holds M corpus table) :
    Holds M (scoreBm25Query M corpus tokens limit k1 b).2 table := by
  have hSame : ∀ {next : Bm25Corpus S}, next.rels = corpus.rels →
      next.docTermFreqs = corpus.docTermFreqs → next.docLens = corpus.docLens →
      next.df = corpus.df → next.nDocs = corpus.nDocs → next.avgdl = corpus.avgdl →
      Holds M next table := by
    intro next hRels hTermFreqs hLens hDf hDocs hAvgdl
    obtain ⟨docs, hMatches, hTable⟩ := h
    refine ⟨docs, ⟨hMatches.nodup, hRels.trans hMatches.rels,
      hTermFreqs.trans hMatches.docTermFreqs, hLens.trans hMatches.docLens, ?_,
      hDocs.trans hMatches.nDocs, hAvgdl.trans hMatches.avgdl⟩, hTable⟩
    rw [hDf]
    exact hMatches.df
  rw [scoreBm25Query]
  split_ifs
  · exact h
  · cases hGet : corpus.queryCache.get (queryKey tokens limit k1 b) with
    | none =>
        simp only [hGet]
        exact hSame rfl rfl rfl rfl rfl rfl
    | some rows =>
        simp only [hGet]
        exact hSame rfl rfl rfl rfl rfl rfl

def Inv (M : Scoring S) (scan : Scan) (s : GraphCache S) : Prop :=
  ∀ cached ∈ s.cached, CachedRight M scan s.files cached

theorem Inv.query {s : GraphCache S} (h : Inv M scan s) (resident : Bool) (text : Str)
    (limit : Int) (k1 b : S) : Inv M scan (s.query M scan resident text limit k1 b).2 := by
  have hSpec := getCachedBm25Corpus_spec h resident
  intro cached hCached
  cases resident with
  | false => exact hSpec.2.2.1 cached hCached
  | true =>
      obtain ⟨got, hGot, rfl⟩ := Option.map_eq_some_iff.mp hCached
      have hRight := hSpec.2.2.1 got hGot
      have hCorpus := hSpec.2.2.2 rfl got hGot
      constructor
      · apply scoreBm25Query_documents
        rw [← hCorpus]
        exact hRight.holds
      · exact scoreBm25Query_right hSpec.2.1 _ limit k1 b

theorem Inv.step {s t : GraphCache S} {a : Action S} (h : Inv M scan s)
    (hStep : step M scan s a = some t) : Inv M scan t := by
  cases a with
  | patch writes removals =>
      obtain rfl := Option.some.inj hStep
      intro cached hCached
      obtain ⟨old, hOld, rfl⟩ := Option.map_eq_some_iff.mp hCached
      exact (h old hOld).patch writes removals
  | query resident text limit k1 b =>
      obtain rfl := Option.some.inj hStep
      exact h.query resident text limit k1 b
  | release =>
      obtain rfl := Option.some.inj hStep
      intro cached hCached
      cases hCached

theorem inv_of_run {files : Files Str} {s : GraphCache S}
    (hRun : Transition.Run (step M scan) (fun _ _ => True) (initialCache files) s) :
    Inv M scan s := by
  apply hRun.invariant
  · intro cached hCached
    cases hCached
  · intro t a u hInv _ hStep
    exact hInv.step hStep

/-- In every run of page patches and queries, the counters of the cached corpus are those
of its documents, which are the present pages it was patched for, the result rows of the
query cache are counted and bounded, and a query has the rows of a new corpus. -/
theorem incremental_eq_fresh {files : Files Str} {s : GraphCache S}
    (hRun : Transition.Run (step M scan) (fun _ _ => True) (initialCache files) s) :
    (∀ sig corpus, s.cached = some (sig, corpus) →
      Holds M corpus (fun path =>
        if (sig.lookup path).isSome then pageDocument scan s.files path else none) ∧
      corpus.queryCache.Exact List.length queryCacheMaxEntries queryCacheMaxResultRows) ∧
    ∀ resident text limit k1 b, (s.query M scan resident text limit k1 b).1 =
      (scoreBm25Query M (freshCorpus M scan s.files) (scan.tokenize text) limit k1 b).1 := by
  have hInv := inv_of_run hRun
  constructor
  · intro sig corpus hCached
    have hRight := hInv _ hCached
    exact ⟨hRight.holds, hRight.queries.exact⟩
  · intro resident text limit k1 b
    have hSpec := getCachedBm25Corpus_spec hInv resident
    have hFresh : CachedRight M scan s.files _ := cachedRight_fresh s.files
    have hRows : (s.query M scan resident text limit k1 b).1 =
        (scoreBm25Query M (getCachedBm25Corpus M scan s.files s.cached resident).1
          (scan.tokenize text) limit k1 b).1 := rfl
    have hHolds : Holds M (freshCorpus M scan s.files) _ := holds_freshCorpus s.files
    rw [hRows, scoreBm25Query_rows hSpec.2.1, scoreBm25Query_rows hFresh.queries,
      hSpec.1.nDocs hHolds, hSpec.1.rankedRows hHolds]

end Invariant

section Sample

def sampleScoring : Scoring Nat where
  zero := 0
  one := 1
  add := (· + ·)
  mean total count := total / count
  term nDocs documentFrequency freq _ _ _ _ := freq * (nDocs + 1 - documentFrequency)

def sampleScan : Scan where
  tokenize text := (text.splitOn ' ').filter (· ≠ [])
  scannable path := path.take 6 = "pages/".toList

def samplePage (text : String) : SourceFile := ⟨10 ^ 18, some text.toList⟩

/-- Two pages are created, queried, and one of them is edited. -/
theorem incremental_eq_fresh_two_pages :
    ∃ s : GraphCache Nat, Transition.Run (step sampleScoring sampleScan) (fun _ _ => True)
      (initialCache ∅) s ∧ s.cached.isSome = true ∧
      (s.query sampleScoring sampleScan true "b".toList 15 0 0).1 =
        (scoreBm25Query sampleScoring (freshCorpus sampleScoring sampleScan s.files)
          (sampleScan.tokenize "b".toList) 15 0 0).1 ∧
      (s.query sampleScoring sampleScan true "b".toList 15 0 0).1.length = 2 := by
  have hExec : (Transition.exec (step sampleScoring sampleScan) (fun _ _ => True)
      (initialCache ∅)
      [.patch [("pages/A.md".toList, some (samplePage "a b")),
          ("pages/B.md".toList, some (samplePage "c"))] [],
        .query true "b".toList 15 0 0,
        .patch [("pages/B.md".toList, some (samplePage "b b"))] []]).map
        (fun s => (s.cached.isSome,
          (s.query sampleScoring sampleScan true "b".toList 15 0 0).1.length)) =
      some (true, 2) := by
    decide +kernel
  obtain ⟨s, hRun, hEnd⟩ := Option.map_eq_some_iff.mp hExec
  obtain ⟨hCached, hLength⟩ := Prod.mk.inj hEnd
  have hRun := Transition.Run.of_exec hRun
  exact ⟨s, hRun, hCached, (incremental_eq_fresh hRun).2 true "b".toList 15 0 0, hLength⟩

end Sample

end Plumber.Bm25
