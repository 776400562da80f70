import MatrycaPlumber.Graph.Bm25Documents
import MatrycaPlumber.Graph.FileSignature
import MatrycaPlumber.System.Transition

/-! The cached BM25 corpus of a graph: it is patched with the touched pages, and a getter
rebuilds it when the times of the page files are not those it was patched for. -/
namespace Plumber.Bm25

open PyText PyDict Generational

/-- `tokenize` and the test for the pages below `pages/` that a scan finds, for any such
functions. -/
structure Scan where
  tokenize : Str → List Str
  scannable : Str → Bool

section Patch

variable {S : Type} (M : Scoring S) (scan : Scan)

def bm25PagePaths (files : Files Str) : List Str :=
  (files.keys.filter scan.scannable).insertionSort (· ≤ ·)

def pageTokens (files : Files Str) (path : Str) : Option (List Str) :=
  (readText files path).map scan.tokenize

def freshCorpus (files : Files Str) : Bm25Corpus S :=
  buildBm25Corpus M ((bm25PagePaths scan files).filterMap fun path =>
    (pageTokens scan files path).map fun tokens => (path, tokens))

/-- One path of a patch. -/
def patchPath (files : Files Str) (corpus : Bm25Corpus S) (path : Str) : Bm25Corpus S :=
  match pageTokens scan files path with
  | none => removeBm25Doc M corpus path
  | some tokens => replaceBm25Doc M corpus path tokens

/-- The BM25 part of `patch_generational_caches_for_paths`. -/
def patchBm25 (files : Files Str) (changedPaths removedRels : List Str)
    (cached : Signature Str × Bm25Corpus S) : Signature Str × Bm25Corpus S :=
  let corpus :=
    if changedPaths = [] ∧ removedRels = [] then cached.2 else clearQueryCache cached.2
  let corpus := removedRels.foldl (removeBm25Doc M) corpus
  let corpus := changedPaths.foldl (patchPath M scan files) corpus
  (patchSignature cached.1 files changedPaths removedRels, corpus)

/-- `get_cached_bm25_corpus` when no file changes during the call. Without `resident` the
corpus is built for each call. -/
def getCachedBm25Corpus (files : Files Str) (cached : Option (Signature Str × Bm25Corpus S))
    (resident : Bool) : Bm25Corpus S × Option (Signature Str × Bm25Corpus S) :=
  let sig := signature files (bm25PagePaths scan files)
  if resident then
    match cached with
    | some (stored, corpus) =>
        if same stored sig then (corpus, cached)
        else (freshCorpus M scan files, some (sig, freshCorpus M scan files))
    | none => (freshCorpus M scan files, some (sig, freshCorpus M scan files))
  else (freshCorpus M scan files, cached)

end Patch

section Tables

variable {S : Type} {M : Scoring S} {scan : Scan}

/-- The document of a present page. -/
def pageDocument (scan : Scan) (files : Files Str) (path : Str) : Option (List Str) :=
  (pageTokens scan files path).bind document

theorem mem_bm25PagePaths (files : Files Str) (path : Str) :
    path ∈ bm25PagePaths scan files ↔ (files.lookup path).isSome ∧ scan.scannable path := by
  rw [bm25PagePaths, List.mem_insertionSort, List.mem_filter, ← AList.mem_keys,
    AList.lookup_isSome]

/-- The documents of a rebuild are the scannable pages. -/
theorem holds_freshCorpus (files : Files Str) :
    Holds M (freshCorpus M scan files)
      (fun path => if scan.scannable path then pageDocument scan files path else none) := by
  have hPages : ∀ rel tokens, (rel, tokens) ∈ (bm25PagePaths scan files).filterMap (fun path =>
      (pageTokens scan files path).map fun tokens => (path, tokens)) ↔
        (if scan.scannable rel then pageTokens scan files rel else none) = some tokens := by
    intro rel tokens
    simp only [List.mem_filterMap, mem_bm25PagePaths, Option.map_eq_some_iff, Prod.mk.injEq]
    constructor
    · rintro ⟨path, ⟨-, hScannable⟩, pathTokens, hTokens, rfl, rfl⟩
      rw [if_pos hScannable, hTokens]
    · intro hTokens
      split_ifs at hTokens with hScannable
      refine ⟨rel, ⟨?_, hScannable⟩, tokens, hTokens, rfl, rfl⟩
      rw [pageTokens, Option.map_eq_some_iff] at hTokens
      obtain ⟨text, hText, -⟩ := hTokens
      obtain ⟨file, hFile, -⟩ := Option.bind_eq_some_iff.mp hText
      rw [hFile]
      rfl
  have hNodup : (((bm25PagePaths scan files).filterMap fun path =>
      (pageTokens scan files path).map fun tokens => (path, tokens)).map Prod.fst).Nodup := by
    have hPaths : (bm25PagePaths scan files).Nodup :=
      (List.perm_insertionSort _ _).nodup_iff.mpr (files.keys_nodup.filter _)
    refine hPaths.sublist ?_
    induction bm25PagePaths scan files with
    | nil => exact List.nil_sublist _
    | cons path paths ih =>
        cases hTokens : pageTokens scan files path with
        | none =>
            rw [List.filterMap_cons_none (by rw [hTokens]; rfl)]
            exact ih.cons path
        | some tokens =>
            rw [List.filterMap_cons_some (by rw [hTokens]; rfl)]
            exact ih.cons_cons path
  apply (holds_build hNodup hPages).congr
  intro path
  split_ifs with hScannable
  · rfl
  · rfl

theorem Holds.patchPath {corpus : Bm25Corpus S} {table : Str → Option (List Str)}
    (h : Holds M corpus table) (files : Files Str) (path : Str) :
    Holds M (Bm25.patchPath M scan files corpus path)
      (fun other => if other = path then pageDocument scan files path else table other) := by
  rw [Bm25.patchPath, pageDocument]
  cases pageTokens scan files path with
  | none => exact h.removeBm25Doc path
  | some tokens => exact h.replaceBm25Doc path tokens

theorem Holds.removeAll {corpus : Bm25Corpus S} {table : Str → Option (List Str)}
    (h : Holds M corpus table) (rels : List Str) :
    Holds M (rels.foldl (Bm25.removeBm25Doc M) corpus)
      (fun path => if path ∈ rels then none else table path) := by
  induction rels generalizing corpus table with
  | nil => exact h.congr fun path => by simp
  | cons rel rels ih =>
      apply (ih (h.removeBm25Doc rel)).congr
      intro path
      by_cases hRel : path = rel
      · simp [hRel]
      · simp [hRel]

theorem Holds.patchAll {corpus : Bm25Corpus S} {table : Str → Option (List Str)}
    (h : Holds M corpus table) (files : Files Str) (paths : List Str) :
    Holds M (paths.foldl (Bm25.patchPath M scan files) corpus)
      (fun path => if path ∈ paths then pageDocument scan files path else table path) := by
  induction paths generalizing corpus table with
  | nil => exact h.congr fun path => by simp
  | cons first paths ih =>
      apply (ih (h.patchPath files first)).congr
      intro path
      by_cases hFirst : path = first
      · simp [hFirst]
      · simp [hFirst]

/-- The documents after a patch: the touched pages are those of the files. -/
theorem Holds.patchBm25 {cached : Signature Str × Bm25Corpus S} {table : Str → Option (List Str)}
    (h : Holds M cached.2 table) (files : Files Str) (changedPaths removedRels : List Str) :
    Holds M (Bm25.patchBm25 M scan files changedPaths removedRels cached).2
      (fun path => if path ∈ changedPaths then pageDocument scan files path
        else if path ∈ removedRels then none else table path) := by
  rw [Bm25.patchBm25]
  apply Holds.patchAll
  apply Holds.removeAll
  split_ifs
  · exact h
  · exact h.clearQueryCache

end Tables

end Plumber.Bm25
