import Mathlib.Data.List.Sort
import MatrycaPlumber.System.Dict
import MatrycaPlumber.System.Transition
import MatrycaPlumber.Text.Basic

/-! The cached graph of all pages, with one page reloaded at a time. The page map is
keyed by title, and the file events are keyed by path. -/
namespace Plumber.AstCache

open PyText PyDict

variable {π γ β : Type}

structure LogseqPage (π β : Type) where
  title : Str
  sourcePath : π
  body : β
  deriving DecidableEq

abbrev PageMap (π β : Type) := Dict Str (LogseqPage π β)

def SameMap (d e : PageMap π β) : Prop := ∀ title, d.lookup title = e.lookup title

/-- Every page is under its own title. -/
def WellKeyed (d : PageMap π β) : Prop :=
  ∀ title page, d.lookup title = some page → page.title = title

/-- What is used of the parser package: a parse that succeeds, the index builder that
adds further keys to a page map, and the iteration over the pages without these keys. -/
structure ParserPackage (π γ β : Type) where
  parsePage : π → γ → Str × β
  enrichPagesIndex : PageMap π β → PageMap π β
  iterCanonicalPages : PageMap π β → List (LogseqPage π β)
  enrich_congr : ∀ d e, SameMap d e → SameMap (enrichPagesIndex d) (enrichPagesIndex e)
  canonical : ∀ d, WellKeyed d →
    (iterCanonicalPages (enrichPagesIndex d)).Perm (d.entries.map Sigma.snd)

/-- The present files in the order of their discovery. -/
def discoverGraphFiles [LinearOrder π] (files : Dict π γ) : List π :=
  files.keys.insertionSort (· ≤ ·)

namespace ParserPackage

variable (P : ParserPackage π γ β)

/-- `parse_graph_page_bounded`, which stores the path in the page. -/
def parseGraphPageBounded (path : π) (content : γ) : LogseqPage π β :=
  ⟨(P.parsePage path content).1, path, (P.parsePage path content).2⟩

end ParserPackage

def indexedPages (pages : List (LogseqPage π β)) : PageMap π β :=
  pages.foldl (fun d page => d.insert page.title page) ∅

section Cache

variable [LinearOrder π] (P : ParserPackage π γ β)

def buildGraphFromBoundedPages (pages : List (LogseqPage π β)) : PageMap π β :=
  P.enrichPagesIndex (indexedPages pages)

def presentPages (files : Dict π γ) : List (LogseqPage π β) :=
  (discoverGraphFiles files).filterMap fun path =>
    (files.lookup path).map (P.parseGraphPageBounded path)

def bootstrap (files : Dict π γ) : PageMap π β :=
  buildGraphFromBoundedPages P (presentPages P files)

def replaceGraphPageBySourcePath (graph : PageMap π β) (sourcePath : π)
    (replacement : Option (LogseqPage π β)) : PageMap π β :=
  let kept := (P.iterCanonicalPages graph).filter fun page => page.sourcePath ≠ sourcePath
  buildGraphFromBoundedPages P (kept ++ replacement.toList)

inductive FileEventKind where
  | created
  | modified
  | deleted
  deriving DecidableEq

def applyFileEvent (graph : PageMap π β) (files : Dict π γ) (path : π) (kind : FileEventKind) :
    PageMap π β :=
  match kind, files.lookup path with
  | .deleted, _ | .created, none | .modified, none =>
      replaceGraphPageBySourcePath P graph path none
  | .created, some content | .modified, some content =>
      replaceGraphPageBySourcePath P graph path (some (P.parseGraphPageBounded path content))

end Cache

section PageMaps

/-- The last page of a title wins. -/
theorem lookup_indexedPages_append (pages : List (LogseqPage π β)) (page : LogseqPage π β)
    (title : Str) : (indexedPages (pages ++ [page])).lookup title =
      if title = page.title then some page else (indexedPages pages).lookup title := by
  rw [indexedPages, List.foldl_append]
  exact lookup_insert _ _ _ _

theorem wellKeyed_indexedPages (pages : List (LogseqPage π β)) : WellKeyed (indexedPages pages) := by
  induction pages using List.reverseRecOn with
  | nil =>
      intro title page hLookup
      cases hLookup
  | append_singleton pages last ih =>
      intro title page hLookup
      rw [lookup_indexedPages_append] at hLookup
      split_ifs at hLookup with hTitle
      · obtain rfl := Option.some.inj hLookup
        exact hTitle.symm
      · exact ih title page hLookup

/-- Pages with different titles are all in the map. -/
theorem lookup_indexedPages_of_pairwise {pages : List (LogseqPage π β)}
    (hPairwise : pages.Pairwise fun a b => a.title ≠ b.title) (title : Str)
    (page : LogseqPage π β) :
    (indexedPages pages).lookup title = some page ↔ page ∈ pages ∧ page.title = title := by
  induction pages using List.reverseRecOn with
  | nil => simp [indexedPages]
  | append_singleton pages last ih =>
      rw [List.pairwise_append] at hPairwise
      rw [lookup_indexedPages_append, List.mem_append, List.mem_singleton]
      split_ifs with hTitle
      · constructor
        · intro hLast
          obtain rfl := Option.some.inj hLast
          exact ⟨.inr rfl, hTitle.symm⟩
        · rintro ⟨hMem | rfl, hPage⟩
          · exact absurd (hPage.trans hTitle) (hPairwise.2.2 page hMem last (by simp))
          · rfl
      · rw [ih hPairwise.1]
        constructor
        · exact fun h => ⟨.inl h.1, h.2⟩
        · rintro ⟨hMem | rfl, hPage⟩
          · exact ⟨hMem, hPage⟩
          · exact absurd hPage.symm hTitle

/-- Among pages in the order of their paths, the one with the last path wins. -/
theorem lookup_indexedPages_of_sorted [LinearOrder π] {pages : List (LogseqPage π β)}
    (hSorted : pages.Pairwise fun a b => a.sourcePath < b.sourcePath) (title : Str)
    (page : LogseqPage π β) :
    (indexedPages pages).lookup title = some page ↔
      page ∈ pages ∧ page.title = title ∧
        ∀ other ∈ pages, other.title = title → other.sourcePath ≤ page.sourcePath := by
  induction pages using List.reverseRecOn with
  | nil => simp [indexedPages]
  | append_singleton pages last ih =>
      rw [List.pairwise_append] at hSorted
      have hBefore : ∀ other ∈ pages, other.sourcePath < last.sourcePath :=
        fun other hMem => hSorted.2.2 other hMem last (by simp)
      rw [lookup_indexedPages_append]
      simp only [List.mem_append, List.mem_singleton]
      split_ifs with hTitle
      · constructor
        · intro hLast
          obtain rfl := Option.some.inj hLast
          refine ⟨.inr rfl, hTitle.symm, ?_⟩
          rintro other (hMem | rfl) -
          · exact (hBefore other hMem).le
          · exact le_rfl
        · rintro ⟨hMem | rfl, -, hLast⟩
          · exact absurd (hLast last (.inr rfl) hTitle.symm) (hBefore page hMem).not_ge
          · rfl
      · rw [ih hSorted.1]
        constructor
        · rintro ⟨hMem, hPage, hLast⟩
          refine ⟨.inl hMem, hPage, ?_⟩
          rintro other (hOther | rfl) hOtherTitle
          · exact hLast other hOther hOtherTitle
          · exact absurd hOtherTitle.symm hTitle
        · rintro ⟨hMem | rfl, hPage, hLast⟩
          · exact ⟨hMem, hPage, fun other hOther => hLast other (.inl hOther)⟩
          · exact absurd hPage.symm hTitle

variable {P : ParserPackage π γ β}

/-- The pages of a map have different titles. -/
theorem pairwise_canonical {d : PageMap π β} (h : WellKeyed d) :
    (P.iterCanonicalPages (P.enrichPagesIndex d)).Pairwise fun a b => a.title ≠ b.title := by
  rw [(P.canonical d h).pairwise_iff fun hNe => Ne.symm hNe, List.pairwise_map]
  apply (List.nodupKeys_iff_pairwise.mp d.nodupKeys).imp_of_mem
  intro a b hA hB hNe
  have hKey : ∀ row ∈ d.entries, row.2.title = row.1 :=
    fun row hRow => h row.1 row.2 (AList.mem_lookup_iff.mpr hRow)
  rwa [hKey a hA, hKey b hB]

theorem mem_canonical {d : PageMap π β} (h : WellKeyed d) (page : LogseqPage π β) :
    page ∈ P.iterCanonicalPages (P.enrichPagesIndex d) ↔ d.lookup page.title = some page := by
  rw [(P.canonical d h).mem_iff, List.mem_map]
  constructor
  · rintro ⟨⟨key, value⟩, hRow, rfl⟩
    have hLookup := AList.mem_lookup_iff.mpr hRow
    obtain rfl := h key value hLookup
    exact hLookup
  · intro hLookup
    exact ⟨⟨page.title, page⟩, AList.mem_lookup_iff.mp hLookup, rfl⟩

end PageMaps

end Plumber.AstCache
