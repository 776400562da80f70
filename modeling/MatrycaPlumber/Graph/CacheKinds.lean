import MatrycaPlumber.Graph.AliasCache
import MatrycaPlumber.Graph.Bm25Cache
import MatrycaPlumber.Graph.SignatureHits

/-! The alias index and the BM25 corpus as caches whose files are read one at a time. -/
namespace Plumber.Generational

open PyText PyDict

section Alias

variable {π : Type} [LinearOrder π] (scan : Alias.Scan π)

/-- A file of the scan whose text was read. -/
def scanText (idx : Alias.AliasIndex π) (path : π) (text : Option Str) : Alias.AliasIndex π :=
  match text with
  | none => idx
  | some text =>
      let title := scan.pageTitle path
      let pageToRelpath :=
        match idx.pageToRelpath.lookup title with
        | some _ => idx.pageToRelpath
        | none => idx.pageToRelpath.insert title path
      Alias.indexAliases scan { idx with pageToRelpath := pageToRelpath } title text

def aliasKind : Kind π (Alias.AliasIndex π) where
  scannable _ := true
  build read := read.foldl (fun idx row => scanText scan idx row.1 row.2) {}
  clear idx := idx
  replacePage idx path text :=
    let title := scan.pageTitle path
    let idx := Alias.removePageFromAliasIndex idx title
    match text with
    | none => idx
    | some text =>
        Alias.indexAliases scan
          { idx with pageToRelpath := idx.pageToRelpath.insert title path } title text

variable {scan}

/-- Without a write in between, a build is that of the files. -/
theorem aliasKind_build (files : Files π) :
    (aliasKind scan).build
        ((sourcePaths (aliasKind scan) files).map fun path => (path, readText files path)) =
      Alias.buildAliasIndex scan files := by
  have hPaths : sourcePaths (aliasKind scan) files = Alias.iterAliasSourcePaths files := by
    rw [sourcePaths, Alias.iterAliasSourcePaths]
    exact congrArg _ (List.filter_eq_self.mpr fun _ _ => rfl)
  rw [hPaths, Alias.buildAliasIndex]
  exact List.foldl_map

theorem aliasKind_replacePage (files : Files π) (idx : Alias.AliasIndex π) (path : π) :
    (aliasKind scan).replacePage idx path (readText files path) =
      Alias.patchPath scan files idx path := by
  rw [Alias.patchPath, Alias.indexAliasesFromFile]
  cases hText : readText files path with
  | none =>
      rw [ite_self]
      rfl
  | some text =>
      obtain ⟨file, hFile, -⟩ := Option.bind_eq_some_iff.mp hText
      rw [hFile]
      rfl

/-- The aliases of a title are those of a text that was read from a file of that title. -/
def ListsFrom (scan : Alias.Scan π) (idx : Alias.AliasIndex π) (texts : π → Option Str) : Prop :=
  ∀ title segments, idx.pageToAliases.lookup title = some segments →
    ∃ path text, scan.pageTitle path = title ∧ texts path = some text ∧
      scan.aliasSegments text = segments

omit [LinearOrder π] in
theorem lookup_indexAliases (idx : Alias.AliasIndex π) (path : π) (text title : Str)
    {segments : List Str}
    (h : (Alias.indexAliases scan idx (scan.pageTitle path) text).pageToAliases.lookup title =
      some segments) :
    title = scan.pageTitle path ∧ scan.aliasSegments text = segments ∨
      idx.pageToAliases.lookup title = some segments := by
  rw [Alias.lookup_indexAliases_pageToAliases] at h
  split_ifs at h with hListed
  · exact .inl ⟨hListed.1, Option.some.inj h⟩
  · exact .inr h

theorem listsFrom_build {read : List (π × Option Str)} (hNodup : (read.map Prod.fst).Nodup) :
    ListsFrom scan ((aliasKind scan).build read) (textRead read) := by
  induction read using List.reverseRecOn with
  | nil =>
      intro title segments hList
      cases hList
  | append_singleton read row ih =>
      obtain ⟨path, text⟩ := row
      rw [List.map_append, List.nodup_append] at hNodup
      have hNew : path ∉ read.map Prod.fst := fun hMem =>
        hNodup.2.2 path hMem path List.mem_cons_self rfl
      have hBuild : (aliasKind scan).build (read ++ [(path, text)]) =
          scanText scan ((aliasKind scan).build read) path text :=
        List.foldl_concat _ _ _ _
      intro title segments hList
      rw [hBuild] at hList
      have hOld : ((aliasKind scan).build read).pageToAliases.lookup title = some segments →
          ∃ other found, scan.pageTitle other = title ∧
            textRead (read ++ [(path, text)]) other = some found ∧
            scan.aliasSegments found = segments := by
        intro hList
        obtain ⟨other, found, hTitle, hFound, hSegments⟩ := ih hNodup.1 title segments hList
        have hNe : other ≠ path := by
          rintro rfl
          rw [textRead_of_notMem hNew] at hFound
          cases hFound
        refine ⟨other, found, hTitle, ?_, hSegments⟩
        rwa [textRead_append_of_ne hNe]
      cases text with
      | none => exact hOld hList
      | some text =>
          cases lookup_indexAliases _ path text title hList with
          | inl hSelf =>
              exact ⟨path, text, hSelf.1.symm, textRead_append_self hNew _, hSelf.2⟩
          | inr hBefore => exact hOld hBefore

theorem BuiltFrom.lists {idx : Alias.AliasIndex π} {texts : π → Option Str}
    (h : BuiltFrom (aliasKind scan) idx texts) : ListsFrom scan idx texts := by
  induction h with
  | build hNodup => exact listsFrom_build hNodup
  | clear prior ih => exact ih
  | @replacePage idx texts prior path text ih =>
      intro title segments hList
      have hOld : (Alias.removePageFromAliasIndex idx (scan.pageTitle path)).pageToAliases.lookup
          title = some segments → ∃ other found, scan.pageTitle other = title ∧
            Function.update texts path text other = some found ∧
            scan.aliasSegments found = segments := by
        intro hList
        rw [Alias.lookup_removed_pageToAliases] at hList
        split_ifs at hList with hTitle
        obtain ⟨other, found, hOther, hFound, hSegments⟩ := ih title segments hList
        have hNe : other ≠ path := by
          rintro rfl
          exact hTitle hOther.symm
        refine ⟨other, found, hOther, ?_, hSegments⟩
        rwa [Function.update_of_ne hNe]
      cases text with
      | none => exact hOld hList
      | some text =>
          cases lookup_indexAliases _ path text title hList with
          | inl hSelf => exact ⟨path, text, hSelf.1.symm, Function.update_self _ _ _, hSelf.2⟩
          | inr hBefore => exact hOld hBefore

end Alias

section Bm25

variable {S : Type} (M : Bm25.Scoring S) (scan : Bm25.Scan)

def bm25Kind : Kind Str (Bm25.Bm25Corpus S) where
  scannable := scan.scannable
  build read := Bm25.buildBm25Corpus M (read.filterMap fun row =>
    row.2.map fun text => (row.1, scan.tokenize text))
  clear := Bm25.clearQueryCache
  replacePage corpus path text :=
    match text with
    | none => Bm25.removeBm25Doc M corpus path
    | some text => Bm25.replaceBm25Doc M corpus path (scan.tokenize text)

variable {M scan}

/-- Without a write in between, a build is that of the files. -/
theorem bm25Kind_build (files : Files Str) :
    (bm25Kind M scan).build
        ((sourcePaths (bm25Kind M scan) files).map fun path => (path, readText files path)) =
      Bm25.freshCorpus M scan files := by
  have hPages : (bm25Kind M scan).build
      ((sourcePaths (bm25Kind M scan) files).map fun path => (path, readText files path)) =
      Bm25.buildBm25Corpus M ((sourcePaths (bm25Kind M scan) files).filterMap fun path =>
        (readText files path).map fun text => (path, scan.tokenize text)) :=
    congrArg (Bm25.buildBm25Corpus M) List.filterMap_map
  rw [hPages, Bm25.freshCorpus]
  simp only [Bm25.pageTokens, Option.map_map]
  rfl

theorem bm25Kind_replacePage (files : Files Str) (corpus : Bm25.Bm25Corpus S) (path : Str) :
    (bm25Kind M scan).replacePage corpus path (readText files path) =
      Bm25.patchPath M scan files corpus path := by
  rw [Bm25.patchPath, Bm25.pageTokens]
  cases readText files path with
  | none => rfl
  | some text => rfl

/-- The document of a text that was read. -/
def textDocument (scan : Bm25.Scan) (text : Option Str) : Option (List Str) :=
  (text.map scan.tokenize).bind Bm25.document

/-- The corpus of a build has the documents of the texts that were read. -/
theorem holds_read {read : List (Str × Option Str)} (hNodup : (read.map Prod.fst).Nodup) :
    Bm25.Holds M ((bm25Kind M scan).build read)
      fun path => textDocument scan (textRead read path) := by
  have hPages : ((read.filterMap fun row => row.2.map fun text =>
      (row.1, scan.tokenize text)).map Prod.fst).Nodup := by
    refine hNodup.sublist ?_
    clear hNodup
    induction read with
    | nil => exact List.nil_sublist _
    | cons row read ih =>
        obtain ⟨path, text⟩ := row
        cases text with
        | none => exact ih.cons path
        | some text => exact ih.cons_cons path
  apply Bm25.holds_build hPages
  intro rel tokens
  simp only [List.mem_filterMap, Option.map_eq_some_iff, Prod.mk.injEq]
  constructor
  · rintro ⟨row, hRow, text, hText, rfl, rfl⟩
    refine ⟨text, (mem_iff_textRead hNodup _ _).mp ?_, rfl⟩
    rw [← hText]
    exact hRow
  · rintro ⟨text, hText, rfl⟩
    exact ⟨(rel, some text), (mem_iff_textRead hNodup _ _).mpr hText, text, rfl, rfl, rfl⟩

theorem BuiltFrom.holds {corpus : Bm25.Bm25Corpus S} {texts : Str → Option Str}
    (h : BuiltFrom (bm25Kind M scan) corpus texts) :
    Bm25.Holds M corpus fun path => textDocument scan (texts path) := by
  induction h with
  | build hNodup => exact holds_read hNodup
  | clear prior ih => exact ih.clearQueryCache
  | @replacePage corpus texts prior path text ih =>
      have hNext : Bm25.Holds M ((bm25Kind M scan).replacePage corpus path text)
          fun other => if other = path then textDocument scan text
            else textDocument scan (texts other) := by
        cases text with
        | none => exact ih.removeBm25Doc path
        | some text => exact ih.replaceBm25Doc path (scan.tokenize text)
      apply hNext.congr
      intro other
      by_cases hPath : other = path
      · simp [hPath]
      · simp [hPath]

end Bm25

section Hits

theorem entries_of_signedTexts {π D : Type} [LinearOrder π] {s : Generation π D} {path : π}
    {text : Str} (h : s.signedTexts path = some text) :
    ∃ file, ⟨path, file⟩ ∈ s.moment.entries ∧ file.text = some text := by
  obtain ⟨file, hFile, hText⟩ := Option.bind_eq_some_iff.mp h
  exact ⟨file, AList.mem_lookup_iff.mp hFile, hText⟩

end Hits

end Plumber.Generational
