import Mathlib.Data.List.Sort
import MatrycaPlumber.Graph.FileSignature

/-! The index of the `alias::` lines of a graph. The scan takes the files in a fixed
order, and the first page that claims an alias owns it. -/
namespace Plumber.Alias

open PyText PyDict Generational

/-- The reading of a file: its title, the alias segments of its text, and the key that
an alias is looked up by, for any such functions. -/
structure Scan (π : Type) where
  pageTitle : π → Str
  aliasSegments : Str → List Str
  normalizeConceptKey : Str → Str

structure AliasIndex (π : Type) where
  aliasToPage : Dict Str Str := ∅
  pageToAliases : Dict Str (List Str) := ∅
  pageToRelpath : Dict Str π := ∅

variable {π : Type} (scan : Scan π)

/-- An alias that has an owner stays with it. -/
def claimSegment (title : Str) (aliasToPage : Dict Str Str) (segment : Str) : Dict Str Str :=
  let key := scan.normalizeConceptKey segment
  if key = [] then aliasToPage
  else
    match aliasToPage.lookup key with
    | some _ => aliasToPage
    | none => aliasToPage.insert key title

/-- The loop over the alias lines of one page. -/
def indexAliases (idx : AliasIndex π) (title text : Str) : AliasIndex π :=
  let aliasesFound := scan.aliasSegments text
  { idx with
    aliasToPage := aliasesFound.foldl (claimSegment scan title) idx.aliasToPage
    pageToAliases :=
      if aliasesFound = [] then idx.pageToAliases
      else idx.pageToAliases.insert title aliasesFound }

/-- One file of the scan, whose path is kept for a title that has none yet. -/
def scanFile [DecidableEq π] (files : Files π) (idx : AliasIndex π) (path : π) : AliasIndex π :=
  match readText files path with
  | none => idx
  | some text =>
      let title := scan.pageTitle path
      let pageToRelpath :=
        match idx.pageToRelpath.lookup title with
        | some _ => idx.pageToRelpath
        | none => idx.pageToRelpath.insert title path
      indexAliases scan { idx with pageToRelpath := pageToRelpath } title text

/-- The files of the graph in the order of the scan, which is that of their paths. -/
def iterAliasSourcePaths [LinearOrder π] (files : Files π) : List π :=
  files.keys.insertionSort (· ≤ ·)

def buildAliasIndex [LinearOrder π] (files : Files π) : AliasIndex π :=
  (iterAliasSourcePaths files).foldl (scanFile scan files) {}

def removePageFromAliasIndex (idx : AliasIndex π) (pageTitle : Str) : AliasIndex π where
  aliasToPage := popAll (keysWhere (fun title => title = pageTitle) idx.aliasToPage) idx.aliasToPage
  pageToAliases := idx.pageToAliases.erase pageTitle
  pageToRelpath := idx.pageToRelpath.erase pageTitle

def indexAliasesFromFile [DecidableEq π] (files : Files π) (idx : AliasIndex π) (path : π) :
    AliasIndex π :=
  match readText files path with
  | none => idx
  | some text =>
      let title := scan.pageTitle path
      indexAliases scan { idx with pageToRelpath := idx.pageToRelpath.insert title path } title text

/-- One changed path of a patch. -/
def patchPath [DecidableEq π] (files : Files π) (idx : AliasIndex π) (path : π) : AliasIndex π :=
  let idx := removePageFromAliasIndex idx (scan.pageTitle path)
  if (files.lookup path).isSome then indexAliasesFromFile scan files idx path else idx

/-- The alias part of `patch_generational_caches_for_paths`. -/
def patchAliases [DecidableEq π] (files : Files π) (changedPaths removedRels : List π)
    (cached : Signature π × AliasIndex π) : Signature π × AliasIndex π :=
  let idx := removedRels.foldl
    (fun idx rel => removePageFromAliasIndex idx (scan.pageTitle rel)) cached.2
  let idx := changedPaths.foldl (patchPath scan files) idx
  (patchSignature cached.1 files changedPaths removedRels, idx)

/-- The titles that are gone, and then the aliases of pages that are gone. -/
def purgeStaleAliasEntries (idx : AliasIndex π) (liveTitles : List Str) : AliasIndex π :=
  let staleTitles := idx.pageToRelpath.keys.filter (· ∉ liveTitles)
  let idx := staleTitles.foldl removePageFromAliasIndex idx
  { idx with
    aliasToPage :=
      popAll (keysWhere (fun title => title ∉ liveTitles) idx.aliasToPage) idx.aliasToPage }

def gcGenerationalAliasCache [LinearOrder π] (files : Files π)
    (cached : Signature π × AliasIndex π) : Signature π × AliasIndex π :=
  let liveTitles := (iterAliasSourcePaths files).map scan.pageTitle
  (signature files (iterAliasSourcePaths files), purgeStaleAliasEntries cached.2 liveTitles)

end Plumber.Alias
