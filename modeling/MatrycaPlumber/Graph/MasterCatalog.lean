import Mathlib.Algebra.Order.Group.Unbundled.Int
import MatrycaPlumber.System.Dict
import MatrycaPlumber.Text.Basic

/-! The master catalog: one row per page title, in memory and in a JSON file. A save
merges the rows in memory into those of the file by the time of the page. -/
namespace Plumber.MasterCatalog

open PyText PyDict

def legacySecondsMtimeCutoff : Int := 10000000000

/-- Times below the cutoff are seconds of an older format. -/
def normalizeStoredMtimeNs (storedMtime : Int) : Int :=
  if |storedMtime| < legacySecondsMtimeCutoff then storedMtime * 1000000000 else storedMtime

def storedMtimeMatches (storedMtime mtimeNs : Int) : Bool :=
  if |storedMtime| < legacySecondsMtimeCutoff then mtimeNs / 1000000000 == storedMtime
  else mtimeNs == storedMtime

structure CatalogEntry where
  summary : Str := []
  domain : Str := []
  tags : List Str := []
  lastMtime : Int := 0
  orphan : Bool := false
  deriving DecidableEq

def CatalogEntry.mtimeNs (entry : CatalogEntry) : Int := normalizeStoredMtimeNs entry.lastMtime

abbrev Rows := Dict Str CatalogEntry

structure Catalog where
  pages : Rows := ∅
  aliasToPage : Dict Str Str := ∅
  persistAllowed : Bool := true
  pendingRemovals : List Str := []

/-- The row that a merge keeps of a title. -/
def mergeRow (existing : Option CatalogEntry) (entry : CatalogEntry) : CatalogEntry :=
  match existing with
  | none => entry
  | some old => if old.mtimeNs ≤ entry.mtimeNs then entry else old

/-- `_merge_catalog_page_deltas`. -/
def mergeCatalogPageDeltas (diskPages pending : Rows) : Rows :=
  mergeWith mergeRow diskPages pending

/-- The rows that `save` writes, from those of the file and the snapshot of the
catalog. -/
def savedRows (replace : Bool) (diskPages pending : Rows) (removals : List Str) : Rows :=
  if replace then pending else popAll removals (mergeCatalogPageDeltas diskPages pending)

namespace Catalog

def upsert (c : Catalog) (pageTitle : Str) (entry : CatalogEntry) : Catalog :=
  { c with
    pages := c.pages.insert pageTitle entry
    pendingRemovals := c.pendingRemovals.filter (· ≠ pageTitle) }

def remove (c : Catalog) (pageTitle : Str) : Catalog :=
  { c with
    pages := c.pages.erase pageTitle
    pendingRemovals := pageTitle :: c.pendingRemovals }

def needsRefresh (c : Catalog) (pageTitle : Str) (mtimeNs : Int) : Bool :=
  match c.pages.lookup pageTitle with
  | none => true
  | some entry => !storedMtimeMatches entry.lastMtime mtimeNs

/-- The titles of the rows without a page file. -/
def stale (c : Catalog) (liveTitles : List Str) : List Str :=
  c.pages.keys.filter (· ∉ liveTitles)

def orphanKeys (c : Catalog) (liveTitles : List Str) : List Str :=
  keysWhere (fun title => title ∉ liveTitles) c.aliasToPage

def pruneMissingPages (c : Catalog) (liveTitles : List Str) : Catalog × Nat :=
  let stale := c.stale liveTitles
  let orphanKeys := c.orphanKeys liveTitles
  ({ c with
      pages := popAll stale c.pages
      pendingRemovals := stale ++ c.pendingRemovals
      aliasToPage := popAll orphanKeys c.aliasToPage },
    stale.length + orphanKeys.length)

/-- The second section of `save` under the lock of the catalog. -/
def writeBack (c : Catalog) (mergedPages : Rows) : Catalog :=
  { c with pages := mergedPages, pendingRemovals := [] }

section Lemmas

variable (c : Catalog) (title other : Str) (entry : CatalogEntry)

theorem lookup_upsert : (c.upsert title entry).pages.lookup other =
    if other = title then some entry else c.pages.lookup other :=
  lookup_insert c.pages title other entry

theorem lookup_remove : (c.remove title).pages.lookup other =
    if other = title then none else c.pages.lookup other :=
  lookup_erase c.pages title other

theorem mem_pendingRemovals_upsert :
    other ∈ (c.upsert title entry).pendingRemovals ↔
      other ∈ c.pendingRemovals ∧ other ≠ title := by
  simp [upsert]

theorem mem_pendingRemovals_remove :
    other ∈ (c.remove title).pendingRemovals ↔ other = title ∨ other ∈ c.pendingRemovals := by
  simp [remove]

theorem mem_stale {liveTitles : List Str} :
    title ∈ c.stale liveTitles ↔ (c.pages.lookup title).isSome ∧ title ∉ liveTitles := by
  simp [stale, AList.lookup_isSome, AList.mem_keys]

theorem lookup_prune (liveTitles : List Str) (title : Str) :
    (c.pruneMissingPages liveTitles).1.pages.lookup title =
      if title ∈ c.stale liveTitles then none else c.pages.lookup title :=
  lookup_popAll (c.stale liveTitles) c.pages title

/-- The keys without a live title are dropped, and the others keep their title. -/
theorem lookup_aliasToPage_prune (liveTitles : List Str) (key : Str) :
    (c.pruneMissingPages liveTitles).1.aliasToPage.lookup key =
      (c.aliasToPage.lookup key).filter (· ∈ liveTitles) := by
  rw [pruneMissingPages, orphanKeys, lookup_popAll_keysWhere]
  simp

end Lemmas

end Catalog

theorem lookup_mergeCatalogPageDeltas (diskPages pending : Rows) (title : Str) :
    (mergeCatalogPageDeltas diskPages pending).lookup title =
      (pending.lookup title).elim (diskPages.lookup title) fun entry =>
        some (mergeRow (diskPages.lookup title) entry) :=
  lookup_mergeWith mergeRow diskPages pending title

/-- The row that a merge keeps is not older than the merged one. -/
theorem le_mtimeNs_mergeRow (existing : Option CatalogEntry) (entry : CatalogEntry) :
    entry.mtimeNs ≤ (mergeRow existing entry).mtimeNs := by
  cases existing with
  | none => exact le_rfl
  | some old =>
      simp only [mergeRow]
      split_ifs with hLe
      · exact le_rfl
      · exact (not_le.mp hLe).le

section Operations

/-- What is done to the row of a title. -/
inductive Op where
  | upsert (entry : CatalogEntry)
  | remove
  deriving DecidableEq

/-- The last of some operations on a title. -/
def lastOp (ops : List (Str × Op)) (title : Str) : Option Op :=
  (ops.reverse.find? fun row => row.1 = title).map Prod.snd

theorem lastOp_append (ops later : List (Str × Op)) (title : Str) :
    lastOp (ops ++ later) title = (lastOp later title).or (lastOp ops title) := by
  simp only [lastOp, List.reverse_append, List.find?_append]
  cases later.reverse.find? fun row => row.1 = title <;> rfl

theorem lastOp_singleton (title other : Str) (op : Op) :
    lastOp [(title, op)] other = if other = title then some op else none := by
  by_cases h : other = title
  · simp [lastOp, h]
  · simp [lastOp, h, Ne.symm h]

theorem lastOp_removals (titles : List Str) (title : Str) :
    lastOp (titles.map fun title => (title, .remove)) title =
      if title ∈ titles then some .remove else none := by
  induction titles with
  | nil => rfl
  | cons first titles ih =>
      rw [List.map_cons, ← List.singleton_append, lastOp_append, ih, lastOp_singleton]
      by_cases hMem : title ∈ titles
      · simp [hMem]
      · by_cases hFirst : title = first
        · subst hFirst
          simp [hMem]
        · simp [hMem, hFirst]

end Operations

end Plumber.MasterCatalog
