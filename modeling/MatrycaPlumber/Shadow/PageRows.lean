import Mathlib.Data.Char
import Mathlib.Data.List.Lex
import Mathlib.Data.List.Sort
import MatrycaPlumber.System.Dict
import MatrycaPlumber.Text.Basic

/-! The rows that the shadow database has for the pages of a graph, and how they follow
the files: one page at a time, or all of them in a rebuild. -/
namespace Plumber.Shadow

open PyText PyDict

/-- A block as the outline parser returns it. A missing or empty value is the empty text. -/
inductive LogseqNode where
  | mk (idProperty sourceUuid uuid : Str) (indentLevel : Int) (content propertiesJson : Str)
      (children : List LogseqNode)

def blockUuid (idProperty sourceUuid uuid : Str) : Str :=
  if idProperty ≠ [] then strip idProperty
  else if sourceUuid ≠ [] then strip sourceUuid
  else strip uuid

/-- A row of a block, with the identifier of its parent for the number of its row. -/
structure BlockRow where
  blockUuid : Str
  parentUuid : Option Str
  sortOrder : Nat
  indentLevel : Int
  content : Str
  propertiesJson : Str
  deriving DecidableEq

mutual

def LogseqNode.walk (parentUuid : Option Str) (sortOrder : Nat) : LogseqNode → List BlockRow
  | .mk idProperty sourceUuid uuid indentLevel content propertiesJson children =>
      let uuid := blockUuid idProperty sourceUuid uuid
      ⟨uuid, parentUuid, sortOrder, indentLevel, content, propertiesJson⟩ ::
        walkBlocks (some uuid) 0 children

def walkBlocks (parentUuid : Option Str) (sortBase : Nat) : List LogseqNode → List BlockRow
  | [] => []
  | node :: nodes => node.walk parentUuid sortBase ++ walkBlocks parentUuid (sortBase + 1) nodes

end

structure LogseqPage where
  propertiesJson : Str
  rootNodes : List LogseqNode

def LogseqPage.flat (page : LogseqPage) : List BlockRow := walkBlocks none 0 page.rootNodes

/-- The block's row as it is stored, where an empty identifier stands for no parent. -/
def BlockRow.stored (row : BlockRow) : BlockRow :=
  { row with parentUuid := row.parentUuid.filter (· ≠ []) }

structure SourceFile where
  content : Str
  mtimeNs : Int
  size : Nat
  deriving DecidableEq

abbrev Files := Dict Str SourceFile

/-- What a bounded parse that fails tells. -/
structure ParseFailure where
  error : Str
  contentHash : Str
  byteCount : Int
  lineCount : Int

/-- The row of a page with the rows of its blocks. -/
structure PageRow where
  title : Str
  filePath : Str
  fileMtimeNs : Int
  fileSize : Nat
  isJournal : Bool
  propertiesJson : Str
  blocks : List BlockRow
  deriving DecidableEq

structure QuarantineRow where
  byteCount : Int
  lineCount : Int
  attemptCount : Nat

/-- The titles of pages are unique, so the rows are filed under them. -/
structure Tables where
  pages : Dict Str PageRow := ∅
  quarantined : Dict Str QuarantineRow := ∅

/-- How the files of a graph are read: the title of a path, the outline of a file, and the
order in which the paths are scanned, for any such functions. -/
structure Vault where
  pageTitle : Str → Str
  parse : Str → SourceFile → Except ParseFailure LogseqPage
  sourcePaths : Files → List Str
  perm : ∀ files, (sourcePaths files).Perm files.keys
  quarantine : Bool

inductive SyncError where
  | parse (failure : ParseFailure)
  | duplicateBlockUuid (blockUuid : Str) (filePaths : List Str)

def isJournalRelpath (rel : Str) : Bool :=
  startsWith "journals/".toList rel || decide ("/journals/".toList <:+: rel)

/-- `DELETE FROM pages` for the rows that meet a condition. -/
def deleteWhere (p : PageRow → Bool) (pages : Dict Str PageRow) : Dict Str PageRow :=
  popAll (keysWhere p pages) pages

def recordQuarantined (rel : Str) (failure : ParseFailure) (rows : Dict Str QuarantineRow) :
    Dict Str QuarantineRow :=
  let attempts := (rows.lookup rel).elim 0 QuarantineRow.attemptCount
  rows.insert rel ⟨max 0 failure.byteCount, max 0 failure.lineCount, attempts + 1⟩

def PageRow.owns (row : PageRow) (flat : List BlockRow) : Bool :=
  row.blocks.any fun block => block.blockUuid ∈ flat.map BlockRow.blockUuid

/-- The rows of other pages that have a block of this page. -/
def otherOwners (flat : List BlockRow) (rel : Str) (pages : Dict Str PageRow) : List PageRow :=
  (pages.entries.map Sigma.snd).filter fun row => row.filePath ≠ rel ∧ row.owns flat

/-- The first value that is among those before it. -/
def findDuplicate (seen : List Str) : List Str → Option Str
  | [] => none
  | uuid :: uuids => if uuid ∈ seen then some uuid else findDuplicate (uuid :: seen) uuids

def crossPageError (flat : List BlockRow) (rel : Str) (row : PageRow) : SyncError :=
  let uuid := row.blocks.map BlockRow.blockUuid |>.find? (· ∈ flat.map BlockRow.blockUuid)
  .duplicateBlockUuid (uuid.getD []) ([rel, row.filePath].insertionSort (· ≤ ·))

/-- A block may not be twice on a page, nor on another page that is there. The other pages
that have a block of this one are dropped. -/
def preflightBlockUuids (files : Files) (flat : List BlockRow) (rel : Str)
    (pages : Dict Str PageRow) : Except SyncError (Dict Str PageRow) :=
  match findDuplicate [] (flat.map BlockRow.blockUuid) with
  | some uuid => .error (.duplicateBlockUuid uuid [rel])
  | none =>
      match (otherOwners flat rel pages).find? fun row => (files.lookup row.filePath).isSome with
      | some row => .error (crossPageError flat rel row)
      | none =>
          .ok (deleteWhere
            (fun row => row.filePath ∈ (otherOwners flat rel pages).map PageRow.filePath) pages)

namespace Vault

variable (V : Vault)

/-- The outline of a file that is there and can be parsed. -/
def outline (files : Files) (rel : Str) : Option LogseqPage :=
  (files.lookup rel).bind fun file => (V.parse rel file).toOption

def rowOf (rel : Str) (file : SourceFile) (page : LogseqPage) : PageRow where
  title := V.pageTitle rel
  filePath := rel
  fileMtimeNs := file.mtimeNs
  fileSize := file.size
  isJournal := isJournalRelpath rel
  propertiesJson := page.propertiesJson
  blocks := page.flat.map BlockRow.stored

/-- `sync_page_into_connection`: the tables after it, and whether the page is among the rows
now. The caller rolls back after an error. -/
def syncPage (files : Files) (rel : Str) (tables : Tables) : Except SyncError (Tables × Bool) :=
  let unlisted := deleteWhere (fun row => row.filePath = rel) tables.pages
  match files.lookup rel with
  | none => .ok (⟨unlisted, tables.quarantined.erase rel⟩, false)
  | some file =>
      match V.parse rel file with
      | .error failure =>
          if V.quarantine then
            .ok (⟨unlisted, recordQuarantined rel failure tables.quarantined⟩, false)
          else .error (.parse failure)
      | .ok page =>
          match preflightBlockUuids files page.flat rel tables.pages with
          | .error error => .error error
          | .ok pages =>
              let title := V.pageTitle rel
              let pages := deleteWhere (fun row => row.filePath = rel ∨ row.title = title) pages
              .ok (⟨pages.insert title (V.rowOf rel file page), tables.quarantined.erase rel⟩, true)

/-- Syncs one after the other, with the number of pages that are among the rows. -/
def syncPages (files : Files) : List Str → Tables → Except SyncError (Tables × Nat)
  | [], tables => .ok (tables, 0)
  | rel :: rels, tables =>
      match V.syncPage files rel tables with
      | .error error => .error error
      | .ok (tables, present) =>
          (syncPages files rels tables).map fun result =>
            (result.1, result.2 + present.toNat)

/-- The transaction of `rebuild_shadow_from_graph`, with the number of indexed pages. -/
def rebuild (files : Files) : Except SyncError (Tables × Nat) :=
  V.syncPages files (V.sourcePaths files) {}

end Vault

end Plumber.Shadow
