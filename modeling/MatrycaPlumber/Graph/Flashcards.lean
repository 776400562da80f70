import MatrycaPlumber.Graph.BlockChildren
import MatrycaPlumber.Graph.LogseqUuid
import MatrycaPlumber.Graph.MldocProperties
import MatrycaPlumber.Text.Decimal
import MatrycaPlumber.Text.Splicing
import MatrycaPlumber.Text.Stripping

/-! Flashcards are made of the `question :: answer` bullets of a block and put in behind it. -/
namespace Plumber.Flashcards

open PyText MarkdownBlocks MldocProperties SemanticIndex LogseqUuid

section Model

variable (tables : CaseTables) (casefold : Str → Str)

/-- `_parse_srs_pair_from_bullet`. -/
def parseSrsPairFromBullet (stripped : Str) : Option (Str × Str) :=
  if (bulletIndent? stripped).isNone then none
  else
    let body := strip ((lstrip stripped).drop 1)
    if isLogseqBlockPropertyLine casefold stripped then none
    else
      match partition " :: ".toList body with
      | none => none
      | some (left, right) =>
          let q := strip left
          let a := strip right
          if q = [] ∨ a = [] ∨ q.length < 2 then none
          else if endsWith "::".toList q then none
          else some (q, a)

/-- `_extract_pairs_from_block_text`. -/
def extractPairsFromBlockText (chunkLines : List Str) : List (Str × Str) :=
  chunkLines.filterMap fun raw =>
    let s := rstripChars ['\n'] raw
    if isBlank s then none else parseSrsPairFromBullet casefold s

inductive AppendCode where
  | pathEscapesGraph
  | pageNotFound
  | uuidNotFound
  | noPairs
  | dryRunOk
  | applied
deriving DecidableEq, Repr

structure FlashcardAppendResult where
  ok : Bool
  code : AppendCode
  hint : Str
  dryRun : Bool
  cardsPreview : List Str := []
  insertedLineCount : ℕ := 0
  path : Option Str

/-- What is raised instead of a result. -/
inductive AppendError where
  | osError
  | readOnlyGraph
  | malformedBlockRef
deriving DecidableEq, Repr

/-- The page file during a call: what stands in it when it is read, when it is copied and when
it is replaced, since other programs may write in between. -/
structure PageFile where
  path : Option Str
  backupName : Str
  isMarkdown : Bool
  writable : Bool
  replaces : Bool
  atRead : Option Str
  atBackup : Option Str
  atWrite : Option Str

/-- `read_page_lines`. -/
def readPageLines (file : PageFile) : Except AppendCode (Str × List Str) :=
  match file.path with
  | none => .error .pathEscapesGraph
  | some path =>
      match file.atRead with
      | none => .error .pageNotFound
      | some raw => .ok (path, splitlinesKeep (universalNewlines raw))

/-- The writing half of the call: the backup, and `atomic_write_bytes`. -/
def writePage (file : PageFile) (newText : Str) : Except AppendError Str :=
  if file.atBackup = none then .error .osError
  else if !file.writable then .error .readOnlyGraph
  else if file.isMarkdown ∧ findMalformedBlockRefs newText ≠ [] then .error .malformedBlockRef
  else if !file.replaces then .error .osError
  else .ok newText

def cardPreview (pair : Str × Str) : Str := "- ".toList ++ pair.1 ++ " #card ".toList ++ pair.2

def cardLine (childIndent : Str) (pair : Str × Str) : Str :=
  childIndent ++ "- ".toList ++ pair.1 ++ " #card ".toList ++ pair.2 ++ ['\n']

def idLine (childIndent : Str) (cid : Uuid) : Str :=
  childIndent ++ "  id:: ".toList ++ cid.text ++ ['\n']

/-- The lines of the cards from number `k` on, each with the next new identifier. -/
def insertLines (childIndent : Str) (newId : ℕ → Uuid) : ℕ → List (Str × Str) → List Str
  | _, [] => []
  | k, pair :: pairs =>
      cardLine childIndent pair :: idLine childIndent (newId k) ::
        insertLines childIndent newId (k + 1) pairs

/-- The indentation of a child of the bullet line. -/
def childIndent (lines : List Str) (bulletIdx : ℕ) : Str :=
  (bulletIndent? ((lines.map (rstripChars ['\n'])).getD bulletIdx [])).getD [] ++
    bulletIndentUnit lines bulletIdx

def cardLimit (maxCards : ℤ) : ℕ := (max 1 (min maxCards 200)).toNat

/-- What is done with the lines of the page under its lock. -/
def appendUnderBlock (file : PageFile) (path : Str) (lines : List Str) (sourceBlockUuid : Str)
    (maxCards : ℤ) (dryRun : Bool) (newId : ℕ → Uuid) :
    Except AppendError (FlashcardAppendResult × Option Str) :=
  let stripped := lines.map (rstripChars ['\n'])
  match locateBlockByUuid tables stripped sourceBlockUuid with
  | none => .ok ({
      ok := false
      code := .uuidNotFound
      hint := "No matching `id::` for source_block_uuid.".toList
      dryRun
      path := some path }, none)
  | some (bulletIdx, _, stop) =>
      let pairs := (extractPairsFromBlockText casefold (slice stripped bulletIdx stop)).take
        (cardLimit maxCards)
      if pairs = [] then .ok ({
        ok := false
        code := .noPairs
        hint := "No question :: answer patterns in this block subtree (non-property lines).".toList
        dryRun
        path := some path }, none)
      else
        let inserted := insertLines (childIndent lines bulletIdx) newId 0 pairs
        let newText := (lines.take stop ++ inserted ++ lines.drop stop).flatten
        if dryRun then .ok ({
          ok := true
          code := .dryRunOk
          hint := "Re-run with dry_run=false to append cards after this block.".toList
          dryRun := true
          cardsPreview := pairs.map cardPreview
          insertedLineCount := inserted.length
          path := some path }, none)
        else
          match writePage file newText with
          | .error e => .error e
          | .ok written => .ok ({
              ok := true
              code := .applied
              hint := "Backup `".toList ++ file.backupName ++ "`; appended ".toList ++
                decimal pairs.length ++ " cards.".toList
              dryRun := false
              cardsPreview := pairs.map cardPreview
              insertedLineCount := inserted.length
              path := some path }, some written)

/-- `append_logseq_flashcards_under_block`: the result, and the text that the page is replaced
by if it is. The lines are read ahead of the lock. -/
def appendLogseqFlashcardsUnderBlock (file : PageFile) (sourceBlockUuid : Str) (maxCards : ℤ)
    (dryRun : Bool) (newId : ℕ → Uuid) : Except AppendError (FlashcardAppendResult × Option Str) :=
  match readPageLines file with
  | .error code =>
      .ok ({ ok := false, code, hint := "Could not read page.".toList, dryRun, path := none }, none)
  | .ok (path, lines) =>
      appendUnderBlock tables casefold file path lines sourceBlockUuid maxCards dryRun newId

end Model

section Statement

/-- The written text is the old one with the reported cards behind the block, each of them a
child of the block with its own identifier. -/
structure PureInsertion (tables : CaseTables) (sourceBlockUuid : Str) (newId : ℕ → Uuid)
    (before written : Str) (cardsPreview : List Str) (indent : Str) (pairs : List (Str × Str))
    (b i e : ℕ) : Prop where
  located : locateBlockByUuid tables (splitlinesKeep before) sourceBlockUuid = some (b, i, e)
  previews : cardsPreview = pairs.map cardPreview
  blank : isBlank indent = true
  inserted : splitlinesKeep written =
    splice (splitlinesKeep before) e (insertLines indent newId 0 pairs)
  child : ∀ k < pairs.length, IsChildOf (splitlinesKeep written) b (e + 2 * k)
  identified : ∀ k < pairs.length,
    blockBulletIndex (splitlinesKeep written) (e + 2 * k + 1) = some (e + 2 * k)

/-- What was written is what stood in the page right before with the cards put in. -/
def KeepsPage (tables : CaseTables) (sourceBlockUuid : Str) (newId : ℕ → Uuid)
    (atWrite written : Option Str) (cardsPreview : List Str) : Prop :=
  ∃ before new indent pairs b i e, atWrite = some before ∧ written = some new ∧
    PureInsertion tables sourceBlockUuid newId before new cardsPreview indent pairs b i e

/-- The page still is what was read, the cards start on a line of their own, and no bullet of
the block is indented less than they are. -/
structure Appendable (tables : CaseTables) (sourceBlockUuid : Str) (file : PageFile) (text : Str) :
    Prop where
  current : file.atWrite = some text
  terminated : ∀ b i, locateBlockByUuid tables (splitlinesKeep text) sourceBlockUuid =
      some (b, i, (splitlinesKeep text).length) → ∀ c ∈ text.getLast?, isLineBreak c = true
  indented : ∀ b i e, locateBlockByUuid tables (splitlinesKeep text) sourceBlockUuid =
      some (b, i, e) →
    IndentedBy (splitlinesKeep text) (childIndent (splitlinesKeep text) b).length b e

end Statement

end Plumber.Flashcards
