import MatrycaPlumber.Text.Decimal

/-! The subtree of a block in the shadow database: the recursive queries on the blocks
table, and the limits on their result. -/
namespace Plumber.Subtree

open PyText Forest RecursiveQuery

structure BlockRow where
  rowid : ℕ
  blockUuid : Str
  pageId : ℕ
  parentRowid : Option ℕ
  sortOrder : ℕ
  indentLevel : ℕ
  content : Str
  propertiesJson : Str
  deriving DecidableEq

/-- The blocks table. Integers have 64 bits, and rowids and UUIDs are unique. -/
structure BlocksTable where
  rows : List BlockRow
  rowid_unique : (rows.map (·.rowid)).Nodup
  uuid_unique : (rows.map (·.blockUuid)).Nodup
  rowid_lt : ∀ r ∈ rows, r.rowid < 2 ^ 63
  sortOrder_lt : ∀ r ∈ rows, r.sortOrder < 2 ^ 63

inductive SubtreeStatus
  | notFound
  | complete
  | truncated
  | inconsistent
  deriving DecidableEq

structure SubtreeBlock where
  row : BlockRow
  depth : ℕ
  pathKey : Str
  deriving DecidableEq

structure SubtreeQueryResult where
  status : SubtreeStatus
  anchorUuid : Str
  pageId : Option ℕ
  nodes : List SubtreeBlock
  excerptMarkdown : Str
  detail : Option Str
  deriving DecidableEq

/-- A row of the recursive table `subtree`. -/
structure SubtreeRow where
  block : SubtreeBlock
  visited : Str

def clamp (x : Int) (limit : ℕ) : ℕ := (max 1 (min x limit)).toNat

section Queries

variable (table : BlocksTable)

/-- Walks on a tree have no more levels than there are rows. -/
def fuel : ℕ := table.rows.length + 1

def fetchAnchor (blockUuid : Str) : Option BlockRow :=
  table.rows.find? fun r => r.blockUuid = blockUuid

/-- The children of a row on one page. -/
def childRows (pageId : ℕ) (r : BlockRow) : List BlockRow :=
  table.rows.filter fun child => child.parentRowid = some r.rowid ∧ child.pageId = pageId

/-- `_has_cross_page_edge`; there is no answer if the walk does not end. -/
def hasCrossPageEdge (anchor : BlockRow) : Option Bool :=
  (recursiveQuery (fun r => childRows table r.pageId r) (fuel table) [anchor]).map fun walk =>
    table.rows.any fun child =>
      child.pageId ≠ anchor.pageId ∧ walk.any fun r => child.parentRowid = some r.rowid

/-- `any` over calls that may not return. -/
def anyCall (f : BlockRow → Option Bool) : List BlockRow → Option Bool
  | [] => some false
  | r :: rest =>
      match f r with
      | none => none
      | some true => some true
      | some false => anyCall f rest

def siblingOrder (r s : BlockRow) : Prop :=
  r.sortOrder < s.sortOrder ∨ r.sortOrder = s.sortOrder ∧ r.rowid ≤ s.rowid

instance : DecidableRel siblingOrder := fun r s =>
  inferInstanceAs (Decidable (r.sortOrder < s.sortOrder ∨ r.sortOrder = s.sortOrder ∧
    r.rowid ≤ s.rowid))

/-- The children by `sort_order` and `rowid`. -/
def orderedChildren (pageId : ℕ) (r : BlockRow) : List BlockRow :=
  (childRows table pageId r).insertionSort siblingOrder

/-- `dfs` of `_has_cycle_in_subtree`, for calls that are nested `n` deep at most. -/
def hasCycle (pageId : ℕ) : ℕ → List ℕ → BlockRow → Option Bool
  | 0, _, _ => none
  | n + 1, path, r =>
      if r.rowid ∈ path then some true
      else anyCall (hasCycle pageId n (r.rowid :: path)) (orderedChildren table pageId r)

/-- `printf('%020d,%020d', sort_order, rowid)`. -/
def keySegment (r : BlockRow) : Str := zeroPadded 20 r.sortOrder ++ ',' :: zeroPadded 20 r.rowid

/-- `instr(',' || visited || ',', ',' || rowid || ',') = 0`. -/
def notVisited (visited : Str) (r : BlockRow) : Bool :=
  !decide (',' :: (decimal r.rowid ++ [',']) <:+: ',' :: (visited ++ [',']))

def anchorRow (anchor : BlockRow) : SubtreeRow :=
  ⟨⟨anchor, 0, keySegment anchor⟩, decimal anchor.rowid⟩

def childRow (parent : SubtreeRow) (child : BlockRow) : SubtreeRow where
  block := ⟨child, parent.block.depth + 1, parent.block.pathKey ++ '/' :: keySegment child⟩
  visited := parent.visited ++ ',' :: decimal child.rowid

def expandSubtree (pageId depthCap : ℕ) (parent : SubtreeRow) : List SubtreeRow :=
  ((childRows table pageId parent.block.row).filter fun child =>
    parent.block.depth < depthCap ∧ notVisited parent.visited child = true).map (childRow parent)

def subtreeRows (anchor : BlockRow) (maxDepth : ℕ) : Option (List SubtreeRow) :=
  recursiveQuery (expandSubtree table anchor.pageId (maxDepth - 1)) (fuel table) [anchorRow anchor]

def fetchSubtreeRows (anchor : BlockRow) (maxDepth maxNodes : ℕ) : Option (List SubtreeBlock) :=
  (subtreeRows table anchor maxDepth).map fun rows =>
    ((rows.map (·.block)).insertionSort fun b c => b.pathKey ≤ c.pathKey).take maxNodes

/-- `_count_subtree_nodes`, whose query walks like that of `_fetch_subtree_rows`. -/
def countSubtreeNodes (anchor : BlockRow) (maxDepth : ℕ) : Option ℕ :=
  (subtreeRows table anchor maxDepth).map List.length

def expandDepth (pageId deepest : ℕ) (parent : BlockRow × ℕ) : List (BlockRow × ℕ) :=
  if parent.2 < deepest then (childRows table pageId parent.1).map fun child => (child, parent.2 + 1)
  else []

def hasDepthOrNodeTruncation (anchor : BlockRow) (maxDepth maxNodes fetchedCount : ℕ) :
    Option Bool :=
  match countSubtreeNodes table anchor maxDepth,
    recursiveQuery (expandDepth table anchor.pageId (maxDepth - 1)) (fuel table) [(anchor, 0)] with
  | some total, some walk =>
      some (decide (maxNodes ≤ fetchedCount ∧ fetchedCount < total) ||
        walk.any fun r => r.2 = maxDepth - 1 ∧ childRows table anchor.pageId r.1 ≠ [])
  | _, _ => none

end Queries

section Output

-- What `_render_block_lines` reads from the properties: the stripped `id`, or nothing.
variable (idProperty : Str → Str)

def renderBlockLines (r : BlockRow) : Str :=
  let indent := List.replicate (2 * r.indentLevel) ' '
  let blockId := idProperty r.propertiesJson
  indent ++ "- ".toList ++ r.content ++ ['\n'] ++
    if blockId = [] then [] else indent ++ "  id:: ".toList ++ blockId ++ ['\n']

def utf8Length (s : Str) : ℕ := (s.map Char.utf8Size).sum

def truncationNotice : Str := "\n… [truncated: output byte limit exceeded]\n".toList

/-- The blocks after the first one that fit, with `used` bytes taken; they are cut at the
first one that does not. -/
def takeWithinBytes (maxOutputBytes : ℕ) : ℕ → List SubtreeBlock → List SubtreeBlock × Bool
  | _, [] => ([], false)
  | used, block :: rest =>
      let size := utf8Length (renderBlockLines idProperty block.row)
      if maxOutputBytes < used + size then ([], true)
      else
        let (taken, truncated) := takeWithinBytes maxOutputBytes (used + size) rest
        (block :: taken, truncated)

def renderBlocks (blocks : List SubtreeBlock) : Str :=
  blocks.flatMap fun block => renderBlockLines idProperty block.row

/-- `_apply_output_byte_limit`: the first block is in the output even if it is too long. -/
def applyOutputByteLimit (maxOutputBytes : ℕ) (blocks : List SubtreeBlock) :
    List SubtreeBlock × Str × Bool :=
  match blocks with
  | [] => ([], [], false)
  | first :: rest =>
      let size := utf8Length (renderBlockLines idProperty first.row)
      let (taken, cut) := takeWithinBytes idProperty maxOutputBytes size rest
      let truncated := decide (maxOutputBytes < size) || cut
      let excerpt := renderBlocks idProperty (first :: taken)
      let shown :=
        if truncated then
          if excerpt = [] then truncationNotice.drop 1
          else rstripChars ['\n'] excerpt ++ truncationNotice
        else excerpt
      (first :: taken, shown, truncated)

variable (table : BlocksTable)

def emptyResult (status : SubtreeStatus) (anchorUuid : Str) (pageId : Option ℕ) (detail : Str) :
    SubtreeQueryResult :=
  ⟨status, anchorUuid, pageId, [], [], some detail⟩

/-- The part of the query behind its tests for inconsistent rows. -/
def limitedSubtree (anchorUuid : Str) (anchor : BlockRow)
    (maxDepth maxNodes maxOutputBytes : ℕ) : Option SubtreeQueryResult :=
  (fetchSubtreeRows table anchor maxDepth maxNodes).bind fun blocks =>
    let (limitedBlocks, excerpt, byteTruncated) :=
      applyOutputByteLimit idProperty maxOutputBytes blocks
    (if byteTruncated then some true
      else hasDepthOrNodeTruncation table anchor maxDepth maxNodes blocks.length).map fun truncated =>
      { status := if truncated then .truncated else .complete
        anchorUuid := anchorUuid
        pageId := some anchor.pageId
        nodes := limitedBlocks
        excerptMarkdown := excerpt
        detail := if truncated then some "subtree limits exceeded".toList else none }

/-- `query_subtree_by_block_uuid`; there is no result if one of the walks does not end. -/
def querySubtreeByBlockUuid (blockUuid : Str) (maxDepth maxNodes maxOutputBytes : Int) :
    Option SubtreeQueryResult :=
  let anchorUuid := strip blockUuid
  if anchorUuid = [] then
    some (emptyResult .notFound anchorUuid none "block_uuid is empty".toList)
  else
    match fetchAnchor table anchorUuid with
    | none =>
        some (emptyResult .notFound anchorUuid none
          ("block `".toList ++ anchorUuid ++ "` not found in shadow blocks".toList))
    | some anchor =>
        match hasCrossPageEdge table anchor with
        | none => none
        | some true =>
            some (emptyResult .inconsistent anchorUuid anchor.pageId
              "subtree contains a child block on a different page_id".toList)
        | some false =>
            match hasCycle table anchor.pageId (fuel table) [] anchor with
            | none => none
            | some true =>
                some (emptyResult .inconsistent anchorUuid anchor.pageId
                  "subtree contains a parent_rowid cycle".toList)
            | some false =>
                limitedSubtree idProperty table anchorUuid anchor (clamp maxDepth 256)
                  (clamp maxNodes 10000) (clamp maxOutputBytes 10000000)

end Output

/-- The parent edges form trees, each inside its page. -/
structure TreesInPages (table : BlocksTable) : Prop where
  same_page : ∀ child ∈ table.rows, ∀ r ∈ table.rows,
    child.parentRowid = some r.rowid → child.pageId = r.pageId
  no_cycle : ∃ height : ℕ → ℕ, ∀ child ∈ table.rows, ∀ r ∈ table.rows,
    child.parentRowid = some r.rowid → height r.rowid < height child.rowid

end Plumber.Subtree
