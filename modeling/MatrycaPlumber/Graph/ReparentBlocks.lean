import MatrycaPlumber.Graph.GlobalFenceScanner
import MatrycaPlumber.Graph.MarkdownBlocks
import MatrycaPlumber.Text.Cuts
import Mathlib.Data.List.Sort

/-! Reparenting: the subtrees of selected blocks are cut out of a page and put
back, indented, under new category bullets. -/
namespace Plumber.ReparentBlocks

open PyText MarkdownBlocks GlobalFenceScanner

/-- A group as the caller passes it. Values are already converted by `str`; a
missing `category` is the empty text. -/
inductive RawGroup where
  | notObject
  | object (category : Str) (blockUuids : Option (List Str))

/-- A category with the identifiers of its members. -/
abbrev Group := Str × List Str

/-- `(bullet_idx, id_line_idx, subtree_end_exclusive)`. -/
abbrev Location := Nat × Nat × Nat

structure ReparentResult where
  ok : Bool
  code : String
  hint : Str
  dryRun : Bool
  path : Option Str
  previewLines : List Str
  deriving DecidableEq

/-- The code and the hint of a refusal. -/
abbrev Refusal := String × Str

def leadingWs (line : Str) : Str := line.takeWhile fun c => c = ' ' || c = '\t'

def shiftLine (delta : Int) (ln : Str) : Str :=
  let core := rstripChars ['\n'] ln
  let nl := ln.drop core.length
  if isBlank core then ln
  else if 0 < delta then List.replicate delta.toNat ' ' ++ core ++ nl
  else
    let ws := leadingWs core
    ws.drop (min (-delta).toNat ws.length) ++ core.drop ws.length ++ nl

def shiftBlockLines (subtree : List Str) (delta : Int) : List Str :=
  if delta = 0 then subtree else subtree.map (shiftLine delta)

def parseGroup : RawGroup → Except Refusal Group
  | .notObject => .error ("bad_group",
      "Each group must be an object with `category` and `block_uuids`.".toList)
  | .object category blockUuids =>
      match strip category, blockUuids with
      | c :: cat, some raw =>
          let uuids := (raw.map strip).filter (· ≠ [])
          if uuids = [] then .error ("empty_group", "block_uuids must not be empty.".toList)
          else .ok (c :: cat, uuids)
      | _, _ => .error ("bad_group",
          "Each group needs non-empty `category` and `block_uuids` list.".toList)

def parseGroups : List RawGroup → Except Refusal (List Group)
  | [] => .ok []
  | g :: gs => do
      let group ← parseGroup g
      let groups ← parseGroups gs
      return group :: groups

/-- The width of a bullet's indentation; zero for a line that is no bullet. -/
def listIndent (line : Str) : Nat :=
  match bulletIndent? line with
  | some ws => ws.length
  | none => 0

def locateMember (tables : CaseTables) (stripped : List Str) (isProtected : Nat → Bool)
    (u : Str) : Except Refusal Location :=
  match locateBlockByUuid tables stripped u with
  | none => .error ("uuid_not_found", "No `id::` match for `".toList ++ u ++ "`.".toList)
  | some (b, i, e) =>
      if (slice (List.range e) b e).any isProtected then
        .error ("protected_fence",
          "A selected block overlaps a fenced / query / HTML dead zone.".toList)
      else .ok (b, i, e)

/-- The dictionary `locs`, in insertion order. -/
def locateMembers (tables : CaseTables) (stripped : List Str) (isProtected : Nat → Bool) :
    List Str → Except Refusal (List (Str × Location))
  | [] => .ok []
  | u :: us => do
      let loc ← locateMember tables stripped isProtected u
      let locs ← locateMembers tables stripped isProtected us
      return (u, loc) :: locs

/-- `path.name`. -/
def baseName (path : Str) : Str := path.rtakeWhile (· ≠ '/')

/-- The order of pairs of numbers. -/
def lexLe (p q : Nat × Nat) : Bool := p.1 < q.1 || (p.1 = q.1 && p.2 ≤ q.2)

def sortedIntervals (locs : List (Str × Location)) : List (Nat × Nat) :=
  (locs.map fun entry => (entry.2.1, entry.2.2.2)).insertionSort (lexLe · ·)

/-- Some interval starts before the previous one ends. -/
def hasOverlap : List (Nat × Nat) → Bool
  | (_, prevE) :: (b, e) :: rest => b < prevE || hasOverlap ((b, e) :: rest)
  | _ => false

/-- The re-indented subtree of one member. -/
def memberChunks (lines stripped : List Str) (locs : List (Str × Location)) (childWs : Str)
    (u : Str) : List Str :=
  match locs.lookup u with
  | none => []
  | some (b, _, e) =>
      let delta : Int := childWs.length - listIndent (stripped.getD b [])
      shiftBlockLines (slice lines b e) delta

/-- `insert_chunks`, from the `k`-th group on. -/
def insertChunks (lines stripped : List Str) (locs : List (Str × Location)) (baseWs childWs : Str)
    (freshUuid : Nat → Uuid) : Nat → List Group → List Str
  | _, [] => []
  | k, (cat, uuids) :: groups =>
      (baseWs ++ "- ".toList ++ cat ++ ['\n']) ::
        (childWs ++ "id:: ".toList ++ (freshUuid k).text ++ ['\n']) ::
          ((uuids.flatMap (memberChunks lines stripped locs childWs)) ++
            insertChunks lines stripped locs baseWs childWs freshUuid (k + 1) groups)

/-- `unit`: the indentation step at the first interval. -/
def indentUnit (lines : List Str) : List (Nat × Nat) → Str
  | (b, _) :: _ => bulletIndentUnit lines b
  | [] => "  ".toList

/-- `base_ws`: blanks as wide as the indentation of the first member. -/
def baseWhitespace (stripped : List Str) : List (Str × Location) → Str
  | (_, b, _, _) :: _ => List.replicate (listIndent (stripped.getD b [])) ' '
  | [] => []

/-- The text of the page after the move. -/
def reparentedText (lines stripped : List Str) (locs : List (Str × Location))
    (groups : List Group) (freshUuid : Nat → Uuid) (firstStart : Nat) : Str :=
  let intervals := sortedIntervals locs
  let kept := cut lines 0 intervals
  let baseWs := baseWhitespace stripped locs
  let childWs := baseWs ++ indentUnit lines intervals
  let blob := (insertChunks lines stripped locs baseWs childWs freshUuid 0 groups).flatten
  (kept.take firstStart ++ splitlinesKeep blob ++ kept.drop firstStart).flatten

def baseIndents (stripped : List Str) (locs : List (Str × Location)) : List Nat :=
  locs.map fun entry => listIndent (stripped.getD entry.2.1 [])

/-- The checks before the rewrite: the groups and the location of each member. -/
def checkGroups (tables : CaseTables) (text : Str) (rawGroups : List RawGroup) :
    Except Refusal (List Group × List (Str × Location)) :=
  let stripped := (splitlinesKeep text).map (rstripChars ['\n'])
  match parseGroups rawGroups with
  | .error refusal => .error refusal
  | .ok groups =>
      let allUuids := groups.flatMap Prod.snd
      if ¬allUuids.Nodup then
        .error ("duplicate_uuid", "A block UUID appears in more than one group.".toList)
      else
        match locateMembers tables stripped (computePageProtectedLineIndices text) allUuids with
        | .error refusal => .error refusal
        | .ok locs =>
            if hasOverlap (sortedIntervals locs) then
              .error ("overlapping_blocks", ("Selected blocks overlap in the file; pick " ++
                "disjoint blocks or a narrower refactor scope.").toList)
            else if (baseIndents stripped locs).max? ≠ (baseIndents stripped locs).min? then
              .error ("indent_mismatch",
                "All member blocks must share the same list indent (flat siblings).".toList)
            else .ok (groups, locs)

/-- The result together with the text written to the page, if any. `page` is
the outcome of reading the page file and `commit` says whether the writer takes
the payload. -/
def refactorLogseqBlocks (tables : CaseTables) (freshUuid : Nat → Uuid) (commit : Str → Bool)
    (path : Str) (page : Except String Str) (rawGroups : List RawGroup) (dryRun : Bool) :
    Except PyError (ReparentResult × Option Str) :=
  match page with
  | .error code => .ok (⟨false, code, "Could not read page.".toList, dryRun, none, []⟩, none)
  | .ok raw =>
      let text := universalNewlines raw
      match checkGroups tables text rawGroups with
      | .error (code, hint) => .ok (⟨false, code, hint, dryRun, some path, []⟩, none)
      | .ok (groups, locs) =>
          match (locs.map fun entry => entry.2.1).min? with
          | none => .error .valueError
          | some firstStart =>
              let lines := splitlinesKeep text
              let newText := reparentedText lines (lines.map (rstripChars ['\n'])) locs groups
                freshUuid firstStart
              let previews := (groups.map fun group => "- ".toList ++ group.1).take 20
              if dryRun then
                .ok (⟨true, "dry_run_ok",
                  "Re-run with dry_run=false after a git snapshot to apply.".toList, true,
                  some path, previews⟩, none)
              else if commit newText then
                .ok (⟨true, "applied", "Backup `".toList ++ baseName path ++
                  ".bak`; reparented ".toList ++ (toString locs.length).toList ++
                  " blocks.".toList, false, some path, previews⟩, some newText)
              else .error .writeRefused

end Plumber.ReparentBlocks
