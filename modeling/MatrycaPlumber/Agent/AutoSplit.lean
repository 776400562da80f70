import MatrycaPlumber.Graph.LogseqUuid
import MatrycaPlumber.Graph.PageFiles
import Mathlib.Data.List.Sort

/-! The cutting out of dense blocks: each of them goes to a page of its own, and
an embed stub stands for it on the page it came from. -/
namespace Plumber.AutoSplit

open PyText MarkdownBlocks LogseqUuid PageFiles

/-- `_BULLET = ^(\s*)[-*+]\s+(.*)$`: the indentation and the text of a bullet.
Unlike a line, a stub that stands in the list of lines has newlines in it. -/
def bulletMatch? (line : Str) : Option (Str × Str) :=
  match line.dropWhile isSpace with
  | m :: c :: rest =>
      let text := rest.dropWhile isSpace
      if isListMarker m && isSpace c && '\n' ∉ text then some (line.takeWhile isSpace, text)
      else none
  | _ => none

/-- `_ID_LINE`: the identifier of an id line. -/
def idLineUuid? (tables : CaseTables) (line : Str) : Option Str :=
  match dropPrefixIgnoreCase? tables "id::".toList (lstrip line) with
  | none => none
  | some rest =>
      let value := lstrip rest
      if isUuidText (value.take 36) && isBlank (value.drop 36) then some (value.take 36) else none

def stripNewlines (line : Str) : Str := rstripChars ['\n'] line

def countSubtreeBullets (lines : List Str) (bulletIdx stop : Nat) : Nat :=
  (slice lines bulletIdx stop).countP fun line => (bulletMatch? (stripNewlines line)).isSome

def normalizedLine (baseIndent : Nat) (line : Str) : Str :=
  let raw := stripNewlines line
  match bulletMatch? raw with
  | some (indent, text) =>
      List.replicate (indent.length - baseIndent) ' ' ++ "- ".toList ++ text
  | none => raw

def subtreeText (lines : List Str) (start stop : Nat) : Str :=
  match slice lines start stop with
  | [] => []
  | first :: rest =>
      let baseIndent := match bulletMatch? (stripNewlines first) with
        | some (indent, _) => indent.length
        | none => 0
      strip (join ['\n'] ((first :: rest).map (normalizedLine baseIndent))) ++ ['\n']

structure Candidate where
  bulletIdx : Nat
  stop : Nat
  blockCount : Nat
  snippet : Str
  deriving DecidableEq

/-- The candidate that an id line stands for. -/
def candidate? (tables : CaseTables) (threshold : Int) (lines : List Str) (line : Str) :
    Option Candidate :=
  match idLineUuid? tables line with
  | none => none
  | some blockUuid =>
      match locateBlockByUuid tables lines blockUuid with
      | none => none
      | some (bulletIdx, _, stop) =>
          let blockCount := countSubtreeBullets lines bulletIdx stop
          if (blockCount : Int) < threshold then none
          else
            match bulletMatch? (lines.getD bulletIdx []) with
            | none => none
            | some (_, text) => some ⟨bulletIdx, stop, blockCount, text.take 48⟩

/-- The candidates of a page, from its end to its beginning. -/
def orderedCandidates (tables : CaseTables) (threshold : Int) (lines : List Str) :
    List Candidate :=
  let stripped := lines.map stripNewlines
  (stripped.filterMap (candidate? tables threshold stripped)).insertionSort
    fun c c' => c'.bulletIdx ≤ c.bulletIdx

/-- `re.sub(r"\s+", " ", s)`. -/
def collapseSpaces : Str → Str
  | [] => []
  | c :: rest =>
      if isSpace c then
        if rest.head?.any isSpace then collapseSpaces rest else ' ' :: collapseSpaces rest
      else c :: collapseSpaces rest

def sanitizePageTitle (raw : Str) : Str :=
  let dashed := (strip raw).map fun c => if "\\/:*?\"<>|".toList.contains c then '-' else c
  (strip (collapseSpaces dashed)).take 80

/-- What the module has from the rest of the program: the path of a page by its
title (`none` if it leaves the graph), the page properties that are put in front
of a new page, and the new block identifiers. -/
structure Graph where
  tables : CaseTables
  safePagePath : Str → Option Str
  stampProperties : Str → Str
  freshUuid : Nat → Uuid

/-- A block that has been cut out. -/
structure Extraction where
  block : Candidate
  childTitle : Str
  childPath : Str
  subtree : Str
  deriving DecidableEq

section Extract

variable (g : Graph) (pageTitle : Str)

def childTitle (c : Candidate) : Str := sanitizePageTitle (pageTitle ++ " — ".toList ++ c.snippet)

def childText (blockCount : Nat) (subtree : Str) : Str :=
  g.stampProperties ("- Extracted from [[".toList ++ pageTitle ++ "]] (".toList ++
    (toString blockCount).toList ++ " blocks)\n".toList) ++ ['\n'] ++ subtree

/-- The three lines of a stub, which are one element of the list of lines. -/
def stub (indent childTitle : Str) (blockUuid : Uuid) : Str :=
  indent ++ "- \x7b\x7bembed [[".toList ++ childTitle ++ "]]\x7d\x7d\n".toList ++
    indent ++ "  id:: ".toList ++ blockUuid.text ++ ['\n'] ++
    indent ++ "  matryca-split-from:: [[".toList ++ pageTitle ++ "]]\n".toList

structure SplitState where
  lines : List Str
  pages : Str → Option Str
  extracted : List Extraction

/-- `atomic_write_bytes` of a page, which raises on malformed block references. -/
def writePage (pages : Str → Option Str) (path text : Str) : Option (Str → Option Str) :=
  if findMalformedBlockRefs text ≠ [] then none else some (setAt pages path (some text))

/-- One turn of the loop over the candidates. The indices are those of the page
as it was read; a page that is there already is not written. -/
def extractCandidate (s : SplitState) (c : Candidate) : Option SplitState :=
  let subtree := subtreeText s.lines c.bulletIdx c.stop
  if isBlank subtree then some s
  else
    match g.safePagePath (childTitle pageTitle c) with
    | none => some s
    | some childPath =>
        let written := match s.pages childPath with
          | some _ => some s.pages
          | none => writePage s.pages childPath (childText g pageTitle c.blockCount subtree)
        written.map fun pages =>
          let indent := match bulletMatch? (stripNewlines (s.lines.getD c.bulletIdx [])) with
            | some (indent, _) => indent
            | none => []
          { lines := s.lines.take c.bulletIdx ++
              stub pageTitle indent (childTitle pageTitle c) (g.freshUuid s.extracted.length) ::
                s.lines.drop c.stop
            pages := pages
            extracted := s.extracted ++ [⟨c, childTitle pageTitle c, childPath, subtree⟩] }

/-- What a committed split leaves behind. -/
structure Commit where
  pages : Str → Option Str
  extracted : List Extraction

/-- A split whose comparisons with the baseline all succeed. There is no commit for
a missing or blank page, without candidates, and when a write raises. -/
def runAutoSplit (pagePath : Str) (threshold : Int) (pages : Str → Option Str) : Option Commit :=
  match pages pagePath with
  | none => none
  | some raw =>
      let text := universalNewlines raw
      let lines := splitlinesKeep text
      let candidates := orderedCandidates g.tables threshold lines
      if isBlank text || candidates.isEmpty then none
      else
        match candidates.foldlM (extractCandidate g pageTitle) ⟨lines, pages, []⟩ with
        | none => none
        | some s =>
            (writePage s.pages pagePath s.lines.flatten).map fun pages => ⟨pages, s.extracted⟩

end Extract

end Plumber.AutoSplit
