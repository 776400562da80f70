import MatrycaPlumber.Graph.GlobalFenceScanner
import MatrycaPlumber.Graph.MarkdownBlocks
import Mathlib.Data.List.Sort

/-! Splitting long bullets into sentences: the first sentence stays in the
bullet, the others become children behind its `id::` line. -/
namespace Plumber.SplitLargeBlocks

open PyText MarkdownBlocks GlobalFenceScanner

/-- `_BULLET = ^(\s*)([-*+])\s+(.*)$` on a line without its newline:
indentation, marker and body. -/
def bulletMatch? (line : Str) : Option (Str × Char × Str) :=
  match line.dropWhile isSpace with
  | m :: c :: rest =>
      if isListMarker m && isSpace c then
        some (line.takeWhile isSpace, m, (c :: rest).dropWhile isSpace)
      else none
  | _ => none

/-- The identifier on an `id::` line, ignoring the case of `id`. -/
def idLineUuid? (tables : CaseTables) (line : Str) : Option Str :=
  match dropPrefixIgnoreCase? tables "id::".toList (lstrip line) with
  | none => none
  | some rest =>
      let candidate := (lstrip rest).take 36
      if isUuidText candidate && isBlank ((lstrip rest).drop 36) then some candidate else none

def isStop (c : Char) : Bool := c = '.' || c = '!' || c = '?'

/-- Put a character in front of the first part. -/
def consHead (c : Char) : List Str → List Str
  | [] => [[c]]
  | p :: ps => (c :: p) :: ps

/-- `re.split(r"(?<=[.!?])\s+", s)`. The flags tell whether a separator is being
skipped and whether the previous character ends a sentence. -/
def splitAfterStop : Bool → Bool → Str → List Str
  | _, _, [] => [[]]
  | inGap, afterStop, c :: cs =>
      if isSpace c then
        if inGap then splitAfterStop true false cs
        else if afterStop then [] :: splitAfterStop true false cs
        else consHead c (splitAfterStop false false cs)
      else consHead c (splitAfterStop false (isStop c) cs)

def splitSentences (text : Str) : List Str :=
  ((splitAfterStop false false (strip text)).map strip).filter (· ≠ [])

def isNameChar (c : Char) : Bool :=
  let n := c.toNat
  (48 ≤ n && n ≤ 57) || (65 ≤ n && n ≤ 90) || (97 ≤ n && n ≤ 122) || c = '_' || c = '-'

/-- `_DRAWER` at the head of `s`. -/
def drawerHere : Str → Bool
  | ':' :: c :: rest =>
      let n := c.toNat
      ((65 ≤ n && n ≤ 90) || (97 ≤ n && n ≤ 122)) && startsWith [':'] (rest.dropWhile isNameChar)
  | _ => false

def hasDrawer (s : Str) : Bool := s.tails.any drawerHere

def hasMacro (s : Str) : Bool := "\x7b\x7b".toList <:+: s

def bulletFirstLineRefactorBlocked (body : Str) : Bool :=
  "```".toList <:+: body || hasMacro body || hasDrawer body

/-- Drawers, macros or fences between a bullet and its `id::` line. -/
def preIdBlockLinesProtected (lines : List Str) (bulletIdx idLineIdx : Nat) : Bool :=
  if idLineIdx ≤ bulletIdx + 1 then false
  else
    let mid := slice lines (bulletIdx + 1) idLineIdx
    "```".toList <:+: mid.flatten ||
      mid.any fun l => hasDrawer (rstripChars ['\n'] l) || hasMacro (rstripChars ['\n'] l)

structure SplitHit where
  pageRef : Str
  blockUuid : Str
  beforeLen : Nat
  sentences : Nat
  deriving DecidableEq

/-- `(bullet_idx, id_line_idx, uuid, sentences)`. -/
structure Candidate where
  bulletIdx : Nat
  idLineIdx : Nat
  uuid : Str
  sents : List Str

def strippedLines (lines : List Str) : List Str := lines.map (rstripChars ['\n'])

def findPrecedingBulletIdx (stripped : List Str) : Nat → Option Nat
  | 0 => none
  | j + 1 =>
      if (bulletMatch? (stripped.getD j [])).isSome then some j
      else findPrecedingBulletIdx stripped j

/-- The sentences of a bullet that may be split. -/
def eligibleSplitSentences (stripped : List Str) (bulletIdx idLineIdx : Nat) (minChars : Int)
    (isProtected : Nat → Bool) : Option (List Str) :=
  match bulletMatch? (stripped.getD bulletIdx []) with
  | none => none
  | some (_, _, rest) =>
      let body := strip rest
      if bulletFirstLineRefactorBlocked body then none
      else if preIdBlockLinesProtected stripped bulletIdx idLineIdx then none
      else if (slice (List.range (idLineIdx + 1)) bulletIdx (idLineIdx + 1)).any isProtected then none
      else if (body.length : Int) < minChars then none
      else
        let sents := splitSentences body
        if sents.length < 2 then none else some sents

def candidateAt (tables : CaseTables) (stripped : List Str) (minChars : Int)
    (isProtected : Nat → Bool) (i : Nat) : Option Candidate :=
  match idLineUuid? tables (stripped.getD i []) with
  | none => none
  | some blockUuid =>
      match findPrecedingBulletIdx stripped i with
      | none => none
      | some bulletIdx =>
          match eligibleSplitSentences stripped bulletIdx i minChars isProtected with
          | none => none
          | some sents => some ⟨bulletIdx, i, tables.lower blockUuid, sents⟩

/-- The candidates, the ones with the largest `bullet_idx` first. -/
def collectCandidates (tables : CaseTables) (stripped : List Str) (minChars : Int)
    (isProtected : Nat → Bool) : List Candidate :=
  ((List.range stripped.length).filterMap (candidateAt tables stripped minChars isProtected)
    ).insertionSort fun p q => q.bulletIdx ≤ p.bulletIdx

/-- The new children, with identifiers from the `k`-th on. -/
def childLines (childWs : Str) (freshUuid : Nat → Uuid) : Nat → List Str → List Str
  | _, [] => []
  | k, sent :: sents =>
      (childWs ++ "- ".toList ++ sent ++ ['\n']) ::
        (childWs ++ "  id:: ".toList ++ (freshUuid k).text ++ ['\n']) ::
          childLines childWs freshUuid (k + 1) sents

/-- The bullet line cut down to its first sentence, with its old newline. -/
def rewriteBullet (ws : Str) (mark : Char) (first oldBullet : Str) : Str :=
  ws ++ mark :: ' ' :: first ++ oldBullet.drop (rstripChars ['\n'] oldBullet).length

def applyOneSplit (freshUuid : Nat → Uuid) (k : Nat) (lines : List Str) (cand : Candidate) :
    List Str :=
  match bulletMatch? ((strippedLines lines).getD cand.bulletIdx []) with
  | none => lines
  | some (ws, mark, _) =>
      let childWs := ws ++ bulletIndentUnit lines cand.bulletIdx
      let newBullet := rewriteBullet ws mark (cand.sents.headD []) (lines.getD cand.bulletIdx [])
      lines.take cand.bulletIdx ++ [newBullet] ++
        slice lines (cand.bulletIdx + 1) (cand.idLineIdx + 1) ++
          childLines childWs freshUuid k cand.sents.tail ++ lines.drop (cand.idLineIdx + 1)

def hitOf (pageRef : Str) (lines : List Str) (cand : Candidate) : SplitHit where
  pageRef := pageRef
  blockUuid := cand.uuid
  beforeLen :=
    match bulletMatch? ((strippedLines lines).getD cand.bulletIdx []) with
    | some (_, _, rest) => (strip rest).length
    | none => 0
  sentences := cand.sents.length

/-- The loop of `_process_page`; the first argument is the number of splits
still allowed. The set of protected indices is the one of the page as read. -/
def splitLoop (tables : CaseTables) (freshUuid : Nat → Uuid) (pageRef : Str) (minChars : Int)
    (isProtected : Nat → Bool) : Nat → Nat → List Str → List SplitHit × List Str
  | 0, _, lines => ([], lines)
  | allowed + 1, k, lines =>
      match collectCandidates tables (strippedLines lines) minChars isProtected with
      | [] => ([], lines)
      | cand :: _ =>
          let (hits, out) := splitLoop tables freshUuid pageRef minChars isProtected allowed
            (k + cand.sents.tail.length) (applyOneSplit freshUuid k lines cand)
          (hitOf pageRef lines cand :: hits, out)

structure PageOutcome where
  hits : List SplitHit
  err : Option String
  files : List Str
  written : Option Str
  deriving DecidableEq

/-- `page` is the outcome of reading the page file and `commit` says whether the
writer takes the payload. -/
def processPage (tables : CaseTables) (freshUuid : Nat → Uuid) (commit : Str → Bool)
    (path pageRef : Str) (minChars maxBlocks : Int) (dryRun : Bool) (page : Except String Str) :
    Except PyError PageOutcome :=
  match page with
  | .error code => .ok ⟨[], some code, [], none⟩
  | .ok raw =>
      let text := universalNewlines raw
      let (hits, out) := splitLoop tables freshUuid pageRef minChars
        (computePageProtectedLineIndices text) maxBlocks.toNat 0 (splitlinesKeep text)
      if hits = [] then .ok ⟨[], none, [], none⟩
      else if dryRun then .ok ⟨hits, none, [path], none⟩
      else if commit out.flatten then .ok ⟨hits, none, [path], some out.flatten⟩
      else .error .writeRefused

end Plumber.SplitLargeBlocks
