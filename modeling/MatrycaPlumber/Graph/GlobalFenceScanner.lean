import MatrycaPlumber.Text.Lines

/-! The whole-page dead-zone scan: fenced code, HTML comments and advanced
query blocks. The two latter scans are masked while the fence state is on.
A set of line indices is kept as its membership test; the loops produce one
flag per line. -/
namespace Plumber.GlobalFenceScanner

open PyText

def beginQuery : Str := "#+BEGIN_QUERY".toList

def endQuery : Str := "#+END_QUERY".toList

/-- `_MD_FENCE_OPEN`: at most three blanks, at least three backticks and no
backtick after them. The result is the number of backticks. -/
def mdFenceOpen (line : Str) : Option Nat :=
  let rest := line.dropWhile (· = ' ')
  let ticks := (rest.takeWhile (· = '`')).length
  if (line.takeWhile (· = ' ')).length ≤ 3 ∧ 3 ≤ ticks ∧ '`' ∉ rest.dropWhile (· = '`') then
    some ticks
  else none

/-- `_MD_FENCE_CLOSE`: at most three blanks, at least three backticks, then
whitespace only. -/
def mdFenceClose (line : Str) : Option Nat :=
  let rest := line.dropWhile (· = ' ')
  let ticks := (rest.takeWhile (· = '`')).length
  if (line.takeWhile (· = ' ')).length ≤ 3 ∧ 3 ≤ ticks ∧ isBlank (rest.dropWhile (· = '`')) then
    some ticks
  else none

def stripEol (s : Str) : Str := rstripChars ['\r', '\n'] s

/-- The test both query markers share: the marker, then the end of the line or
a blank. -/
def isMarkerLine (marker line : Str) : Bool :=
  match dropPrefix? marker (lstrip line) with
  | none => false
  | some [] => true
  | some (c :: _) => c = ' ' || c = '\t'

def isBeginQuery (line : Str) : Bool := isMarkerLine beginQuery line

def isEndQuery (line : Str) : Bool := isMarkerLine endQuery line

/-- The scanning loop of `_scan_html_line`, from the current position on. -/
def scanHtmlFrom : Bool → Bool → Str → Bool × Bool
  | _, false, '<' :: '!' :: '-' :: '-' :: rest => scanHtmlFrom true true rest
  | _, true, '-' :: '-' :: '>' :: rest => scanHtmlFrom true false rest
  | overlaps, inComment, _ :: rest => scanHtmlFrom overlaps inComment rest
  | overlaps, inComment, [] => (overlaps || inComment, inComment)

/-- `(line_overlaps_comment, in_comment_after_line)`. -/
def scanHtmlLine (line : Str) (inComment : Bool) : Bool × Bool :=
  scanHtmlFrom inComment inComment line

/-- The new fence tick count; zero means outside every fence. -/
def updateMdFence (line : Str) (inTicks : Nat) : Nat :=
  if inTicks ≠ 0 then
    match mdFenceClose line with
    | some n => if inTicks ≤ n then 0 else inTicks
    | none => inTicks
  else
    match mdFenceOpen line with
    | some n => n
    | none => 0

def protectedMdLines : Nat → List Str → List Bool
  | _, [] => []
  | ticks, raw :: rest =>
      let newTicks := updateMdFence (stripEol raw) ticks
      (ticks ≠ 0 || newTicks ≠ 0) :: protectedMdLines newTicks rest

def protectedQueryLines : Nat → Bool → List Str → List Bool
  | _, _, [] => []
  | ticks, inQuery, raw :: rest =>
      let line := stripEol raw
      let newTicks := updateMdFence line ticks
      if newTicks ≠ 0 then false :: protectedQueryLines newTicks inQuery rest
      else if inQuery then true :: protectedQueryLines newTicks (!isEndQuery line) rest
      else isBeginQuery line :: protectedQueryLines newTicks (isBeginQuery line) rest

def protectedHtmlLines : Nat → Bool → List Str → List Bool
  | _, _, [] => []
  | ticks, inHtml, raw :: rest =>
      let line := stripEol raw
      let newTicks := updateMdFence line ticks
      if newTicks ≠ 0 then false :: protectedHtmlLines newTicks inHtml rest
      else
        let (overlap, inComment) := scanHtmlLine line inHtml
        overlap :: protectedHtmlLines newTicks inComment rest

/-- The set of protected line indices of a page. -/
def computePageProtectedLineIndices (fileContent : Str) (i : Nat) : Bool :=
  let lines := splitlines fileContent
  (protectedMdLines 0 lines).getD i false || (protectedQueryLines 0 false lines).getD i false ||
    (protectedHtmlLines 0 false lines).getD i false

theorem length_protectedMdLines (ticks : Nat) (lines : List Str) :
    (protectedMdLines ticks lines).length = lines.length := by
  induction lines generalizing ticks with
  | nil => rfl
  | cons raw rest ih => simp [protectedMdLines, ih]

end Plumber.GlobalFenceScanner
