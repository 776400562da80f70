import Mathlib.Data.List.Infix
import MatrycaPlumber.Text.Lines
import MatrycaPlumber.Text.Sections

/-! The sections that record on a page from which blocks it was linked, as the backlink
backpropagator finds, refreshes and adds them. -/
namespace Plumber.Backlink

open PyText Sections

def backlinkHeading : Str := "### Matryca Backlink Context".toList

def backlinkHeader : Str := "- ### Matryca Backlink Context".toList

/-- A block's identifier is the value of an `id::` line, so it is on one line. -/
structure BlockUuid where
  text : Str
  oneLine : ∀ c ∈ text, isLineBreak c = false

/-- What is recorded on the page `targetTitle` of one block that links to it. -/
structure Record where
  sourceTitle : Str
  targetTitle : Str
  summary : Str
  blockUuid : BlockUuid

/-- The line for a summary, in new and in refreshed sections. -/
def summaryLine (summary : Str) : Str :=
  "- context-summary:: ".toList ++ strip summary ++ ['\n']

def Record.refFrom (r : Record) : Str :=
  "referenced-from:: [[".toList ++ r.sourceTitle ++ "]]".toList

def Record.refUuid (r : Record) : Str := "source-block-uuid:: ".toList ++ r.blockUuid.text

def Record.formatBacklinkSection (r : Record) : Str :=
  '\n' :: (backlinkHeader ++ '\n' ::
    (("- ".toList ++ r.refFrom ++ ['\n']) ++
      ("- referenced-to:: [[".toList ++ r.targetTitle ++ "]]\n".toList) ++
      ("- ".toList ++ r.refUuid ++ ['\n']) ++
      summaryLine r.summary ++ "- matryca-backprop:: true\n".toList))

def lineBody (line : Str) : Str := rstripChars ['\n'] line

def normalizeSectionHeading (line : Str) : Str :=
  match dropPrefix? "- ".toList (strip (lineBody line)) with
  | some body => strip body
  | none => strip (lineBody line)

def isBacklinkHeading (line : Str) : Bool := normalizeSectionHeading line == backlinkHeading

def isHeading (line : Str) : Bool := startsWith "### ".toList (normalizeSectionHeading line)

/-- The headings at which the scan of a section stops. -/
def isOtherHeading (line : Str) : Bool := isHeading line && !isBacklinkHeading line

/-- A dash and the whitespace after it, `(?:-\s+)?`. -/
def skipBullet : Str → Str
  | '-' :: c :: rest => if isSpace c then lstrip rest else '-' :: c :: rest
  | body => body

/-- What follows `^\s*(?:-\s+)?key::\s*` in a line. -/
def fieldText? (key line : Str) : Option Str :=
  (dropPrefix? key (skipBullet (lstrip (lineBody line)))).map lstrip

/-- The stripped group of `_REF_FROM`. -/
def refFrom? (line : Str) : Option Str :=
  match (fieldText? "referenced-from::".toList line).bind (dropPrefix? "[[".toList) with
  | none => none
  | some inner =>
      match dropPrefix? "]]".toList (inner.dropWhile (· ≠ ']')) with
      | some after =>
          if inner.takeWhile (· ≠ ']') ≠ [] ∧ isBlank after then
            some (strip (inner.takeWhile (· ≠ ']')))
          else none
      | none => none

/-- The group of `_SOURCE_BLOCK`. -/
def sourceBlock? (line : Str) : Option Str :=
  match fieldText? "source-block-uuid::".toList line with
  | none => none
  | some text =>
      if text ≠ [] ∧ isBlank (text.dropWhile fun c => !isSpace c) then
        some (text.takeWhile fun c => !isSpace c)
      else none

/-- The stripped group of `_CONTEXT_SUMMARY`. -/
def contextSummary? (line : Str) : Option Str :=
  (fieldText? "context-summary::".toList line).map strip

def isSummaryLine (line : Str) : Bool := (contextSummary? line).isSome

def existingSummary (sectionLines : List Str) : Str :=
  (sectionLines.findSome? contextSummary?).getD []

def Record.sectionMatches (r : Record) (sectionLines : List Str) : Bool :=
  let sourceOk := sectionLines.any fun line => refFrom? line == some r.sourceTitle
  let uuidOk := sectionLines.any fun line => sourceBlock? line == some r.blockUuid.text
  sourceOk && uuidOk || sourceOk && !sectionLines.any fun line => (sourceBlock? line).isSome

def refreshLine (summary line : Str) : Str :=
  if isSummaryLine line then summaryLine summary
  else if endsWith ['\n'] line then line
  else line ++ ['\n']

def updateSectionSummary (sectionLines : List Str) (summary : Str) : List Str :=
  sectionLines.map (refreshLine summary) ++
    if sectionLines.any isSummaryLine then [] else [summaryLine summary]

/-- The lines of one section from its heading on, and the lines after them. -/
def scanBacklinkSection (lines : List Str) : List Str × List Str :=
  (lines.takeWhile fun line => !isOtherHeading line,
    lines.dropWhile fun line => !isOtherHeading line)

/-- Whether the lines of a scanned section are refreshed. -/
def Record.refreshes (r : Record) (sectionLines : List Str) : Bool :=
  r.sectionMatches sectionLines && existingSummary sectionLines != strip r.summary

/-- The loop over the lines, with the flag `modified`. -/
def Record.upsertLoop (r : Record) : List Str → List Str × Bool
  | [] => ([], false)
  | line :: lines =>
      if isBacklinkHeading line then
        let body := (scanBacklinkSection lines).1
        let rest := r.upsertLoop (scanBacklinkSection lines).2
        if r.refreshes body then (line :: updateSectionSummary body r.summary ++ rest.1, true)
        else (line :: body ++ rest.1, rest.2)
      else
        let rest := r.upsertLoop lines
        (line :: rest.1, rest.2)
  termination_by lines => lines.length
  decreasing_by
    · have := (List.dropWhile_suffix (p := fun line => !isOtherHeading line) (l := lines)).length_le
      simp only [scanBacklinkSection, List.length_cons]
      omega
    · simp

/-- Both texts are in a page, however it is cut into sections. -/
def Record.mentioned (r : Record) (content : Str) : Prop :=
  r.refFrom <:+: content ∧ r.refUuid <:+: content

instance (r : Record) (content : Str) : Decidable (r.mentioned content) :=
  inferInstanceAs (Decidable (_ ∧ _))

/-- The new text of the page, and whether it is to be written. -/
def Record.upsertBacklinkInContent (r : Record) (content : Str) : Str × Bool :=
  let result := r.upsertLoop (splitlinesKeep content)
  if result.2 then (result.1.flatten, true)
  else if r.mentioned content then (content, false)
  else (rstripChars ['\n'] content ++ r.formatBacklinkSection, true)

end Plumber.Backlink
