import MatrycaPlumber.Text.NonblankLines
import MatrycaPlumber.Text.Stripping

/-! The validation report of the MARPA module: a section at the end of the page
that is looked up by its heading and replaced. -/
namespace Plumber.MarpaFramework

open PyText

inductive MarpaDomain where
  | mappa
  | area
  | risorsa
  | progetto
  | archivio
  deriving DecidableEq

def MarpaDomain.text : MarpaDomain → Str
  | .mappa => "mappa".toList
  | .area => "area".toList
  | .risorsa => "risorsa".toList
  | .progetto => "progetto".toList
  | .archivio => "archivio".toList

/-- The fields of the classification that the report shows. -/
structure MarpaClassificationResult where
  assignedDomain : MarpaDomain
  detectedTags : List Str := []
  violatesSsotDuplication : Bool := false

def marpaHeading : Str := "### Matryca MARPA Validation".toList

def marpaHeader : Str := "- ".toList ++ marpaHeading

def isMarpaHeading (line : Str) : Bool :=
  let body := strip line
  let body := match dropPrefix? "- ".toList body with
    | some rest => strip rest
    | none => body
  body == marpaHeading

/-- The largest index of a heading line. -/
def lastHeadingIdx? (lines : List Str) : Option Nat :=
  (List.range lines.length).reverse.find? fun i => isMarpaHeading (lines.getD i [])

def stripMarpaValidationSection (text : Str) : Str :=
  let lines := splitlinesKeep text
  match lastHeadingIdx? lines with
  | some i =>
      let kept := rstripChars ['\n'] (lines.take i).flatten
      if kept = [] then [] else kept ++ ['\n']
  | none => text

def domainLine (domain : MarpaDomain) : Str := "- assigned-domain:: ".toList ++ domain.text

def tagsLine (tags : List Str) : Str :=
  "- detected-tags:: ".toList ++ join [' '] (tags.map fun t => '#' :: lstripChars ['#'] t)

def warningsLine : Str := "- ssot-warnings::".toList

def warningLine (flag : Str) : Str :=
  "  - ".toList ++ flag ++ " (prefer ((block-uuid)) transclusion)".toList

def sectionLines (classification : MarpaClassificationResult) (ssotFlags : List Str) : List Str :=
  [[], marpaHeader, domainLine classification.assignedDomain] ++
    (if classification.detectedTags ≠ [] then [tagsLine classification.detectedTags] else []) ++
      (if ssotFlags ≠ [] ∨ classification.violatesSsotDuplication = true then
        warningsLine :: ssotFlags.map warningLine else []) ++ [[]]

/-- The text that the report is appended as. -/
def sectionText (classification : MarpaClassificationResult) (ssotFlags : List Str) : Str :=
  join ['\n'] (sectionLines classification ssotFlags)

/-- The lines of the page after the call. -/
def upsertValidationSection (lines : List Str) (classification : MarpaClassificationResult)
    (ssotFlags : List Str) : List Str :=
  splitlinesKeep (stripMarpaValidationSection lines.flatten) ++
    [sectionText classification ssotFlags]

/-- How much of an earlier section has been seen. -/
inductive SectionPart where
  | heading
  | domain
  | tags
  | warnings
  deriving DecidableEq

/-- Whether a line is the next one of an earlier section, and what has then been
seen of it. -/
def SectionPart.next? (seen : SectionPart) (line : Str) : Option SectionPart :=
  let isDomain := [MarpaDomain.mappa, .area, .risorsa, .progetto, .archivio].any fun domain =>
    line == domainLine domain
  let isTags := startsWith "- detected-tags:: #".toList line
  let isWarning := startsWith "  - ".toList line &&
    endsWith " (prefer ((block-uuid)) transclusion)".toList line
  match seen with
  | .heading => if isDomain then some .domain else none
  | .domain => if isTags then some .tags else if line == warningsLine then some .warnings else none
  | .tags => if line == warningsLine then some .warnings else none
  | .warnings => if isWarning then some .warnings else none

/-- The non-blank lines below an earlier heading that the section did not
generate. -/
def userLinesBelow : SectionPart → List Str → List Str
  | _, [] => []
  | seen, line :: lines =>
      match seen.next? line with
      | some part => userLinesBelow part lines
      | none => if isBlank line then userLinesBelow seen lines else line :: userLinesBelow seen lines

/-- The non-blank lines of the page that the last earlier section did not
generate. -/
def userLines (text : Str) : List Str :=
  let lines := splitlines text
  match lastHeadingIdx? lines with
  | some i => (lines.take i).filter (fun l => !isBlank l) ++
      userLinesBelow .heading (lines.drop (i + 1))
  | none => nonblankLines text

/-- The new text is what the user wrote, followed by the report. -/
def UserLinesKept (text new report : Str) : Prop :=
  ∃ kept, new = kept ++ report ∧ nonblankLines kept = userLines text ∧
    nonblankLines new = nonblankLines kept ++ nonblankLines report

theorem strip_dropLineBreak (l : Str) : strip (dropLineBreak l) = strip l := by
  rw [dropLineBreak]
  split_ifs with hCrlf
  · obtain ⟨x, rfl⟩ := endsWith_iff.mp hCrlf
    rw [show x ++ ['\r', '\n'] = (x ++ ['\r']) ++ ['\n'] by simp, List.dropLast_concat,
      List.dropLast_concat, strip_append_space _ (by decide), strip_append_space _ (by decide)]
  · cases List.eq_nil_or_concat' l with
    | inl hNil =>
        rw [hNil]
        rfl
    | inr hConcat =>
        obtain ⟨x, c, rfl⟩ := hConcat
        rw [List.getLast?_concat]
        simp only
        split_ifs with hc
        · rw [List.dropLast_concat, strip_append_space _ (isSpace_of_isLineBreak hc)]
        · rfl

/-- The boundaries do not matter for finding the heading. -/
theorem lastHeadingIdx?_splitlines (text : Str) :
    lastHeadingIdx? (splitlines text) = lastHeadingIdx? (splitlinesKeep text) := by
  have hLine (i : Nat) : isMarpaHeading ((splitlines text).getD i []) =
      isMarpaHeading ((splitlinesKeep text).getD i []) := by
    rw [splitlines, List.getD_eq_getElem?_getD, List.getD_eq_getElem?_getD, List.getElem?_map]
    cases (splitlinesKeep text)[i]? with
    | none => rfl
    | some l => simp only [Option.map_some, Option.getD_some, isMarpaHeading, strip_dropLineBreak]
  simp only [lastHeadingIdx?, hLine]
  rw [splitlines, List.length_map]

/-- What is left of the page is everything above the last heading. -/
theorem nonblankLines_stripMarpaValidationSection (text : Str) :
    nonblankLines (stripMarpaValidationSection text) =
      match lastHeadingIdx? (splitlines text) with
      | some i => ((splitlines text).take i).filter fun l => !isBlank l
      | none => nonblankLines text := by
  rw [lastHeadingIdx?_splitlines, stripMarpaValidationSection]
  cases lastHeadingIdx? (splitlinesKeep text) with
  | none => rfl
  | some i =>
      simp only
      rw [← nonblankLines_take]
      have hKept := nonblankLines_rstrip_newlines ((splitlinesKeep text).take i).flatten
      split_ifs with hNil
      · rw [← hKept, hNil]
      · rw [nonblankLines_append_newline, hKept]

/-- The report starts with a newline, so it cannot run into the line above it. -/
theorem sectionText_eq (classification : MarpaClassificationResult) (ssotFlags : List Str) :
    ∃ rest, sectionText classification ssotFlags = '\n' :: rest := by
  rw [sectionText, sectionLines]
  exact ⟨_, rfl⟩

/-- The report replaces nothing but an earlier report exactly when the last
earlier heading has only its own generated lines and blank ones below it. -/
theorem upsertValidationSection_userLinesKept_iff (text : Str)
    (classification : MarpaClassificationResult) (ssotFlags : List Str) :
    UserLinesKept text (upsertValidationSection (splitlinesKeep text) classification
        ssotFlags).flatten (sectionText classification ssotFlags) ↔
      ∀ i ∈ lastHeadingIdx? (splitlines text),
        userLinesBelow .heading ((splitlines text).drop (i + 1)) = [] := by
  have hNew : (upsertValidationSection (splitlinesKeep text) classification ssotFlags).flatten =
      stripMarpaValidationSection text ++ sectionText classification ssotFlags := by
    rw [upsertValidationSection, List.flatten_append, flatten_splitlinesKeep, List.flatten_singleton,
      flatten_splitlinesKeep]
  have hLines : nonblankLines (stripMarpaValidationSection text ++
      sectionText classification ssotFlags) = nonblankLines (stripMarpaValidationSection text) ++
        nonblankLines (sectionText classification ssotFlags) := by
    obtain ⟨rest, hRest⟩ := sectionText_eq classification ssotFlags
    have hReport : nonblankLines ('\n' :: rest) = nonblankLines rest :=
      nonblankLines_append_cons [] rest (by decide)
    rw [hRest, hReport, nonblankLines_append_cons _ _ (by decide)]
  have hKept : nonblankLines (stripMarpaValidationSection text) = userLines text ↔
      ∀ i ∈ lastHeadingIdx? (splitlines text),
        userLinesBelow .heading ((splitlines text).drop (i + 1)) = [] := by
    rw [nonblankLines_stripMarpaValidationSection, userLines]
    cases lastHeadingIdx? (splitlines text) with
    | none => simp
    | some i => simp only [Option.mem_def, Option.some.injEq, forall_eq', List.self_eq_append_right]
  rw [← hKept, hNew]
  constructor
  · rintro ⟨kept, hEq, hUser, _⟩
    rw [List.append_cancel_right hEq]
    exact hUser
  · intro hUser
    exact ⟨_, rfl, hUser, hLines⟩

/-- A note that the user wrote below the report of an earlier run is lost. -/
theorem note_below_report_lost :
    ¬∀ (text : Str) (classification : MarpaClassificationResult) (ssotFlags : List Str),
      UserLinesKept text (upsertValidationSection (splitlinesKeep text) classification
        ssotFlags).flatten (sectionText classification ssotFlags) := by
  intro h
  obtain ⟨kept, hNew, hUser, _⟩ := h
    "- ### Matryca MARPA Validation\n- assigned-domain:: area\n- my note\n".toList
    ⟨.area, [], false⟩ []
  have hEmpty : kept = [] := by
    refine List.append_cancel_right (hNew.symm.trans ?_)
    decide +kernel
  rw [hEmpty] at hUser
  revert hUser
  decide +kernel

end Plumber.MarpaFramework
