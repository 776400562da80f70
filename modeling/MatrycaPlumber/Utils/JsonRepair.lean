import MatrycaPlumber.Text.Substitution

/-! The repair of JSON texts that a local model wrote: a chain of textual passes in front of
`json.loads`. -/
namespace Plumber.JsonRepair

open PyText PyJson

section Patterns

/-- `_CODE_FENCE_RE`, which ignores case: `ſ` is an `s` there. -/
def codeFence : Matcher := fun before s =>
  if (before = [] ∨ before.head? = some '\n') ∧ "```".toList <+: s then
    let rest := s.drop 3
    let named : Bool := match rest with
      | j :: x :: o :: n :: _ =>
          j ∈ ['j', 'J'] && x ∈ ['s', 'S', 'ſ'] && o ∈ ['o', 'O'] && n ∈ ['n', 'N']
      | _ => false
    let rest := if named then rest.drop 4 else rest
    some (s.length - (lstrip rest).length, [])
  else
    let rest := lstrip s
    if "```".toList <+: rest ∧ (rest.drop 3 = [] ∨ (rest.drop 3).head? = some '\n') then
      some (s.length - rest.length + 3, [])
    else none

/-- How often two characters are repeated at the front. -/
def pairRun (a b : Char) : Str → ℕ
  | x :: y :: s => if x = a ∧ y = b then pairRun a b s + 1 else 0
  | _ => 0

/-- The literal `\n` at the front and the whitespace behind each: how many, and how long. -/
def literalNewlines : Bool → Str → ℕ × ℕ
  | _, '\\' :: 'n' :: s => ((literalNewlines true s).1 + 1, (literalNewlines true s).2 + 2)
  | behind, c :: s =>
      if behind ∧ isSpace c then ((literalNewlines true s).1, (literalNewlines true s).2 + 1)
      else (0, 0)
  | _, [] => (0, 0)

/-- `_DEGENERATE_LITERAL_BACKSLASH_N_RUN_RE`. -/
def literalNewlineRun : Matcher := fun _ s =>
  if 12 ≤ (literalNewlines false s).1 then some ((literalNewlines false s).2, []) else none

def pairRunMatcher (a b : Char) (least : ℕ) : Matcher := fun _ s =>
  if least ≤ pairRun a b s then some (2 * pairRun a b s, []) else none

/-- `_DEGENERATE_LITERAL_BACKSLASH_T_RUN_RE`. -/
def literalTabRun : Matcher := pairRunMatcher '\\' 't' 16

/-- `_DEGENERATE_LITERAL_BACKSLASH_QUOTE_RUN_RE`. -/
def literalQuoteRun : Matcher := pairRunMatcher '\\' '"' 32

def charRun (c : Char) (s : Str) : ℕ := (s.takeWhile (· = c)).length

def charRunMatcher (c : Char) (least : ℕ) (repl : Str) : Matcher := fun _ s =>
  if least ≤ charRun c s then some (charRun c s, repl) else none

/-- `_DEGENERATE_REAL_NEWLINE_RUN_RE`. -/
def realNewlineRun : Matcher := charRunMatcher '\n' 24 ['\n', '\n']

/-- `_DEGENERATE_REAL_SPACE_RUN_RE`. -/
def realSpaceRun : Matcher := charRunMatcher ' ' 48 [' ']

/-- `_DEGENERATE_REAL_TAB_RUN_RE`. -/
def realTabRun : Matcher := charRunMatcher '\t' 16 ['\t']

/-- The length of `\s*\"` at the front. -/
def escapedQuote? (s : Str) : Option ℕ :=
  match lstrip s with
  | '\\' :: '"' :: rest => some (s.length - rest.length)
  | _ => none

/-- `_GEMMA_LEAKED_LITERAL_NL_BEFORE_KEY_RE`, replaced by its first group and a quote. -/
def leakedNewline : Matcher := fun _ s =>
  match s with
  | [] => none
  | c :: rest =>
      if c = '{' ∨ c = ',' then
        match lstrip rest with
        | '\\' :: 'n' :: behind =>
            let group := c :: rest.takeWhile isSpace
            (escapedQuote? behind).map fun len => (group.length + 2 + len, group ++ ['"'])
        | _ => none
      else none

/-- `_DOUBLE_ESCAPED_QUOTE_RUN_RE`. -/
def doubleEscapedQuote : Matcher := fun _ s =>
  match s with
  | '\\' :: '"' :: '"' :: rest =>
      match lstrip rest with
      | ',' :: behind =>
          (escapedQuote? behind).map fun len =>
            (s.length - behind.length + len, "\\\", \\\"".toList)
      | _ => none
  | _ => none

def isKeyStart (c : Char) : Bool := ('a' ≤ c && c ≤ 'z') || ('A' ≤ c && c ≤ 'Z') || c = '_'

def isKeyChar (c : Char) : Bool := isKeyStart c || ('0' ≤ c && c ≤ '9')

/-- The key, the escaped quote and the colon that must follow a leaked key. -/
def leakedKeyAhead (s : Str) : Bool :=
  match s with
  | [] => false
  | c :: rest =>
      isKeyStart c &&
        match rest.dropWhile isKeyChar with
        | '\\' :: '"' :: behind => (lstrip behind).head? = some ':'
        | _ => false

/-- `_LEAKED_JSON_KEY_IN_STRING_RE`. -/
def leakedKey : Matcher := fun before s =>
  match before, s with
  | '"' :: '\\' :: _, ',' :: rest =>
      match escapedQuote? rest with
      | some len => if leakedKeyAhead (rest.drop len) then some (len + 1, ", \\\"".toList) else none
      | none => none
  | _, _ => none

end Patterns

section Passes

/-- The prefix loops of a model before the first delimiter. The blanks behind a literal `\n`
are those that the loop drops anyway. -/
def stripLeadingDegenerateLlmRuns : Str → Str
  | '\\' :: 'n' :: s => stripLeadingDegenerateLlmRuns s
  | c :: s =>
      if c = ' ' ∨ c = '\t' ∨ c = '\r' ∨ c = '\n' then stripLeadingDegenerateLlmRuns s else c :: s
  | [] => []

def stripCodeFence (raw : Str) : Str :=
  let text := strip raw
  if "```".toList <+: text then strip (sub codeFence text) else text

def collapseLiteralRuns (text : Str) : Str :=
  sub literalQuoteRun (sub literalTabRun (sub literalNewlineRun text))

def collapseWhitespaceRuns (text : Str) : Str :=
  sub realTabRun (sub realSpaceRun (sub realNewlineRun text))

def collapseAllDegenerateLlmRuns (text : Str) : Str :=
  collapseWhitespaceRuns (collapseLiteralRuns text)

def fixLeakedLiteralNewlineBeforeKeys (text : Str) : Str := sub leakedNewline text

def fixDoubleEscapedQuoteRuns (text : Str) : Str := sub leakedKey (sub doubleEscapedQuote text)

end Passes

section Scans

/-- `_scan_balanced_end`, from the index of the first character. -/
def scanBalancedEnd (openChar closeChar : Char) : ℕ → ℤ → Mode → Str → Option ℕ
  | _, _, _, [] => none
  | index, depth, .inside true, _ :: s =>
      scanBalancedEnd openChar closeChar (index + 1) depth (.inside false) s
  | index, depth, .inside false, c :: s =>
      scanBalancedEnd openChar closeChar (index + 1) depth
        (if c = '"' then .out else .inside (c = '\\')) s
  | index, depth, .out, c :: s =>
      if c = '"' then scanBalancedEnd openChar closeChar (index + 1) depth (.inside false) s
      else if c = openChar then scanBalancedEnd openChar closeChar (index + 1) (depth + 1) .out s
      else if c = closeChar then
        if depth - 1 = 0 then some index
        else scanBalancedEnd openChar closeChar (index + 1) (depth - 1) .out s
      else scanBalancedEnd openChar closeChar (index + 1) depth .out s

/-- `_last_structural_close`, from the last index so far. -/
def lastStructuralClose (closeChar : Char) : ℕ → Option ℕ → Mode → Str → Option ℕ
  | _, last, _, [] => last
  | index, last, .inside true, _ :: s =>
      lastStructuralClose closeChar (index + 1) last (.inside false) s
  | index, last, .inside false, c :: s =>
      lastStructuralClose closeChar (index + 1) last
        (if c = '"' then .out else .inside (c = '\\')) s
  | index, last, .out, c :: s =>
      if c = '"' then lastStructuralClose closeChar (index + 1) last (.inside false) s
      else
        lastStructuralClose closeChar (index + 1) (if c = closeChar then some index else last)
          .out s

def fallbackUnbalancedJsonChars : ℕ := 8192

/-- `text.find(c)`. -/
def find? (c : Char) (text : Str) : Option ℕ := text.findIdx? (· = c)

def recoverUnbalancedJsonSlice (openChar closeChar : Char) (text : Str) : Str :=
  let collapsed := collapseAllDegenerateLlmRuns text
  match find? openChar collapsed with
  | none => collapsed
  | some start =>
      match lastStructuralClose closeChar start none .out (collapsed.drop start) with
      | some close =>
          if start < close then (collapsed.drop start).take (close + 1 - start)
          else (collapsed.drop start).take fallbackUnbalancedJsonChars
      | none => (collapsed.drop start).take fallbackUnbalancedJsonChars

def extractJsonSlice (openChar closeChar : Char) (raw : Str) : Str :=
  let text := stripCodeFence raw
  match find? openChar text with
  | none => text
  | some start =>
      match scanBalancedEnd openChar closeChar start 0 .out (text.drop start) with
      | some stop => (text.drop start).take (stop + 1 - start)
      | none => recoverUnbalancedJsonSlice openChar closeChar (text.drop start)

def extractJsonObject : Str → Str := extractJsonSlice '{' '}'

def extractJsonArray : Str → Str := extractJsonSlice '[' ']'

/-- The first extractor whose delimiter is there and which returns a text that begins with it. -/
def firstPayload (text : Str) : List ((Str → Str) × Char × Option ℕ) → Str
  | [] => text
  | (extractor, opener, pos) :: attempts =>
      if pos = none then firstPayload text attempts
      else
        let balanced := extractor text
        if balanced.head? = some opener then balanced else firstPayload text attempts

def extractJsonPayloadRegex (raw : Str) : Str :=
  let text := stripCodeFence raw
  let brace := find? '{' text
  let bracket := find? '[' text
  let preferArray : Bool := match bracket, brace with
    | none, _ => false
    | some _, none => true
    | some bracket, some brace => bracket < brace
  let array := (extractJsonArray, '[', bracket)
  let object := (extractJsonObject, '{', brace)
  firstPayload text (if preferArray then [array, object] else [object, array])

def stripTrailingJsonGarbage (text : Str) : Str :=
  let stripped := strip text
  let stop := match stripped with
    | '{' :: _ => scanBalancedEnd '{' '}' 0 0 .out stripped
    | '[' :: _ => scanBalancedEnd '[' ']' 0 0 .out stripped
    | _ => none
  match stop with
  | none => stripped
  | some stop => stripped.take (stop + 1)

def stackStep (stack : List Char) (c : Char) : List Char :=
  if c = '{' ∨ c = '[' then c :: stack
  else if c = '}' ∧ stack.head? = some '{' ∨ c = ']' ∧ stack.head? = some '[' then stack.tail
  else stack

/-- The brackets that stay open at the end, the innermost first. -/
def openStack : List Char → Mode → Str → List Char
  | stack, _, [] => stack
  | stack, .inside true, _ :: s => openStack stack (.inside false) s
  | stack, .inside false, c :: s => openStack stack (if c = '"' then .out else .inside (c = '\\')) s
  | stack, .out, c :: s =>
      if c = '"' then openStack stack (.inside false) s else openStack (stackStep stack c) .out s

def balanceJsonBrackets (text : Str) : Str :=
  text ++ (openStack [] .out text).map fun opener => if opener = '{' then '}' else ']'

end Scans

def repairLlmJson (raw : Str) : Str :=
  let text := stripLeadingDegenerateLlmRuns (stripCodeFence (strip raw))
  let text := collapseAllDegenerateLlmRuns text
  let text := extractJsonPayloadRegex text
  let text := collapseLiteralRuns text
  let text := fixLeakedLiteralNewlineBeforeKeys text
  let text := fixDoubleEscapedQuoteRuns text
  let text := stripTrailingJsonGarbage text
  balanceJsonBrackets text

/-- The value of a repaired text, with `none` for a `JSONDecodeError`. -/
def loadsRepairedJson (raw : Str) : Option Json :=
  let repaired := repairLlmJson raw
  match loads repaired with
  | some v => some v
  | none => loads (balanceJsonBrackets (stripTrailingJsonGarbage repaired))

end Plumber.JsonRepair
