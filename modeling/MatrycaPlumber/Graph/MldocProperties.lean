import MatrycaPlumber.Graph.SemanticIndex

/-! Logseq property lines `key:: value`, and the comma-separated values they hold. -/
namespace Plumber.MldocProperties

open PyText MarkdownBlocks SemanticIndex

section Model

/-- One logical `key:: value` line, list bullets excluded. -/
structure ParsedPropertyLine where
  indent : Str
  keyRaw : Str
  keyNormalized : Str
  sepAfterColons : Str
  valueRaw : Str
  valueStart : ℕ
  deriving DecidableEq

variable (casefold : Str → Str)

def normalizeLogseqPropertyKey (key : Str) : Str := casefold (strip key)

/-- `_HASH_HEAD = ^\s*#(?:\s|$|#)`. -/
def isHashHead (line : Str) : Bool :=
  match lstrip line with
  | ['#'] => true
  | '#' :: c :: _ => isSpace c || c = '#'
  | _ => false

/-- The key left of the colons, with its indentation: `^(\s*)(\S.*)$`, the group without the
blanks at its end. -/
def propertyKey? (left : Str) : Option (Str × Str) :=
  let rest := lstrip left
  let keyRaw := rstrip (rest.takeWhile (· ≠ '\n'))
  if keyRaw = [] ∨ 1 < (rest.dropWhile (· ≠ '\n')).length then none
  else some (left.takeWhile isSpace, keyRaw)

def parseLogseqPropertyLine (line : Str) : Option ParsedPropertyLine :=
  let s := stripLineEndings line
  if (bulletIndent? s).isSome || isHashHead s then none
  else
    match partition "::".toList s with
    | none => none
    | some (left, right) =>
        match propertyKey? left with
        | none => none
        | some (indent, keyRaw) =>
            let sepAfter := right.takeWhile isSpace
            let normalized := normalizeLogseqPropertyKey casefold keyRaw
            if startsWith ['#'] keyRaw || ':' ∈ keyRaw || normalized = [] ||
                normalized = "id".toList then none
            else some
              { indent
                keyRaw
                keyNormalized := normalized
                sepAfterColons := sepAfter
                valueRaw := right.dropWhile isSpace
                valueStart := left.length + 2 + sepAfter.length }

def isLogseqBlockPropertyLine (strippedLine : Str) : Bool :=
  (parseLogseqPropertyLine casefold strippedLine).isSome

/-- `_append_property_list_piece`. -/
def listPiece (current : Str) : List Str :=
  if strip current = [] then [] else [strip current]

/-- The scanning loop of `split_logseq_property_list_values`: inside double quotes or not,
the number of open links, and the current piece. -/
def splitValues : Bool → ℕ → Str → Str → List Str
  | true, depth, cur, '\\' :: c :: s => splitValues true depth (cur ++ ['\\', c]) s
  | true, depth, cur, c :: s => splitValues (c ≠ '"') depth (cur ++ [c]) s
  | false, depth, cur, '"' :: s => splitValues true depth (cur ++ ['"']) s
  | false, depth, cur, '[' :: '[' :: s => splitValues false (depth + 1) (cur ++ "[[".toList) s
  | false, depth + 1, cur, ']' :: ']' :: s => splitValues false depth (cur ++ "]]".toList) s
  | false, 0, cur, ',' :: s => listPiece cur ++ splitValues false 0 [] s
  | false, depth, cur, c :: s => splitValues false depth (cur ++ [c]) s
  | _, _, cur, [] => listPiece cur

def splitLogseqPropertyListValues (rawValue : Str) : List Str :=
  splitValues false 0 [] (strip rawValue)

end Model

/-- A link with a comma and a quoted comma each stay in one value. -/
example : splitLogseqPropertyListValues "[[a, b]], \"c, d\" ,, e".toList =
    ["[[a, b]]".toList, "\"c, d\"".toList, "e".toList] := by decide

end Plumber.MldocProperties
