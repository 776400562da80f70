import MatrycaPlumber.Text.Basic

/-! `json.loads` on a text: the text is cut at its string literals, what stands between them
is cut into words and punctuation, and the tokens are read as one value. -/
namespace PyJson

open PyText

/-- A value. Numbers are kept as they are written, texts as their code points, which may be
unpaired surrogates, and an object as the list of its members. -/
inductive Json where
  | null
  | bool (b : Bool)
  | number (literal : Str)
  | str (codes : List ℕ)
  | arr (items : List Json)
  | obj (members : List (List ℕ × Json))

inductive Token where
  | lbrace
  | rbrace
  | lbracket
  | rbracket
  | comma
  | colon
  | str (raw : Str)
  | word (w : Str)
  deriving DecidableEq

def isJsonSpace (c : Char) : Bool := c = ' ' || c = '\t' || c = '\n' || c = '\r'

def punctuation? : Char → Option Token
  | '{' => some .lbrace
  | '}' => some .rbrace
  | '[' => some .lbracket
  | ']' => some .rbracket
  | ',' => some .comma
  | ':' => some .colon
  | _ => none

section Cutting

/-- Outside the string literals, or inside one, where the last character may be an escape. -/
inductive Mode where
  | out
  | inside (escape : Bool)
  deriving DecidableEq

def consHead (c : Char) : List Str → List Str
  | [] => [[c]]
  | piece :: pieces => (c :: piece) :: pieces

/-- The text cut at the quotes of its literals: every second piece is a literal. -/
def pieces : Mode → Str → Option (List Str)
  | .out, [] => some [[]]
  | .inside _, [] => none
  | .out, c :: s =>
      if c = '"' then (pieces (.inside false) s).map ([] :: ·)
      else (pieces .out s).map (consHead c)
  | .inside true, c :: s => (pieces (.inside false) s).map (consHead c)
  | .inside false, c :: s =>
      if c = '"' then (pieces .out s).map ([] :: ·)
      else (pieces (.inside (c = '\\')) s).map (consHead c)

/-- The word that ends here, from its letters in reverse. -/
def closeWord (word : Str) : List Token := if word = [] then [] else [.word word.reverse]

/-- The words and the punctuation of a piece, behind the letters of an open word. -/
def lexGap : Str → Str → List Token
  | word, [] => closeWord word
  | word, c :: s =>
      if isJsonSpace c then closeWord word ++ lexGap [] s
      else
        match punctuation? c with
        | some token => closeWord word ++ token :: lexGap [] s
        | none => lexGap (c :: word) s

def lexPieces : List Str → List Token
  | [] => []
  | [gap] => lexGap [] gap
  | gap :: raw :: rest => lexGap [] gap ++ .str raw :: lexPieces rest

def lex (s : Str) : Option (List Token) := (pieces .out s).map lexPieces

end Cutting

section Strings

def hexValue? (c : Char) : Option ℕ :=
  if '0' ≤ c ∧ c ≤ '9' then some (c.toNat - '0'.toNat)
  else if 'a' ≤ c ∧ c ≤ 'f' then some (c.toNat - 'a'.toNat + 10)
  else if 'A' ≤ c ∧ c ≤ 'F' then some (c.toNat - 'A'.toNat + 10)
  else none

/-- The four digits behind `\u`. -/
def codeUnit? : Str → Option (ℕ × Str)
  | a :: b :: c :: d :: rest =>
      match hexValue? a, hexValue? b, hexValue? c, hexValue? d with
      | some a, some b, some c, some d => some (((a * 16 + b) * 16 + c) * 16 + d, rest)
      | _, _, _, _ => none
  | _ => none

def simpleEscape? : Char → Option ℕ
  | '"' => some 0x22
  | '\\' => some 0x5C
  | '/' => some 0x2F
  | 'b' => some 8
  | 'f' => some 12
  | 'n' => some 10
  | 'r' => some 13
  | 't' => some 9
  | _ => none

/-- The code unit of a low surrogate that is escaped next. -/
def lowSurrogate? : Str → Option (ℕ × Str)
  | '\\' :: 'u' :: rest => (codeUnit? rest).filter fun unit => 0xDC00 ≤ unit.1 ∧ unit.1 ≤ 0xDFFF
  | _ => none

/-- The code points of a raw literal, for texts up to a length. -/
def decodeString : ℕ → Str → Option (List ℕ)
  | _, [] => some []
  | 0, _ :: _ => none
  | n + 1, '\\' :: 'u' :: rest =>
      match codeUnit? rest with
      | none => none
      | some (unit, rest) =>
          if 0xD800 ≤ unit ∧ unit ≤ 0xDBFF then
            match lowSurrogate? rest with
            | some (low, behind) =>
                (decodeString n behind).map
                  ((0x10000 + (unit - 0xD800) * 0x400 + (low - 0xDC00)) :: ·)
            | none => (decodeString n rest).map (unit :: ·)
          else (decodeString n rest).map (unit :: ·)
  | n + 1, '\\' :: c :: rest =>
      match simpleEscape? c with
      | none => none
      | some code => (decodeString n rest).map (code :: ·)
  | _ + 1, ['\\'] => none
  | n + 1, c :: rest =>
      if c.toNat < 32 then none else (decodeString n rest).map (c.toNat :: ·)

end Strings

section Values

def digits (s : Str) : Bool := s ≠ [] && s.all fun c => '0' ≤ c && c ≤ '9'

/-- The integer part of a number: no zero in front of other digits. -/
def isInteger (s : Str) : Bool := digits s && (s.head? != some '0' || s.length = 1)

def isExponent : Str → Bool
  | e :: '+' :: s => (e = 'e' || e = 'E') && digits s
  | e :: '-' :: s => (e = 'e' || e = 'E') && digits s
  | e :: s => (e = 'e' || e = 'E') && digits s
  | [] => false

/-- The parts of a number behind its integer part. -/
def isNumberTail (s : Str) : Bool :=
  s = [] || isExponent s ||
    match s with
    | '.' :: s =>
        let fraction := s.takeWhile fun c => '0' ≤ c && c ≤ '9'
        let rest := s.dropWhile fun c => '0' ≤ c && c ≤ '9'
        fraction ≠ [] && (rest = [] || isExponent rest)
    | _ => false

def isUnsignedNumber (s : Str) : Bool :=
  isInteger (s.takeWhile fun c => '0' ≤ c && c ≤ '9') &&
    isNumberTail (s.dropWhile fun c => '0' ≤ c && c ≤ '9')

def isNumber : Str → Bool
  | '-' :: s => isUnsignedNumber s
  | s => isUnsignedNumber s

/-- The words of the language, with the three numbers that `json` reads beside its grammar. -/
def wordValue (w : Str) : Option Json :=
  if w = "true".toList then some (.bool true)
  else if w = "false".toList then some (.bool false)
  else if w = "null".toList then some .null
  else if w ∈ ["NaN".toList, "Infinity".toList, "-Infinity".toList] ∨ isNumber w = true then
    some (.number w)
  else none

def decodeLiteral (raw : Str) : Option (List ℕ) := decodeString raw.length raw

mutual

/-- One value from the front of the tokens, for values that are nested less deep. -/
def value : ℕ → List Token → Option (Json × List Token)
  | 0, _ => none
  | _ + 1, .str raw :: ts => (decodeLiteral raw).map fun codes => (.str codes, ts)
  | _ + 1, .word w :: ts => (wordValue w).map fun v => (v, ts)
  | _ + 1, .lbracket :: .rbracket :: ts => some (.arr [], ts)
  | n + 1, .lbracket :: ts => (items n ts).map fun result => (.arr result.1, result.2)
  | _ + 1, .lbrace :: .rbrace :: ts => some (.obj [], ts)
  | n + 1, .lbrace :: ts => (members n ts).map fun result => (.obj result.1, result.2)
  | _ + 1, _ => none

def items : ℕ → List Token → Option (List Json × List Token)
  | 0, _ => none
  | n + 1, ts =>
      match value n ts with
      | some (v, .comma :: ts) => (items n ts).map fun result => (v :: result.1, result.2)
      | some (v, .rbracket :: ts) => some ([v], ts)
      | _ => none

def members : ℕ → List Token → Option (List (List ℕ × Json) × List Token)
  | 0, _ => none
  | n + 1, .str raw :: .colon :: ts =>
      match decodeLiteral raw, value n ts with
      | some key, some (v, .comma :: ts) =>
          (members n ts).map fun result => ((key, v) :: result.1, result.2)
      | some key, some (v, .rbrace :: ts) => some ([(key, v)], ts)
      | _, _ => none
  | _ + 1, _ => none

end

/-- `json.loads`, with `none` for a `JSONDecodeError`. -/
def loads (s : Str) : Option Json :=
  match lex s with
  | none => none
  | some tokens =>
      match value (tokens.length + 1) tokens with
      | some (v, []) => some v
      | _ => none

end Values

end PyJson
