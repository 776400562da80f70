import MatrycaPlumber.Text.Lines

/-! Line-oriented helpers for outline blocks: bullets, `id::` lines and the
subtree a bullet spans. -/
namespace Plumber.MarkdownBlocks

open PyText

/-- The two Unicode tables that `str.lower` and `re.IGNORECASE` consult. They
belong to the interpreter; the results below use only that an ASCII character
that is no letter matches itself alone. -/
structure CaseTables where
  lower : Str → Str
  eqIgnoreCase : Char → Char → Bool
  eq_of_not_alpha : ∀ p c, c.toNat < 128 → c.isAlpha = false → eqIgnoreCase p c = true → p = c

/-- The tables restricted to ASCII letters. -/
def asciiCase : CaseTables where
  lower := List.map Char.toLower
  eqIgnoreCase p c := p = c || (c.isAlpha && p.toLower = c.toLower)
  eq_of_not_alpha p c _ hAlpha h := by simpa [hAlpha] using h

/-- What the caller of a tool may see instead of a result. -/
inductive PyError where
  | valueError
  | writeRefused
  deriving DecidableEq

def isHexDigit (c : Char) : Bool :=
  let n := c.toNat
  (48 ≤ n && n ≤ 57) || (65 ≤ n && n ≤ 70) || (97 ≤ n && n ≤ 102)

/-- `UUID_CANONICAL_RE`: hexadecimal digits in groups of 8-4-4-4-12. -/
def isUuidText (s : Str) : Bool :=
  let template := "xxxxxxxx-xxxx-xxxx-xxxx-xxxxxxxxxxxx".toList
  s.length = template.length &&
    (template.zip s).all fun (t, c) => if t = '-' then c = '-' else isHexDigit c

/-- A block identifier in canonical form, such as `str(uuid.uuid4())` makes. -/
structure Uuid where
  text : Str
  canonical : isUuidText text = true

theorem Uuid.hex_or_dash (u : Uuid) {c : Char} (hc : c ∈ u.text) : isHexDigit c = true ∨ c = '-' := by
  have hCanonical := u.canonical
  simp only [isUuidText, Bool.and_eq_true, decide_eq_true_eq, List.all_eq_true] at hCanonical
  obtain ⟨hLen, hAll⟩ := hCanonical
  rw [← List.map_snd_zip hLen.le] at hc
  obtain ⟨⟨t, d⟩, hMem, rfl⟩ := List.mem_map.mp hc
  have hClass := hAll _ hMem
  split_ifs at hClass
  · exact .inr (of_decide_eq_true hClass)
  · exact .inl hClass

theorem Uuid.not_isSpace (u : Uuid) {c : Char} (hc : c ∈ u.text) : isSpace c = false := by
  rcases u.hex_or_dash hc with hHex | rfl
  · rw [← Bool.not_eq_true]
    intro hSpace
    simp only [isHexDigit, isSpace, Bool.or_eq_true, Bool.and_eq_true, decide_eq_true_eq,
      beq_iff_eq] at hHex hSpace
    omega
  · rfl

/-- An identifier for runs on fixed inputs. -/
def sampleId : Uuid := ⟨"6ba7b810-9dad-41d1-80b4-00c04fd430c8".toList, by decide⟩

/-- A literal `p` at the head of `s` under `re.IGNORECASE`. -/
def dropPrefixIgnoreCase? (tables : CaseTables) : Str → Str → Option Str
  | [], s => some s
  | _ :: _, [] => none
  | p :: ps, c :: cs => if tables.eqIgnoreCase p c then dropPrefixIgnoreCase? tables ps cs else none

def isListMarker (c : Char) : Bool := c = '-' || c = '*' || c = '+'

/-- `_BULLET = ^(\s*)[-*+]\s+`: the indentation of a bullet line. -/
def bulletIndent? (line : Str) : Option Str :=
  match line.dropWhile isSpace with
  | m :: c :: _ => if isListMarker m && isSpace c then some (line.takeWhile isSpace) else none
  | _ => none

def stripLineEndings (line : Str) : Str := rstripChars ['\r', '\n'] line

def stripLinesForMatch (lines : List Str) : List Str := lines.map stripLineEndings

/-- A newline when the line had any terminator of the three usual ones. -/
def canonicalLineSuffix (original : Str) : Str :=
  match original.getLast? with
  | some c => if c = '\n' ∨ c = '\r' then ['\n'] else []
  | none => []

/-- The pattern `^\s*id::\s*{re.escape(u)}\s*$`, ignoring case. -/
def idLineMatches (tables : CaseTables) (u line : Str) : Bool :=
  match dropPrefixIgnoreCase? tables "id::".toList (lstrip line) with
  | none => false
  | some rest =>
      match dropPrefixIgnoreCase? tables u (lstrip rest) with
      | none => false
      | some tail => isBlank tail

def findIdLineIndex (tables : CaseTables) (lines : List Str) (blockUuid : Str) : Option Nat :=
  let u := tables.lower (strip blockUuid)
  lines.findIdx? (fun line => idLineMatches tables u (stripLineEndings line))

/-- The nearest bullet above the given line. -/
def blockBulletIndex (lines : List Str) : Nat → Option Nat
  | 0 => none
  | j + 1 =>
      if (bulletIndent? (stripLineEndings (lines.getD j []))).isSome then some j
      else blockBulletIndex lines j

/-- First line index after the block's subtree. -/
def blockSubtreeEnd (lines : List Str) (idLineIdx bulletIdx : Nat) : Nat :=
  match bulletIndent? (stripLineEndings (lines.getD bulletIdx [])) with
  | none => lines.length
  | some ws =>
      idLineIdx + 1 + (lines.drop (idLineIdx + 1)).findIdx fun line =>
        match bulletIndent? (stripLineEndings line) with
        | some ws' => ws'.length ≤ ws.length
        | none => false

/-- `(bullet_idx, id_line_idx, subtree_end_exclusive)`. -/
def locateBlockByUuid (tables : CaseTables) (lines : List Str) (blockUuid : Str) :
    Option (Nat × Nat × Nat) :=
  let stripped := stripLinesForMatch lines
  match findIdLineIndex tables stripped blockUuid with
  | none => none
  | some idIdx =>
      match blockBulletIndex stripped idIdx with
      | none => none
      | some bIdx => some (bIdx, idIdx, blockSubtreeEnd stripped idIdx bIdx)

def bulletIndentUnit (lines : List Str) (bulletIdx : Nat) : Str :=
  match bulletIndent? (stripLineEndings (lines.getD bulletIdx [])) with
  | none => "  ".toList
  | some ws =>
      if 2 ≤ ws.length ∧ startsWith ['\t'] (lines.getD bulletIdx []) then ['\t'] else "  ".toList

theorem blockBulletIndex_lt {lines : List Str} {i b : Nat} (h : blockBulletIndex lines i = some b) :
    b < i ∧ (bulletIndent? (stripLineEndings (lines.getD b []))).isSome := by
  induction i with
  | zero => cases h
  | succ j ih =>
      rw [blockBulletIndex] at h
      split_ifs at h with hj
      · obtain rfl := Option.some.inj h
        exact ⟨Nat.lt_succ_self _, hj⟩
      · obtain ⟨hlt, hb⟩ := ih h
        exact ⟨by omega, hb⟩

theorem blockSubtreeEnd_bounds (lines : List Str) {i b : Nat} (hi : i < lines.length) :
    i < blockSubtreeEnd lines i b ∧ blockSubtreeEnd lines i b ≤ lines.length := by
  rw [blockSubtreeEnd]
  split
  · exact ⟨hi, Nat.le_refl _⟩
  · next ws _ =>
      have hle : ((lines.drop (i + 1)).findIdx fun line =>
          match bulletIndent? (stripLineEndings line) with
          | some ws' => ws'.length ≤ ws.length
          | none => false) ≤ (lines.drop (i + 1)).length := List.findIdx_le_length
      rw [List.length_drop] at hle
      omega

/-- A located block is a non-empty interval of lines of the page. -/
theorem locateBlockByUuid_bounds {tables : CaseTables} {lines : List Str} {u : Str} {b i e : Nat}
    (h : locateBlockByUuid tables lines u = some (b, i, e)) :
    b < i ∧ i < e ∧ e ≤ lines.length := by
  simp only [locateBlockByUuid] at h
  split at h
  · cases h
  · next idIdx hFind =>
      split at h
      · cases h
      · next bIdx hBullet =>
          have hEq := Option.some.inj h
          simp only [Prod.mk.injEq] at hEq
          obtain ⟨rfl, rfl, rfl⟩ := hEq
          have hId : idIdx < (stripLinesForMatch lines).length :=
            (List.findIdx?_eq_some_iff_findIdx_eq.mp hFind).1
          obtain ⟨hlt, _⟩ := blockBulletIndex_lt hBullet
          obtain ⟨hEnd, hLen⟩ := blockSubtreeEnd_bounds (stripLinesForMatch lines) (b := bIdx) hId
          exact ⟨hlt, hEnd, by simpa [stripLinesForMatch] using hLen⟩

end Plumber.MarkdownBlocks
