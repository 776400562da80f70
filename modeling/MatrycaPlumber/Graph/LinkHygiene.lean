import MatrycaPlumber.Graph.BlockInsertion
import MatrycaPlumber.Graph.IndexRoundTrip
import MatrycaPlumber.Text.Stripping

/-! Flagging the block of a dead link with a property line, and clearing the flag. The calls
modelled here are those whose page does not change between the baseline and the write. -/
namespace Plumber.LinkVerification

open PyText MarkdownBlocks SemanticIndex

section Model

inductive HygieneProperty where
  | deadLink
  | missingAsset
  deriving DecidableEq

/-- The property name with its colons: `prop_key`. -/
def HygieneProperty.key : HygieneProperty → Str
  | .deadLink => "dead-link::".toList
  | .missingAsset => "missing-asset::".toList

variable (tables : TextTables)

/-- `_DEAD_LINK_PROP` and `_MISSING_ASSET_PROP`. -/
def HygieneProperty.matchesLine (prop : HygieneProperty) (line : Str) : Bool :=
  (dropPrefixIgnoreCase? tables.toCaseTables prop.key (lstrip line)).isSome

/-- The property lines between the bullet and the end of the block. -/
def blockHit (prop : HygieneProperty) (stripped : List Str) (bulletIdx blockEnd i : ℕ) : Bool :=
  bulletIdx + 1 ≤ i && i < min blockEnd stripped.length &&
    prop.matchesLine tables (stripped.getD i [])

/-- `_block_has_property`, and whether `remove_at` holds anything. -/
def blockHasProperty (prop : HygieneProperty) (stripped : List Str) (bulletIdx blockEnd : ℕ) : Bool :=
  (List.range stripped.length).any (blockHit tables prop stripped bulletIdx blockEnd)

/-- The lines without those at the given positions, counted from the first argument on. -/
def deleteAt {α : Type*} (hit : ℕ → Bool) : ℕ → List α → List α
  | _, [] => []
  | i, x :: xs => if hit i then deleteAt hit (i + 1) xs else x :: deleteAt hit (i + 1) xs

/-- One line in `_normalize_lines_to_text`. Without its newlines it does not end in one. -/
def normalizedLine (line : Str) : Str := rstripChars ['\n'] line ++ ['\n']

/-- The line that `_insert_block_hygiene_line` puts under the bullet. -/
def hygieneLine (prop : HygieneProperty) (stripped : List Str) (bulletIdx : ℕ) : Str :=
  (bulletIndent? (stripped.getD bulletIdx [])).getD [] ++ bulletIndentUnit stripped bulletIdx ++
    prop.key ++ " true\n".toList

/-- `_mutate_block_hygiene_property`: what it returns, and the pieces of the text it writes. -/
def mutateBlockHygieneProperty (text blockUuid : Str) (prop : HygieneProperty) (remove : Bool) :
    Bool × Option (List Str) :=
  let lines := splitlinesKeep (universalNewlines text)
  let stripped := stripLinesForMatch lines
  match locateBlockByUuid tables.toCaseTables stripped blockUuid with
  | none => (false, none)
  | some (bulletIdx, _, blockEnd) =>
      if remove then
        if blockHasProperty tables prop stripped bulletIdx blockEnd then
          (true, some ((deleteAt (blockHit tables prop stripped bulletIdx blockEnd) 0 lines).map
            normalizedLine))
        else (false, none)
      else if blockHasProperty tables prop stripped bulletIdx blockEnd then (true, none)
      else
        let insertAt := blockPropertyInsertIndex stripped bulletIdx blockEnd
        (true, some ((lines.insertIdx insertAt (hygieneLine prop stripped bulletIdx)).map
          normalizedLine))

def flagBlockHygieneProperty (text blockUuid : Str) (prop : HygieneProperty) :
    Bool × Option (List Str) :=
  mutateBlockHygieneProperty tables text blockUuid prop false

def clearBlockHygieneProperty (text blockUuid : Str) (prop : HygieneProperty) :
    Bool × Option (List Str) :=
  mutateBlockHygieneProperty tables text blockUuid prop true

/-- The pieces that the page consists of afterwards: its old lines when nothing is written. -/
def piecesAfter (text : Str) (written : Option (List Str)) : List Str :=
  written.getD (splitlinesKeep text)

def pageAfter (text : Str) (written : Option (List Str)) : Str := (piecesAfter text written).flatten

end Model

section Statement

variable (tables : TextTables)

/-- Flagging puts one property line behind the bullet of the block, which is the nearest above
it, and leaves every line of the file as it was. -/
def FlagInserts (text blockUuid : Str) (prop : HygieneProperty) (bulletIdx : ℕ) : Prop :=
  let pieces := piecesAfter text (flagBlockHygieneProperty tables text blockUuid prop).2
  ∃ i, pieces = (splitlinesKeep text).insertIdx i (hygieneLine prop
      (stripLinesForMatch (splitlinesKeep (universalNewlines text))) bulletIdx) ∧
    i ≤ (splitlinesKeep text).length ∧ blockBulletIndex pieces i = some bulletIdx

/-- A property line of the block itself, not of a child. -/
def ownHit (prop : HygieneProperty) (stripped : List Str) (bulletIdx blockEnd i : ℕ) : Bool :=
  blockHit tables prop stripped bulletIdx blockEnd i && blockBulletIndex stripped i = some bulletIdx

/-- Clearing removes the own property lines of the block and leaves every other line of the
file as it was. -/
def ClearRemovesOwn (text blockUuid : Str) (prop : HygieneProperty) (bulletIdx blockEnd : ℕ) : Prop :=
  piecesAfter text (clearBlockHygieneProperty tables text blockUuid prop).2 =
    deleteAt (ownHit tables prop (stripLinesForMatch (splitlinesKeep (universalNewlines text)))
      bulletIdx blockEnd) 0 (splitlinesKeep text)

/-- Clearing after flagging restores the text of the page. -/
def ClearRestores (text blockUuid : Str) (prop : HygieneProperty) : Prop :=
  let flagged := pageAfter text (flagBlockHygieneProperty tables text blockUuid prop).2
  pageAfter flagged (clearBlockHygieneProperty tables flagged blockUuid prop).2 = text

/-- The line ends in a newline and has no carriage return. -/
def EndsPlain (line : Str) : Prop := '\r' ∉ line ∧ line.getLast? = some '\n'

instance (line : Str) : Decidable (EndsPlain line) := inferInstanceAs (Decidable (_ ∧ _))

end Statement

section Lines

theorem rstripChars_newline_of_cons {body : Str} (h : '\n' ∉ body) :
    rstripChars ['\n'] (body ++ ['\n']) = body := by
  rw [rstripChars, List.rdropWhile_concat_pos _ _ _ (by rfl), List.rdropWhile_eq_self_iff]
  intro hNe hLast
  apply h
  have hMem := List.getLast_mem hNe
  rw [List.contains_iff_mem, List.mem_singleton] at hLast
  rwa [hLast] at hMem

/-- A line of a file is written as it was read exactly when it ends in a plain newline. -/
theorem normalizedLine_universalNewlines_iff {text line : Str} (h : line ∈ splitlinesKeep text) :
    normalizedLine (universalNewlines line) = line ↔ EndsPlain line := by
  constructor
  · intro hSame
    refine ⟨?_, ?_⟩
    · intro hMem
      rw [← hSame, normalizedLine, List.mem_append, List.mem_singleton] at hMem
      rcases hMem with hMem | hMem
      · exact cr_notMem_universalNewlines line ((List.rdropWhile_prefix _ _).subset hMem)
      · exact absurd hMem (by decide)
    · rw [← hSame, normalizedLine, List.getLast?_append]
      rfl
  · rintro ⟨hCr, hEnd⟩
    obtain ⟨body, rfl⟩ := List.getLast?_eq_some_iff.mp hEnd
    have hBody : '\n' ∉ body := by
      have hCount := count_newline_of_mem_splitlinesKeep h
      rw [if_pos hEnd, List.count_append] at hCount
      rw [← List.count_eq_zero]
      simpa using hCount
    rw [universalNewlines_of_notMem hCr, normalizedLine, rstripChars_newline_of_cons hBody]

/-- A plain line of a file ends in its only boundary. -/
theorem closed_of_endsPlain {text line : Str} (h : line ∈ splitlinesKeep text)
    (hPlain : EndsPlain line) : Closed line := by
  obtain ⟨body, rfl⟩ := List.getLast?_eq_some_iff.mp hPlain.2
  refine ⟨body, '\n', rfl, rfl, by decide, ?_⟩
  intro c hc
  by_contra hBreak
  rw [Bool.not_eq_false] at hBreak
  obtain ⟨x, y, rfl⟩ := List.append_of_mem hc
  rcases eq_nil_or_crlf_of_mem_splitlinesKeep h (x := x) (y := y ++ ['\n']) (c := c) (by simp)
    hBreak with hNil | ⟨rfl, _⟩
  · simp at hNil
  · exact hPlain.1 (by simp)

end Lines

section Deleting

variable {α β : Type*}

theorem deleteAt_map (f : α → β) (hit : ℕ → Bool) (k : ℕ) (xs : List α) :
    deleteAt hit k (xs.map f) = (deleteAt hit k xs).map f := by
  induction xs generalizing k with
  | nil => rfl
  | cons x xs ih =>
      rw [List.map_cons, deleteAt, deleteAt, ih]
      split_ifs <;> rfl

theorem deleteAt_congr {hit other : ℕ → Bool} {k : ℕ} {xs : List α}
    (h : ∀ i, k ≤ i → i < k + xs.length → hit i = other i) :
    deleteAt hit k xs = deleteAt other k xs := by
  induction xs generalizing k with
  | nil => rfl
  | cons x xs ih =>
      rw [List.length_cons] at h
      rw [deleteAt, deleteAt, h k (Nat.le_refl k) (by omega),
        ih fun i hk hi => h i (by omega) (by omega)]

theorem deleteAt_none {hit : ℕ → Bool} {k : ℕ} {xs : List α}
    (h : ∀ i, k ≤ i → i < k + xs.length → hit i = false) : deleteAt hit k xs = xs := by
  rw [deleteAt_congr h]
  clear h
  induction xs generalizing k with
  | nil => rfl
  | cons x xs ih => rw [deleteAt, if_neg Bool.false_ne_true, ih]

theorem deleteAt_sublist (hit : ℕ → Bool) (k : ℕ) (xs : List α) :
    (deleteAt hit k xs).Sublist xs := by
  induction xs generalizing k with
  | nil => exact List.Sublist.refl _
  | cons x xs ih =>
      rw [deleteAt]
      split_ifs
      · exact (ih _).cons _
      · exact (ih _).cons_cons _

/-- Deleting more positions leaves fewer elements, unless no position is new. -/
theorem eq_of_length_deleteAt {hit own : ℕ → Bool} (hSub : ∀ i, own i = true → hit i = true)
    {k : ℕ} {xs : List α} :
    (deleteAt hit k xs).length ≤ (deleteAt own k xs).length ∧
      ((deleteAt hit k xs).length = (deleteAt own k xs).length →
        ∀ i, k ≤ i → i < k + xs.length → hit i = own i) := by
  induction xs generalizing k with
  | nil => exact ⟨Nat.le_refl _, fun _ i hk hi => absurd hi (by simpa using hk)⟩
  | cons x xs ih =>
      obtain ⟨hLe, hEq⟩ := ih (k := k + 1)
      rw [deleteAt, deleteAt]
      cases hHit : hit k with
      | true =>
          cases hOwn : own k with
          | true =>
              simp only [if_true]
              refine ⟨hLe, fun h i hk hi => ?_⟩
              rw [List.length_cons] at hi
              rcases Nat.eq_or_lt_of_le hk with rfl | hLt
              · rw [hHit, hOwn]
              · exact hEq h i hLt (by omega)
          | false =>
              simp only [if_true, Bool.false_eq_true, if_false, List.length_cons]
              exact ⟨by omega, fun h => by omega⟩
      | false =>
          have hOwn : own k = false := by
            rw [← Bool.not_eq_true]
            intro hTrue
            rw [hSub k hTrue] at hHit
            cases hHit
          simp only [hOwn, Bool.false_eq_true, if_false, List.length_cons]
          refine ⟨by omega, fun h i hk hi => ?_⟩
          rcases Nat.eq_or_lt_of_le hk with rfl | hLt
          · rw [hHit, hOwn]
          · exact hEq (by omega) i hLt (by omega)

theorem deleteAt_insertIdx {j k : ℕ} {xs : List α} (x : α) (h : j ≤ xs.length) :
    deleteAt (fun i => i = k + j) k (xs.insertIdx j x) = xs := by
  induction xs generalizing j k with
  | nil =>
      obtain rfl : j = 0 := Nat.le_zero.mp h
      rw [List.insertIdx_zero, deleteAt, if_pos (by simp)]
      rfl
  | cons y ys ih =>
      cases j with
      | zero =>
          rw [List.insertIdx_zero, deleteAt, if_pos (by simp)]
          apply deleteAt_none
          intro i hk _
          simp only [Nat.add_zero, decide_eq_false_iff_not]
          omega
      | succ j =>
          rw [List.insertIdx_succ_cons, deleteAt, if_neg (by simp)]
          have hRest := ih (k := k + 1) (Nat.le_of_succ_le_succ h)
          rw [show k + 1 + j = k + (j + 1) by omega] at hRest
          rw [hRest]

end Deleting

section Hits

variable {tables : TextTables} {prop : HygieneProperty} {stripped : List Str} {b e : ℕ}

theorem blockHasProperty_iff : blockHasProperty tables prop stripped b e = true ↔
    ∃ i, blockHit tables prop stripped b e i = true := by
  rw [blockHasProperty, List.any_eq_true]
  constructor
  · rintro ⟨i, _, hHit⟩
    exact ⟨i, hHit⟩
  · rintro ⟨i, hHit⟩
    refine ⟨i, ?_, hHit⟩
    simp only [blockHit, Bool.and_eq_true, decide_eq_true_eq] at hHit
    rw [List.mem_range]
    omega

theorem blockHit_iff {i : ℕ} : blockHit tables prop stripped b e i = true ↔
    b < i ∧ i < e ∧ i < stripped.length ∧
      prop.matchesLine tables (stripped.getD i []) = true := by
  simp only [blockHit, Bool.and_eq_true, decide_eq_true_eq]
  constructor
  · rintro ⟨⟨hStart, hEnd⟩, hMatch⟩
    exact ⟨by omega, by omega, by omega, hMatch⟩
  · rintro ⟨hStart, hEnd, hLength, hMatch⟩
    exact ⟨⟨by omega, by omega⟩, hMatch⟩

/-- The property line without its newline. -/
def hygieneText (prop : HygieneProperty) (stripped : List Str) (bulletIdx : ℕ) : Str :=
  (bulletIndent? (stripped.getD bulletIdx [])).getD [] ++ bulletIndentUnit stripped bulletIdx ++
    (prop.key ++ " true".toList)

theorem hygieneLine_eq : hygieneLine prop stripped b = hygieneText prop stripped b ++ ['\n'] := by
  simp [hygieneLine, hygieneText]

theorem bulletIndent?_isSpace {line ws : Str} (h : bulletIndent? line = some ws) :
    ∀ c ∈ ws, isSpace c = true ∧ c ∈ line := by
  rw [bulletIndent?] at h
  split at h
  · split_ifs at h
    obtain rfl := Option.some.inj h
    intro c hc
    exact ⟨List.mem_takeWhile_imp hc, (List.takeWhile_prefix _).subset hc⟩
  · cases h

/-- The indentation in front of the property. -/
theorem hygieneText_indent {c : Char} (hc : c ∈ (bulletIndent? (stripped.getD b [])).getD [] ++
    bulletIndentUnit stripped b) :
    isSpace c = true ∧ (c ∈ stripped.getD b [] ∨ c = ' ' ∨ c = '\t') := by
  rcases List.mem_append.mp hc with hIndent | hUnit
  · cases hBullet : bulletIndent? (stripped.getD b []) with
    | none =>
        rw [hBullet] at hIndent
        cases hIndent
    | some ws =>
        rw [hBullet] at hIndent
        have h := bulletIndent?_isSpace hBullet c hIndent
        exact ⟨h.1, .inl h.2⟩
  · have hUnit : c = ' ' ∨ c = '\t' := by
      rw [bulletIndentUnit] at hUnit
      split at hUnit
      · simp at hUnit
        exact .inl hUnit
      · split_ifs at hUnit
        · exact .inr (List.mem_singleton.mp hUnit)
        · simp at hUnit
          exact .inl hUnit
    refine ⟨?_, .inr hUnit⟩
    rcases hUnit with rfl | rfl <;> rfl

theorem lstrip_hygieneText : lstrip (hygieneText prop stripped b) = prop.key ++ " true".toList := by
  rw [hygieneText, lstrip_append_of_blank]
  · cases prop <;> rfl
  · rw [lstrip_eq_nil_iff]
    exact fun c hc => (hygieneText_indent hc).1

theorem matchesLine_hygieneText : prop.matchesLine tables (hygieneText prop stripped b) = true := by
  have hKey : ∀ c ∈ prop.key, c.toNat < 128 := by cases prop <;> decide
  rw [HygieneProperty.matchesLine, lstrip_hygieneText, SemanticIndex.dropPrefixIgnoreCase_self hKey]
  rfl

theorem bulletIndent?_hygieneText : bulletIndent? (hygieneText prop stripped b) = none := by
  have hStrip : (hygieneText prop stripped b).dropWhile isSpace = prop.key ++ " true".toList :=
    lstrip_hygieneText
  rw [bulletIndent?, hStrip]
  cases prop <;> rfl

theorem stripLineEndings_hygieneLine :
    stripLineEndings (hygieneLine prop stripped b) = hygieneText prop stripped b := by
  have hLast : hygieneText prop stripped b =
      ((bulletIndent? (stripped.getD b [])).getD [] ++ bulletIndentUnit stripped b ++
        (prop.key ++ " tru".toList)) ++ ['e'] := by
    simp [hygieneText]
  rw [hygieneLine_eq, stripLineEndings, rstripChars, List.rdropWhile_concat_pos _ _ _ (by rfl), hLast,
    List.rdropWhile_concat_neg _ _ _ (by decide)]

theorem exists_of_bulletIndent? {line ws : Str} (h : bulletIndent? line = some ws) :
    ∃ m c rest, line = ws ++ m :: c :: rest := by
  rw [bulletIndent?] at h
  split at h
  · next m c rest hDrop =>
      split_ifs at h
      obtain rfl := Option.some.inj h
      refine ⟨m, c, rest, ?_⟩
      rw [← hDrop, List.takeWhile_append_dropWhile]
  · cases h

/-- The property line of a block of a file has no line break. -/
theorem isLineBreak_hygieneText {s : Str} {c : Char}
    (hc : c ∈ hygieneText prop (stripLinesForMatch (splitlinesKeep s)) b) : isLineBreak c = false := by
  rw [hygieneText, List.mem_append, List.mem_append] at hc
  rcases hc with (hIndent | hUnit) | hKey
  · cases hBullet : bulletIndent? ((stripLinesForMatch (splitlinesKeep s)).getD b []) with
    | none =>
        rw [hBullet] at hIndent
        cases hIndent
    | some ws =>
        rw [hBullet, Option.getD_some] at hIndent
        rw [getD_stripLinesForMatch, List.getD_eq_getElem?_getD] at hBullet
        cases hLine : (splitlinesKeep s)[b]? with
        | none =>
            rw [hLine] at hBullet
            cases hBullet
        | some line =>
            rw [hLine, Option.getD_some] at hBullet
            obtain ⟨m, d, rest, hStrip⟩ := exists_of_bulletIndent? hBullet
            obtain ⟨tail, hTail⟩ : stripLineEndings line <+: line := List.rdropWhile_prefix _ _
            obtain ⟨x, y, rfl⟩ := List.append_of_mem hIndent
            by_contra hBreak
            rw [Bool.not_eq_false] at hBreak
            have hText : line = x ++ c :: (y ++ m :: d :: (rest ++ tail)) := by
              rw [← hTail, hStrip]
              simp
            have hEnd := eq_nil_or_crlf_of_mem_splitlinesKeep (List.mem_of_getElem? hLine) hText hBreak
            have hLength : 2 ≤ (y ++ m :: d :: (rest ++ tail)).length := by
              simp only [List.length_append, List.length_cons]
              omega
            rcases hEnd with hNil | ⟨_, hOne⟩
            · rw [hNil] at hLength
              cases hLength
            · rw [hOne] at hLength
              simp at hLength
  · rw [bulletIndentUnit] at hUnit
    split at hUnit
    · simp at hUnit
      rw [hUnit]
      rfl
    · split_ifs at hUnit
      · rw [List.mem_singleton.mp hUnit]
        rfl
      · simp at hUnit
        rw [hUnit]
        rfl
  · cases prop
    · exact (by decide : ∀ d ∈ HygieneProperty.deadLink.key ++ " true".toList, isLineBreak d = false)
        c hKey
    · exact (by decide :
        ∀ d ∈ HygieneProperty.missingAsset.key ++ " true".toList, isLineBreak d = false) c hKey

theorem closed_hygieneLine (s : Str) :
    Closed (hygieneLine prop (stripLinesForMatch (splitlinesKeep s)) b) := by
  rw [hygieneLine_eq]
  exact closed_append_newline fun c hc => isLineBreak_hygieneText hc

theorem normalizedLine_hygieneLine (s : Str) :
    normalizedLine (hygieneLine prop (stripLinesForMatch (splitlinesKeep s)) b) =
      hygieneLine prop (stripLinesForMatch (splitlinesKeep s)) b := by
  rw [hygieneLine_eq, normalizedLine, rstripChars_newline_of_cons]
  intro hMem
  have := isLineBreak_hygieneText hMem
  cases this

end Hits

section Flagging

variable {tables : TextTables} {prop : HygieneProperty} {text blockUuid : Str} {b i e : ℕ}

/-- The lines that the functions split the page into. -/
abbrev readLines (text : Str) : List Str := splitlinesKeep (universalNewlines text)

abbrev strippedLines (text : Str) : List Str := stripLinesForMatch (readLines text)

abbrev Located (tables : TextTables) (text blockUuid : Str) (b i e : ℕ) : Prop :=
  locateBlockByUuid tables.toCaseTables (strippedLines text) blockUuid = some (b, i, e)

/-- The pieces of a flagged page, in terms of the lines of the file. -/
theorem flag_of_not_has (h : Located tables text blockUuid b i e)
    (hNone : blockHasProperty tables prop (strippedLines text) b e = false) :
    (flagBlockHygieneProperty tables text blockUuid prop).2 =
      some (((splitlinesKeep text).map fun line => normalizedLine (universalNewlines line)).insertIdx
        (blockPropertyInsertIndex (strippedLines text) b e)
        (hygieneLine prop (strippedLines text) b)) := by
  have hMap : (readLines text).map normalizedLine =
      (splitlinesKeep text).map fun line => normalizedLine (universalNewlines line) := by
    rw [readLines, splitlinesKeep_universalNewlines, List.map_map]
    rfl
  simp only [flagBlockHygieneProperty, mutateBlockHygieneProperty]
  rw [h]
  dsimp only
  rw [if_neg Bool.false_ne_true, hNone, if_neg Bool.false_ne_true, List.map_insertIdx,
    normalizedLine_hygieneLine, hMap]

theorem flag_of_has (h : Located tables text blockUuid b i e)
    (hHas : blockHasProperty tables prop (strippedLines text) b e = true) :
    (flagBlockHygieneProperty tables text blockUuid prop).2 = none := by
  simp only [flagBlockHygieneProperty, mutateBlockHygieneProperty]
  rw [h]
  dsimp only
  rw [if_neg Bool.false_ne_true, hHas, if_pos rfl]

theorem isBullet_of_located (h : Located tables text blockUuid b i e) :
    IsBulletLine (readLines text) b := by
  obtain ⟨_, hBullet, _⟩ := locateBlockByUuid_eq_some.mp h
  rw [stripLinesForMatch_idem] at hBullet
  exact (isBulletLine_strip b).mp (blockBulletIndex_lt hBullet).2

theorem insertIndex_le (h : Located tables text blockUuid b i e) :
    i < blockPropertyInsertIndex (strippedLines text) b e ∧
      blockPropertyInsertIndex (strippedLines text) b e ≤ e ∧
      e ≤ (readLines text).length := by
  have hBounds := blockPropertyInsertIndex_bounds h
  have hLength := (locateBlockByUuid_bounds h).2.2
  rw [stripLinesForMatch_idem] at hBounds
  exact ⟨hBounds.1, hBounds.2, by simpa [stripLinesForMatch] using hLength⟩

theorem length_readLines (text : Str) : (readLines text).length = (splitlinesKeep text).length := by
  rw [readLines, splitlinesKeep_universalNewlines, List.length_map]

/-- Lines that all end in plain newlines are read as they are. -/
theorem readLines_of_plain (h : ∀ line ∈ splitlinesKeep text, EndsPlain line) :
    universalNewlines text = text ∧
      (splitlinesKeep text).map (fun line => normalizedLine (universalNewlines line)) =
        splitlinesKeep text := by
  constructor
  · apply universalNewlines_of_notMem
    rw [← flatten_splitlinesKeep text]
    intro hMem
    obtain ⟨line, hLine, hCr⟩ := List.mem_flatten.mp hMem
    exact (h line hLine).1 hCr
  · conv_rhs => rw [← List.map_id (splitlinesKeep text)]
    apply List.map_congr_left
    intro line hLine
    exact (normalizedLine_universalNewlines_iff hLine).mpr (h line hLine)

theorem endsPlain_normalizedLine (line : Str) : EndsPlain (normalizedLine (universalNewlines line)) := by
  refine ⟨?_, ?_⟩
  · rw [normalizedLine, List.mem_append, List.mem_singleton]
    rintro (hMem | hMem)
    · exact cr_notMem_universalNewlines line ((List.rdropWhile_prefix _ _).subset hMem)
    · exact absurd hMem (by decide)
  · rw [normalizedLine, List.getLast?_append]
    rfl

theorem endsPlain_hygieneLine (s : Str) :
    EndsPlain (hygieneLine prop (stripLinesForMatch (splitlinesKeep s)) b) := by
  rw [hygieneLine_eq]
  refine ⟨?_, by rw [List.getLast?_append]; rfl⟩
  rw [List.mem_append, List.mem_singleton]
  rintro (hMem | hMem)
  · have := isLineBreak_hygieneText hMem
    cases this
  · exact absurd hMem (by decide)

/-- Flagging inserts one own line and changes no other exactly when the subtree has no such line
yet, every line ends in a plain newline, and the first bullet inside is indented by the
guessed unit. -/
theorem flagInserts_iff (h : Located tables text blockUuid b i e) :
    FlagInserts tables text blockUuid prop b ↔
      blockHasProperty tables prop (strippedLines text) b e = false ∧
        (∀ line ∈ splitlinesKeep text, EndsPlain line) ∧
        FirstBulletIndented (readLines text) b e := by
  have hBounds := insertIndex_le h
  cases hHas : blockHasProperty tables prop (strippedLines text) b e with
  | true =>
      refine iff_of_false ?_ fun hCond => Bool.false_ne_true hCond.1.symm
      rintro ⟨k, hPieces, hk, _⟩
      rw [flag_of_has h hHas] at hPieces
      have hLength := congrArg List.length hPieces
      rw [List.length_insertIdx_of_le_length hk] at hLength
      simp only [piecesAfter, Option.getD_none] at hLength
      omega
  | false =>
      rw [FlagInserts, flag_of_not_has h hHas]
      dsimp only [piecesAfter, Option.getD_some]
      constructor
      · rintro ⟨k, hPieces, hk, hNearest⟩
        have hPlain : ∀ line ∈ splitlinesKeep text, EndsPlain line := by
          intro line hLine
          have hMem := List.subset_insertIdx _ k
            (hygieneLine prop (strippedLines text) b) hLine
          rw [← hPieces] at hMem
          rcases List.eq_or_mem_of_mem_insertIdx hMem with rfl | hMem
          · exact endsPlain_hygieneLine _
          · obtain ⟨old, _, rfl⟩ := List.mem_map.mp hMem
            exact endsPlain_normalizedLine old
        obtain ⟨hText, hSame⟩ := readLines_of_plain hPlain
        rw [hSame] at hPieces hNearest
        have hRead : readLines text = splitlinesKeep text := by rw [readLines, hText]
        refine ⟨rfl, hPlain, (before_bullets_iff e (isBullet_of_located h)).mp ?_⟩
        intro j hj hje hBulletLine
        by_contra hNot
        have hPassed : j < blockPropertyInsertIndex (strippedLines text) b e := Nat.lt_of_not_le hNot
        obtain ⟨hbk, _⟩ := blockBulletIndex_lt hNearest
        by_cases hkj : k ≤ j
        · -- the property line itself would stand in the block already
          have hLine : (splitlinesKeep text)[k]? = some (hygieneLine prop (strippedLines text) b) := by
            rw [← List.getElem?_insertIdx_of_lt (x := hygieneLine prop (strippedLines text) b)
              (Nat.lt_of_le_of_lt hkj hPassed), hPieces, List.getElem?_insertIdx_self, if_pos hk]
          have hHit : blockHit tables prop (strippedLines text) b e k = true := by
            rw [blockHit_iff]
            refine ⟨hbk, by omega, ?_, ?_⟩
            · have := (List.getElem?_eq_some_iff.mp hLine).1
              simpa [stripLinesForMatch, hRead] using this
            · rw [getD_stripLinesForMatch, hRead, List.getD_eq_getElem?_getD, hLine, Option.getD_some,
                stripLineEndings_hygieneLine]
              exact matchesLine_hygieneText
          rw [blockHasProperty_iff.mpr ⟨k, hHit⟩] at hHas
          cases hHas
        · refine blockBulletIndex_between hNearest hj (Nat.lt_of_not_le hkj) ?_
          rw [isBulletLine_insertIdx _ hPassed, ← hRead]
          exact hBulletLine
      · rintro ⟨_, hPlain, hFirst⟩
        obtain ⟨hText, hSame⟩ := readLines_of_plain hPlain
        have hRead : readLines text = splitlinesKeep text := by rw [readLines, hText]
        rw [hSame]
        refine ⟨_, rfl, ?_, ?_⟩
        · rw [← length_readLines]
          omega
        · have hPlaced := (placedAboveChildren_iff e (isBullet_of_located h)).mpr hFirst
          have hNearest := hPlaced.nearest (hygieneLine prop (strippedLines text) b)
          rw [← hRead]
          exact hNearest

end Flagging

section Clearing

variable {tables : TextTables} {prop : HygieneProperty} {text blockUuid : Str} {b i e : ℕ}

theorem clear_of_has (h : Located tables text blockUuid b i e)
    (hHas : blockHasProperty tables prop (strippedLines text) b e = true) :
    (clearBlockHygieneProperty tables text blockUuid prop).2 =
      some ((deleteAt (blockHit tables prop (strippedLines text) b e) 0 (readLines text)).map
        normalizedLine) := by
  simp only [clearBlockHygieneProperty, mutateBlockHygieneProperty]
  rw [h]
  dsimp only
  rw [if_pos trivial, hHas, if_pos rfl]

theorem clear_of_not_has (h : Located tables text blockUuid b i e)
    (hNone : blockHasProperty tables prop (strippedLines text) b e = false) :
    (clearBlockHygieneProperty tables text blockUuid prop).2 = none := by
  simp only [clearBlockHygieneProperty, mutateBlockHygieneProperty]
  rw [h]
  dsimp only
  rw [if_pos trivial, hNone, if_neg Bool.false_ne_true]

/-- Clearing removes the own lines and changes no other exactly when there is none to be removed
in the whole subtree, or all of them are own lines and every line that is kept ends in a plain
newline. -/
theorem clearRemovesOwn_iff (h : Located tables text blockUuid b i e) :
    ClearRemovesOwn tables text blockUuid prop b e ↔
      blockHasProperty tables prop (strippedLines text) b e = false ∨
        (∀ j, blockHit tables prop (strippedLines text) b e j = true →
          blockBulletIndex (strippedLines text) j = some b) ∧
        ∀ line ∈ deleteAt (ownHit tables prop (strippedLines text) b e) 0 (splitlinesKeep text),
          EndsPlain line := by
  cases hHas : blockHasProperty tables prop (strippedLines text) b e with
  | false =>
      refine iff_of_true ?_ (.inl rfl)
      rw [ClearRemovesOwn, clear_of_not_has h hHas]
      symm
      apply deleteAt_none
      intro j _ _
      rw [← Bool.not_eq_true, ownHit, Bool.and_eq_true]
      rintro ⟨hHit, _⟩
      rw [blockHasProperty_iff.mpr ⟨j, hHit⟩] at hHas
      cases hHas
  | true =>
      have hKept (hit : ℕ → Bool) : (deleteAt hit 0 (readLines text)).map normalizedLine =
          (deleteAt hit 0 (splitlinesKeep text)).map
            fun line => normalizedLine (universalNewlines line) := by
        rw [readLines, splitlinesKeep_universalNewlines, deleteAt_map, List.map_map]
        rfl
      have hSame (own : ℕ → Bool) : (deleteAt own 0 (splitlinesKeep text)).map
            (fun line => normalizedLine (universalNewlines line)) =
          deleteAt own 0 (splitlinesKeep text) ↔
          ∀ line ∈ deleteAt own 0 (splitlinesKeep text), EndsPlain line := by
        conv_lhs => rw [← List.map_id (deleteAt own 0 (splitlinesKeep text)), List.map_map]
        rw [List.map_inj_left]
        refine forall_congr' fun line => forall_congr' fun hLine => ?_
        exact normalizedLine_universalNewlines_iff ((deleteAt_sublist _ _ _).subset hLine)
      rw [ClearRemovesOwn, clear_of_has h hHas, piecesAfter, Option.getD_some, hKept]
      simp only [Bool.true_eq_false, false_or]
      constructor
      · intro hPieces
        have hLength := congrArg List.length hPieces
        rw [List.length_map] at hLength
        have hEq := (eq_of_length_deleteAt (fun j hj => (Bool.and_eq_true _ _ ▸ hj :
          blockHit tables prop (strippedLines text) b e j = true ∧ _).1)).2 hLength
        rw [deleteAt_congr hEq] at hPieces
        refine ⟨fun j hj => ?_, (hSame _).mp hPieces⟩
        have hRange := (blockHit_iff.mp hj).2.2.1
        have hOwn := hEq j (Nat.zero_le j) (by
          rw [← length_readLines]
          simpa [stripLinesForMatch] using hRange)
        rw [hj] at hOwn
        exact of_decide_eq_true (Bool.and_eq_true _ _ ▸ hOwn.symm : _ ∧ _).2
      · rintro ⟨hOwn, hPlain⟩
        have hEq : ∀ j, 0 ≤ j → j < 0 + (splitlinesKeep text).length →
            blockHit tables prop (strippedLines text) b e j =
              ownHit tables prop (strippedLines text) b e j := by
          intro j _ _
          cases hHit : blockHit tables prop (strippedLines text) b e j with
          | false => rw [ownHit, hHit, Bool.false_and]
          | true => rw [ownHit, hHit, Bool.true_and, decide_eq_true (hOwn j hHit)]
        rw [deleteAt_congr hEq]
        exact (hSame _).mpr hPlain

end Clearing

section Counting

/-- The tables of the interpreter, in which a colon matches itself alone. -/
structure PatternTables extends TextTables where
  colon_eq : ∀ c, eqIgnoreCase ':' c = true → c = ':'

variable {tables : PatternTables} {prop : HygieneProperty}

theorem colons_dropPrefix {key s rest : Str}
    (h : dropPrefixIgnoreCase? tables.toCaseTables key s = some rest) :
    key.count ':' ≤ s.count ':' := by
  induction key generalizing s with
  | nil => exact Nat.zero_le _
  | cons p key ih =>
      cases s with
      | nil => cases h
      | cons c s =>
          rw [dropPrefixIgnoreCase?] at h
          split_ifs at h with hSame
          have hRest := ih h
          rw [List.count_cons, List.count_cons]
          by_cases hColon : p = ':'
          · subst hColon
            rw [tables.colon_eq c hSame]
            omega
          · rw [if_neg (by simpa using hColon)]
            omega

/-- A property line has at least the two colons of its key. -/
theorem colons_of_matchesLine {line : Str}
    (h : prop.matchesLine tables.toTextTables (stripLineEndings line) = true) : 2 ≤ line.count ':' := by
  obtain ⟨rest, hRest⟩ := Option.isSome_iff_exists.mp h
  have hKey : 2 ≤ prop.key.count ':' := by cases prop <;> decide
  calc 2 ≤ prop.key.count ':' := hKey
    _ ≤ (lstrip (stripLineEndings line)).count ':' := colons_dropPrefix hRest
    _ ≤ (stripLineEndings line).count ':' := (List.dropWhile_suffix _).sublist.count_le _
    _ ≤ line.count ':' := (List.rdropWhile_prefix _ _).sublist.count_le _

theorem colons_universalNewlines (s : Str) : (universalNewlines s).count ':' = s.count ':' := by
  induction s using universalNewlines.induct with
  | case1 => rfl
  | case2 rest ih =>
      rw [universalNewlines, List.count_cons_of_ne (by decide), List.count_cons_of_ne (by decide),
        List.count_cons_of_ne (by decide), ih]
  | case3 c rest hne ih =>
      by_cases hc : c = '\r'
      · subst hc
        rw [universalNewlines, if_pos rfl, List.count_cons_of_ne (by decide),
          List.count_cons_of_ne (by decide), ih]
        exact hne
      · rw [universalNewlines_cons _ hc, List.count_cons, List.count_cons, ih]

theorem colons_normalizedLine (line : Str) : (normalizedLine line).count ':' = line.count ':' := by
  have hTail : (line.rtakeWhile fun c => ['\n'].contains c).count ':' = 0 := by
    rw [List.count_eq_zero]
    intro hMem
    have := List.mem_rtakeWhile_imp hMem
    revert this
    decide
  conv_rhs => rw [← List.rdropWhile_append_rtakeWhile (p := fun c => ['\n'].contains c) (l := line),
    List.count_append, hTail]
  rw [normalizedLine, List.count_append]
  rfl

/-- The key brings the only colons of the property line. -/
theorem colons_hygieneLine (prop : HygieneProperty) (s : Str) (b : ℕ) :
    (hygieneLine prop (stripLinesForMatch (splitlinesKeep s)) b).count ':' = 2 := by
  have hIndent : ((bulletIndent? ((stripLinesForMatch (splitlinesKeep s)).getD b [])).getD [] ++
      bulletIndentUnit (stripLinesForMatch (splitlinesKeep s)) b).count ':' = 0 := by
    rw [List.count_eq_zero]
    intro hMem
    have := (hygieneText_indent hMem).1
    cases this
  rw [hygieneLine, List.append_assoc, List.count_append, hIndent]
  cases prop <;> rfl

/-- Deleting takes away what the deleted elements weigh. -/
theorem sum_deleteAt {α : Type*} (w : α → ℕ) (hit : ℕ → Bool) (k : ℕ) (xs : List α) :
    ((deleteAt hit k xs).map w).sum + ((deleteAt (fun i => !hit i) k xs).map w).sum =
      (xs.map w).sum := by
  induction xs generalizing k with
  | nil => rfl
  | cons x xs ih =>
      rw [deleteAt, deleteAt, List.map_cons, List.sum_cons, ← ih (k + 1)]
      cases hit k with
      | true =>
          simp only [if_true, Bool.not_true, Bool.false_eq_true, if_false, List.map_cons,
            List.sum_cons]
          omega
      | false =>
          simp only [if_true, Bool.not_false, Bool.false_eq_true, if_false, List.map_cons,
            List.sum_cons]
          omega

theorem length_deleteAt {α : Type*} (hit : ℕ → Bool) (k : ℕ) (xs : List α) :
    (deleteAt hit k xs).length + (deleteAt (fun i => !hit i) k xs).length = xs.length := by
  have h := sum_deleteAt (fun _ => 1) hit k xs
  simpa using h

theorem mem_deleteAt_not {α : Type*} {hit : ℕ → Bool} {k : ℕ} {xs : List α} {x : α}
    (h : x ∈ deleteAt (fun i => !hit i) k xs) : ∃ i, hit (k + i) = true ∧ xs[i]? = some x := by
  induction xs generalizing k with
  | nil => cases h
  | cons y ys ih =>
      rw [deleteAt] at h
      have hRest (hMem : x ∈ deleteAt (fun i => !hit i) (k + 1) ys) :
          ∃ i, hit (k + i) = true ∧ (y :: ys)[i]? = some x := by
        obtain ⟨i, hHit, hx⟩ := ih hMem
        refine ⟨i + 1, ?_, hx⟩
        rwa [show k + (i + 1) = k + 1 + i by omega]
      cases hHit : hit k with
      | true =>
          rw [hHit, Bool.not_true, if_neg Bool.false_ne_true] at h
          rcases List.mem_cons.mp h with rfl | hMem
          · exact ⟨0, hHit, rfl⟩
          · exact hRest hMem
      | false =>
          rw [hHit, Bool.not_false, if_pos rfl] at h
          exact hRest h

theorem mem_deleteAt_of_hit {α : Type*} {hit : ℕ → Bool} {k i : ℕ} {xs : List α} {x : α}
    (hHit : hit (k + i) = true) (hx : xs[i]? = some x) : x ∈ deleteAt (fun i => !hit i) k xs := by
  induction xs generalizing k i with
  | nil => cases hx
  | cons y ys ih =>
      rw [deleteAt]
      cases i with
      | zero =>
          obtain rfl := Option.some.inj hx
          rw [Nat.add_zero] at hHit
          rw [hHit, Bool.not_true, if_neg Bool.false_ne_true]
          exact List.mem_cons_self
      | succ i =>
          have hMem := ih (k := k + 1) (by rwa [show k + 1 + i = k + (i + 1) by omega]) hx
          split_ifs
          · exact hMem
          · exact List.mem_cons_of_mem _ hMem

theorem colons_written (xs : List Str) :
    (xs.map normalizedLine).flatten.count ':' = (xs.map (List.count ':')).sum := by
  rw [List.count_flatten, List.map_map]
  exact congrArg List.sum (List.map_congr_left fun line _ => colons_normalizedLine line)

theorem colons_readLines (s : Str) : ((readLines s).map (List.count ':')).sum = s.count ':' := by
  rw [← List.count_flatten, flatten_splitlinesKeep, colons_universalNewlines]

end Counting

section Restoring

variable {tables : PatternTables} {prop : HygieneProperty} {text blockUuid : Str} {b i e : ℕ}

theorem length_mul_le_sum {α : Type*} {w : α → ℕ} {n : ℕ} {xs : List α} (h : ∀ x ∈ xs, n ≤ w x) :
    n * xs.length ≤ (xs.map w).sum := by
  induction xs with
  | nil => exact Nat.le_refl 0
  | cons x xs ih =>
      rw [List.forall_mem_cons] at h
      rw [List.length_cons, Nat.mul_succ, List.map_cons, List.sum_cons, Nat.add_comm]
      exact Nat.add_le_add h.1 (ih h.2)

/-- Deleting property lines takes two colons for each of them. -/
theorem colons_deleteAt (tables : PatternTables) (prop : HygieneProperty) (s : Str) (b e : ℕ) :
    ((deleteAt (blockHit tables.toTextTables prop (strippedLines s) b e) 0 (readLines s)).map
        (List.count ':')).sum +
      2 * (deleteAt (fun i => !blockHit tables.toTextTables prop (strippedLines s) b e i) 0
        (readLines s)).length ≤ ((readLines s).map (List.count ':')).sum := by
  rw [← sum_deleteAt (List.count ':') (blockHit tables.toTextTables prop (strippedLines s) b e) 0
    (readLines s)]
  apply Nat.add_le_add_left
  apply length_mul_le_sum
  intro line hLine
  obtain ⟨j, hHit, hj⟩ := mem_deleteAt_not hLine
  rw [Nat.zero_add, blockHit_iff, getD_stripLinesForMatch, List.getD_eq_getElem?_getD, hj] at hHit
  exact colons_of_matchesLine hHit.2.2.2

/-- If clearing writes the page, then every line of what it writes ends in a newline. -/
theorem newlines_of_written (lines : List Str) :
    (lines.map normalizedLine).length ≤ (lines.map normalizedLine).flatten.count '\n' := by
  rw [List.count_flatten]
  rw [← Nat.one_mul (lines.map normalizedLine).length]
  apply length_mul_le_sum
  intro p hp
  obtain ⟨line, _, rfl⟩ := List.mem_map.mp hp
  rw [normalizedLine, List.count_append]
  exact Nat.le_add_left 1 _

theorem newlines_of_line {s line : Str} (h : line ∈ splitlinesKeep s) : line.count '\n' ≤ 1 := by
  rw [count_newline_of_mem_splitlinesKeep h]
  split_ifs
  · exact Nat.le_refl 1
  · exact Nat.zero_le 1

/-- A text has at most as many newlines as lines, and with that many each line ends in one. -/
theorem newlines_le_lines (s : Str) : s.count '\n' ≤ (splitlinesKeep s).length ∧
    ((splitlinesKeep s).length ≤ s.count '\n' →
      ∀ line ∈ splitlinesKeep s, line.getLast? = some '\n') := by
  have hCount : s.count '\n' = ((splitlinesKeep s).map (List.count '\n')).sum := by
    conv_lhs => rw [← flatten_splitlinesKeep s]
    rw [List.count_flatten]
  have hAll {ls : List Str} (hOne : ∀ l ∈ ls, l.count '\n' ≤ 1) :
      (ls.map (List.count '\n')).sum ≤ ls.length ∧
        (ls.length ≤ (ls.map (List.count '\n')).sum → ∀ l ∈ ls, l.count '\n' = 1) := by
    induction ls with
    | nil => simp
    | cons l ls ih =>
        rw [List.forall_mem_cons] at hOne
        obtain ⟨hLe, hEq⟩ := ih hOne.2
        rw [List.map_cons, List.sum_cons, List.length_cons]
        refine ⟨by omega, fun h => List.forall_mem_cons.mpr ⟨by omega, hEq (by omega)⟩⟩
  obtain ⟨hLe, hEq⟩ := hAll fun l hl => newlines_of_line hl
  rw [hCount]
  refine ⟨hLe, fun h line hLine => ?_⟩
  have hOne := hEq h line hLine
  rw [count_newline_of_mem_splitlinesKeep hLine] at hOne
  by_contra hEnd
  rw [if_neg hEnd] at hOne
  cases hOne

/-- Colons and newlines of a flagged page. -/
theorem count_flagged (text : Str) (ins b : ℕ) (hIns : ins ≤ (splitlinesKeep text).length)
    (c : Char) : (((splitlinesKeep text).map fun line =>
        normalizedLine (universalNewlines line)).insertIdx ins
          (hygieneLine prop (strippedLines text) b)).flatten.count c =
      (hygieneLine prop (strippedLines text) b).count c +
        ((splitlinesKeep text).map fun line =>
          (normalizedLine (universalNewlines line)).count c).sum := by
  have hPerm := List.perm_insertIdx (hygieneLine prop (strippedLines text) b)
    ((splitlinesKeep text).map fun line => normalizedLine (universalNewlines line)) (i := ins)
    (by simpa using hIns)
  rw [hPerm.flatten.count_eq, List.flatten_cons, List.count_append, List.count_flatten, List.map_map]
  rfl

/-- What a page consists of after the flag, when there was none. -/
abbrev flaggedPieces (text : Str) (prop : HygieneProperty) (b e : ℕ) : List Str :=
  ((splitlinesKeep text).map fun line => normalizedLine (universalNewlines line)).insertIdx
    (blockPropertyInsertIndex (strippedLines text) b e) (hygieneLine prop (strippedLines text) b)

/-- On a page of plain lines the flag is found again at its place, and nothing else. -/
theorem clear_flagged (h : Located tables.toTextTables text blockUuid b i e)
    (hNone : blockHasProperty tables.toTextTables prop (strippedLines text) b e = false)
    (hPlain : ∀ line ∈ splitlinesKeep text, EndsPlain line) :
    (clearBlockHygieneProperty tables.toTextTables (flaggedPieces text prop b e).flatten blockUuid
      prop).2 = some (splitlinesKeep text) := by
  obtain ⟨hId, hIns, hEnd⟩ := insertIndex_le h
  obtain ⟨hText, hSame⟩ := readLines_of_plain hPlain
  have hLines : readLines text = splitlinesKeep text := by rw [readLines, hText]
  rw [flaggedPieces, hSame]
  -- the flagged page is split into the same lines again
  have hRead : readLines ((splitlinesKeep text).insertIdx
      (blockPropertyInsertIndex (strippedLines text) b e)
      (hygieneLine prop (strippedLines text) b)).flatten =
      (splitlinesKeep text).insertIdx (blockPropertyInsertIndex (strippedLines text) b e)
        (hygieneLine prop (strippedLines text) b) := by
    have hEach : ∀ line ∈ (splitlinesKeep text).insertIdx
        (blockPropertyInsertIndex (strippedLines text) b e)
        (hygieneLine prop (strippedLines text) b), EndsPlain line ∧ Closed line := by
      intro line hLine
      rcases List.eq_or_mem_of_mem_insertIdx hLine with rfl | hOld
      · exact ⟨endsPlain_hygieneLine _, closed_hygieneLine _⟩
      · exact ⟨hPlain line hOld, closed_of_endsPlain hOld (hPlain line hOld)⟩
    rw [readLines, universalNewlines_of_notMem, splitlinesKeep_flatten]
    · exact pageLines_of_closed fun line hLine => (hEach line hLine).2
    · intro hMem
      obtain ⟨line, hLine, hCr⟩ := List.mem_flatten.mp hMem
      exact (hEach line hLine).1.1 hCr
  generalize hIndex : blockPropertyInsertIndex (strippedLines text) b e = ins at *
  have hStripped : strippedLines ((splitlinesKeep text).insertIdx ins
      (hygieneLine prop (strippedLines text) b)).flatten =
      (strippedLines text).insertIdx ins (hygieneText prop (strippedLines text) b) := by
    rw [strippedLines, hRead, stripLinesForMatch_insertIdx, stripLineEndings_hygieneLine,
      strippedLines, hLines]
  have hTextLine : stripLineEndings (hygieneText prop (strippedLines text) b) =
      hygieneText prop (strippedLines text) b := by
    rw [← stripLineEndings_hygieneLine, stripLineEndings_idem]
  have hLocated : Located tables.toTextTables ((splitlinesKeep text).insertIdx ins
      (hygieneLine prop (strippedLines text) b)).flatten blockUuid b i (e + 1) := by
    rw [Located, hStripped]
    exact locateBlockByUuid_insertIdx h hId hIns (by rw [hTextLine, bulletIndent?_hygieneText])
  have hLength : (strippedLines text).length = (splitlinesKeep text).length := by
    rw [strippedLines, stripLinesForMatch, List.length_map, length_readLines]
  rw [length_readLines] at hEnd
  have hbi := (locateBlockByUuid_bounds h).1
  have hOnly : ∀ j, blockHit tables.toTextTables prop ((strippedLines text).insertIdx ins
      (hygieneText prop (strippedLines text) b)) b (e + 1) j = decide (j = 0 + ins) := by
    intro j
    have hNoHit (k : ℕ) : blockHit tables.toTextTables prop (strippedLines text) b e k ≠ true := by
      intro hHit
      rw [blockHasProperty_iff.mpr ⟨k, hHit⟩] at hNone
      cases hNone
    rw [Nat.zero_add, Bool.eq_iff_iff, decide_eq_true_eq, blockHit_iff, List.getD_eq_getElem?_getD,
      List.length_insertIdx_of_le_length (by omega)]
    rcases Nat.lt_trichotomy j ins with hLt | rfl | hGt
    · rw [List.getElem?_insertIdx_of_lt hLt, ← List.getD_eq_getElem?_getD]
      refine iff_of_false ?_ (Nat.ne_of_lt hLt)
      rintro ⟨hStart, _, _, hMatch⟩
      exact hNoHit j (blockHit_iff.mpr ⟨hStart, by omega, by omega, hMatch⟩)
    · rw [List.getElem?_insertIdx_self, if_pos (by omega), Option.getD_some]
      exact iff_of_true ⟨by omega, by omega, by omega, matchesLine_hygieneText⟩ rfl
    · rw [List.getElem?_insertIdx_of_gt hGt, ← List.getD_eq_getElem?_getD]
      refine iff_of_false ?_ (Nat.ne_of_gt hGt)
      rintro ⟨hStart, hStop, hRange, hMatch⟩
      exact hNoHit (j - 1) (blockHit_iff.mpr ⟨by omega, by omega, by omega, hMatch⟩)
  have hHas : blockHasProperty tables.toTextTables prop (strippedLines ((splitlinesKeep text).insertIdx
      ins (hygieneLine prop (strippedLines text) b)).flatten) b (e + 1) = true := by
    rw [hStripped, blockHasProperty_iff]
    exact ⟨ins, by rw [hOnly]; simp⟩
  rw [clear_of_has hLocated hHas, hStripped, funext hOnly, hRead, deleteAt_insertIdx _ (by omega)]
  congr 1
  conv_rhs => rw [← List.map_id (splitlinesKeep text)]
  apply List.map_congr_left
  intro line hLine
  have hWritten := (normalizedLine_universalNewlines_iff hLine).mpr (hPlain line hLine)
  rwa [universalNewlines_of_notMem (hPlain line hLine).1] at hWritten

/-- If the page comes back, then every line of it ends in a plain newline. -/
theorem plain_of_restored (h : Located tables.toTextTables text blockUuid b i e)
    (hBack : pageAfter (flaggedPieces text prop b e).flatten (clearBlockHygieneProperty
      tables.toTextTables (flaggedPieces text prop b e).flatten blockUuid prop).2 = text) :
    ∀ line ∈ splitlinesKeep text, EndsPlain line := by
  obtain ⟨_, hIns, hEnd⟩ := insertIndex_le h
  rw [length_readLines] at hEnd
  have hColons : (flaggedPieces text prop b e).flatten.count ':' = 2 + text.count ':' := by
    rw [flaggedPieces, count_flagged _ _ _ (hIns.trans hEnd), colons_hygieneLine]
    simp only [colons_normalizedLine, colons_universalNewlines]
    rw [← List.count_flatten, flatten_splitlinesKeep]
  have hNewlines : 1 + (splitlinesKeep text).length ≤
      (flaggedPieces text prop b e).flatten.count '\n' := by
    rw [flaggedPieces, count_flagged _ _ _ (hIns.trans hEnd), hygieneLine_eq, List.count_append]
    have hLines : 1 * (splitlinesKeep text).length ≤ ((splitlinesKeep text).map fun line =>
        (normalizedLine (universalNewlines line)).count '\n').sum := by
      apply length_mul_le_sum
      intro line _
      rw [normalizedLine, List.count_append]
      exact Nat.le_add_left 1 _
    have hOne : ['\n'].count '\n' = 1 := rfl
    omega
  generalize (flaggedPieces text prop b e).flatten = flagged at hBack hColons hNewlines
  have hUnchanged (hClear : (clearBlockHygieneProperty tables.toTextTables flagged blockUuid prop).2 =
      none) : False := by
    rw [hClear, pageAfter, piecesAfter, Option.getD_none, flatten_splitlinesKeep] at hBack
    rw [hBack] at hColons
    omega
  cases hLoc : locateBlockByUuid tables.toCaseTables (strippedLines flagged) blockUuid with
  | none =>
      exfalso
      apply hUnchanged
      simp only [clearBlockHygieneProperty, mutateBlockHygieneProperty]
      rw [hLoc]
  | some located =>
      obtain ⟨b', i', e'⟩ := located
      cases hHas : blockHasProperty tables.toTextTables prop (strippedLines flagged) b' e' with
      | false => exact (hUnchanged (clear_of_not_has hLoc hHas)).elim
      | true =>
          rw [clear_of_has hLoc hHas, pageAfter, piecesAfter, Option.getD_some] at hBack
          have hDeleted := colons_deleteAt tables prop flagged b' e'
          rw [← colons_written, hBack, colons_readLines, hColons] at hDeleted
          have hLength := length_deleteAt (blockHit tables.toTextTables prop (strippedLines flagged)
            b' e') 0 (readLines flagged)
          rw [length_readLines] at hLength
          have hWritten := newlines_of_written (deleteAt (blockHit tables.toTextTables prop
            (strippedLines flagged) b' e') 0 (readLines flagged))
          rw [hBack, List.length_map] at hWritten
          have hLines := (newlines_le_lines flagged).1
          have hEnds := (newlines_le_lines text).2 (by omega)
          have hCr : '\r' ∉ text := by
            rw [← hBack]
            intro hMem
            obtain ⟨p, hp, hIn⟩ := List.mem_flatten.mp hMem
            obtain ⟨line, hLine, rfl⟩ := List.mem_map.mp hp
            have hRead := (deleteAt_sublist _ _ _).subset hLine
            rw [readLines, splitlinesKeep_universalNewlines] at hRead
            obtain ⟨old, _, rfl⟩ := List.mem_map.mp hRead
            exact (endsPlain_normalizedLine old).1 hIn
          intro line hLine
          refine ⟨fun hMem => hCr ?_, hEnds line hLine⟩
          rw [← flatten_splitlinesKeep text]
          exact List.mem_flatten.mpr ⟨line, hLine, hMem⟩

/-- Clearing after flagging restores the page exactly when the subtree has no such line and
every line of the page ends in a plain newline. -/
theorem clearRestores_iff (h : Located tables.toTextTables text blockUuid b i e) :
    ClearRestores tables.toTextTables text blockUuid prop ↔
      blockHasProperty tables.toTextTables prop (strippedLines text) b e = false ∧
        ∀ line ∈ splitlinesKeep text, EndsPlain line := by
  cases hHas : blockHasProperty tables.toTextTables prop (strippedLines text) b e with
  | true =>
      refine iff_of_false ?_ fun hCond => Bool.false_ne_true hCond.1.symm
      rw [ClearRestores, flag_of_has h hHas]
      dsimp only [pageAfter, piecesAfter, Option.getD_none]
      rw [flatten_splitlinesKeep, clear_of_has h hHas, Option.getD_some]
      intro hBack
      have hDeleted := colons_deleteAt tables prop text b e
      rw [← colons_written, hBack, colons_readLines] at hDeleted
      obtain ⟨j, hHit⟩ := blockHasProperty_iff.mp hHas
      have hRange : j < (readLines text).length := by
        simpa [stripLinesForMatch] using (blockHit_iff.mp hHit).2.2.1
      have hMem : (readLines text)[j] ∈ deleteAt (fun i =>
          !blockHit tables.toTextTables prop (strippedLines text) b e i) 0 (readLines text) :=
        mem_deleteAt_of_hit (by rwa [Nat.zero_add]) (List.getElem?_eq_getElem hRange)
      have := List.length_pos_of_mem hMem
      omega
  | false =>
      rw [ClearRestores, flag_of_not_has h hHas]
      dsimp only [pageAfter, piecesAfter, Option.getD_some]
      constructor
      · intro hBack
        exact ⟨rfl, plain_of_restored h hBack⟩
      · rintro ⟨_, hPlain⟩
        have hClear := clear_flagged h hHas hPlain
        rw [hClear, Option.getD_some, flatten_splitlinesKeep]

/-- Flagging is an insertion, clearing a removal of own lines, and clearing the inverse of
flagging, each under its own condition on the page and the block. -/
theorem hygiene_iff (tables : PatternTables) (prop : HygieneProperty) (text blockUuid : Str)
    {b i e : ℕ} (h : locateBlockByUuid tables.toCaseTables
      (stripLinesForMatch (splitlinesKeep (universalNewlines text))) blockUuid = some (b, i, e)) :
    (FlagInserts tables.toTextTables text blockUuid prop b ↔
      blockHasProperty tables.toTextTables prop (strippedLines text) b e = false ∧
        (∀ line ∈ splitlinesKeep text, EndsPlain line) ∧
        FirstBulletIndented (readLines text) b e) ∧
    (ClearRemovesOwn tables.toTextTables text blockUuid prop b e ↔
      blockHasProperty tables.toTextTables prop (strippedLines text) b e = false ∨
        (∀ j, blockHit tables.toTextTables prop (strippedLines text) b e j = true →
          blockBulletIndex (strippedLines text) j = some b) ∧
        ∀ line ∈ deleteAt (ownHit tables.toTextTables prop (strippedLines text) b e) 0
          (splitlinesKeep text), EndsPlain line) ∧
    (ClearRestores tables.toTextTables text blockUuid prop ↔
      blockHasProperty tables.toTextTables prop (strippedLines text) b e = false ∧
        ∀ line ∈ splitlinesKeep text, EndsPlain line) :=
  ⟨flagInserts_iff h, clearRemovesOwn_iff h, clearRestores_iff h⟩

/-- The tables of a text of ASCII letters. -/
def asciiPatterns : PatternTables where
  toTextTables := asciiText
  colon_eq c h := by
    simp only [asciiText, asciiCase, Bool.or_eq_true, decide_eq_true_eq, Bool.and_eq_true] at h
    rcases h with h | ⟨_, h⟩
    · exact h.symm
    · by_cases hUpper : c.isUpper = true
      · have hRange := isUpper_iff.mp hUpper
        have hShift := toNat_toLower hUpper
        rw [← h] at hShift
        change 58 = c.toNat + 32 at hShift
        omega
      · rw [toLower_of_not_isUpper hUpper] at h
        exact h.symm

/-- A block with a child, indented with blanks. -/
def blankPage : Str :=
  "- parent\n  id:: 6ba7b810-9dad-41d1-80b4-00c04fd430c8\n  - child\n".toList

theorem hygiene_blankPage : FlagInserts asciiText blankPage sampleId.text .deadLink 0 ∧
    ClearRestores asciiText blankPage sampleId.text .deadLink := by
  have h := hygiene_iff asciiPatterns .deadLink blankPage sampleId.text (b := 0) (i := 1) (e := 3)
    (by decide +kernel)
  have hNone : blockHasProperty asciiText .deadLink (strippedLines blankPage) 0 3 = false := by
    decide +kernel
  have hPlain : ∀ line ∈ splitlinesKeep blankPage, EndsPlain line := by decide +kernel
  have hFirst : FirstBulletIndented (readLines blankPage) 0 3 := by
    unfold FirstBulletIndented
    decide +kernel
  exact ⟨h.1.mpr ⟨hNone, hPlain, hFirst⟩, h.2.2.mpr ⟨hNone, hPlain⟩⟩

/-- A block whose child is flagged. -/
def flaggedChild : Str :=
  "- parent\n  id:: 6ba7b810-9dad-41d1-80b4-00c04fd430c8\n  - child\n    dead-link:: true\n".toList

/-- Clearing the parent takes the flag of its child. -/
theorem flaggedChild_cleared : ¬∀ (tables : PatternTables) (prop : HygieneProperty)
    (text blockUuid : Str) (b i e : ℕ), locateBlockByUuid tables.toCaseTables
      (stripLinesForMatch (splitlinesKeep (universalNewlines text))) blockUuid = some (b, i, e) →
    FlagInserts tables.toTextTables text blockUuid prop b ∧
      ClearRemovesOwn tables.toTextTables text blockUuid prop b e ∧
      ClearRestores tables.toTextTables text blockUuid prop := by
  intro h
  have hCleared := (h asciiPatterns .deadLink flaggedChild sampleId.text 0 1 4
    (by decide +kernel)).2.1
  unfold ClearRemovesOwn at hCleared
  exact absurd hCleared (by decide +kernel)

end Restoring

end Plumber.LinkVerification
