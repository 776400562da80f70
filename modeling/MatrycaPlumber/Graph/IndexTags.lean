import MatrycaPlumber.Graph.SemanticIndex
import MatrycaPlumber.Text.Stripping

/-! The tags of a semantic index section, as they are written and as they are read back. -/
namespace Plumber.SemanticIndex

open PyText

section Tokens

variable (tables : TextTables)

/-- The tags that are read from a text. -/
def tokens (raw : Str) : List Str :=
  (raw.splitOnP isSpace).filterMap fun chunk =>
    let token := lstripChars ['#'] (strip chunk)
    if token = [] then none else some (tables.lower token)

variable {tables}

variable (tables) in
theorem tokens_append_cons {c : Char} (hc : isSpace c = true) (s t : Str) :
    tokens tables (s ++ c :: t) = tokens tables s ++ tokens tables t := by
  rw [tokens, List.splitOnP_append_cons s t hc, List.filterMap_append]
  rfl

theorem tokens_nil : tokens tables [] = [] := rfl

theorem tokens_of_word {s : Str} (h : ∀ c ∈ s, isSpace c = false) :
    tokens tables s =
      if lstripChars ['#'] s = [] then [] else [tables.lower (lstripChars ['#'] s)] := by
  have hSplit : s.splitOnP isSpace = [s] := List.splitOnP_eq_singleton h
  rw [tokens, hSplit, List.filterMap_cons, strip_of_words h]
  split_ifs with hNil
  · simp [hNil]
  · simp [hNil]

variable (tables) in
theorem tokens_blank_append {s : Str} (h : ∀ c ∈ s, isSpace c = true) (t : Str) :
    tokens tables (s ++ t) = tokens tables t := by
  induction s with
  | nil => rfl
  | cons c s ih =>
      rw [List.forall_mem_cons] at h
      have hHead := tokens_append_cons tables h.1 [] (s ++ t)
      rw [List.cons_append, ← List.nil_append (c :: (s ++ t)), hHead, ih h.2]
      rfl

theorem tokens_append_blank {s : Str} (h : ∀ c ∈ s, isSpace c = true) (t : Str) :
    tokens tables (t ++ s) = tokens tables t := by
  cases s with
  | nil => rw [List.append_nil]
  | cons c s =>
      rw [List.forall_mem_cons] at h
      have hRest := tokens_blank_append tables h.2 []
      rw [List.append_nil] at hRest
      rw [tokens_append_cons tables h.1, hRest, tokens_nil, List.append_nil]

theorem tokens_lstrip (s : Str) : tokens tables (lstrip s) = tokens tables s := by
  have hParts : s.takeWhile isSpace ++ lstrip s = s := List.takeWhile_append_dropWhile
  rw [← tokens_blank_append tables (s := s.takeWhile isSpace) (fun c hc => List.mem_takeWhile_imp hc), hParts]

theorem tokens_rstrip (s : Str) : tokens tables (rstrip s) = tokens tables s := by
  have hParts : rstrip s ++ s.rtakeWhile isSpace = s := List.rdropWhile_append_rtakeWhile
  rw [← tokens_append_blank (s := s.rtakeWhile isSpace)
    (fun c hc => List.mem_rtakeWhile_imp hc), hParts]

theorem parseTags_eq_tokens (raw : Str) : parseTags tables raw = tokens tables raw := by
  have hStrip : parseTags tables raw = tokens tables (strip raw) := rfl
  rw [hStrip, strip, tokens_rstrip, tokens_lstrip]

theorem not_isSpace_of_mem_splitOnP {s chunk : Str} (h : chunk ∈ s.splitOnP isSpace) :
    ∀ c ∈ chunk, isSpace c = false := by
  induction s generalizing chunk with
  | nil =>
      rw [List.splitOnP_nil, List.mem_singleton] at h
      rw [h]
      exact List.forall_mem_nil _
  | cons c s ih =>
      rw [List.splitOnP_cons_eq_if_modifyHead] at h
      split_ifs at h with hc
      · cases List.mem_cons.mp h with
        | inl hNil =>
            rw [hNil]
            exact List.forall_mem_nil _
        | inr hRest => exact ih hRest
      · cases hSplit : s.splitOnP isSpace with
        | nil => exact absurd hSplit (List.splitOnP_ne_nil _ _)
        | cons first rest =>
            rw [hSplit] at h ih
            cases List.mem_cons.mp h with
            | inl hFirst =>
                rw [hFirst, List.forall_mem_cons]
                exact ⟨by simpa using hc, ih List.mem_cons_self⟩
            | inr hRest => exact ih (List.mem_cons_of_mem _ hRest)

/-- A tag that is read has a letter and no whitespace. -/
theorem word_of_mem_tokens {raw token : Str} (h : token ∈ tokens tables raw) :
    token ≠ [] ∧ ∀ c ∈ token, isSpace c = false := by
  rw [tokens, List.mem_filterMap] at h
  obtain ⟨chunk, hChunk, hToken⟩ := h
  simp only [Option.ite_none_left_eq_some, Option.some.injEq] at hToken
  obtain ⟨hNe, rfl⟩ := hToken
  have hWord := not_isSpace_of_mem_splitOnP hChunk
  refine ⟨fun hNil => hNe (tables.lower_eq_nil _ hNil), ?_⟩
  intro c hc
  by_contra hSpace
  rw [Bool.not_eq_false] at hSpace
  obtain ⟨d, hd, hSpace⟩ := (tables.lower_isSpace _).mp ⟨c, hc, hSpace⟩
  have hMem : d ∈ chunk := by
    rw [strip_of_words hWord] at hd
    exact (List.dropWhile_suffix _).subset hd
  rw [hWord d hMem] at hSpace
  cases hSpace

end Tokens

section Rows

variable {tables : TextTables}

/-- A tag that is kept by the line: blank, or one word with more than its `#`. -/
def TagKept (tag : Str) : Prop :=
  strip tag = [] ∨ (∀ c ∈ tag, isSpace c = false) ∧ lstripChars ['#'] tag ≠ []
  deriving Decidable

/-- The tags that are read back as they are: from a line break on, all are blank. -/
def TagsReadable (tags : List Str) : Prop :=
  (∀ tag ∈ tags, TagKept tag) ∧ ∀ tag ∈ tags.dropWhile ('\n' ∉ ·), strip tag = []
  deriving Decidable

def tagsText (tags : List Str) : Str := join [' '] (tags.map hashTag)

variable (tables) in
theorem rowTags_append (tags more : List Str) :
    rowTags tables (tags ++ more) = rowTags tables tags ++ rowTags tables more :=
  List.filterMap_append

theorem rowTags_eq_nil_iff {tags : List Str} :
    rowTags tables tags = [] ↔ ∀ tag ∈ tags, strip tag = [] := by
  rw [rowTags, List.filterMap_eq_nil_iff]
  refine forall₂_congr fun tag _ => ?_
  split_ifs with hBlank
  · simp [hBlank]
  · simp [hBlank]

theorem strip_eq_nil_iff {s : Str} : strip s = [] ↔ ∀ c ∈ s, isSpace c = true := by
  rw [← isBlank_iff_strip_eq_nil, isBlank, List.all_eq_true]

variable (tables) in
/-- Rows that could have been read come from tags that are kept. -/
theorem tagKept_of_rowTags {tags : List Str} (h : ∀ row ∈ rowTags tables tags, row ≠ [] ∧
    ∀ c ∈ row, isSpace c = false) : ∀ tag ∈ tags, TagKept tag := by
  intro tag hTag
  by_cases hBlank : strip tag = []
  · exact .inl hBlank
  · right
    have hRow : tables.lower (lstripChars ['#'] tag) ∈ rowTags tables tags :=
      List.mem_filterMap.mpr ⟨tag, hTag, if_neg hBlank⟩
    obtain ⟨hNe, hWord⟩ := h _ hRow
    constructor
    · intro c hc
      by_contra hSpace
      rw [Bool.not_eq_false] at hSpace
      have hStripped : c ∈ lstripChars ['#'] tag := by
        rw [← List.takeWhile_append_dropWhile (p := fun c => List.contains ['#'] c) (l := tag),
          List.mem_append] at hc
        cases hc with
        | inl hHash =>
            have hHash := List.mem_takeWhile_imp hHash
            simp only [List.contains_cons, List.contains_nil, Bool.or_false, beq_iff_eq] at hHash
            rw [hHash] at hSpace
            exact absurd hSpace (by decide)
        | inr hRest => exact hRest
      obtain ⟨d, hd, hSpace⟩ := (tables.lower_isSpace _).mpr ⟨c, hStripped, hSpace⟩
      rw [hWord d hd] at hSpace
      cases hSpace
    · intro hNil
      rw [hNil] at hNe
      exact hNe (tables.lower_ascii [] (by simp))

theorem hashTag_of_blank {tag : Str} (h : strip tag = []) : hashTag tag = '#' :: tag := by
  rw [strip_eq_nil_iff] at h
  have hHash : ∀ c ∈ tag, c ≠ '#' := by
    rintro c hc rfl
    exact absurd (h '#' hc) (by decide)
  cases tag with
  | nil => rfl
  | cons c tag =>
      have hc := hHash c List.mem_cons_self
      have hStart : startsWith ['#'] (c :: tag) = false := by
        simp [startsWith, dropPrefix?, hc.symm]
      rw [hashTag, hStart, lstripChars, List.dropWhile_cons_of_neg (by simpa using hc)]
      rfl

theorem hashTag_cons (tag : Str) : ∃ rest, hashTag tag = '#' :: rest := by
  rw [hashTag]
  split_ifs with hStart
  · obtain ⟨rest, hRest⟩ := startsWith_iff.mp hStart
    exact ⟨rest, hRest.symm⟩
  · exact ⟨_, rfl⟩

theorem mem_hashTag {tag : Str} {c : Char} (h : c ∈ hashTag tag) : c = '#' ∨ c ∈ tag := by
  rw [hashTag] at h
  split_ifs at h
  · exact .inr h
  · exact (List.mem_cons.mp h).imp_right fun hc => (List.dropWhile_suffix _).subset hc

theorem lstripChars_hashTag (tag : Str) :
    lstripChars ['#'] (hashTag tag) = lstripChars ['#'] tag := by
  rw [hashTag]
  split_ifs
  · rfl
  · rw [lstripChars, List.dropWhile_cons_of_pos (by decide), lstripChars, List.dropWhile_idempotent]

theorem tokens_hashTag {tag : Str} (h : TagKept tag) :
    tokens tables (hashTag tag) = rowTags tables [tag] := by
  by_cases hBlank : strip tag = []
  · have hTag : tokens tables (hashTag tag) = tokens tables (['#'] ++ tag) := by
      rw [hashTag_of_blank hBlank]
      rfl
    rw [hTag, tokens_append_blank (strip_eq_nil_iff.mp hBlank), rowTags_eq_nil_iff.mpr (by simpa)]
    rfl
  · obtain ⟨hWord, hLetters⟩ := h.resolve_left hBlank
    have hHashed : ∀ c ∈ hashTag tag, isSpace c = false := by
      intro c hc
      cases mem_hashTag hc with
      | inl hHash =>
          rw [hHash]
          rfl
      | inr hTag => exact hWord c hTag
    rw [tokens_of_word hHashed, lstripChars_hashTag, if_neg hLetters]
    simp [rowTags, hBlank]

theorem newline_of_tagKept {tag : Str} (h : TagKept tag) (hBreak : '\n' ∈ tag) : strip tag = [] := by
  cases h with
  | inl hBlank => exact hBlank
  | inr hWord => exact absurd (hWord.1 '\n' hBreak) (by decide)

theorem newline_notMem_hashTag {tag : Str} (h : '\n' ∉ tag) : '\n' ∉ hashTag tag := by
  intro hMem
  cases mem_hashTag hMem with
  | inl hHash => exact absurd hHash (by decide)
  | inr hTag => exact h hTag

theorem tagsText_cons (tag : Str) {tags : List Str} (h : tags ≠ []) :
    tagsText (tag :: tags) = hashTag tag ++ ' ' :: tagsText tags := by
  cases tags with
  | nil => exact absurd rfl h
  | cons next tags =>
      show hashTag tag ++ [' '] ++ _ = _
      rw [List.append_assoc]
      rfl

variable (tables) in
/-- Nothing is read of a tag with a line break and of what follows it. -/
theorem tokens_of_break {tag : Str} (h : TagKept tag) (hBreak : '\n' ∈ tag) (rest : Str) :
    tokens tables (firstLine (hashTag tag ++ rest)) = [] := by
  have hBlank := newline_of_tagKept h hBreak
  have hMem : '\n' ∈ hashTag tag := by
    rw [hashTag_of_blank hBlank]
    exact List.mem_cons_of_mem _ hBreak
  have hLine : firstLine ('#' :: tag) = ['#'] ++ firstLine tag := rfl
  rw [firstLine_append_of_mem hMem, hashTag_of_blank hBlank, hLine, tokens_append_blank]
  · rfl
  · intro c hc
    exact strip_eq_nil_iff.mp hBlank c ((List.takeWhile_prefix _).subset hc)

/-- Of kept tags, those are read that come before the first line break. -/
theorem tokens_tagsText {tags : List Str} (h : ∀ tag ∈ tags, TagKept tag) :
    tokens tables (firstLine (tagsText tags)) =
      rowTags tables (tags.takeWhile ('\n' ∉ ·)) := by
  induction tags with
  | nil => rfl
  | cons tag tags ih =>
      rw [List.forall_mem_cons] at h
      by_cases hBreak : '\n' ∈ tag
      · rw [List.takeWhile_cons_of_neg (by simpa using hBreak)]
        by_cases hLast : tags = []
        · have hRead := tokens_of_break tables h.1 hBreak []
          rw [List.append_nil] at hRead
          rw [hLast]
          exact hRead
        · rw [tagsText_cons tag hLast]
          exact tokens_of_break tables h.1 hBreak _
      · have hTag := newline_notMem_hashTag hBreak
        rw [List.takeWhile_cons_of_pos (by simpa using hBreak)]
        by_cases hLast : tags = []
        · have hText : tagsText [tag] = hashTag tag := rfl
          rw [hLast, hText, firstLine_of_notMem hTag, tokens_hashTag h.1]
          rfl
        · have hCons := rowTags_append tables [tag] (tags.takeWhile ('\n' ∉ ·))
          have hLine : firstLine (' ' :: tagsText tags) = ' ' :: firstLine (tagsText tags) := rfl
          rw [tagsText_cons tag hLast, firstLine_append_of_notMem hTag, hLine,
            tokens_append_cons tables (by decide), ih h.2, tokens_hashTag h.1]
          exact hCons.symm

/-- The line says exactly the tags of the row if and only if the tags can be read. -/
theorem tokens_tagsText_eq_iff {tags : List Str} :
    tokens tables (firstLine (tagsText tags)) = rowTags tables tags ↔ TagsReadable tags := by
  have hParts := rowTags_append tables (tags.takeWhile ('\n' ∉ ·))
    (tags.dropWhile ('\n' ∉ ·))
  rw [List.takeWhile_append_dropWhile] at hParts
  constructor
  · intro hEq
    have hKept : ∀ tag ∈ tags, TagKept tag := by
      apply tagKept_of_rowTags tables
      intro row hRow
      rw [← hEq] at hRow
      exact word_of_mem_tokens hRow
    refine ⟨hKept, ?_⟩
    rw [tokens_tagsText hKept, hParts] at hEq
    exact rowTags_eq_nil_iff.mp (List.append_right_eq_self.mp hEq.symm)
  · intro hReadable
    rw [tokens_tagsText hReadable.1, hParts, rowTags_eq_nil_iff.mpr hReadable.2, List.append_nil]

end Rows

end Plumber.SemanticIndex
