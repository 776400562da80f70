import MatrycaPlumber.Graph.IndexTags
import MatrycaPlumber.Text.NonblankLines

/-! What is read back of a page to which a semantic index section was appended. -/
namespace Plumber.SemanticIndex

open PyText MarkdownBlocks MasterCatalog

section Keys

variable {tables : TextTables}

theorem eqIgnoreCase_of_ne {p c : Char} (hAscii : c.toNat < 128) (hAlpha : c.isAlpha = false)
    (hNe : p ≠ c) : tables.eqIgnoreCase p c = false := by
  rw [← Bool.not_eq_true]
  exact fun hEq => hNe (tables.eq_of_not_alpha p c hAscii hAlpha hEq)

theorem dropPrefixIgnoreCase_of_head {p c : Char} (h : tables.eqIgnoreCase p c = false)
    (key rest : Str) : dropPrefixIgnoreCase? tables.toCaseTables (p :: key) (c :: rest) = none := by
  rw [dropPrefixIgnoreCase?, h]
  rfl

theorem dropPrefixIgnoreCase_of_ne {p c : Char} (h : tables.eqIgnoreCase p c = false)
    (common other : Str) (hLength : common.length = other.length) (key rest : Str) :
    dropPrefixIgnoreCase? tables.toCaseTables (common ++ p :: key) (other ++ c :: rest) = none := by
  induction common generalizing other with
  | nil =>
      obtain rfl := List.length_eq_zero_iff.mp hLength.symm
      exact dropPrefixIgnoreCase_of_head h key rest
  | cons d common ih =>
      cases other with
      | nil => cases hLength
      | cons e other =>
          rw [List.cons_append, List.cons_append, dropPrefixIgnoreCase?]
          split_ifs
          · exact ih other (Nat.succ.inj hLength)
          · rfl

/-- A key does not go on in the next line. -/
theorem dropPrefixIgnoreCase_append_newline {key : Str} (hKey : '\n' ∉ key) (s rest : Str) :
    dropPrefixIgnoreCase? tables.toCaseTables key (s ++ '\n' :: rest) =
      (dropPrefixIgnoreCase? tables.toCaseTables key s).map (· ++ '\n' :: rest) := by
  induction key generalizing s with
  | nil => rfl
  | cons p key ih =>
      rw [List.mem_cons, not_or] at hKey
      cases s with
      | nil =>
          have hBreak : tables.eqIgnoreCase p '\n' = false :=
            eqIgnoreCase_of_ne (by decide) (by decide) (Ne.symm hKey.1)
          exact dropPrefixIgnoreCase_of_head hBreak key rest
      | cons c s =>
          rw [List.cons_append, dropPrefixIgnoreCase?, dropPrefixIgnoreCase?, ih hKey.2]
          split_ifs <;> rfl

theorem dropPrefixIgnoreCase_self {key : Str} (hKey : ∀ c ∈ key, c.toNat < 128) (rest : Str) :
    dropPrefixIgnoreCase? tables.toCaseTables key (key ++ rest) = some rest := by
  induction key with
  | nil => rfl
  | cons c key ih =>
      rw [List.forall_mem_cons] at hKey
      have hSame := (tables.eq_ascii c c hKey.1 hKey.1).mpr rfl
      rw [List.cons_append, dropPrefixIgnoreCase?, if_pos hSame, ih hKey.2]

end Keys

section Above

variable {tables : TextTables}

theorem capturedText_above (v : Str) {c : Char} (hc : isSpace c = false) (rest : Str) :
    capturedText (v ++ '\n' :: c :: rest) =
      some (rstrip (if lstrip v = [] then firstLine (c :: rest) else firstLine (lstrip v))) := by
  have hNext : lstrip ('\n' :: c :: rest) = c :: rest := by
    rw [lstrip, List.dropWhile_cons_of_pos (by decide)]
    exact lstrip_cons_of_not_isSpace hc rest
  rw [capturedText]
  by_cases hBlank : lstrip v = []
  · rw [lstrip_append_of_blank hBlank, hNext, if_pos hBlank, if_neg (List.cons_ne_nil c rest)]
  · rw [lstrip_append_of_ne hBlank, if_neg hBlank, firstLine_append_cons, if_neg]
    simp

/-- What a bullet pattern captures from a position above a line that starts with `- #`. -/
def bulletAbove (tables : TextTables) (key s line : Str) : Option Str :=
  match lstrip s with
  | '-' :: rest =>
      (dropPrefixIgnoreCase? tables.toCaseTables key (lstrip rest)).map fun value =>
        rstrip (if lstrip value = [] then line else firstLine (lstrip value))
  | _ => none

variable (tables) in
theorem bulletValue_above {p : Char} {key : Str} (hHash : p ≠ '#') (hDash : p ≠ '-')
    (hBreak : '\n' ∉ p :: key) (s rest : Str) :
    bulletValue tables (p :: key) (s ++ '\n' :: '-' :: ' ' :: '#' :: rest) =
      bulletAbove tables (p :: key) s (firstLine ('-' :: ' ' :: '#' :: rest)) := by
  have hHash : tables.eqIgnoreCase p '#' = false := eqIgnoreCase_of_ne (by decide) (by decide) hHash
  have hDash : tables.eqIgnoreCase p '-' = false := eqIgnoreCase_of_ne (by decide) (by decide) hDash
  rw [bulletValue, bulletAbove]
  cases hText : lstrip s with
  | nil =>
      have hHead : lstrip (s ++ '\n' :: '-' :: ' ' :: '#' :: rest) = '-' :: ' ' :: '#' :: rest :=
        lstrip_append_of_blank hText
      have hTail : lstrip (' ' :: '#' :: rest) = '#' :: rest := rfl
      rw [hHead]
      simp only [hTail, dropPrefixIgnoreCase_of_head hHash, Option.bind_none]
  | cons c t =>
      rw [lstrip_append_of_ne (by rw [hText]; exact List.cons_ne_nil c t), hText, List.cons_append]
      by_cases hBullet : c = '-'
      · subst hBullet
        simp only
        by_cases hRest : lstrip t = []
        · have hHead : lstrip (t ++ '\n' :: '-' :: ' ' :: '#' :: rest) = '-' :: ' ' :: '#' :: rest :=
            lstrip_append_of_blank hRest
          rw [hHead, dropPrefixIgnoreCase_of_head hDash, hRest]
          rfl
        · rw [lstrip_append_of_ne hRest, dropPrefixIgnoreCase_append_newline hBreak]
          cases dropPrefixIgnoreCase? tables.toCaseTables (p :: key) (lstrip t) with
          | none => rfl
          | some value => exact capturedText_above value (by decide) _
      · simp [hBullet]

theorem lstrip_newline_cons (s : Str) : lstrip ('\n' :: s) = lstrip s :=
  List.dropWhile_cons_of_pos (by decide)

theorem capturedWord_append {rest : Str} (hRest : capturedWord rest = none) (v : Str) :
    capturedWord (v ++ '\n' :: rest) = capturedWord v := by
  rw [capturedWord, capturedWord]
  by_cases hBlank : lstrip v = []
  · rw [lstrip_append_of_blank hBlank, lstrip_newline_cons, hBlank, ← capturedWord, hRest]
    rfl
  · have hWord : (lstrip v ++ '\n' :: rest).takeWhile (fun c => !isSpace c) =
        (lstrip v).takeWhile fun c => !isSpace c := takeWhile_append_cons (by decide) _ _
    have hLength : ((lstrip v).takeWhile fun c => !isSpace c).length ≤ (lstrip v).length :=
      (List.takeWhile_prefix _).length_le
    rw [lstrip_append_of_ne hBlank, hWord]
    simp only [List.drop_append_of_le_length hLength, firstLine_append_cons]

/-- A `type::` line does not look past its end, unless its value follows. -/
theorem typeValue_append {rest : Str}
    (hType : dropPrefixIgnoreCase? tables.toCaseTables "type::".toList (lstrip rest) = none)
    (hWord : capturedWord rest = none) (s : Str) :
    typeValue tables (s ++ '\n' :: rest) = typeValue tables s := by
  rw [typeValue, typeValue]
  by_cases hBlank : lstrip s = []
  · rw [lstrip_append_of_blank hBlank, lstrip_newline_cons, hType, hBlank]
    rfl
  · rw [lstrip_append_of_ne hBlank, dropPrefixIgnoreCase_append_newline (by decide)]
    cases dropPrefixIgnoreCase? tables.toCaseTables "type::".toList (lstrip s) with
    | none => rfl
    | some value => exact capturedWord_append hWord value

end Above

section Written

variable {tables : TextTables}

/-- The page without the line breaks at its end, which the section follows. -/
def pageText (prev : Str) : Str := rstripChars ['\n'] prev

def indexedAtLine (stamp : Stamp) : Str := "- indexed-at:: ".toList ++ stamp.text

/-- The lines of the section below the summary. -/
def tagsPart (summary : BootstrapSummaryResult) : Str :=
  if summary.suggestedTags = [] then [] else indexTagsLine summary ++ ['\n']

def writtenText (stamp : Stamp) (prev : Str) (summary : BootstrapSummaryResult) : Str :=
  pageText prev ++ '\n' :: (semanticIndexHeader ++ '\n' :: (indexedAtLine stamp ++
    '\n' :: (indexSummaryLine summary ++ '\n' :: tagsPart summary)))

theorem join_lines (a b c : Str) (more : List Str) :
    join ['\n'] ([[], a, b, c] ++ more ++ [[]]) =
      '\n' :: (a ++ '\n' :: (b ++ '\n' :: (c ++ '\n' :: join ['\n'] (more ++ [[]])))) := by
  cases more with
  | nil => simp [join]
  | cons d more => simp [join]

theorem appendMinimalSemanticIndex_eq (stamp : Stamp) {prev : Str}
    (summary : BootstrapSummaryResult) (hBlank : isBlank prev = false)
    (hHeader : ¬semanticIndexHeader <:+: prev) :
    appendMinimalSemanticIndex stamp prev summary = some (writtenText stamp prev summary) := by
  have hTags : join ['\n'] ((if summary.suggestedTags = [] then [] else [indexTagsLine summary]) ++
      [[]]) = tagsPart summary := by
    rw [tagsPart]
    split_ifs
    · rfl
    · exact List.append_nil _
  rw [appendMinimalSemanticIndex, hBlank, if_neg Bool.false_ne_true, if_neg hHeader,
    formatMinimalIndexSection, join_lines, hTags]
  rfl

theorem not_isLineBreak_twoDigits (n : Nat) : ∀ c ∈ twoDigits n, isLineBreak c = false := by
  have hDigits : ∀ k < 10, isLineBreak (Char.ofNat (48 + k)) = false := by decide
  simp only [twoDigits, digit, List.forall_mem_cons, List.not_mem_nil, IsEmpty.forall_iff,
    implies_true, and_true]
  exact ⟨hDigits _ (Nat.mod_lt _ (by decide)), hDigits _ (Nat.mod_lt _ (by decide))⟩

theorem not_isLineBreak_stamp (stamp : Stamp) : ∀ c ∈ stamp.text, isLineBreak c = false := by
  have hMarks : isLineBreak '-' = false ∧ isLineBreak ' ' = false ∧ isLineBreak ':' = false := by
    decide
  have hZone : ∀ c ∈ " UTC".toList, isLineBreak c = false := by decide
  rw [Stamp.text]
  simp only [List.forall_mem_append, List.forall_mem_cons]
  exact ⟨⟨⟨⟨⟨⟨not_isLineBreak_twoDigits _, not_isLineBreak_twoDigits _⟩, hMarks.1,
    not_isLineBreak_twoDigits _⟩, hMarks.1, not_isLineBreak_twoDigits _⟩, hMarks.2.1,
    not_isLineBreak_twoDigits _⟩, hMarks.2.2, not_isLineBreak_twoDigits _⟩, hZone⟩

theorem not_isLineBreak_indexedAtLine (stamp : Stamp) :
    ∀ c ∈ indexedAtLine stamp, isLineBreak c = false := by
  intro c hc
  cases List.mem_append.mp hc with
  | inl hKey =>
      have hFree : ∀ d ∈ "- indexed-at:: ".toList, isLineBreak d = false := by decide
      exact hFree c hKey
  | inr hStamp => exact not_isLineBreak_stamp stamp c hStamp

theorem newline_notMem_indexedAtLine (stamp : Stamp) : '\n' ∉ indexedAtLine stamp :=
  fun hMem => absurd (not_isLineBreak_indexedAtLine stamp _ hMem) (by decide)

theorem bulletValue_of_head {p c : Char} (hc : isSpace c = false)
    (h : tables.eqIgnoreCase p c = false) (key rest : Str) :
    bulletValue tables (p :: key) ('-' :: ' ' :: c :: rest) = none := by
  have hTail : lstrip (' ' :: c :: rest) = c :: rest := by
    rw [lstrip, List.dropWhile_cons_of_pos (by decide)]
    exact lstrip_cons_of_not_isSpace hc rest
  have hHead : lstrip ('-' :: ' ' :: c :: rest) = '-' :: ' ' :: c :: rest := rfl
  rw [bulletValue, hHead]
  simp only [hTail, dropPrefixIgnoreCase_of_head h, Option.bind_none]

/-- The search for a bullet goes on below the stamp, if nothing is found in the page. -/
theorem searchLines_written {p : Char} {key : Str} (hHash : p ≠ '#') (hDash : p ≠ '-')
    (hIndexed : tables.eqIgnoreCase p 'i' = false) (hBreak : '\n' ∉ p :: key) (stamp : Stamp)
    (prev : Str) (summary : BootstrapSummaryResult) :
    searchLines (bulletValue tables (p :: key)) true (writtenText stamp prev summary) =
      (searchLines (bulletValue tables (p :: key)) true
        (pageText prev ++ '\n' :: semanticIndexHeader)).or
      (searchLines (bulletValue tables (p :: key)) true
        (indexSummaryLine summary ++ '\n' :: tagsPart summary)) := by
  have hHashed : tables.eqIgnoreCase p '#' = false :=
    eqIgnoreCase_of_ne (by decide) (by decide) hHash
  rw [writtenText, searchLines_append semanticIndexHeader (by decide)]
  · rw [searchLines_line (newline_notMem_indexedAtLine stamp)]
    have hStamp : bulletValue tables (p :: key) (indexedAtLine stamp ++ '\n' ::
        (indexSummaryLine summary ++ '\n' :: tagsPart summary)) = none :=
      bulletValue_of_head (by decide) hIndexed key _
    rw [hStamp]
    rfl
  · intro s
    have hLine := bulletValue_above tables hHash hDash hBreak s
    have hEnd : firstLine (semanticIndexHeader ++ '\n' :: (indexedAtLine stamp ++ '\n' ::
        (indexSummaryLine summary ++ '\n' :: tagsPart summary))) = firstLine semanticIndexHeader :=
      firstLine_append_cons _ _
    exact (hLine _).trans ((congrArg _ hEnd).trans (hLine _).symm)
  · exact bulletValue_of_head (by decide) hHashed key _
  · exact bulletValue_of_head (by decide) hHashed key _

end Written

section Summary

variable {tables : TextTables} {stamp : Stamp} {prev : Str} {summary : BootstrapSummaryResult}

/-- What a search for a summary finds in the page, with the heading line below it. -/
def summaryAbove (tables : TextTables) (prev : Str) : Option Str :=
  summaryLine tables (pageText prev ++ '\n' :: semanticIndexHeader)

variable (tables) in
/-- A line of the section, as its pattern reads it. -/
theorem bulletValue_line {key value : Str} (hAscii : ∀ c ∈ key, c.toNat < 128) (hKey : key ≠ [])
    (hWord : ∀ c ∈ key, isSpace c = false) (hValue : lstrip value ≠ []) :
    bulletValue tables key ('-' :: ' ' :: (key ++ ' ' :: value)) =
      some (rstrip (firstLine (lstrip value))) := by
  have hHead : lstrip ('-' :: ' ' :: (key ++ ' ' :: value)) = '-' :: ' ' :: (key ++ ' ' :: value) :=
    lstrip_cons_of_not_isSpace (by decide) _
  have hSpace : ∀ t, lstrip (' ' :: t) = lstrip t := fun t =>
    List.dropWhile_cons_of_pos (by decide)
  have hSelf : lstrip key = key := by
    cases key with
    | nil => rfl
    | cons c key => exact lstrip_cons_of_not_isSpace (hWord c List.mem_cons_self) key
  have hRest : lstrip (' ' :: (key ++ ' ' :: value)) = key ++ ' ' :: value := by
    rw [hSpace, lstrip_append_of_ne (by rwa [hSelf]), hSelf]
  rw [bulletValue, hHead]
  simp only [hRest, dropPrefixIgnoreCase_self hAscii, Option.bind_some]
  rw [capturedText_of_lstrip, hSpace]
  rwa [hSpace]

theorem keyLine_append {line key : Str} (hKey : line = '-' :: ' ' :: (key ++ [' ']))
    (value rest : Str) : line ++ value ++ rest = '-' :: ' ' :: (key ++ ' ' :: (value ++ rest)) := by
  rw [hKey]
  simp

theorem indexSummaryLine_append (rest : Str) : indexSummaryLine summary ++ rest =
    '-' :: ' ' :: ("summary::".toList ++ ' ' :: (strip summary.summary ++ rest)) :=
  keyLine_append (by decide) (strip summary.summary) rest

variable (tables) in
theorem bulletValue_indexSummaryLine (hSummary : strip summary.summary ≠ []) (rest : Str) :
    bulletValue tables "summary::".toList (indexSummaryLine summary ++ '\n' :: rest) =
      some (rstrip (firstLine (strip summary.summary))) := by
  have hText := lstrip_strip_append hSummary ('\n' :: rest)
  have hValue : lstrip (strip summary.summary ++ '\n' :: rest) ≠ [] := by
    rw [hText]
    exact List.append_ne_nil_of_left_ne_nil hSummary _
  have hAscii : ∀ c ∈ "summary::".toList, c.toNat < 128 := by decide
  have hWord : ∀ c ∈ "summary::".toList, isSpace c = false := by decide
  have hLine := bulletValue_line tables hAscii (by decide) hWord hValue
  rw [indexSummaryLine_append, hLine, hText, firstLine_append_cons]

theorem summaryLine_written (hSummary : strip summary.summary ≠ []) :
    summaryLine tables (writtenText stamp prev summary) =
      (summaryAbove tables prev).or (some (rstrip (firstLine (strip summary.summary)))) := by
  have hLetter : tables.eqIgnoreCase 's' 'i' = false := by
    rw [← Bool.not_eq_true, tables.eq_ascii _ _ (by decide) (by decide)]
    decide
  have hSection := searchLines_of_some
    (bulletValue_indexSummaryLine tables hSummary (tagsPart summary))
  rw [summaryLine, summaryAbove, ← hSection]
  exact searchLines_written (by decide) (by decide) hLetter (by decide) stamp prev summary

/-- Where the summary is read back: a bullet of the page that looks like it says the same,
or there is none and the summary is one line. -/
def SummaryKept (tables : TextTables) (prev : Str) (summary : BootstrapSummaryResult) : Prop :=
  match summaryAbove tables prev with
  | some value => strip value = strip summary.summary
  | none => '\n' ∉ strip summary.summary

instance : Decidable (SummaryKept tables prev summary) := by
  unfold SummaryKept
  exact match summaryAbove tables prev with
    | some _ => inferInstance
    | none => inferInstance

variable (stamp) in
/-- The summary is read back exactly where it is kept. -/
theorem strip_summaryLine_eq_iff (hSummary : strip summary.summary ≠ []) :
    (∃ raw, summaryLine tables (writtenText stamp prev summary) = some raw ∧
      strip raw = strip summary.summary) ↔ SummaryKept tables prev summary := by
  rw [summaryLine_written hSummary, SummaryKept]
  cases summaryAbove tables prev with
  | some value => simp
  | none =>
      simp only [Option.none_or, Option.some.injEq, exists_eq_left']
      constructor
      · intro hEq
        rw [← hEq]
        intro hMem
        exact newline_notMem_firstLine _ ((List.rdropWhile_prefix _ _).subset
          ((strip_isInfix _).subset hMem))
      · intro hLine
        rw [firstLine_of_notMem hLine, rstrip_strip, strip_strip]

end Summary

section Tags

variable {tables : TextTables} {stamp : Stamp} {prev : Str} {summary : BootstrapSummaryResult}

/-- What a search for tags finds in the page, with the heading line below it. -/
def tagsAbove (tables : TextTables) (prev : Str) : Option Str :=
  tagsLine tables (pageText prev ++ '\n' :: semanticIndexHeader)

theorem newline_notMem_indexSummaryLine (h : '\n' ∉ strip summary.summary) :
    '\n' ∉ indexSummaryLine summary := by
  intro hMem
  cases List.mem_append.mp hMem with
  | inl hKey => exact absurd hKey (by decide)
  | inr hSummary => exact h hSummary

theorem eqIgnoreCase_letters {p c : Char} (hp : p.toNat < 128) (hc : c.toNat < 128)
    (hNe : p.toLower ≠ c.toLower) : tables.eqIgnoreCase p c = false := by
  rw [← Bool.not_eq_true, tables.eq_ascii p c hp hc]
  exact hNe

/-- The summary line is none with tags. -/
theorem bulletValue_tags_indexSummaryLine (rest : Str) :
    bulletValue tables "suggested-tags::".toList (indexSummaryLine summary ++ rest) = none := by
  have hLetter : tables.eqIgnoreCase 'g' 'm' = false :=
    eqIgnoreCase_letters (by decide) (by decide) (by decide)
  have hHead : ∀ t, lstrip ('-' :: t) = '-' :: t :=
    fun t => lstrip_cons_of_not_isSpace (by decide) t
  have hTail : ∀ t, lstrip (' ' :: 's' :: t) = 's' :: t :=
    fun t => (List.dropWhile_cons_of_pos (by decide)).trans
      (lstrip_cons_of_not_isSpace (by decide) t)
  obtain ⟨key, hKey⟩ : ∃ key, "suggested-tags::".toList = ['s', 'u'] ++ 'g' :: key :=
    ⟨"gested-tags::".toList, by decide⟩
  obtain ⟨text, hText⟩ : ∃ text, "summary::".toList = ['s', 'u'] ++ 'm' :: text :=
    ⟨"mary::".toList, by decide⟩
  rw [indexSummaryLine_append, hText, bulletValue, hHead, hKey]
  simp only [List.cons_append, List.nil_append, hTail]
  exact congrArg (Option.bind · capturedText)
    (dropPrefixIgnoreCase_of_ne hLetter ['s', 'u'] ['s', 'u'] rfl key _)

theorem lstrip_tagsText {tags : List Str} (h : tags ≠ []) (rest : Str) :
    lstrip (tagsText tags ++ rest) = tagsText tags ++ rest := by
  have hHash : ∃ text, tagsText tags = '#' :: text := by
    cases tags with
    | nil => exact absurd rfl h
    | cons tag tags =>
        obtain ⟨text, hText⟩ := hashTag_cons tag
        by_cases hLast : tags = []
        · exact ⟨text, by rw [hLast]; exact hText⟩
        · exact ⟨text ++ ' ' :: tagsText tags, by rw [tagsText_cons tag hLast, hText]; rfl⟩
  obtain ⟨text, hText⟩ := hHash
  rw [hText]
  exact lstrip_cons_of_not_isSpace (by decide) _

theorem indexTagsLine_append (rest : Str) : indexTagsLine summary ++ rest =
    '-' :: ' ' :: ("suggested-tags::".toList ++ ' ' :: (tagsText summary.suggestedTags ++ rest)) :=
  keyLine_append (by decide) (tagsText summary.suggestedTags) rest

/-- The tags line of the section, as it is read. -/
theorem searchLines_tagsPart :
    searchLines (bulletValue tables "suggested-tags::".toList) true (tagsPart summary) =
      if summary.suggestedTags = [] then none
      else some (rstrip (firstLine (tagsText summary.suggestedTags))) := by
  rw [tagsPart]
  split_ifs with hTags
  · rfl
  · apply searchLines_of_some
    have hText := lstrip_tagsText hTags ['\n']
    have hValue : lstrip (tagsText summary.suggestedTags ++ ['\n']) ≠ [] := by
      rw [hText]
      exact List.append_ne_nil_of_right_ne_nil _ (List.cons_ne_nil _ _)
    have hAscii : ∀ c ∈ "suggested-tags::".toList, c.toNat < 128 := by decide
    have hWord : ∀ c ∈ "suggested-tags::".toList, isSpace c = false := by decide
    have hLine := bulletValue_line tables hAscii (by decide) hWord hValue
    rw [indexTagsLine_append, hLine, hText, firstLine_append_cons]

theorem tagsLine_written (hSummary : '\n' ∉ strip summary.summary) :
    tagsLine tables (writtenText stamp prev summary) =
      (tagsAbove tables prev).or (if summary.suggestedTags = [] then none
        else some (rstrip (firstLine (tagsText summary.suggestedTags)))) := by
  have hLetter : tables.eqIgnoreCase 's' 'i' = false :=
    eqIgnoreCase_letters (by decide) (by decide) (by decide)
  have hBelow : searchLines (bulletValue tables "suggested-tags::".toList) true
      (indexSummaryLine summary ++ '\n' :: tagsPart summary) = _ :=
    (searchLines_line (newline_notMem_indexSummaryLine hSummary) _).trans
      (congrArg₂ Option.or (bulletValue_tags_indexSummaryLine _) searchLines_tagsPart)
  rw [Option.none_or] at hBelow
  rw [tagsLine, tagsAbove, ← hBelow]
  exact searchLines_written (by decide) (by decide) hLetter (by decide) stamp prev summary

/-- Where the tags are read back: a bullet of the page that looks like it has the same
tags, or there is none and the tags can be read. -/
def TagsKept (tables : TextTables) (prev : Str) (summary : BootstrapSummaryResult) : Prop :=
  match tagsAbove tables prev with
  | some value => parseTags tables value = rowTags tables summary.suggestedTags
  | none => TagsReadable summary.suggestedTags

instance : Decidable (TagsKept tables prev summary) := by
  unfold TagsKept
  exact match tagsAbove tables prev with
    | some _ => inferInstance
    | none => inferInstance

variable (stamp) in
/-- The tags are read back exactly where they are kept. -/
theorem parseTags_tagsLine_eq_iff (hSummary : '\n' ∉ strip summary.summary) :
    ((tagsLine tables (writtenText stamp prev summary)).map (parseTags tables)).getD [] =
      rowTags tables summary.suggestedTags ↔ TagsKept tables prev summary := by
  rw [tagsLine_written hSummary, TagsKept]
  cases tagsAbove tables prev with
  | some value => rfl
  | none =>
      rw [Option.none_or]
      split_ifs with hTags
      · rw [hTags]
        exact iff_of_true rfl ⟨List.forall_mem_nil _, List.forall_mem_nil _⟩
      · rw [Option.map_some, Option.getD_some, parseTags_eq_tokens, tokens_rstrip]
        exact tokens_tagsText_eq_iff

theorem TagsKept.tagKept (h : TagsKept tables prev summary) :
    ∀ tag ∈ summary.suggestedTags, TagKept tag := by
  rw [TagsKept] at h
  cases hAbove : tagsAbove tables prev with
  | some value =>
      rw [hAbove] at h
      apply tagKept_of_rowTags tables
      intro row hRow
      have h : parseTags tables value = _ := h
      rw [← h, parseTags_eq_tokens] at hRow
      exact word_of_mem_tokens hRow
  | none =>
      rw [hAbove] at h
      exact h.1

end Tags

end Plumber.SemanticIndex
