import MatrycaPlumber.Graph.IndexDomain

/-! Where a semantic index section decodes to the catalog row that is stored with it. -/
namespace Plumber.SemanticIndex

open PyText MarkdownBlocks MasterCatalog

section RoundTrip

variable {tables : TextTables} {stamp : Stamp} {prev : Str} {summary : BootstrapSummaryResult}

/-- Where what is written for a page is read back. -/
structure Kept (tables : TextTables) (pageTitle prev : Str) (summary : BootstrapSummaryResult) :
    Prop where
  summaryKept : SummaryKept tables prev summary
  tagsKept : TagsKept tables prev summary
  domainKept : DomainKept tables pageTitle prev summary

/-- Two rows with the same summary, tags and domain. -/
def SameFields (entry row : CatalogEntry) : Prop :=
  entry.summary = row.summary ∧ entry.tags = row.tags ∧ entry.domain = row.domain

theorem newline_notMem_bulletValue {key s value : Str} (h : bulletValue tables key s = some value) :
    '\n' ∉ value := by
  rw [bulletValue] at h
  cases hText : lstrip s with
  | nil =>
      rw [hText] at h
      cases h
  | cons c rest =>
      rw [hText] at h
      by_cases hDash : c = '-'
      · subst hDash
        simp only [Option.bind_eq_some_iff] at h
        obtain ⟨after, -, hCaptured⟩ := h
        exact newline_notMem_of_capturedText hCaptured
      · simp [hDash] at h

/-- A summary that is kept is one line. -/
theorem SummaryKept.newline_notMem (h : SummaryKept tables prev summary) :
    '\n' ∉ strip summary.summary := by
  rw [SummaryKept] at h
  cases hAbove : summaryAbove tables prev with
  | none =>
      rw [hAbove] at h
      exact h
  | some value =>
      rw [hAbove] at h
      have h : strip value = strip summary.summary := h
      obtain ⟨s, hFound⟩ := exists_of_searchLines hAbove
      rw [← h]
      intro hMem
      exact newline_notMem_bulletValue hFound ((strip_isInfix _).subset hMem)

theorem heading_writtenText : semanticIndexHeading <:+: writtenText stamp prev summary :=
  ⟨pageText prev ++ ['\n', '-', ' '], '\n' :: (indexedAtLine stamp ++ '\n' ::
    (indexSummaryLine summary ++ '\n' :: tagsPart summary)), by simp [writtenText, semanticIndexHeader]⟩

/-- What is read of a page with its section. -/
theorem extract_written {raw : Str}
    (hRaw : summaryLine tables (writtenText stamp prev summary) = some raw) (hText : strip raw ≠ []) :
    extractCatalogFieldsFromContent tables (writtenText stamp prev summary) =
      some {
        summary := strip raw
        tags := ((tagsLine tables (writtenText stamp prev summary)).map (parseTags tables)).getD []
        domain :=
          if typeDomain tables (writtenText stamp prev summary) ≠ [] then
            typeDomain tables (writtenText stamp prev summary)
          else bulletDomain tables ((splitlines (writtenText stamp prev summary)).take 20) } := by
  rw [extractCatalogFieldsFromContent, if_neg (not_not.mpr heading_writtenText), hRaw]
  exact if_neg hText

theorem summaryLine_of_extract {content : Str} {entry : CatalogEntry}
    (h : extractCatalogFieldsFromContent tables content = some entry) :
    ∃ raw, summaryLine tables content = some raw ∧ strip raw ≠ [] ∧ entry.summary = strip raw := by
  have hHeading : semanticIndexHeading <:+: content := by
    by_contra hNone
    rw [extractCatalogFieldsFromContent, if_pos hNone] at h
    cases h
  rw [extractCatalogFieldsFromContent, if_neg (not_not.mpr hHeading)] at h
  cases hRaw : summaryLine tables content with
  | none =>
      rw [hRaw] at h
      cases h
  | some raw =>
      rw [hRaw] at h
      simp only [Option.ite_none_left_eq_some, Option.some.injEq] at h
      exact ⟨raw, rfl, h.1, by rw [← h.2]⟩

end RoundTrip

section Samples

theorem isUpper_iff {c : Char} : c.isUpper = true ↔ 65 ≤ c.toNat ∧ c.toNat ≤ 90 := by
  change decide (c.val ≥ 65 ∧ c.val ≤ 90) = true ↔ _
  simp [UInt32.le_iff_toNat_le]

theorem isLower_iff {c : Char} : c.isLower = true ↔ 97 ≤ c.toNat ∧ c.toNat ≤ 122 := by
  change (decide (c.val ≥ 97) && decide (c.val ≤ 122)) = true ↔ _
  simp [UInt32.le_iff_toNat_le]

theorem toNat_toLower {c : Char} (h : c.isUpper = true) : c.toLower.toNat = c.toNat + 32 := by
  have hRange := isUpper_iff.mp h
  have hShift : (32 : UInt32).toNat = 32 := rfl
  have hVal : c.toLower.val = c.val + 32 := by
    delta Char.toLower
    rw [dif_pos (of_decide_eq_true h)]
    rfl
  rw [← Char.toNat_val, hVal, UInt32.toNat_add, Char.toNat_val, hShift]
  exact Nat.mod_eq_of_lt (by omega)

theorem toLower_of_not_isUpper {c : Char} (h : ¬c.isUpper = true) : c.toLower = c := by
  delta Char.toLower
  rw [dif_neg (fun hRange => h (decide_eq_true hRange))]

theorem isSpace_toLower (c : Char) : isSpace c.toLower = isSpace c := by
  by_cases hUpper : c.isUpper = true
  · have hRange := isUpper_iff.mp hUpper
    rw [Bool.eq_iff_iff]
    simp only [isSpace, toNat_toLower hUpper, Bool.or_eq_true, Bool.and_eq_true, decide_eq_true_eq,
      beq_iff_eq]
    omega
  · rw [toLower_of_not_isUpper hUpper]

theorem asciiCase_eqIgnoreCase_iff {p c : Char} :
    asciiCase.eqIgnoreCase p c = true ↔ p.toLower = c.toLower := by
  simp only [asciiCase, Bool.or_eq_true, decide_eq_true_eq, Bool.and_eq_true]
  constructor
  · intro h
    cases h with
    | inl hEq => rw [hEq]
    | inr hLetters => exact hLetters.2
  · intro hEq
    by_cases hAlpha : c.isAlpha = true
    · exact .inr ⟨hAlpha, hEq⟩
    · left
      have hNeither : ¬(c.isUpper || c.isLower) = true := hAlpha
      simp only [Bool.or_eq_true, not_or] at hNeither
      rw [toLower_of_not_isUpper hNeither.1] at hEq
      by_cases hUpper : p.isUpper = true
      · have hRange := isUpper_iff.mp hUpper
        have hShift := toNat_toLower hUpper
        rw [hEq] at hShift
        exact absurd (isLower_iff.mpr (by omega)) hNeither.2
      · rw [← hEq, toLower_of_not_isUpper hUpper]

theorem asciiCase_lower_append (s t : Str) :
    s.map Char.toLower <+: asciiCase.lower (s ++ t) := by
  simp only [asciiCase, List.map_append]
  exact List.prefix_append _ _

theorem asciiCase_lower_isSpace (s : Str) :
    (∃ c ∈ asciiCase.lower s, isSpace c = true) ↔ ∃ c ∈ s, isSpace c = true := by
  simp only [asciiCase, List.mem_map, exists_exists_and_eq_and, isSpace_toLower]

/-- The tables of a text of ASCII letters. -/
def asciiText : TextTables where
  toCaseTables := asciiCase
  casefold := List.map Char.toLower
  eq_ascii _ _ _ _ := asciiCase_eqIgnoreCase_iff
  lower_ascii _ _ := rfl
  lower_append s t _ := asciiCase_lower_append s t
  lower_eq_nil _ h := List.map_eq_nil_iff.mp h
  lower_isSpace := asciiCase_lower_isSpace

def sampleStamp : Stamp := ⟨2025, 3, 1, 12, 30⟩

def samplePage : Str := "type:: area\n- The roses need water".toList

def sampleSummary : BootstrapSummaryResult where
  summary := " Roses in the garden\n".toList
  suggestedTags := ["Garden".toList, "#roses".toList]
  domain := "progetto".toList

theorem kept_sample : Kept asciiText "Roses".toList samplePage sampleSummary where
  summaryKept := by decide +kernel
  tagsKept := by decide +kernel
  domainKept := by decide +kernel

end Samples

end Plumber.SemanticIndex
