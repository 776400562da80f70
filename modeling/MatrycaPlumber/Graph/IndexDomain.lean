import MatrycaPlumber.Graph.IndexDecoding
import MatrycaPlumber.Text.Pieces

/-! The domain of a page that is read back with its semantic index section, and where the
section decodes to the row that was stored with it. -/
namespace Plumber.SemanticIndex

open PyText MarkdownBlocks MasterCatalog

section Tags

/-- The next text after whitespace begins with a `#`. -/
def HashAfterSpace (s : Str) : Prop :=
  ∀ before c after, s = before ++ c :: after → isSpace c = true →
    lstrip after = [] ∨ ∃ text, lstrip after = '#' :: text

theorem HashAfterSpace.append_newline {s : Str} (h : HashAfterSpace s) :
    HashAfterSpace (s ++ ['\n']) := by
  intro before c after hSplit hSpace
  cases append_eq_append_cons_cases hSplit with
  | inl hFirst =>
      obtain ⟨more, hs, rfl⟩ := hFirst
      cases h before c more hs hSpace with
      | inl hBlank => exact .inl (lstrip_append_of_blank hBlank)
      | inr hHash =>
          obtain ⟨text, hText⟩ := hHash
          right
          rw [lstrip_append_of_ne (by rw [hText]; exact List.cons_ne_nil _ _), hText]
          exact ⟨text ++ ['\n'], rfl⟩
  | inr hLast =>
      obtain ⟨more, -, hEnd⟩ := hLast
      have hNil : after = [] := by
        have hLength := congrArg List.length hEnd
        simp only [List.length_cons, List.length_nil, List.length_append] at hLength
        exact List.length_eq_zero_iff.mp (by omega)
      rw [hNil]
      exact .inl rfl

theorem hash_tagsText {tags : List Str} (h : tags ≠ []) : ∃ text, tagsText tags = '#' :: text := by
  cases tags with
  | nil => exact absurd rfl h
  | cons tag tags =>
      obtain ⟨text, hText⟩ := hashTag_cons tag
      by_cases hLast : tags = []
      · rw [hLast]
        exact ⟨text, hText⟩
      · rw [tagsText_cons tag hLast, hText]
        exact ⟨text ++ ' ' :: tagsText tags, rfl⟩

/-- Whitespace within a kept tag is at its end. -/
theorem blank_after_space {tag before after : Str} {c : Char} (h : TagKept tag)
    (hSplit : hashTag tag = before ++ c :: after) (hSpace : isSpace c = true) :
    lstrip after = [] := by
  have hMem : c ∈ hashTag tag := by
    rw [hSplit]
    exact List.mem_append_right _ List.mem_cons_self
  have hTag : c ∈ tag := by
    cases mem_hashTag hMem with
    | inl hHash =>
        rw [hHash] at hSpace
        exact absurd hSpace (by decide)
    | inr hTag => exact hTag
  cases h with
  | inr hWord =>
      rw [hWord.1 c hTag] at hSpace
      cases hSpace
  | inl hBlank =>
      rw [hashTag_of_blank hBlank] at hSplit
      rw [lstrip_eq_nil_iff]
      intro d hd
      cases before with
      | nil =>
          obtain ⟨rfl, rfl⟩ := List.cons.inj hSplit
          exact strip_eq_nil_iff.mp hBlank d hd
      | cons e before =>
          obtain ⟨rfl, rfl⟩ := List.cons.inj hSplit
          apply strip_eq_nil_iff.mp hBlank
          exact List.mem_append_right _ (List.mem_cons_of_mem c hd)

theorem hashAfterSpace_tagsText {tags : List Str} (h : ∀ tag ∈ tags, TagKept tag) :
    HashAfterSpace (tagsText tags) := by
  induction tags with
  | nil =>
      intro before c after hSplit
      cases before <;> cases hSplit
  | cons tag tags ih =>
      rw [List.forall_mem_cons] at h
      intro before c after hSplit hSpace
      by_cases hLast : tags = []
      · rw [hLast] at hSplit
        exact .inl (blank_after_space h.1 hSplit hSpace)
      · rw [tagsText_cons tag hLast] at hSplit
        obtain ⟨text, hText⟩ := hash_tagsText hLast
        cases append_cons_eq_cases hSplit with
        | inl hFirst =>
            obtain ⟨more, hTag, rfl⟩ := hFirst
            right
            rw [lstrip_append_of_blank (blank_after_space h.1 hTag hSpace), hText]
            exact ⟨text, rfl⟩
        | inr hLater =>
            cases hLater with
            | inl hBlank =>
                obtain ⟨-, -, rfl⟩ := hBlank
                right
                rw [hText]
                exact ⟨text, rfl⟩
            | inr hRest =>
                obtain ⟨more, -, hRest⟩ := hRest
                exact ih h.2 more c after hRest hSpace

/-- Behind a line break in the tags line comes a `#`, or nothing. -/
theorem hash_after_break {summary : BootstrapSummaryResult}
    (h : ∀ tag ∈ summary.suggestedTags, TagKept tag) {before after : Str} {c : Char}
    (hSplit : tagsPart summary = before ++ c :: after) (hBreak : isLineBreak c = true) :
    lstrip after = [] ∨ ∃ text, lstrip after = '#' :: text := by
  rw [tagsPart] at hSplit
  by_cases hTags : summary.suggestedTags = []
  · rw [if_pos hTags] at hSplit
    exact absurd hSplit.symm (List.append_ne_nil_of_right_ne_nil _ (List.cons_ne_nil c after))
  · rw [if_neg hTags] at hSplit
    obtain ⟨key, hKey, hFree⟩ : ∃ key, indexTagsLine summary ++ ['\n'] =
        key ++ (tagsText summary.suggestedTags ++ ['\n']) ∧ ∀ d ∈ key, isLineBreak d = false :=
      ⟨"- suggested-tags:: ".toList, List.append_assoc _ _ _, by decide⟩
    have hText := (hashAfterSpace_tagsText h).append_newline
    rw [hKey] at hSplit
    cases append_eq_append_cons_cases hSplit with
    | inl hKey =>
        obtain ⟨more, rfl, -⟩ := hKey
        rw [hFree c (List.mem_append_right _ List.mem_cons_self)] at hBreak
        cases hBreak
    | inr hRest =>
        obtain ⟨more, -, hRest⟩ := hRest
        exact hText more c after hRest (isSpace_of_isLineBreak hBreak)

end Tags

section TypeLine

variable {tables : TextTables}

theorem typeValue_of_head {c : Char} (hSpace : isSpace c = false)
    (h : tables.eqIgnoreCase 't' c = false) (s : Str) : typeValue tables (c :: s) = none := by
  obtain ⟨key, hKey⟩ : ∃ key, "type::".toList = 't' :: key := ⟨"ype::".toList, by decide⟩
  rw [typeValue, lstrip_cons_of_not_isSpace hSpace, hKey, dropPrefixIgnoreCase_of_head h]
  rfl

theorem typeValue_of_lstrip {s : Str} (h : lstrip s = [] ∨ ∃ text, lstrip s = '#' :: text) :
    typeValue tables s = none := by
  have hHash : tables.eqIgnoreCase 't' '#' = false :=
    eqIgnoreCase_of_ne (by decide) (by decide) (by decide)
  obtain ⟨key, hKey⟩ : ∃ key, "type::".toList = 't' :: key := ⟨"ype::".toList, by decide⟩
  rw [typeValue, hKey]
  cases h with
  | inl hNil =>
      rw [hNil]
      rfl
  | inr hText =>
      obtain ⟨text, hText⟩ := hText
      rw [hText, dropPrefixIgnoreCase_of_head hHash]
      rfl

theorem capturedWord_dash (s : Str) : capturedWord ('-' :: ' ' :: '#' :: s) = none := rfl

theorem typeLine_append_newline (s : Str) : typeLine tables (s ++ ['\n']) = typeLine tables s := by
  have hNil : typeValue tables [] = none := typeValue_of_lstrip (.inl rfl)
  have hSplit := searchLines_split (f := typeValue tables) []
    (fun t => typeValue_append rfl rfl t) s
  rw [typeLine, hSplit]
  exact (congrArg _ hNil).trans Option.or_none

theorem typeLine_pageText (prev : Str) : typeLine tables (pageText prev) = typeLine tables prev := by
  induction prev using List.reverseRecOn with
  | nil => rfl
  | append_singleton s c ih =>
      by_cases hc : c = '\n'
      · subst hc
        rw [typeLine_append_newline, ← ih, pageText, rstripChars,
          List.rdropWhile_concat_pos _ _ _ (by simp)]
        rfl
      · rw [pageText, rstripChars, List.rdropWhile_concat_neg]
        simpa using hc

/-- Nothing is found where nothing is found at any line. -/
theorem searchLines_eq_none {α : Type} {f : Str → Option α} {s : Str} (hHead : f s = none)
    (hLines : ∀ before after, s = before ++ '\n' :: after → f after = none) :
    searchLines f true s = none := by
  have hGeneral : ∀ atStart, (atStart = true → f s = none) →
      searchLines f atStart s = none := by
    clear hHead
    induction s with
    | nil =>
        intro atStart hStart
        cases atStart with
        | true => exact hStart rfl
        | false => rfl
    | cons c s ih =>
        intro atStart hStart
        have hRest : searchLines f (decide (c = '\n')) s = none := by
          apply ih
          · intro before after hSplit
            exact hLines (c :: before) after (by rw [hSplit]; rfl)
          · intro hc
            exact hLines [] s (by rw [of_decide_eq_true hc]; rfl)
        rw [searchLines, hRest]
        cases atStart with
        | true =>
            rw [if_pos rfl, hStart rfl]
            rfl
        | false => rfl
  exact hGeneral true fun _ => hHead

/-- The section has no `type::` line of its own. -/
theorem typeLine_written {stamp : Stamp} {prev : Str} {summary : BootstrapSummaryResult}
    (hSummary : '\n' ∉ strip summary.summary) (hTags : ∀ tag ∈ summary.suggestedTags, TagKept tag) :
    typeLine tables (writtenText stamp prev summary) = typeLine tables prev := by
  have hDash : tables.eqIgnoreCase 't' '-' = false :=
    eqIgnoreCase_of_ne (by decide) (by decide) (by decide)
  have hNone : ∀ s, typeValue tables ('-' :: s) = none :=
    fun s => typeValue_of_head (by decide) hDash s
  have hTagsPart : searchLines (typeValue tables) true (tagsPart summary) = none := by
    apply searchLines_eq_none
    · rw [tagsPart]
      split_ifs
      · exact typeValue_of_lstrip (.inl rfl)
      · exact hNone _
    · intro before after hSplit
      exact typeValue_of_lstrip (hash_after_break hTags hSplit (by decide))
  have hAbove : ∀ s, typeValue tables (s ++ '\n' :: (semanticIndexHeader ++ '\n' ::
      (indexedAtLine stamp ++ '\n' :: (indexSummaryLine summary ++ '\n' :: tagsPart summary)))) =
        typeValue tables s := by
    intro s
    obtain ⟨key, hKey⟩ : ∃ key, "type::".toList = 't' :: key := ⟨"ype::".toList, by decide⟩
    apply typeValue_append
    · rw [hKey]
      exact dropPrefixIgnoreCase_of_head hDash key _
    · exact capturedWord_dash _
  rw [typeLine, writtenText, searchLines_split _ hAbove, searchLines_line (by decide),
    searchLines_line (newline_notMem_indexedAtLine stamp),
    searchLines_line (newline_notMem_indexSummaryLine hSummary), hTagsPart, ← typeLine_pageText prev]
  have hHeader : typeValue tables (semanticIndexHeader ++ '\n' :: (indexedAtLine stamp ++ '\n' ::
      (indexSummaryLine summary ++ '\n' :: tagsPart summary))) = none := hNone _
  have hStamp : typeValue tables (indexedAtLine stamp ++ '\n' ::
      (indexSummaryLine summary ++ '\n' :: tagsPart summary)) = none := hNone _
  have hLine : typeValue tables (indexSummaryLine summary ++ '\n' :: tagsPart summary) = none :=
    hNone _
  rw [hHeader, hStamp, hLine]
  exact Option.or_none

end TypeLine

section TypeBullets

variable {tables : TextTables}

/-- A line that `bulletDomain` reads the domain of. -/
def typeBullet (tables : TextTables) (line : Str) : Bool :=
  startsWith "- type::".toList (tables.lower (strip line))

theorem bulletDomain_congr {lines more : List Str}
    (h : lines.find? (typeBullet tables) = more.find? (typeBullet tables)) :
    bulletDomain tables lines = bulletDomain tables more := by
  have hFind : (lines.find? fun line => startsWith "- type::".toList (tables.lower (strip line))) =
      more.find? fun line => startsWith "- type::".toList (tables.lower (strip line)) := h
  rw [bulletDomain, bulletDomain, hFind]

/-- A line that begins otherwise is no type bullet. -/
theorem typeBullet_eq_false {line head rest : Str} (hAscii : ∀ c ∈ head, c.toNat < 128)
    (hStrip : strip line = head ++ rest) (hHead : ¬head.map Char.toLower <+: "- type::".toList)
    (hType : ¬"- type::".toList <+: head.map Char.toLower) : typeBullet tables line = false := by
  rw [← Bool.not_eq_true, typeBullet, startsWith_iff, hStrip]
  intro hPrefix
  cases List.prefix_or_prefix_of_prefix (tables.lower_append head rest hAscii) hPrefix with
  | inl hShort => exact hHead hShort
  | inr hLong => exact hType hLong

theorem typeBullet_of_blank {line : Str} (h : strip line = []) : typeBullet tables line = false := by
  have hLower : tables.lower [] = [] := tables.lower_ascii [] (by simp)
  rw [typeBullet, h, hLower]
  rfl

/-- A bullet with another letter is no type bullet. -/
theorem typeBullet_of_letter {c : Char} (hAscii : c.toNat < 128) (hSpace : isSpace c = false)
    (hLetter : c.toLower ≠ 't') (rest : Str) : typeBullet tables ('-' :: ' ' :: c :: rest) = false := by
  have hDash : isSpace '-' = false := by decide
  have hStrip : strip ('-' :: ' ' :: c :: rest) = ['-', ' ', c] ++ rstrip rest := by
    rw [strip, lstrip_cons_of_not_isSpace hDash]
    exact rstrip_append_cons ['-', ' '] rest hSpace
  obtain ⟨key, hKey⟩ : ∃ key, "- type::".toList = ['-', ' '] ++ 't' :: 'y' :: key :=
    ⟨"pe::".toList, by decide⟩
  have hLower : ['-', ' ', c].map Char.toLower = ['-', ' ', c.toLower] := rfl
  apply typeBullet_eq_false _ hStrip
  · rw [hLower, hKey]
    intro hPrefix
    have hEq := (List.cons_prefix_cons.mp (List.cons_prefix_cons.mp
      (List.cons_prefix_cons.mp hPrefix).2).2).1
    exact hLetter hEq
  · rw [hLower, hKey]
    intro hPrefix
    have hLength := hPrefix.length_le
    simp only [List.cons_append, List.nil_append, List.length_cons, List.length_nil] at hLength
    omega
  · intro d hd
    simp only [List.mem_cons, List.not_mem_nil, or_false] at hd
    obtain rfl | rfl | rfl := hd
    · decide
    · decide
    · exact hAscii

theorem typeBullet_of_hash {line text : Str} (h : lstrip line = '#' :: text) :
    typeBullet tables line = false := by
  have hStrip : strip line = ['#'] ++ rstrip text := by
    rw [strip, h]
    exact rstrip_append_cons [] text (by decide)
  exact typeBullet_eq_false (by decide) hStrip (by decide) (by decide)

end TypeBullets

section Lines

/-- The parts of a text but the first one come behind a character that it is cut at. -/
theorem splitOnP_tail (p : Char → Bool) (s : Str) :
    ∃ ls, s.splitOnP p = s.takeWhile (fun c => !p c) :: ls ∧
      ∀ l ∈ ls, ∃ before c after, s = before ++ c :: (l ++ after) ∧ p c = true := by
  induction s with
  | nil => exact ⟨[], rfl, List.forall_mem_nil _⟩
  | cons c s ih =>
      obtain ⟨ls, hParts, hTail⟩ := ih
      have hLater : ∀ l ∈ ls, ∃ before d after, c :: s = before ++ d :: (l ++ after) ∧ p d = true := by
        intro l hl
        obtain ⟨before, d, after, hSplit, hd⟩ := hTail l hl
        exact ⟨c :: before, d, after, by rw [hSplit]; rfl, hd⟩
      rw [List.splitOnP_cons_eq_if_modifyHead, hParts]
      by_cases hc : p c = true
      · rw [if_pos hc, List.takeWhile_cons_of_neg (by simp [hc])]
        refine ⟨_, rfl, ?_⟩
        rw [List.forall_mem_cons]
        refine ⟨⟨[], c, s.dropWhile fun d => !p d, ?_, hc⟩, hLater⟩
        rw [List.takeWhile_append_dropWhile]
        rfl
      · rw [if_neg hc, List.takeWhile_cons_of_pos (by simp [hc])]
        exact ⟨ls, rfl, hLater⟩

variable {tables : TextTables} {stamp : Stamp} {prev : Str} {summary : BootstrapSummaryResult}

theorem find_take_append {α : Type} {p : α → Bool} {xs ys : List α} (h : ∀ y ∈ ys, p y = false)
    (n : Nat) : ((xs ++ ys).take n).find? p = (xs.take n).find? p := by
  have hNone : (ys.take (n - xs.length)).find? p = none := by
    rw [List.find?_eq_none]
    intro y hy
    rw [h y (List.mem_of_mem_take hy)]
    exact Bool.false_ne_true
  rw [List.take_append, List.find?_append, hNone, Option.or_none]

/-- Lines of which none is found may be taken for others of which none is. -/
theorem find_take_replace {α : Type} {p : α → Bool} {xs ys zs us : List α}
    (hLength : ys.length = us.length) (hLines : ∀ y ∈ ys, p y = false)
    (hOthers : ∀ u ∈ us, p u = false) (n : Nat) :
    ((xs ++ ys ++ zs).take n).find? p = ((xs ++ us ++ zs).take n).find? p := by
  have hSame : (xs ++ ys).length = (xs ++ us).length := by
    rw [List.length_append, List.length_append, hLength]
  have hEither : ∀ vs : List α, ((xs ++ vs ++ zs).take n).find? p = (((xs ++ vs).take n).find? p).or
      ((zs.take (n - (xs ++ vs).length)).find? p) := by
    intro vs
    rw [List.take_append, List.find?_append]
  rw [hEither, hEither, find_take_append hLines, find_take_append hOthers, hSame]

theorem splitlines_cut (s t : Str) :
    splitlines (s ++ '\n' :: t) = splitlines (s ++ ['\n']) ++ splitlines t := by
  have hCut : s ++ '\n' :: t = s ++ ['\n'] ++ t := by
    rw [List.append_assoc]
    rfl
  rw [hCut, splitlines, terminated_newline, List.map_append]
  rfl

theorem splitlines_line {l : Str} (h : ∀ c ∈ l, isLineBreak c = false) :
    splitlines (l ++ ['\n']) = [l] := by
  have hLine := splitlinesKeep_closed_append (closed_append_newline h) []
  rw [List.append_nil] at hLine
  rw [splitlines, hLine]
  exact congrArg (fun m => [m]) (dropLineBreak_line h)

theorem splitlines_written : splitlines (writtenText stamp prev summary) =
    splitlines (pageText prev ++ ['\n']) ++ [semanticIndexHeader, indexedAtLine stamp] ++
      splitlines (indexSummaryLine summary ++ ['\n']) ++ splitlines (tagsPart summary) := by
  have hHeader : ∀ c ∈ semanticIndexHeader, isLineBreak c = false := by decide
  rw [writtenText, splitlines_cut, splitlines_cut semanticIndexHeader,
    splitlines_cut (indexedAtLine stamp), splitlines_cut (indexSummaryLine summary),
    splitlines_line hHeader, splitlines_line (not_isLineBreak_indexedAtLine stamp)]
  simp only [List.append_assoc]
  rfl

/-- No line below the summary is a type bullet. -/
theorem typeBullet_of_tagsPart (h : ∀ tag ∈ summary.suggestedTags, TagKept tag) :
    ∀ line ∈ splitlines (tagsPart summary), typeBullet tables line = false := by
  intro line hLine
  by_cases hBlank : isBlank line = true
  · exact typeBullet_of_blank ((isBlank_iff_strip_eq_nil line).mp hBlank)
  · have hMem : line ∈ nonblankLines (tagsPart summary) :=
      List.mem_filter.mpr ⟨hLine, by simpa using hBlank⟩
    rw [nonblankLines_eq_splitOnP, List.mem_filter] at hMem
    obtain ⟨ls, hParts, hTail⟩ := splitOnP_tail isLineBreak (tagsPart summary)
    rw [hParts, List.mem_cons] at hMem
    cases hMem.1 with
    | inl hFirst =>
        rw [hFirst, tagsPart]
        split_ifs
        · exact typeBullet_of_blank rfl
        · obtain ⟨key, hKey⟩ : ∃ key, "suggested-tags::".toList = 's' :: key :=
            ⟨"uggested-tags::".toList, by decide⟩
          rw [indexTagsLine_append, hKey]
          exact typeBullet_of_letter (by decide) (by decide) (by decide) _
    | inr hLater =>
        obtain ⟨before, c, after, hSplit, hBreak⟩ := hTail line hLater
        have hText : lstrip line ≠ [] := by
          intro hNil
          apply hBlank
          rw [isBlank_iff_strip_eq_nil, strip, hNil]
          rfl
        have hHash := hash_after_break h hSplit hBreak
        rw [lstrip_append_of_ne hText] at hHash
        cases hHead : lstrip line with
        | nil => exact absurd hHead hText
        | cons d text =>
            rw [hHead] at hHash
            have hEq : d = '#' := by
              cases hHash with
              | inl hNil => cases hNil
              | inr hSome =>
                  obtain ⟨more, hMore⟩ := hSome
                  exact (List.cons.inj hMore).1
            have hLine : lstrip line = '#' :: text := by rw [hHead, hEq]
            exact typeBullet_of_hash hLine

end Lines

section Domain

variable {tables : TextTables} {stamp : Stamp} {prev : Str} {summary : BootstrapSummaryResult}

theorem normalizeDomain_of_mem {domain : Str} (h : domain ∈ marpaDomains) :
    normalizeDomain tables domain = domain := by
  have hWords : ∀ d ∈ marpaDomains, (∀ c ∈ d, c.toNat < 128) ∧ d.map Char.toLower = d ∧
      strip d = d := by decide
  obtain ⟨hAscii, hLower, hStrip⟩ := hWords domain h
  rw [normalizeDomain, hStrip, tables.lower_ascii domain hAscii, hLower]
  exact if_pos h

theorem normalizeDomain_nil : normalizeDomain tables [] = [] := by
  have hLower : tables.lower (strip []) = [] := tables.lower_ascii [] (by simp)
  rw [normalizeDomain, hLower]
  exact if_neg (by decide)

theorem normalizeDomain_cases (raw : Str) :
    normalizeDomain tables raw = [] ∨ normalizeDomain tables raw ∈ marpaDomains := by
  simp only [normalizeDomain]
  split_ifs with hMem
  · exact .inr hMem
  · exact .inl rfl

theorem typeDomain_cases (content : Str) :
    typeDomain tables content = [] ∨ typeDomain tables content ∈ marpaDomains := by
  rw [typeDomain]
  cases typeLine tables content with
  | none => exact .inl rfl
  | some raw => exact normalizeDomain_cases raw

theorem harvestDomain_cases (pageTitle content : Str) (summary : BootstrapSummaryResult) :
    harvestDomain tables pageTitle content summary = [] ∨
      harvestDomain tables pageTitle content summary ∈ marpaDomains := by
  have hInferred : inferDomainFromContent tables pageTitle content = [] ∨
      inferDomainFromContent tables pageTitle content ∈ marpaDomains := by
    rw [inferDomainFromContent]
    split_ifs with hType
    · exact typeDomain_cases content
    · cases detectMarpaNamespace tables pageTitle with
      | none => exact .inl rfl
      | some hint =>
          simp only
          split_ifs with hHint
          · exact .inr hHint
          · exact .inl rfl
  simp only [harvestDomain]
  split_ifs
  · exact normalizeDomain_cases summary.domain
  · exact hInferred

/-- The row has the domain that the harvest found. -/
theorem harvestRow_domain (pageTitle content : Str) (summary : BootstrapSummaryResult)
    (mtime : Int) (orphan : Bool) :
    (harvestRow tables pageTitle content summary mtime orphan).domain =
      harvestDomain tables pageTitle content summary := by
  have hRow : (harvestRow tables pageTitle content summary mtime orphan).domain =
      normalizeDomain tables (harvestDomain tables pageTitle content summary) := rfl
  rw [hRow]
  cases harvestDomain_cases pageTitle content summary with
  | inl hNil => rw [hNil, normalizeDomain_nil]
  | inr hMem => exact normalizeDomain_of_mem hMem

theorem harvestDomain_of_typeDomain {content : Str} (h : typeDomain tables content ≠ [])
    (pageTitle : Str) (summary : BootstrapSummaryResult) :
    harvestDomain tables pageTitle content summary = typeDomain tables content := by
  have hInferred : inferDomainFromContent tables pageTitle content = typeDomain tables content :=
    if_pos h
  simp only [harvestDomain, hInferred]
  exact if_neg fun hNil => h hNil.1

/-- The first lines of the page and its section in which a `- type::` bullet may stand. -/
def typeLines (prev : Str) (summary : BootstrapSummaryResult) : List Str :=
  (splitlines (pageText prev ++ ['\n']) ++ [[], []] ++
    splitlines (indexSummaryLine summary ++ ['\n'])).take 20

theorem typeBullet_header : typeBullet tables semanticIndexHeader = false := by
  obtain ⟨text, hText⟩ : ∃ text, semanticIndexHeading = '#' :: text :=
    ⟨"## Matryca Semantic Index".toList, by decide⟩
  rw [semanticIndexHeader, hText]
  exact typeBullet_of_letter (by decide) (by decide) (by decide) text

theorem typeBullet_indexedAtLine : typeBullet tables (indexedAtLine stamp) = false := by
  have hKey : "- indexed-at:: ".toList = '-' :: ' ' :: 'i' :: "ndexed-at:: ".toList := by decide
  have hLine : indexedAtLine stamp = '-' :: ' ' :: 'i' :: ("ndexed-at:: ".toList ++ stamp.text) :=
    congrArg (· ++ stamp.text) hKey
  rw [hLine]
  exact typeBullet_of_letter (by decide) (by decide) (by decide) _

theorem bulletDomain_written (h : ∀ tag ∈ summary.suggestedTags, TagKept tag) :
    bulletDomain tables ((splitlines (writtenText stamp prev summary)).take 20) =
      bulletDomain tables (typeLines prev summary) := by
  have hOwn : ∀ line ∈ [semanticIndexHeader, indexedAtLine stamp],
      typeBullet tables line = false := by
    rw [List.forall_mem_cons, List.forall_mem_singleton]
    exact ⟨typeBullet_header, typeBullet_indexedAtLine⟩
  have hEmpty : ∀ line ∈ ([[], []] : List Str), typeBullet tables line = false := by
    intro line hLine
    apply typeBullet_of_blank
    simp only [List.mem_cons, List.not_mem_nil, or_false, or_self] at hLine
    rw [hLine]
    rfl
  have hLength : [semanticIndexHeader, indexedAtLine stamp].length = ([[], []] : List Str).length :=
    rfl
  apply bulletDomain_congr
  rw [splitlines_written, find_take_append (typeBullet_of_tagsPart h), typeLines]
  exact find_take_replace hLength hOwn hEmpty 20

/-- Where the domain is read back: the page has a line with its type, or else the first
type bullet says what the title or the model does, and there is none if neither says
anything. -/
def DomainKept (tables : TextTables) (pageTitle prev : Str) (summary : BootstrapSummaryResult) :
    Prop :=
  typeDomain tables prev ≠ [] ∨
    bulletDomain tables (typeLines prev summary) = harvestDomain tables pageTitle prev summary
  deriving Decidable

variable (stamp) in
/-- The domain that is read back, where the summary and the tags are. -/
theorem domain_written_eq_iff (hSummary : '\n' ∉ strip summary.summary)
    (hTags : ∀ tag ∈ summary.suggestedTags, TagKept tag) (pageTitle : Str) :
    (if typeDomain tables (writtenText stamp prev summary) ≠ [] then
        typeDomain tables (writtenText stamp prev summary)
      else bulletDomain tables ((splitlines (writtenText stamp prev summary)).take 20)) =
      harvestDomain tables pageTitle prev summary ↔ DomainKept tables pageTitle prev summary := by
  have hType : typeDomain tables (writtenText stamp prev summary) = typeDomain tables prev := by
    rw [typeDomain, typeDomain, typeLine_written hSummary hTags]
  rw [hType, DomainKept, bulletDomain_written hTags]
  by_cases hPage : typeDomain tables prev ≠ []
  · rw [if_pos hPage, harvestDomain_of_typeDomain hPage]
    exact iff_of_true rfl (.inl hPage)
  · rw [if_neg hPage]
    exact ⟨.inr, fun h => h.resolve_left hPage⟩

end Domain

end Plumber.SemanticIndex
