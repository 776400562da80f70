import MatrycaPlumber.Agent.BacklinkSections
import MatrycaPlumber.Text.NonblankLines
import MatrycaPlumber.Text.Pieces
import MatrycaPlumber.Text.Stripping

/-! What refreshing the lines of a run does to each of its sections. -/
namespace Plumber.Backlink

open PyText Sections

variable {r : Record} {summary key line m : Str} {lines ls : List Str}

section Fields

/-- All that the scans read of a line. -/
structure Fields where
  refFrom : Option Str
  sourceBlock : Option Str
  contextSummary : Option Str
  heading : Bool
  backlink : Bool
  deriving DecidableEq

def fields (line : Str) : Fields :=
  ⟨refFrom? line, sourceBlock? line, contextSummary? line, isHeading line, isBacklinkHeading line⟩

theorem fields_congr (h : lineBody line = lineBody m) : fields line = fields m := by
  simp only [fields, refFrom?, sourceBlock?, contextSummary?, isHeading, isBacklinkHeading,
    normalizeSectionHeading, fieldText?, h]

theorem lineBody_newline (line : Str) : lineBody (line ++ ['\n']) = lineBody line :=
  List.rdropWhile_concat_pos _ _ _ (by decide)

theorem lineBody_lineBody (line : Str) : lineBody (lineBody line) = lineBody line :=
  List.rdropWhile_idempotent _ line

theorem fields_of_empty (h : lineBody line = []) :
    fields line = ⟨none, none, none, false, false⟩ := by
  have hSame : fields line = fields [] := fields_congr h
  rw [hSame]
  decide +kernel

/-- The key of a field is read from the first character on. -/
theorem head_of_fieldText? {c : Char} (key : Str) {text : Str}
    (h : fieldText? (c :: key) line = some text) :
    (skipBullet (lstrip (lineBody line))).head? = some c := by
  rw [fieldText?, Option.map_eq_some_iff] at h
  obtain ⟨rest, hRest, -⟩ := h
  rw [dropPrefix?_eq_some] at hRest
  rw [hRest]
  rfl

theorem head_of_refFrom? (h : (refFrom? line).isSome) :
    (skipBullet (lstrip (lineBody line))).head? = some 'r' := by
  cases hText : fieldText? "referenced-from::".toList line with
  | none =>
      rw [refFrom?, hText] at h
      cases h
  | some text => exact head_of_fieldText? "eferenced-from::".toList hText

theorem head_of_sourceBlock? (h : (sourceBlock? line).isSome) :
    (skipBullet (lstrip (lineBody line))).head? = some 's' := by
  cases hText : fieldText? "source-block-uuid::".toList line with
  | none =>
      rw [sourceBlock?, hText] at h
      cases h
  | some text => exact head_of_fieldText? "ource-block-uuid::".toList hText

theorem head_of_isSummaryLine (h : isSummaryLine line = true) :
    (skipBullet (lstrip (lineBody line))).head? = some 'c' := by
  cases hText : fieldText? "context-summary::".toList line with
  | none =>
      rw [isSummaryLine, contextSummary?, hText] at h
      cases h
  | some text => exact head_of_fieldText? "ontext-summary::".toList hText

theorem exists_lstrip {s t : Str} {c : Char} (h : strip s = c :: t) :
    ∃ rest, lstrip s = c :: (t ++ rest) := by
  obtain ⟨rest, hRest⟩ : strip s <+: lstrip s := List.rdropWhile_prefix isSpace (lstrip s)
  rw [h] at hRest
  exact ⟨rest, hRest.symm⟩

theorem head_of_isHeading (h : isHeading line = true) :
    (skipBullet (lstrip (lineBody line))).head? = some '#' := by
  rw [isHeading, normalizeSectionHeading] at h
  split at h
  next body hBody =>
    rw [dropPrefix?_eq_some] at hBody
    obtain ⟨t, hHash⟩ := startsWith_iff.mp h
    obtain ⟨tail, hTail⟩ := exists_lstrip hBody
    obtain ⟨rest, hRest⟩ := exists_lstrip hHash.symm
    have hNe : lstrip body ≠ [] := by
      rw [hRest]
      exact List.cons_ne_nil _ _
    have hSkip : skipBullet (lstrip (lineBody line)) = lstrip (body ++ tail) := by
      rw [hTail]
      rfl
    rw [hSkip, lstrip_append_of_ne hNe, hRest]
    rfl
  next =>
    obtain ⟨t, hHash⟩ := startsWith_iff.mp h
    obtain ⟨rest, hRest⟩ := exists_lstrip hHash.symm
    rw [hRest]
    rfl

theorem lineBody_stripped (head text : Str) :
    lineBody (head ++ ' ' :: strip text) = head ++ ' ' :: strip text := by
  rw [lineBody, rstripChars, List.rdropWhile_eq_self_iff]
  intro hNe hBreak
  cases List.eq_nil_or_concat' (strip text) with
  | inl hNil =>
      simp only [hNil, List.getLast_append_singleton] at hBreak
      exact absurd hBreak (by decide)
  | inr hConcat =>
      obtain ⟨init, c, hEq⟩ := hConcat
      have hLast := List.rdropWhile_last_not isSpace (lstrip text)
      rw [← rstrip, ← strip, hEq] at hLast
      have hNotSpace := hLast (by simp)
      simp only [hEq, ← List.cons_append, ← List.append_assoc,
        List.getLast_append_singleton] at hBreak hNotSpace
      rw [List.contains_eq_mem, decide_eq_true_eq, List.mem_singleton] at hBreak
      rw [hBreak] at hNotSpace
      exact hNotSpace (by decide)

theorem summaryLine_eq (summary : Str) :
    summaryLine summary = "- context-summary::".toList ++ ' ' :: strip summary ++ ['\n'] := by
  have hKey : "- context-summary:: ".toList = "- context-summary::".toList ++ [' '] := by decide
  have hAssoc (k text tail : Str) : k ++ [' '] ++ text ++ tail = k ++ ' ' :: text ++ tail := by simp
  exact (congrArg (· ++ strip summary ++ ['\n']) hKey).trans (hAssoc _ _ _)

theorem skipBullet_summaryLine (summary : Str) :
    skipBullet (lstrip (lineBody (summaryLine summary))) =
      "context-summary::".toList ++ ' ' :: strip summary := by
  have hKey : "- context-summary::".toList = '-' :: ' ' :: "context-summary::".toList := by decide
  have hSkip (text : Str) : skipBullet (lstrip ('-' :: ' ' :: 'c' :: text)) = 'c' :: text := by
    rw [lstrip_cons_of_not_isSpace (by decide)]
    exact lstrip_cons_of_not_isSpace (c := 'c') (by decide) _
  have hBody : lineBody (summaryLine summary) =
      "- context-summary::".toList ++ ' ' :: strip summary := by
    rw [summaryLine_eq, lineBody_newline]
    exact lineBody_stripped _ _
  exact (congrArg (fun body => skipBullet (lstrip body))
    (hBody.trans (congrArg (· ++ ' ' :: strip summary) hKey))).trans (hSkip _)

/-- A line has one kind of content, told by the first character after its bullet. -/
theorem fields_summaryLine (summary : Str) :
    fields (summaryLine summary) = ⟨none, none, some (strip summary), false, false⟩ := by
  have hHead : (skipBullet (lstrip (lineBody (summaryLine summary)))).head? = some 'c' := by
    rw [skipBullet_summaryLine]
    rfl
  have hRef : refFrom? (summaryLine summary) = none := by
    rw [← Option.not_isSome_iff_eq_none]
    intro h
    rw [head_of_refFrom? h] at hHead
    cases hHead
  have hSource : sourceBlock? (summaryLine summary) = none := by
    rw [← Option.not_isSome_iff_eq_none]
    intro h
    rw [head_of_sourceBlock? h] at hHead
    cases hHead
  have hHeading : isHeading (summaryLine summary) = false := by
    rw [← Bool.not_eq_true]
    intro h
    rw [head_of_isHeading h] at hHead
    cases hHead
  have hBacklink : isBacklinkHeading (summaryLine summary) = false := by
    rw [← Bool.not_eq_true]
    intro h
    rw [isHeading_of_isBacklinkHeading h] at hHeading
    cases hHeading
  have hContext : contextSummary? (summaryLine summary) = some (strip summary) := by
    rw [contextSummary?, fieldText?, skipBullet_summaryLine, dropPrefix?_eq_some.mpr rfl,
      Option.map_some, Option.map_some]
    have hBlank : lstrip (' ' :: strip summary) = strip summary := lstrip_strip summary
    rw [hBlank, strip_strip]
  rw [fields, hRef, hSource, hHeading, hBacklink, hContext]

theorem refFrom?_summaryLine (summary : Str) : refFrom? (summaryLine summary) = none :=
  (Fields.mk.inj (fields_summaryLine summary)).1

theorem sourceBlock?_summaryLine (summary : Str) : sourceBlock? (summaryLine summary) = none :=
  (Fields.mk.inj (fields_summaryLine summary)).2.1

theorem contextSummary?_summaryLine (summary : Str) :
    contextSummary? (summaryLine summary) = some (strip summary) :=
  (Fields.mk.inj (fields_summaryLine summary)).2.2.1

theorem isHeading_summaryLine (summary : Str) : isHeading (summaryLine summary) = false :=
  (Fields.mk.inj (fields_summaryLine summary)).2.2.2.1

theorem isSummaryLine_summaryLine (summary : Str) : isSummaryLine (summaryLine summary) = true := by
  rw [isSummaryLine, contextSummary?_summaryLine]
  rfl

/-- A summary line has none of the other fields. -/
theorem fields_of_isSummaryLine (h : isSummaryLine line = true) :
    refFrom? line = none ∧ sourceBlock? line = none ∧ isHeading line = false := by
  have hHead := head_of_isSummaryLine h
  refine ⟨?_, ?_, ?_⟩
  · rw [← Option.not_isSome_iff_eq_none]
    intro hSome
    rw [head_of_refFrom? hSome] at hHead
    cases hHead
  · rw [← Option.not_isSome_iff_eq_none]
    intro hSome
    rw [head_of_sourceBlock? hSome] at hHead
    cases hHead
  · rw [← Bool.not_eq_true]
    intro hHeading
    rw [head_of_isHeading hHeading] at hHead
    cases hHead

end Fields

section Lists

variable {f : Str → Option Str} {g : Str → List Str}

theorem any_eq_filterMap (f : Str → Option Str) (x : Str) :
    (ls.any fun line => f line == some x) = (ls.filterMap f).contains x := by
  induction ls with
  | nil => rfl
  | cons line ls ih =>
      rw [List.any_cons, ih]
      cases hf : f line with
      | none => simp [hf]
      | some y =>
          by_cases hEq : x = y
          · simp [hf, hEq]
          · simp [hf, hEq, Ne.symm hEq]

theorem any_isSome_eq_filterMap (f : Str → Option Str) :
    (ls.any fun line => (f line).isSome) = !(ls.filterMap f).isEmpty := by
  induction ls with
  | nil => rfl
  | cons line ls ih =>
      rw [List.any_cons, ih]
      cases hf : f line with
      | none => simp [hf]
      | some y => simp [hf]

theorem sectionMatches_congr {ms : List Str}
    (hRef : ls.filterMap refFrom? = ms.filterMap refFrom?)
    (hSource : ls.filterMap sourceBlock? = ms.filterMap sourceBlock?) :
    r.sectionMatches ls = r.sectionMatches ms := by
  simp only [Record.sectionMatches, any_eq_filterMap, any_isSome_eq_filterMap, hRef, hSource]

theorem existingSummary_eq (ls : List Str) :
    existingSummary ls = (ls.filterMap contextSummary?).head?.getD [] := by
  rw [existingSummary, List.head?_filterMap]

theorem filterMap_flatMap_of (h : ∀ line ∈ ls, (g line).filterMap f = (f line).toList) :
    (ls.flatMap g).filterMap f = ls.filterMap f := by
  induction ls with
  | nil => rfl
  | cons line ls ih =>
      rw [List.flatMap_cons, List.filterMap_append, h line List.mem_cons_self,
        ih fun m hm => h m (List.mem_cons_of_mem _ hm)]
      cases hf : f line with
      | none => simp [hf]
      | some y => simp [hf]

theorem length_le_flatMap (hNe : ∀ line ∈ ls, g line ≠ []) :
    ls.length ≤ (ls.flatMap g).length := by
  induction ls with
  | nil => simp
  | cons line ls ih =>
      have hFirst := List.length_pos_iff.mpr (hNe line List.mem_cons_self)
      have hRest := ih fun m hm => hNe m (List.mem_cons_of_mem _ hm)
      rw [List.flatMap_cons, List.length_append, List.length_cons]
      omega

/-- With lines that each become at least one line, equal lines are equal one by one. -/
theorem sameLines_cons {hs added : List Str} (hHs : hs ≠ [])
    (hNe : ∀ line ∈ ls, g line ≠ []) :
    SameLines (line :: ls) (hs ++ ls.flatMap g ++ added) ↔
      SameLines [line] hs ∧ SameLines ls (ls.flatMap g) ∧ added = [] := by
  have hLength := length_le_flatMap hNe
  have hFirst := List.length_pos_iff.mpr hHs
  simp only [SameLines, List.map_append, List.append_assoc]
  constructor
  · intro h
    have hTotal := congrArg List.length h
    simp only [List.length_map, List.length_append, List.length_cons] at hTotal
    have hAdded : added = [] := List.length_eq_zero_iff.mp (by omega)
    rw [hAdded, List.map_nil, List.append_nil] at h
    have hOneByOne : [dropLineBreak line].length = (hs.map dropLineBreak).length := by
      simp only [List.length_cons, List.length_nil, List.length_map]
      omega
    have hSplit := List.append_inj h hOneByOne
    exact ⟨hSplit.1, hSplit.2, hAdded⟩
  · intro h
    rw [← h.1, ← h.2.1, h.2.2]
    simp

theorem sameLines_flatMap (hNe : ∀ line ∈ ls, g line ≠ []) :
    SameLines ls (ls.flatMap g) ↔ ∀ line ∈ ls, SameLines [line] (g line) := by
  induction ls with
  | nil => simp [SameLines]
  | cons line ls ih =>
      rw [List.forall_mem_cons] at hNe
      have hCons : SameLines (line :: ls) (g line ++ ls.flatMap g ++ []) ↔ _ :=
        sameLines_cons hNe.1 hNe.2
      rw [List.append_nil] at hCons
      rw [List.flatMap_cons, hCons, ih hNe.2, List.forall_mem_cons]
      simp

end Lists

section Refreshed

/-- The line ends with a newline or not at all, as opposed to another line boundary. -/
def EndsWell (line : Str) : Prop := ∀ c ∈ line.getLast?, isLineBreak c = true → c = '\n'

instance (line : Str) : Decidable (EndsWell line) :=
  inferInstanceAs (Decidable (∀ c ∈ line.getLast?, isLineBreak c = true → c = '\n'))

/-- The lines that a refreshed line is when the page is read again. -/
def refreshed (summary line : Str) : List Str := splitlinesKeep (refreshLine summary line)

/-- The record's summary stays on one line. -/
def OneLine (summary : Str) : Prop := ∀ c ∈ strip summary, isLineBreak c = false

theorem closed_summaryLine (h : OneLine summary) : Closed (summaryLine summary) := by
  apply closed_append_newline
  intro c hc
  cases List.mem_append.mp hc with
  | inl hKey => exact (by decide : ∀ c ∈ "- context-summary:: ".toList, isLineBreak c = false) c hKey
  | inr hText => exact h c hText

theorem splitlinesKeep_closed {l : Str} (h : Closed l) : splitlinesKeep l = [l] := by
  simpa [splitlinesKeep] using splitlinesKeep_closed_append h []

theorem refreshed_summaryLine (hOne : OneLine summary) (h : isSummaryLine line = true) :
    refreshed summary line = [summaryLine summary] := by
  rw [refreshed, refreshLine, if_pos h, splitlinesKeep_closed (closed_summaryLine hOne)]

/-- What is read in place of a line that is no summary. -/
theorem refreshed_other (hLine : LinePiece line) (h : isSummaryLine line = false) :
    (EndsWell line ∧ ∃ m, refreshed summary line = [m] ∧ lineBody m = lineBody line ∧
      dropLineBreak m = dropLineBreak line ∧ Closed m ∧ (m = line ∨ m = line ++ ['\n'])) ∨
    ¬EndsWell line ∧ refreshed summary line = [line, ['\n']] ∧ Closed line := by
  rw [refreshed, refreshLine, if_neg (by simp [h])]
  cases hLine with
  | inr hOpen =>
      have hNot : ¬endsWith ['\n'] line = true := by
        rw [endsWith_iff]
        intro hSuffix
        have := hOpen.2 '\n' (hSuffix.subset (by simp))
        cases this
      have hClosed := closed_append_newline hOpen.2
      refine Or.inl ⟨?_, line ++ ['\n'], ?_, lineBody_newline line, ?_, hClosed, Or.inr rfl⟩
      · intro c hc hBreak
        have := hOpen.2 c (List.mem_of_getLast? hc)
        rw [hBreak] at this
        cases this
      · rw [if_neg hNot, splitlinesKeep_closed hClosed]
      · rw [dropLineBreak_line hOpen.2, dropLineBreak_of_free hOpen.2]
  | inl hClosed =>
      obtain ⟨body, b, hEq, hBreak, -, hFree⟩ := id hClosed
      have hLast : line.getLast? = some b := by rw [hEq]; simp
      by_cases hNewline : b = '\n'
      · have hEnds : endsWith ['\n'] line = true := by
          rw [endsWith_iff, hEq, hNewline]
          exact List.suffix_append body _
        refine Or.inl ⟨?_, line, ?_, rfl, rfl, hClosed, Or.inl rfl⟩
        · intro c hc _
          rw [hLast] at hc
          exact (Option.some.inj hc).symm.trans hNewline
        · rw [if_pos hEnds, splitlinesKeep_closed hClosed]
      · have hNot : ¬endsWith ['\n'] line = true := by
          rw [endsWith_iff, hEq]
          rintro ⟨t, hSuffix⟩
          exact hNewline (List.cons.inj (List.append_inj' hSuffix rfl).2).1.symm
        refine Or.inr ⟨?_, ?_, hClosed⟩
        · intro hWell
          exact hNewline (hWell b hLast hBreak)
        · rw [if_neg hNot, splitlinesKeep_closed_append hClosed]
          rfl

/-- A refreshed line is the new summary, the line as it was, or the line and an empty one. -/
inductive Refreshed (summary line : Str) : List Str → Prop where
  | summary (hSummary : isSummaryLine line = true) :
      Refreshed summary line [summaryLine summary]
  | kept (m : Str) (hOther : isSummaryLine line = false) (hWell : EndsWell line)
      (hFields : fields m = fields line) (hText : dropLineBreak m = dropLineBreak line)
      (hClosed : Closed m) (hForm : m = line ∨ m = line ++ ['\n']) :
      Refreshed summary line [m]
  | broken (hOther : isSummaryLine line = false) (hBroken : ¬EndsWell line)
      (hClosed : Closed line) : Refreshed summary line [line, ['\n']]

theorem refreshed_cases (hOne : OneLine summary) (hLine : LinePiece line) :
    Refreshed summary line (refreshed summary line) := by
  cases hSummary : isSummaryLine line with
  | true =>
      rw [refreshed_summaryLine hOne hSummary]
      exact .summary hSummary
  | false =>
      cases refreshed_other hLine hSummary with
      | inl hWell =>
          obtain ⟨hWell, m, hEq, hBody, hText, hClosed, hForm⟩ := hWell
          rw [hEq]
          exact .kept m hSummary hWell (fields_congr hBody) hText hClosed hForm
      | inr hBroken =>
          rw [hBroken.2.1]
          exact .broken hSummary hBroken.1 hBroken.2.2

variable {ms : List Str}

theorem fields_newline : fields ['\n'] = ⟨none, none, none, false, false⟩ := fields_of_empty rfl

theorem isSummaryLine_of_fields (h : fields m = fields line) :
    isSummaryLine m = isSummaryLine line :=
  congrArg (fun f => f.contextSummary.isSome) h

theorem Refreshed.ne_nil (h : Refreshed summary line ms) : ms ≠ [] := by
  cases h with
  | summary => simp
  | kept => simp
  | broken => simp

/-- What is read of a line other than its summary is read of the refreshed line. -/
theorem Refreshed.filterMap {f : Str → Option Str} (read : Fields → Option Str)
    (hRead : ∀ l, f l = read (fields l)) (hNewline : f ['\n'] = none)
    (hSummary : ∀ l, isSummaryLine l = true → f l = none) (h : Refreshed summary line ms) :
    ms.filterMap f = (f line).toList := by
  cases h with
  | summary hIs =>
      rw [hSummary line hIs]
      simp [hSummary _ (isSummaryLine_summaryLine summary)]
  | kept m _ _ hFields =>
      have hSame : f m = f line := by rw [hRead, hRead, hFields]
      cases hf : f line with
      | none => simp [hSame, hf]
      | some x => simp [hSame, hf]
  | broken =>
      cases hf : f line with
      | none => simp [hf, hNewline]
      | some x => simp [hf, hNewline]

theorem Refreshed.refFrom (h : Refreshed summary line ms) :
    ms.filterMap refFrom? = (refFrom? line).toList :=
  h.filterMap Fields.refFrom (fun _ => rfl) (congrArg Fields.refFrom fields_newline)
    fun _ hSummary => (fields_of_isSummaryLine hSummary).1

theorem Refreshed.sourceBlock (h : Refreshed summary line ms) :
    ms.filterMap sourceBlock? = (sourceBlock? line).toList :=
  h.filterMap Fields.sourceBlock (fun _ => rfl) (congrArg Fields.sourceBlock fields_newline)
    fun _ hSummary => (fields_of_isSummaryLine hSummary).2.1

theorem contextSummary?_of_other (h : isSummaryLine line = false) :
    contextSummary? line = none := by
  simpa [isSummaryLine] using h

theorem Refreshed.contextSummary (h : Refreshed summary line ms) :
    ms.filterMap contextSummary? = if isSummaryLine line then [strip summary] else [] := by
  have hNewline : contextSummary? ['\n'] = none :=
    congrArg Fields.contextSummary fields_newline
  cases h with
  | summary hIs =>
      simp [hIs, contextSummary?_summaryLine]
  | kept m hOther _ hFields =>
      have hNone := contextSummary?_of_other ((isSummaryLine_of_fields hFields).trans hOther)
      simp [hOther, hNone]
  | broken hOther =>
      have hNone := contextSummary?_of_other hOther
      simp [hOther, hNone, hNewline]

theorem Refreshed.keepsMarks (h : Refreshed summary line ms) {g : Str → List Str}
    (hg : g line = ms) : KeepsMarks isHeading g line := by
  rw [KeepsMarks, hg]
  have hNewline : isHeading ['\n'] = false := congrArg Fields.heading fields_newline
  cases h with
  | summary hIs =>
      rw [if_neg (by simp [(fields_of_isSummaryLine hIs).2.2])]
      simpa using isHeading_summaryLine summary
  | kept m _ _ hFields =>
      have hSame : isHeading m = isHeading line := congrArg Fields.heading hFields
      split_ifs with hHeading
      · exact ⟨m, [], rfl, hSame.trans hHeading, by simp⟩
      · simpa [hSame] using hHeading
  | broken =>
      split_ifs with hHeading
      · exact ⟨line, [['\n']], rfl, hHeading, by simpa using hNewline⟩
      · simpa [hNewline] using hHeading

/-- The heading of a backlink section stays one. -/
theorem Refreshed.backlink (h : Refreshed summary line ms) (hHeading : isHeading line = true) :
    isBacklinkHeading (ms.headD line) = isBacklinkHeading line := by
  cases h with
  | summary hIs =>
      rw [(fields_of_isSummaryLine hIs).2.2] at hHeading
      cases hHeading
  | kept m _ _ hFields => exact congrArg Fields.backlink hFields
  | broken => rfl

theorem Refreshed.sameLines (h : Refreshed summary line ms) :
    SameLines [line] ms ↔
      if isSummaryLine line then dropLineBreak line = dropLineBreak (summaryLine summary)
      else EndsWell line := by
  cases h with
  | summary hIs => simp [SameLines, hIs]
  | kept m hOther hWell _ hText => simp [SameLines, hOther, hWell, hText]
  | broken hOther hBroken => simp [SameLines, hOther, hBroken]

theorem Refreshed.filter_other (h : Refreshed summary line ms) :
    ms.filter (fun l => !isSummaryLine l) = if isSummaryLine line then [] else ms := by
  have hNewline : isSummaryLine ['\n'] = false :=
    congrArg (fun f => f.contextSummary.isSome) fields_newline
  cases h with
  | summary hIs => simp [hIs, isSummaryLine_summaryLine]
  | kept m hOther _ hFields => simp [hOther, isSummaryLine_of_fields hFields]
  | broken hOther => simp [hOther, hNewline]

theorem Refreshed.closed (h : Refreshed summary line ms) (hOne : OneLine summary) :
    ∀ l ∈ ms, Closed l := by
  have hNewline : Closed ['\n'] := ⟨[], '\n', rfl, rfl, by decide, by simp⟩
  cases h with
  | summary => simpa using closed_summaryLine hOne
  | kept m _ _ _ _ hClosed => simpa using hClosed
  | broken _ _ hClosed => simpa using ⟨hClosed, hNewline⟩

end Refreshed

section Sections

variable {s : Section Str} {hs added : List Str}

/-- A section whose heading is read as the lines `hs` and whose other lines are refreshed. -/
def renew (summary : Str) (hs added : List Str) (s : Section Str) : Section Str :=
  ⟨hs.headD s.heading, hs.tail ++ s.body.flatMap (refreshed summary) ++ added⟩

/-- The heading of a section is kept, with an empty line below it at most. -/
structure HeadingKept (s : Section Str) (hs : List Str) : Prop where
  ne_nil : hs ≠ []
  heading : isHeading (hs.headD s.heading) = true
  backlink : isBacklinkHeading (hs.headD s.heading) = isBacklinkHeading s.heading
  other : ∀ l ∈ hs, isSummaryLine l = false
  tail : ∀ l ∈ hs.tail, l = ['\n']

/-- The section after the upsert is right: it has the record's summary if the record keys
it, and is as it was otherwise. -/
def Record.Fine (r : Record) (s t : Section Str) : Prop :=
  r.SameBut s t ∧ (r.Keys t → existingSummary t.body = strip r.summary)

theorem isSummaryLine_of_heading (h : isHeading line = true) : isSummaryLine line = false := by
  rw [← Bool.not_eq_true]
  intro hSummary
  rw [(fields_of_isSummaryLine hSummary).2.2] at h
  cases h

theorem headingKept_self (h : isHeading s.heading = true) : HeadingKept s [s.heading] where
  ne_nil := by simp
  heading := h
  backlink := rfl
  other := by simpa using isSummaryLine_of_heading h
  tail := by simp

theorem Refreshed.headingKept (hRefreshed : Refreshed summary s.heading hs)
    (h : isHeading s.heading = true) : HeadingKept s hs := by
  have hOther := isSummaryLine_of_heading h
  have hNewline : isSummaryLine ['\n'] = false :=
    congrArg (fun f => f.contextSummary.isSome) fields_newline
  refine ⟨hRefreshed.ne_nil, ?_, hRefreshed.backlink h, ?_, ?_⟩
  · cases hRefreshed with
    | summary hIs => exact absurd hIs (by simp [hOther])
    | kept m _ _ hFields => exact (congrArg Fields.heading hFields).trans h
    | broken => exact h
  · cases hRefreshed with
    | summary hIs => exact absurd hIs (by simp [hOther])
    | kept m _ _ hFields => simpa using (isSummaryLine_of_fields hFields).trans hOther
    | broken => simpa using ⟨hOther, hNewline⟩
  · cases hRefreshed with
    | summary => simp
    | kept => simp
    | broken => simp

/-- The lines of a section, as the refresh finds them. -/
structure Lined (s : Section Str) : Prop where
  wellCut : WellCut isHeading s
  pieces : ∀ l ∈ s.all, LinePiece l

variable (hKept : HeadingKept s hs) (hOne : OneLine r.summary) (hLined : Lined s)
  (hAdded : added = [] ∨ added = [summaryLine r.summary])

include hOne hLined in
theorem Lined.refreshed {l : Str} (h : l ∈ s.all) :
    Refreshed r.summary l (refreshed r.summary l) :=
  refreshed_cases hOne (hLined.pieces l h)

include hKept in
theorem HeadingKept.filterMap_tail {f : Str → Option Str} (hNewline : f ['\n'] = none) :
    hs.tail.filterMap f = [] := by
  rw [List.filterMap_eq_nil_iff]
  intro l hl
  rw [hKept.tail l hl, hNewline]

include hKept hOne hLined hAdded in
/-- A refreshed section is keyed as it was. -/
theorem keys_renew : r.Keys (renew r.summary hs added s) = r.Keys s := by
  have hAll : ∀ l ∈ s.body, Refreshed r.summary l (refreshed r.summary l) :=
    fun l hl => hLined.refreshed hOne (List.mem_cons_of_mem _ hl)
  have hNone (f : Str → Option Str) (hSummary : f (summaryLine r.summary) = none) :
      added.filterMap f = [] := by
    cases hAdded with
    | inl hNil => rw [hNil]; rfl
    | inr hLine => simp [hLine, hSummary]
  have hRef : (renew r.summary hs added s).body.filterMap refFrom? =
      s.body.filterMap refFrom? := by
    rw [renew, List.filterMap_append, List.filterMap_append,
      hKept.filterMap_tail (congrArg Fields.refFrom fields_newline),
      filterMap_flatMap_of fun l hl => (hAll l hl).refFrom,
      hNone refFrom? (refFrom?_summaryLine _)]
    simp
  have hSource : (renew r.summary hs added s).body.filterMap sourceBlock? =
      s.body.filterMap sourceBlock? := by
    rw [renew, List.filterMap_append, List.filterMap_append,
      hKept.filterMap_tail (congrArg Fields.sourceBlock fields_newline),
      filterMap_flatMap_of fun l hl => (hAll l hl).sourceBlock,
      hNone sourceBlock? (sourceBlock?_summaryLine _)]
    simp
  rw [Record.Keys, Record.Keys, sectionMatches_congr hRef hSource]
  exact congrArg (· && _) hKept.backlink

theorem any_isSummaryLine_eq (ls : List Str) :
    ls.any isSummaryLine = !(ls.filterMap contextSummary?).isEmpty :=
  any_isSome_eq_filterMap contextSummary?

theorem existingSummary_flatMap {rest : List Str}
    (hAll : ∀ l ∈ ls, Refreshed summary l (refreshed summary l)) :
    existingSummary (ls.flatMap (refreshed summary) ++ rest) =
      if ls.any isSummaryLine then strip summary else existingSummary rest := by
  induction ls with
  | nil => simp
  | cons line ls ih =>
      rw [List.forall_mem_cons] at hAll
      have hRest := ih hAll.2
      rw [existingSummary_eq] at hRest ⊢
      rw [List.flatMap_cons, List.append_assoc, List.filterMap_append,
        hAll.1.contextSummary, List.any_cons]
      cases hSummary : isSummaryLine line with
      | true => rfl
      | false =>
          rw [Bool.false_or, if_neg Bool.false_ne_true, List.nil_append]
          exact hRest

theorem existingSummary_summaryLine (summary : Str) :
    existingSummary [summaryLine summary] = strip summary := by
  rw [existingSummary, List.findSome?_cons, contextSummary?_summaryLine]
  rfl

include hKept hOne hLined hAdded in
theorem existingSummary_renew :
    existingSummary (renew r.summary hs added s).body = strip r.summary ↔
      s.body.any isSummaryLine ∨ added ≠ [] ∨ strip r.summary = [] := by
  have hAll : ∀ l ∈ s.body, Refreshed r.summary l (refreshed r.summary l) :=
    fun l hl => hLined.refreshed hOne (List.mem_cons_of_mem _ hl)
  have hBody : existingSummary (renew r.summary hs added s).body =
      existingSummary (s.body.flatMap (refreshed r.summary) ++ added) := by
    rw [existingSummary_eq, existingSummary_eq, renew, List.append_assoc, List.filterMap_append,
      hKept.filterMap_tail (congrArg Fields.contextSummary fields_newline), List.nil_append]
  rw [hBody, existingSummary_flatMap hAll]
  cases hAny : s.body.any isSummaryLine with
  | true => simp
  | false =>
      rw [if_neg Bool.false_ne_true]
      cases hAdded with
      | inl hNil =>
          rw [hNil, show existingSummary [] = [] from rfl, eq_comm]
          simp
      | inr hLine =>
          rw [hLine, existingSummary_summaryLine]
          simp

theorem filter_flatMap_refreshed (hAll : ∀ l ∈ ls, Refreshed summary l (refreshed summary l)) :
    (ls.flatMap (refreshed summary)).filter (fun l => !isSummaryLine l) =
      (ls.filter fun l => !isSummaryLine l).flatMap (refreshed summary) := by
  induction ls with
  | nil => rfl
  | cons line ls ih =>
      rw [List.forall_mem_cons] at hAll
      rw [List.flatMap_cons, List.filter_append, hAll.1.filter_other, ih hAll.2]
      cases hSummary : isSummaryLine line with
      | true => simp [hSummary]
      | false => simp [hSummary]

include hKept hOne hLined hAdded in
/-- When a refreshed section is right. -/
theorem fine_renew :
    r.Fine s (renew r.summary hs added s) ↔
      SameLines [s.heading] hs ∧ (∀ line ∈ s.body, isSummaryLine line ∨ EndsWell line) ∧
        if r.Keys s then s.body.any isSummaryLine ∨ added ≠ [] ∨ strip r.summary = []
        else added = [] ∧ ∀ line ∈ s.body, isSummaryLine line →
          dropLineBreak line = dropLineBreak (summaryLine r.summary) := by
  have hAll : ∀ l ∈ s.body, Refreshed r.summary l (refreshed r.summary l) :=
    fun l hl => hLined.refreshed hOne (List.mem_cons_of_mem _ hl)
  have hJoin : hs.headD s.heading :: hs.tail = hs := by
    cases hs with
    | nil => exact absurd rfl hKept.ne_nil
    | cons h hs => rfl
  have hLines : (renew r.summary hs added s).all =
      hs ++ s.body.flatMap (refreshed r.summary) ++ added := by
    rw [Section.all, renew, ← List.cons_append, ← List.cons_append, hJoin]
  have hHeading : isSummaryLine s.heading = false := isSummaryLine_of_heading hLined.wellCut.1
  rw [Record.Fine, keys_renew hKept hOne hLined hAdded, existingSummary_renew hKept hOne hLined hAdded,
    Record.SameBut]
  cases hKeys : r.Keys s with
  | true =>
      have hOld : otherLines s = s.heading :: s.body.filter fun l => !isSummaryLine l := by
        simp [otherLines, Section.all, hHeading]
      have hNew : otherLines (renew r.summary hs added s) =
          hs ++ (s.body.filter fun l => !isSummaryLine l).flatMap (refreshed r.summary) ++ [] := by
        have hHs : hs.filter (fun l => !isSummaryLine l) = hs :=
          List.filter_eq_self.mpr fun l hl => by rw [hKept.other l hl]; rfl
        have hGone : added.filter (fun l => !isSummaryLine l) = [] := by
          cases hAdded with
          | inl hNil => rw [hNil]; rfl
          | inr hLine => simp [hLine, isSummaryLine_summaryLine]
        rw [otherLines, hLines, List.filter_append, List.filter_append, hHs, hGone,
          filter_flatMap_refreshed hAll]
      have hOthers : ∀ l ∈ s.body.filter (fun l => !isSummaryLine l),
          Refreshed r.summary l (refreshed r.summary l) :=
        fun l hl => hAll l (List.mem_of_mem_filter hl)
      have hWell : (∀ l ∈ s.body.filter (fun l => !isSummaryLine l),
            SameLines [l] (refreshed r.summary l)) ↔
          ∀ line ∈ s.body, isSummaryLine line ∨ EndsWell line := by
        simp only [List.mem_filter, and_imp]
        apply forall₂_congr
        intro l hl
        rw [(hAll l hl).sameLines]
        cases isSummaryLine l <;> simp
      rw [if_pos rfl, if_pos rfl, hOld, hNew,
        sameLines_cons hKept.ne_nil fun l hl => (hOthers l hl).ne_nil,
        sameLines_flatMap fun l hl => (hOthers l hl).ne_nil, hWell]
      simp [and_assoc]
  | false =>
      have hWell : (∀ l ∈ s.body, SameLines [l] (refreshed r.summary l)) ↔
          (∀ line ∈ s.body, isSummaryLine line ∨ EndsWell line) ∧
            ∀ line ∈ s.body, isSummaryLine line →
              dropLineBreak line = dropLineBreak (summaryLine r.summary) := by
        rw [← forall₂_and]
        apply forall₂_congr
        intro l hl
        rw [(hAll l hl).sameLines]
        cases isSummaryLine l <;> simp
      rw [if_neg Bool.false_ne_true, if_neg Bool.false_ne_true, hLines, Section.all,
        sameLines_cons hKept.ne_nil fun l hl => (hAll l hl).ne_nil,
        sameLines_flatMap fun l hl => (hAll l hl).ne_nil, hWell]
      simp only [Bool.false_eq_true, false_implies, and_true]
      constructor
      · intro h
        exact ⟨h.1, h.2.1.1, h.2.2, h.2.1.2⟩
      · intro h
        exact ⟨h.1, ⟨h.2.1, h.2.2.2⟩, h.2.2.1⟩

include hKept hOne hLined hAdded in
theorem wellCut_renew : WellCut isHeading (renew r.summary hs added s) := by
  refine ⟨hKept.heading, fun l hl => ?_⟩
  rw [renew, List.mem_append, List.mem_append] at hl
  cases hl with
  | inr hEnd =>
      cases hAdded with
      | inl hNil => simp [hNil] at hEnd
      | inr hLine =>
          rw [hLine, List.mem_singleton] at hEnd
          rw [hEnd]
          exact isHeading_summaryLine r.summary
  | inl hBefore =>
      cases hBefore with
      | inl hExtra =>
          rw [hKept.tail l hExtra]
          exact congrArg Fields.heading fields_newline
      | inr hBody =>
          obtain ⟨line, hLine, hMem⟩ := List.mem_flatMap.mp hBody
          have hMarks := (hLined.refreshed hOne (List.mem_cons_of_mem _ hLine)).keepsMarks
            (g := refreshed r.summary) rfl
          rw [KeepsMarks, if_neg (by simp [hLined.wellCut.2 line hLine])] at hMarks
          exact hMarks l hMem

end Sections

end Plumber.Backlink
