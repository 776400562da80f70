import MatrycaPlumber.Agent.BacklinkRuns

/-! The sections of a page after the upsert, and the lines in which a text is found. -/
namespace Plumber.Backlink

open PyText Sections

variable {r : Record} {content : Str} {run secs : List (Section Str)}

section Infix

/-- A text without line boundaries is found on one side of a boundary. -/
theorem infix_append_break {t : Str} {b : Char} (body rest : Str) (hFree : b ∉ t) :
    t <:+: body ++ b :: rest ↔ t <:+: body ∨ t <:+: rest := by
  constructor
  · rintro ⟨x, y, h⟩
    cases List.append_eq_append_iff.mp h with
    | inl hBefore =>
        obtain ⟨z, hBody, -⟩ := hBefore
        exact Or.inl ⟨x, z, hBody.symm⟩
    | inr hAfter =>
        obtain ⟨z, hText, hRest⟩ := hAfter
        cases z with
        | nil => exact Or.inl ⟨x, [], by simpa using hText⟩
        | cons c z =>
            obtain ⟨rfl, -⟩ := List.cons.inj hRest
            rw [show body ++ b :: z = (body ++ [b]) ++ z by simp, List.append_eq_append_iff] at hText
            cases hText with
            | inl hInside =>
                obtain ⟨w, hBreak, hText⟩ := hInside
                cases List.eq_nil_or_concat' w with
                | inl hNil =>
                    refine Or.inr ⟨[], y, ?_⟩
                    rw [hText, hNil]
                    simpa using (List.cons.inj hRest).2.symm
                | inr hConcat =>
                    obtain ⟨init, d, rfl⟩ := hConcat
                    rw [← List.append_assoc] at hBreak
                    have hEq := (List.append_inj' hBreak rfl).2
                    rw [hText, (List.cons.inj hEq).1] at hFree
                    simp at hFree
            | inr hOutside =>
                obtain ⟨w, -, hText⟩ := hOutside
                refine Or.inr ⟨w, y, ?_⟩
                rw [← hText]
                exact (List.cons.inj hRest).2.symm
  · intro h
    cases h with
    | inl hBody => exact List.infix_append_of_infix_left hBody
    | inr hRest => exact List.infix_append_of_infix_right (hRest.trans (List.suffix_cons b rest).isInfix)

/-- A text without line boundaries is found in a page if it is in one of its lines. -/
theorem infix_flatten {t : Str} {ls : List Str} (hNe : t ≠ [])
    (hFree : ∀ c ∈ t, isLineBreak c = false) (hPage : PageLines ls) :
    t <:+: ls.flatten ↔ ∃ line ∈ ls, t <:+: line := by
  have hBreak {b : Char} (hb : isLineBreak b = true) : b ∉ t := by
    intro hMem
    rw [hFree b hMem] at hb
    cases hb
  induction ls with
  | nil => simp [hNe]
  | cons line ls ih =>
      cases ls with
      | nil => simp
      | cons next ls =>
          obtain ⟨body, b, rfl, hb, -, -⟩ := hPage.1
          have hLine : t <:+: body ++ [b] ↔ t <:+: body := by
            simpa [hNe] using infix_append_break body [] (hBreak hb)
          have hRest := ih hPage.tail
          have hFirst : t <:+: (body ++ [b]) ++ (next :: ls).flatten ↔
              t <:+: body ∨ t <:+: (next :: ls).flatten := by
            rw [List.append_assoc]
            exact infix_append_break body _ (hBreak hb)
          rw [List.flatten_cons, hFirst, List.exists_mem_cons_iff, hLine]
          exact or_congr_right hRest

end Infix

section Page

variable (hCr : '\r' ∉ content)

include hCr in
theorem lined_pageSections : ∀ s ∈ (pageSections content).2, Lined s := by
  intro s hs
  refine ⟨(wellCut_pageSections content).2 s hs, fun l hl => ?_⟩
  have hJoin : (pageSections content).1 ++ (pageSections content).2.flatMap Section.all =
      splitlinesKeep content := cut_join
  have hMem : l ∈ splitlinesKeep content := by
    rw [← hJoin]
    exact List.mem_append_right _ (List.mem_flatMap.mpr ⟨s, hs, hl⟩)
  exact linePiece_of_pageLines (pageLines_splitlinesKeep hCr) hMem

theorem mem_of_mem_pageRuns {s : Section Str} (hRun : run ∈ pageRuns content) (hs : s ∈ run) :
    s ∈ (pageSections content).2 := by
  rw [← List.flatten_splitBy (fun s t => isBacklink s && isBacklink t) (pageSections content).2]
  exact List.mem_flatten.mpr ⟨run, hRun, hs⟩

include hCr in
theorem lined_pageRuns (hRun : run ∈ pageRuns content) : ∀ s ∈ run, Lined s :=
  fun s hs => lined_pageSections hCr s (mem_of_mem_pageRuns hRun hs)

theorem flatMap_all_pageRuns (content : Str) :
    (pageRuns content).flatMap (fun run => run.flatMap Section.all) =
      (pageSections content).2.flatMap Section.all := by
  have hFlatten : (pageRuns content).flatten = (pageSections content).2 := List.flatten_splitBy _ _
  rw [← hFlatten, List.flatMap_def, List.flatMap_def, List.map_flatten, List.flatten_flatten,
    List.map_map]
  rfl

theorem sectionLines_ne_nil (h : r.refreshesRun run = true) : sectionLines run ≠ [] := by
  intro hNil
  rw [Record.refreshesRun, Record.refreshes, hNil] at h
  simp [Record.sectionMatches] at h

theorem flatMap_all_eq (hNe : run ≠ []) :
    ∃ heading, run.flatMap Section.all = heading :: sectionLines run := by
  cases run with
  | nil => exact absurd rfl hNe
  | cons s rest => exact ⟨s.heading, rfl⟩

/-- All lines of a refreshed run end, its heading as there are lines below it. -/
theorem closed_newRun (hOne : OneLine r.summary) (hLined : ∀ s ∈ run, Lined s)
    (h : PageLines (run.flatMap Section.all)) (hRefreshes : r.refreshesRun run = true) :
    ∀ l ∈ (r.newRun run).flatMap Section.all, Closed l := by
  obtain ⟨heading, hLines⟩ := flatMap_all_eq (ne_nil_of_refreshesRun hRefreshes)
  rw [newRun_all hOne hLined hRefreshes, List.forall_mem_append, List.forall_mem_append]
  refine ⟨⟨?_, ?_⟩, ?_⟩
  · rw [hLines] at h ⊢
    exact closed_of_pageLines_append (X := [heading]) h (sectionLines_ne_nil hRefreshes)
  · intro l hl
    obtain ⟨line, hLine, hMem⟩ := List.mem_flatMap.mp hl
    exact (refreshed_cases hOne (pieces_sectionLines hLined line hLine)).closed hOne l hMem
  · intro l hl
    cases addedLines_cases r.summary run with
    | inl hNone => simp [hNone] at hl
    | inr hSome =>
        rw [hSome, List.mem_singleton] at hl
        rw [hl]
        exact closed_summaryLine hOne

/-- Runs whose lines are those of a page are so after the upsert. -/
theorem pageLines_newRun (hOne : OneLine r.summary) {rs : List (List (Section Str))}
    (hLined : ∀ run ∈ rs, ∀ s ∈ run, Lined s)
    (h : PageLines (rs.flatMap fun run => run.flatMap Section.all)) :
    PageLines (rs.flatMap fun run => (r.newRun run).flatMap Section.all) := by
  induction rs with
  | nil => trivial
  | cons run rs ih =>
      rw [List.forall_mem_cons] at hLined
      rw [List.flatMap_cons] at h ⊢
      have hRest := ih hLined.2 (pageLines_append h).2
      cases hRefreshes : r.refreshesRun run with
      | true =>
          exact pageLines_append_of_closed
            (closed_newRun hOne hLined.1 (pageLines_append h).1 hRefreshes) hRest
      | false =>
          rw [Record.newRun, if_neg (by simp [hRefreshes])]
          by_cases hNil : (rs.flatMap fun run => run.flatMap Section.all) = []
          · have hEmpty : ∀ other ∈ rs, r.newRun other = [] := by
              intro other hOther
              have hOtherNil : other = [] := by
                by_contra hNe
                obtain ⟨heading, hLines⟩ := flatMap_all_eq hNe
                have hNone := List.flatMap_eq_nil_iff.mp hNil other hOther
                rw [hLines] at hNone
                cases hNone
              rw [Record.newRun, if_neg fun hIs => ne_nil_of_refreshesRun hIs hOtherNil, hOtherNil]
            have hGone : (rs.flatMap fun run => (r.newRun run).flatMap Section.all) = [] :=
              List.flatMap_eq_nil_iff.mpr fun other hOther => by rw [hEmpty other hOther]; rfl
            rw [hGone, List.append_nil]
            exact (pageLines_append h).1
          · exact pageLines_append_of_closed (closed_of_pageLines_append h hNil) hRest

theorem flatten_flatMap_splitlinesKeep (ls : List Str) :
    (ls.flatMap splitlinesKeep).flatten = ls.flatten := by
  induction ls with
  | nil => rfl
  | cons l ls ih =>
      rw [List.flatMap_cons, List.flatten_append, flatten_splitlinesKeep, ih, List.flatten_cons]

/-- The lines of a page after an upsert that refreshes some of its runs. -/
def Record.newLines (r : Record) (content : Str) : List Str :=
  (pageSections content).1 ++ (pageRuns content).flatMap fun run =>
    (r.newRun run).flatMap Section.all

include hCr in
theorem pageLines_newLines (hOne : OneLine r.summary)
    (hAny : (pageRuns content).any r.refreshesRun = true) : PageLines (r.newLines content) := by
  have hJoin : (pageSections content).1 ++ (pageSections content).2.flatMap Section.all =
      splitlinesKeep content := cut_join
  have hPage := pageLines_splitlinesKeep hCr
  rw [← hJoin, ← flatMap_all_pageRuns] at hPage
  apply pageLines_append_of_closed (closed_of_pageLines_append hPage _)
  · exact pageLines_newRun hOne (fun run hRun => lined_pageRuns hCr hRun) (pageLines_append hPage).2
  · obtain ⟨run, hRun, hRefreshes⟩ := List.any_eq_true.mp hAny
    obtain ⟨heading, hLines⟩ := flatMap_all_eq (ne_nil_of_refreshesRun hRefreshes)
    intro hNil
    have hNone := List.flatMap_eq_nil_iff.mp hNil run hRun
    rw [hLines] at hNone
    cases hNone

include hCr in
/-- The sections of a page after an upsert that refreshes some. -/
theorem pageSections_refreshed (hOne : OneLine r.summary)
    (hAny : (pageRuns content).any r.refreshesRun = true) :
    splitlinesKeep (r.upsertLoop (splitlinesKeep content)).1.flatten = r.newLines content ∧
      pageSections (r.upsertLoop (splitlinesKeep content)).1.flatten =
        ((pageSections content).1, (pageRuns content).flatMap r.newRun) := by
  have hJoin : (pageSections content).1 ++ (pageSections content).2.flatMap Section.all =
      splitlinesKeep content := cut_join
  have hLead : ∀ l ∈ (pageSections content).1, LinePiece l := by
    intro l hl
    apply linePiece_of_pageLines (pageLines_splitlinesKeep hCr)
    rw [← hJoin]
    exact List.mem_append_left _ hl
  have hLined : ∀ run ∈ pageRuns content, ∀ s ∈ run, Lined s :=
    fun run hRun => lined_pageRuns hCr hRun
  have hLines : (r.upsertLoop (splitlinesKeep content)).1.flatMap splitlinesKeep =
      r.newLines content := by
    rw [upsertLoop_eq, List.flatMap_append, flatMap_splitlinesKeep hLead, List.flatMap_assoc,
      List.flatMap_congr fun run hRun => newRun_lines hOne (hLined run hRun)]
    rfl
  have hSplit : splitlinesKeep (r.upsertLoop (splitlinesKeep content)).1.flatten =
      r.newLines content := by
    rw [← flatten_flatMap_splitlinesKeep, hLines]
    exact splitlinesKeep_flatten (pageLines_newLines hCr hOne hAny)
  refine ⟨hSplit, ?_⟩
  have hCut : ∀ s ∈ (pageRuns content).flatMap r.newRun, WellCut isHeading s := by
    intro s hs
    obtain ⟨run, hRun, hMem⟩ := List.mem_flatMap.mp hs
    exact wellCut_newRun hOne (hLined run hRun) s hMem
  rw [pageSections, hSplit, Record.newLines, ← List.flatMap_assoc]
  exact cut_of_wellCut (wellCut_pageSections content).1 hCut

theorem skipBullet_suffix (text : Str) : skipBullet text <:+ text := by
  rw [skipBullet.eq_def]
  split
  · split_ifs
    · exact ((List.dropWhile_suffix _).trans (List.suffix_cons _ _)).trans (List.suffix_cons _ _)
    · exact List.suffix_rfl
  · exact List.suffix_rfl

theorem infix_of_fieldText? {key line text : Str} (h : fieldText? key line = some text) :
    text <:+: line := by
  rw [fieldText?, Option.map_eq_some_iff] at h
  obtain ⟨rest, hRest, rfl⟩ := h
  rw [dropPrefix?_eq_some] at hRest
  have hRestSuffix : rest <:+ skipBullet (lstrip (lineBody line)) := by
    rw [hRest]
    exact List.suffix_append _ rest
  have hSuffix : lstrip rest <:+ lineBody line :=
    (List.dropWhile_suffix _).trans
      (hRestSuffix.trans ((skipBullet_suffix _).trans (List.dropWhile_suffix _)))
  exact hSuffix.isInfix.trans (List.rdropWhile_prefix _ _).isInfix

theorem infix_of_refFrom? {line text : Str} (h : refFrom? line = some text) :
    ∃ group, text = strip group ∧ group <:+: line := by
  rw [refFrom?] at h
  split at h
  next => cases h
  next inner hInner =>
    obtain ⟨field, hField, hDrop⟩ := Option.bind_eq_some_iff.mp hInner
    rw [dropPrefix?_eq_some] at hDrop
    split at h
    next after hAfter =>
      split_ifs at h with hGroup
      refine ⟨_, (Option.some.inj h).symm, ?_⟩
      have hSuffix : inner <:+ field := by
        rw [hDrop]
        exact List.suffix_append _ inner
      exact ((List.takeWhile_prefix _).isInfix.trans hSuffix.isInfix).trans
        (infix_of_fieldText? hField)
    next => cases h

theorem not_isSpace_of_strip {text init : Str} {c : Char} (h : strip text = init ++ [c]) :
    isSpace c = false := by
  have hLast := List.rdropWhile_last_not isSpace (lstrip text)
  rw [← rstrip, ← strip, h] at hLast
  simpa using hLast

/-- What is read from a line and stripped holds no line boundary. -/
theorem free_of_infix_line {line group : Str} (hMem : line ∈ splitlinesKeep content)
    (hInfix : group <:+: line) : ∀ c ∈ strip group, isLineBreak c = false := by
  obtain ⟨before, after, hLine⟩ := (strip_isInfix group).trans hInfix
  intro c hc
  by_contra hBreak
  rw [Bool.not_eq_false] at hBreak
  obtain ⟨x, y, hSplit⟩ := List.append_of_mem hc
  have hPlace : line = (before ++ x) ++ c :: (y ++ after) := by
    rw [← hLine, hSplit]
    simp
  have hEnd := eq_nil_or_crlf_of_mem_splitlinesKeep hMem hPlace hBreak
  cases List.eq_nil_or_concat' y with
  | inl hNil =>
      rw [hNil] at hSplit
      exact Bool.false_ne_true
        ((not_isSpace_of_strip hSplit).symm.trans (isSpace_of_isLineBreak hBreak))
  | inr hConcat =>
      obtain ⟨init, d, rfl⟩ := hConcat
      have hLast : isSpace d = false := by
        rw [← List.cons_append, ← List.append_assoc] at hSplit
        exact not_isSpace_of_strip hSplit
      have hNewline : init ++ [d] ++ after = ['\n'] := by
        cases hEnd with
        | inl hNil => simp at hNil
        | inr hCrlf => exact hCrlf.2
      have hd : d ∈ ['\n'] := by
        rw [← hNewline]
        simp
      rw [List.mem_singleton.mp hd] at hLast
      cases hLast

theorem mem_lines_of_body {s : Section Str} {line : Str} (hs : s ∈ (pageSections content).2)
    (hLine : line ∈ s.body) : line ∈ splitlinesKeep content := by
  have hJoin : (pageSections content).1 ++ (pageSections content).2.flatMap Section.all =
      splitlinesKeep content := cut_join
  rw [← hJoin]
  apply List.mem_append_right
  exact List.mem_flatMap.mpr ⟨s, hs, List.mem_cons_of_mem _ hLine⟩

/-- A summary that is read in a page is on one line. -/
theorem oneLine_of_existingSummary {s : Section Str} (hs : s ∈ (pageSections content).2)
    (h : existingSummary s.body = strip r.summary) : OneLine r.summary := by
  rw [existingSummary] at h
  cases hSome : s.body.findSome? contextSummary? with
  | none =>
      rw [hSome] at h
      rw [OneLine, ← h]
      simp
  | some text =>
      rw [hSome] at h
      obtain ⟨line, hLine, hText⟩ := List.exists_of_findSome?_eq_some hSome
      obtain ⟨field, hField, rfl⟩ := Option.map_eq_some_iff.mp hText
      rw [OneLine, ← h]
      exact free_of_infix_line (mem_lines_of_body hs hLine) (infix_of_fieldText? hField)

/-- The source page of a section that is read in a page is on one line. -/
theorem oneLine_of_keys {s : Section Str} (hs : s ∈ (pageSections content).2)
    (h : r.Keys s = true) : ∀ c ∈ r.sourceTitle, isLineBreak c = false := by
  have hMatches : r.sectionMatches s.body = true := (Bool.and_eq_true_iff.mp h).2
  have hSource : (s.body.any fun line => refFrom? line == some r.sourceTitle) = true := by
    rw [Record.sectionMatches] at hMatches
    cases hAny : s.body.any fun line => refFrom? line == some r.sourceTitle with
    | true => rfl
    | false => simp [hAny] at hMatches
  obtain ⟨line, hLine, hRef⟩ := List.any_eq_true.mp hSource
  obtain ⟨group, hEq, hInfix⟩ := infix_of_refFrom? (beq_iff_eq.mp hRef)
  rw [hEq]
  exact free_of_infix_line (mem_lines_of_body hs hLine) hInfix

end Page

section Ended

/-- The text of a line without newlines at its end, if there is any. -/
def readLine (line : Str) : List Str := if lineBody line = [] then [] else [lineBody line]

theorem readLine_newline (line : Str) : readLine (line ++ ['\n']) = readLine line := by
  rw [readLine, lineBody_newline]
  rfl

/-- A newline at the end of a page adds nothing that is read. -/
theorem readLines_newline {s : Str} (hCr : '\r' ∉ s) :
    (splitlinesKeep (s ++ ['\n'])).flatMap readLine = (splitlinesKeep s).flatMap readLine := by
  have hPage := pageLines_splitlinesKeep hCr
  have hNewline : readLine ['\n'] = [] := rfl
  rw [← flatten_splitlinesKeep s] at hCr ⊢
  rw [splitlinesKeep_flatten hPage]
  cases List.eq_nil_or_concat' (splitlinesKeep s) with
  | inl hNil =>
      rw [hNil]
      rfl
  | inr hConcat =>
      obtain ⟨init, last, hLines⟩ := hConcat
      rw [hLines] at hPage ⊢
      obtain ⟨hInit, hLast⟩ := pageLines_append_iff.mp hPage
      rw [List.flatten_append, List.append_assoc, splitlinesKeep_flatten_append hInit,
        List.flatten_singleton]
      cases hLast with
      | inl hClosed =>
          rw [splitlinesKeep_closed_append hClosed]
          simp [splitlinesKeep, hNewline]
      | inr hOpen =>
          rw [splitlinesKeep_closed (closed_append_newline hOpen.2)]
          simp [readLine_newline]

theorem readLines_rstrip {s : Str} (hCr : '\r' ∉ s) :
    (splitlinesKeep (rstripChars ['\n'] s)).flatMap readLine =
      (splitlinesKeep s).flatMap readLine := by
  induction s using List.reverseRecOn with
  | nil => rfl
  | append_singleton s c ih =>
      have hCr' : '\r' ∉ s := fun h => hCr (List.mem_append_left _ h)
      by_cases hc : c = '\n'
      · subst hc
        rw [readLines_newline hCr', ← ih hCr', rstripChars, List.rdropWhile_concat_pos _ _ _ (by simp)]
        rfl
      · rw [rstripChars, List.rdropWhile_concat_neg]
        simpa using hc

theorem readLines_endedPage {s : Str} (hCr : '\r' ∉ s) :
    (splitlinesKeep (endedPage s)).flatMap readLine = (splitlinesKeep s).flatMap readLine := by
  have hCr' : '\r' ∉ rstripChars ['\n'] s := fun h => hCr ((List.rdropWhile_prefix _ _).subset h)
  rw [endedPage, readLines_newline hCr', readLines_rstrip hCr]

variable {line : Str} {s : Section Str}

theorem readLine_filterMap {f : Str → Option Str} (read : Fields → Option Str)
    (hRead : ∀ l, f l = read (fields l)) (hNone : read ⟨none, none, none, false, false⟩ = none)
    (line : Str) : (readLine line).filterMap f = (f line).toList := by
  have hSame : f (lineBody line) = f line := by
    rw [hRead, hRead, fields_congr (lineBody_lineBody line)]
  rw [readLine]
  split_ifs with hEmpty
  · rw [hRead, fields_of_empty hEmpty, hNone]
    rfl
  · cases hf : f line with
    | none => simp [hSame, hf]
    | some x => simp [hSame, hf]

theorem readLine_of_heading (h : isHeading line = true) : readLine line = [lineBody line] := by
  rw [readLine, if_neg]
  intro hEmpty
  have hNot : isHeading line = false := congrArg Fields.heading (fields_of_empty hEmpty)
  exact Bool.false_ne_true (hNot.symm.trans h)

theorem isHeading_lineBody (line : Str) : isHeading (lineBody line) = isHeading line :=
  congrArg Fields.heading (fields_congr (lineBody_lineBody line))

theorem keepsMarks_readLine (line : Str) : KeepsMarks isHeading readLine line := by
  rw [KeepsMarks]
  split_ifs with hHeading
  · refine ⟨lineBody line, [], readLine_of_heading hHeading, ?_, by simp⟩
    rw [isHeading_lineBody, hHeading]
  · intro z hz
    rw [readLine] at hz
    split_ifs at hz
    · cases hz
    · rw [List.mem_singleton.mp hz, isHeading_lineBody]
      simpa using hHeading

/-- What is read of a section. -/
def readSection (s : Section Str) : Section Str := s.flatMap readLine

theorem map_readSection (content : Str) :
    (pageSections content).2.map readSection =
      (cut isHeading ((splitlinesKeep content).flatMap readLine)).2 := by
  rw [cut_flatMap fun line _ => keepsMarks_readLine line]
  rfl

theorem refreshes_readLine (ls : List Str) :
    r.refreshes (ls.flatMap readLine) = r.refreshes ls := by
  have hRef : (ls.flatMap readLine).filterMap refFrom? = ls.filterMap refFrom? :=
    filterMap_flatMap_of fun l _ => readLine_filterMap Fields.refFrom (fun _ => rfl) rfl l
  have hSource : (ls.flatMap readLine).filterMap sourceBlock? = ls.filterMap sourceBlock? :=
    filterMap_flatMap_of fun l _ => readLine_filterMap Fields.sourceBlock (fun _ => rfl) rfl l
  have hSummary : (ls.flatMap readLine).filterMap contextSummary? = ls.filterMap contextSummary? :=
    filterMap_flatMap_of fun l _ => readLine_filterMap Fields.contextSummary (fun _ => rfl) rfl l
  rw [Record.refreshes, Record.refreshes, sectionMatches_congr hRef hSource, existingSummary_eq,
    existingSummary_eq, hSummary]

variable (hSecs : ∀ s ∈ secs, WellCut isHeading s)

theorem readSection_eq (h : WellCut isHeading s) :
    readSection s = ⟨lineBody s.heading, s.body.flatMap readLine⟩ := by
  rw [readSection, Section.flatMap, readLine_of_heading h.1]
  rfl

theorem isBacklink_readSection (h : WellCut isHeading s) :
    isBacklink (readSection s) = isBacklink s := by
  rw [readSection_eq h]
  exact congrArg Fields.backlink (fields_congr (lineBody_lineBody s.heading))

theorem keys_readSection (h : WellCut isHeading s) : r.Keys (readSection s) = r.Keys s := by
  have hRef : (s.body.flatMap readLine).filterMap refFrom? = s.body.filterMap refFrom? :=
    filterMap_flatMap_of fun l _ => readLine_filterMap Fields.refFrom (fun _ => rfl) rfl l
  have hSource : (s.body.flatMap readLine).filterMap sourceBlock? = s.body.filterMap sourceBlock? :=
    filterMap_flatMap_of fun l _ => readLine_filterMap Fields.sourceBlock (fun _ => rfl) rfl l
  rw [Record.Keys, Record.Keys, isBacklink_readSection h, readSection_eq h,
    sectionMatches_congr hRef hSource]

include hSecs in
theorem map_isBacklink_readSection :
    (secs.map readSection).map isBacklink = secs.map isBacklink := by
  rw [List.map_map]
  exact List.map_congr_left fun s hs => isBacklink_readSection (hSecs s hs)

include hSecs in
theorem refreshesRun_readSection :
    r.refreshesRun (secs.map readSection) = r.refreshesRun secs := by
  have hKind : (secs.map readSection).all isBacklink = secs.all isBacklink := by
    have hSame := congrArg (fun kinds => kinds.all id) (map_isBacklink_readSection hSecs)
    simpa only [List.all_map, Function.id_comp] using hSame
  have hAll : ∀ s ∈ secs, (readSection s).all = s.all.flatMap readLine := by
    intro s hs
    apply Section.all_flatMap
    rw [readLine_of_heading (hSecs s hs).1]
    exact List.cons_ne_nil _ _
  have hLines : sectionLines (secs.map readSection) = (sectionLines secs).flatMap readLine := by
    cases secs with
    | nil => rfl
    | cons s rest =>
        rw [List.forall_mem_cons] at hSecs hAll
        rw [List.map_cons, sectionLines_cons, sectionLines_cons, List.flatMap_append,
          List.flatMap_map, List.flatMap_assoc, List.flatMap_congr hAll.2, readSection_eq hSecs.1]
  rw [Record.refreshesRun, Record.refreshesRun, hKind, hLines, refreshes_readLine]

include hSecs in
theorem runs_readSection :
    runs isBacklink (secs.map readSection) =
      (runs isBacklink secs).map fun run => run.map readSection := by
  have hMem : ∀ run ∈ runs isBacklink secs, ∀ s ∈ run, WellCut isHeading s := by
    intro run hRun s hs
    apply hSecs
    rw [← List.flatten_splitBy (fun s t => isBacklink s && isBacklink t) secs]
    exact List.mem_flatten.mpr ⟨run, hRun, hs⟩
  rw [← runs_flatMap fun run hRun => map_isBacklink_readSection (hMem run hRun), List.flatMap_def,
    ← List.map_flatten]
  exact congrArg (fun ss => runs isBacklink (ss.map readSection)) (List.flatten_splitBy _ _).symm

include hSecs in
theorem rtakeWhile_readSection :
    (secs.map readSection).rtakeWhile isBacklink =
      (secs.rtakeWhile isBacklink).map readSection := by
  induction secs using List.reverseRecOn with
  | nil => rfl
  | append_singleton secs s ih =>
      rw [List.forall_mem_append] at hSecs
      have hLast := isBacklink_readSection (hSecs.2 s (List.mem_singleton_self s))
      rw [List.map_append, List.map_singleton, List.rtakeWhile_concat, List.rtakeWhile_concat,
        hLast, ih hSecs.1]
      split_ifs
      · rw [List.map_append, List.map_singleton]
      · rfl

variable (hCr : '\r' ∉ content)

include hCr in
theorem endedPage_sections :
    (pageSections (endedPage content)).2.map readSection =
      (pageSections content).2.map readSection := by
  rw [map_readSection, map_readSection, readLines_endedPage hCr]

theorem any_refreshesRun (content : Str) :
    (pageRuns content).any r.refreshesRun =
      (runs isBacklink ((pageSections content).2.map readSection)).any r.refreshesRun := by
  have hCut := (wellCut_pageSections content).2
  rw [runs_readSection hCut, List.any_map, pageRuns, Bool.eq_iff_iff, List.any_eq_true,
    List.any_eq_true]
  apply exists_congr
  intro run
  apply and_congr_right
  intro hRun
  rw [Function.comp_apply, refreshesRun_readSection]
  exact fun s hs => hCut s (mem_of_mem_pageRuns hRun hs)

include hCr in
/-- The ended page is refreshed if the page is. -/
theorem any_refreshesRun_endedPage :
    (pageRuns (endedPage content)).any r.refreshesRun = (pageRuns content).any r.refreshesRun := by
  rw [any_refreshesRun, any_refreshesRun, endedPage_sections hCr]

include hCr in
theorem keysSome_endedPage :
    r.KeysSome (endedPage content) ↔ r.KeysSome content := by
  have hRead (page : Str) : r.KeysSome page ↔
      ∃ s ∈ (pageSections page).2.map readSection, r.Keys s := by
    simp only [Record.KeysSome, List.mem_map, exists_exists_and_eq_and]
    apply exists_congr
    intro s
    apply and_congr_right
    intro hs
    rw [keys_readSection ((wellCut_pageSections page).2 s hs)]
  rw [hRead, hRead, endedPage_sections hCr]

include hCr in
theorem length_endedPage :
    (pageSections (endedPage content)).2.length = (pageSections content).2.length := by
  have hLength := congrArg List.length (endedPage_sections hCr)
  rwa [List.length_map, List.length_map] at hLength

include hCr in
/-- The backlink sections at the end of the ended page are read as those of the page. -/
theorem refreshesRun_endedPage {more : List (Section Str)} (hMore : ∀ s ∈ more, WellCut isHeading s) :
    r.refreshesRun ((pageSections (endedPage content)).2.rtakeWhile isBacklink ++ more) =
      r.refreshesRun ((pageSections content).2.rtakeWhile isBacklink ++ more) := by
  have hRead (page : Str) :
      r.refreshesRun ((pageSections page).2.rtakeWhile isBacklink ++ more) =
        r.refreshesRun (((pageSections page).2.map readSection).rtakeWhile isBacklink ++
          more.map readSection) := by
    have hCut := (wellCut_pageSections page).2
    have hAll : ∀ s ∈ (pageSections page).2.rtakeWhile isBacklink ++ more, WellCut isHeading s := by
      rw [List.forall_mem_append]
      exact ⟨fun s hs => hCut s ((List.rtakeWhile_suffix _ _).subset hs), hMore⟩
    rw [rtakeWhile_readSection hCut, ← List.map_append, refreshesRun_readSection hAll]
  rw [hRead, hRead, endedPage_sections hCr]

end Ended

end Plumber.Backlink
