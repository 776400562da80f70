import MatrycaPlumber.Agent.BacklinkReading

/-! When the upsert of a backlink record is local and changes nothing the second time. -/
namespace Plumber.Backlink

open PyText Sections

variable {r : Record} {content : Str} {run : List (Section Str)}

/-- What is left of the lines of a run, and the new summary if there is one. -/
def Record.keptLines (r : Record) (run : List (Section Str)) : List Str :=
  if r.refreshesRun run then
    summaryLine r.summary :: (run.flatMap Section.all).filter fun line => !isSummaryLine line
  else run.flatMap Section.all

/-- Each of the texts that are searched for is in a line that the upsert leaves. -/
def Record.Located (r : Record) (content : Str) : Prop :=
  let lines := (pageSections content).1 ++ (pageRuns content).flatMap r.keptLines
  (∃ line ∈ lines, r.refFrom <:+: line) ∧ ∃ line ∈ lines, r.refUuid <:+: line

/-- The section for the record without the newline above it. -/
def Record.addedText (r : Record) : Str := r.formatBacklinkSection.tail

/-- The section that is added for the record is read as one section that the record keys,
with its summary. -/
def Record.Renders (r : Record) : Prop :=
  ∃ added, (pageSections r.addedText).2 = [added] ∧ r.Keys added ∧
    existingSummary added.body = strip r.summary

/-- The condition under which the upsert is right. If the record keys sections of the page,
each run of backlink sections is left right and the searched texts stay on the page. If it
keys none, no run is taken for a section of the record and the added section is read back,
also when it is read together with the backlink sections at the end of the page. -/
def Record.Kept (r : Record) (content : Str) : Prop :=
  if r.KeysSome content then
    (∀ run ∈ pageRuns content, r.RunKept run) ∧ r.Located content
  else
    (∀ run ∈ pageRuns content, ¬r.refreshesRun run) ∧ ¬r.mentioned content ∧ r.Renders ∧
      ¬r.refreshesRun
        ((pageSections content).2.rtakeWhile isBacklink ++ (pageSections r.addedText).2)

section Located

variable {summary line t : Str} {ms : List Str} (hNe : t ≠ [])
  (hFree : ∀ c ∈ t, isLineBreak c = false)

include hNe hFree in
theorem infix_newline (line : Str) : t <:+: line ++ ['\n'] ↔ t <:+: line := by
  have hNewline : '\n' ∉ t := by
    intro hMem
    have := hFree '\n' hMem
    cases this
  simpa [hNe] using infix_append_break line [] hNewline

include hNe hFree in
theorem Refreshed.infix_iff (h : Refreshed summary line ms) :
    (∃ l ∈ ms, t <:+: l) ↔
      if isSummaryLine line then t <:+: summaryLine summary else t <:+: line := by
  have hNewline := infix_newline hNe hFree
  cases h with
  | summary hIs => simp [hIs]
  | kept m hOther _ _ _ _ hForm =>
      rw [if_neg (by simp [hOther])]
      cases hForm with
      | inl hSame => simp [hSame]
      | inr hEnded => simp [hEnded, hNewline]
  | broken hOther =>
      have hEmpty : ¬t <:+: ['\n'] := by
        intro hInfix
        exact hNe (List.infix_nil.mp ((hNewline []).mp hInfix))
      simp [hOther, hEmpty]

variable (hOne : OneLine r.summary) (hLined : ∀ s ∈ run, Lined s)

include hNe hFree hOne hLined in
theorem infix_newRun :
    (∃ l ∈ (r.newRun run).flatMap Section.all, t <:+: l) ↔ ∃ l ∈ r.keptLines run, t <:+: l := by
  cases hRefreshes : r.refreshesRun run with
  | false =>
      rw [Record.newRun, if_neg (by simp [hRefreshes]), Record.keptLines,
        if_neg (by simp [hRefreshes])]
  | true =>
      obtain ⟨s, rest, rfl⟩ := List.exists_cons_of_ne_nil (ne_nil_of_refreshesRun hRefreshes)
      have hAll : (s :: rest).flatMap Section.all = s.heading :: sectionLines (s :: rest) := rfl
      have hHeading := isSummaryLine_of_heading (hLined s List.mem_cons_self).wellCut.1
      have hLine (line : Str) (h : line ∈ sectionLines (s :: rest)) :=
        (refreshed_cases hOne (pieces_sectionLines hLined line h)).infix_iff hNe hFree
      rw [newRun_all hOne hLined hRefreshes, Record.keptLines, if_pos hRefreshes, hAll,
        List.filter_cons_of_pos (by simp [hHeading]), List.exists_mem_cons_iff,
        List.exists_mem_cons_iff]
      constructor
      · rintro ⟨l, hl, hInfix⟩
        rw [List.mem_append, List.mem_append] at hl
        cases hl with
        | inr hAdded =>
            cases addedLines_cases r.summary (s :: rest) with
            | inl hNone => simp [hNone] at hAdded
            | inr hSome =>
                rw [hSome, List.mem_singleton] at hAdded
                exact Or.inl (hAdded ▸ hInfix)
        | inl hOld =>
            cases hOld with
            | inl hHead =>
                rw [List.mem_singleton.mp hHead] at hInfix
                exact Or.inr (Or.inl hInfix)
            | inr hBody =>
                obtain ⟨line, hMem, hl⟩ := List.mem_flatMap.mp hBody
                have hText := (hLine line hMem).mp ⟨l, hl, hInfix⟩
                split_ifs at hText with hSummary
                · exact Or.inl hText
                · exact Or.inr (Or.inr ⟨line, List.mem_filter.mpr ⟨hMem, by simp [hSummary]⟩, hText⟩)
      · intro h
        cases h with
        | inl hText =>
            cases hAny : (sectionLines (s :: rest)).any isSummaryLine with
            | true =>
                obtain ⟨line, hMem, hSummary⟩ := List.any_eq_true.mp hAny
                obtain ⟨l, hl, hInfix⟩ := (hLine line hMem).mpr (by rwa [if_pos hSummary])
                refine ⟨l, ?_, hInfix⟩
                apply List.mem_append_left
                exact List.mem_append_right _ (List.mem_flatMap.mpr ⟨line, hMem, hl⟩)
            | false =>
                refine ⟨summaryLine r.summary, List.mem_append_right _ ?_, hText⟩
                rw [addedLines, hAny]
                exact List.mem_singleton_self _
        | inr hOther =>
            cases hOther with
            | inl hText =>
                exact ⟨s.heading, by simp, hText⟩
            | inr hBody =>
                obtain ⟨line, hFilter, hText⟩ := hBody
                obtain ⟨hMem, hSummary⟩ := List.mem_filter.mp hFilter
                have hOwn : if isSummaryLine line then t <:+: summaryLine r.summary else t <:+: line := by
                  rw [if_neg (by simpa using hSummary)]
                  exact hText
                obtain ⟨l, hl, hInfix⟩ := (hLine line hMem).mpr hOwn
                refine ⟨l, ?_, hInfix⟩
                apply List.mem_append_left
                exact List.mem_append_right _ (List.mem_flatMap.mpr ⟨line, hMem, hl⟩)

end Located

section Refreshed

variable (hCr : '\r' ∉ content) (hSource : ∀ c ∈ r.sourceTitle, isLineBreak c = false)

theorem refUuid_free : ∀ c ∈ r.refUuid, isLineBreak c = false := by
  have hKey : ∀ c ∈ "source-block-uuid:: ".toList, isLineBreak c = false := by decide
  intro c hc
  cases List.mem_append.mp hc with
  | inl hMem => exact hKey c hMem
  | inr hMem => exact r.blockUuid.oneLine c hMem

include hSource in
theorem refFrom_free : ∀ c ∈ r.refFrom, isLineBreak c = false := by
  have hKey : ∀ c ∈ "referenced-from:: [[".toList, isLineBreak c = false := by decide
  have hEnd : ∀ c ∈ "]]".toList, isLineBreak c = false := by decide
  intro c hc
  cases List.mem_append.mp hc with
  | inr hMem => exact hEnd c hMem
  | inl hBefore =>
      cases List.mem_append.mp hBefore with
      | inl hMem => exact hKey c hMem
      | inr hMem => exact hSource c hMem

theorem refUuid_ne_nil : r.refUuid ≠ [] := by
  have hKey : "source-block-uuid:: ".toList ≠ [] := by decide
  exact fun hNil => hKey (List.append_eq_nil_iff.mp hNil).1

theorem refFrom_ne_nil : r.refFrom ≠ [] := by
  have hKey : "]]".toList ≠ [] := by decide
  exact fun hNil => hKey (List.append_eq_nil_iff.mp hNil).2

theorem exists_mem_flatMap {α β : Type*} {xs : List α} {f : α → List β} {P : β → Prop} :
    (∃ y ∈ xs.flatMap f, P y) ↔ ∃ x ∈ xs, ∃ y ∈ f x, P y := by
  simp only [List.mem_flatMap]
  constructor
  · rintro ⟨y, ⟨x, hx, hy⟩, hP⟩
    exact ⟨x, hx, y, hy, hP⟩
  · rintro ⟨x, hx, y, hy, hP⟩
    exact ⟨y, ⟨x, hx, hy⟩, hP⟩

theorem exists_mem_append {α : Type*} {xs ys : List α} {P : α → Prop} :
    (∃ x ∈ xs ++ ys, P x) ↔ (∃ x ∈ xs, P x) ∨ ∃ x ∈ ys, P x := by
  simp only [List.mem_append, or_and_right, exists_or]

include hCr in
/-- A text is in the refreshed page if it is in a line that the upsert leaves. -/
theorem infix_refreshed {t : Str} (hNe : t ≠ []) (hFree : ∀ c ∈ t, isLineBreak c = false)
    (hOne : OneLine r.summary) (hAny : (pageRuns content).any r.refreshesRun = true) :
    t <:+: (r.upsertLoop (splitlinesKeep content)).1.flatten ↔
      ∃ line ∈ (pageSections content).1 ++ (pageRuns content).flatMap r.keptLines,
        t <:+: line := by
  have hPage := pageLines_newLines hCr hOne hAny
  have hText : (r.upsertLoop (splitlinesKeep content)).1.flatten = (r.newLines content).flatten := by
    rw [← (pageSections_refreshed hCr hOne hAny).1, flatten_splitlinesKeep]
  have hRuns : (∃ line ∈ (pageRuns content).flatMap (fun run => (r.newRun run).flatMap Section.all),
        t <:+: line) ↔
      ∃ line ∈ (pageRuns content).flatMap r.keptLines, t <:+: line := by
    rw [exists_mem_flatMap, exists_mem_flatMap]
    apply exists_congr
    intro run
    apply and_congr_right
    intro hRun
    exact infix_newRun hNe hFree hOne (lined_pageRuns hCr hRun)
  have hLines := infix_flatten hNe hFree hPage
  rw [hText, hLines, Record.newLines, exists_mem_append, exists_mem_append, hRuns]

include hCr in
/-- A page none of whose runs is refreshed keeps its lines. -/
theorem infix_unrefreshed {t : Str} (hNe : t ≠ []) (hFree : ∀ c ∈ t, isLineBreak c = false)
    (hNone : (pageRuns content).any r.refreshesRun = false) :
    t <:+: content ↔
      ∃ line ∈ (pageSections content).1 ++ (pageRuns content).flatMap r.keptLines,
        t <:+: line := by
  have hJoin : (pageSections content).1 ++ (pageSections content).2.flatMap Section.all =
      splitlinesKeep content := cut_join
  have hKept : (pageRuns content).flatMap r.keptLines =
      (pageRuns content).flatMap fun run => run.flatMap Section.all := by
    apply List.flatMap_congr
    intro run hRun
    rw [Record.keptLines, if_neg (List.any_eq_false.mp hNone run hRun)]
  have hLines := infix_flatten hNe hFree (pageLines_splitlinesKeep hCr)
  rw [flatten_splitlinesKeep] at hLines
  rw [hKept, flatMap_all_pageRuns, hJoin, hLines]

end Refreshed

section Cases

variable (hCr : '\r' ∉ content)

theorem upsert_of_any (hAny : (pageRuns content).any r.refreshesRun = true) :
    r.upsertBacklinkInContent content =
      ((r.upsertLoop (splitlinesKeep content)).1.flatten, true) := by
  have hFlag : (r.upsertLoop (splitlinesKeep content)).2 = true := by rw [upsertLoop_eq]; exact hAny
  simp only [Record.upsertBacklinkInContent, hFlag, if_true]

theorem upsert_of_none (hNone : (pageRuns content).any r.refreshesRun = false) :
    r.upsertBacklinkInContent content =
      if r.mentioned content then (content, false)
      else (rstripChars ['\n'] content ++ r.formatBacklinkSection, true) := by
  have hFlag : (r.upsertLoop (splitlinesKeep content)).2 = false := by rw [upsertLoop_eq]; exact hNone
  simp only [Record.upsertBacklinkInContent, hFlag, Bool.false_eq_true, if_false]

/-- A page is left as it is if none of its runs is refreshed and the texts are found in it. -/
theorem upsert_eq_same_iff :
    r.upsertBacklinkInContent content = (content, false) ↔
      (pageRuns content).any r.refreshesRun = false ∧ r.mentioned content := by
  cases hAny : (pageRuns content).any r.refreshesRun with
  | true =>
      rw [upsert_of_any hAny]
      simp
  | false =>
      rw [upsert_of_none hAny]
      split_ifs with hMentioned <;> simp [hMentioned]

theorem sameBut_refl (r : Record) (s : Section Str) : r.SameBut s s := by
  rw [Record.SameBut]
  split_ifs
  · rfl
  · rfl

/-- The sections of a run are right after the upsert just if the run is kept. -/
theorem fine_newRun_iff (hOne : OneLine r.summary) (hLined : ∀ s ∈ run, Lined s) :
    List.Forall₂ r.Fine run (r.newRun run) ↔ r.RunKept run := by
  rw [Record.RunKept]
  split_ifs with hRefreshes
  · exact fine_newRun hOne hLined hRefreshes
  · rw [Record.newRun, if_neg hRefreshes, List.forall₂_same]
    apply forall₂_congr
    intro s _
    rw [Record.Fine]
    simp [sameBut_refl]

theorem forall₂_and_right {α : Type*} {R : α → α → Prop} {P : α → Prop} {xs ys : List α} :
    List.Forall₂ (fun x y => R x y ∧ P y) xs ys ↔ List.Forall₂ R xs ys ∧ ∀ y ∈ ys, P y := by
  constructor
  · intro h
    induction h with
    | nil => simp
    | cons hHead _ ih =>
        rw [List.forall₂_cons, List.forall_mem_cons]
        exact ⟨⟨hHead.1, ih.1⟩, hHead.2, ih.2⟩
  · rintro ⟨hR, hP⟩
    induction hR with
    | nil => exact .nil
    | cons hHead _ ih =>
        rw [List.forall_mem_cons] at hP
        exact .cons ⟨hHead, hP.1⟩ (ih hP.2)

theorem map_eq_of_forall₂ {α β : Type*} {f : α → β} {xs ys : List α}
    (h : List.Forall₂ (fun x y => f y = f x) xs ys) : ys.map f = xs.map f := by
  induction h with
  | nil => rfl
  | cons hHead _ ih => rw [List.map_cons, List.map_cons, hHead, ih]

include hCr in
theorem newRun_sections (hOne : OneLine r.summary) :
    List.Forall₂ (fun s t => isBacklink t = isBacklink s ∧ r.Keys t = r.Keys s)
      (pageSections content).2 ((pageRuns content).flatMap r.newRun) := by
  have hFlatten : (pageRuns content).flatten = (pageSections content).2 := List.flatten_splitBy _ _
  have hSame (run : List (Section Str)) (hRun : run ∈ pageRuns content) :=
    newRun_same (r := r) hOne (lined_pageRuns hCr hRun)
  rw [← hFlatten, forall₂_flatMap fun run hRun => (hSame run hRun).length_eq.symm]
  exact hSame

include hCr in
theorem runs_newRun (hOne : OneLine r.summary) :
    runs isBacklink ((pageRuns content).flatMap r.newRun) = (pageRuns content).map r.newRun := by
  apply runs_flatMap
  intro run hRun
  exact map_eq_of_forall₂
    ((newRun_same (r := r) hOne (lined_pageRuns hCr hRun)).imp fun _ _ h => h.1)

include hCr in
/-- The record keys a section after the refresh just if it did before. -/
theorem keysSome_newRuns (hOne : OneLine r.summary) :
    (∃ t ∈ (pageRuns content).flatMap r.newRun, r.Keys t) ↔ r.KeysSome content := by
  have hSame := map_eq_of_forall₂ ((newRun_sections hCr hOne).imp fun _ _ h => h.2)
  have hMem (secs : List (Section Str)) : (∃ t ∈ secs, r.Keys t) ↔ true ∈ secs.map r.Keys := by
    simp [List.mem_map]
  rw [Record.KeysSome, hMem, hMem, hSame]

include hCr in
/-- A page with refreshed runs: the upsert is right just if it is in every run and leaves
the searched texts. -/
theorem right_of_any (hOne : OneLine r.summary) (hKeys : r.KeysSome content)
    (hAny : (pageRuns content).any r.refreshesRun = true) :
    r.UpsertsRight content ↔ (∀ run ∈ pageRuns content, r.RunKept run) ∧ r.Located content := by
  obtain ⟨s, hs, hKeyed⟩ := id hKeys
  have hSource := oneLine_of_keys hs hKeyed
  obtain ⟨-, hNew⟩ := pageSections_refreshed hCr hOne hAny
  have hFlatten : (pageRuns content).flatten = (pageSections content).2 := List.flatten_splitBy _ _
  have hQuiet : (pageRuns (r.upsertLoop (splitlinesKeep content)).1.flatten).any r.refreshesRun =
      false := by
    rw [pageRuns, hNew, runs_newRun hCr hOne, List.any_map, List.any_eq_false]
    intro run hRun
    rw [Function.comp_apply, refreshesRun_newRun hOne (lined_pageRuns hCr hRun)]
    exact Bool.false_ne_true
  have hLocated : r.mentioned (r.upsertLoop (splitlinesKeep content)).1.flatten ↔
      r.Located content :=
    and_congr (infix_refreshed hCr refFrom_ne_nil (refFrom_free hSource) hOne hAny)
      (infix_refreshed hCr refUuid_ne_nil refUuid_free hOne hAny)
  have hFine : List.Forall₂ r.Fine (pageSections content).2 ((pageRuns content).flatMap r.newRun) ↔
      ∀ run ∈ pageRuns content, r.RunKept run := by
    rw [← hFlatten, forall₂_flatMap fun run hRun =>
      (newRun_same (r := r) hOne (lined_pageRuns hCr hRun)).length_eq.symm]
    exact forall₂_congr fun run hRun => fine_newRun_iff hOne (lined_pageRuns hCr hRun)
  rw [Record.UpsertsRight, upsert_of_any hAny, upsert_eq_same_iff, hQuiet, hLocated, ← hFine]
  simp only [true_and]
  apply and_congr_left
  intro _
  have hFineAll : List.Forall₂ r.Fine (pageSections content).2
        ((pageRuns content).flatMap r.newRun) ↔ _ ∧ _ := forall₂_and_right
  rw [hFineAll]
  constructor
  · intro h
    have hChanges := h.changes
    have hSummaries := h.summaries
    rw [hNew] at hSummaries
    rw [if_pos hKeys, hNew] at hChanges
    exact ⟨hChanges.2, hSummaries⟩
  · intro h
    refine ⟨?_, ?_, ?_⟩
    · rw [if_pos hKeys, hNew]
      exact ⟨rfl, h.1⟩
    · rw [Record.KeysSome, hNew]
      exact (keysSome_newRuns hCr hOne).mpr hKeys
    · rw [hNew]
      exact h.2

include hCr in
/-- A page that is left as it is. -/
theorem right_of_mentioned (hNone : (pageRuns content).any r.refreshesRun = false)
    (hMentioned : r.mentioned content) : r.UpsertsRight content ↔ r.Kept content := by
  have hSame : r.upsertBacklinkInContent content = (content, false) :=
    upsert_eq_same_iff.mpr ⟨hNone, hMentioned⟩
  rw [Record.UpsertsRight, hSame, hSame, Record.Kept]
  split_ifs with hKeys
  · obtain ⟨s, hs, hKeyed⟩ := id hKeys
    have hLocated : r.Located content :=
      ⟨(infix_unrefreshed hCr refFrom_ne_nil (refFrom_free (oneLine_of_keys hs hKeyed)) hNone).mp
          hMentioned.1,
        (infix_unrefreshed hCr refUuid_ne_nil refUuid_free hNone).mp hMentioned.2⟩
    simp only [hLocated, and_true]
    constructor
    · intro h run hRun
      rw [Record.RunKept, if_neg (List.any_eq_false.mp hNone run hRun)]
      exact fun t ht => h.summaries t (mem_of_mem_pageRuns hRun ht)
    · intro h
      refine ⟨?_, hKeys, fun t ht => ?_⟩
      · rw [if_pos hKeys]
        exact ⟨rfl, List.forall₂_same.mpr fun t _ => sameBut_refl r t⟩
      · have hFlatten : (pageRuns content).flatten = (pageSections content).2 :=
          List.flatten_splitBy _ _
        rw [← hFlatten] at ht
        obtain ⟨run, hRun, hMem⟩ := List.mem_flatten.mp ht
        have hKept := h run hRun
        rw [Record.RunKept, if_neg (List.any_eq_false.mp hNone run hRun)] at hKept
        exact hKept t hMem
  · exact iff_of_false (fun h => hKeys h.1.keyed) fun h => h.2.1 hMentioned

theorem added_eq (content : Str) :
    rstripChars ['\n'] content ++ r.formatBacklinkSection = endedPage content ++ r.addedText := by
  rw [endedPage, List.append_assoc]
  rfl

/-- The added text begins with a heading line. -/
theorem lines_addedText (r : Record) :
    ∃ lines, splitlinesKeep r.addedText = (backlinkHeader ++ ['\n']) :: lines := by
  have hHeader : Closed (backlinkHeader ++ ['\n']) := closed_append_newline (by decide)
  have hSplit (rest : Str) : splitlinesKeep (backlinkHeader ++ '\n' :: rest) =
      (backlinkHeader ++ ['\n']) :: splitlinesKeep rest := by
    rw [← splitlinesKeep_closed_append hHeader, List.append_assoc, List.singleton_append]
  exact ⟨_, hSplit _⟩

/-- The sections of the page with the added text. -/
theorem pageSections_added (r : Record) (content : Str) :
    pageSections (endedPage content ++ r.addedText) =
        ((pageSections (endedPage content)).1,
          (pageSections (endedPage content)).2 ++ (pageSections r.addedText).2) ∧
      (pageSections r.addedText).2 ≠ [] := by
  obtain ⟨lines, hLines⟩ := lines_addedText r
  have hHeading : isHeading (backlinkHeader ++ ['\n']) = true := by decide +kernel
  have hCut : cut isHeading ((backlinkHeader ++ ['\n']) :: lines) = _ := cut_cons_of_pos hHeading
  rw [← hLines] at hCut
  constructor
  · rw [pageSections, endedPage, terminated_newline, cut_append (congrArg Prod.fst hCut)]
    rfl
  · intro hNil
    have hSections := congrArg Prod.snd hCut
    rw [show (cut isHeading (splitlinesKeep r.addedText)).2 = [] from hNil] at hSections
    cases hSections

theorem infix_parts (page header a b c d e : Str) :
    a <:+: page ++ (header ++ '\n' :: (a ++ b ++ c ++ d ++ e)) ∧
      c <:+: page ++ (header ++ '\n' :: (a ++ b ++ c ++ d ++ e)) :=
  ⟨⟨page ++ header ++ ['\n'], b ++ c ++ d ++ e, by simp⟩,
    ⟨page ++ header ++ '\n' :: (a ++ b), d ++ e, by simp⟩⟩

/-- The texts that are searched for are in the added section. -/
theorem mentioned_added (r : Record) (content : Str) :
    r.mentioned (endedPage content ++ r.addedText) := by
  have hParts := infix_parts (endedPage content) backlinkHeader
  exact ⟨(List.infix_append _ _ _).trans (hParts _ _ _ _ _).1,
    (List.infix_append _ _ _).trans (hParts _ _ _ _ _).2⟩

include hCr in
/-- A page to which a section is added. -/
theorem right_of_added (hNone : (pageRuns content).any r.refreshesRun = false)
    (hMentioned : ¬r.mentioned content) : r.UpsertsRight content ↔ r.Kept content := by
  have hAdded : r.upsertBacklinkInContent content = (endedPage content ++ r.addedText, true) := by
    rw [upsert_of_none hNone, if_neg hMentioned, added_eq]
  obtain ⟨hNew, hNe⟩ := pageSections_added r content
  rw [Record.UpsertsRight, hAdded, upsert_eq_same_iff, Record.Kept]
  split_ifs with hKeys
  · -- a section too many
    apply iff_of_false
    · intro h
      have hChanges := h.1.changes
      rw [if_pos hKeys, hNew] at hChanges
      have hLength := hChanges.2.length_eq
      rw [List.length_append, length_endedPage hCr] at hLength
      exact hNe (List.length_eq_zero_iff.mp (by omega))
    · intro h
      obtain ⟨s, hs, hKeyed⟩ := hKeys
      apply hMentioned
      exact ⟨(infix_unrefreshed hCr refFrom_ne_nil (refFrom_free (oneLine_of_keys hs hKeyed))
          hNone).mpr h.2.1,
        (infix_unrefreshed hCr refUuid_ne_nil refUuid_free hNone).mpr h.2.2⟩
  · have hRuns : (∀ run ∈ pageRuns content, ¬r.refreshesRun run) := List.any_eq_false.mp hNone
    have hOld : ∀ s ∈ (pageSections (endedPage content)).2, ¬r.Keys s :=
      fun s hs hKeyed => hKeys ((keysSome_endedPage hCr).mp ⟨s, hs, hKeyed⟩)
    have hJoined {added : Section Str} (hOne : (pageSections r.addedText).2 = [added])
        (hKeyed : r.Keys added = true) :
        (pageRuns (endedPage content ++ r.addedText)).any r.refreshesRun = false ↔
          ¬r.refreshesRun
            ((pageSections content).2.rtakeWhile isBacklink ++ (pageSections r.addedText).2) := by
      have hBacklink : isBacklink added = true := (Bool.and_eq_true_iff.mp hKeyed).1
      have hEarlier : (runs isBacklink ((pageSections (endedPage content)).2.rdropWhile
          isBacklink)).any r.refreshesRun = false := by
        rw [← any_refreshesRun_endedPage hCr] at hNone
        rw [List.any_eq_false] at hNone ⊢
        exact fun run hRun => hNone run (mem_runs_of_rdropWhile hRun)
      rw [← refreshesRun_endedPage hCr (wellCut_pageSections r.addedText).2, pageRuns, hNew, hOne,
        runs_concat hBacklink, List.any_append, hEarlier]
      simp
    constructor
    · intro h
      have hChanges := h.1.changes
      rw [if_neg hKeys, hNew] at hChanges
      obtain ⟨added, hEq⟩ := hChanges
      have hOne := List.append_cancel_left (congrArg Prod.snd hEq)
      obtain ⟨s, hs, hKeyed⟩ := h.1.keyed
      have hSummaries := h.1.summaries s hs hKeyed
      rw [hNew, hOne] at hs
      have hAddedOnly : s = added := by
        cases List.mem_append.mp hs with
        | inl hMem => exact absurd hKeyed (hOld s hMem)
        | inr hMem => exact List.mem_singleton.mp hMem
      rw [hAddedOnly] at hKeyed hSummaries
      exact ⟨hRuns, hMentioned, ⟨added, hOne, hKeyed, hSummaries⟩, (hJoined hOne hKeyed).mp h.2.1⟩
    · intro h
      obtain ⟨added, hOne, hKeyed, hSummary⟩ := h.2.2.1
      refine ⟨⟨?_, ?_, ?_⟩, (hJoined hOne hKeyed).mpr h.2.2.2, mentioned_added r content⟩
      · rw [if_neg hKeys, hNew, hOne]
        exact ⟨added, rfl⟩
      · refine ⟨added, ?_, hKeyed⟩
        rw [hNew, hOne]
        exact List.mem_append_right _ (List.mem_singleton_self added)
      · intro s hs hKeyedNew
        rw [hNew, hOne] at hs
        cases List.mem_append.mp hs with
        | inl hMem => exact absurd hKeyedNew (hOld s hMem)
        | inr hMem =>
            rw [List.mem_singleton.mp hMem]
            exact hSummary

end Cases

/-- The upsert of a record into the page of a file is local and changes nothing the second
time just if the page is `Kept`. -/
theorem upsertsRight_iff (r : Record) (raw : Str) :
    r.UpsertsRight (universalNewlines raw) ↔ r.Kept (universalNewlines raw) := by
  have hCr := cr_notMem_universalNewlines raw
  cases hAny : (pageRuns (universalNewlines raw)).any r.refreshesRun with
  | false =>
      by_cases hMentioned : r.mentioned (universalNewlines raw)
      · exact right_of_mentioned hCr hAny hMentioned
      · exact right_of_added hCr hAny hMentioned
  | true =>
      have hRefreshes := List.any_eq_true.mp hAny
      rw [Record.Kept]
      split_ifs with hKeys
      · have hOneLine (h : r.UpsertsRight (universalNewlines raw)) : OneLine r.summary := by
          obtain ⟨s, hs, hKeyed⟩ := h.1.keyed
          exact oneLine_of_existingSummary hs (h.1.summaries s hs hKeyed)
        constructor
        · intro h
          exact (right_of_any hCr (hOneLine h) hKeys hAny).mp h
        · intro h
          obtain ⟨run, hRun, hIs⟩ := hRefreshes
          have hKept := h.1 run hRun
          rw [Record.RunKept, if_pos hIs] at hKept
          exact (right_of_any hCr hKept.1 hKeys hAny).mpr h
      · -- a run is taken for a section of the record although none of its sections is
        obtain ⟨run, hRun, hIs⟩ := hRefreshes
        refine iff_of_false (fun h => hKeys ?_) fun h => h.1 run hRun hIs
        obtain ⟨hRight, -⟩ := h
        rw [upsert_of_any hAny] at hRight
        obtain ⟨s, hs, hKeyed⟩ := hRight.keyed
        have hOne := oneLine_of_existingSummary hs (hRight.summaries s hs hKeyed)
        rw [(pageSections_refreshed hCr hOne hAny).2] at hs
        exact (keysSome_newRuns hCr hOne).mp ⟨s, hs, hKeyed⟩

section Sample

def sampleUuid : BlockUuid := ⟨"b1".toList, by decide⟩

def otherUuid : BlockUuid := ⟨"b2".toList, by decide⟩

/-- The record of one block, with a new summary. -/
def sampleRecord : Record := ⟨"Roses".toList, "Beds".toList, "red".toList, sampleUuid⟩

/-- A page with the sections of two blocks, as the upsert has added them. -/
def samplePage : Str :=
  (Record.mk "Tulips".toList "Beds".toList "late".toList otherUuid).upsertBacklinkInContent
    ((Record.mk "Roses".toList "Beds".toList "old".toList sampleUuid).upsertBacklinkInContent
      "- south\n".toList).1 |>.1

example : (pageSections samplePage).2.map (fun s => existingSummary s.body) =
    ["old".toList, "late".toList] := by
  decide +kernel

/-- The summary of the other block's section is overwritten. -/
theorem neighbour_summary_is_overwritten :
    ¬sampleRecord.UpsertsRight (universalNewlines samplePage) := by
  intro h
  have hKeys : sampleRecord.KeysSome (universalNewlines samplePage) := by decide +kernel
  have hChanges := h.1.changes
  rw [if_pos hKeys] at hChanges
  have hOther : ¬List.Forall₂ sampleRecord.SameBut (pageSections (universalNewlines samplePage)).2
      (pageSections
        (sampleRecord.upsertBacklinkInContent (universalNewlines samplePage)).1).2 := by
    decide +kernel
  exact hOther hChanges.2

end Sample

end Plumber.Backlink
