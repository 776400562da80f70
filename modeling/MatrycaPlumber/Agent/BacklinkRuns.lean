import MatrycaPlumber.Agent.BacklinkRefresh

/-! When the sections of a refreshed run are right after the refresh. -/
namespace Plumber.Backlink

open PyText Sections

variable {r : Record} {summary : Str} {added : List Str} {run : List (Section Str)}

/-- A run that is refreshed as one section leaves each of its sections right: every line but
the summaries ends with a newline if at all, the sections that the record keys have a summary
and those it does not key have no other. -/
def Record.RefreshKept (r : Record) (run : List (Section Str)) : Prop :=
  OneLine r.summary ∧ (∀ line ∈ sectionLines run, isSummaryLine line ∨ EndsWell line) ∧
    if (sectionLines run).any isSummaryLine then
      ∀ s ∈ run,
        if r.Keys s then s.body.any isSummaryLine ∨ strip r.summary = []
        else ∀ line ∈ s.body, isSummaryLine line →
          dropLineBreak line = dropLineBreak (summaryLine r.summary)
    else (∀ s ∈ run.getLast?, r.Keys s) ∧ ∀ s ∈ run.dropLast, ¬r.Keys s

/-- A run that is not refreshed has the record's summary wherever the record keys it. -/
def Record.RunKept (r : Record) (run : List (Section Str)) : Prop :=
  if r.refreshesRun run then r.RefreshKept run
  else ∀ s ∈ run, r.Keys s → existingSummary s.body = strip r.summary

/-- The sections of a run, with the lines that their headings are read as. -/
def headed (summary : Str) : List (Section Str) → List (List Str × Section Str)
  | [] => []
  | s :: rest => ([s.heading], s) :: rest.map fun t => (refreshed summary t.heading, t)

/-- A section whose lines, less its summary, are read as they were. -/
def ReadAsWas (p : List Str × Section Str) : Prop :=
  SameLines [p.2.heading] p.1 ∧ ∀ line ∈ p.2.body, isSummaryLine line ∨ EndsWell line

/-- The sections renewed one by one, the last with the lines `added`. -/
def renewAll (summary : Str) (added : List Str) :
    List (List Str × Section Str) → List (Section Str)
  | [] => []
  | [p] => [renew summary p.1 added p.2]
  | p :: q :: ps => renew summary p.1 [] p.2 :: renewAll summary added (q :: ps)

def addedLines (summary : Str) (run : List (Section Str)) : List Str :=
  if (sectionLines run).any isSummaryLine then [] else [summaryLine summary]

/-- The sections that a run has when the page is read again. -/
def Record.newRun (r : Record) (run : List (Section Str)) : List (Section Str) :=
  if r.refreshesRun run then
    renewAll r.summary (addedLines r.summary run) (headed r.summary run)
  else run

theorem map_snd_headed (summary : Str) (run : List (Section Str)) :
    (headed summary run).map Prod.snd = run := by
  cases run with
  | nil => rfl
  | cons s rest =>
      rw [headed, List.map_cons, List.map_map]
      exact congrArg (s :: ·) (List.map_id rest)

theorem forall₂_renewAll (summary : Str) (added : List Str) (R : Section Str → Section Str → Prop)
    (ps : List (List Str × Section Str)) :
    List.Forall₂ R (ps.map Prod.snd) (renewAll summary added ps) ↔
      (∀ p ∈ ps.dropLast, R p.2 (renew summary p.1 [] p.2)) ∧
        ∀ p ∈ ps.getLast?, R p.2 (renew summary p.1 added p.2) := by
  induction ps with
  | nil => simp [renewAll]
  | cons p ps ih =>
      cases ps with
      | nil => simp [renewAll]
      | cons q ps =>
          rw [renewAll, List.map_cons, List.forall₂_cons, ih, List.dropLast_cons_cons,
            List.forall_mem_cons, and_assoc, List.getLast?_cons_cons]

theorem flatMap_all_renewAll {ps : List (List Str × Section Str)} (hNe : ps ≠ [])
    (hHeads : ∀ p ∈ ps, p.1 ≠ []) :
    (renewAll summary added ps).flatMap Section.all =
      ps.flatMap (fun p => p.1 ++ p.2.body.flatMap (refreshed summary)) ++ added := by
  have hAll (hs extra : List Str) (s : Section Str) (h : hs ≠ []) :
      (renew summary hs extra s).all = hs ++ s.body.flatMap (refreshed summary) ++ extra := by
    cases hs with
    | nil => exact absurd rfl h
    | cons line hs => simp [Section.all, renew]
  induction ps with
  | nil => exact absurd rfl hNe
  | cons p ps ih =>
      rw [List.forall_mem_cons] at hHeads
      cases ps with
      | nil => simp [renewAll, hAll _ _ _ hHeads.1]
      | cons q ps =>
          rw [renewAll, List.flatMap_cons, ih (List.cons_ne_nil _ _) hHeads.2]
          simp [hAll _ _ _ hHeads.1]

section Run

variable (hOne : OneLine r.summary) (hLined : ∀ s ∈ run, Lined s)

include hLined in
theorem pieces_sectionLines : ∀ l ∈ sectionLines run, LinePiece l := by
  intro l hl
  obtain ⟨s, hs, hMem⟩ := List.mem_flatMap.mp (List.mem_of_mem_tail hl)
  exact (hLined s hs).pieces l hMem

include hOne hLined in
theorem headingKept_headed : ∀ p ∈ headed r.summary run, HeadingKept p.2 p.1 ∧ Lined p.2 := by
  cases run with
  | nil => simp [headed]
  | cons s rest =>
      rw [List.forall_mem_cons] at hLined
      rw [headed, List.forall_mem_cons]
      refine ⟨⟨headingKept_self hLined.1.wellCut.1, hLined.1⟩, ?_⟩
      intro p hp
      obtain ⟨t, ht, rfl⟩ := List.mem_map.mp hp
      have hLine := hLined.2 t ht
      exact ⟨(hLine.refreshed hOne List.mem_cons_self).headingKept hLine.wellCut.1, hLine⟩

include hOne hLined in
/-- All lines of a run but its first heading end well just if each section is refreshed
into the lines that it has. -/
theorem sectionLines_endWell :
    (∀ line ∈ sectionLines run, isSummaryLine line ∨ EndsWell line) ↔
      ∀ p ∈ headed r.summary run, ReadAsWas p := by
  cases run with
  | nil => simp [headed, sectionLines]
  | cons s rest =>
      rw [List.forall_mem_cons] at hLined
      have hRest : (∀ line ∈ rest.flatMap Section.all, isSummaryLine line ∨ EndsWell line) ↔
          ∀ t ∈ rest, SameLines [t.heading] (refreshed r.summary t.heading) ∧
            ∀ line ∈ t.body, isSummaryLine line ∨ EndsWell line := by
        rw [List.forall_mem_flatMap]
        apply forall₂_congr
        intro t ht
        have hHeading := isSummaryLine_of_heading (hLined.2 t ht).wellCut.1
        rw [Section.all, List.forall_mem_cons,
          ((hLined.2 t ht).refreshed hOne List.mem_cons_self).sameLines, hHeading]
        simp
      rw [sectionLines_cons, List.forall_mem_append, hRest, headed, List.forall_mem_cons,
        List.forall_mem_map]
      simp [ReadAsWas, SameLines]

theorem not_any_of_sectionLines (h : (sectionLines run).any isSummaryLine = false) :
    ∀ s ∈ run, s.body.any isSummaryLine = false := by
  cases run with
  | nil => simp
  | cons s rest =>
      rw [sectionLines_cons, List.any_append, Bool.or_eq_false_iff, List.any_flatMap] at h
      rw [List.forall_mem_cons]
      refine ⟨h.1, fun t ht => ?_⟩
      have hRest := List.any_eq_false.mp h.2 t ht
      rw [Section.all, List.any_cons, Bool.not_eq_true, Bool.or_eq_false_iff] at hRest
      exact hRest.2

theorem forall_mem_iff_dropLast {α : Type*} {l : List α} {P : α → Prop} :
    (∀ x ∈ l, P x) ↔ (∀ x ∈ l.dropLast, P x) ∧ ∀ x ∈ l.getLast?, P x := by
  cases List.eq_nil_or_concat' l with
  | inl hNil => simp [hNil]
  | inr hConcat =>
      obtain ⟨init, x, rfl⟩ := hConcat
      simp [or_imp, forall_and]

theorem forall_headed (summary : Str) {P : Section Str → Prop} :
    (∀ p ∈ headed summary run, P p.2) ↔ ∀ s ∈ run, P s := by
  rw [← List.forall_mem_map (f := Prod.snd) (P := P), map_snd_headed]

theorem dropLast_headed (summary : Str) : ((headed summary run).dropLast).map Prod.snd = run.dropLast := by
  rw [List.map_dropLast, map_snd_headed]

theorem getLast?_headed (summary : Str) : ((headed summary run).getLast?).map Prod.snd = run.getLast? := by
  rw [← List.getLast?_map, map_snd_headed]

/-- Without a summary line there is no summary, so the record's is not empty. -/
theorem summary_ne_nil (hRefreshes : r.refreshesRun run = true)
    (hAny : (sectionLines run).any isSummaryLine = false) : strip r.summary ≠ [] := by
  intro hNil
  rw [any_isSummaryLine_eq, Bool.not_eq_false', List.isEmpty_iff] at hAny
  rw [Record.refreshesRun, Record.refreshes, existingSummary_eq, hAny, hNil] at hRefreshes
  simp at hRefreshes

include hOne hLined in
/-- A refreshed run is right in each of its sections just if it is kept. -/
theorem fine_newRun (hRefreshes : r.refreshesRun run = true) :
    List.Forall₂ r.Fine run (r.newRun run) ↔ r.RefreshKept run := by
  have hHeaded := headingKept_headed hOne hLined
  have hPairs := forall₂_renewAll r.summary (addedLines r.summary run) r.Fine
    (headed r.summary run)
  rw [map_snd_headed] at hPairs
  rw [Record.newRun, if_pos hRefreshes, hPairs, Record.RefreshKept,
    sectionLines_endWell hOne hLined]
  cases hAny : (sectionLines run).any isSummaryLine with
  | true =>
      have hAdded : addedLines r.summary run = [] := if_pos hAny
      rw [hAdded, ← forall_mem_iff_dropLast, if_pos rfl,
        ← forall_headed r.summary, ← forall₂_and]
      simp only [hOne, true_and]
      apply forall₂_congr
      intro p hp
      rw [fine_renew (hHeaded p hp).1 hOne (hHeaded p hp).2 (Or.inl rfl)]
      rw [ReadAsWas, and_assoc]
      simp
  | false =>
      have hNone := not_any_of_sectionLines hAny
      have hAdded : addedLines r.summary run = [summaryLine r.summary] := by
        rw [addedLines, hAny]
        rfl
      have hSummary := summary_ne_nil hRefreshes hAny
      have hBody : ∀ p ∈ headed r.summary run, p.2.body.any isSummaryLine = false :=
        (forall_headed r.summary).mpr hNone
      have hEarlier : ∀ p ∈ (headed r.summary run).dropLast,
          (r.Fine p.2 (renew r.summary p.1 [] p.2) ↔
            ReadAsWas p ∧ ¬r.Keys p.2) := by
        intro p hp
        have hMem := List.mem_of_mem_dropLast hp
        have hFree := List.any_eq_false.mp (hBody p hMem)
        rw [fine_renew (hHeaded p hMem).1 hOne (hHeaded p hMem).2 (Or.inl rfl), hBody p hMem]
        cases r.Keys p.2 with
        | true => simp [hSummary]
        | false => simp +contextual [hFree, ReadAsWas]
      have hLast : ∀ p ∈ (headed r.summary run).getLast?,
          (r.Fine p.2 (renew r.summary p.1 [summaryLine r.summary] p.2) ↔
            ReadAsWas p ∧ r.Keys p.2) := by
        intro p hp
        have hMem := List.mem_of_getLast? hp
        rw [fine_renew (hHeaded p hMem).1 hOne (hHeaded p hMem).2 (Or.inr rfl), hBody p hMem]
        cases r.Keys p.2 with
        | true => simp [ReadAsWas]
        | false => simp
      have hKeysLast : (∀ p ∈ (headed r.summary run).getLast?, r.Keys p.2) ↔
          ∀ s ∈ run.getLast?, r.Keys s := by
        rw [← getLast?_headed r.summary]
        simp only [Option.mem_def, Option.map_eq_some_iff]
        constructor
        · rintro h s ⟨p, hp, rfl⟩
          exact h p hp
        · intro h p hp
          exact h p.2 ⟨p, hp, rfl⟩
      have hKeysEarlier : (∀ p ∈ (headed r.summary run).dropLast, ¬r.Keys p.2) ↔
          ∀ s ∈ run.dropLast, ¬r.Keys s := by
        rw [← dropLast_headed r.summary, List.forall_mem_map]
      have hRead : (∀ p ∈ headed r.summary run, ReadAsWas p) ↔ _ := forall_mem_iff_dropLast
      rw [hAdded, forall₂_congr hEarlier, forall₂_congr hLast, forall₂_and, forall₂_and,
        if_neg Bool.false_ne_true, hKeysLast, hKeysEarlier, hRead]
      simp only [hOne, true_and]
      constructor
      · intro h
        exact ⟨⟨h.1.1, h.2.1⟩, h.2.2, h.1.2⟩
      · intro h
        exact ⟨⟨h.1.1, h.2.2⟩, h.1.2, h.2.1⟩

theorem addedLines_cases (summary : Str) (run : List (Section Str)) :
    addedLines summary run = [] ∨ addedLines summary run = [summaryLine summary] := by
  rw [addedLines]
  split_ifs with hAny
  · exact Or.inl rfl
  · exact Or.inr rfl

include hOne hLined in
/-- A run has as many sections as before, of the same kinds and keyed as before. -/
theorem newRun_same :
    List.Forall₂ (fun s t => isBacklink t = isBacklink s ∧ r.Keys t = r.Keys s) run
      (r.newRun run) := by
  rw [Record.newRun]
  split_ifs with hRefreshes
  · have hHeaded := headingKept_headed hOne hLined
    have hPairs := forall₂_renewAll r.summary (addedLines r.summary run)
      (fun s t => isBacklink t = isBacklink s ∧ r.Keys t = r.Keys s) (headed r.summary run)
    rw [map_snd_headed] at hPairs
    rw [hPairs]
    constructor
    · intro p hp
      have hOld := hHeaded p (List.mem_of_mem_dropLast hp)
      exact ⟨hOld.1.backlink, keys_renew hOld.1 hOne hOld.2 (Or.inl rfl)⟩
    · intro p hp
      have hOld := hHeaded p (List.mem_of_getLast? hp)
      exact ⟨hOld.1.backlink, keys_renew hOld.1 hOne hOld.2 (addedLines_cases _ _)⟩
  · exact List.forall₂_same.mpr fun _ _ => ⟨rfl, rfl⟩

theorem mem_renewAll {ps : List (List Str × Section Str)} {t : Section Str}
    (h : t ∈ renewAll summary added ps) :
    ∃ p ∈ ps, t = renew summary p.1 [] p.2 ∨ t = renew summary p.1 added p.2 := by
  induction ps with
  | nil => cases h
  | cons p ps ih =>
      cases ps with
      | nil => exact ⟨p, List.mem_cons_self, Or.inr (List.mem_singleton.mp h)⟩
      | cons q ps =>
          cases List.mem_cons.mp h with
          | inl hFirst => exact ⟨p, List.mem_cons_self, Or.inl hFirst⟩
          | inr hRest =>
              obtain ⟨o, hMem, hEq⟩ := ih hRest
              exact ⟨o, List.mem_cons_of_mem _ hMem, hEq⟩

include hOne hLined in
theorem wellCut_newRun : ∀ t ∈ r.newRun run, WellCut isHeading t := by
  intro t ht
  rw [Record.newRun] at ht
  split_ifs at ht with hRefreshes
  · obtain ⟨p, hp, hEq⟩ := mem_renewAll ht
    have hOld := headingKept_headed hOne hLined p hp
    cases hEq with
    | inl hEq =>
        rw [hEq]
        exact wellCut_renew hOld.1 hOne hOld.2 (Or.inl rfl)
    | inr hEq =>
        rw [hEq]
        exact wellCut_renew hOld.1 hOne hOld.2 (addedLines_cases _ _)
  · exact (hLined t ht).wellCut

theorem headed_lines (summary : Str) (run : List (Section Str)) :
    (headed summary run).flatMap (fun p => p.1 ++ p.2.body.flatMap (refreshed summary)) =
      (run.flatMap Section.all).take 1 ++ (sectionLines run).flatMap (refreshed summary) := by
  cases run with
  | nil => rfl
  | cons s rest =>
      rw [headed, List.flatMap_cons, List.flatMap_map, sectionLines_cons, List.flatMap_append,
        List.flatMap_assoc]
      simp [Section.all]

theorem ne_nil_of_refreshesRun (h : r.refreshesRun run = true) : run ≠ [] := by
  intro hNil
  rw [hNil, Record.refreshesRun, Record.refreshes] at h
  simp [sectionLines, Record.sectionMatches] at h

include hOne hLined in
theorem newRun_all (h : r.refreshesRun run = true) :
    (r.newRun run).flatMap Section.all =
      (run.flatMap Section.all).take 1 ++ (sectionLines run).flatMap (refreshed r.summary) ++
        addedLines r.summary run := by
  have hNe : headed r.summary run ≠ [] := by
    intro hNil
    apply ne_nil_of_refreshesRun h
    rw [← map_snd_headed r.summary run, hNil]
    rfl
  rw [Record.newRun, if_pos h,
    flatMap_all_renewAll hNe fun p hp => (headingKept_headed hOne hLined p hp).1.ne_nil,
    headed_lines]

theorem splitlinesKeep_piece {l : Str} (h : LinePiece l) : splitlinesKeep l = [l] := by
  cases h with
  | inl hClosed => exact splitlinesKeep_closed hClosed
  | inr hOpen => exact splitlinesKeep_unterminated hOpen

theorem flatMap_splitlinesKeep {ls : List Str} (h : ∀ l ∈ ls, LinePiece l) :
    ls.flatMap splitlinesKeep = ls := by
  rw [List.flatMap_congr fun l hl => splitlinesKeep_piece (h l hl)]
  simp

include hOne hLined in
/-- The lines of a run after the upsert, as they are read again. -/
theorem newRun_lines :
    (r.outputLines run).flatMap splitlinesKeep = (r.newRun run).flatMap Section.all := by
  have hPieces : ∀ l ∈ run.flatMap Section.all, LinePiece l := by
    intro l hl
    obtain ⟨s, hs, hMem⟩ := List.mem_flatMap.mp hl
    exact (hLined s hs).pieces l hMem
  rw [Record.outputLines]
  split_ifs with hRefreshes
  · have hAdded : (if (sectionLines run).any isSummaryLine then [] else [summaryLine r.summary]).flatMap
        splitlinesKeep = addedLines r.summary run := by
      rw [addedLines]
      split_ifs with hAny
      · rfl
      · exact congrArg (· ++ []) (splitlinesKeep_closed (closed_summaryLine hOne))
    rw [newRun_all hOne hLined hRefreshes, updateSectionSummary, List.flatMap_append,
      List.flatMap_append, hAdded, List.flatMap_map,
      flatMap_splitlinesKeep fun l hl => hPieces l (List.mem_of_mem_take hl), List.append_assoc]
    rfl
  · rw [Record.newRun, if_neg hRefreshes, flatMap_splitlinesKeep hPieces]

include hOne hLined in
/-- After the upsert no run is refreshed again. -/
theorem refreshesRun_newRun : r.refreshesRun (r.newRun run) = false := by
  cases hRefreshes : r.refreshesRun run with
  | false => rw [Record.newRun, if_neg (by simp [hRefreshes]), hRefreshes]
  | true =>
      have hAll : ∀ l ∈ sectionLines run, Refreshed r.summary l (refreshed r.summary l) :=
        fun l hl => refreshed_cases hOne (pieces_sectionLines hLined l hl)
      obtain ⟨head, hHead⟩ : ∃ head, (run.flatMap Section.all).take 1 = [head] := by
        cases run with
        | nil => exact absurd rfl (ne_nil_of_refreshesRun hRefreshes)
        | cons s rest => exact ⟨s.heading, rfl⟩
      have hLines : sectionLines (r.newRun run) =
          (sectionLines run).flatMap (refreshed r.summary) ++ addedLines r.summary run := by
        rw [sectionLines, newRun_all hOne hLined hRefreshes, hHead]
        rfl
      have hSummary : existingSummary (sectionLines (r.newRun run)) = strip r.summary := by
        rw [hLines, existingSummary_flatMap hAll, addedLines]
        split_ifs with hAny
        · rfl
        · exact existingSummary_summaryLine r.summary
      rw [Record.refreshesRun, Record.refreshes, hSummary]
      simp

end Run

end Plumber.Backlink
