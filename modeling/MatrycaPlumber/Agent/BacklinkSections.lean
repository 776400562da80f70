import MatrycaPlumber.Agent.BacklinkBackpropagator

/-! The loop over the lines of a page in terms of its sections: it refreshes runs of
backlink sections, each read as if it were one section. -/
namespace Plumber.Backlink

open PyText Sections

variable {r : Record} {line summary key : Str} {lines : List Str}

theorem isHeading_of_isBacklinkHeading (h : isBacklinkHeading line = true) :
    isHeading line = true := by
  rw [isBacklinkHeading, beq_iff_eq] at h
  rw [isHeading, h]
  decide

theorem isOtherHeading_of_not_isHeading (h : isHeading line = false) :
    isOtherHeading line = false := by
  rw [isOtherHeading, h]
  rfl

def isBacklink (s : Section Str) : Bool := isBacklinkHeading s.heading

theorem isOtherHeading_of_isBacklink {s : Section Str} (h : isBacklink s = true) :
    isOtherHeading s.heading = false := by
  rw [isOtherHeading, show isBacklinkHeading s.heading = true from h]
  exact Bool.and_false _

/-- The lines that the scan reads for a run of sections, from below its first heading. -/
def sectionLines (run : List (Section Str)) : List Str := (run.flatMap Section.all).tail

/-- Whether the scan takes the sections for one that is to be refreshed. -/
def Record.refreshesRun (r : Record) (run : List (Section Str)) : Bool :=
  run.all isBacklink && r.refreshes (sectionLines run)

/-- The lines that the loop puts out for a run of sections. -/
def Record.outputLines (r : Record) (run : List (Section Str)) : List Str :=
  if r.refreshesRun run then
    (run.flatMap Section.all).take 1 ++ updateSectionSummary (sectionLines run) r.summary
  else run.flatMap Section.all

def pageSections (content : Str) : List Str × List (Section Str) :=
  cut isHeading (splitlinesKeep content)

def pageRuns (content : Str) : List (List (Section Str)) :=
  runs isBacklink (pageSections content).2

/-- The section is keyed by the record's source page and block. -/
def Record.Keys (r : Record) (s : Section Str) : Bool := isBacklink s && r.sectionMatches s.body

def Record.KeysSome (r : Record) (content : Str) : Prop := ∃ s ∈ (pageSections content).2, r.Keys s

instance (r : Record) (content : Str) : Decidable (r.KeysSome content) :=
  inferInstanceAs (Decidable (∃ s ∈ (pageSections content).2, r.Keys s))

/-- The same lines, whatever they end with. -/
def SameLines (ls ms : List Str) : Prop := ls.map dropLineBreak = ms.map dropLineBreak

instance (ls ms : List Str) : Decidable (SameLines ls ms) :=
  inferInstanceAs (Decidable (ls.map dropLineBreak = ms.map dropLineBreak))

def otherLines (s : Section Str) : List Str := s.all.filter fun line => !isSummaryLine line

/-- The sections have the same lines, less those of the summary if the record keys them. -/
def Record.SameBut (r : Record) (s t : Section Str) : Prop :=
  if r.Keys s then SameLines (otherLines s) (otherLines t) else SameLines s.all t.all

instance (r : Record) (s t : Section Str) : Decidable (r.SameBut s t) :=
  inferInstanceAs (Decidable (if r.Keys s then _ else _))

/-- The page with the newlines at its end replaced by one. -/
def endedPage (content : Str) : Str := rstripChars ['\n'] content ++ ['\n']

/-- The page `new` is `content` with the record's summary in each section that it keys, or
in one more section if it keys none. -/
structure Record.Upserted (r : Record) (content new : Str) : Prop where
  changes :
    if r.KeysSome content then
      (pageSections new).1 = (pageSections content).1 ∧
        List.Forall₂ r.SameBut (pageSections content).2 (pageSections new).2
    else ∃ added, pageSections new =
      ((pageSections (endedPage content)).1, (pageSections (endedPage content)).2 ++ [added])
  keyed : r.KeysSome new
  summaries : ∀ s ∈ (pageSections new).2, r.Keys s → existingSummary s.body = strip r.summary

/-- The upsert is local, and the same upsert changes nothing after it. -/
def Record.UpsertsRight (r : Record) (content : Str) : Prop :=
  r.Upserted content (r.upsertBacklinkInContent content).1 ∧
    r.upsertBacklinkInContent (r.upsertBacklinkInContent content).1 =
      ((r.upsertBacklinkInContent content).1, false)

theorem takeWhile_scan {body : List Str} {secs : List (Section Str)}
    (hBody : ∀ line ∈ body, isHeading line = false) (hSecs : ∀ s ∈ secs, WellCut isHeading s) :
    scanBacklinkSection (body ++ secs.flatMap Section.all) =
      (body ++ (secs.takeWhile isBacklink).flatMap Section.all,
        (secs.dropWhile isBacklink).flatMap Section.all) := by
  have hSkip (ls : List Str) (hLs : ∀ line ∈ ls, isOtherHeading line = false) (rest : List Str) :
      scanBacklinkSection (ls ++ rest) =
        (ls ++ (scanBacklinkSection rest).1, (scanBacklinkSection rest).2) := by
    have hPass : ∀ line ∈ ls, (!isOtherHeading line) = true := by
      intro line hLine
      rw [hLs line hLine]
      rfl
    rw [scanBacklinkSection, List.takeWhile_append_of_pos hPass, List.dropWhile_append_of_pos hPass]
    rfl
  have hFree (ls : List Str) (h : ∀ line ∈ ls, isHeading line = false) :
      ∀ line ∈ ls, isOtherHeading line = false :=
    fun line hLine => isOtherHeading_of_not_isHeading (h line hLine)
  rw [hSkip body (hFree body hBody)]
  suffices hScan : scanBacklinkSection (secs.flatMap Section.all) =
      ((secs.takeWhile isBacklink).flatMap Section.all,
        (secs.dropWhile isBacklink).flatMap Section.all) by
    rw [hScan]
  induction secs with
  | nil => rfl
  | cons s secs ih =>
      have hFirst := hSecs s List.mem_cons_self
      cases hBacklink : isBacklink s with
      | true =>
          have hAll : ∀ line ∈ s.all, isOtherHeading line = false := by
            intro line hLine
            cases List.mem_cons.mp hLine with
            | inl hHead => rw [hHead, isOtherHeading_of_isBacklink hBacklink]
            | inr hMem => exact hFree s.body hFirst.2 line hMem
          rw [List.flatMap_cons, hSkip s.all hAll,
            ih fun t ht => hSecs t (List.mem_cons_of_mem _ ht),
            List.takeWhile_cons_of_pos hBacklink, List.dropWhile_cons_of_pos hBacklink,
            List.flatMap_cons]
      | false =>
          have hStop : isOtherHeading s.heading = true := by
            rw [isOtherHeading, hFirst.1, show isBacklinkHeading s.heading = false from hBacklink]
            rfl
          rw [List.takeWhile_cons_of_neg (by simp [hBacklink]),
            List.dropWhile_cons_of_neg (by simp [hBacklink]), scanBacklinkSection,
            List.flatMap_cons, Section.all, List.cons_append,
            List.takeWhile_cons_of_neg (by simp [hStop]),
            List.dropWhile_cons_of_neg (by simp [hStop])]
          rfl

theorem upsertLoop_cons_of_neg (h : isBacklinkHeading line = false) :
    r.upsertLoop (line :: lines) = (line :: (r.upsertLoop lines).1, (r.upsertLoop lines).2) := by
  rw [Record.upsertLoop, if_neg (by simp [h])]

theorem upsertLoop_append (h : ∀ line ∈ lines, isHeading line = false) (rest : List Str) :
    r.upsertLoop (lines ++ rest) =
      (lines ++ (r.upsertLoop rest).1, (r.upsertLoop rest).2) := by
  induction lines with
  | nil => rfl
  | cons line lines ih =>
      have hNot : isBacklinkHeading line = false := by
        cases hBacklink : isBacklinkHeading line with
        | false => rfl
        | true => exact (isHeading_of_isBacklinkHeading hBacklink).symm.trans (h line List.mem_cons_self)
      rw [List.cons_append, upsertLoop_cons_of_neg hNot,
        ih fun l hl => h l (List.mem_cons_of_mem _ hl), List.cons_append]

theorem sectionLines_cons (s : Section Str) (rest : List (Section Str)) :
    sectionLines (s :: rest) = s.body ++ rest.flatMap Section.all := rfl

/-- The loop goes through the runs of backlink sections one after the other. -/
theorem upsertLoop_sections {secs : List (Section Str)} (h : ∀ s ∈ secs, WellCut isHeading s) :
    r.upsertLoop (secs.flatMap Section.all) =
      ((runs isBacklink secs).flatMap r.outputLines,
        (runs isBacklink secs).any r.refreshesRun) := by
  match secs with
  | [] => rw [List.flatMap_nil, Record.upsertLoop]; rfl
  | s :: secs =>
      have hFirst := h s List.mem_cons_self
      have hSecs : ∀ t ∈ secs, WellCut isHeading t := fun t ht => h t (List.mem_cons_of_mem _ ht)
      cases hBacklink : isBacklink s with
      | false =>
          have hLoop := upsertLoop_sections hSecs
          rw [List.flatMap_cons, Section.all, List.cons_append, upsertLoop_cons_of_neg hBacklink,
            upsertLoop_append hFirst.2, hLoop, runs_cons_of_neg hBacklink]
          simp [Record.outputLines, Record.refreshesRun, hBacklink, Section.all]
      | true =>
          have hLater : ∀ t ∈ secs.dropWhile isBacklink, WellCut isHeading t :=
            fun t ht => hSecs t ((List.dropWhile_suffix _).subset ht)
          have hLoop := upsertLoop_sections hLater
          have hHeading : isBacklinkHeading s.heading = true := hBacklink
          have hRun : (s :: secs.takeWhile isBacklink).all isBacklink = true := by
            simp only [List.all_cons, hBacklink, Bool.true_and, List.all_eq_true]
            exact fun t ht => List.mem_takeWhile_imp ht
          have hRefresh : r.refreshesRun (s :: secs.takeWhile isBacklink) =
              r.refreshes (s.body ++ (secs.takeWhile isBacklink).flatMap Section.all) := by
            rw [Record.refreshesRun, hRun, sectionLines_cons, Bool.true_and]
          rw [List.flatMap_cons, Section.all, List.cons_append, Record.upsertLoop,
            if_pos hHeading, takeWhile_scan hFirst.2 hSecs, hLoop, runs_cons_of_pos hBacklink,
            List.flatMap_cons, List.any_cons, Record.outputLines, hRefresh, sectionLines_cons]
          cases hIs : r.refreshes (s.body ++ (secs.takeWhile isBacklink).flatMap Section.all) with
          | true => simp [hIs, Section.all]
          | false => simp [hIs, Section.all]
  termination_by secs.length
  decreasing_by
    · simp
    · have := (List.dropWhile_suffix (p := isBacklink) (l := secs)).length_le
      simp only [List.length_cons]
      omega

theorem wellCut_pageSections (content : Str) :
    (∀ line ∈ (pageSections content).1, isHeading line = false) ∧
      ∀ s ∈ (pageSections content).2, WellCut isHeading s :=
  wellCut_cut

theorem upsertLoop_eq (content : Str) :
    r.upsertLoop (splitlinesKeep content) =
      ((pageSections content).1 ++ (pageRuns content).flatMap r.outputLines,
        (pageRuns content).any r.refreshesRun) := by
  have hCut := wellCut_pageSections content
  have hJoin : (pageSections content).1 ++ (pageSections content).2.flatMap Section.all =
      splitlinesKeep content := cut_join
  rw [← hJoin, upsertLoop_append hCut.1, upsertLoop_sections hCut.2]
  rfl

end Plumber.Backlink
