import MatrycaPlumber.Graph.GlobalFenceScanner

/-! When the scanner protects exactly the fenced lines of an outline. An
outline fence may stand at any depth and behind a list marker; the scanner
knows only fences with at most three blanks and no marker. -/
namespace Plumber.GlobalFenceScanner

open PyText

def isIndent (c : Char) : Bool := c = ' ' || c = '\t'

/-- The line after its indentation and one optional list marker. -/
def outlineBody (line : Str) : Str :=
  match line.dropWhile isIndent with
  | m :: c :: rest =>
      if (m = '-' ∨ m = '*' ∨ m = '+') ∧ isIndent c then rest.dropWhile isIndent
      else m :: c :: rest
  | body => body

/-- An opening line of a fence in an outline, with its number of backticks. -/
def outlineFenceOpen (line : Str) : Option Nat :=
  let body := outlineBody line
  let ticks := (body.takeWhile (· = '`')).length
  if 3 ≤ ticks ∧ '`' ∉ body.dropWhile (· = '`') then some ticks else none

/-- A closing line for a fence of `n` backticks: indentation and at least as
many backticks, trailing whitespace aside. -/
def outlineFenceClose (n : Nat) (line : Str) : Bool :=
  let body := line.dropWhile isIndent
  n ≤ (body.takeWhile (· = '`')).length && isBlank (body.dropWhile (· = '`'))

/-- A page in which every outline fence is closed, with one flag per line that
tells whether the line belongs to a fence. -/
inductive OutlineFences : List Str → List Bool → Prop where
  | nil : OutlineFences [] []
  | plain {l : Str} {ls : List Str} {fs : List Bool} (hOpen : outlineFenceOpen l = none)
      (rest : OutlineFences ls fs) : OutlineFences (l :: ls) (false :: fs)
  | fence {o c : Str} {b ls : List Str} {fs : List Bool} {n : Nat}
      (hOpen : outlineFenceOpen o = some n)
      (hBody : ∀ l ∈ b, outlineFenceClose n l = false) (hClose : outlineFenceClose n c = true)
      (rest : OutlineFences ls fs) :
      OutlineFences (o :: (b ++ c :: ls)) (true :: (List.replicate b.length true ++ true :: fs))

/-- A line that closes a fence of `n` backticks in the scanner's notation. -/
def mdCloses (n : Nat) (line : Str) : Prop := ∃ k, mdFenceClose line = some k ∧ n ≤ k

/-- The same reading of a page when only lines with at most three blanks of
indentation and no list marker open or close a fence. The last fence may stay
open until the end of the page. -/
inductive MdFences : List Str → List Bool → Prop where
  | nil : MdFences [] []
  | plain {l : Str} {ls : List Str} {fs : List Bool} (hOpen : mdFenceOpen l = none)
      (rest : MdFences ls fs) : MdFences (l :: ls) (false :: fs)
  | fence {o c : Str} {body ls : List Str} {fs : List Bool} {n : Nat}
      (hOpen : mdFenceOpen o = some n) (hBody : ∀ l ∈ body, ¬mdCloses n l) (hClose : mdCloses n c)
      (rest : MdFences ls fs) :
      MdFences (o :: (body ++ c :: ls)) (true :: (List.replicate body.length true ++ true :: fs))
  | openEnd {o : Str} {body : List Str} {n : Nat}
      (hOpen : mdFenceOpen o = some n) (hBody : ∀ l ∈ body, ¬mdCloses n l) :
      MdFences (o :: body) (true :: List.replicate body.length true)

/-- A line that opens no HTML comment and no query block. -/
def CleanLine (l : Str) : Prop := ¬"<!--".toList <:+: l ∧ isBeginQuery l = false

instance (l : Str) : Decidable (CleanLine l) := inferInstanceAs (Decidable (_ ∧ _))

/-- No HTML comment and no query block outside the flagged lines. -/
def CleanOutside (lines : List Str) (flags : List Bool) : Prop :=
  ∀ entry ∈ lines.zip flags, entry.2 = false → CleanLine entry.1

instance (lines : List Str) (flags : List Bool) : Decidable (CleanOutside lines flags) :=
  inferInstanceAs (Decidable (∀ entry ∈ lines.zip flags, _))

theorem stripEol_of_mem_splitlines {s l : Str} (hl : l ∈ splitlines s) : stripEol l = l := by
  rcases List.eq_nil_or_concat' l with rfl | ⟨body, c, rfl⟩
  · rfl
  · have hb := isLineBreak_of_mem_splitlines hl (c := c) (by simp)
    have hr : c ≠ '\r' := by rintro rfl; exact absurd hb (by decide)
    have hn : c ≠ '\n' := by rintro rfl; exact absurd hb (by decide)
    simp [stripEol, rstripChars, hr, hn]

theorem updateMdFence_of_closes {n : Nat} (hn : n ≠ 0) {l : Str} (h : mdCloses n l) :
    updateMdFence l n = 0 := by
  obtain ⟨k, hk, hle⟩ := h
  simp [updateMdFence, hn, hk, hle]

theorem updateMdFence_of_not_closes {n : Nat} (hn : n ≠ 0) {l : Str} (h : ¬mdCloses n l) :
    updateMdFence l n = n := by
  cases hk : mdFenceClose l with
  | none => simp [updateMdFence, hn, hk]
  | some k =>
      have hle : ¬n ≤ k := fun hle => h ⟨k, hk, hle⟩
      simp [updateMdFence, hn, hk, hle]

theorem mdFenceOpen_ne_zero {l : Str} {n : Nat} (h : mdFenceOpen l = some n) : n ≠ 0 := by
  simp only [mdFenceOpen] at h
  split_ifs at h with hc
  have := Option.some.inj h
  omega

/-- Inside a fence every line up to the closing one is protected. -/
theorem protectedMdLines_body {n : Nat} (hn : n ≠ 0) (body rest : List Str)
    (hEol : ∀ l ∈ body, stripEol l = l) (hBody : ∀ l ∈ body, ¬mdCloses n l) :
    protectedMdLines n (body ++ rest) =
      List.replicate body.length true ++ protectedMdLines n rest := by
  induction body with
  | nil => rfl
  | cons l body ih =>
      simp only [List.cons_append, protectedMdLines, hEol l List.mem_cons_self,
        updateMdFence_of_not_closes hn (hBody l List.mem_cons_self), List.length_cons,
        List.replicate_succ]
      rw [ih (fun m hm => hEol m (List.mem_cons_of_mem l hm))
        (fun m hm => hBody m (List.mem_cons_of_mem l hm))]
      simp [hn]

/-- The scanner's flags are the ones of the restricted notation. -/
theorem MdFences.flags_eq {lines : List Str} {flags : List Bool} (h : MdFences lines flags)
    (hEol : ∀ l ∈ lines, stripEol l = l) : protectedMdLines 0 lines = flags := by
  induction h with
  | nil => rfl
  | @plain l ls fs hOpen _ ih =>
      simp only [protectedMdLines, hEol l List.mem_cons_self]
      rw [show updateMdFence l 0 = 0 by simp [updateMdFence, hOpen],
        ih (fun m hm => hEol m (List.mem_cons_of_mem l hm))]
      rfl
  | @fence o c body ls fs n hOpen hBody hClose _ ih =>
      have hn := mdFenceOpen_ne_zero hOpen
      have hMem : ∀ l ∈ body, stripEol l = l := fun l hl => hEol l (by simp [hl])
      simp only [protectedMdLines, hEol o List.mem_cons_self]
      rw [show updateMdFence o 0 = n by simp [updateMdFence, hOpen],
        protectedMdLines_body hn _ _ hMem hBody]
      simp only [protectedMdLines, hEol c (by simp), updateMdFence_of_closes hn hClose,
        ih (fun m hm => hEol m (by simp [hm]))]
      simp [hn]
  | @openEnd o body n hOpen hBody =>
      have hn := mdFenceOpen_ne_zero hOpen
      have hRest := protectedMdLines_body hn body [] (fun l hl => hEol l (by simp [hl])) hBody
      simp only [List.append_nil, protectedMdLines] at hRest
      simp only [protectedMdLines, hEol o List.mem_cons_self]
      rw [show updateMdFence o 0 = n by simp [updateMdFence, hOpen], hRest]
      simp [hn]

/-- Either some line closes the fence, and the first such one is known, or the
fence stays open. -/
theorem exists_first_close (n : Nat) (lines : List Str) :
    (∃ body c rest, lines = body ++ c :: rest ∧ (∀ l ∈ body, ¬mdCloses n l) ∧ mdCloses n c) ∨
      ∀ l ∈ lines, ¬mdCloses n l := by
  induction lines with
  | nil => exact Or.inr (by simp)
  | cons l lines ih =>
      by_cases hl : mdCloses n l
      · exact Or.inl ⟨[], l, lines, rfl, by simp, hl⟩
      · rcases ih with ⟨body, c, rest, rfl, hBody, hClose⟩ | hNone
        · exact Or.inl ⟨l :: body, c, rest, rfl, by simpa [hl] using hBody, hClose⟩
        · exact Or.inr (by simpa [hl] using hNone)

/-- Every page can be read in the restricted notation. -/
theorem exists_mdFences (lines : List Str) : ∃ flags, MdFences lines flags := by
  induction hk : lines.length using Nat.strong_induction_on generalizing lines with
  | _ k ih =>
      cases lines with
      | nil => exact ⟨[], .nil⟩
      | cons o rest =>
          cases hOpen : mdFenceOpen o with
          | none =>
              obtain ⟨fs, hfs⟩ := ih rest.length (by simp [← hk]) rest rfl
              exact ⟨false :: fs, .plain hOpen hfs⟩
          | some n =>
              rcases exists_first_close n rest with ⟨body, c, ls, rfl, hBody, hClose⟩ | hNone
              · have hlt : ls.length < k := by
                  rw [← hk]
                  simp only [List.length_cons, List.length_append]
                  omega
                obtain ⟨fs, hfs⟩ := ih ls.length hlt ls rfl
                exact ⟨_, .fence hOpen hBody hClose hfs⟩
              · exact ⟨_, .openEnd hOpen hNone⟩

theorem mdFences_iff {lines : List Str} {flags : List Bool}
    (hEol : ∀ l ∈ lines, stripEol l = l) :
    MdFences lines flags ↔ protectedMdLines 0 lines = flags := by
  constructor
  · intro h
    exact h.flags_eq hEol
  · rintro rfl
    obtain ⟨flags, h⟩ := exists_mdFences lines
    rw [h.flags_eq hEol]
    exact h

theorem scanHtmlFrom_clean {s : Str} (h : ¬"<!--".toList <:+: s) (overlaps : Bool) :
    scanHtmlFrom overlaps false s = (overlaps, false) := by
  induction s with
  | nil => simp [scanHtmlFrom]
  | cons c s ih =>
      have hs : ¬"<!--".toList <:+: s := fun hi => h (hi.trans (List.suffix_cons c s).isInfix)
      rw [scanHtmlFrom]
      · exact ih hs
      · rintro rest - rfl rfl
        exact h ⟨[], rest, rfl⟩
      · rintro rest ht
        cases ht

theorem isBeginQuery_of_notMem {l : Str} (h : '#' ∉ l) : isBeginQuery l = false := by
  cases hp : dropPrefix? beginQuery (lstrip l) with
  | none => simp [isBeginQuery, isMarkerLine, hp]
  | some rest =>
      have hl := dropPrefix?_eq_some.mp hp
      have hm : '#' ∈ lstrip l := by rw [hl]; exact List.mem_append_left _ (by decide)
      exact absurd ((List.dropWhile_suffix _).subset hm) h

/-- A closing line holds blanks and backticks only. -/
theorem cleanLine_of_mdFenceClose {l : Str} {k : Nat} (h : mdFenceClose l = some k) :
    CleanLine l := by
  simp only [mdFenceClose] at h
  split_ifs at h with hc
  obtain ⟨_, _, hBlank⟩ := hc
  have hChar : ∀ c ∈ l, c = ' ' ∨ c = '`' ∨ isSpace c = true := by
    intro c hm
    rw [← List.takeWhile_append_dropWhile (p := (· = ' ')) (l := l), List.mem_append] at hm
    rcases hm with hm | hm
    · exact Or.inl (by simpa using List.mem_takeWhile_imp hm)
    · rw [← List.takeWhile_append_dropWhile (p := (· = '`')) (l := l.dropWhile (· = ' ')),
        List.mem_append] at hm
      rcases hm with hm | hm
      · exact Or.inr (Or.inl (by simpa using List.mem_takeWhile_imp hm))
      · exact Or.inr (Or.inr (List.all_eq_true.mp hBlank c hm))
  constructor
  · intro hi
    have := hChar '<' (hi.subset (by decide))
    revert this
    decide
  · apply isBeginQuery_of_notMem
    intro hm
    have := hChar '#' hm
    revert this
    decide

/-- A line at which the scanner's fence state is off afterwards is either
unprotected or a closing line, so it is clean whenever unprotected lines are. -/
theorem cleanLine_of_unmasked {ticks : Nat} {l : Str} (hNew : updateMdFence l ticks = 0)
    (hClean : ticks = 0 → CleanLine l) : CleanLine l := by
  by_cases hTicks : ticks = 0
  · exact hClean hTicks
  · by_cases hClose : mdCloses ticks l
    · obtain ⟨k, hk, _⟩ := hClose
      exact cleanLine_of_mdFenceClose hk
    · rw [updateMdFence_of_not_closes hTicks hClose] at hNew
      exact absurd hNew hTicks

/-- The masked scans add nothing when no unprotected line opens a comment or a
query block. -/
theorem masked_scans_empty {ticks : Nat} {lines : List Str} (hEol : ∀ l ∈ lines, stripEol l = l)
    (hClean : CleanOutside lines (protectedMdLines ticks lines)) :
    protectedQueryLines ticks false lines = List.replicate lines.length false ∧
      protectedHtmlLines ticks false lines = List.replicate lines.length false := by
  induction lines generalizing ticks with
  | nil => exact ⟨rfl, rfl⟩
  | cons l lines ih =>
      have hl := hEol l List.mem_cons_self
      have hRest : CleanOutside lines (protectedMdLines (updateMdFence l ticks) lines) := by
        intro entry hm
        apply hClean entry
        simp only [protectedMdLines, hl, List.zip_cons_cons]
        exact List.mem_cons_of_mem _ hm
      obtain ⟨hQuery, hHtml⟩ := ih (fun m hm => hEol m (List.mem_cons_of_mem l hm)) hRest
      by_cases hNew : updateMdFence l ticks = 0
      · have hLine : CleanLine l := by
          apply cleanLine_of_unmasked hNew
          intro hTicks
          subst hTicks
          refine hClean (l, false) ?_ rfl
          simp [protectedMdLines, hl, hNew]
        rw [hNew] at hQuery hHtml
        constructor
        · simp [protectedQueryLines, hl, hNew, hLine.2, hQuery, List.replicate_succ]
        · simp [protectedHtmlLines, hl, hNew, scanHtmlLine, scanHtmlFrom_clean hLine.1, hHtml,
            List.replicate_succ]
      · constructor
        · simp [protectedQueryLines, hl, hNew, hQuery, List.replicate_succ]
        · simp [protectedHtmlLines, hl, hNew, hHtml, List.replicate_succ]

theorem computePageProtectedLineIndices_eq_md {text : Str}
    (hClean : CleanOutside (splitlines text) (protectedMdLines 0 (splitlines text))) (i : Nat) :
    computePageProtectedLineIndices text i =
      (protectedMdLines 0 (splitlines text)).getD i false := by
  obtain ⟨hQuery, hHtml⟩ := masked_scans_empty (fun l hl => stripEol_of_mem_splitlines hl) hClean
  have hOff (n : Nat) : (List.replicate n false).getD i false = false := by
    rw [List.getD_eq_getElem?_getD, List.getElem?_replicate]
    split_ifs <;> rfl
  simp only [computePageProtectedLineIndices, hQuery, hHtml, hOff, Bool.or_false]

theorem OutlineFences.length_eq {lines : List Str} {flags : List Bool}
    (h : OutlineFences lines flags) : flags.length = lines.length := by
  induction h with
  | nil => rfl
  | plain _ _ ih => simp [ih]
  | fence _ _ _ _ ih => simp [ih]

/-- The scanner returns the fences of the outline exactly when they are also
the fences of its own notation. The converse needs that no fence hides a
comment or query marker, which could protect a missed fence by accident. -/
theorem protected_eq_outlineFences_iff {text : Str} {flags : List Bool}
    (hFences : OutlineFences (splitlines text) flags)
    (hClean : CleanOutside (splitlines text) flags) :
    (MdFences (splitlines text) flags →
      ∀ i, computePageProtectedLineIndices text i = flags.getD i false) ∧
    ((∀ l ∈ splitlines text, CleanLine l) →
      (∀ i, computePageProtectedLineIndices text i = flags.getD i false) →
        MdFences (splitlines text) flags) := by
  have hEol : ∀ l ∈ splitlines text, stripEol l = l := fun l hl => stripEol_of_mem_splitlines hl
  constructor
  · intro hMd i
    have hFlags := hMd.flags_eq hEol
    rw [computePageProtectedLineIndices_eq_md (hFlags ▸ hClean), hFlags]
  · intro hAll hExact
    rw [mdFences_iff hEol]
    have hMd (i : Nat) : (protectedMdLines 0 (splitlines text)).getD i false = flags.getD i false := by
      rw [← hExact i, computePageProtectedLineIndices_eq_md]
      intro entry hm _
      exact hAll entry.1 (List.of_mem_zip hm).1
    apply List.ext_getElem
    · rw [length_protectedMdLines, hFences.length_eq]
    · intro i h₁ h₂
      simpa [List.getD_eq_getElem?_getD, h₁, h₂] using hMd i

theorem protected_fence_of_root_block :
    MdFences (splitlines "```\ncode\n```\n- a\n".toList) [true, true, true, false] ∧
      ∀ i, computePageProtectedLineIndices "```\ncode\n```\n- a\n".toList i =
        [true, true, true, false].getD i false := by
  have hFences : OutlineFences (splitlines "```\ncode\n```\n- a\n".toList)
      [true, true, true, false] :=
    .fence (b := ["code".toList]) (n := 3) (by decide) (by decide) (by decide)
      (.plain (by decide) .nil)
  have hMd : MdFences (splitlines "```\ncode\n```\n- a\n".toList) [true, true, true, false] :=
    (mdFences_iff (by decide)).mpr (by decide)
  have h := protected_eq_outlineFences_iff hFences (by decide)
  exact ⟨h.2 (by decide) (h.1 hMd), h.1 hMd⟩

/-- A fence four blanks deep, inside a nested bullet, is not protected. -/
theorem fence_of_nested_block_unprotected :
    ¬∀ (text : Str) (flags : List Bool), OutlineFences (splitlines text) flags →
      CleanOutside (splitlines text) flags →
        ∀ i, computePageProtectedLineIndices text i = flags.getD i false := by
  intro h
  have hFences : OutlineFences (splitlines "- a\n  - b\n    ```\n    code\n    ```\n".toList)
      [false, false, true, true, true] :=
    .plain (by decide) (.plain (by decide)
      (.fence (b := ["    code".toList]) (n := 3) (by decide) (by decide) (by decide) .nil))
  have := h _ _ hFences (by decide) 2
  revert this
  decide

/-- Blanks in front of a backtick are all of the indentation. -/
theorem dropWhile_isIndent_of_blanks {l rest : Str} (h : l.dropWhile (· = ' ') = '`' :: rest) :
    l.dropWhile isIndent = '`' :: rest := by
  induction l with
  | nil => cases h
  | cons c l ih =>
      by_cases hc : c = ' '
      · subst hc
        have hIndent : isIndent ' ' = true := rfl
        rw [List.dropWhile_cons_of_pos hIndent]
        exact ih (by simpa using h)
      · rw [List.dropWhile_cons_of_neg (by simpa using hc)] at h
        obtain ⟨rfl, rfl⟩ := List.cons.inj h
        rfl

theorem exists_backtick_of_ticks {l : Str} (h : 3 ≤ (l.takeWhile (· = '`')).length) :
    ∃ rest, l = '`' :: rest := by
  cases l with
  | nil => simp at h
  | cons c l =>
      by_cases hc : c = '`'
      · exact ⟨l, by rw [hc]⟩
      · simp [hc] at h

/-- Every fence opener of the scanner is one of the outline. -/
theorem outlineFenceOpen_of_mdFenceOpen {l : Str} {n : Nat} (h : mdFenceOpen l = some n) :
    outlineFenceOpen l = some n := by
  simp only [mdFenceOpen] at h
  split_ifs at h with hc
  obtain ⟨_, hTicks, hRest⟩ := hc
  obtain ⟨rest, hl⟩ := exists_backtick_of_ticks hTicks
  have hBody : outlineBody l = '`' :: rest := by
    rw [outlineBody, dropWhile_isIndent_of_blanks hl]
    cases rest <;> simp
  rw [← hl] at hBody
  rw [outlineFenceOpen, hBody, if_pos ⟨hTicks, hRest⟩]
  exact h

theorem outlineFenceClose_of_mdCloses {l : Str} {n : Nat} (h : mdCloses n l) :
    outlineFenceClose n l = true := by
  obtain ⟨k, hk, hle⟩ := h
  simp only [mdFenceClose] at hk
  split_ifs at hk with hc
  obtain ⟨_, hTicks, hBlank⟩ := hc
  obtain ⟨rest, hl⟩ := exists_backtick_of_ticks hTicks
  have hBody := dropWhile_isIndent_of_blanks hl
  rw [← hl] at hBody
  have hEq := Option.some.inj hk
  simp only [outlineFenceClose, hBody, Bool.and_eq_true, decide_eq_true_eq]
  exact ⟨by omega, hBlank⟩

/-- It is enough that every opening or closing line of the outline stands at
most three blanks deep and carries no list marker. -/
theorem MdFences.of_recognised {lines : List Str} {flags : List Bool}
    (h : OutlineFences lines flags)
    (hOpen : ∀ l ∈ lines, ∀ n, outlineFenceOpen l = some n → mdFenceOpen l = some n)
    (hClose : ∀ l ∈ lines, ∀ n, 3 ≤ n → outlineFenceClose n l = true → mdCloses n l) :
    MdFences lines flags := by
  induction h with
  | nil => exact .nil
  | @plain l ls fs hl _ ih =>
      have hPlain : mdFenceOpen l = none := by
        cases ho : mdFenceOpen l with
        | none => rfl
        | some n => rw [outlineFenceOpen_of_mdFenceOpen ho] at hl; cases hl
      exact .plain hPlain (ih (fun m hm => hOpen m (List.mem_cons_of_mem l hm))
        (fun m hm => hClose m (List.mem_cons_of_mem l hm)))
  | @fence o c body ls fs n ho hBody hc _ ih =>
      have hn : 3 ≤ n := by
        simp only [outlineFenceOpen] at ho
        split_ifs at ho with hTicks
        have := Option.some.inj ho
        omega
      refine .fence (hOpen o List.mem_cons_self n ho) ?_ (hClose c (by simp) n hn hc)
        (ih (fun m hm => hOpen m (by simp [hm])) (fun m hm => hClose m (by simp [hm])))
      intro l hl hCloses
      have := hBody l hl
      rw [outlineFenceClose_of_mdCloses hCloses] at this
      cases this

end Plumber.GlobalFenceScanner
