import MatrycaPlumber.Text.Lines

/-! A list of pieces is joined to one text. A piece is a line of its own in that
text when a boundary stands on either side of it. -/
namespace PyText

/-- A line of a page: closed, or boundary-free as the last line may be. -/
def LinePiece (l : Str) : Prop := Closed l ∨ Unterminated l

/-- The piece is one line of the joined text, at its place. -/
def OwnLine (before : List Str) (l : Str) (after : List Str) : Prop :=
  splitlinesKeep (before ++ l :: after).flatten =
    splitlinesKeep before.flatten ++ l :: splitlinesKeep after.flatten

/-- Two ways to single out an element of one list: the second element stands
before, at or after the first. -/
theorem append_cons_eq_cases {α : Type*} {xs ys us vs : List α} {x u : α}
    (h : xs ++ x :: ys = us ++ u :: vs) :
    (∃ mid, xs = us ++ u :: mid ∧ vs = mid ++ x :: ys) ∨ (xs = us ∧ x = u ∧ ys = vs) ∨
      ∃ mid, us = xs ++ x :: mid ∧ ys = mid ++ u :: vs := by
  induction xs generalizing us with
  | nil =>
      cases us with
      | nil =>
          obtain ⟨rfl, rfl⟩ := List.cons.inj h
          exact Or.inr (Or.inl ⟨rfl, rfl, rfl⟩)
      | cons w us =>
          obtain ⟨rfl, rfl⟩ := List.cons.inj h
          exact Or.inr (Or.inr ⟨us, rfl, rfl⟩)
  | cons a xs ih =>
      cases us with
      | nil =>
          obtain ⟨rfl, rfl⟩ := List.cons.inj h
          exact Or.inl ⟨xs, rfl, rfl⟩
      | cons w us =>
          obtain ⟨rfl, hTail⟩ := List.cons.inj h
          obtain ⟨mid, rfl, rfl⟩ | ⟨rfl, rfl, rfl⟩ | ⟨mid, rfl, rfl⟩ := ih hTail
          · exact Or.inl ⟨mid, rfl, rfl⟩
          · exact Or.inr (Or.inl ⟨rfl, rfl, rfl⟩)
          · exact Or.inr (Or.inr ⟨mid, rfl, rfl⟩)

/-- An element of a concatenation stands in the first or in the second list. -/
theorem append_eq_append_cons_cases {α : Type*} {xs ys us vs : List α} {u : α}
    (h : xs ++ ys = us ++ u :: vs) :
    (∃ mid, xs = us ++ u :: mid ∧ vs = mid ++ ys) ∨ ∃ mid, us = xs ++ mid ∧ ys = mid ++ u :: vs := by
  induction xs generalizing us with
  | nil => exact Or.inr ⟨us, rfl, h⟩
  | cons a xs ih =>
      cases us with
      | nil =>
          obtain ⟨rfl, rfl⟩ := List.cons.inj h
          exact Or.inl ⟨xs, rfl, rfl⟩
      | cons w us =>
          obtain ⟨rfl, hTail⟩ := List.cons.inj h
          obtain ⟨mid, rfl, rfl⟩ | ⟨mid, rfl, rfl⟩ := ih hTail
          · exact Or.inl ⟨mid, rfl, rfl⟩
          · exact Or.inr ⟨mid, rfl, rfl⟩

theorem LinePiece.ne_nil {l : Str} (h : LinePiece l) : l ≠ [] := by
  cases h with
  | inl hClosed => exact hClosed.ne_nil
  | inr hOpen => exact hOpen.1

theorem LinePiece.cr_notMem {l : Str} (h : LinePiece l) : '\r' ∉ l := by
  intro hm
  cases h with
  | inl hClosed =>
      obtain ⟨body, b, rfl, _, hcr, hBody⟩ := hClosed
      cases List.mem_append.mp hm with
      | inl hm => exact absurd (hBody _ hm) (by decide)
      | inr hm => exact hcr (List.mem_singleton.mp hm).symm
  | inr hOpen => exact absurd (hOpen.2 _ hm) (by decide)

/-- Only the last character of a piece can be a boundary. -/
theorem LinePiece.free_of_append_cons {x y : Str} {d : Char} (h : LinePiece (x ++ d :: y)) :
    ∀ c ∈ x, isLineBreak c = false := by
  intro c hc
  cases h with
  | inr hOpen => exact hOpen.2 c (by simp [hc])
  | inl hClosed =>
      obtain ⟨body, b, hEq, _, _, hBody⟩ := hClosed
      obtain ⟨init, e, hConcat⟩ := (List.eq_nil_or_concat' (d :: y)).resolve_left (by simp)
      rw [hConcat, ← List.append_assoc] at hEq
      obtain ⟨rfl, _⟩ := List.append_inj' hEq rfl
      exact hBody c (List.mem_append_left _ hc)

/-- A piece either ends in a newline or is left alone by `rstrip("\n")`. -/
theorem LinePiece.newline_cases {l : Str} (h : LinePiece l) :
    (∃ body, l = body ++ ['\n'] ∧ rstripChars ['\n'] l = body) ∨
      (endsWith ['\n'] l = false ∧ rstripChars ['\n'] l = l) := by
  obtain ⟨body, b, rfl⟩ := (List.eq_nil_or_concat' l).resolve_left h.ne_nil
  by_cases hb : b = '\n'
  · subst hb
    refine Or.inl ⟨body, rfl, ?_⟩
    have hFree := LinePiece.free_of_append_cons h
    rw [rstripChars, List.rdropWhile_concat_pos _ _ _ (by simp), List.rdropWhile_eq_self_iff]
    intro hne hLast
    have hBreak : body.getLast hne = '\n' := by simpa using hLast
    have := hFree _ (List.getLast_mem hne)
    rw [hBreak] at this
    cases this
  · refine Or.inr ⟨?_, ?_⟩
    · rw [← Bool.not_eq_true, endsWith_iff]
      rintro ⟨t, ht⟩
      obtain ⟨_, hEq⟩ := List.append_inj' ht rfl
      exact hb (List.cons.inj hEq).1.symm
    · rw [rstripChars, List.rdropWhile_concat_neg _ _ _ (by simpa using hb)]

theorem rstripChars_of_last {core : Str} (hne : core ≠ []) (hLast : core.getLast hne ≠ '\n') :
    rstripChars ['\n'] core = core ∧ rstripChars ['\n'] (core ++ ['\n']) = core := by
  have hCore : rstripChars ['\n'] core = core := by
    rw [rstripChars, List.rdropWhile_eq_self_iff]
    intro h hEq
    exact hLast (by simpa using hEq)
  refine ⟨hCore, ?_⟩
  rw [rstripChars, List.rdropWhile_concat_pos _ _ _ (by simp)]
  exact hCore

theorem linePiece_of_pageLines {ls : List Str} (h : PageLines ls) {l : Str} (hl : l ∈ ls) :
    LinePiece l := by
  obtain ⟨init, m, rfl⟩ := (List.eq_nil_or_concat' ls).resolve_left (List.ne_nil_of_mem hl)
  obtain ⟨hInit, hm⟩ := pageLines_append_iff.mp h
  cases List.mem_append.mp hl with
  | inl hl => exact Or.inl (hInit l hl)
  | inr hl => exact List.mem_singleton.mp hl ▸ hm

theorem pageLines_append {X Y : List Str} (h : PageLines (X ++ Y)) : PageLines X ∧ PageLines Y := by
  induction X with
  | nil => exact ⟨trivial, h⟩
  | cons x X ih =>
      obtain ⟨hX, hY⟩ := ih (PageLines.tail h)
      refine ⟨?_, hY⟩
      cases X with
      | nil => exact linePiece_of_pageLines h (by simp)
      | cons y X => exact ⟨h.1, hX⟩

theorem closed_of_pageLines_append {X Y : List Str} (h : PageLines (X ++ Y)) (hne : Y ≠ []) :
    ∀ l ∈ X, Closed l := by
  intro l hl
  apply h.dropLast_closed
  rw [List.dropLast_append_of_ne_nil hne]
  exact List.mem_append_left _ hl

theorem pageLines_append_of_closed {X Y : List Str} (hX : ∀ l ∈ X, Closed l) (hY : PageLines Y) :
    PageLines (X ++ Y) := by
  cases List.eq_nil_or_concat' Y with
  | inl hNil =>
      rw [hNil, List.append_nil]
      exact pageLines_of_closed hX
  | inr hConcat =>
      obtain ⟨init, m, rfl⟩ := hConcat
      obtain ⟨hInit, hm⟩ := pageLines_append_iff.mp hY
      rw [← List.append_assoc, pageLines_append_iff]
      exact ⟨List.forall_mem_append.mpr ⟨hX, hInit⟩, hm⟩

theorem flatten_ne_nil {ls : List Str} (h : ∀ m ∈ ls, LinePiece m) (hne : ls ≠ []) :
    ls.flatten ≠ [] := by
  cases ls with
  | nil => exact absurd rfl hne
  | cons l ls => simp [(h l List.mem_cons_self).ne_nil]

/-- A boundary-free piece is read together with the pieces after it. -/
theorem length_splitlinesKeep_open_cons {l : Str} (hl : Unterminated l) {ls : List Str}
    (h : ∀ m ∈ ls, LinePiece m) (hne : ls ≠ []) :
    (splitlinesKeep (l :: ls).flatten).length = (splitlinesKeep ls.flatten).length := by
  cases hLines : splitlinesKeep ls.flatten with
  | nil => exact absurd (splitlinesKeep_eq_nil.mp hLines) (flatten_ne_nil h hne)
  | cons m ms =>
      rw [List.flatten_cons, splitlinesKeep_free_append _ hl.2 hLines]
      rfl

theorem length_splitlinesKeep_append_open {before after : List Str} {u : Str}
    (hu : Unterminated u) (hBefore : ∀ m ∈ before, LinePiece m) (hAfter : ∀ m ∈ after, LinePiece m)
    (hne : after ≠ []) :
    (splitlinesKeep ((before ++ [u]) ++ after).flatten).length + 1 =
      (splitlinesKeep (before ++ [u]).flatten).length + (splitlinesKeep after.flatten).length := by
  induction before with
  | nil =>
      have hOne : (splitlinesKeep [u].flatten).length = 1 := by
        rw [List.flatten_singleton, splitlinesKeep_unterminated hu]
        rfl
      rw [List.nil_append, List.singleton_append, length_splitlinesKeep_open_cons hu hAfter hne,
        hOne, Nat.add_comm]
  | cons l before ih =>
      have ih := ih (fun m hm => hBefore m (List.mem_cons_of_mem l hm))
      have hAll : ∀ m ∈ before ++ [u], LinePiece m := by
        intro m hm
        cases List.mem_append.mp hm with
        | inl hm => exact hBefore m (List.mem_cons_of_mem l hm)
        | inr hm => exact List.mem_singleton.mp hm ▸ Or.inr hu
      cases hBefore l List.mem_cons_self with
      | inl hl =>
          simp only [List.cons_append, List.flatten_cons, splitlinesKeep_closed_append hl,
            List.length_cons] at ih ⊢
          omega
      | inr hl =>
          have hJoined : ∀ m ∈ before ++ [u] ++ after, LinePiece m := by
            intro m hm
            cases List.mem_append.mp hm with
            | inl hm => exact hAll m hm
            | inr hm => exact hAfter m hm
          rw [List.cons_append, List.cons_append,
            length_splitlinesKeep_open_cons hl hJoined (by simp),
            length_splitlinesKeep_open_cons hl hAll (by simp)]
          exact ih

/-- Behind a closed piece the text splits anew. -/
theorem splitlinesKeep_append_closed {before : List Str} {m : Str} (hm : Closed m)
    (hBefore : ∀ l ∈ before, LinePiece l) (t : Str) :
    splitlinesKeep ((before ++ [m]).flatten ++ t) =
      splitlinesKeep (before ++ [m]).flatten ++ splitlinesKeep t := by
  obtain ⟨body, b, rfl, hb, hcr, hBody⟩ := hm
  have hClean : '\r' ∉ before.flatten ++ body := by
    intro h
    cases List.mem_append.mp h with
    | inl h =>
        obtain ⟨l, hl, hc⟩ := List.mem_flatten.mp h
        exact (hBefore l hl).cr_notMem hc
    | inr h => exact absurd (hBody _ h) (by decide)
  have hSplit := splitlinesKeep_append_of_break t hClean hb hcr
  simpa [List.append_assoc] using hSplit

theorem ownLine_iff {before after : List Str} {l : Str} (hBefore : ∀ m ∈ before, LinePiece m)
    (hl : LinePiece l) (hAfter : ∀ m ∈ after, LinePiece m) :
    OwnLine before l after ↔
      (∀ m ∈ before.getLast?, Closed m) ∧ (Closed l ∨ after = []) := by
  have hTail : ∀ m ∈ l :: after, LinePiece m := List.forall_mem_cons.mpr ⟨hl, hAfter⟩
  -- the piece and the ones after it
  have hCons : splitlinesKeep (l :: after).flatten = l :: splitlinesKeep after.flatten ↔
      Closed l ∨ after = [] := by
    cases hl with
    | inl hClosed => simp [splitlinesKeep_closed_append hClosed, hClosed]
    | inr hOpen =>
        by_cases hNil : after = []
        · subst hNil
          simp [splitlinesKeep_unterminated hOpen, splitlinesKeep]
        · simp only [hNil, or_false, hOpen.not_closed, iff_false]
          intro hEq
          have hLen := congrArg List.length hEq
          rw [length_splitlinesKeep_open_cons hOpen hAfter hNil] at hLen
          simp at hLen
  cases List.eq_nil_or_concat' before with
  | inl hNil =>
      subst hNil
      simpa [OwnLine, splitlinesKeep] using hCons
  | inr hConcat =>
      obtain ⟨init, u, rfl⟩ := hConcat
      have hInit : ∀ m ∈ init, LinePiece m := fun m hm => hBefore m (by simp [hm])
      have hLast : (∀ m ∈ (init ++ [u]).getLast?, Closed m) ↔ Closed u := by simp
      rw [hLast]
      by_cases hu : Closed u
      · rw [OwnLine, List.flatten_append, splitlinesKeep_append_closed hu hInit,
          List.append_right_inj, hCons]
        simp [hu]
      · have hOpen : Unterminated u := (hBefore u (by simp)).resolve_left hu
        simp only [hu, false_and, iff_false]
        intro hOwn
        have hLen := congrArg List.length hOwn
        have hGlued := length_splitlinesKeep_append_open hOpen hInit hTail (by simp)
        have hLe : (splitlinesKeep (l :: after).flatten).length ≤
            (splitlinesKeep after.flatten).length + 1 := by
          cases hl with
          | inl hClosed => simp [splitlinesKeep_closed_append hClosed]
          | inr hFree =>
              by_cases hNil : after = []
              · simp [hNil, splitlinesKeep_unterminated hFree]
              · rw [length_splitlinesKeep_open_cons hFree hAfter hNil]
                omega
        rw [List.length_append, List.length_cons] at hLen
        omega

end PyText
