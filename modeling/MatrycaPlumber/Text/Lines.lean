import MatrycaPlumber.Text.Basic

/-! `str.splitlines` and the reassembly of a text from its lines. A text that
came through universal newlines holds no carriage return, so each of its lines
ends in one boundary character, except possibly the last one. -/
namespace PyText

/-- `s.splitlines(keepends=True)`. -/
def splitlinesKeep : Str → List Str
  | [] => []
  | '\r' :: '\n' :: rest => ['\r', '\n'] :: splitlinesKeep rest
  | c :: rest =>
      if isLineBreak c then [c] :: splitlinesKeep rest
      else match splitlinesKeep rest with
        | [] => [[c]]
        | l :: ls => (c :: l) :: ls

/-- The line without its boundary. -/
def dropLineBreak (l : Str) : Str :=
  if endsWith ['\r', '\n'] l then l.dropLast.dropLast
  else match l.getLast? with
    | some c => if isLineBreak c then l.dropLast else l
    | none => l

/-- `s.splitlines()`. -/
def splitlines (s : Str) : List Str := (splitlinesKeep s).map dropLineBreak

/-- Text mode reading with `newline=None`. -/
def universalNewlines : Str → Str
  | [] => []
  | '\r' :: '\n' :: rest => '\n' :: universalNewlines rest
  | c :: rest => (if c = '\r' then '\n' else c) :: universalNewlines rest

theorem cr_notMem_universalNewlines (s : Str) : '\r' ∉ universalNewlines s := by
  induction s using universalNewlines.induct with
  | case1 => simp [universalNewlines]
  | case2 rest ih => simpa [universalNewlines] using ih
  | case3 c rest hne ih =>
      rw [universalNewlines]
      · intro h
        rcases List.mem_cons.mp h with h | h
        · split_ifs at h with hc
          · exact absurd h (by decide)
          · exact hc h.symm
        · exact ih h
      · exact hne

/-- A line that ends in its only boundary, which is a single character. -/
def Closed (l : Str) : Prop :=
  ∃ body b, l = body ++ [b] ∧ isLineBreak b = true ∧ b ≠ '\r' ∧ ∀ c ∈ body, isLineBreak c = false

/-- A non-empty line without a boundary, as only the last line of a text can be. -/
def Unterminated (l : Str) : Prop := l ≠ [] ∧ ∀ c ∈ l, isLineBreak c = false

/-- What `splitlines(keepends=True)` returns on a text without carriage returns. -/
def PageLines : List Str → Prop
  | [] => True
  | [l] => Closed l ∨ Unterminated l
  | l :: m :: ls => Closed l ∧ PageLines (m :: ls)

theorem splitlinesKeep_crlf (rest : Str) :
    splitlinesKeep ('\r' :: '\n' :: rest) = ['\r', '\n'] :: splitlinesKeep rest := rfl

/-- The one-step equation away from the `\r\n` pair. -/
theorem splitlinesKeep_step {c : Char} {rest : Str}
    (hPair : ∀ tail, c = '\r' → rest = '\n' :: tail → False) :
    splitlinesKeep (c :: rest) =
      if isLineBreak c then [c] :: splitlinesKeep rest
      else match splitlinesKeep rest with
        | [] => [[c]]
        | l :: ls => (c :: l) :: ls := by
  rw [splitlinesKeep]
  exact hPair

theorem flatten_splitlinesKeep (s : Str) : (splitlinesKeep s).flatten = s := by
  induction s using splitlinesKeep.induct with
  | case1 => rfl
  | case2 rest ih => simp [splitlinesKeep_crlf, ih]
  | case3 c rest hne hb ih =>
      rw [splitlinesKeep_step hne, if_pos hb]
      simp [ih]
  | case4 c rest hne hb hnil ih =>
      rw [splitlinesKeep_step hne, if_neg hb, hnil]
      rw [hnil] at ih
      simpa using ih
  | case5 c rest hne hb l ls hcons ih =>
      rw [splitlinesKeep_step hne, if_neg hb, hcons]
      rw [hcons] at ih
      simpa using ih

/-- The one-step equation for a character other than `\r`. -/
theorem splitlinesKeep_cons {c : Char} (rest : Str) (h : c ≠ '\r') :
    splitlinesKeep (c :: rest) =
      if isLineBreak c then [c] :: splitlinesKeep rest
      else match splitlinesKeep rest with
        | [] => [[c]]
        | l :: ls => (c :: l) :: ls :=
  splitlinesKeep_step fun _ hEq _ => h hEq

theorem splitlinesKeep_eq_nil {s : Str} : splitlinesKeep s = [] ↔ s = [] := by
  constructor
  · intro h
    have hf := flatten_splitlinesKeep s
    rw [h] at hf
    simpa using hf.symm
  · rintro rfl
    rfl

theorem Closed.ne_nil {l : Str} (h : Closed l) : l ≠ [] := by
  obtain ⟨body, b, rfl, _⟩ := h
  simp

theorem Unterminated.not_closed {l : Str} (h : Unterminated l) : ¬Closed l := by
  rintro ⟨body, b, rfl, hb, _⟩
  have := h.2 b (by simp)
  rw [hb] at this
  cases this

/-- Prefixing boundary-free characters keeps a line closed. -/
theorem Closed.prepend {l : Str} (h : Closed l) (ws : Str)
    (hws : ∀ c ∈ ws, isLineBreak c = false) : Closed (ws ++ l) := by
  obtain ⟨body, b, rfl, hb, hcr, hbody⟩ := h
  refine ⟨ws ++ body, b, by simp, hb, hcr, ?_⟩
  intro c hc
  rcases List.mem_append.mp hc with hc | hc
  · exact hws c hc
  · exact hbody c hc

theorem Unterminated.prepend {l : Str} (h : Unterminated l) (ws : Str)
    (hws : ∀ c ∈ ws, isLineBreak c = false) : Unterminated (ws ++ l) := by
  refine ⟨by simp [h.1], ?_⟩
  intro c hc
  rcases List.mem_append.mp hc with hc | hc
  · exact hws c hc
  · exact h.2 c hc

theorem closed_append_newline {body : Str} (h : ∀ c ∈ body, isLineBreak c = false) :
    Closed (body ++ ['\n']) :=
  ⟨body, '\n', rfl, rfl, by decide, h⟩

/-- A boundary-free run of characters is put in front of the first line. -/
theorem splitlinesKeep_free_append {body : Str} (t : Str)
    (hbody : ∀ c ∈ body, isLineBreak c = false) {m : Str} {ms : List Str}
    (ht : splitlinesKeep t = m :: ms) : splitlinesKeep (body ++ t) = (body ++ m) :: ms := by
  induction body with
  | nil => simpa using ht
  | cons c body ih =>
      have hc : isLineBreak c = false := hbody c List.mem_cons_self
      have hne : c ≠ '\r' := by rintro rfl; exact absurd hc (by decide)
      rw [List.cons_append, splitlinesKeep_cons _ hne, hc,
        ih (fun d hd => hbody d (List.mem_cons_of_mem c hd))]
      rfl

theorem splitlinesKeep_closed_append {l : Str} (h : Closed l) (t : Str) :
    splitlinesKeep (l ++ t) = l :: splitlinesKeep t := by
  obtain ⟨body, b, rfl, hb, hcr, hbody⟩ := h
  rw [List.append_assoc]
  refine splitlinesKeep_free_append _ hbody ?_
  rw [List.singleton_append, splitlinesKeep_cons _ hcr, if_pos hb]

theorem splitlinesKeep_unterminated {l : Str} (h : Unterminated l) : splitlinesKeep l = [l] := by
  obtain ⟨hne, hfree⟩ := h
  obtain ⟨body, c, rfl⟩ : ∃ body c, l = body ++ [c] :=
    ⟨l.dropLast, l.getLast hne, (List.dropLast_append_getLast hne).symm⟩
  have hc : isLineBreak c = false := hfree c (by simp)
  refine splitlinesKeep_free_append _ (fun d hd => hfree d (by simp [hd])) ?_
  have hcr : c ≠ '\r' := by rintro rfl; exact absurd hc (by decide)
  rw [splitlinesKeep_cons _ hcr, hc]
  rfl

theorem splitlinesKeep_flatten_append {ls : List Str} (h : ∀ l ∈ ls, Closed l) (t : Str) :
    splitlinesKeep (ls.flatten ++ t) = ls ++ splitlinesKeep t := by
  induction ls with
  | nil => rfl
  | cons l ls ih =>
      rw [List.flatten_cons, List.append_assoc,
        splitlinesKeep_closed_append (h l List.mem_cons_self),
        ih (fun m hm => h m (List.mem_cons_of_mem l hm)), List.cons_append]

theorem PageLines.tail {l : Str} {ls : List Str} (h : PageLines (l :: ls)) : PageLines ls := by
  cases ls with
  | nil => trivial
  | cons m ls => exact h.2

/-- All lines but the last are closed. -/
theorem pageLines_append_iff {ls : List Str} {m : Str} :
    PageLines (ls ++ [m]) ↔ (∀ l ∈ ls, Closed l) ∧ (Closed m ∨ Unterminated m) := by
  induction ls with
  | nil => simp [PageLines]
  | cons l ls ih =>
      have hcons : PageLines (l :: (ls ++ [m])) ↔ Closed l ∧ PageLines (ls ++ [m]) := by
        cases ls <;> exact Iff.rfl
      rw [List.cons_append, hcons, ih, List.forall_mem_cons, and_assoc]

theorem pageLines_of_closed {ls : List Str} (h : ∀ l ∈ ls, Closed l) : PageLines ls := by
  rcases List.eq_nil_or_concat' ls with rfl | ⟨init, m, rfl⟩
  · trivial
  · exact pageLines_append_iff.mpr
      ⟨fun l hl => h l (by simp [hl]), Or.inl (h m (by simp))⟩

/-- Lines of this shape are exactly the lines their text is split into. -/
theorem splitlinesKeep_flatten {ls : List Str} (h : PageLines ls) :
    splitlinesKeep ls.flatten = ls := by
  rcases List.eq_nil_or_concat' ls with rfl | ⟨init, m, rfl⟩
  · rfl
  · obtain ⟨hinit, hm⟩ := pageLines_append_iff.mp h
    rw [List.flatten_append, List.flatten_singleton, splitlinesKeep_flatten_append hinit]
    rcases hm with hm | hm
    · have := splitlinesKeep_closed_append hm []
      rw [List.append_nil] at this
      rw [this]
      rfl
    · rw [splitlinesKeep_unterminated hm]

theorem pageLines_splitlinesKeep {s : Str} (h : '\r' ∉ s) : PageLines (splitlinesKeep s) := by
  induction s with
  | nil => trivial
  | cons c rest ih =>
      have hcr : c ≠ '\r' := by rintro rfl; exact h List.mem_cons_self
      have hrest := ih (fun hm => h (List.mem_cons_of_mem c hm))
      rw [splitlinesKeep_cons _ hcr]
      cases hb : isLineBreak c with
      | true =>
          have hclosed : Closed [c] := ⟨[], c, rfl, hb, hcr, by simp⟩
          cases hs : splitlinesKeep rest with
          | nil => exact Or.inl hclosed
          | cons m ms => exact ⟨hclosed, hs ▸ hrest⟩
      | false =>
          have hfree : ∀ d ∈ [c], isLineBreak d = false := by simpa using hb
          cases hs : splitlinesKeep rest with
          | nil => exact Or.inr ⟨by simp, hfree⟩
          | cons m ms =>
              rw [hs] at hrest
              cases ms with
              | nil =>
                  rcases hrest with hm | hm
                  · exact Or.inl (hm.prepend [c] hfree)
                  · exact Or.inr (hm.prepend [c] hfree)
              | cons m' ms => exact ⟨hrest.1.prepend [c] hfree, hrest.2⟩

/-- A page ends with a line boundary when its last line does. -/
theorem closed_last_iff {ls : List Str} {m : Str} (h : PageLines (ls ++ [m])) :
    Closed m ↔ ∀ c ∈ (ls ++ [m]).flatten.getLast?, isLineBreak c = true := by
  have hne : m ≠ [] := by
    cases (pageLines_append_iff.mp h).2 with
    | inl hm => exact hm.ne_nil
    | inr hm => exact hm.1
  have hlast : (ls ++ [m]).flatten.getLast? = some (m.getLast hne) := by
    rw [List.flatten_append, List.flatten_singleton, List.getLast?_append,
      List.getLast?_eq_some_getLast hne]
    rfl
  rw [hlast]
  constructor
  · rintro ⟨body, b, rfl, hb, _⟩ c hc
    simp only [List.getLast_concat, Option.mem_def, Option.some.injEq] at hc
    exact hc ▸ hb
  · intro hb
    cases (pageLines_append_iff.mp h).2 with
    | inl hm => exact hm
    | inr hm =>
        have := hm.2 _ (List.getLast_mem hne)
        rw [hb _ rfl] at this
        cases this

/-- A text that ends in a boundary splits independently of what follows it. -/
theorem splitlinesKeep_append_of_break {s : Str} (t : Str) {b : Char} (hs : '\r' ∉ s)
    (hb : isLineBreak b = true) (hcr : b ≠ '\r') :
    splitlinesKeep (s ++ b :: t) = splitlinesKeep (s ++ [b]) ++ splitlinesKeep t := by
  induction s with
  | nil =>
      rw [List.nil_append, List.nil_append, splitlinesKeep_cons _ hcr, splitlinesKeep_cons _ hcr,
        if_pos hb, if_pos hb]
      rfl
  | cons c s ih =>
      have hc : c ≠ '\r' := by rintro rfl; exact hs List.mem_cons_self
      have hTail := ih (fun hm => hs (List.mem_cons_of_mem c hm))
      rw [List.cons_append, List.cons_append, splitlinesKeep_cons _ hc, splitlinesKeep_cons _ hc,
        hTail]
      by_cases hBreak : isLineBreak c = true
      · rw [if_pos hBreak, if_pos hBreak, List.cons_append]
      · rw [if_neg hBreak, if_neg hBreak]
        cases hLines : splitlinesKeep (s ++ [b]) with
        | nil => exact absurd (splitlinesKeep_eq_nil.mp hLines) (by simp)
        | cons l ls => rfl

/-- An unterminated line in front of other lines is read as one line with the
first of them, so the text has one line fewer. -/
theorem length_splitlinesKeep_glued {before after : List Str} {l : Str}
    (hBefore : ∀ m ∈ before, Closed m) (hl : Unterminated l) (hAfter : PageLines after)
    (hne : after ≠ []) :
    (splitlinesKeep (before ++ l :: after).flatten).length = before.length + after.length := by
  cases after with
  | nil => exact absurd rfl hne
  | cons m ms =>
      have hsplit : splitlinesKeep (m :: ms).flatten = m :: ms := splitlinesKeep_flatten hAfter
      rw [List.flatten_append, splitlinesKeep_flatten_append hBefore, List.flatten_cons,
        splitlinesKeep_free_append _ hl.2 hsplit]
      simp

/-- Inside a line no boundary stands before another character, the pair
`\r\n` apart. -/
theorem eq_nil_or_crlf_of_mem_splitlinesKeep {s l : Str} (hl : l ∈ splitlinesKeep s)
    {x y : Str} {c : Char} (h : l = x ++ c :: y)
    (hc : isLineBreak c = true) : y = [] ∨ (c = '\r' ∧ y = ['\n']) := by
  induction s using splitlinesKeep.induct generalizing l x with
  | case1 => cases hl
  | case2 rest ih =>
      rw [splitlinesKeep_crlf] at hl
      rcases List.mem_cons.mp hl with rfl | hl
      · cases x with
        | nil =>
            obtain ⟨rfl, rfl⟩ := List.cons.inj h
            exact Or.inr ⟨rfl, rfl⟩
        | cons d x =>
            have h := (List.cons.inj h).2
            cases x with
            | nil => exact Or.inl (List.cons.inj h).2.symm
            | cons e x => simp at h
      · exact ih hl h
  | case3 d rest hne hb ih =>
      rw [splitlinesKeep_step hne, if_pos hb] at hl
      rcases List.mem_cons.mp hl with rfl | hl
      · cases x with
        | nil => exact Or.inl (List.cons.inj h).2.symm
        | cons e x => simp at h
      · exact ih hl h
  | case4 d rest hne hb hnil ih =>
      rw [splitlinesKeep_step hne, if_neg hb, hnil] at hl
      rw [List.mem_singleton] at hl
      subst hl
      cases x with
      | nil => exact Or.inl (List.cons.inj h).2.symm
      | cons e x => simp at h
  | case5 d rest hne hb m ms hcons ih =>
      rw [splitlinesKeep_step hne, if_neg hb, hcons] at hl
      rcases List.mem_cons.mp hl with rfl | hl
      · cases x with
        | nil =>
            obtain ⟨rfl, _⟩ := List.cons.inj h
            exact absurd hc hb
        | cons e x =>
            exact ih (hcons ▸ List.mem_cons_self) (List.cons.inj h).2
      · exact ih (hcons ▸ List.mem_cons_of_mem m hl) h

/-- The lines of `splitlines()` hold no boundary at all. -/
theorem isLineBreak_of_mem_splitlines {s l : Str} (hl : l ∈ splitlines s) {c : Char}
    (hc : c ∈ l) : isLineBreak c = false := by
  obtain ⟨m, hm, rfl⟩ := List.mem_map.mp hl
  by_contra hb
  rw [Bool.not_eq_false] at hb
  simp only [dropLineBreak] at hc
  split_ifs at hc with hcrlf
  · obtain ⟨x, rfl⟩ := endsWith_iff.mp hcrlf
    have hx : c ∈ x := by
      have : (x ++ ['\r', '\n']).dropLast.dropLast = x := by
        rw [show x ++ ['\r', '\n'] = (x ++ ['\r']) ++ ['\n'] by simp]
        simp only [List.dropLast_concat]
      rwa [this] at hc
    obtain ⟨before, after, rfl⟩ := List.append_of_mem hx
    have := eq_nil_or_crlf_of_mem_splitlinesKeep hm
      (x := before) (y := after ++ ['\r', '\n']) (by simp) hb
    rcases this with h | ⟨_, h⟩
    · simp at h
    · have := congrArg List.length h
      simp at this
  · rcases List.eq_nil_or_concat' m with rfl | ⟨x, d, rfl⟩
    · simp at hc
    · rw [List.getLast?_concat] at hc
      have hcrlf' (y : Str) : x ++ [d] ≠ y ++ ['\r', '\n'] := by
        intro h
        exact hcrlf (endsWith_iff.mpr ⟨y, h.symm⟩)
      have hx : c ∈ x := by
        dsimp only at hc
        split_ifs at hc with hd
        · rwa [List.dropLast_concat] at hc
        · rcases List.mem_append.mp hc with hc | hc
          · exact hc
          · rw [List.mem_singleton] at hc
            subst hc
            exact absurd hb hd
      obtain ⟨before, after, rfl⟩ := List.append_of_mem hx
      have := eq_nil_or_crlf_of_mem_splitlinesKeep hm
        (x := before) (y := after ++ [d]) (by simp) hb
      rcases this with h | ⟨rfl, h⟩
      · simp at h
      · have hafter : after = [] := by
          cases after with
          | nil => rfl
          | cons e after => simp at h
        subst hafter
        have hd : d = '\n' := by simpa using h
        subst hd
        exact hcrlf' before (by simp)

/-- A text whose lines do not depend on what follows it. -/
def Terminated (s : Str) : Prop :=
  ∀ t, splitlinesKeep (s ++ t) = splitlinesKeep s ++ splitlinesKeep t

theorem Closed.terminated {l : Str} (h : Closed l) : Terminated l := by
  intro t
  have hLine := splitlinesKeep_closed_append h []
  rw [List.append_nil] at hLine
  rw [splitlinesKeep_closed_append h, hLine]
  rfl

theorem splitlinesKeep_cr {d : Char} (rest : Str) (h : d ≠ '\n') :
    splitlinesKeep ('\r' :: d :: rest) = ['\r'] :: splitlinesKeep (d :: rest) := by
  rw [splitlinesKeep_step]
  · rfl
  · intro tail _ hEq
    exact h (List.cons.inj hEq).1

theorem Terminated.cons {c : Char} {s : Str} (hc : c ≠ '\r') (hs : s ≠ []) (h : Terminated s) :
    Terminated (c :: s) := by
  intro t
  rw [List.cons_append, splitlinesKeep_cons _ hc, splitlinesKeep_cons _ hc, h t]
  split_ifs
  · rfl
  · cases hLines : splitlinesKeep s with
    | nil => exact absurd (splitlinesKeep_eq_nil.mp hLines) hs
    | cons l ls => rfl

theorem terminated_newline (s : Str) : Terminated (s ++ ['\n']) := by
  induction s using splitlinesKeep.induct with
  | case1 => exact (closed_append_newline (by simp)).terminated
  | case2 rest ih =>
      intro t
      have hTail := ih t
      simp only [List.cons_append] at hTail ⊢
      rw [splitlinesKeep_crlf, splitlinesKeep_crlf, hTail]
      rfl
  | _ c rest hPair =>
      by_cases hc : c = '\r'
      · subst hc
        cases rest with
        | nil => exact fun t => rfl
        | cons d rest =>
            have hd : d ≠ '\n' := fun hEq => hPair rest rfl (by rw [hEq])
            intro t
            have hTail : Terminated (d :: rest ++ ['\n']) := by assumption
            have hTail := hTail t
            simp only [List.cons_append] at hTail ⊢
            rw [splitlinesKeep_cr _ hd, splitlinesKeep_cr _ hd, hTail]
            rfl
      · apply Terminated.cons hc (by simp)
        assumption

/-- The lines of a text that is put together from terminated ones. -/
theorem splitlinesKeep_flatten_terminated {ls : List Str} (h : ∀ l ∈ ls.dropLast, Terminated l) :
    splitlinesKeep ls.flatten = ls.flatMap splitlinesKeep := by
  induction ls with
  | nil => rfl
  | cons l ls ih =>
      cases ls with
      | nil => simp
      | cons m ms =>
          rw [List.dropLast_cons_cons, List.forall_mem_cons] at h
          rw [List.flatten_cons, h.1, ih h.2]
          rfl

theorem PageLines.dropLast_closed {ls : List Str} (h : PageLines ls) :
    ∀ l ∈ ls.dropLast, Closed l := by
  induction ls with
  | nil => simp
  | cons l ls ih =>
      cases ls with
      | nil => simp
      | cons m ms =>
          rw [List.dropLast_cons_cons, List.forall_mem_cons]
          exact ⟨h.1, ih h.2⟩

theorem PageLines.splitlinesKeep_mem {ls : List Str} (h : PageLines ls) {l : Str} (hl : l ∈ ls) :
    splitlinesKeep l = [l] := by
  induction ls with
  | nil => cases hl
  | cons m ms ih =>
      have hFirst : Closed m ∨ Unterminated m := by
        cases ms with
        | nil => exact h
        | cons n ns => exact Or.inl h.1
      cases List.mem_cons.mp hl with
      | inl hEq =>
          rw [hEq]
          cases hFirst with
          | inl hClosed => simpa [splitlinesKeep] using splitlinesKeep_closed_append hClosed []
          | inr hOpen => exact splitlinesKeep_unterminated hOpen
      | inr hMem => exact ih h.tail hMem

theorem universalNewlines_cons {c : Char} (rest : Str) (h : c ≠ '\r') :
    universalNewlines (c :: rest) = c :: universalNewlines rest := by
  rw [universalNewlines, if_neg h]
  rintro rest' rfl
  exact absurd rfl h

theorem universalNewlines_cr {d : Char} (rest : Str) (h : d ≠ '\n') :
    universalNewlines ('\r' :: d :: rest) = '\n' :: universalNewlines (d :: rest) := by
  rw [universalNewlines, if_pos rfl]
  intro rest' _ hEq
  exact h (List.cons.inj hEq).1

theorem universalNewlines_ne_nil {s : Str} (h : s ≠ []) : universalNewlines s ≠ [] := by
  cases s with
  | nil => exact absurd rfl h
  | cons c s =>
      rw [universalNewlines.eq_def]
      split
      · contradiction
      · exact List.cons_ne_nil _ _
      · exact List.cons_ne_nil _ _

theorem universalNewlines_of_notMem {s : Str} (h : '\r' ∉ s) : universalNewlines s = s := by
  induction s with
  | nil => rfl
  | cons c s ih =>
      rw [List.mem_cons, not_or] at h
      rw [universalNewlines_cons _ (Ne.symm h.1), ih h.2]

/-- Translating the newlines of a text translates those of each line. -/
theorem splitlinesKeep_universalNewlines (s : Str) :
    splitlinesKeep (universalNewlines s) = (splitlinesKeep s).map universalNewlines := by
  induction s using splitlinesKeep.induct with
  | case1 => rfl
  | case2 rest ih =>
      rw [universalNewlines, splitlinesKeep_cons _ (by decide), if_pos (by rfl), splitlinesKeep, ih]
      rfl
  | case3 c rest hne hb ih =>
      by_cases hc : c = '\r'
      · subst hc
        cases rest with
        | nil => rfl
        | cons d rest =>
            have hd : d ≠ '\n' := fun hEq => hne rest rfl (by rw [hEq])
            rw [universalNewlines_cr _ hd, splitlinesKeep_cr _ hd, splitlinesKeep_cons _ (by decide),
              if_pos (by rfl), ih]
            rfl
      · rw [universalNewlines_cons _ hc, splitlinesKeep_cons _ hc, splitlinesKeep_cons _ hc, if_pos hb,
          if_pos hb, ih, List.map_cons, universalNewlines_cons _ hc]
        rfl
  | case4 c rest hne hb hnil ih =>
      obtain rfl := splitlinesKeep_eq_nil.mp hnil
      have hc : c ≠ '\r' := fun hEq => hb (hEq ▸ rfl)
      have hLine : splitlinesKeep [c] = [[c]] := by
        rw [splitlinesKeep_cons _ hc, if_neg hb]
        rfl
      have hSame : universalNewlines [c] = [c] := universalNewlines_cons [] hc
      rw [hSame, hLine, List.map_singleton, hSame]
  | case5 c rest hne hb l ls hcons ih =>
      have hc : c ≠ '\r' := fun hEq => hb (hEq ▸ rfl)
      rw [universalNewlines_cons _ hc, splitlinesKeep_cons _ hc, splitlinesKeep_cons _ hc, if_neg hb,
        if_neg hb, ih, hcons]
      exact congrArg (· :: _) (universalNewlines_cons l hc).symm

theorem count_newline_of_mem_splitlinesKeep {s l : Str} (h : l ∈ splitlinesKeep s) :
    l.count '\n' = if l.getLast? = some '\n' then 1 else 0 := by
  have hLast {x y : Str} (hl : l = x ++ '\n' :: y) : y = [] := by
    rcases eq_nil_or_crlf_of_mem_splitlinesKeep h hl (by rfl) with hy | hy
    · exact hy
    · exact absurd hy.1 (by decide)
  split_ifs with hEnd
  · obtain ⟨x, hl⟩ := List.getLast?_eq_some_iff.mp hEnd
    have hFront : '\n' ∉ x := by
      intro hMem
      obtain ⟨a, b, rfl⟩ := List.append_of_mem hMem
      have := hLast (x := a) (y := b ++ ['\n']) (by rw [hl, List.append_assoc]; rfl)
      simp at this
    rw [hl, List.count_append, List.count_eq_zero.mpr hFront]
    rfl
  · rw [List.count_eq_zero]
    intro hMem
    obtain ⟨x, y, hl⟩ := List.append_of_mem hMem
    rw [hLast hl] at hl
    exact hEnd (by rw [hl, List.getLast?_append]; rfl)
end PyText
