import MatrycaPlumber.Text.Lines

/-! The lines of a text that are not blank. For them it does not matter whether
the pair `\r\n` is one boundary or two, so a text may be cut at any boundary. -/
namespace PyText

/-- The lines of `s.splitlines()` that hold more than whitespace. -/
def nonblankLines (s : Str) : List Str := (splitlines s).filter fun l => !isBlank l

theorem ne_nil_of_mem_splitlinesKeep {s l : Str} (h : l ∈ splitlinesKeep s) : l ≠ [] := by
  induction s using splitlinesKeep.induct generalizing l with
  | case1 => cases h
  | case2 rest ih =>
      rw [splitlinesKeep] at h
      cases h with
      | head => simp
      | tail _ hTail => exact ih hTail
  | case3 c rest hne hb ih =>
      rw [splitlinesKeep, if_pos hb] at h
      · cases h with
        | head => simp
        | tail _ hTail => exact ih hTail
      · exact hne
  | case4 c rest hne hb hnil ih =>
      rw [splitlinesKeep, if_neg hb, hnil] at h
      · obtain rfl := List.mem_singleton.mp h
        simp
      · exact hne
  | case5 c rest hne hb m ms hcons ih =>
      rw [splitlinesKeep, if_neg hb, hcons] at h
      · cases h with
        | head => simp
        | tail _ hTail => exact ih (hcons ▸ List.mem_cons_of_mem m hTail)
      · exact hne

theorem dropLineBreak_cons {c : Char} (hc : isLineBreak c = false) {l : Str} (hl : l ≠ []) :
    dropLineBreak (c :: l) = c :: dropLineBreak l := by
  have hEnds : endsWith ['\r', '\n'] (c :: l) = endsWith ['\r', '\n'] l := by
    rw [Bool.eq_iff_iff, endsWith_iff, endsWith_iff, List.suffix_cons_iff]
    constructor
    · intro h
      cases h with
      | inl hEq =>
          rw [(List.cons.inj hEq).1.symm] at hc
          cases hc
      | inr hSuffix => exact hSuffix
    · exact Or.inr
  have hLast : (c :: l).getLast? = l.getLast? := by
    rw [List.getLast?_cons, List.getLast?_eq_some_getLast hl]
    rfl
  simp only [dropLineBreak, hEnds, hLast]
  split_ifs with hCrlf
  · obtain ⟨x, rfl⟩ := endsWith_iff.mp hCrlf
    have hDrop (y : Str) : (y ++ ['\r', '\n']).dropLast.dropLast = y := by
      rw [show y ++ ['\r', '\n'] = (y ++ ['\r']) ++ ['\n'] by simp, List.dropLast_concat,
        List.dropLast_concat]
    rw [← List.cons_append, hDrop, hDrop]
  · obtain ⟨init, b, rfl⟩ := (List.eq_nil_or_concat' l).resolve_left hl
    rw [List.getLast?_concat]
    simp only
    split_ifs
    · rw [← List.cons_append, List.dropLast_concat, List.dropLast_concat]
    · rfl

theorem dropLineBreak_of_break {c : Char} (hc : isLineBreak c = true) : dropLineBreak [c] = [] := by
  have hEnds : endsWith ['\r', '\n'] [c] = false := by
    rw [← Bool.not_eq_true, endsWith_iff]
    intro h
    have := h.length_le
    simp at this
  simp [dropLineBreak, hEnds, hc]

theorem dropLineBreak_line {l : Str} (h : ∀ c ∈ l, isLineBreak c = false) :
    dropLineBreak (l ++ ['\n']) = l := by
  induction l with
  | nil => exact dropLineBreak_of_break (by decide)
  | cons c l ih =>
      rw [List.forall_mem_cons] at h
      rw [List.cons_append, dropLineBreak_cons h.1 (by simp), ih h.2]

theorem dropLineBreak_of_free {l : Str} (h : ∀ c ∈ l, isLineBreak c = false) :
    dropLineBreak l = l := by
  induction l with
  | nil => rfl
  | cons c l ih =>
      rw [List.forall_mem_cons] at h
      cases l with
      | nil => simp [dropLineBreak, endsWith, startsWith, dropPrefix?, h.1]
      | cons d l => rw [dropLineBreak_cons h.1 (by simp), ih h.2]

/-- Cutting at every single boundary character finds the same lines, blank ones
apart. -/
theorem splitlines_eq_splitOnP (s : Str) :
    (splitlines s = [] ∧ s.splitOnP isLineBreak = [[]]) ∨
      ∃ l ls ms, splitlines s = l :: ls ∧ s.splitOnP isLineBreak = l :: ms ∧
        (ls.filter fun m => !isBlank m) = ms.filter fun m => !isBlank m := by
  induction s using splitlinesKeep.induct with
  | case1 => exact Or.inl ⟨rfl, rfl⟩
  | case2 rest ih =>
      refine Or.inr ⟨[], splitlines rest, [] :: rest.splitOnP isLineBreak, ?_, ?_, ?_⟩
      · rw [splitlines, splitlinesKeep]
        rfl
      · rw [List.splitOnP_cons_eq_if_modifyHead, if_pos (by decide),
          List.splitOnP_cons_eq_if_modifyHead, if_pos (by decide)]
      · obtain ⟨hNil, hSplit⟩ | ⟨l, ls, ms, hLines, hSplit, hEq⟩ := ih
        · rw [hNil, hSplit]
          rfl
        · rw [hLines, hSplit]
          have hBlank : isBlank [] = true := rfl
          simp only [List.filter_cons, hEq, hBlank, Bool.not_true, Bool.false_eq_true, if_false]
  | case3 c rest hne hb ih =>
      refine Or.inr ⟨[], splitlines rest, rest.splitOnP isLineBreak, ?_, ?_, ?_⟩
      · rw [splitlines, splitlinesKeep, if_pos hb, List.map_cons, dropLineBreak_of_break hb]
        · rfl
        · exact hne
      · rw [List.splitOnP_cons_eq_if_modifyHead, if_pos hb]
      · obtain ⟨hNil, hSplit⟩ | ⟨l, ls, ms, hLines, hSplit, hEq⟩ := ih
        · rw [hNil, hSplit]
          rfl
        · rw [hLines, hSplit]
          rw [List.filter_cons, List.filter_cons, hEq]
  | case4 c rest hne hb hnil ih =>
      obtain rfl := splitlinesKeep_eq_nil.mp hnil
      rw [Bool.not_eq_true] at hb
      refine Or.inr ⟨[c], [], [], ?_, ?_, rfl⟩
      · simp [splitlines, splitlinesKeep, hb, dropLineBreak, endsWith, startsWith, dropPrefix?]
      · rw [List.splitOnP_cons_eq_if_modifyHead, hb]
        rfl
  | case5 c rest hne hb l ls hcons ih =>
      rw [Bool.not_eq_true] at hb
      have hl : l ≠ [] := ne_nil_of_mem_splitlinesKeep (hcons ▸ List.mem_cons_self)
      obtain ⟨hNil, _⟩ | ⟨m, ms, ns, hLines, hSplit, hEq⟩ := ih
      · rw [splitlines, hcons] at hNil
        cases hNil
      · rw [splitlines, hcons, List.map_cons] at hLines
        obtain ⟨rfl, rfl⟩ := List.cons.inj hLines
        refine Or.inr ⟨c :: dropLineBreak l, ls.map dropLineBreak, ns, ?_, ?_, hEq⟩
        · rw [splitlines, splitlinesKeep, if_neg (by simp [hb]), hcons]
          · simp only [List.map_cons, dropLineBreak_cons hb hl]
          · exact hne
        · rw [List.splitOnP_cons_eq_if_modifyHead, hb, hSplit]
          rfl

theorem nonblankLines_eq_splitOnP (s : Str) :
    nonblankLines s = (s.splitOnP isLineBreak).filter fun l => !isBlank l := by
  rw [nonblankLines]
  obtain ⟨hNil, hSplit⟩ | ⟨l, ls, ms, hLines, hSplit, hEq⟩ := splitlines_eq_splitOnP s
  · rw [hNil, hSplit]
    rfl
  · rw [hLines, hSplit, List.filter_cons, List.filter_cons, hEq]

/-- A boundary between two texts keeps their lines apart. -/
theorem nonblankLines_append_cons (s t : Str) {b : Char} (hb : isLineBreak b = true) :
    nonblankLines (s ++ b :: t) = nonblankLines s ++ nonblankLines t := by
  rw [nonblankLines_eq_splitOnP, nonblankLines_eq_splitOnP, nonblankLines_eq_splitOnP,
    List.splitOnP_append_cons s t hb, List.filter_append]

theorem nonblankLines_append_newline (s : Str) :
    nonblankLines (s ++ ['\n']) = nonblankLines s := by
  rw [nonblankLines_append_cons s [] (by decide)]
  exact List.append_nil _

theorem nonblankLines_rstrip_newlines (s : Str) :
    nonblankLines (rstripChars ['\n'] s) = nonblankLines s := by
  induction s using List.reverseRecOn with
  | nil => rfl
  | append_singleton s c ih =>
      by_cases hc : c = '\n'
      · subst hc
        rw [nonblankLines_append_newline, ← ih, rstripChars, List.rdropWhile_concat_pos _ _ _ (by simp)]
        rfl
      · rw [rstripChars, List.rdropWhile_concat_neg]
        simpa using hc

/-- The first lines of a text are the lines of its beginning. -/
theorem splitlinesKeep_flatten_take (s : Str) (n : Nat) :
    splitlinesKeep ((splitlinesKeep s).take n).flatten = (splitlinesKeep s).take n := by
  induction s using splitlinesKeep.induct generalizing n with
  | case1 => simp [splitlinesKeep]
  | case2 rest ih =>
      rw [splitlinesKeep]
      cases n with
      | zero => rfl
      | succ n =>
          rw [List.take_succ_cons, List.flatten_cons]
          have hPair (t : Str) : splitlinesKeep (['\r', '\n'] ++ t) = ['\r', '\n'] :: splitlinesKeep t := by
            simp [splitlinesKeep]
          rw [hPair, ih]
  | case3 c rest hne hb ih =>
      rw [splitlinesKeep, if_pos hb]
      · cases n with
        | zero => rfl
        | succ n =>
            rw [List.take_succ_cons, List.flatten_cons, List.singleton_append, splitlinesKeep,
              if_pos hb, ih]
            rintro t rfl hEq
            -- the rest would begin with a newline too
            obtain ⟨t', hRest⟩ : ∃ t', rest = '\n' :: t ++ t' := by
              refine ⟨((splitlinesKeep rest).drop n).flatten, ?_⟩
              rw [← hEq, ← List.flatten_append, List.take_append_drop, flatten_splitlinesKeep]
            exact hne (t ++ t') rfl hRest
      · exact hne
  | case4 c rest hne hb hnil ih =>
      rw [splitlinesKeep, if_neg hb, hnil]
      · cases n with
        | zero => rfl
        | succ n =>
            have hCr : c ≠ '\r' := by
              rintro rfl
              exact hb (by decide)
            simp [splitlinesKeep_cons _ hCr, hb, splitlinesKeep]
      · exact hne
  | case5 c rest hne hb l ls hcons ih =>
      rw [splitlinesKeep, if_neg hb, hcons]
      · cases n with
        | zero => rfl
        | succ n =>
            have hCr : c ≠ '\r' := by
              rintro rfl
              exact hb (by decide)
            have ih := ih (n + 1)
            rw [hcons, List.take_succ_cons, List.flatten_cons] at ih
            rw [List.take_succ_cons, List.flatten_cons, List.cons_append, splitlinesKeep_cons _ hCr,
              if_neg hb, ih]
      · exact hne

theorem nonblankLines_take (s : Str) (n : Nat) :
    nonblankLines ((splitlinesKeep s).take n).flatten =
      ((splitlines s).take n).filter fun l => !isBlank l := by
  rw [nonblankLines, splitlines, splitlinesKeep_flatten_take, List.map_take]
  rfl

end PyText
