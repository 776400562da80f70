import MatrycaPlumber.Utils.JsonRepairPasses

/-! What the repair does to a text that is valid JSON already. -/
namespace Plumber.JsonRepair

open PyText PyJson

section Whitespace

variable {c : Char} {least : ℕ} {repl : Str}

theorem charRun_cons (s : Str) : charRun c (c :: s) = charRun c s + 1 := by
  rw [charRun, List.takeWhile_cons_of_pos (by simp)]
  rfl

theorem charRun_of_ne {d : Char} (h : d ≠ c) (s : Str) : charRun c (d :: s) = 0 := by
  rw [charRun, List.takeWhile_cons_of_neg (by simpa using h)]
  rfl

theorem charRun_append {d : Char} (h : d ≠ c) (a b : Str) :
    charRun c (a ++ d :: b) = charRun c a := by
  induction a with
  | nil => exact charRun_of_ne h b
  | cons x a ih =>
      by_cases hX : x = c
      · rw [hX, List.cons_append, charRun_cons, charRun_cons, ih]
      · rw [List.cons_append, charRun_of_ne hX, charRun_of_ne hX]

/-- One place of the text: the run that begins there is replaced if it is long enough. -/
theorem subFrom_charRun (hLeast : 1 ≤ least) (before : Str) (d : Char) (s : Str) :
    subFrom (charRunMatcher c least repl) before 0 (d :: s) =
      if least ≤ charRun c (d :: s) then
        repl ++ subFrom (charRunMatcher c least repl) (d :: before) (charRun c (d :: s) - 1) s
      else d :: subFrom (charRunMatcher c least repl) (d :: before) 0 s := by
  rw [subFrom_cons]
  split_ifs with hRun
  · obtain ⟨len, hLen⟩ : ∃ len, charRun c (d :: s) = len + 1 :=
      Nat.exists_eq_add_of_le' (hLeast.trans hRun)
    have hFind : charRunMatcher c least repl before (d :: s) = some (len + 1, repl) := by
      rw [charRunMatcher, if_pos hRun, hLen]
    rw [hFind, hLen]
    rfl
  · have hFind : charRunMatcher c least repl before (d :: s) = none := if_neg hRun
    rw [hFind]

theorem subFrom_charRun_before (hLeast : 1 ≤ least) (before before' : Str) (skip : ℕ) (s : Str) :
    subFrom (charRunMatcher c least repl) before skip s =
      subFrom (charRunMatcher c least repl) before' skip s := by
  induction s generalizing before before' skip with
  | nil => cases skip <;> rfl
  | cons d s ih =>
      cases skip with
      | succ skip => exact ih _ _ _
      | zero =>
          rw [subFrom_charRun hLeast, subFrom_charRun hLeast]
          split_ifs
          · rw [ih (d :: before) (d :: before')]
          · rw [ih (d :: before) (d :: before')]

/-- A run ends at a character of another kind. -/
theorem subFrom_charRun_append (hLeast : 1 ≤ least) {d : Char} (hD : d ≠ c) (before : Str)
    (skip : ℕ) (a b : Str) (hSkip : skip ≤ charRun c a) :
    subFrom (charRunMatcher c least repl) before skip (a ++ d :: b) =
      subFrom (charRunMatcher c least repl) before skip a ++
        d :: subFrom (charRunMatcher c least repl) [] 0 b := by
  induction a generalizing before skip with
  | nil =>
      obtain rfl : skip = 0 := Nat.le_zero.mp hSkip
      rw [List.nil_append, subFrom_charRun hLeast, charRun_of_ne hD, if_neg (by omega),
        subFrom_charRun_before hLeast (d :: before) []]
      rfl
  | cons x a ih =>
      have hNext : charRun c (x :: a) - 1 ≤ charRun c a := by
        by_cases hX : x = c
        · rw [hX, charRun_cons, Nat.add_sub_cancel]
        · rw [charRun_of_ne hX]
          omega
      rw [List.cons_append]
      cases skip with
      | succ skip =>
          exact ih _ _ (by omega)
      | zero =>
          have hRun : charRun c (x :: (a ++ d :: b)) = charRun c (x :: a) :=
            charRun_append hD (x :: a) b
          rw [subFrom_charRun hLeast, subFrom_charRun hLeast, hRun]
          split_ifs
          · rw [ih _ _ hNext, List.append_assoc]
          · rw [ih _ _ (Nat.zero_le _)]
            rfl

theorem sub_charRun_append (hLeast : 1 ≤ least) {d : Char} (hD : d ≠ c) (a b : Str) :
    sub (charRunMatcher c least repl) (a ++ d :: b) =
      sub (charRunMatcher c least repl) a ++ d :: sub (charRunMatcher c least repl) b :=
  subFrom_charRun_append hLeast hD [] 0 a b (Nat.zero_le _)

theorem lexGap_blanks (hC : isJsonSpace c = true) (word : Str) {blanks : Str} (hBlanks : blanks ≠ [])
    (hAll : ∀ d ∈ blanks, d = c) (s : Str) :
    lexGap word (blanks ++ s) = closeWord word ++ lexGap [] s := by
  induction blanks generalizing word with
  | nil => exact absurd rfl hBlanks
  | cons d blanks ih =>
      rw [List.forall_mem_cons] at hAll
      rw [List.cons_append, lexGap_space _ _ (by rw [hAll.1]; exact hC)]
      cases blanks with
      | nil => rfl
      | cons e blanks => rw [ih [] (List.cons_ne_nil _ _) hAll.2, closeWord_nil, List.nil_append]

/-- Shorter runs of blanks leave the tokens of a gap as they are. -/
theorem lexGap_subFrom_charRun (hC : isJsonSpace c = true) (hRepl : repl ≠ [] ∧ ∀ d ∈ repl, d = c)
    (hLeast : 1 ≤ least) (before gap : Str) :
    (∀ word, lexGap word (subFrom (charRunMatcher c least repl) before 0 gap) = lexGap word gap) ∧
      ∀ skip ≤ charRun c gap,
        lexGap [] (subFrom (charRunMatcher c least repl) before skip gap) = lexGap [] gap := by
  induction gap generalizing before with
  | nil => exact ⟨fun word => rfl, fun skip hSkip => by cases skip <;> rfl⟩
  | cons d gap ih =>
      have hFirst (word : Str) :
          lexGap word (subFrom (charRunMatcher c least repl) before 0 (d :: gap)) =
            lexGap word (d :: gap) := by
        rw [subFrom_charRun hLeast]
        split_ifs with hRun
        · have hD : d = c := by
            by_contra hD
            rw [charRun_of_ne hD] at hRun
            omega
          have hSkip : charRun c (d :: gap) - 1 ≤ charRun c gap := by
            rw [hD, charRun_cons, Nat.add_sub_cancel]
          rw [lexGap_blanks hC word hRepl.1 hRepl.2, (ih _).2 _ hSkip,
            lexGap_space _ _ (by rw [hD]; exact hC)]
        · have hGap := (ih (d :: before)).1
          rcases lexGap_cases d with hBlank | ⟨token, hToken⟩ | ⟨hBlank, hToken⟩
          · rw [lexGap_space _ _ hBlank, lexGap_space _ _ hBlank, hGap]
          · rw [lexGap_punctuation _ _ hToken, lexGap_punctuation _ _ hToken, hGap]
          · rw [lexGap_letter _ _ hBlank hToken, lexGap_letter _ _ hBlank hToken, hGap]
      refine ⟨hFirst, fun skip hSkip => ?_⟩
      cases skip with
      | zero => exact hFirst []
      | succ skip =>
          have hD : d = c := by
            by_contra hD
            rw [charRun_of_ne hD] at hSkip
            omega
          rw [hD, charRun_cons] at hSkip
          rw [lexGap_space [] gap (by rw [hD]; exact hC), closeWord_nil, List.nil_append]
          exact (ih _).2 skip (by omega)

theorem quote_notMem_subFrom_charRun (hC : c ≠ '"') (hRepl : ∀ d ∈ repl, d = c)
    (hLeast : 1 ≤ least) {gap : Str} (hGap : '"' ∉ gap) (before : Str) (skip : ℕ) :
    '"' ∉ subFrom (charRunMatcher c least repl) before skip gap := by
  induction gap generalizing before skip with
  | nil => cases skip <;> exact List.not_mem_nil
  | cons d gap ih =>
      rw [List.mem_cons, not_or] at hGap
      cases skip with
      | succ skip => exact ih hGap.2 _ _
      | zero =>
          rw [subFrom_charRun hLeast]
          split_ifs
          · rw [List.mem_append, not_or]
            exact ⟨fun hMem => hC (hRepl _ hMem).symm, ih hGap.2 _ _⟩
          · rw [List.mem_cons, not_or]
            exact ⟨hGap.1, ih hGap.2 _ _⟩

/-- Shorter runs of blanks outside the literals do not change what a text is read as. -/
theorem wellCut_sub_charRun (hC : isJsonSpace c = true) (hRepl : repl ≠ [] ∧ ∀ d ∈ repl, d = c)
    (hLeast : 1 ≤ least) {ps : List Str} (h : WellCut ps)
    (hRaws : ∀ raw ∈ literals ps, sub (charRunMatcher c least repl) raw = raw) :
    ∃ qs, quoted qs = sub (charRunMatcher c least repl) (quoted ps) ∧ WellCut qs ∧
      lexPieces qs = lexPieces ps ∧ literals qs = literals ps := by
  have hQuote : c ≠ '"' := by
    rintro rfl
    cases hC
  have hLex (gap : Str) : lexGap [] (sub (charRunMatcher c least repl) gap) = lexGap [] gap :=
    (lexGap_subFrom_charRun hC hRepl hLeast [] gap).1 []
  have hGap' {gap : Str} (hGap : '"' ∉ gap) : '"' ∉ sub (charRunMatcher c least repl) gap :=
    quote_notMem_subFrom_charRun hQuote hRepl.2 hLeast hGap [] 0
  induction h with
  | @last gap hGap => exact ⟨[_], rfl, .last (hGap' hGap), hLex gap, rfl⟩
  | @cons gap raw rest hGap hRaw hRest ih =>
      rw [literals, List.forall_mem_cons] at hRaws
      obtain ⟨qs, hText, hCut, hTokens, hLiterals⟩ := ih hRaws.2
      refine ⟨_ :: raw :: qs, ?_, .cons (hGap' hGap) hRaw hCut, ?_, ?_⟩
      · rw [quoted_cons_cons hCut.ne_nil, quoted_cons_cons hRest.ne_nil,
          sub_charRun_append hLeast hQuote.symm, sub_charRun_append hLeast hQuote.symm, hRaws.1,
          hText]
      · rw [lexPieces_cons hCut.ne_nil, lexPieces_cons hRest.ne_nil, hLex, hTokens]
      · rw [literals, literals, hLiterals]

end Whitespace

section Texts

/-- A text that is read as a value, with its literals. -/
def TextOf (v : Json) (raws : List Str) (t : Str) : Prop :=
  ∃ ps, quoted ps = t ∧ Reads ps v ∧ literals ps = raws

/-- A text of an object or of an array without blanks around it. -/
def CoreOf (v : Json) (raws : List Str) (t : Str) : Prop :=
  TextOf v raws t ∧
    ∃ opener closer o c mid, Core opener closer o c mid ∧ t = coreText o c mid

variable {v : Json} {raws : List Str} {t : Str}

theorem TextOf.sub_eq (h : TextOf v raws t) {find : Matcher} (hLocal : Local find)
    (hRaws : ∀ raw ∈ raws, untouched find [] raw [] = true) : sub find t = t := by
  obtain ⟨ps, rfl, hReads, rfl⟩ := h
  exact sub_eq_self (hLocal.untouched_quoted hReads.clean hRaws (by simp))

theorem TextOf.sub_charRun (h : TextOf v raws t) {c : Char} {least : ℕ} {repl : Str}
    (hC : isJsonSpace c = true) (hRepl : repl ≠ [] ∧ ∀ d ∈ repl, d = c) (hLeast : 1 ≤ least)
    (hRaws : ∀ raw ∈ raws, untouched (charRunMatcher c least repl) [] raw [] = true) :
    TextOf v raws (sub (charRunMatcher c least repl) t) := by
  obtain ⟨ps, rfl, hReads, rfl⟩ := h
  obtain ⟨qs, hText, hCut, hTokens, hLiterals⟩ := wellCut_sub_charRun hC hRepl hLeast hReads.cut
    fun raw hRaw => sub_eq_self (hRaws raw hRaw)
  exact ⟨qs, hText, hReads.of_tokens hCut hTokens, hLiterals⟩

theorem TextOf.core (h : TextOf v raws t) (hRoot : v.isContainer = true) :
    CoreOf v raws (strip t) := by
  obtain ⟨ps, rfl, hReads, rfl⟩ := h
  obtain ⟨opener, closer, o, c, mid, before, behind, hCore, hText, hBefore, hBehind, hTokens,
    hLiterals⟩ := hReads.core hRoot
  have hStrip : strip (quoted ps) = coreText o c mid := by
    rw [hText]
    exact hCore.strip_eq hBefore hBehind
  obtain ⟨qs, hQs, hCut, hLex, hLiterals'⟩ := hCore.pieces
  rw [hStrip]
  exact ⟨⟨qs, hQs, hReads.of_tokens hCut (hLex.trans hTokens.symm), hLiterals'.trans hLiterals⟩,
    opener, closer, o, c, mid, hCore, rfl⟩

theorem CoreOf.strip_eq (h : CoreOf v raws t) : strip t = t := by
  obtain ⟨-, opener, closer, o, c, mid, hCore, rfl⟩ := h
  have hNone : ∀ b ∈ ([] : Str), isJsonSpace b = true := by simp
  have hStrip := hCore.strip_eq hNone hNone
  rwa [List.append_nil, List.nil_append] at hStrip

theorem stripCodeFence_strip (t : Str) : stripCodeFence (strip t) = stripCodeFence t := by
  simp only [stripCodeFence, strip_strip]

theorem CoreOf.stripCodeFence_eq (h : CoreOf v raws t) : stripCodeFence t = t := by
  have hStrip := h.strip_eq
  obtain ⟨-, opener, closer, o, c, mid, hCore, rfl⟩ := h
  have hFence : ¬ "```".toList <+: coreText o c mid := by
    intro hPrefix
    rw [coreText, List.cons_append] at hPrefix
    obtain ⟨rest, hText⟩ := hPrefix
    obtain ⟨hHead, -⟩ := List.cons.inj hText
    cases hCore.kind <;> exact absurd hHead (by decide)
  unfold stripCodeFence
  rw [hStrip]
  exact if_neg hFence

end Texts

section Scans

variable {opener closer : Token} {o c : Char} {v : Json} {raws : List Str} {t : Str}

/-- The scan ends at a closing bracket that brings the depth back to zero. -/
theorem scanBalancedEnd_of_depth (hKind : Bracketing opener closer o c) (index depth : ℕ)
    (mode : Mode) (a rest : Str) (hDepth : 1 ≤ depth)
    (h : foldOutside (depthStep o c) depth mode a = some (1, .out)) :
    scanBalancedEnd o c index depth mode (a ++ c :: rest) = some (index + a.length) := by
  have hQuote : c ≠ '"' := quote_notMem_of_punctuation hKind.closer_eq
  induction a generalizing index depth mode with
  | nil =>
      obtain ⟨rfl, rfl⟩ := Prod.mk.inj (Option.some.inj h)
      rw [List.nil_append, scanBalancedEnd, if_neg hQuote, if_neg hKind.ne, if_pos rfl]
      rfl
  | cons x a ih =>
      rw [List.length_cons, ← Nat.add_assoc, Nat.add_right_comm, List.cons_append]
      cases mode with
      | inside escape =>
          cases escape with
          | true => exact ih (index + 1) depth _ hDepth h
          | false =>
              rw [foldOutside_inside_cons] at h
              rw [scanBalancedEnd]
              split_ifs at h ⊢ with hX
              · exact ih (index + 1) depth _ hDepth h
              · exact ih (index + 1) depth _ hDepth h
      | out =>
          rw [foldOutside_out_cons] at h
          rw [scanBalancedEnd]
          split_ifs at h with hX
          · rw [if_pos hX]
            exact ih (index + 1) depth _ hDepth h
          · rw [if_neg hX]
            unfold depthStep at h
            split_ifs at h with hOpen hClose hZero
            · rw [if_pos hOpen]
              exact ih (index + 1) (depth + 1) _ (by omega) h
            · cases h
            · have hCast : (depth : ℤ) - 1 = ((depth - 1 : ℕ) : ℤ) := by omega
              rw [if_neg hOpen, if_pos hClose, if_neg (by omega), hCast]
              exact ih (index + 1) (depth - 1) _ (by omega) h
            · rw [if_neg hOpen, if_neg hClose]
              exact ih (index + 1) depth _ hDepth h

theorem scanBalancedEnd_core {mid : List Str} (h : Core opener closer o c mid) :
    scanBalancedEnd o c 0 0 .out (coreText o c mid) = some (quoted mid).length.succ := by
  have hQuote : o ≠ '"' := quote_notMem_of_punctuation h.kind.opener_eq
  rw [coreText, List.cons_append, scanBalancedEnd, if_neg hQuote, if_pos rfl]
  have hEnd := scanBalancedEnd_of_depth h.kind 1 1 .out (quoted mid) [] (le_refl 1) h.depth
  rw [Nat.succ_eq_one_add]
  exact hEnd

theorem coreText_length (mid : List Str) : (coreText o c mid).length = (quoted mid).length + 2 := by
  rw [coreText, List.length_append, List.length_cons]
  rfl

theorem find_core (mid : List Str) : find? o (coreText o c mid) = some 0 := by
  rw [coreText, List.cons_append, find?, List.findIdx?_cons, if_pos (by simp)]

theorem extractJsonSlice_core {mid : List Str} (h : Core opener closer o c mid)
    (hText : CoreOf v raws (coreText o c mid)) :
    extractJsonSlice o c (coreText o c mid) = coreText o c mid := by
  unfold extractJsonSlice
  simp only [hText.stripCodeFence_eq, find_core, List.drop_zero, scanBalancedEnd_core h]
  apply List.take_of_length_le
  rw [coreText_length]
  omega

/-- The payload of the text of an object or of an array is the text. -/
theorem CoreOf.extractJsonPayloadRegex_eq (h : CoreOf v raws t) {raw : Str}
    (hFence : stripCodeFence raw = t) : extractJsonPayloadRegex raw = t := by
  obtain ⟨-, opener, closer, o, c, mid, hCore, rfl⟩ := id h
  have hSlice := extractJsonSlice_core hCore h
  have hFirst := find_core (o := o) (c := c) mid
  have hHead : (coreText o c mid).head? = some o := rfl
  have hOther {x : Char} (hX : o ≠ x) :
      find? x (coreText o c mid) = none ∨ ∃ k, find? x (coreText o c mid) = some (k + 1) := by
    have hNot : ¬ (decide (o = x)) = true := by simpa using hX
    rw [find?, coreText, List.cons_append, List.findIdx?_cons, if_neg hNot]
    cases List.findIdx? (fun y => decide (y = x)) (quoted mid ++ [c]) with
    | none => exact .inl rfl
    | some k => exact .inr ⟨k, rfl⟩
  unfold extractJsonPayloadRegex
  rw [hFence]
  cases hCore.kind with
  | braces =>
      have hFirstAttempt (attempts : List ((Str → Str) × Char × Option ℕ)) :
          firstPayload (coreText '{' '}' mid) ((extractJsonObject, '{', some 0) :: attempts) =
            coreText '{' '}' mid := by
        rw [firstPayload, if_neg (by simp), extractJsonObject, hSlice]
        exact if_pos hHead
      rcases hOther (x := '[') (by decide) with hNone | ⟨k, hSome⟩
      · simp only [hFirst, hNone]
        exact hFirstAttempt _
      · simp only [hFirst, hSome, Nat.not_lt_zero, decide_false]
        exact hFirstAttempt _
  | brackets =>
      have hFirstAttempt (attempts : List ((Str → Str) × Char × Option ℕ)) :
          firstPayload (coreText '[' ']' mid) ((extractJsonArray, '[', some 0) :: attempts) =
            coreText '[' ']' mid := by
        rw [firstPayload, if_neg (by simp), extractJsonArray, hSlice]
        exact if_pos hHead
      rcases hOther (x := '{') (by decide) with hNone | ⟨k, hSome⟩
      · simp only [hFirst, hNone]
        exact hFirstAttempt _
      · simp only [hFirst, hSome, Nat.succ_pos, decide_true]
        exact hFirstAttempt _

theorem CoreOf.stripTrailingJsonGarbage_eq (h : CoreOf v raws t) :
    stripTrailingJsonGarbage t = t := by
  have hStrip := h.strip_eq
  obtain ⟨-, opener, closer, o, c, mid, hCore, rfl⟩ := h
  have hEnd := scanBalancedEnd_core hCore
  have hTake : (coreText o c mid).take ((quoted mid).length.succ + 1) = coreText o c mid := by
    apply List.take_of_length_le
    rw [coreText_length]
  unfold stripTrailingJsonGarbage
  rw [hStrip]
  cases hCore.kind with
  | braces =>
      show (match scanBalancedEnd '{' '}' 0 0 .out (coreText '{' '}' mid) with | _ => _) = _
      simp only [hEnd]
      exact hTake
  | brackets =>
      show (match scanBalancedEnd '[' ']' 0 0 .out (coreText '[' ']' mid) with | _ => _) = _
      simp only [hEnd]
      exact hTake

theorem openStack_eq_fold (stack : List Char) (mode : Mode) (s : Str) :
    ∃ mode', foldOutside (fun stack c => some (stackStep stack c)) stack mode s =
      some (openStack stack mode s, mode') := by
  induction s generalizing stack mode with
  | nil => cases mode <;> exact ⟨_, rfl⟩
  | cons x s ih =>
      cases mode with
      | inside escape =>
          cases escape with
          | true => exact ih stack _
          | false =>
              rw [foldOutside_inside_cons, openStack]
              split_ifs
              · exact ih stack _
              · exact ih stack _
      | out =>
          rw [foldOutside_out_cons, openStack]
          split_ifs
          · exact ih stack _
          · exact ih _ _

/-- No bracket stays open in the text of an object or of an array. -/
theorem CoreOf.balanceJsonBrackets_eq (h : CoreOf v raws t) : balanceJsonBrackets t = t := by
  obtain ⟨-, opener, closer, o, c, mid, hCore, rfl⟩ := h
  obtain ⟨ps, hText, hCut, hLex, -⟩ := hCore.pieces
  have hNested : Nested (brackets (lexPieces ps)) := by
    rw [hLex, brackets_append]
    cases hCore.kind with
    | braces => exact .braces hCore.nested .nil
    | brackets => exact .brackets hCore.nested .nil
  have hOther (stack : List Char) (x : Char) (hX : isBracket x = false) :
      some (stackStep stack x) = some stack := by
    simp only [isBracket, Bool.or_eq_false_iff, decide_eq_false_iff_not] at hX
    rw [stackStep, if_neg (by tauto), if_neg (by tauto)]
  have hFold : foldOutside (fun stack c => some (stackStep stack c)) [] .out (quoted ps) =
      some ([], .out) := by
    rw [foldOutside_quoted hOther hCut, hNested.foldlM (P := fun _ => True) ?_ ?_ trivial]
    · rfl
    · exact fun stack _ => ⟨'{' :: stack, trivial, rfl, rfl⟩
    · exact fun stack _ => ⟨'[' :: stack, trivial, rfl, rfl⟩
  obtain ⟨mode, hStack⟩ := openStack_eq_fold [] .out (quoted ps)
  rw [hFold] at hStack
  obtain ⟨hNil, -⟩ := Prod.mk.inj (Option.some.inj hStack)
  rw [balanceJsonBrackets, ← hText, ← hNil, List.map_nil, List.append_nil]

end Scans

section Repair

/-- The patterns that can match within a literal. -/
def literalPatterns : List Matcher :=
  [literalNewlineRun, literalTabRun, literalQuoteRun, realNewlineRun, realSpaceRun, realTabRun,
    leakedNewline, leakedKey]

/-- No pattern matches in a literal, but for matches that are replaced by themselves. -/
def spared (raw : Str) : Bool := literalPatterns.all fun find => untouched find [] raw []

/-- The literals of a text as they are written between their quotes. -/
def stringLiterals (s : Str) : List Str := ((pieces .out s).map literals).getD []

theorem CoreOf.stripLeading_eq {v : Json} {raws : List Str} {t : Str} (h : CoreOf v raws t) :
    stripLeadingDegenerateLlmRuns t = t := by
  obtain ⟨-, opener, closer, o, c, mid, hCore, rfl⟩ := h
  rw [coreText, List.cons_append]
  cases hCore.kind with
  | braces => rfl
  | brackets => rfl

/-- Valid JSON whose literals are spared is read as its own value. -/
theorem loadsRepairedJson_of_spared (s : Str) (v : Json) (h : loads s = some v)
    (hRoot : v.isContainer = true) (hSpared : ∀ raw ∈ stringLiterals s, spared raw = true) :
    loadsRepairedJson s = some v := by
  obtain ⟨ps, hText, hReads⟩ := reads_of_loads h
  have hLiterals : stringLiterals s = literals ps := by
    rw [stringLiterals, ← hText, pieces_quoted hReads.cut]
    rfl
  have hPattern (find : Matcher) (hFind : find ∈ literalPatterns) (raw : Str)
      (hRaw : raw ∈ literals ps) : untouched find [] raw [] = true := by
    rw [hLiterals] at hSpared
    exact List.all_eq_true.mp (hSpared raw hRaw) find hFind
  have hStart : TextOf v (literals ps) s := ⟨ps, hText, hReads, rfl⟩
  have hCore := hStart.core hRoot
  -- the passes up to the extraction
  have hRuns {t : Str} (hT : TextOf v (literals ps) t) : collapseLiteralRuns t = t := by
    rw [collapseLiteralRuns, hT.sub_eq literalNewlineRun_local (hPattern _ (by simp [literalPatterns])),
      hT.sub_eq literalTabRun_local (hPattern _ (by simp [literalPatterns])),
      hT.sub_eq literalQuoteRun_local (hPattern _ (by simp [literalPatterns]))]
  have hBlanks : TextOf v (literals ps) (collapseWhitespaceRuns (strip s)) := by
    apply TextOf.sub_charRun _ rfl (by simp) (by omega) (hPattern _ (by simp [literalPatterns, realTabRun]))
    apply TextOf.sub_charRun _ rfl (by simp) (by omega) (hPattern _ (by simp [literalPatterns, realSpaceRun]))
    exact hCore.1.sub_charRun rfl (by simp) (by omega) (hPattern _ (by simp [literalPatterns, realNewlineRun]))
  have hQuotes (raw : Str) (hRaw : raw ∈ literals ps) :
      untouched doubleEscapedQuote [] raw [] = true :=
    doubleEscapedQuote_untouched (hReads.cut.literal_of_mem raw hRaw)
  -- the passes behind it
  have hPayload : CoreOf v (literals ps) (strip (collapseWhitespaceRuns (strip s))) :=
    hBlanks.core hRoot
  have hExtract : extractJsonPayloadRegex (collapseWhitespaceRuns (strip s)) =
      strip (collapseWhitespaceRuns (strip s)) := by
    apply hPayload.extractJsonPayloadRegex_eq
    rw [← stripCodeFence_strip]
    exact hPayload.stripCodeFence_eq
  have hRepaired : repairLlmJson s = strip (collapseWhitespaceRuns (strip s)) := by
    simp only [repairLlmJson, collapseAllDegenerateLlmRuns, fixLeakedLiteralNewlineBeforeKeys,
      fixDoubleEscapedQuoteRuns]
    rw [hCore.stripCodeFence_eq, hCore.stripLeading_eq, hRuns hCore.1, hExtract, hRuns hPayload.1,
      hPayload.1.sub_eq leakedNewline_local (hPattern _ (by simp [literalPatterns])),
      hPayload.1.sub_eq doubleEscapedQuote_local hQuotes,
      hPayload.1.sub_eq leakedKey_local (hPattern _ (by simp [literalPatterns])),
      hPayload.stripTrailingJsonGarbage_eq, hPayload.balanceJsonBrackets_eq]
  obtain ⟨qs, hQs, hReads', -⟩ := hPayload.1
  have hLoads : loads (repairLlmJson s) = some v := by
    rw [hRepaired, ← hQs]
    exact hReads'.loads
  simp only [loadsRepairedJson, hLoads]

/-- An object whose text is a row of blanks. -/
def blanksDocument : Str := "\x7b\"a\":\"".toList ++ List.replicate 48 ' ' ++ "\"\x7d".toList

def collapsedDocument : Str := "\x7b\"a\":\" \"\x7d".toList

/-- A row of blanks in a valid document is read as one blank. -/
theorem blanksDocument_changes :
    ¬ ∀ s v, loads s = some v → v.isContainer = true → loadsRepairedJson s = some v := by
  have hLex : lex blanksDocument =
      some [.lbrace, .str "a".toList, .colon, .str (List.replicate 48 ' '), .rbrace] := by
    decide +kernel
  have hLoads : loads blanksDocument = some (.obj [([97], .str (List.replicate 48 32))]) := by
    simp only [loads, hLex]
    rfl
  have hStart : stripLeadingDegenerateLlmRuns (stripCodeFence (strip blanksDocument)) =
      blanksDocument := by
    have hStrip : strip blanksDocument = blanksDocument := by decide +kernel
    have hFence : stripCodeFence blanksDocument = blanksDocument := by decide +kernel
    rw [hStrip, hFence]
    rfl
  have hCollapse : collapseAllDegenerateLlmRuns blanksDocument = collapsedDocument := by
    have hRuns : collapseLiteralRuns blanksDocument = blanksDocument := by decide +kernel
    rw [collapseAllDegenerateLlmRuns, hRuns]
    decide +kernel
  have hExtract : extractJsonPayloadRegex collapsedDocument = collapsedDocument := by
    decide +kernel
  have hRuns : collapseLiteralRuns collapsedDocument = collapsedDocument := by decide +kernel
  have hNewline : fixLeakedLiteralNewlineBeforeKeys collapsedDocument = collapsedDocument := by
    decide +kernel
  have hQuotes : fixDoubleEscapedQuoteRuns collapsedDocument = collapsedDocument := by
    decide +kernel
  have hTrail : stripTrailingJsonGarbage collapsedDocument = collapsedDocument := by
    decide +kernel
  have hBalance : balanceJsonBrackets collapsedDocument = collapsedDocument := by decide +kernel
  have hRepaired : repairLlmJson blanksDocument = collapsedDocument := by
    simp only [repairLlmJson, hStart, hCollapse, hExtract, hRuns, hNewline, hQuotes, hTrail,
      hBalance]
  have hShort : lex collapsedDocument =
      some [.lbrace, .str "a".toList, .colon, .str [' '], .rbrace] := by
    decide +kernel
  have hResult : loadsRepairedJson blanksDocument = some (.obj [([97], .str [32])]) := by
    have hLoaded : loads collapsedDocument = some (.obj [([97], .str [32])]) := by
      simp only [loads, hShort]
      rfl
    simp only [loadsRepairedJson, hRepaired, hLoaded]
  intro h
  have hSame := h blanksDocument _ hLoads rfl
  rw [hResult] at hSame
  cases hSame

/-- Fences, brackets and an escaped newline within a literal. -/
def fencedDocument : Str := "[\x7b\"a\": \"```json \x7d x\\n\"\x7d, 1]".toList

theorem loadsRepairedJson_of_spared_fenced :
    loadsRepairedJson fencedDocument =
      some (.arr [.obj [([97], .str ("```json \x7d x\n".toList.map Char.toNat))],
        .number "1".toList]) := by
  have hLex : lex fencedDocument =
      some [.lbracket, .lbrace, .str "a".toList, .colon, .str "```json \x7d x\\n".toList, .rbrace,
        .comma, .word "1".toList, .rbracket] := by
    decide +kernel
  apply loadsRepairedJson_of_spared fencedDocument
  · simp only [loads, hLex]
    rfl
  · rfl
  · decide +kernel

end Repair

end Plumber.JsonRepair
