import MatrycaPlumber.Utils.JsonRepairValid

/-! The object that is cut out of a longer text, and the brackets that are added to a text
which was cut off. -/
namespace Plumber.JsonRepair

open PyText PyJson

section Statement

/-- The mode behind a text. -/
def endMode : Mode → Str → Mode
  | mode, [] => mode
  | .inside true, _ :: s => endMode (.inside false) s
  | .inside false, c :: s => endMode (if c = '"' then .out else .inside (c = '\\')) s
  | .out, c :: s => endMode (if c = '"' then .inside false else .out) s

/-- The brackets of a text outside its string literals. -/
def outerBrackets : Mode → Str → Str
  | _, [] => []
  | .inside true, _ :: s => outerBrackets (.inside false) s
  | .inside false, c :: s => outerBrackets (if c = '"' then .out else .inside (c = '\\')) s
  | .out, c :: s =>
      if c = '"' then outerBrackets (.inside false) s
      else if isBracket c then c :: outerBrackets .out s else outerBrackets .out s

/-- The closing bracket of each open one. -/
def closers (stack : List Char) : Str := stack.map fun opener => if opener = '{' then '}' else ']'

/-- The text of an object, from its opening to its closing brace. -/
structure IsObjectText (s : Str) : Prop where
  object : ∃ members, loads s = some (.obj members)
  opens : s.head? = some '{'
  closes : s.getLast? = some '}'

end Statement

section Brackets

variable {mode : Mode} {s : Str}

theorem endMode_append (mode : Mode) (a b : Str) :
    endMode mode (a ++ b) = endMode (endMode mode a) b := by
  fun_induction endMode mode a with
  | case1 => rfl
  | case2 _ _ ih => exact ih
  | case3 _ _ ih => exact ih
  | case4 _ _ ih => exact ih

theorem outerBrackets_append (mode : Mode) (a b : Str) :
    outerBrackets mode (a ++ b) = outerBrackets mode a ++ outerBrackets (endMode mode a) b := by
  fun_induction endMode mode a with
  | case1 =>
      rw [List.nil_append, outerBrackets, List.nil_append]
  | case2 c a ih => exact ih
  | case3 c a ih => exact ih
  | case4 c a ih =>
      rw [List.cons_append, outerBrackets, outerBrackets]
      split_ifs at ih ⊢
      · exact ih
      · rw [ih, List.cons_append]
      · exact ih

/-- The brackets that a text holds are collected by the loop over its outside. -/
theorem foldOutside_collect (x : Str) (mode : Mode) (s : Str) :
    foldOutside (fun x c => some (if isBracket c then x ++ [c] else x)) x mode s =
      some (x ++ outerBrackets mode s, endMode mode s) := by
  fun_induction endMode mode s generalizing x with
  | case1 =>
      rw [foldOutside, outerBrackets, List.append_nil]
  | case2 c a ih => exact ih x
  | case3 c a ih =>
      rw [foldOutside_inside_cons, outerBrackets]
      split_ifs at ih ⊢
      · exact ih x
      · exact ih x
  | case4 c a ih =>
      rw [foldOutside_out_cons, outerBrackets]
      split_ifs at ih ⊢ with hQuote hBracket
      · exact ih x
      · rw [Option.bind_some, ih, List.append_assoc, List.singleton_append]
      · exact ih x

theorem openStack_eq_foldl (stack : List Char) (mode : Mode) (s : Str) :
    openStack stack mode s = (outerBrackets mode s).foldl stackStep stack := by
  fun_induction endMode mode s generalizing stack with
  | case1 mode => rw [openStack, outerBrackets, List.foldl_nil]
  | case2 c a ih => exact ih stack
  | case3 c a ih => exact ih stack
  | case4 c a ih =>
      rw [openStack, outerBrackets]
      split_ifs at ih ⊢ with hQuote hBracket
      · exact ih stack
      · exact ih (stackStep stack c)
      · have hOther : stackStep stack c = stack := by
          simp only [isBracket, Bool.or_eq_true, decide_eq_true_eq, not_or] at hBracket
          rw [stackStep, if_neg (by tauto), if_neg (by tauto)]
        rw [hOther]
        exact ih stack

/-- Outside its literals a valid text has nested brackets, and it ends there. -/
theorem nested_of_loads {t : Str} {v : Json} (h : loads t = some v) :
    Nested (outerBrackets .out t) ∧ endMode .out t = .out := by
  obtain ⟨ps, rfl, hReads⟩ := reads_of_loads h
  have hCollect := foldOutside_collect [] .out (quoted ps)
  rw [foldOutside_quoted (fun x c hc => by rw [hc]; rfl) hReads.cut] at hCollect
  have hAll (x l : Str) : (∀ c ∈ l, isBracket c = true) →
      l.foldlM (fun x c => some (if isBracket c then x ++ [c] else x)) x = some (x ++ l) := by
    induction l generalizing x with
    | nil => simp
    | cons c l ih =>
        intro hl
        rw [List.forall_mem_cons] at hl
        rw [List.foldlM_cons]
        simp [hl.1, ih (x ++ [c]) hl.2]
  have hBrackets : ∀ c ∈ brackets (lexPieces ps), isBracket c = true := by
    intro c hc
    obtain ⟨token, -, hToken⟩ := List.mem_filterMap.mp hc
    cases token <;> cases hToken <;> rfl
  rw [hAll [] _ hBrackets] at hCollect
  obtain ⟨hText, hMode⟩ := Prod.mk.inj (Option.some.inj hCollect)
  rw [List.nil_append, List.nil_append] at hText
  rw [← hText, ← hMode]
  exact ⟨hReads.sound.1.nested, rfl⟩

end Brackets

section Balancing

variable {l x : Str}

theorem closers_append (a b : List Char) : closers (a ++ b) = closers a ++ closers b :=
  List.map_append

theorem stackStep_open {c : Char} (hc : c = '{' ∨ c = '[') (stack : List Char) :
    stackStep stack c = c :: stack :=
  if_pos hc

theorem stackStep_close (c o : Char) (h : c = '}' ∧ o = '{' ∨ c = ']' ∧ o = '[') (stack : List Char) :
    stackStep (o :: stack) c = stack := by
  rcases h with ⟨rfl, rfl⟩ | ⟨rfl, rfl⟩
  · rfl
  · rfl

/-- Closing what a front part of the brackets leaves open makes it nested. -/
def ClosesUp (l : Str) : Prop :=
  ∀ x, x <+: l → ∀ stack, ∃ opened, x.foldl stackStep stack = opened ++ stack ∧
    Nested (x ++ closers opened) ∧ (x = l → opened = [])

theorem ClosesUp.pair {o c : Char} {inner rest : Str} (hOpen : o = '{' ∨ o = '[')
    (hClose : c = '}' ∧ o = '{' ∨ c = ']' ∧ o = '[') (hCloser : closers [o] = [c])
    (hNest : ∀ inner rest, Nested inner → Nested rest → Nested (o :: inner ++ c :: rest))
    (hNested : Nested inner) (hInner : ClosesUp inner) (hRest : ClosesUp rest) :
    ClosesUp (o :: inner ++ c :: rest) := by
  intro x hx stack
  rw [List.cons_append, List.prefix_cons_iff] at hx
  rcases hx with rfl | ⟨tail, rfl, hTail⟩
  · exact ⟨[], rfl, .nil, fun hNil => by cases hNil⟩
  · rw [List.foldl_cons, stackStep_open hOpen]
    by_cases hPast : ∃ y, tail = inner ++ c :: y
    · -- the front part reaches over the pair into what follows it
      obtain ⟨y, rfl⟩ := hPast
      rw [List.prefix_append_right_inj, List.prefix_cons_inj] at hTail
      obtain ⟨opened, hInside, -, hNone⟩ := hInner inner (List.prefix_refl _) (o :: stack)
      obtain ⟨behind, hBehind, hNestedBehind, hWhole⟩ := hRest y hTail stack
      rw [hNone rfl, List.nil_append] at hInside
      refine ⟨behind, ?_, ?_, ?_⟩
      · rw [List.foldl_append, hInside, List.foldl_cons, stackStep_close c o hClose, hBehind]
      · have := hNest inner (y ++ closers behind) hNested hNestedBehind
        simpa using this
      · intro hEq
        apply hWhole
        simpa using hEq
    · have hInside : tail <+: inner := by
        rcases List.prefix_or_prefix_of_prefix hTail (List.prefix_append _ _) with h | ⟨y, rfl⟩
        · exact h
        · rw [List.prefix_append_right_inj, List.prefix_cons_iff] at hTail
          rcases hTail with rfl | ⟨z, rfl, -⟩
          · rw [List.append_nil]
          · exact absurd ⟨z, rfl⟩ hPast
      obtain ⟨opened, hFold, hFront, -⟩ := hInner tail hInside (o :: stack)
      refine ⟨opened ++ [o], ?_, ?_, ?_⟩
      · rw [hFold, List.append_assoc, List.singleton_append]
      · have := hNest (tail ++ closers opened) [] hFront .nil
        rw [closers_append, hCloser]
        simpa using this
      · intro hEq
        exact absurd ⟨rest, (List.cons.inj hEq).2⟩ hPast

theorem closesUp_of_nested (h : Nested l) : ClosesUp l := by
  induction h with
  | nil =>
      intro x hx stack
      obtain rfl := List.prefix_nil.mp hx
      exact ⟨[], rfl, .nil, fun _ => rfl⟩
  | braces hInner _ ihInner ihRest =>
      exact .pair (.inl rfl) (.inl ⟨rfl, rfl⟩) rfl (fun _ _ => .braces) hInner ihInner ihRest
  | brackets hInner _ ihInner ihRest =>
      exact .pair (.inr rfl) (.inr ⟨rfl, rfl⟩) rfl (fun _ _ => .brackets) hInner ihInner ihRest

theorem outerBrackets_closers (stack : List Char) :
    outerBrackets .out (closers stack) = closers stack := by
  induction stack with
  | nil => rfl
  | cons opener stack ih =>
      rw [closers, List.map_cons, ← closers]
      split_ifs
      · rw [outerBrackets, ih]
        rfl
      · rw [outerBrackets, ih]
        rfl

/-- A text that was cut off outside a literal is balanced when its open brackets are closed. -/
theorem nested_balanceJsonBrackets {t p : Str} {v : Json} (h : loads t = some v) (hp : p <+: t)
    (hOutside : endMode .out p = .out) : Nested (outerBrackets .out (balanceJsonBrackets p)) := by
  obtain ⟨rest, rfl⟩ := hp
  have hNested := (nested_of_loads h).1
  rw [outerBrackets_append] at hNested
  obtain ⟨opened, hFold, hFront, -⟩ :=
    closesUp_of_nested hNested (outerBrackets .out p) (List.prefix_append _ _) []
  have hBalanced : balanceJsonBrackets p = p ++ closers (openStack [] .out p) := rfl
  rw [hBalanced, outerBrackets_append, hOutside, outerBrackets_closers, openStack_eq_foldl, hFold,
    List.append_nil]
  exact hFront

end Balancing

section Extraction

variable {s before behind : Str}

theorem prefix_of_append_cons {p x y : Str} {c : Char} (h : p <+: x ++ c :: y) (hc : c ∉ p) :
    p <+: x := by
  by_cases hLength : p.length ≤ x.length
  · exact List.prefix_of_prefix_length_le h (List.prefix_append _ _) hLength
  · have hFront : x ++ [c] <+: x ++ c :: y := ⟨y, by simp⟩
    have hLonger : x ++ [c] <+: p := by
      apply List.prefix_of_prefix_length_le hFront h
      rw [List.length_append, List.length_singleton]
      omega
    exact absurd (hLonger.subset (by simp)) hc

/-- A valid object text is a core in braces with blanks around it. -/
theorem core_of_object {members : List (List ℕ × Json)} (h : loads s = some (.obj members)) :
    ∃ mid blanks blanks', Core .lbrace .rbrace '{' '}' mid ∧
      s = blanks ++ (coreText '{' '}' mid ++ blanks') ∧
      (∀ b ∈ blanks, isJsonSpace b = true) ∧ ∀ b ∈ blanks', isJsonSpace b = true := by
  obtain ⟨ps, rfl, hReads⟩ := reads_of_loads h
  obtain ⟨opener, closer, o, c, mid, blanks, blanks', hCore, hText, hBlanks, hBlanks', hTokens, -⟩ :=
    hReads.core rfl
  obtain ⟨inner, hRooted, -⟩ := hReads.sound.2
  rw [hRooted] at hTokens
  obtain rfl := (List.cons.inj hTokens).1
  cases hCore.kind with
  | braces => exact ⟨mid, blanks, blanks', hCore, hText, hBlanks, hBlanks'⟩

theorem lstrip_append_cons {x y : Str} {c : Char} (hc : isSpace c = false) :
    lstrip (x ++ c :: y) = lstrip x ++ c :: y := by
  by_cases hBlank : lstrip x = []
  · rw [lstrip_append_of_blank hBlank, lstrip_cons_of_not_isSpace hc, hBlank, List.nil_append]
  · rw [lstrip_append_of_ne hBlank]

/-- The slice that is cut out of a text is its first object. -/
theorem extractJsonObject_core {mid : List Str} (h : Core .lbrace .rbrace '{' '}' mid)
    (hBrace : '{' ∉ before) (hFence : ¬"```".toList <+: lstrip before) :
    extractJsonObject (before ++ (coreText '{' '}' mid ++ behind)) = coreText '{' '}' mid := by
  have hStrip : strip (before ++ (coreText '{' '}' mid ++ behind)) =
      lstrip before ++ '{' :: (quoted mid ++ '}' :: rstrip behind) := by
    have hText : before ++ (coreText '{' '}' mid ++ behind) =
        before ++ '{' :: (quoted mid ++ '}' :: behind) := by simp [coreText]
    rw [hText, strip, lstrip_append_cons (by rfl), ← List.cons_append, ← List.append_assoc,
      rstrip_append_cons _ _ (by rfl), List.append_assoc, List.cons_append]
  have hNoFence : stripCodeFence (before ++ (coreText '{' '}' mid ++ behind)) =
      lstrip before ++ '{' :: (quoted mid ++ '}' :: rstrip behind) := by
    rw [stripCodeFence, hStrip]
    apply if_neg
    intro hPrefix
    exact hFence (prefix_of_append_cons hPrefix (by decide))
  have hFind : find? '{' (lstrip before ++ '{' :: (quoted mid ++ '}' :: rstrip behind)) =
      some (lstrip before).length := by
    rw [find?, List.findIdx?_append, List.findIdx?_eq_none_iff.mpr, List.findIdx?_cons]
    · simp
    · intro c hc
      have hMem := (List.dropWhile_suffix _).subset hc
      exact decide_eq_false (fun hEq => hBrace (hEq ▸ hMem))
  have hScan := scanBalancedEnd_of_depth .braces ((lstrip before).length + 1) 1 .out (quoted mid)
    (rstrip behind) (le_refl 1) h.depth
  have hStop : scanBalancedEnd '{' '}' (lstrip before).length 0 .out
      ('{' :: (quoted mid ++ '}' :: rstrip behind)) =
        some ((lstrip before).length + 1 + (quoted mid).length) := by
    rw [scanBalancedEnd, if_neg (by decide), if_pos rfl]
    exact hScan
  unfold extractJsonObject extractJsonSlice
  rw [hNoFence]
  dsimp only
  rw [hFind]
  dsimp only
  rw [List.drop_left, hStop]
  dsimp only
  have hLength : (lstrip before).length + 1 + (quoted mid).length + 1 - (lstrip before).length =
      (coreText '{' '}' mid).length := by
    rw [coreText_length]
    omega
  have hSlice : '{' :: (quoted mid ++ '}' :: rstrip behind) =
      coreText '{' '}' mid ++ rstrip behind := by simp [coreText]
  rw [hLength, hSlice, List.take_left]

/-- What is cut out of a longer text is the object in it, without blanks around it. -/
theorem extractJsonObject_strip {members : List (List ℕ × Json)}
    (h : loads s = some (.obj members)) (hBrace : '{' ∉ before)
    (hFence : ¬"```".toList <:+: before) :
    extractJsonObject (before ++ (s ++ behind)) = strip s := by
  obtain ⟨mid, blanks, blanks', hCore, rfl, hBlanks, hBlanks'⟩ := core_of_object h
  have hText : before ++ (blanks ++ (coreText '{' '}' mid ++ blanks') ++ behind) =
      (before ++ blanks) ++ (coreText '{' '}' mid ++ (blanks' ++ behind)) := by simp
  rw [hCore.strip_eq hBlanks hBlanks', hText]
  apply extractJsonObject_core hCore
  · intro hMem
    rcases List.mem_append.mp hMem with hMem | hMem
    · exact hBrace hMem
    · exact absurd (hBlanks _ hMem) (by decide)
  · intro hPrefix
    apply hFence
    by_cases hBlank : lstrip before = []
    · rw [lstrip_append_of_blank hBlank] at hPrefix
      have hTick := ((List.dropWhile_suffix _).subset (hPrefix.subset (List.mem_cons_self)) :
        '`' ∈ blanks)
      exact absurd (hBlanks _ hTick) (by decide)
    · rw [lstrip_append_of_ne hBlank] at hPrefix
      cases blanks with
      | nil =>
          rw [List.append_nil] at hPrefix
          exact hPrefix.isInfix.trans (List.dropWhile_suffix _).isInfix
      | cons b blanks =>
          have hTick : b ∉ "```".toList := by
            intro hMem
            obtain rfl : b = '`' := by simpa using hMem
            exact absurd (hBlanks '`' List.mem_cons_self) (by decide)
          exact (prefix_of_append_cons hPrefix hTick).isInfix.trans
            (List.dropWhile_suffix _).isInfix

theorem IsObjectText.strip_eq (h : IsObjectText s) : strip s = s := by
  obtain ⟨-, hOpens, hCloses⟩ := h
  cases s with
  | nil => cases hOpens
  | cons c s =>
      obtain rfl := Option.some.inj hOpens
      rw [strip, lstrip_cons_of_not_isSpace (by rfl)]
      obtain ⟨init, hLast⟩ := List.getLast?_eq_some_iff.mp hCloses
      rw [hLast]
      exact List.rdropWhile_concat_neg _ _ _ (by decide)

end Extraction

section Results

/-- The object is cut out of a longer text, and a text that was cut off outside its literals is
balanced again. Blanks around an object are not returned with it. -/
theorem extracts_and_balances :
    (∀ before s behind, IsObjectText s → '{' ∉ before → ¬"```".toList <:+: before →
      extractJsonObject (before ++ (s ++ behind)) = s) ∧
    (∀ before s behind members, loads s = some (.obj members) → '{' ∉ before →
      ¬"```".toList <:+: before → extractJsonObject (before ++ (s ++ behind)) = strip s) ∧
    ∀ t v p, loads t = some v → p <+: t → endMode .out p = .out →
      Nested (outerBrackets .out (balanceJsonBrackets p)) := by
  refine ⟨?_, ?_, ?_⟩
  · intro before s behind h hBrace hFence
    obtain ⟨members, hLoads⟩ := h.object
    rw [extractJsonObject_strip hLoads hBrace hFence, h.strip_eq]
  · intro before s behind members hLoads hBrace hFence
    exact extractJsonObject_strip hLoads hBrace hFence
  · intro t v p hLoads hPrefix hOutside
    exact nested_balanceJsonBrackets hLoads hPrefix hOutside

/-- An object with a brace in one of its literals. -/
def answerText : Str := "\x7b\"a\": [\"\x7d \\\"\", \x7b\x7d]\x7d".toList

theorem extracts_and_balances_answer :
    extractJsonObject ("Here you are: ".toList ++ (answerText ++ " \x7d".toList)) = answerText ∧
      Nested (outerBrackets .out (balanceJsonBrackets (answerText.take 16))) := by
  have hLex : lex answerText =
      some [.lbrace, .str "a".toList, .colon, .lbracket, .str "\x7d \\\"".toList, .comma, .lbrace,
        .rbrace, .rbracket, .rbrace] := by
    decide +kernel
  have hLoads : ∃ members, loads answerText = some (.obj members) := by
    refine ⟨[([97], .arr [.str [125, 32, 34], .obj []])], ?_⟩
    simp only [loads, hLex]
    rfl
  obtain ⟨members, hMembers⟩ := id hLoads
  constructor
  · exact extracts_and_balances.1 _ _ _ ⟨hLoads, by decide, by decide⟩ (by decide) (by decide)
  · exact extracts_and_balances.2.2 answerText _ _ hMembers (List.take_prefix _ _) (by decide)

end Results

end Plumber.JsonRepair
