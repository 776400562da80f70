import MatrycaPlumber.Text.JsonText

/-! Texts that hold one JSON object or array: the scan that keeps to the outside of the
literals, and the text between the outermost brackets. -/
namespace PyJson

open PyText

section Outside

variable {σ : Type} (f : σ → Char → Option σ)

/-- A loop over the characters outside the literals, which may stop early. -/
def foldOutside : σ → Mode → Str → Option (σ × Mode)
  | x, mode, [] => some (x, mode)
  | x, .inside true, _ :: s => foldOutside x (.inside false) s
  | x, .inside false, c :: s =>
      if c = '"' then foldOutside x .out s else foldOutside x (.inside (c = '\\')) s
  | x, .out, c :: s =>
      if c = '"' then foldOutside x (.inside false) s
      else (f x c).bind fun y => foldOutside y .out s

theorem foldOutside_out_cons (x : σ) (c : Char) (s : Str) :
    foldOutside f x .out (c :: s) =
      if c = '"' then foldOutside f x (.inside false) s
      else (f x c).bind fun y => foldOutside f y .out s :=
  rfl

theorem foldOutside_inside_cons (x : σ) (c : Char) (s : Str) :
    foldOutside f x (.inside false) (c :: s) =
      if c = '"' then foldOutside f x .out s else foldOutside f x (.inside (c = '\\')) s :=
  rfl

theorem foldOutside_append (x : σ) (mode : Mode) (a b : Str) :
    foldOutside f x mode (a ++ b) =
      (foldOutside f x mode a).bind fun state => foldOutside f state.1 state.2 b := by
  induction a generalizing x mode with
  | nil => cases b <;> cases mode <;> simp [foldOutside]
  | cons c a ih =>
      rw [List.cons_append]
      cases mode with
      | out =>
          rw [foldOutside_out_cons, foldOutside_out_cons]
          split_ifs
          · exact ih _ _
          · cases f x c with
            | none => rfl
            | some y => exact ih y _
      | inside escape =>
          cases escape with
          | true => exact ih _ _
          | false =>
              rw [foldOutside_inside_cons, foldOutside_inside_cons]
              split_ifs
              · exact ih _ _
              · exact ih _ _

variable {f}

theorem foldOutside_inside {escape : Bool} {raw : Str} (h : escapes escape raw = some false)
    (x : σ) (s : Str) :
    foldOutside f x (.inside escape) (raw ++ '"' :: s) = foldOutside f x .out s := by
  induction raw generalizing escape with
  | nil =>
      obtain rfl := Option.some.inj h
      rw [List.nil_append, foldOutside_inside_cons, if_pos rfl]
  | cons c raw ih =>
      rw [List.cons_append]
      cases escape with
      | true => exact ih h
      | false =>
          rw [escapes] at h
          split_ifs at h with hQuote
          rw [foldOutside_inside_cons, if_neg hQuote]
          exact ih h

theorem foldOutside_gap {gap : Str} (h : '"' ∉ gap) (x : σ) (s : Str) :
    foldOutside f x .out (gap ++ s) =
      (gap.foldlM f x).bind fun y => foldOutside f y .out s := by
  induction gap generalizing x with
  | nil => rfl
  | cons c gap ih =>
      rw [List.mem_cons, not_or] at h
      rw [List.cons_append, foldOutside_out_cons, if_neg (Ne.symm h.1), List.foldlM_cons]
      cases f x c with
      | none => rfl
      | some y => exact ih h.2 y

def isBracket (c : Char) : Bool := c = '{' || c = '}' || c = '[' || c = ']'

theorem bracket_punctuation {c : Char} {token : Token} (h : punctuation? c = some token) :
    bracket? token = if isBracket c then some c else none := by
  unfold punctuation? at h
  split at h <;> cases h <;> rfl

theorem isBracket_of_punctuation_none {c : Char} (h : punctuation? c = none) :
    isBracket c = false := by
  unfold punctuation? at h
  split at h
  case h_7 => simp_all [isBracket]
  all_goals cases h

theorem brackets_closeWord (word : Str) : brackets (closeWord word) = [] := by
  rw [closeWord]
  split_ifs <;> rfl

theorem brackets_append (a b : List Token) : brackets (a ++ b) = brackets a ++ brackets b :=
  List.filterMap_append

/-- The brackets among the tokens of a piece are those among its characters. -/
theorem brackets_lexGap (word gap : Str) : brackets (lexGap word gap) = gap.filter isBracket := by
  induction gap generalizing word with
  | nil => exact brackets_closeWord word
  | cons c gap ih =>
      rcases lexGap_cases c with hBlank | ⟨token, hToken⟩ | ⟨hBlank, hToken⟩
      · have hNot : isBracket c = false := by
          unfold isJsonSpace at hBlank
          simp only [Bool.or_eq_true, decide_eq_true_eq] at hBlank
          rcases hBlank with ((rfl | rfl) | rfl) | rfl <;> rfl
        rw [lexGap_space _ _ hBlank, brackets_append, brackets_closeWord, ih,
          List.filter_cons_of_neg (by rw [hNot]; exact Bool.false_ne_true)]
        rfl
      · rw [lexGap_punctuation _ _ hToken, brackets_append, brackets_closeWord, List.nil_append,
          brackets, List.filterMap_cons, bracket_punctuation hToken]
        cases hC : isBracket c with
        | true =>
            rw [List.filter_cons_of_pos hC, ← ih []]
            rfl
        | false =>
            rw [List.filter_cons_of_neg (by rw [hC]; exact Bool.false_ne_true), ← ih []]
            rfl
      · rw [lexGap_letter _ _ hBlank hToken, ih,
          List.filter_cons_of_neg (by
            rw [isBracket_of_punctuation_none hToken]
            exact Bool.false_ne_true)]

theorem foldlM_filter (hf : ∀ x c, isBracket c = false → f x c = some x) (x : σ) (s : Str) :
    (s.filter isBracket).foldlM f x = s.foldlM f x := by
  induction s generalizing x with
  | nil => rfl
  | cons c s ih =>
      cases hC : isBracket c with
      | true =>
          rw [List.filter_cons_of_pos hC, List.foldlM_cons, List.foldlM_cons]
          cases f x c with
          | none => rfl
          | some y => exact ih y
      | false =>
          rw [List.filter_cons_of_neg (by rw [hC]; exact Bool.false_ne_true), List.foldlM_cons,
            hf x c hC]
          exact ih x

/-- A loop that heeds the brackets only sees those of the tokens. -/
theorem foldOutside_quoted (hf : ∀ x c, isBracket c = false → f x c = some x) {ps : List Str}
    (h : WellCut ps) (x : σ) :
    foldOutside f x .out (quoted ps) =
      ((brackets (lexPieces ps)).foldlM f x).map fun y => (y, Mode.out) := by
  induction h generalizing x with
  | @last gap hGap =>
      have hText := foldOutside_gap (f := f) hGap x []
      rw [List.append_nil] at hText
      rw [quoted, join, hText, lexPieces, brackets_lexGap, foldlM_filter hf]
      cases gap.foldlM f x <;> rfl
  | @cons gap raw rest hGap hRaw hRest ih =>
      rw [quoted_cons_cons hRest.ne_nil, foldOutside_gap hGap, lexPieces_cons hRest.ne_nil,
        brackets_append, brackets_lexGap, List.foldlM_append, foldlM_filter hf]
      cases gap.foldlM f x with
      | none => rfl
      | some y =>
          show foldOutside f y .out ('"' :: (raw ++ '"' :: quoted rest)) = _
          rw [foldOutside_out_cons, if_pos rfl, foldOutside_inside hRaw, ih]
          rfl

/-- Nested brackets leave a state as it was, when each pair does. -/
theorem Nested.foldlM {P : σ → Prop}
    (hBraces : ∀ x, P x → ∃ y, P y ∧ f x '{' = some y ∧ f y '}' = some x)
    (hBrackets : ∀ x, P x → ∃ y, P y ∧ f x '[' = some y ∧ f y ']' = some x)
    {l : Str} (h : Nested l) {x : σ} (hx : P x) : l.foldlM f x = some x := by
  induction h generalizing x with
  | nil => rfl
  | braces _ _ ihInner ihRest =>
      obtain ⟨y, hy, hOpen, hClose⟩ := hBraces x hx
      rw [List.cons_append, List.foldlM_cons, hOpen]
      show List.foldlM f y (_ ++ _) = _
      rw [List.foldlM_append, ihInner hy]
      show List.foldlM f y _ = _
      rw [List.foldlM_cons, hClose]
      exact ihRest hx
  | brackets _ _ ihInner ihRest =>
      obtain ⟨y, hy, hOpen, hClose⟩ := hBrackets x hx
      rw [List.cons_append, List.foldlM_cons, hOpen]
      show List.foldlM f y (_ ++ _) = _
      rw [List.foldlM_append, ihInner hy]
      show List.foldlM f y _ = _
      rw [List.foldlM_cons, hClose]
      exact ihRest hx

end Outside

section Depth

/-- The depth in brackets of one kind, which must not come back to zero. -/
def depthStep (o c : Char) (depth : ℕ) (x : Char) : Option ℕ :=
  if x = o then some (depth + 1)
  else if x = c then (if depth ≤ 1 then none else some (depth - 1))
  else some depth

variable {opener closer : Token} {o c : Char}

theorem Bracketing.opener_eq (h : Bracketing opener closer o c) : punctuation? o = some opener := by
  cases h <;> rfl

theorem Bracketing.closer_eq (h : Bracketing opener closer o c) : punctuation? c = some closer := by
  cases h <;> rfl

theorem Bracketing.isBracket_opener (h : Bracketing opener closer o c) : isBracket o = true := by
  cases h <;> rfl

theorem Bracketing.isBracket_closer (h : Bracketing opener closer o c) : isBracket c = true := by
  cases h <;> rfl

theorem Bracketing.ne (h : Bracketing opener closer o c) : c ≠ o := by
  cases h <;> decide

/-- The characters of the two brackets are known from their tokens. -/
theorem Bracketing.char_opener (h : Bracketing opener closer o c) {x : Char}
    (hX : punctuation? x = some opener) : x = o := by
  unfold punctuation? at hX
  cases h <;> split at hX <;> first | rfl | cases hX

theorem Bracketing.char_closer (h : Bracketing opener closer o c) {x : Char}
    (hX : punctuation? x = some closer) : x = c := by
  unfold punctuation? at hX
  cases h <;> split at hX <;> first | rfl | cases hX

theorem depthStep_other (h : Bracketing opener closer o c) (depth : ℕ) (x : Char)
    (hX : isBracket x = false) : depthStep o c depth x = some depth := by
  have hOpener : x ≠ o := by
    rintro rfl
    rw [h.isBracket_opener] at hX
    cases hX
  have hCloser : x ≠ c := by
    rintro rfl
    rw [h.isBracket_closer] at hX
    cases hX
  rw [depthStep, if_neg hOpener, if_neg hCloser]

/-- Nested brackets leave the depth as it was. -/
theorem Nested.depth {l : Str} (hNested : Nested l) (h : Bracketing opener closer o c) :
    l.foldlM (depthStep o c) 1 = some 1 := by
  have hPair (depth : ℕ) (hDepth : 1 ≤ depth) : depthStep o c (depth + 1) c = some depth := by
    rw [depthStep, if_neg h.ne, if_pos rfl, if_neg (by omega), Nat.add_sub_cancel]
  have hOpen (depth : ℕ) : depthStep o c depth o = some (depth + 1) := if_pos rfl
  apply hNested.foldlM (P := fun depth => 1 ≤ depth) ?_ ?_ (le_refl 1)
  · intro depth hDepth
    cases h with
    | braces => exact ⟨depth + 1, by omega, hOpen depth, hPair depth hDepth⟩
    | brackets => exact ⟨depth, hDepth, rfl, rfl⟩
  · intro depth hDepth
    cases h with
    | braces => exact ⟨depth, hDepth, rfl, rfl⟩
    | brackets => exact ⟨depth + 1, by omega, hOpen depth, hPair depth hDepth⟩

end Depth

section Documents

def Json.isContainer : Json → Bool
  | .arr _ => true
  | .obj _ => true
  | _ => false

/-- A cut text that is read as a value. -/
structure Reads (ps : List Str) (v : Json) : Prop where
  cut : WellCut ps
  parses : value ((lexPieces ps).length + 1) (lexPieces ps) = some (v, [])

theorem reads_of_loads {t : Str} {v : Json} (h : loads t = some v) :
    ∃ ps, quoted ps = t ∧ Reads ps v := by
  rw [loads, lex] at h
  cases hPieces : pieces .out t with
  | none =>
      rw [hPieces] at h
      cases h
  | some ps =>
      rw [hPieces] at h
      obtain ⟨hCut, hText⟩ := (wellCut_of_pieces t).1 ps hPieces
      refine ⟨ps, hText, hCut, ?_⟩
      simp only [Option.map_some] at h
      split at h
      · next hValue =>
          obtain rfl := Option.some.inj h
          exact hValue
      · cases h

theorem Reads.loads {ps : List Str} {v : Json} (h : Reads ps v) : loads (quoted ps) = some v := by
  simp only [PyJson.loads, lex_quoted h.cut, h.parses]

theorem Reads.of_tokens {ps qs : List Str} {v : Json} (h : Reads ps v) (hCut : WellCut qs)
    (hTokens : lexPieces qs = lexPieces ps) : Reads qs v :=
  ⟨hCut, by rw [hTokens]; exact h.parses⟩

theorem Reads.sound {ps : List Str} {v : Json} (h : Reads ps v) :
    Sound (lexPieces ps) ∧ Rooted v (lexPieces ps) := by
  obtain ⟨used, hUsed, hSound, hRooted⟩ := (parsesSound _).value _ _ _ h.parses
  rw [List.append_nil] at hUsed
  rw [hUsed]
  exact ⟨hSound, hRooted⟩

/-- The text between the outermost brackets of an object or an array, cut at its literals. -/
structure Core (opener closer : Token) (o c : Char) (mid : List Str) : Prop where
  kind : Bracketing opener closer o c
  cut : WellCut mid
  nested : Nested (brackets (lexPieces mid))

def coreText (o c : Char) (mid : List Str) : Str := o :: quoted mid ++ [c]

/-- An object or an array stands between two brackets, with blanks around them. -/
theorem Reads.core {ps : List Str} {v : Json} (h : Reads ps v) (hRoot : v.isContainer = true) :
    ∃ opener closer o c mid before behind, Core opener closer o c mid ∧
      quoted ps = before ++ (coreText o c mid ++ behind) ∧
      (∀ b ∈ before, isJsonSpace b = true) ∧ (∀ b ∈ behind, isJsonSpace b = true) ∧
      lexPieces ps = opener :: lexPieces mid ++ [closer] ∧ literals mid = literals ps := by
  have hBetween {opener closer : Token} {o c : Char} {inner : List Token}
      (hKind : Bracketing opener closer o c)
      (hTokens : lexPieces ps = opener :: inner ++ [closer]) (hInner : inner = [] ∨ Sound inner) :
      ∃ opener closer o c mid before behind, Core opener closer o c mid ∧
        quoted ps = before ++ (coreText o c mid ++ behind) ∧
        (∀ b ∈ before, isJsonSpace b = true) ∧ (∀ b ∈ behind, isJsonSpace b = true) ∧
        lexPieces ps = opener :: lexPieces mid ++ [closer] ∧ literals mid = literals ps := by
    have hStr : opener.isStr = false ∧ closer.isStr = false := by cases hKind <;> exact ⟨rfl, rfl⟩
    have hWord (w : Str) : opener ≠ .word w ∧ closer ≠ .word w := by
      cases hKind <;> exact ⟨Token.noConfusion, Token.noConfusion⟩
    obtain ⟨before, o', qs, hFirst, hBefore, hO, hCut, hLex, hLiterals⟩ :=
      h.cut.first hTokens hStr.1 fun w => (hWord w).1
    obtain ⟨mid, c', behind, hLast, hBehind, hC, hCutMid, hLexMid, hLiteralsMid⟩ :=
      hCut.lastToken hLex hStr.2 fun w => (hWord w).2
    obtain rfl := hKind.char_opener hO
    obtain rfl := hKind.char_closer hC
    refine ⟨opener, closer, o', c', mid, before, behind, ⟨hKind, hCutMid, ?_⟩, ?_, hBefore, hBehind,
      ?_, hLiteralsMid.trans hLiterals⟩
    · rw [hLexMid]
      rcases hInner with rfl | hInner
      · exact .nil
      · exact hInner.nested
    · rw [hFirst, hLast, coreText]
      simp
    · rw [hTokens, hLexMid]
  have hRooted := h.sound.2
  cases v with
  | obj ms =>
      obtain ⟨inner, hTokens, hInner⟩ := hRooted
      exact hBetween .braces hTokens hInner
  | arr items =>
      obtain ⟨inner, hTokens, hInner⟩ := hRooted
      exact hBetween .brackets hTokens hInner
  | null => cases hRoot
  | bool b => cases hRoot
  | number w => cases hRoot
  | str codes => cases hRoot

variable {opener closer : Token} {o c : Char} {mid : List Str}

/-- The text of an object or of an array, cut at its literals. -/
theorem Core.pieces (h : Core opener closer o c mid) :
    ∃ ps, quoted ps = coreText o c mid ∧ WellCut ps ∧
      lexPieces ps = opener :: lexPieces mid ++ [closer] ∧ literals ps = literals mid := by
  obtain ⟨qs, hText, hCut, hLex, hLiterals⟩ := h.cut.precede h.kind.opener_eq
  obtain ⟨ps, hText', hCut', hLex', hLiterals'⟩ := hCut.follow h.kind.closer_eq
  refine ⟨ps, ?_, hCut', ?_, hLiterals'.trans hLiterals⟩
  · rw [hText', hText, coreText]
  · rw [hLex', hLex]

/-- Between the outermost brackets the depth never comes back to zero. -/
theorem Core.depth (h : Core opener closer o c mid) :
    foldOutside (depthStep o c) 1 .out (quoted mid) = some (1, .out) := by
  rw [foldOutside_quoted (depthStep_other h.kind) h.cut, h.nested.depth h.kind]
  rfl

theorem isSpace_of_isJsonSpace {b : Char} (h : isJsonSpace b = true) : isSpace b = true := by
  unfold isJsonSpace at h
  simp only [Bool.or_eq_true, decide_eq_true_eq] at h
  rcases h with ((rfl | rfl) | rfl) | rfl <;> rfl

/-- `strip` leaves what stands between the blanks. -/
theorem Core.strip_eq (h : Core opener closer o c mid) {before behind : Str}
    (hBefore : ∀ b ∈ before, isJsonSpace b = true)
    (hBehind : ∀ b ∈ behind, isJsonSpace b = true) :
    strip (before ++ (coreText o c mid ++ behind)) = coreText o c mid := by
  have hBlanks {blanks : Str} (hAll : ∀ b ∈ blanks, isJsonSpace b = true) (s : Str) :
      (blanks ++ s).dropWhile isSpace = s.dropWhile isSpace :=
    List.dropWhile_append_of_pos fun b hB => isSpace_of_isJsonSpace (hAll b hB)
  have hOpener : isSpace o = false := by cases h.kind <;> rfl
  have hCloser : isSpace c = false := by cases h.kind <;> rfl
  have hReverse (b : Char) (hB : b ∈ behind.reverse) : isJsonSpace b = true :=
    hBehind b (List.mem_reverse.mp hB)
  rw [strip, lstrip, hBlanks hBefore, coreText, List.cons_append, List.cons_append,
    List.dropWhile_cons_of_neg (by rw [hOpener]; exact Bool.false_ne_true), rstrip,
    List.rdropWhile, ← List.cons_append, ← List.cons_append, List.reverse_append, hBlanks hReverse,
    List.reverse_append, List.reverse_singleton, List.singleton_append,
    List.dropWhile_cons_of_neg (by rw [hCloser]; exact Bool.false_ne_true), List.reverse_cons,
    List.reverse_reverse]

/-- No text of a value is a proper prefix of another one. -/
theorem Core.length_le_of_prefix (h : Core opener closer o c mid) {mid' : List Str}
    (h' : Core opener closer o c mid') (hPrefix : coreText o c mid' <+: coreText o c mid) :
    (coreText o c mid).length ≤ (coreText o c mid').length := by
  by_contra hShort
  rw [coreText, coreText, List.cons_append, List.cons_append, List.prefix_cons_inj] at hPrefix
  have hInside : quoted mid' ++ [c] <+: quoted mid := by
    apply List.prefix_of_prefix_length_le hPrefix (List.prefix_append _ _)
    simp only [coreText, List.length_append, List.length_cons, List.length_nil] at hShort ⊢
    omega
  obtain ⟨rest, hRest⟩ := hInside
  have hDepth := h.depth
  have hQuote : c ≠ '"' := quote_notMem_of_punctuation h.kind.closer_eq
  have hEnd : depthStep o c 1 c = none := by
    rw [depthStep, if_neg h.kind.ne, if_pos rfl, if_pos (le_refl 1)]
  rw [← hRest, List.append_assoc, foldOutside_append, h'.depth, Option.bind_some,
    List.singleton_append, foldOutside_out_cons, if_neg hQuote, hEnd] at hDepth
  cases hDepth

/-- A text of an object that begins with its bracket has no blanks in front. -/
theorem Reads.core_of_head {ps : List Str} {v : Json} (h : Reads ps v) (hRoot : v.isContainer = true)
    (hHead : (quoted ps).head? = some '{') :
    ∃ mid behind, Core .lbrace .rbrace '{' '}' mid ∧ quoted ps = coreText '{' '}' mid ++ behind ∧
      ∀ b ∈ behind, isJsonSpace b = true := by
  obtain ⟨opener, closer, o, c, mid, before, behind, hCore, hText, hBefore, hBehind, -⟩ :=
    h.core hRoot
  rw [hText] at hHead
  cases before with
  | cons b before =>
      obtain rfl := Option.some.inj hHead
      exact absurd (hBefore '{' List.mem_cons_self) (by decide)
  | nil =>
      obtain rfl : o = '{' := Option.some.inj hHead
      obtain ⟨rfl, rfl, rfl⟩ : opener = .lbrace ∧ closer = .rbrace ∧ c = '}' := by
        cases hCore.kind
        exact ⟨rfl, rfl, rfl⟩
      exact ⟨mid, behind, hCore, hText, hBehind⟩

/-- A prefix of a text between braces is no text of a value, except the text itself. -/
theorem eq_of_object_prefix {t p : Str} {v v' : Json} (hT : loads t = some v)
    (hRoot : v.isContainer = true) (hHead : t.head? = some '{') (hLast : t.getLast? = some '}')
    (hPrefix : p <+: t) (hP : loads p = some v') (hRoot' : v'.isContainer = true) : p = t := by
  obtain ⟨ps, rfl, hReads⟩ := reads_of_loads hT
  obtain ⟨qs, rfl, hReads'⟩ := reads_of_loads hP
  obtain ⟨mid, behind, hCore, hText, hBehind⟩ := hReads.core_of_head hRoot hHead
  have hNone : behind = [] := by
    rcases List.eq_nil_or_concat' behind with hNil | ⟨front, b, rfl⟩
    · exact hNil
    · rw [hText, ← List.append_assoc, List.getLast?_concat] at hLast
      obtain rfl := Option.some.inj hLast
      exact absurd (hBehind '}' (by simp)) (by decide)
  rw [hNone, List.append_nil] at hText
  have hHead' : (quoted qs).head? = some '{' := by
    obtain ⟨rest, hRest⟩ := hPrefix
    cases hQs : quoted qs with
    | nil =>
        rw [hQs] at hP
        exact absurd hP (by simp [PyJson.loads, lex, pieces, lexPieces, lexGap, closeWord, value])
    | cons x xs =>
        rw [hQs] at hRest
        rw [← hRest] at hHead
        exact hHead
  obtain ⟨mid', behind', hCore', hText', -⟩ := hReads'.core_of_head hRoot' hHead'
  have hInside : coreText '{' '}' mid' <+: coreText '{' '}' mid := by
    rw [← hText]
    apply List.IsPrefix.trans _ hPrefix
    rw [hText']
    exact List.prefix_append _ _
  have hLength := hCore.length_le_of_prefix hCore' hInside
  apply hPrefix.eq_of_length_le
  rw [hText, hText', List.length_append]
  omega

theorem lexGap_append_blanks (word gap : Str) {blanks : Str}
    (hBlanks : ∀ b ∈ blanks, isJsonSpace b = true) :
    lexGap word (gap ++ blanks) = lexGap word gap := by
  have hOnly (word : Str) : lexGap word blanks = closeWord word := by
    induction blanks generalizing word with
    | nil => rfl
    | cons b blanks ih =>
        rw [List.forall_mem_cons] at hBlanks
        rw [lexGap_space _ _ hBlanks.1, ih hBlanks.2, closeWord_nil, List.append_nil]
  induction gap generalizing word with
  | nil => exact hOnly word
  | cons d gap ih =>
      rw [List.cons_append]
      rcases lexGap_cases d with hBlank | ⟨token, hToken⟩ | ⟨hBlank, hToken⟩
      · rw [lexGap_space _ _ hBlank, lexGap_space _ _ hBlank, ih]
      · rw [lexGap_punctuation _ _ hToken, lexGap_punctuation _ _ hToken, ih]
      · rw [lexGap_letter _ _ hBlank hToken, lexGap_letter _ _ hBlank hToken, ih]

/-- Blanks behind a text do not change what it is read as. -/
theorem loads_append_blanks {t : Str} {v : Json} (h : loads t = some v) {blanks : Str}
    (hBlanks : ∀ b ∈ blanks, isJsonSpace b = true) : loads (t ++ blanks) = some v := by
  obtain ⟨ps, rfl, hReads⟩ := reads_of_loads h
  have hQuote : '"' ∉ blanks := fun hMem => absurd (hBlanks _ hMem) (by decide)
  have hBehind {ps : List Str} (hPs : WellCut ps) :
      ∃ qs, quoted qs = quoted ps ++ blanks ∧ WellCut qs ∧ lexPieces qs = lexPieces ps := by
    induction hPs with
    | @last gap hGap =>
        refine ⟨[gap ++ blanks], rfl, .last ?_, lexGap_append_blanks [] gap hBlanks⟩
        rw [List.mem_append, not_or]
        exact ⟨hGap, hQuote⟩
    | @cons gap raw rest hGap hRaw hRest ih =>
        obtain ⟨qs, hText, hCut, hLex⟩ := ih
        refine ⟨gap :: raw :: qs, ?_, .cons hGap hRaw hCut, ?_⟩
        · rw [quoted_cons_cons hCut.ne_nil, quoted_cons_cons hRest.ne_nil, hText]
          simp
        · rw [lexPieces_cons hCut.ne_nil, lexPieces_cons hRest.ne_nil, hLex]
  obtain ⟨qs, hText, hCut, hLex⟩ := hBehind hReads.cut
  rw [← hText]
  exact (hReads.of_tokens hCut hLex).loads

end Documents

end PyJson
