import Mathlib.Data.List.Chain
import MatrycaPlumber.Text.Json

/-! How the text of a JSON value is cut: its literals, the brackets between them, and where
it begins and ends. -/
namespace PyJson

open PyText

section Cutting

/-- The state of the escapes behind a text inside a literal, which a bare quote would end. -/
def escapes : Bool → Str → Option Bool
  | escape, [] => some escape
  | true, _ :: s => escapes false s
  | false, c :: s => if c = '"' then none else escapes (c = '\\') s

/-- What may stand between the quotes of a literal. -/
def Literal (raw : Str) : Prop := escapes false raw = some false

/-- A text that is cut at the quotes of its literals. -/
inductive WellCut : List Str → Prop where
  | last {gap : Str} (hGap : '"' ∉ gap) : WellCut [gap]
  | cons {gap raw : Str} {rest : List Str} (hGap : '"' ∉ gap) (hRaw : Literal raw)
      (hRest : WellCut rest) : WellCut (gap :: raw :: rest)

abbrev quoted (ps : List Str) : Str := join ['"'] ps

theorem WellCut.ne_nil {ps : List Str} (h : WellCut ps) : ps ≠ [] := by
  cases h with
  | last => exact List.cons_ne_nil _ _
  | cons => exact List.cons_ne_nil _ _

theorem quoted_cons {ps : List Str} (h : ps ≠ []) (p : Str) :
    quoted (p :: ps) = p ++ '"' :: quoted ps := by
  cases ps with
  | nil => exact absurd rfl h
  | cons q qs =>
      show p ++ ['"'] ++ join ['"'] (q :: qs) = p ++ '"' :: join ['"'] (q :: qs)
      rw [List.append_assoc]
      rfl

theorem quoted_cons_cons {ps : List Str} (h : ps ≠ []) (gap raw : Str) :
    quoted (gap :: raw :: ps) = gap ++ '"' :: (raw ++ '"' :: quoted ps) := by
  rw [quoted_cons (List.cons_ne_nil _ _), quoted_cons h]

/-- The first piece with a text in front of it. -/
def prepend (gap : Str) : List Str → List Str
  | [] => [gap]
  | p :: ps => (gap ++ p) :: ps

theorem pieces_out_cons (c : Char) (s : Str) : pieces .out (c :: s) =
    if c = '"' then (pieces (.inside false) s).map ([] :: ·)
    else (pieces .out s).map (consHead c) := rfl

theorem pieces_escaped_cons (c : Char) (s : Str) :
    pieces (.inside true) (c :: s) = (pieces (.inside false) s).map (consHead c) := rfl

theorem pieces_inside_cons (c : Char) (s : Str) : pieces (.inside false) (c :: s) =
    if c = '"' then (pieces .out s).map ([] :: ·)
    else (pieces (.inside (c = '\\')) s).map (consHead c) := rfl

theorem pieces_gap {gap : Str} (h : '"' ∉ gap) (s : Str) :
    pieces .out (gap ++ s) = (pieces .out s).map (prepend gap) := by
  induction gap with
  | nil =>
      have hNil (ps : List Str) (hPs : pieces .out s = some ps) : prepend [] ps = ps := by
        cases ps with
        | nil =>
            exfalso
            revert hPs
            cases s with
            | nil => rintro ⟨⟩
            | cons c s =>
                rw [pieces_out_cons]
                split_ifs
                · simp
                · cases pieces .out s with
                  | none => simp
                  | some ps => cases ps <;> simp [consHead]
        | cons p ps => rfl
      cases hPs : pieces .out s with
      | none => simpa using hPs
      | some ps =>
          rw [List.nil_append, hPs, Option.map_some, hNil ps hPs]
  | cons c gap ih =>
      rw [List.mem_cons, not_or] at h
      rw [List.cons_append, pieces_out_cons, if_neg (Ne.symm h.1), ih h.2, Option.map_map]
      congr 1
      funext ps
      cases ps <;> rfl

theorem pieces_inside {raw : Str} {escape : Bool} (h : escapes escape raw = some false) (s : Str) :
    pieces (.inside escape) (raw ++ '"' :: s) = (pieces .out s).map (raw :: ·) := by
  induction raw generalizing escape with
  | nil =>
      obtain rfl := Option.some.inj h
      rfl
  | cons c raw ih =>
      cases escape with
      | true =>
          rw [List.cons_append, pieces_escaped_cons, ih h, Option.map_map]
          rfl
      | false =>
          rw [escapes] at h
          split_ifs at h with hQuote
          rw [List.cons_append, pieces_inside_cons, if_neg hQuote, ih h, Option.map_map]
          rfl

theorem pieces_quoted {ps : List Str} (h : WellCut ps) : pieces .out (quoted ps) = some ps := by
  induction h with
  | last hGap =>
      rename_i gap
      have hText := pieces_gap hGap []
      rw [List.append_nil] at hText
      have hEnd : pieces .out [] = some [[]] := rfl
      rw [quoted, join, hText, hEnd]
      simp [prepend]
  | cons hGap hRaw hRest ih =>
      rw [quoted_cons_cons hRest.ne_nil, pieces_gap hGap, pieces_out_cons, if_pos rfl,
        pieces_inside hRaw, ih]
      simp [prepend]

/-- The pieces of a text are well cut, and make up the text. -/
theorem wellCut_of_pieces (s : Str) :
    (∀ ps, pieces .out s = some ps → WellCut ps ∧ quoted ps = s) ∧
      ∀ escape ps, pieces (.inside escape) s = some ps →
        ∃ raw rest, ps = raw :: rest ∧ escapes escape raw = some false ∧ WellCut rest ∧
          raw ++ '"' :: quoted rest = s := by
  induction s with
  | nil =>
      constructor
      · intro ps h
        obtain rfl := Option.some.inj h
        exact ⟨.last (by simp), rfl⟩
      · intro escape ps h
        cases h
  | cons c s ih =>
      have hInside (escape : Bool) (ps : List Str)
          (h : (pieces (.inside escape) s).map (consHead c) = some ps) :
          ∃ raw rest, ps = (c :: raw) :: rest ∧ escapes escape raw = some false ∧ WellCut rest ∧
            raw ++ '"' :: quoted rest = s := by
        obtain ⟨qs, hQs, rfl⟩ := Option.map_eq_some_iff.mp h
        obtain ⟨raw, rest, rfl, hRaw, hRest, hText⟩ := ih.2 escape qs hQs
        exact ⟨raw, rest, rfl, hRaw, hRest, hText⟩
      constructor
      · intro ps h
        rw [pieces_out_cons] at h
        split_ifs at h with hQuote
        · obtain ⟨qs, hQs, rfl⟩ := Option.map_eq_some_iff.mp h
          obtain ⟨raw, rest, rfl, hRaw, hRest, hText⟩ := ih.2 false qs hQs
          refine ⟨.cons (by simp) hRaw hRest, ?_⟩
          rw [quoted_cons_cons hRest.ne_nil, hText, hQuote]
          rfl
        · obtain ⟨qs, hQs, rfl⟩ := Option.map_eq_some_iff.mp h
          obtain ⟨hCut, hText⟩ := ih.1 qs hQs
          cases hCut with
          | last hGap =>
              refine ⟨.last ?_, ?_⟩
              · simpa [Ne.symm hQuote] using hGap
              · rw [← hText]
                rfl
          | cons hGap hRaw hRest =>
              refine ⟨.cons ?_ hRaw hRest, ?_⟩
              · simpa [Ne.symm hQuote] using hGap
              · rw [← hText, quoted_cons_cons hRest.ne_nil, consHead, quoted_cons_cons hRest.ne_nil,
                  List.cons_append]
      · intro escape ps h
        cases escape with
        | true =>
            rw [pieces_escaped_cons] at h
            obtain ⟨raw, rest, rfl, hRaw, hRest, hText⟩ := hInside false ps h
            exact ⟨c :: raw, rest, rfl, hRaw, hRest, by rw [← hText]; rfl⟩
        | false =>
            rw [pieces_inside_cons] at h
            split_ifs at h with hQuote
            · obtain ⟨qs, hQs, rfl⟩ := Option.map_eq_some_iff.mp h
              obtain ⟨hCut, hText⟩ := ih.1 qs hQs
              exact ⟨[], qs, rfl, rfl, hCut, by rw [hText, hQuote]; rfl⟩
            · obtain ⟨raw, rest, rfl, hRaw, hRest, hText⟩ := hInside _ ps h
              refine ⟨c :: raw, rest, rfl, ?_, hRest, by rw [← hText]; rfl⟩
              rw [escapes, if_neg hQuote, hRaw]

theorem lex_quoted {ps : List Str} (h : WellCut ps) : lex (quoted ps) = some (lexPieces ps) := by
  rw [lex, pieces_quoted h]
  rfl

end Cutting

section Grammar

def Token.isStr : Token → Bool
  | .str _ => true
  | _ => false

/-- Not two literals. -/
def Apart (a b : Token) : Prop := ¬ (a.isStr = true ∧ b.isStr = true)

/-- The brackets among the tokens, as characters. -/
def bracket? : Token → Option Char
  | .lbrace => some '{'
  | .rbrace => some '}'
  | .lbracket => some '['
  | .rbracket => some ']'
  | _ => none

def brackets (tokens : List Token) : Str := tokens.filterMap bracket?

inductive Nested : Str → Prop where
  | nil : Nested []
  | braces {inner rest : Str} (hInner : Nested inner) (hRest : Nested rest) :
      Nested ('{' :: inner ++ '}' :: rest)
  | brackets {inner rest : Str} (hInner : Nested inner) (hRest : Nested rest) :
      Nested ('[' :: inner ++ ']' :: rest)

theorem Nested.append {a b : Str} (ha : Nested a) (hb : Nested b) : Nested (a ++ b) := by
  induction ha with
  | nil => exact hb
  | braces hInner hRest _ ih =>
      have h := Nested.braces hInner ih
      simpa using h
  | brackets hInner hRest _ ih =>
      have h := Nested.brackets hInner ih
      simpa using h

/-- Tokens as the parser takes them: their brackets are nested, their words have values, and
no literal follows another one. -/
structure Sound (tokens : List Token) : Prop where
  nested : Nested (brackets tokens)
  words : ∀ w, .word w ∈ tokens → wordValue w ≠ none
  spaced : tokens.IsChain Apart

theorem Sound.str (raw : Str) : Sound [.str raw] where
  nested := .nil
  words w h := by simp at h
  spaced := List.isChain_singleton _

theorem Sound.word {w : Str} (h : wordValue w ≠ none) : Sound [.word w] where
  nested := .nil
  words w' hMem := by
    obtain rfl : w' = w := by simpa using hMem
    exact h
  spaced := List.isChain_singleton _

theorem isChain_separated {a b : List Token} {sep : Token} (hSep : sep.isStr = false)
    (ha : a.IsChain Apart)
    (hb : b.IsChain Apart) :
    (a ++ sep :: b).IsChain Apart := by
  rw [List.isChain_append]
  refine ⟨ha, ?_, ?_⟩
  · rw [List.isChain_cons]
    refine ⟨?_, hb⟩
    rintro y _ ⟨hStr, -⟩
    rw [hSep] at hStr
    cases hStr
  · rintro x _ y hy ⟨-, hStr⟩
    obtain rfl : sep = y := Option.some.inj hy
    rw [hSep] at hStr
    cases hStr

/-- Two parts with a comma or a colon between them. -/
theorem Sound.separated {a b : List Token} (ha : Sound a) (hb : Sound b) {sep : Token}
    (hSep : sep = .comma ∨ sep = .colon) : Sound (a ++ sep :: b) := by
  have hStr : sep.isStr = false := by rcases hSep with rfl | rfl <;> rfl
  have hBracket : bracket? sep = none := by rcases hSep with rfl | rfl <;> rfl
  constructor
  · have hText : brackets (a ++ sep :: b) = brackets a ++ brackets b := by
      simp [brackets, hBracket]
    rw [hText]
    exact ha.nested.append hb.nested
  · intro w hMem
    rcases List.mem_append.mp hMem with h | h
    · exact ha.words w h
    · rcases List.mem_cons.mp h with rfl | h
      · rcases hSep with hSep | hSep <;> cases hSep
      · exact hb.words w h
  · exact isChain_separated hStr ha.spaced hb.spaced

/-- The two kinds of brackets. -/
inductive Bracketing : Token → Token → Char → Char → Prop where
  | braces : Bracketing .lbrace .rbrace '{' '}'
  | brackets : Bracketing .lbracket .rbracket '[' ']'

theorem Sound.enclosed {a : List Token} (ha : a = [] ∨ Sound a) {opener closer : Token} {o c : Char}
    (h : Bracketing opener closer o c) : Sound (opener :: a ++ [closer]) := by
  have hNested : Nested (brackets a) := by
    rcases ha with rfl | ha
    · exact .nil
    · exact ha.nested
  have hWords (w : Str) (hMem : .word w ∈ a) : wordValue w ≠ none := by
    rcases ha with rfl | ha
    · cases hMem
    · exact ha.words w hMem
  have hSpaced : a.IsChain Apart := by
    rcases ha with rfl | ha
    · exact List.isChain_nil
    · exact ha.spaced
  have hEnd (sep : Token) (hSep : sep.isStr = false) := isChain_separated hSep hSpaced
    List.isChain_nil
  have hStart (sep : Token) (hSep : sep.isStr = false) {b : List Token} := isChain_separated
    (a := []) (b := b) hSep List.isChain_nil
  cases h with
  | braces =>
      refine ⟨?_, ?_, hStart _ rfl (hEnd _ rfl)⟩
      · have h := Nested.braces hNested .nil
        simpa [brackets, bracket?] using h
      · intro w hMem
        apply hWords
        simpa using hMem
  | brackets =>
      refine ⟨?_, ?_, hStart _ rfl (hEnd _ rfl)⟩
      · have h := Nested.brackets hNested .nil
        simpa [brackets, bracket?] using h
      · intro w hMem
        apply hWords
        simpa using hMem

/-- The tokens of an object or of an array stand between its brackets. -/
def Rooted (v : Json) (used : List Token) : Prop :=
  match v with
  | .obj _ => ∃ inner, used = .lbrace :: inner ++ [.rbrace] ∧ (inner = [] ∨ Sound inner)
  | .arr _ => ∃ inner, used = .lbracket :: inner ++ [.rbracket] ∧ (inner = [] ∨ Sound inner)
  | _ => True

/-- The statement for the three functions of the parser, for one depth. -/
structure ParsesSound (n : ℕ) : Prop where
  value : ∀ ts v rest, value n ts = some (v, rest) →
    ∃ used, ts = used ++ rest ∧ Sound used ∧ Rooted v used
  items : ∀ ts vs rest, items n ts = some (vs, rest) →
    ∃ used, ts = used ++ .rbracket :: rest ∧ Sound used
  members : ∀ ts ms rest, members n ts = some (ms, rest) →
    ∃ used, ts = used ++ .rbrace :: rest ∧ Sound used

theorem ParsesSound.value_succ {n : ℕ} (ih : ParsesSound n) (ts : List Token) (v : Json)
    (rest : List Token) (h : PyJson.value (n + 1) ts = some (v, rest)) :
    ∃ used, ts = used ++ rest ∧ Sound used ∧ Rooted v used := by
  unfold PyJson.value at h
  split at h
  · next hZero => cases hZero
  · next raw rest' _ =>
      obtain ⟨codes, -, hEq⟩ := Option.map_eq_some_iff.mp h
      obtain ⟨rfl, rfl⟩ := Prod.mk.inj hEq
      exact ⟨[.str raw], rfl, .str raw, trivial⟩
  · next w rest' _ =>
      obtain ⟨result, hWord, hEq⟩ := Option.map_eq_some_iff.mp h
      obtain ⟨rfl, rfl⟩ := Prod.mk.inj hEq
      refine ⟨[.word w], rfl, .word (by rw [hWord]; simp), ?_⟩
      rw [wordValue] at hWord
      split_ifs at hWord <;> cases hWord <;> trivial
  · obtain ⟨rfl, rfl⟩ := Prod.mk.inj (Option.some.inj h)
    exact ⟨[.lbracket, .rbracket], rfl, Sound.enclosed (.inl rfl) .brackets, [], rfl, .inl rfl⟩
  · next _ hFuel =>
      obtain rfl := Nat.succ.inj hFuel
      obtain ⟨⟨vs, rest'⟩, hItems, hEq⟩ := Option.map_eq_some_iff.mp h
      obtain ⟨rfl, rfl⟩ := Prod.mk.inj hEq
      obtain ⟨used, rfl, hSound⟩ := ih.items _ _ _ hItems
      refine ⟨.lbracket :: used ++ [.rbracket], by simp, Sound.enclosed (.inr hSound) .brackets,
        used, rfl, .inr hSound⟩
  · obtain ⟨rfl, rfl⟩ := Prod.mk.inj (Option.some.inj h)
    exact ⟨[.lbrace, .rbrace], rfl, Sound.enclosed (.inl rfl) .braces, [], rfl, .inl rfl⟩
  · next _ hFuel =>
      obtain rfl := Nat.succ.inj hFuel
      obtain ⟨⟨ms, rest'⟩, hMembers, hEq⟩ := Option.map_eq_some_iff.mp h
      obtain ⟨rfl, rfl⟩ := Prod.mk.inj hEq
      obtain ⟨used, rfl, hSound⟩ := ih.members _ _ _ hMembers
      refine ⟨.lbrace :: used ++ [.rbrace], by simp, Sound.enclosed (.inr hSound) .braces,
        used, rfl, .inr hSound⟩
  · cases h

theorem ParsesSound.items_succ {n : ℕ} (ih : ParsesSound n) (ts : List Token) (vs : List Json)
    (rest : List Token) (h : PyJson.items (n + 1) ts = some (vs, rest)) :
    ∃ used, ts = used ++ .rbracket :: rest ∧ Sound used := by
  unfold PyJson.items at h
  cases hValue : PyJson.value n ts with
  | none => rw [hValue] at h; cases h
  | some result =>
      obtain ⟨v, behind⟩ := result
      obtain ⟨used, rfl, hSound, -⟩ := ih.value _ _ _ hValue
      rw [hValue] at h
      split at h
      · next hEq =>
          obtain ⟨⟨ws, rest'⟩, hItems, hResult⟩ := Option.map_eq_some_iff.mp h
          obtain ⟨rfl, rfl⟩ := Prod.mk.inj hResult
          obtain ⟨-, rfl⟩ := Prod.mk.inj (Option.some.inj hEq)
          obtain ⟨used', rfl, hSound'⟩ := ih.items _ _ _ hItems
          exact ⟨used ++ .comma :: used', by simp, hSound.separated hSound' (.inl rfl)⟩
      · next hEq =>
          obtain ⟨-, rfl⟩ := Prod.mk.inj (Option.some.inj hEq)
          obtain ⟨-, rfl⟩ := Prod.mk.inj (Option.some.inj h)
          exact ⟨used, rfl, hSound⟩
      · cases h

theorem ParsesSound.members_succ {n : ℕ} (ih : ParsesSound n) (ts : List Token)
    (ms : List (List ℕ × Json)) (rest : List Token)
    (h : PyJson.members (n + 1) ts = some (ms, rest)) :
    ∃ used, ts = used ++ .rbrace :: rest ∧ Sound used := by
  unfold PyJson.members at h
  split at h
  · next hZero => cases hZero
  · next raw behind hFuel =>
      obtain rfl := Nat.succ.inj hFuel
      have hKey {used : List Token} (hSound : Sound used) : Sound (.str raw :: .colon :: used) :=
        (Sound.str raw).separated hSound (.inr rfl)
      split at h
      · next hEq =>
          obtain ⟨used, rfl, hSound, -⟩ := ih.value _ _ _ hEq
          obtain ⟨⟨ws, rest'⟩, hMembers, hResult⟩ := Option.map_eq_some_iff.mp h
          obtain ⟨rfl, rfl⟩ := Prod.mk.inj hResult
          obtain ⟨used', rfl, hSound'⟩ := ih.members _ _ _ hMembers
          exact ⟨.str raw :: .colon :: used ++ .comma :: used', by simp,
            (hKey hSound).separated hSound' (.inl rfl)⟩
      · next hEq =>
          obtain ⟨used, rfl, hSound, -⟩ := ih.value _ _ _ hEq
          obtain ⟨-, rfl⟩ := Prod.mk.inj (Option.some.inj h)
          exact ⟨.str raw :: .colon :: used, by simp, hKey hSound⟩
      · cases h
  · cases h

theorem parsesSound (n : ℕ) : ParsesSound n := by
  induction n with
  | zero =>
      constructor
      · intro ts v rest h
        rw [PyJson.value] at h
        cases h
      · intro ts vs rest h
        rw [PyJson.items] at h
        cases h
      · intro ts ms rest h
        rw [PyJson.members] at h
        cases h
  | succ n ih => exact ⟨ih.value_succ, ih.items_succ, ih.members_succ⟩

end Grammar

section Words

theorem backslash_notMem_digits {s : Str} (h : (s.all fun c => '0' ≤ c && c ≤ '9') = true) :
    '\\' ∉ s := by
  intro hMem
  have hDigit := List.all_eq_true.mp h _ hMem
  exact absurd hDigit (by decide)

theorem backslash_notMem_of_digits {s : Str} (h : digits s = true) : '\\' ∉ s := by
  rw [digits, Bool.and_eq_true] at h
  exact backslash_notMem_digits h.2

theorem backslash_notMem_exponent {s : Str} (h : isExponent s = true) : '\\' ∉ s := by
  have hLetter {e : Char} {rest : Str} (hE : (decide (e = 'e') || decide (e = 'E')) = true)
      (hRest : '\\' ∉ rest) : '\\' ∉ e :: rest := by
    rw [List.mem_cons, not_or]
    refine ⟨?_, hRest⟩
    rintro rfl
    exact absurd hE (by decide)
  rw [isExponent.eq_def] at h
  split at h
  · rw [Bool.and_eq_true] at h
    apply hLetter h.1
    rw [List.mem_cons, not_or]
    exact ⟨by decide, backslash_notMem_of_digits h.2⟩
  · rw [Bool.and_eq_true] at h
    apply hLetter h.1
    rw [List.mem_cons, not_or]
    exact ⟨by decide, backslash_notMem_of_digits h.2⟩
  · rw [Bool.and_eq_true] at h
    exact hLetter h.1 (backslash_notMem_of_digits h.2)
  · cases h

theorem backslash_notMem_tail {s : Str} (h : isNumberTail s = true) : '\\' ∉ s := by
  unfold isNumberTail at h
  rw [Bool.or_eq_true, Bool.or_eq_true, decide_eq_true_eq] at h
  rcases h with (rfl | hExponent) | hFraction
  · exact List.not_mem_nil
  · exact backslash_notMem_exponent hExponent
  · split at hFraction
    · next rest =>
        rw [Bool.and_eq_true, Bool.or_eq_true, decide_eq_true_eq] at hFraction
        rw [List.mem_cons, not_or, ← List.takeWhile_append_dropWhile
          (p := fun c => decide ('0' ≤ c) && decide (c ≤ '9')) (l := rest), List.mem_append, not_or]
        refine ⟨by decide, backslash_notMem_digits List.all_takeWhile, ?_⟩
        rcases hFraction.2 with hNil | hExponent
        · rw [of_decide_eq_true hNil]
          exact List.not_mem_nil
        · exact backslash_notMem_exponent hExponent
    · cases hFraction

theorem backslash_notMem_unsigned {s : Str} (h : isUnsignedNumber s = true) : '\\' ∉ s := by
  rw [isUnsignedNumber, Bool.and_eq_true] at h
  rw [← List.takeWhile_append_dropWhile (p := fun c => decide ('0' ≤ c) && decide (c ≤ '9')) (l := s),
    List.mem_append, not_or]
  exact ⟨backslash_notMem_digits List.all_takeWhile, backslash_notMem_tail h.2⟩

/-- A word of the language has no backslash. -/
theorem backslash_notMem_word {w : Str} (h : wordValue w ≠ none) : '\\' ∉ w := by
  rw [wordValue] at h
  split_ifs at h with hTrue hFalse hNull hNumber
  · rw [hTrue]; decide
  · rw [hFalse]; decide
  · rw [hNull]; decide
  · rcases hNumber with hNamed | hNumber
    · intro hMem
      rcases List.mem_cons.mp hNamed with rfl | hNamed
      · exact absurd hMem (by decide)
      rcases List.mem_cons.mp hNamed with rfl | hNamed
      · exact absurd hMem (by decide)
      obtain rfl := List.mem_singleton.mp hNamed
      exact absurd hMem (by decide)
    · rw [isNumber.eq_def] at hNumber
      split at hNumber
      · rw [List.mem_cons, not_or]
        exact ⟨by decide, backslash_notMem_unsigned hNumber⟩
      · exact backslash_notMem_unsigned hNumber
  · exact absurd rfl h

end Words

section Gaps

variable {c : Char} {token : Token} (word s : Str)

theorem closeWord_nil : closeWord [] = [] := rfl

theorem closeWord_cons : closeWord (c :: word) = [.word (c :: word).reverse] := rfl

theorem lexGap_space (h : isJsonSpace c = true) :
    lexGap word (c :: s) = closeWord word ++ lexGap [] s := by
  rw [lexGap, if_pos h]

theorem lexGap_punctuation (h : punctuation? c = some token) :
    lexGap word (c :: s) = closeWord word ++ token :: lexGap [] s := by
  have hSpace : ¬ isJsonSpace c = true := by
    intro hSpace
    unfold isJsonSpace at hSpace
    simp only [Bool.or_eq_true, decide_eq_true_eq] at hSpace
    rcases hSpace with ((rfl | rfl) | rfl) | rfl <;> cases h
  rw [lexGap, if_neg hSpace, h]

theorem lexGap_letter (hSpace : ¬ isJsonSpace c = true) (h : punctuation? c = none) :
    lexGap word (c :: s) = lexGap (c :: word) s := by
  rw [lexGap, if_neg hSpace, h]

/-- The three kinds of characters of a piece. -/
theorem lexGap_cases (c : Char) :
    isJsonSpace c = true ∨ (∃ token, punctuation? c = some token) ∨
      (¬ isJsonSpace c = true ∧ punctuation? c = none) := by
  by_cases hSpace : isJsonSpace c = true
  · exact .inl hSpace
  · cases h : punctuation? c with
    | some token => exact .inr (.inl ⟨token, rfl⟩)
    | none => exact .inr (.inr ⟨hSpace, rfl⟩)

/-- What is neither a blank nor punctuation stands in a word. -/
theorem mem_word_of_mem_gap (hSpace : ¬ isJsonSpace c = true) (hPunctuation : punctuation? c = none)
    {word gap : Str} (h : c ∈ word ∨ c ∈ gap) :
    ∃ w, .word w ∈ lexGap word gap ∧ c ∈ w := by
  have hClosed {word : Str} (hWord : c ∈ word) : .word word.reverse ∈ closeWord word := by
    rw [closeWord, if_neg (List.ne_nil_of_mem hWord)]
    exact List.mem_singleton_self _
  induction gap generalizing word with
  | nil =>
      have hWord : c ∈ word := by simpa using h
      exact ⟨word.reverse, hClosed hWord, List.mem_reverse.mpr hWord⟩
  | cons d gap ih =>
      have hLater (hGap : c ∈ d :: gap) (hNot : d ≠ c) : ∃ w, .word w ∈ lexGap [] gap ∧ c ∈ w := by
        apply ih
        rcases List.mem_cons.mp hGap with hEq | hMem
        · exact absurd hEq.symm hNot
        · exact .inr hMem
      rcases lexGap_cases d with hBlank | ⟨token, hToken⟩ | ⟨hBlank, hToken⟩
      · rw [lexGap_space _ _ hBlank]
        rcases h with hWord | hGap
        · exact ⟨_, List.mem_append_left _ (hClosed hWord), List.mem_reverse.mpr hWord⟩
        · obtain ⟨w, hW, hC⟩ := hLater hGap (by rintro rfl; exact hSpace hBlank)
          exact ⟨w, List.mem_append_right _ hW, hC⟩
      · rw [lexGap_punctuation _ _ hToken]
        rcases h with hWord | hGap
        · exact ⟨_, List.mem_append_left _ (hClosed hWord), List.mem_reverse.mpr hWord⟩
        · obtain ⟨w, hW, hC⟩ := hLater hGap (by rintro rfl; rw [hPunctuation] at hToken; cases hToken)
          exact ⟨w, List.mem_append_right _ (List.mem_cons_of_mem _ hW), hC⟩
      · rw [lexGap_letter _ _ hBlank hToken]
        apply ih
        rcases h with hWord | hGap
        · exact .inl (List.mem_cons_of_mem _ hWord)
        · rcases List.mem_cons.mp hGap with rfl | hGap
          · exact .inl List.mem_cons_self
          · exact .inr hGap

theorem lexGap_append_punctuation (h : punctuation? c = some token) (behind : Str) :
    lexGap word (s ++ c :: behind) = lexGap word s ++ token :: lexGap [] behind := by
  induction s generalizing word with
  | nil => exact lexGap_punctuation word behind h
  | cons d s ih =>
      rw [List.cons_append]
      rcases lexGap_cases d with hBlank | ⟨token', hToken⟩ | ⟨hBlank, hToken⟩
      · rw [lexGap_space _ _ hBlank, lexGap_space _ _ hBlank, ih, List.append_assoc]
      · rw [lexGap_punctuation _ _ hToken, lexGap_punctuation _ _ hToken, ih, List.append_assoc]
        rfl
      · rw [lexGap_letter _ _ hBlank hToken, lexGap_letter _ _ hBlank hToken, ih]

variable {word s}

theorem lexGap_word (h : word ≠ []) : ∃ w ts, lexGap word s = .word w :: ts := by
  have hClosed (word : Str) (h : word ≠ []) : ∃ w, closeWord word = [.word w] :=
    ⟨word.reverse, if_neg h⟩
  induction s generalizing word with
  | nil =>
      obtain ⟨w, hW⟩ := hClosed word h
      exact ⟨w, [], hW⟩
  | cons d s ih =>
      obtain ⟨w, hW⟩ := hClosed word h
      rcases lexGap_cases d with hBlank | ⟨token', hToken⟩ | ⟨hBlank, hToken⟩
      · rw [lexGap_space _ _ hBlank, hW]
        exact ⟨w, _, rfl⟩
      · rw [lexGap_punctuation _ _ hToken, hW]
        exact ⟨w, _, rfl⟩
      · rw [lexGap_letter _ _ hBlank hToken]
        exact ih (List.cons_ne_nil _ _)

theorem lexGap_eq_nil (h : lexGap [] s = []) : ∀ b ∈ s, isJsonSpace b = true := by
  induction s with
  | nil => simp
  | cons d s ih =>
      rcases lexGap_cases d with hBlank | ⟨token', hToken⟩ | ⟨hBlank, hToken⟩
      · rw [lexGap_space _ _ hBlank] at h
        rw [List.forall_mem_cons]
        exact ⟨hBlank, ih h⟩
      · rw [lexGap_punctuation _ _ hToken] at h
        cases h
      · rw [lexGap_letter _ _ hBlank hToken] at h
        obtain ⟨w, ts, hWord⟩ := lexGap_word (s := s) (List.cons_ne_nil d [])
        rw [hWord] at h
        cases h

/-- Where the first token of a piece stands, when it is a punctuation. -/
theorem lexGap_first {ts : List Token} (h : lexGap [] s = token :: ts)
    (hToken : ∀ w, token ≠ .word w) :
    ∃ blanks c behind, s = blanks ++ c :: behind ∧ (∀ b ∈ blanks, isJsonSpace b = true) ∧
      punctuation? c = some token ∧ lexGap [] behind = ts := by
  induction s with
  | nil => cases h
  | cons d s ih =>
      rcases lexGap_cases d with hBlank | ⟨token', hPunctuation⟩ | ⟨hBlank, hPunctuation⟩
      · rw [lexGap_space _ _ hBlank] at h
        obtain ⟨blanks, c, behind, rfl, hBlanks, hC, hBehind⟩ := ih h
        refine ⟨d :: blanks, c, behind, rfl, ?_, hC, hBehind⟩
        rw [List.forall_mem_cons]
        exact ⟨hBlank, hBlanks⟩
      · rw [lexGap_punctuation _ _ hPunctuation] at h
        obtain ⟨rfl, rfl⟩ := List.cons.inj h
        exact ⟨[], d, s, rfl, by simp, hPunctuation, rfl⟩
      · rw [lexGap_letter _ _ hBlank hPunctuation] at h
        obtain ⟨w, ts', hWord⟩ := lexGap_word (s := s) (List.cons_ne_nil d [])
        rw [hWord] at h
        exact absurd (List.cons.inj h).1.symm (hToken w)

/-- Where the last token of a piece stands, when it is a punctuation. -/
theorem lexGap_last {ts : List Token} (h : lexGap word s = ts ++ [token])
    (hToken : ∀ w, token ≠ .word w) :
    ∃ front c blanks, s = front ++ c :: blanks ∧ (∀ b ∈ blanks, isJsonSpace b = true) ∧
      punctuation? c = some token ∧ lexGap word front = ts := by
  have hClosed {word : Str} {ts : List Token} (h : closeWord word = ts ++ [token]) : False := by
    rw [closeWord] at h
    split_ifs at h
    · cases ts <;> cases h
    · cases ts with
      | nil => exact hToken _ (List.cons.inj h).1.symm
      | cons t ts => cases ts <;> cases (List.cons.inj h).2
  induction s generalizing word ts with
  | nil => exact (hClosed h).elim
  | cons d s ih =>
      rcases lexGap_cases d with hBlank | ⟨token', hPunctuation⟩ | ⟨hBlank, hPunctuation⟩
      · rw [lexGap_space _ _ hBlank] at h
        rcases List.eq_nil_or_concat' (lexGap [] s) with hNil | ⟨ts', t, hEnd⟩
        · rw [hNil, List.append_nil] at h
          exact (hClosed h).elim
        · rw [hEnd, ← List.append_assoc] at h
          obtain ⟨rfl, hLast⟩ := List.append_inj' h rfl
          obtain rfl := List.singleton_inj.mp hLast
          obtain ⟨front, c, blanks, rfl, hBlanks, hC, hFront⟩ := ih hEnd
          refine ⟨d :: front, c, blanks, rfl, hBlanks, hC, ?_⟩
          rw [lexGap_space _ _ hBlank, hFront]
      · rw [lexGap_punctuation _ _ hPunctuation] at h
        rcases List.eq_nil_or_concat' (lexGap [] s) with hNil | ⟨ts', t, hEnd⟩
        · rw [hNil] at h
          obtain ⟨rfl, hLast⟩ := List.append_inj' h rfl
          obtain rfl := List.singleton_inj.mp hLast
          exact ⟨[], d, s, rfl, lexGap_eq_nil hNil, hPunctuation, rfl⟩
        · rw [hEnd, ← List.cons_append, ← List.append_assoc] at h
          obtain ⟨rfl, hLast⟩ := List.append_inj' h rfl
          obtain rfl := List.singleton_inj.mp hLast
          obtain ⟨front, c, blanks, rfl, hBlanks, hC, hFront⟩ := ih hEnd
          refine ⟨d :: front, c, blanks, rfl, hBlanks, hC, ?_⟩
          rw [lexGap_punctuation _ _ hPunctuation, hFront]
      · rw [lexGap_letter _ _ hBlank hPunctuation] at h
        obtain ⟨front, c, blanks, rfl, hBlanks, hC, hFront⟩ := ih h
        refine ⟨d :: front, c, blanks, rfl, hBlanks, hC, ?_⟩
        rw [lexGap_letter _ _ hBlank hPunctuation, hFront]

end Gaps

section Ends

/-- The literals of a cut text. -/
def literals : List Str → List Str
  | _ :: raw :: rest => raw :: literals rest
  | _ => []

theorem WellCut.literal_of_mem {ps : List Str} (h : WellCut ps) :
    ∀ raw ∈ literals ps, Literal raw := by
  induction h with
  | last => exact fun raw hMem => absurd hMem List.not_mem_nil
  | cons hGap hRaw hRest ih =>
      rw [literals, List.forall_mem_cons]
      exact ⟨hRaw, ih⟩

theorem lexPieces_cons {ps : List Str} (h : ps ≠ []) (gap raw : Str) :
    lexPieces (gap :: raw :: ps) = lexGap [] gap ++ .str raw :: lexPieces ps := by
  cases ps with
  | nil => exact absurd rfl h
  | cons p ps => rfl

theorem quote_notMem_of_punctuation {c : Char} {token : Token} (h : punctuation? c = some token) :
    c ≠ '"' := by
  rintro rfl
  cases h

/-- A cut text up to its first token, when that is a punctuation. -/
theorem WellCut.first {ps : List Str} (h : WellCut ps) {token : Token} {ts : List Token}
    (hTokens : lexPieces ps = token :: ts) (hStr : token.isStr = false)
    (hWord : ∀ w, token ≠ .word w) :
    ∃ blanks c qs, quoted ps = blanks ++ c :: quoted qs ∧ (∀ b ∈ blanks, isJsonSpace b = true) ∧
      punctuation? c = some token ∧ WellCut qs ∧ lexPieces qs = ts ∧
      literals qs = literals ps := by
  cases h with
  | last hGap =>
      obtain ⟨blanks, c, behind, rfl, hBlanks, hC, hBehind⟩ := lexGap_first hTokens hWord
      rw [List.mem_append, List.mem_cons, not_or, not_or] at hGap
      exact ⟨blanks, c, [behind], rfl, hBlanks, hC, .last hGap.2.2, hBehind, rfl⟩
  | @cons gap raw rest hGap hRaw hRest =>
      rw [lexPieces_cons hRest.ne_nil] at hTokens
      cases hLex : lexGap [] gap with
      | nil =>
          rw [hLex] at hTokens
          obtain ⟨rfl, -⟩ := List.cons.inj hTokens
          cases hStr
      | cons t ts' =>
          rw [hLex, List.cons_append] at hTokens
          obtain ⟨rfl, rfl⟩ := List.cons.inj hTokens
          obtain ⟨blanks, c, behind, rfl, hBlanks, hC, hBehind⟩ := lexGap_first hLex hWord
          rw [List.mem_append, List.mem_cons, not_or, not_or] at hGap
          refine ⟨blanks, c, behind :: raw :: rest, ?_, hBlanks, hC, .cons hGap.2.2 hRaw hRest, ?_,
            rfl⟩
          · rw [quoted_cons_cons hRest.ne_nil, quoted_cons_cons hRest.ne_nil, List.append_assoc]
            rfl
          · rw [lexPieces_cons hRest.ne_nil, hBehind]

/-- A cut text from its last token on, when that is a punctuation. -/
theorem WellCut.lastToken {ps : List Str} (h : WellCut ps) {token : Token} {ts : List Token}
    (hTokens : lexPieces ps = ts ++ [token]) (hStr : token.isStr = false)
    (hWord : ∀ w, token ≠ .word w) :
    ∃ qs c blanks, quoted ps = quoted qs ++ c :: blanks ∧ (∀ b ∈ blanks, isJsonSpace b = true) ∧
      punctuation? c = some token ∧ WellCut qs ∧ lexPieces qs = ts ∧
      literals qs = literals ps := by
  induction h generalizing ts with
  | last hGap =>
      obtain ⟨front, c, blanks, rfl, hBlanks, hC, hFront⟩ := lexGap_last hTokens hWord
      rw [List.mem_append, not_or] at hGap
      exact ⟨[front], c, blanks, rfl, hBlanks, hC, .last hGap.1, hFront, rfl⟩
  | @cons gap raw rest hGap hRaw hRest ih =>
      rw [lexPieces_cons hRest.ne_nil] at hTokens
      rcases List.eq_nil_or_concat' (lexPieces rest) with hNil | ⟨ts', t, hEnd⟩
      · rw [hNil] at hTokens
        obtain ⟨-, hLast⟩ := List.append_inj' hTokens rfl
        obtain rfl := List.singleton_inj.mp hLast
        cases hStr
      · rw [hEnd, ← List.cons_append, ← List.append_assoc] at hTokens
        obtain ⟨rfl, hLast⟩ := List.append_inj' hTokens rfl
        obtain rfl := List.singleton_inj.mp hLast
        obtain ⟨qs, c, blanks, hText, hBlanks, hC, hCut, hLex, hLiterals⟩ := ih hEnd
        refine ⟨gap :: raw :: qs, c, blanks, ?_, hBlanks, hC, .cons hGap hRaw hCut, ?_, ?_⟩
        · rw [quoted_cons_cons hRest.ne_nil, quoted_cons_cons hCut.ne_nil, hText]
          simp
        · rw [lexPieces_cons hCut.ne_nil, hLex]
        · rw [literals, literals, hLiterals]

/-- A cut text with a punctuation in front of it. -/
theorem WellCut.precede {ps : List Str} (h : WellCut ps) {c : Char} {token : Token}
    (hC : punctuation? c = some token) :
    ∃ qs, quoted qs = c :: quoted ps ∧ WellCut qs ∧ lexPieces qs = token :: lexPieces ps ∧
      literals qs = literals ps := by
  have hQuote := quote_notMem_of_punctuation hC
  have hPiece {gap : Str} (hGap : '"' ∉ gap) : '"' ∉ c :: gap := by
    rw [List.mem_cons, not_or]
    exact ⟨hQuote.symm, hGap⟩
  cases h with
  | @last gap hGap =>
      exact ⟨[c :: gap], rfl, .last (hPiece hGap), lexGap_punctuation [] gap hC, rfl⟩
  | @cons gap raw rest hGap hRaw hRest =>
      refine ⟨(c :: gap) :: raw :: rest, ?_, .cons (hPiece hGap) hRaw hRest, ?_, rfl⟩
      · rw [quoted_cons_cons hRest.ne_nil, quoted_cons_cons hRest.ne_nil, List.cons_append]
      · rw [lexPieces_cons hRest.ne_nil, lexPieces_cons hRest.ne_nil, lexGap_punctuation [] gap hC]
        rfl

/-- A cut text with a punctuation behind it. -/
theorem WellCut.follow {ps : List Str} (h : WellCut ps) {c : Char} {token : Token}
    (hC : punctuation? c = some token) :
    ∃ qs, quoted qs = quoted ps ++ [c] ∧ WellCut qs ∧ lexPieces qs = lexPieces ps ++ [token] ∧
      literals qs = literals ps := by
  have hQuote := quote_notMem_of_punctuation hC
  induction h with
  | @last gap hGap =>
      refine ⟨[gap ++ [c]], rfl, .last ?_, ?_, rfl⟩
      · simpa [hGap] using hQuote.symm
      · exact lexGap_append_punctuation [] gap hC []
  | @cons gap raw rest hGap hRaw hRest ih =>
      obtain ⟨qs, hText, hCut, hLex, hLiterals⟩ := ih
      refine ⟨gap :: raw :: qs, ?_, .cons hGap hRaw hCut, ?_, ?_⟩
      · rw [quoted_cons_cons hCut.ne_nil, quoted_cons_cons hRest.ne_nil, hText]
        simp
      · rw [lexPieces_cons hCut.ne_nil, lexPieces_cons hRest.ne_nil, hLex]
        simp
      · rw [literals, literals, hLiterals]

end Ends

end PyJson
