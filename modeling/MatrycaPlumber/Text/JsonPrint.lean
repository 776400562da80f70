import MatrycaPlumber.Text.JsonDocument

/-! The compact text of a JSON value, and that it is read as the value. -/
namespace PyJson

open PyText

section Tokens

mutual

/-- The tokens of a value whose texts need no escapes. -/
def printed : Json → List Token
  | .null => [.word "null".toList]
  | .bool b => [.word (if b then "true".toList else "false".toList)]
  | .number w => [.word w]
  | .str codes => [.str (codes.map Char.ofNat)]
  | .arr vs => .lbracket :: (printedItems vs ++ [.rbracket])
  | .obj ms => .lbrace :: (printedMembers ms ++ [.rbrace])

def printedItems : List Json → List Token
  | [] => []
  | [v] => printed v
  | v :: w :: vs => printed v ++ .comma :: printedItems (w :: vs)

def printedMembers : List (List ℕ × Json) → List Token
  | [] => []
  | [(key, v)] => .str (key.map Char.ofNat) :: .colon :: printed v
  | (key, v) :: m :: ms =>
      .str (key.map Char.ofNat) :: .colon :: (printed v ++ .comma :: printedMembers (m :: ms))

end

/-- A text that is written without escapes. -/
def PlainText (codes : List ℕ) : Prop :=
  ∀ n ∈ codes, 32 ≤ n ∧ n < 127 ∧ n ≠ 34 ∧ n ≠ 92

/-- A text that is one word between punctuation. -/
def WordText (w : Str) : Prop :=
  w ≠ [] ∧ ∀ c ∈ w, c ≠ '"' ∧ ¬ isJsonSpace c = true ∧ punctuation? c = none

mutual

/-- A value whose texts are plain and whose numbers are number words. -/
def Plain : Json → Prop
  | .null => True
  | .bool _ => True
  | .number w => WordText w ∧ wordValue w = some (.number w)
  | .str codes => PlainText codes
  | .arr vs => PlainItems vs
  | .obj ms => PlainMembers ms

def PlainItems : List Json → Prop
  | [] => True
  | v :: vs => Plain v ∧ PlainItems vs

def PlainMembers : List (List ℕ × Json) → Prop
  | [] => True
  | (key, v) :: ms => PlainText key ∧ Plain v ∧ PlainMembers ms

end

theorem printed_ne_nil (v : Json) : printed v ≠ [] := by
  cases v <;> rw [printed] <;> exact List.cons_ne_nil _ _

theorem printed_head (v : Json) : ∃ t ts, printed v = t :: ts ∧ t ≠ .rbracket ∧ t ≠ .rbrace := by
  cases v <;> rw [printed] <;> exact ⟨_, _, rfl, Token.noConfusion, Token.noConfusion⟩

theorem toNat_ofNat {k : ℕ} (h : k < 127) : (Char.ofNat k).toNat = k := by
  have hValid : k.isValidChar := .inl (by omega)
  rw [Char.ofNat, dif_pos hValid]
  rfl

theorem decodeString_plain {codes : List ℕ} (h : PlainText codes) (n : ℕ) (hN : codes.length ≤ n) :
    decodeString n (codes.map Char.ofNat) = some codes := by
  induction codes generalizing n with
  | nil => rw [List.map_nil, decodeString]
  | cons k codes ih =>
      unfold PlainText at h
      rw [List.forall_mem_cons] at h
      obtain ⟨⟨hLow, hHigh, hQuote, hSlash⟩, hRest⟩ := h
      obtain ⟨n, rfl⟩ : ∃ m, n = m + 1 := Nat.exists_eq_add_of_le' (Nat.lt_of_lt_of_le (Nat.succ_pos _) hN)
      have hValue : (Char.ofNat k).toNat = k := toNat_ofNat hHigh
      have hBackslash : Char.ofNat k ≠ '\\' := by
        intro hEq
        have hNat := congrArg Char.toNat hEq
        rw [hValue] at hNat
        exact hSlash hNat
      rw [List.map_cons, decodeString.eq_def]
      split
      · next hEq => cases hEq
      · next hFuel _ => cases hFuel
      · next hEq => exact absurd (List.cons.inj hEq).1 hBackslash
      · next hEq => exact absurd (List.cons.inj hEq).1 hBackslash
      · next hEq => exact absurd (List.cons.inj hEq).1 hBackslash
      · next hFuel hEq =>
          obtain ⟨rfl, rfl⟩ := List.cons.inj hEq
          obtain rfl := Nat.succ.inj hFuel
          rw [hValue, if_neg (by omega), ih hRest _ (Nat.le_of_succ_le_succ hN)]
          rfl

theorem decodeLiteral_plain {codes : List ℕ} (h : PlainText codes) :
    decodeLiteral (codes.map Char.ofNat) = some codes :=
  decodeString_plain h _ (by rw [List.length_map])

theorem printedItems_head (v : Json) (vs : List Json) :
    ∃ t ts, printedItems (v :: vs) = t :: ts ∧ t ≠ .rbracket := by
  obtain ⟨t, ts, hHead, hT, -⟩ := printed_head v
  cases vs with
  | nil => exact ⟨t, ts, hHead, hT⟩
  | cons w vs =>
      rw [printedItems, hHead]
      exact ⟨t, _, rfl, hT⟩

theorem printedMembers_head (m : List ℕ × Json) (ms : List (List ℕ × Json)) :
    ∃ t ts, printedMembers (m :: ms) = t :: ts ∧ t ≠ .rbrace := by
  obtain ⟨key, v⟩ := m
  cases ms <;> rw [printedMembers] <;> exact ⟨_, _, rfl, Token.noConfusion⟩

theorem value_lbracket {ts : List Token} (h : ∃ t ts', ts = t :: ts' ∧ t ≠ .rbracket) (n : ℕ)
    (rest : List Token) :
    value (n + 1) (.lbracket :: (ts ++ rest)) =
      (items n (ts ++ rest)).map fun result => (.arr result.1, result.2) := by
  obtain ⟨t, ts', rfl, hT⟩ := h
  rw [List.cons_append, value]
  rintro ts hEq
  exact hT (List.cons.inj hEq).1

theorem value_lbrace {ts : List Token} (h : ∃ t ts', ts = t :: ts' ∧ t ≠ .rbrace) (n : ℕ)
    (rest : List Token) :
    value (n + 1) (.lbrace :: (ts ++ rest)) =
      (members n (ts ++ rest)).map fun result => (.obj result.1, result.2) := by
  obtain ⟨t, ts', rfl, hT⟩ := h
  rw [List.cons_append, value]
  rintro ts hEq
  exact hT (List.cons.inj hEq).1

/-- The parser reads printed tokens as what they were printed from, for one depth. -/
structure ReadsPrinted (n : ℕ) : Prop where
  value : ∀ v, Plain v → (printed v).length ≤ n →
    ∀ rest, value n (printed v ++ rest) = some (v, rest)
  items : ∀ v vs, Plain v ∧ PlainItems vs → (printedItems (v :: vs)).length < n →
    ∀ rest, items n (printedItems (v :: vs) ++ .rbracket :: rest) = some (v :: vs, rest)
  members : ∀ m ms, PlainMembers (m :: ms) → (printedMembers (m :: ms)).length < n →
    ∀ rest, members n (printedMembers (m :: ms) ++ .rbrace :: rest) = some (m :: ms, rest)

theorem ReadsPrinted.value_succ {n : ℕ} (ih : ReadsPrinted n) (v : Json) (h : Plain v)
    (hN : (printed v).length ≤ n + 1) (rest : List Token) :
    PyJson.value (n + 1) (printed v ++ rest) = some (v, rest) := by
  cases v with
  | null => rfl
  | bool b => cases b <;> rfl
  | number w =>
      rw [Plain] at h
      rw [printed, List.singleton_append, PyJson.value, h.2]
      rfl
  | str codes =>
      rw [Plain] at h
      rw [printed, List.singleton_append, PyJson.value, decodeLiteral_plain h]
      rfl
  | arr vs =>
      rw [Plain] at h
      cases vs with
      | nil => rfl
      | cons v vs =>
          rw [PlainItems] at h
          rw [printed, List.length_cons, List.length_append, List.length_singleton] at hN
          rw [printed, List.cons_append, List.append_assoc, List.singleton_append,
            value_lbracket (printedItems_head v vs), ih.items v vs h (by omega) rest]
          rfl
  | obj ms =>
      rw [Plain] at h
      cases ms with
      | nil => rfl
      | cons m ms =>
          rw [printed, List.length_cons, List.length_append, List.length_singleton] at hN
          rw [printed, List.cons_append, List.append_assoc, List.singleton_append,
            value_lbrace (printedMembers_head m ms), ih.members m ms h (by omega) rest]
          rfl

theorem ReadsPrinted.items_succ {n : ℕ} (ih : ReadsPrinted n) (v : Json) (vs : List Json)
    (h : Plain v ∧ PlainItems vs) (hN : (printedItems (v :: vs)).length < n + 1)
    (rest : List Token) :
    PyJson.items (n + 1) (printedItems (v :: vs) ++ .rbracket :: rest) = some (v :: vs, rest) := by
  cases vs with
  | nil =>
      rw [printedItems] at hN ⊢
      rw [PyJson.items, ih.value v h.1 (Nat.le_of_lt_succ hN)]
  | cons w vs =>
      rw [printedItems, List.length_append, List.length_cons] at hN
      rw [printedItems, List.append_assoc, List.cons_append, PyJson.items,
        ih.value v h.1 (by omega)]
      rw [PlainItems] at h
      simp only [ih.items w vs h.2 (by omega) rest, Option.map_some]

theorem ReadsPrinted.members_succ {n : ℕ} (ih : ReadsPrinted n) (m : List ℕ × Json)
    (ms : List (List ℕ × Json)) (h : PlainMembers (m :: ms))
    (hN : (printedMembers (m :: ms)).length < n + 1) (rest : List Token) :
    PyJson.members (n + 1) (printedMembers (m :: ms) ++ .rbrace :: rest) =
      some (m :: ms, rest) := by
  obtain ⟨key, v⟩ := m
  rw [PlainMembers] at h
  cases ms with
  | nil =>
      rw [printedMembers, List.length_cons, List.length_cons] at hN
      rw [printedMembers, List.cons_append, List.cons_append, PyJson.members,
        decodeLiteral_plain h.1, ih.value v h.2.1 (by omega)]
  | cons m ms =>
      rw [printedMembers, List.length_cons, List.length_cons, List.length_append,
        List.length_cons] at hN
      rw [printedMembers, List.cons_append, List.cons_append, List.append_assoc, List.cons_append,
        PyJson.members, decodeLiteral_plain h.1, ih.value v h.2.1 (by omega)]
      simp only [ih.members m ms h.2.2 (by omega) rest, Option.map_some]

theorem readsPrinted (n : ℕ) : ReadsPrinted n := by
  induction n with
  | zero =>
      constructor
      · intro v _ hN
        exact absurd (List.length_eq_zero_iff.mp (Nat.le_zero.mp hN)) (printed_ne_nil v)
      · exact fun v vs _ hN => absurd hN (Nat.not_lt_zero _)
      · exact fun m ms _ hN => absurd hN (Nat.not_lt_zero _)
  | succ n ih => exact ⟨ih.value_succ, ih.items_succ, ih.members_succ⟩

end Tokens

section Texts

def tokenText : Token → Str
  | .lbrace => ['{']
  | .rbrace => ['}']
  | .lbracket => ['[']
  | .rbracket => [']']
  | .comma => [',']
  | .colon => [':']
  | .str raw => '"' :: (raw ++ ['"'])
  | .word w => w

/-- The text of tokens, cut at its literals. -/
def cut : List Token → List Str
  | [] => [[]]
  | .str raw :: ts => [] :: raw :: cut ts
  | t :: ts => prepend (tokenText t) (cut ts)

/-- The compact text of a value. -/
def dumps (v : Json) : Str := (printed v).flatMap tokenText

/-- Tokens that are read back from their text. -/
structure Spells (ts : List Token) : Prop where
  cut : WellCut (cut ts)
  lex : lexPieces (PyJson.cut ts) = ts
  text : quoted (PyJson.cut ts) = ts.flatMap tokenText

theorem Spells.nil : Spells [] := ⟨.last List.not_mem_nil, rfl, rfl⟩

/-- A text in front of the first piece. -/
theorem prepend_spells {ps : List Str} (h : WellCut ps) {front : Str} (hFront : '"' ∉ front) :
    WellCut (prepend front ps) ∧ quoted (prepend front ps) = front ++ quoted ps ∧
      ∃ gap, (∃ rest, ps = gap :: rest) ∧ ∀ ts, lexGap [] (front ++ gap) = ts ++ lexGap [] gap →
        lexPieces (prepend front ps) = ts ++ lexPieces ps := by
  have hQuote {gap : Str} (hGap : '"' ∉ gap) : '"' ∉ front ++ gap := by
    rw [List.mem_append, not_or]
    exact ⟨hFront, hGap⟩
  cases h with
  | @last gap hGap => exact ⟨.last (hQuote hGap), rfl, gap, ⟨_, rfl⟩, fun ts hTs => hTs⟩
  | @cons gap raw rest hGap hRaw hRest =>
      refine ⟨.cons (hQuote hGap) hRaw hRest, ?_, gap, ⟨_, rfl⟩, fun ts hTs => ?_⟩
      · rw [prepend, quoted_cons_cons hRest.ne_nil, quoted_cons_cons hRest.ne_nil,
          List.append_assoc]
      · rw [prepend, lexPieces_cons hRest.ne_nil, lexPieces_cons hRest.ne_nil, hTs,
          List.append_assoc]

theorem Spells.str {ts : List Token} (h : Spells ts) {raw : Str} (hRaw : Literal raw) :
    Spells (.str raw :: ts) where
  cut := .cons List.not_mem_nil hRaw h.cut
  lex := by
    rw [PyJson.cut, lexPieces_cons h.cut.ne_nil, h.lex]
    rfl
  text := by
    rw [PyJson.cut, quoted_cons_cons h.cut.ne_nil, h.text, List.flatMap_cons, tokenText]
    simp

theorem Spells.punctuation {ts : List Token} (h : Spells ts) {c : Char} {t : Token}
    (hC : punctuation? c = some t) : Spells (t :: ts) := by
  have hText : tokenText t = [c] ∧ PyJson.cut (t :: ts) = prepend [c] (PyJson.cut ts) := by
    unfold punctuation? at hC
    split at hC <;> cases hC <;> exact ⟨rfl, rfl⟩
  have hQuote : '"' ∉ [c] := by simpa using (quote_notMem_of_punctuation hC).symm
  obtain ⟨hCut, hQuoted, gap, -, hLex⟩ := prepend_spells h.cut hQuote
  constructor
  · rw [hText.2]
    exact hCut
  · rw [hText.2, hLex [t] (lexGap_punctuation [] gap hC), h.lex]
    rfl
  · rw [hText.2, hQuoted, h.text, List.flatMap_cons, hText.1]

/-- A word in front of a piece that goes on with punctuation or ends. -/
theorem lexGap_word_front {w gap : Str} (hW : WordText w)
    (hGap : ∀ word, word ≠ [] → lexGap word gap = closeWord word ++ lexGap [] gap) :
    lexGap [] (w ++ gap) = .word w :: lexGap [] gap := by
  have hLetters (word w' : Str) (hAll : ∀ c ∈ w', c ≠ '"' ∧ ¬ isJsonSpace c = true ∧
      punctuation? c = none) : lexGap word (w' ++ gap) = lexGap (w'.reverse ++ word) gap := by
    induction w' generalizing word with
    | nil => rfl
    | cons c w' ih =>
        rw [List.forall_mem_cons] at hAll
        rw [List.cons_append, lexGap_letter _ _ hAll.1.2.1 hAll.1.2.2, ih _ hAll.2,
          List.reverse_cons, List.append_assoc]
        rfl
  rw [hLetters [] w hW.2, List.append_nil,
    hGap _ (by simpa using hW.1), closeWord, if_neg (by simpa using hW.1), List.reverse_reverse]
  rfl

/-- No word stands in front. -/
def NoWord (ts : List Token) : Prop := ∀ w rest, ts ≠ .word w :: rest

/-- An open word ends where a piece begins that does not begin with a word. -/
theorem lexGap_cut_head {ts : List Token} (h : NoWord ts) {gap : Str} {rest : List Str}
    (hCut : cut ts = gap :: rest) (word : Str) :
    lexGap word gap = closeWord word ++ lexGap [] gap := by
  have hNil : lexGap word [] = closeWord word ++ lexGap [] [] := (List.append_nil _).symm
  have hPunctuation {c : Char} {t : Token} (hC : punctuation? c = some t)
      {ps : List Str} (hPs : prepend [c] ps = gap :: rest) :
      lexGap word gap = closeWord word ++ lexGap [] gap := by
    obtain ⟨gap', rfl⟩ : ∃ gap', gap = c :: gap' := by
      cases ps with
      | nil => exact ⟨[], (List.cons.inj hPs).1.symm⟩
      | cons p ps => exact ⟨p, (List.cons.inj hPs).1.symm⟩
    rw [lexGap_punctuation word gap' hC, lexGap_punctuation [] gap' hC]
    rfl
  cases ts with
  | nil =>
      obtain ⟨rfl, -⟩ := List.cons.inj hCut
      exact hNil
  | cons t ts =>
      cases t with
      | str raw =>
          obtain ⟨rfl, -⟩ := List.cons.inj hCut
          exact hNil
      | word w => exact absurd rfl (h w ts)
      | lbrace => exact hPunctuation (c := '{') rfl hCut
      | rbrace => exact hPunctuation (c := '}') rfl hCut
      | lbracket => exact hPunctuation (c := '[') rfl hCut
      | rbracket => exact hPunctuation (c := ']') rfl hCut
      | comma => exact hPunctuation (c := ',') rfl hCut
      | colon => exact hPunctuation (c := ':') rfl hCut

theorem Spells.word {ts : List Token} (h : Spells ts) {w : Str} (hW : WordText w)
    (hTs : NoWord ts) : Spells (.word w :: ts) := by
  obtain ⟨hCut, hQuoted, gap, ⟨rest, hHead⟩, hLex⟩ :=
    prepend_spells h.cut (fun hMem => (hW.2 _ hMem).1 rfl)
  have hText : PyJson.cut (.word w :: ts) = prepend w (PyJson.cut ts) := rfl
  constructor
  · exact hCut
  · have hWord := lexGap_word_front hW fun word _ => lexGap_cut_head hTs hHead word
    rw [hText, hLex [.word w] hWord, h.lex]
    rfl
  · rw [hText, hQuoted, h.text, List.flatMap_cons, tokenText]

theorem literal_plain {codes : List ℕ} (h : PlainText codes) : Literal (codes.map Char.ofNat) := by
  induction codes with
  | nil => rfl
  | cons k codes ih =>
      unfold PlainText at h
      rw [List.forall_mem_cons] at h
      obtain ⟨⟨hLow, hHigh, hQuote, hSlash⟩, hRest⟩ := h
      have hValue : (Char.ofNat k).toNat = k := toNat_ofNat hHigh
      have hNe {d : Char} (hD : k ≠ d.toNat) : Char.ofNat k ≠ d := by
        rintro rfl
        exact hD hValue.symm
      have hNotQuote : Char.ofNat k ≠ '"' := hNe hQuote
      have hNotSlash : Char.ofNat k ≠ '\\' := hNe hSlash
      rw [List.map_cons, Literal, escapes, if_neg hNotQuote, decide_eq_false hNotSlash]
      exact ih hRest

theorem NoWord.of_cons {t : Token} {ts : List Token} (h : ∀ w, t ≠ .word w) : NoWord (t :: ts) :=
  fun w _ hEq => h w (List.cons.inj hEq).1

/-- The tokens of values up to a length are read back from their text. -/
def SpellsValues (n : ℕ) : Prop :=
  ∀ v, Plain v → (printed v).length ≤ n → ∀ ts, Spells ts → NoWord ts → Spells (printed v ++ ts)

theorem SpellsValues.items {n : ℕ} (hValues : SpellsValues n) (vs : List Json) (h : PlainItems vs)
    (hN : (printedItems vs).length ≤ n) {ts : List Token} (hTs : Spells ts) (hWord : NoWord ts) :
    Spells (printedItems vs ++ ts) := by
  induction vs with
  | nil => exact hTs
  | cons v vs ih =>
      rw [PlainItems] at h
      cases vs with
      | nil =>
          rw [printedItems] at hN ⊢
          exact hValues v h.1 hN ts hTs hWord
      | cons w vs =>
          rw [printedItems, List.length_append, List.length_cons] at hN
          rw [printedItems, List.append_assoc, List.cons_append]
          apply hValues v h.1 (by omega)
          · exact (ih h.2 (by omega)).punctuation (c := ',') rfl
          · exact .of_cons fun w => Token.noConfusion

theorem SpellsValues.members {n : ℕ} (hValues : SpellsValues n) (ms : List (List ℕ × Json))
    (h : PlainMembers ms) (hN : (printedMembers ms).length ≤ n) {ts : List Token} (hTs : Spells ts)
    (hWord : NoWord ts) : Spells (printedMembers ms ++ ts) := by
  induction ms with
  | nil => exact hTs
  | cons m ms ih =>
      obtain ⟨key, v⟩ := m
      rw [PlainMembers] at h
      have hKey {behind : List Token} (hBehind : Spells behind) :
          Spells (.str (key.map Char.ofNat) :: .colon :: behind) :=
        (hBehind.punctuation (c := ':') rfl).str (literal_plain h.1)
      cases ms with
      | nil =>
          rw [printedMembers, List.length_cons, List.length_cons] at hN
          rw [printedMembers, List.cons_append, List.cons_append]
          exact hKey (hValues v h.2.1 (by omega) ts hTs hWord)
      | cons m ms =>
          rw [printedMembers, List.length_cons, List.length_cons, List.length_append,
            List.length_cons] at hN
          rw [printedMembers, List.cons_append, List.cons_append, List.append_assoc,
            List.cons_append]
          apply hKey
          apply hValues v h.2.1 (by omega)
          · exact (ih h.2.2 (by omega)).punctuation (c := ',') rfl
          · exact .of_cons fun w => Token.noConfusion

theorem spellsValues (n : ℕ) : SpellsValues n := by
  induction n with
  | zero =>
      intro v _ hN
      exact absurd (List.length_eq_zero_iff.mp (Nat.le_zero.mp hN)) (printed_ne_nil v)
  | succ n ih =>
      intro v h hN ts hTs hWord
      have hNamed {w : Str} (hW : WordText w) : Spells (.word w :: ts) := hTs.word hW hWord
      cases v with
      | null => exact hNamed ⟨by decide, by decide⟩
      | bool b =>
          cases b with
          | true => exact hNamed ⟨by decide, by decide⟩
          | false => exact hNamed ⟨by decide, by decide⟩
      | number w =>
          rw [Plain] at h
          exact hNamed h.1
      | str codes =>
          rw [Plain] at h
          exact hTs.str (literal_plain h)
      | arr vs =>
          rw [Plain] at h
          rw [printed, List.length_cons, List.length_append] at hN
          rw [printed, List.cons_append, List.append_assoc]
          apply Spells.punctuation (c := '[') _ rfl
          apply ih.items vs h (by omega)
          · exact hTs.punctuation (c := ']') rfl
          · exact .of_cons fun w => Token.noConfusion
      | obj ms =>
          rw [Plain] at h
          rw [printed, List.length_cons, List.length_append] at hN
          rw [printed, List.cons_append, List.append_assoc]
          apply Spells.punctuation (c := '{') _ rfl
          apply ih.members ms h (by omega)
          · exact hTs.punctuation (c := '}') rfl
          · exact .of_cons fun w => Token.noConfusion

theorem spells_printed {v : Json} (h : Plain v) : Spells (printed v) := by
  have hSpells := spellsValues _ v h (le_refl _) [] .nil fun w rest hEq => nomatch hEq
  rwa [List.append_nil] at hSpells

theorem reads_printed {v : Json} (h : Plain v) : Reads (cut (printed v)) v := by
  have hSpells := spells_printed h
  refine ⟨hSpells.cut, ?_⟩
  have hValue := (readsPrinted ((printed v).length + 1)).value v h (Nat.le_succ _) []
  rw [List.append_nil] at hValue
  rw [hSpells.lex]
  exact hValue

/-- The compact text of a plain value is read as the value. -/
theorem loads_dumps {v : Json} (h : Plain v) : loads (dumps v) = some v := by
  rw [dumps, ← (spells_printed h).text]
  exact (reads_printed h).loads

theorem dumps_obj (ms : List (List ℕ × Json)) :
    dumps (.obj ms) = '{' :: ((printedMembers ms).flatMap tokenText ++ ['}']) := by
  rw [dumps, printed, List.flatMap_cons, List.flatMap_append]
  rfl

/-- No proper prefix of the text of an object is read as an object. -/
theorem not_object_of_prefix {ms : List (List ℕ × Json)} (h : Plain (.obj ms)) {p : Str}
    (hPrefix : p <+: dumps (.obj ms)) (hProper : p ≠ dumps (.obj ms)) (ms' : List (List ℕ × Json)) :
    loads p ≠ some (.obj ms') := by
  intro hLoads
  apply hProper
  apply eq_of_object_prefix (loads_dumps h) rfl _ _ hPrefix hLoads rfl
  · rw [dumps_obj]
    rfl
  · rw [dumps_obj, ← List.cons_append]
    exact List.getLast?_concat

theorem length_dumps_str (codes : List ℕ) : (dumps (.str codes)).length = codes.length + 2 := by
  simp [dumps, printed, tokenText]

theorem length_dumps_obj (ms : List (List ℕ × Json)) :
    (dumps (.obj ms)).length = ((printedMembers ms).flatMap tokenText).length + 2 := by
  rw [dumps_obj, List.length_cons, List.length_append]
  rfl

theorem length_dumps_arr (vs : List Json) :
    (dumps (.arr vs)).length = ((printedItems vs).flatMap tokenText).length + 2 := by
  rw [dumps, printed, List.flatMap_cons, List.flatMap_append]
  simp [tokenText]

theorem length_members_cons (k : List ℕ) (v : Json) (ms : List (List ℕ × Json)) :
    ((printedMembers ((k, v) :: ms)).flatMap tokenText).length ≤
      k.length + 4 + (dumps v).length + ((printedMembers ms).flatMap tokenText).length := by
  cases ms with
  | nil =>
      rw [printedMembers, printedMembers, List.flatMap_cons, List.flatMap_cons, dumps]
      simp [tokenText]
      omega
  | cons m ms =>
      rw [printedMembers, List.flatMap_cons, List.flatMap_cons, List.flatMap_append,
        List.flatMap_cons, dumps]
      simp [tokenText]
      omega

theorem length_items_cons (v : Json) (vs : List Json) :
    ((printedItems (v :: vs)).flatMap tokenText).length ≤
      (dumps v).length + 1 + ((printedItems vs).flatMap tokenText).length := by
  cases vs with
  | nil =>
      rw [printedItems, printedItems, dumps]
      simp
  | cons w vs =>
      rw [printedItems, List.flatMap_append, List.flatMap_cons, dumps]
      simp [tokenText]
      omega

/-- The tokens that a plain value is printed with. -/
def Token.IsPlain : Token → Prop
  | .str raw => ∃ codes, raw = codes.map Char.ofNat ∧ PlainText codes
  | .word w => WordText w
  | _ => True

def PlainValues (n : ℕ) : Prop :=
  ∀ v, Plain v → (printed v).length ≤ n → ∀ t ∈ printed v, t.IsPlain

theorem PlainValues.items {n : ℕ} (hValues : PlainValues n) (vs : List Json) (h : PlainItems vs)
    (hN : (printedItems vs).length ≤ n) : ∀ t ∈ printedItems vs, t.IsPlain := by
  induction vs with
  | nil => exact fun t hT => absurd hT List.not_mem_nil
  | cons v vs ih =>
      rw [PlainItems] at h
      cases vs with
      | nil =>
          rw [printedItems] at hN ⊢
          exact hValues v h.1 hN
      | cons w vs =>
          rw [printedItems, List.length_append, List.length_cons] at hN
          rw [printedItems, List.forall_mem_append, List.forall_mem_cons]
          exact ⟨hValues v h.1 (by omega), trivial, ih h.2 (by omega)⟩

theorem PlainValues.members {n : ℕ} (hValues : PlainValues n) (ms : List (List ℕ × Json))
    (h : PlainMembers ms) (hN : (printedMembers ms).length ≤ n) :
    ∀ t ∈ printedMembers ms, t.IsPlain := by
  induction ms with
  | nil => exact fun t hT => absurd hT List.not_mem_nil
  | cons m ms ih =>
      obtain ⟨k, v⟩ := m
      rw [PlainMembers] at h
      cases ms with
      | nil =>
          rw [printedMembers, List.length_cons, List.length_cons] at hN
          rw [printedMembers, List.forall_mem_cons, List.forall_mem_cons]
          exact ⟨⟨k, rfl, h.1⟩, trivial, hValues v h.2.1 (by omega)⟩
      | cons m ms =>
          rw [printedMembers, List.length_cons, List.length_cons, List.length_append,
            List.length_cons] at hN
          rw [printedMembers, List.forall_mem_cons, List.forall_mem_cons, List.forall_mem_append,
            List.forall_mem_cons]
          exact ⟨⟨k, rfl, h.1⟩, trivial, hValues v h.2.1 (by omega), trivial,
            ih h.2.2 (by omega)⟩

theorem plainValues (n : ℕ) : PlainValues n := by
  induction n with
  | zero =>
      intro v _ hN
      exact absurd (List.length_eq_zero_iff.mp (Nat.le_zero.mp hN)) (printed_ne_nil v)
  | succ n ih =>
      intro v h hN
      cases v with
      | null => exact List.forall_mem_singleton.mpr ⟨by decide, by decide⟩
      | bool b => cases b <;> exact List.forall_mem_singleton.mpr ⟨by decide, by decide⟩
      | number w =>
          rw [Plain] at h
          exact List.forall_mem_singleton.mpr h.1
      | str codes =>
          rw [Plain] at h
          exact List.forall_mem_singleton.mpr ⟨codes, rfl, h⟩
      | arr vs =>
          rw [Plain] at h
          rw [printed, List.length_cons, List.length_append] at hN
          rw [printed, List.forall_mem_cons, List.forall_mem_append, List.forall_mem_singleton]
          exact ⟨trivial, ih.items vs h (by omega), trivial⟩
      | obj ms =>
          rw [Plain] at h
          rw [printed, List.length_cons, List.length_append] at hN
          rw [printed, List.forall_mem_cons, List.forall_mem_append, List.forall_mem_singleton]
          exact ⟨trivial, ih.members ms h (by omega), trivial⟩

/-- The compact text of a plain value is on one line. -/
theorem dumps_oneLine {v : Json} (h : Plain v) : ∀ c ∈ dumps v, c ≠ '\n' ∧ c ≠ '\r' := by
  intro c hC
  obtain ⟨t, hT, hIn⟩ := List.mem_flatMap.mp hC
  have hPlain := plainValues _ v h (le_refl _) t hT
  cases t with
  | str raw =>
      obtain ⟨codes, rfl, hCodes⟩ := hPlain
      rcases List.mem_cons.mp hIn with rfl | hIn
      · decide
      · rcases List.mem_append.mp hIn with hRaw | hQuote
        · obtain ⟨k, hK, rfl⟩ := List.mem_map.mp hRaw
          have hRange := hCodes k hK
          have hValue : (Char.ofNat k).toNat = k := toNat_ofNat (by omega)
          constructor
          · intro hEq
            rw [hEq] at hValue
            exact absurd hValue (by simp; omega)
          · intro hEq
            rw [hEq] at hValue
            exact absurd hValue (by simp; omega)
        · obtain rfl := List.mem_singleton.mp hQuote
          decide
  | word w =>
      have hLetter := hPlain.2 c hIn
      constructor
      · rintro rfl
        exact hLetter.2.1 rfl
      · rintro rfl
        exact hLetter.2.1 rfl
  | lbrace => obtain rfl := List.mem_singleton.mp hIn; decide
  | rbrace => obtain rfl := List.mem_singleton.mp hIn; decide
  | lbracket => obtain rfl := List.mem_singleton.mp hIn; decide
  | rbracket => obtain rfl := List.mem_singleton.mp hIn; decide
  | comma => obtain rfl := List.mem_singleton.mp hIn; decide
  | colon => obtain rfl := List.mem_singleton.mp hIn; decide

end Texts

end PyJson
