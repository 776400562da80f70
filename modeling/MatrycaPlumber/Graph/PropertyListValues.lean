import MatrycaPlumber.Graph.MldocProperties
import MatrycaPlumber.Text.Stripping

/-! The pieces of a property value between its top-level commas, and the round trip of the
values that are split at them. -/
namespace Plumber.MldocProperties

open PyText

/-- Where the scanner is behind a text without top-level commas: inside double quotes or not, and
the number of open links. There is no result when it meets a top-level comma. -/
def scan : Bool → ℕ → Str → Option (Bool × ℕ)
  | true, depth, '\\' :: _ :: s => scan true depth s
  | true, depth, c :: s => scan (c ≠ '"') depth s
  | false, depth, '"' :: s => scan true depth s
  | false, depth, '[' :: '[' :: s => scan false (depth + 1) s
  | false, depth + 1, ']' :: ']' :: s => scan false depth s
  | false, 0, ',' :: _ => none
  | false, depth, _ :: s => scan false depth s
  | quoted, depth, [] => some (quoted, depth)

section Steps

variable {c : Char} {s : Str} {depth : ℕ}

theorem scan_quoted (hEscape : ∀ d r, c = '\\' → s = d :: r → False) :
    scan true depth (c :: s) = scan (c ≠ '"') depth s := by
  rw [scan]
  exact hEscape

theorem scan_char (hQuote : c = '"' → False) (hOpen : ∀ r, c = '[' → s = '[' :: r → False)
    (hClose : ∀ d r, depth = d + 1 → c = ']' → s = ']' :: r → False)
    (hComma : depth = 0 → c = ',' → False) : scan false depth (c :: s) = scan false depth s := by
  rw [scan]
  · exact hQuote
  · exact hOpen
  · exact hClose
  · exact hComma

theorem splitValues_quoted (cur : Str) (hEscape : ∀ d r, c = '\\' → s = d :: r → False) :
    splitValues true depth cur (c :: s) = splitValues (c ≠ '"') depth (cur ++ [c]) s := by
  rw [splitValues]
  exact hEscape

theorem splitValues_char (cur : Str) (hQuote : c = '"' → False)
    (hOpen : ∀ r, c = '[' → s = '[' :: r → False)
    (hClose : ∀ d r, depth = d + 1 → c = ']' → s = ']' :: r → False)
    (hComma : depth = 0 → c = ',' → False) :
    splitValues false depth cur (c :: s) = splitValues false depth (cur ++ [c]) s := by
  rw [splitValues]
  · exact hQuote
  · exact hOpen
  · exact hClose
  · exact hComma

theorem splitValues_escape (cur : Str) : splitValues true depth cur ('\\' :: c :: s) =
    splitValues true depth (cur ++ ['\\', c]) s := rfl

theorem splitValues_quote (cur : Str) : splitValues false depth cur ('"' :: s) =
    splitValues true depth (cur ++ ['"']) s := rfl

theorem splitValues_open (cur : Str) : splitValues false depth cur ('[' :: '[' :: s) =
    splitValues false (depth + 1) (cur ++ "[[".toList) s := rfl

theorem splitValues_close (cur : Str) : splitValues false (depth + 1) cur (']' :: ']' :: s) =
    splitValues false depth (cur ++ "]]".toList) s := rfl

end Steps

/-- The text is cut at its top-level commas: no piece has one, and before each comma the quotes
and the links of its piece are closed. -/
structure Pieces (text : Str) (pieces : List Str) : Prop where
  join_eq : join [','] pieces = text
  closed : ∀ p ∈ pieces.dropLast, scan false 0 p = some (false, 0)
  last : ∀ p ∈ pieces.getLast?, (scan false 0 p).isSome

section Scanning

variable {quoted quoted' : Bool} {depth depth' : ℕ} {cur s t p : Str} {out : List Str}

/-- What stands in front of the first comma of a cut. -/
def IsFirst (p s : Str) : Prop := s = p ∨ ∃ rest, s = p ++ ',' :: rest

theorem IsFirst.head {c : Char} {p : Str} (h : IsFirst (c :: p) s) : ∃ rest, s = c :: rest := by
  rcases h with rfl | ⟨rest, rfl⟩
  · exact ⟨p, rfl⟩
  · exact ⟨p ++ ',' :: rest, rfl⟩

theorem isFirst_join (p : Str) (ps : List Str) : IsFirst p (join [','] (p :: ps)) := by
  cases ps with
  | nil => exact Or.inl rfl
  | cons q ps =>
      refine Or.inr ⟨join [','] (q :: ps), ?_⟩
      rw [join, List.append_assoc]
      rfl

/-- What the scanner gives from a state on, in terms of the pieces of the rest of the text. -/
def Cuts (quoted : Bool) (depth : ℕ) (cur s : Str) (out : List Str) : Prop :=
  ∃ p ps, join [','] (p :: ps) = s ∧ out = listPiece (cur ++ p) ++ ps.flatMap listPiece ∧
    (ps = [] → (scan quoted depth p).isSome) ∧
    (ps ≠ [] → scan quoted depth p = some (false, 0)) ∧
    (∀ q ∈ ps.dropLast, scan false 0 q = some (false, 0)) ∧
    ∀ q ∈ ps.getLast?, (scan false 0 q).isSome

/-- A token in front belongs to the first piece. -/
theorem Cuts.prepend (h : Cuts quoted' depth' (cur ++ t) s out)
    (hScan : ∀ p, IsFirst p s → scan quoted depth (t ++ p) = scan quoted' depth' p) :
    Cuts quoted depth cur (t ++ s) out := by
  obtain ⟨p, ps, rfl, rfl, hOnly, hMore, hClosed, hLast⟩ := h
  rw [← hScan p (isFirst_join p ps)] at hOnly hMore
  refine ⟨t ++ p, ps, ?_, ?_, hOnly, hMore, hClosed, hLast⟩
  · cases ps with
    | nil => rfl
    | cons q ps => rw [join, join, List.append_assoc, List.append_assoc, List.append_assoc]
  · rw [List.append_assoc]

theorem cuts_splitValues (quoted : Bool) (depth : ℕ) (cur s : Str) :
    Cuts quoted depth cur s (splitValues quoted depth cur s) := by
  fun_induction splitValues quoted depth cur s with
  | case1 depth cur c s ih => exact ih.prepend fun p _ => by rw [List.cons_append]; rfl
  | case2 depth cur c s hEscape ih =>
      refine ih.prepend fun p hFirst => ?_
      rw [List.singleton_append, scan_quoted]
      rintro d p' hSlash rfl
      obtain ⟨rest, hRest⟩ := hFirst.head
      exact hEscape d rest hSlash hRest
  | case3 depth cur s ih => exact ih.prepend fun p _ => rfl
  | case4 depth cur s ih => exact ih.prepend fun p _ => rfl
  | case5 depth cur s ih => exact ih.prepend fun p _ => rfl
  | case6 cur s ih =>
      obtain ⟨p, ps, rfl, hOut, hOnly, hMore, hClosed, hLast⟩ := ih
      refine ⟨[], p :: ps, ?_, ?_, nofun, fun _ => rfl, ?_, ?_⟩
      · rfl
      · rw [hOut, List.append_nil]
        rfl
      · intro q hMem
        cases ps with
        | nil => cases hMem
        | cons r ps =>
            rcases List.mem_cons.mp hMem with rfl | hRest
            · exact hMore (List.cons_ne_nil _ _)
            · exact hClosed q hRest
      · intro q hMem
        cases ps with
        | nil =>
            cases hMem
            exact hOnly rfl
        | cons r ps => exact hLast q hMem
  | case7 depth cur c s hQuote hOpen hClose hComma ih =>
      refine ih.prepend fun p hFirst => ?_
      rw [List.singleton_append, scan_char]
      · exact hQuote
      · rintro p' hBracket rfl
        obtain ⟨rest, hRest⟩ := hFirst.head
        exact hOpen rest hBracket hRest
      · rintro d p' hDepth hBracket rfl
        obtain ⟨rest, hRest⟩ := hFirst.head
        exact hClose d rest hDepth hBracket hRest
      · exact hComma
  | case8 quoted depth cur =>
      refine ⟨[], [], rfl, ?_, fun _ => ?_, fun h => absurd rfl h, nofun, nofun⟩
      · rw [List.append_nil, List.flatMap_nil, List.append_nil]
      · cases quoted <;> rfl

/-- The pieces of a text, and what becomes of them. -/
theorem exists_pieces (text : Str) : ∃ pieces, Pieces text pieces ∧
    splitValues false 0 [] text = pieces.flatMap listPiece := by
  obtain ⟨p, ps, hJoin, hOut, hOnly, hMore, hClosed, hLast⟩ := cuts_splitValues false 0 [] text
  refine ⟨p :: ps, ⟨hJoin, ?_, ?_⟩, hOut⟩
  · intro q hMem
    cases ps with
    | nil => cases hMem
    | cons r ps =>
        rcases List.mem_cons.mp hMem with rfl | hRest
        · exact hMore (List.cons_ne_nil _ _)
        · exact hClosed q hRest
  · intro q hMem
    cases ps with
    | nil =>
        cases hMem
        exact hOnly rfl
    | cons r ps => exact hLast q hMem

end Scanning

section Again

variable {quoted : Bool} {depth e : ℕ} {cur x y a b p : Str}

/-- The scanner runs over a text that it has closed, and goes on behind it. -/
theorem splitValues_append (h : scan quoted depth x = some (false, e))
    (hHead : ∀ c ∈ y.head?, c ≠ '[' ∧ c ≠ ']') (cur : Str) :
    splitValues quoted depth cur (x ++ y) = splitValues false e (cur ++ x) y := by
  have hNext {c d : Char} {s r : Str} (hd : d = '[' ∨ d = ']') (hSplit : s ++ y = d :: r) :
      ∃ r', s = d :: r' := by
    cases s with
    | nil =>
        have hFirst := hHead d (by rw [show y = d :: r from hSplit]; rfl)
        rcases hd with rfl | rfl
        · exact absurd rfl hFirst.1
        · exact absurd rfl hFirst.2
    | cons k s =>
        rw [List.cons_append, List.cons.injEq] at hSplit
        exact ⟨s, by rw [hSplit.1]⟩
  fun_induction scan quoted depth x generalizing cur with
  | case1 depth c s ih =>
      rw [List.cons_append, List.cons_append, splitValues_escape, ih h, List.append_assoc]
      rfl
  | case2 depth c s hEscape ih =>
      have hSlash : c ≠ '\\' := by
        rintro rfl
        cases s with
        | nil => cases h
        | cons d s => exact hEscape d s rfl rfl
      rw [List.cons_append, splitValues_quoted, ih h, List.append_assoc]
      · rfl
      · exact fun d r hEq => absurd hEq hSlash
  | case3 depth s ih =>
      rw [List.cons_append, splitValues_quote, ih h, List.append_assoc]
      rfl
  | case4 depth s ih =>
      rw [List.cons_append, List.cons_append, splitValues_open, ih h, List.append_assoc]
      rfl
  | case5 depth s ih =>
      rw [List.cons_append, List.cons_append, splitValues_close, ih h, List.append_assoc]
      rfl
  | case6 => cases h
  | case7 depth c s hQuote hOpen hClose hComma ih =>
      rw [List.cons_append, splitValues_char, ih h, List.append_assoc]
      · rfl
      · exact hQuote
      · intro r hBracket hSplit
        obtain ⟨r', hRest⟩ := hNext (c := c) (Or.inl rfl) hSplit
        exact hOpen r' hBracket hRest
      · intro d r hDepth hBracket hSplit
        obtain ⟨r', hRest⟩ := hNext (c := c) (Or.inr rfl) hSplit
        exact hClose d r' hDepth hBracket hRest
      · exact hComma
  | case8 quoted depth =>
      cases h
      rw [List.nil_append, List.append_nil]

/-- A text without top-level commas is one piece. -/
theorem splitValues_of_scan (h : (scan quoted depth x).isSome) (cur : Str) :
    splitValues quoted depth cur x = listPiece (cur ++ x) := by
  fun_induction scan quoted depth x generalizing cur with
  | case1 depth c s ih => rw [splitValues_escape, ih h, List.append_assoc]; rfl
  | case2 depth c s hEscape ih =>
      rw [splitValues_quoted, ih h, List.append_assoc]
      · rfl
      · exact hEscape
  | case3 depth s ih => rw [splitValues_quote, ih h, List.append_assoc]; rfl
  | case4 depth s ih => rw [splitValues_open, ih h, List.append_assoc]; rfl
  | case5 depth s ih => rw [splitValues_close, ih h, List.append_assoc]; rfl
  | case6 => cases h
  | case7 depth c s hQuote hOpen hClose hComma ih =>
      rw [splitValues_char, ih h, List.append_assoc]
      · rfl
      · exact hQuote
      · exact hOpen
      · exact hClose
      · exact hComma
  | case8 quoted depth =>
      rw [List.append_nil]
      cases quoted <;> rfl

theorem scan_of_isSpace {c : Char} (hc : isSpace c = true) (s : Str) :
    scan false depth (c :: s) = scan false depth s := by
  rw [scan_char]
  · rintro rfl
    exact absurd hc (by decide)
  · rintro r rfl
    exact absurd hc (by decide)
  · rintro d r - rfl
    exact absurd hc (by decide)
  · rintro - rfl
    exact absurd hc (by decide)

theorem scan_blank_append (ha : ∀ c ∈ a, isSpace c = true) (s : Str) :
    scan false depth (a ++ s) = scan false depth s := by
  induction a with
  | nil => rfl
  | cons c a ih =>
      rw [List.forall_mem_cons] at ha
      rw [List.cons_append, scan_of_isSpace ha.1, ih ha.2]

/-- Whitespace does not close a quote. -/
theorem scan_quoted_blank (hb : ∀ c ∈ b, isSpace c = true) : scan true depth b = some (true, depth) := by
  induction b with
  | nil => rfl
  | cons c b ih =>
      rw [List.forall_mem_cons] at hb
      have hQuote : c ≠ '"' := by
        rintro rfl
        exact absurd hb.1 (by decide)
      rw [scan_quoted, decide_eq_true hQuote, ih hb.2]
      rintro d r rfl
      exact absurd hb.1 (by decide)

/-- The scanner is where it is in front of whitespace, unless that is quoted. -/
theorem scan_append_blank (hb : ∀ c ∈ b, isSpace c = true) :
    ((scan quoted depth (x ++ b)).isSome → (scan quoted depth x).isSome) ∧
      (scan quoted depth (x ++ b) = some (false, e) → scan quoted depth x = some (false, e)) := by
  have hNext {d : Char} {s r : Str} (hd : isSpace d = false) (hSplit : s ++ b = d :: r) :
      ∃ r', s = d :: r' := by
    cases s with
    | nil =>
        have hSpace := hb d (by rw [show b = d :: r from hSplit]; exact List.mem_cons_self)
        rw [hd] at hSpace
        cases hSpace
    | cons k s =>
        rw [List.cons_append, List.cons.injEq] at hSplit
        exact ⟨s, by rw [hSplit.1]⟩
  fun_induction scan quoted depth x with
  | case1 depth c s ih => exact ih
  | case2 depth c s hEscape ih =>
      by_cases hSlash : c = '\\'
      · subst hSlash
        cases s with
        | cons d s => exact absurd rfl (hEscape d s rfl)
        | nil =>
            refine ⟨fun _ => rfl, fun h => ?_⟩
            cases b with
            | nil => cases h
            | cons d b =>
                rw [List.forall_mem_cons] at hb
                have hEscaped : scan true depth ('\\' :: d :: b) = scan true depth b := rfl
                rw [List.singleton_append, hEscaped, scan_quoted_blank hb.2] at h
                cases h
      · rw [List.cons_append, scan_quoted]
        · exact ih
        · exact fun d r hEq => absurd hEq hSlash
  | case3 depth s ih => exact ih
  | case4 depth s ih => exact ih
  | case5 depth s ih => exact ih
  | case6 s => exact ⟨nofun, nofun⟩
  | case7 depth c s hQuote hOpen hClose hComma ih =>
      rw [List.cons_append, scan_char]
      · exact ih
      · exact hQuote
      · intro r hBracket hSplit
        obtain ⟨r', hRest⟩ := hNext (by decide) hSplit
        exact hOpen r' hBracket hRest
      · intro d r hDepth hBracket hSplit
        obtain ⟨r', hRest⟩ := hNext (by decide) hSplit
        exact hClose d r' hDepth hBracket hRest
      · exact hComma
  | case8 quoted depth =>
      rw [List.nil_append]
      cases quoted with
      | true =>
          rw [scan_quoted_blank hb]
          exact ⟨id, id⟩
      | false =>
          have hBlank : scan false depth (b ++ []) = scan false depth [] := scan_blank_append hb []
          rw [List.append_nil] at hBlank
          rw [hBlank]
          exact ⟨id, id⟩

/-- A value is scanned as the piece it is taken from. -/
theorem scan_strip (p : Str) : ((scan false 0 p).isSome → (scan false 0 (strip p)).isSome) ∧
    (scan false 0 p = some (false, 0) → scan false 0 (strip p) = some (false, 0)) := by
  obtain ⟨a, b, hText, ha, hb⟩ := exists_ends_of_strip p
  have hScan : scan false 0 p = scan false 0 (strip p ++ b) := by
    conv_lhs => rw [hText, scan_blank_append ha]
  rw [hScan]
  exact scan_append_blank hb

end Again

section RoundTrip

/-- Values that are scanned as they are when they are joined. -/
structure Joinable (items : List Str) : Prop where
  value : ∀ x ∈ items, x ≠ [] ∧ strip x = x ∧ (scan false 0 x).isSome
  closed : items.Pairwise fun x _ => scan false 0 x = some (false, 0)

theorem flatMap_listPiece (pieces : List Str) :
    pieces.flatMap listPiece = (pieces.map strip).filter (· ≠ []) := by
  induction pieces with
  | nil => rfl
  | cons p pieces ih =>
      rw [List.flatMap_cons, ih, List.map_cons, List.filter_cons, listPiece]
      by_cases h : strip p = []
      · simp [h]
      · simp [h]

theorem pairwise_of_dropLast {P : Str → Prop} {l : List Str} (h : ∀ p ∈ l.dropLast, P p) :
    l.Pairwise fun p _ => P p := by
  induction l with
  | nil => exact List.Pairwise.nil
  | cons p l ih =>
      cases l with
      | nil => exact List.pairwise_singleton _ _
      | cons q l =>
          rw [List.dropLast_cons_cons, List.forall_mem_cons] at h
          exact List.pairwise_cons.mpr ⟨fun _ _ => h.1, ih h.2⟩

theorem Pieces.isSome {text : Str} {pieces : List Str} (h : Pieces text pieces) {p : Str}
    (hp : p ∈ pieces) : (scan false 0 p).isSome := by
  rcases List.eq_nil_or_concat' pieces with rfl | ⟨init, q, rfl⟩
  · cases hp
  · rcases List.mem_append.mp hp with hInit | hLast
    · rw [h.closed p (by rwa [List.dropLast_concat])]
      rfl
    · rw [List.mem_singleton.mp hLast]
      exact h.last q List.getLast?_concat

/-- The values of a text can be joined. -/
theorem Pieces.joinable {text : Str} {pieces : List Str} (h : Pieces text pieces) :
    Joinable (pieces.flatMap listPiece) := by
  rw [flatMap_listPiece]
  constructor
  · intro x hx
    obtain ⟨hMem, hNe⟩ := List.mem_filter.mp hx
    obtain ⟨p, hp, rfl⟩ := List.mem_map.mp hMem
    exact ⟨by simpa using hNe, strip_strip p, (scan_strip p).1 (h.isSome hp)⟩
  · apply List.Pairwise.filter
    rw [List.pairwise_map]
    exact (pairwise_of_dropLast h.closed).imp fun hClosed => (scan_strip _).2 hClosed

theorem listPiece_blank_append {cur x : Str} (hCur : lstrip cur = []) (hNe : x ≠ [])
    (hx : strip x = x) : listPiece (cur ++ x) = [x] := by
  have hStrip : strip (cur ++ x) = x := by rw [strip, lstrip_append_of_blank hCur, ← strip, hx]
  rw [listPiece, hStrip, if_neg hNe]

/-- The values come back when they are joined with a comma and a space. -/
theorem splitValues_join {items : List Str} (h : Joinable items) :
    ∀ {cur : Str}, lstrip cur = [] → splitValues false 0 cur (join ", ".toList items) = items := by
  obtain ⟨hValue, hClosed⟩ := h
  induction items with
  | nil =>
      intro cur hCur
      have hBlank : strip cur = [] := by rw [strip, hCur]; rfl
      rw [join, splitValues_of_scan rfl, List.append_nil, listPiece, if_pos hBlank]
  | cons x items ih =>
      intro cur hCur
      rw [List.forall_mem_cons] at hValue
      obtain ⟨⟨hNe, hStrip, hSome⟩, hRest⟩ := hValue
      rw [List.pairwise_cons] at hClosed
      cases items with
      | nil => rw [join, splitValues_of_scan hSome, listPiece_blank_append hCur hNe hStrip]
      | cons y items =>
          have hText : join ", ".toList (x :: y :: items) =
              x ++ ',' :: ' ' :: join ", ".toList (y :: items) := by
            rw [join, List.append_assoc]
            rfl
          have hComma (s : Str) : splitValues false 0 (cur ++ x) (',' :: ' ' :: s) =
              listPiece (cur ++ x) ++ splitValues false 0 [' '] s := rfl
          rw [hText, splitValues_append (hClosed.1 y List.mem_cons_self) (by simp), hComma,
            listPiece_blank_append hCur hNe hStrip, ih hRest hClosed.2 (by decide)]
          rfl

/-- Joined values have no outer whitespace. -/
theorem strip_join {items : List Str} (h : Joinable items) :
    strip (join ", ".toList items) = join ", ".toList items := by
  obtain ⟨hValue, -⟩ := h
  have hLast : ∀ {items : List Str}, items ≠ [] → ∃ front x, x ∈ items ∧
      join ", ".toList items = front ++ x := by
    intro items
    induction items with
    | nil => exact fun hNil => absurd rfl hNil
    | cons x items ih =>
        intro _
        cases items with
        | nil => exact ⟨[], x, List.mem_cons_self, rfl⟩
        | cons y items =>
            obtain ⟨front, z, hz, hEq⟩ := ih (List.cons_ne_nil _ _)
            refine ⟨x ++ ", ".toList ++ front, z, List.mem_cons_of_mem _ hz, ?_⟩
            rw [join, hEq, List.append_assoc _ front]
  rw [strip_eq_self_iff]
  constructor
  · intro c t hHead
    cases items with
    | nil => cases hHead
    | cons x items =>
        obtain ⟨hNe, hStrip, -⟩ := hValue x List.mem_cons_self
        cases x with
        | nil => exact absurd rfl hNe
        | cons d x =>
            have hFirst : d = c := by
              cases items with
              | nil => exact (List.cons.inj hHead).1
              | cons y items => exact (List.cons.inj hHead).1
            rw [← hFirst]
            exact (strip_eq_self_iff.mp hStrip).1 d x rfl
  · intro c t hEnd
    have hItems : items ≠ [] := by
      rintro rfl
      exact absurd hEnd (by simp [join])
    obtain ⟨front, x, hx, hEq⟩ := hLast hItems
    obtain ⟨hNe, hStrip, -⟩ := hValue x hx
    obtain ⟨x, d, rfl⟩ := (List.eq_nil_or_concat' x).resolve_left hNe
    rw [hEq, ← List.append_assoc] at hEnd
    rw [← (List.cons.inj (List.append_inj' hEnd rfl).2).1]
    exact (strip_eq_self_iff.mp hStrip).2 d x rfl

end RoundTrip

/-- The values are what is not blank of the pieces between the top-level commas, and they come
back when they are joined and split again. -/
theorem splitLogseqPropertyListValues_round_trip (v : Str) :
    splitLogseqPropertyListValues (join ", ".toList (splitLogseqPropertyListValues v)) =
        splitLogseqPropertyListValues v ∧
      ∃ pieces, Pieces (strip v) pieces ∧
        splitLogseqPropertyListValues v = (pieces.map strip).filter (· ≠ []) := by
  obtain ⟨pieces, hPieces, hValues⟩ := exists_pieces (strip v)
  rw [splitLogseqPropertyListValues, splitLogseqPropertyListValues, hValues]
  refine ⟨?_, pieces, hPieces, flatMap_listPiece pieces⟩
  rw [strip_join hPieces.joinable]
  exact splitValues_join hPieces.joinable rfl

/-- An empty piece between two commas is no value. -/
theorem empty_piece_dropped : Pieces "a,,b".toList ["a".toList, [], "b".toList] ∧
    splitLogseqPropertyListValues "a,,b".toList ≠ ["a".toList, [], "b".toList].map strip :=
  ⟨⟨by decide, by decide, by decide⟩, by decide⟩

end Plumber.MldocProperties
