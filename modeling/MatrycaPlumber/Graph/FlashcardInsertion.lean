import MatrycaPlumber.Graph.Flashcards

/-! When the cards of a block are put into the page that stands there at the time. -/
namespace Plumber.Flashcards

open PyText MarkdownBlocks MldocProperties SemanticIndex

section Texts

variable {casefold : Str → Str} {s l x left right : Str} {c : Char} {pair : Str × Str}

theorem partition_eq_some {sep : Str} (h : partition sep s = some (left, right)) :
    s = left ++ sep ++ right := by
  induction s generalizing left right with
  | nil => cases h
  | cons c s ih =>
      rw [partition] at h
      split at h
      · next after hDrop =>
          obtain ⟨rfl, rfl⟩ := Prod.mk.inj (Option.some.inj h)
          exact dropPrefix?_eq_some.mp hDrop
      · obtain ⟨⟨first, second⟩, hRest, hEq⟩ := Option.map_eq_some_iff.mp h
        obtain ⟨rfl, rfl⟩ := Prod.mk.inj hEq
        rw [ih hRest]
        rfl

/-- Of what is stripped out of a line nothing is a line boundary. -/
theorem free_strip (hLine : LinePiece l) (hInfix : x <:+: l) :
    ∀ c ∈ strip x, isLineBreak c = false := by
  intro c hc
  obtain ⟨init, rest, hEq⟩ := List.append_of_mem hc
  obtain ⟨before, after, hl⟩ := (strip_isInfix x).trans hInfix
  by_cases hLast : rest ++ after = []
  · obtain ⟨rfl, rfl⟩ := List.append_eq_nil_iff.mp hLast
    apply not_isLineBreak_of_not_isSpace
    by_contra hSpace
    rw [Bool.not_eq_false] at hSpace
    have hStripped := rstrip_strip x
    rw [hEq, rstrip, List.rdropWhile_concat_pos _ _ _ hSpace] at hStripped
    have := congrArg List.length hStripped
    have hLength : (init.rdropWhile isSpace).length ≤ init.length :=
      (List.rdropWhile_prefix _ _).length_le
    rw [List.length_append, List.length_singleton] at this
    omega
  · obtain ⟨d, tail, hTail⟩ := List.exists_cons_of_ne_nil hLast
    have hSplit : l = (before ++ init ++ [c]) ++ d :: tail := by
      rw [← hl, hEq, ← hTail]
      simp
    rw [hSplit] at hLine
    exact hLine.free_of_append_cons c (by simp)

theorem free_of_parse (hLine : LinePiece l) (h : parseSrsPairFromBullet casefold s = some pair)
    (hs : s <:+: l) : (∀ c ∈ pair.1, isLineBreak c = false) ∧ ∀ c ∈ pair.2, isLineBreak c = false := by
  rw [parseSrsPairFromBullet] at h
  dsimp only at h
  split_ifs at h
  split at h
  · cases h
  · next left right hPart =>
      split_ifs at h
      obtain rfl := Option.some.inj h
      have hBody := free_strip hLine (((List.drop_suffix 1 (lstrip s)).trans
        (List.dropWhile_suffix _)).isInfix.trans hs)
      rw [partition_eq_some hPart] at hBody
      constructor
      · intro c hc
        apply hBody
        have := (strip_isInfix left).subset hc
        simp [this]
      · intro c hc
        apply hBody
        have := (strip_isInfix right).subset hc
        simp [this]

/-- No text of a card runs over the end of a line. -/
theorem free_of_mem_extract (lines : List Str) (hLines : ∀ l ∈ lines, LinePiece l)
    (h : pair ∈ extractPairsFromBlockText casefold (lines.map (rstripChars ['\n']))) :
    (∀ c ∈ pair.1, isLineBreak c = false) ∧ ∀ c ∈ pair.2, isLineBreak c = false := by
  rw [extractPairsFromBlockText, List.mem_filterMap] at h
  obtain ⟨raw, hRaw, hPair⟩ := h
  obtain ⟨line, hMem, rfl⟩ := List.mem_map.mp hRaw
  dsimp only at hPair
  split_ifs at hPair
  apply free_of_parse (hLines line hMem) hPair
  exact ((List.rdropWhile_prefix _ _).trans (List.rdropWhile_prefix _ _)).isInfix

end Texts

section Cards

variable {indent : Str} {newId : ℕ → Uuid} {pair : Str × Str} {pairs : List (Str × Str)} {k : ℕ}

theorem cardLine_eq (indent : Str) (pair : Str × Str) :
    cardLine indent pair = indent ++ cardPreview pair ++ ['\n'] := by
  simp [cardLine, cardPreview]

theorem hash_cardLine (indent : Str) (pair : Str × Str) : '#' ∈ cardLine indent pair := by
  simp [cardLine]

theorem hash_idLine (hIndent : isBlank indent = true) (cid : Uuid) : '#' ∉ idLine indent cid := by
  rw [isBlank, List.all_eq_true] at hIndent
  simp only [idLine, List.mem_append, not_or]
  refine ⟨⟨⟨?_, by decide⟩, ?_⟩, by decide⟩
  · intro hMem
    exact absurd (hIndent _ hMem) (by decide)
  · intro hMem
    rcases cid.hex_or_dash hMem with hHex | hDash
    · exact absurd hHex (by decide)
    · exact absurd hDash (by decide)

theorem bulletIndent?_cardLine (hIndent : isBlank indent = true) (pair : Str × Str) :
    bulletIndent? (stripLineEndings (cardLine indent pair)) = some indent := by
  rw [bulletIndent?_eq_some]
  refine ⟨'-', ' ', (pair.1 ++ " #card ".toList ++ pair.2 ++ ['\n']).rdropWhile
    (fun c => ['\r', '\n'].contains c), ?_, hIndent, rfl, rfl⟩
  have hLine : cardLine indent pair =
      (indent ++ ['-']) ++ ' ' :: (pair.1 ++ " #card ".toList ++ pair.2 ++ ['\n']) := by
    simp [cardLine]
  rw [stripLineEndings, rstripChars, hLine, rdropWhile_append_cons _ _ (by decide),
    List.append_assoc]
  rfl

theorem bulletIndent?_idLine (hIndent : isBlank indent = true) (cid : Uuid) :
    bulletIndent? (stripLineEndings (idLine indent cid)) = none := by
  rw [← Option.not_isSome_iff_eq_none, Option.isSome_iff_exists]
  rintro ⟨ws, hBullet⟩
  have hLine : idLine indent cid =
      (indent ++ "  ".toList) ++ 'i' :: ("d:: ".toList ++ cid.text ++ ['\n']) := by
    simp [idLine]
  rw [stripLineEndings, rstripChars, hLine, rdropWhile_append_cons _ _ (by decide)] at hBullet
  have hBlank : ∀ c ∈ indent ++ "  ".toList, isSpace c = true := by
    rw [isBlank, List.all_eq_true] at hIndent
    exact List.forall_mem_append.mpr ⟨hIndent, by decide⟩
  rw [bulletIndent?, List.dropWhile_append_of_pos hBlank, List.dropWhile_cons_of_neg (by decide)]
    at hBullet
  split at hBullet
  · next m c rest hEq =>
      obtain ⟨rfl, _⟩ := List.cons.inj hEq
      cases hBullet
  · cases hBullet

theorem closed_cardLine (hIndent : ∀ c ∈ indent, isLineBreak c = false)
    (hq : ∀ c ∈ pair.1, isLineBreak c = false) (ha : ∀ c ∈ pair.2, isLineBreak c = false) :
    Closed (cardLine indent pair) := by
  apply closed_append_newline
  simp only [List.forall_mem_append]
  exact ⟨⟨⟨⟨hIndent, by decide⟩, hq⟩, by decide⟩, ha⟩

theorem closed_idLine (hIndent : ∀ c ∈ indent, isLineBreak c = false) (cid : Uuid) :
    Closed (idLine indent cid) := by
  apply closed_append_newline
  simp only [List.forall_mem_append]
  exact ⟨⟨hIndent, by decide⟩, fun c hc => not_isLineBreak_of_not_isSpace (cid.not_isSpace hc)⟩

theorem closed_insertLines (hIndent : ∀ c ∈ indent, isLineBreak c = false)
    (hPairs : ∀ pair ∈ pairs, (∀ c ∈ pair.1, isLineBreak c = false) ∧
      ∀ c ∈ pair.2, isLineBreak c = false) :
    ∀ l ∈ insertLines indent newId k pairs, Closed l := by
  induction pairs generalizing k with
  | nil => simp [insertLines]
  | cons pair pairs ih =>
      rw [List.forall_mem_cons] at hPairs
      rw [insertLines, List.forall_mem_cons, List.forall_mem_cons]
      exact ⟨closed_cardLine hIndent hPairs.1.1 hPairs.1.2, closed_idLine hIndent _, ih hPairs.2⟩

theorem length_insertLines (indent : Str) (newId : ℕ → Uuid) (k : ℕ) (pairs : List (Str × Str)) :
    (insertLines indent newId k pairs).length = 2 * pairs.length := by
  induction pairs generalizing k with
  | nil => rfl
  | cons pair pairs ih =>
      rw [insertLines, List.length_cons, List.length_cons, ih, List.length_cons]
      omega

/-- The lines are a card and its identifier by turns. -/
theorem getElem?_insertLines {j : ℕ} (hj : j < pairs.length) :
    (insertLines indent newId k pairs)[2 * j]? = (pairs[j]?).map (cardLine indent) ∧
      (insertLines indent newId k pairs)[2 * j + 1]? = some (idLine indent (newId (k + j))) := by
  induction pairs generalizing j k with
  | nil => cases hj
  | cons pair pairs ih =>
      cases j with
      | zero => exact ⟨rfl, rfl⟩
      | succ j =>
          obtain ⟨hCard, hId⟩ := ih (Nat.lt_of_succ_lt_succ hj) (k := k + 1)
          rw [insertLines, show 2 * (j + 1) = 2 * j + 1 + 1 by omega]
          simp only [List.getElem?_cons_succ]
          rw [hCard, hId, show k + 1 + j = k + (j + 1) by omega]
          exact ⟨rfl, rfl⟩

/-- The lines of the cards, from their previews. -/
theorem insertLines_congr {others : List (Str × Str)}
    (h : pairs.map cardPreview = others.map cardPreview) :
    insertLines indent newId k pairs = insertLines indent newId k others := by
  induction pairs generalizing others k with
  | nil =>
      cases others with
      | nil => rfl
      | cons other others => cases h
  | cons pair pairs ih =>
      cases others with
      | nil => cases h
      | cons other others =>
          obtain ⟨hPair, hRest⟩ := List.cons.inj h
          rw [insertLines, insertLines, ih hRest, cardLine_eq, cardLine_eq, hPair]

end Cards

section Calls

variable {tables : CaseTables} {casefold : Str → Str} {file : PageFile} {u : Str} {maxCards : ℤ}
  {dryRun : Bool} {newId : ℕ → Uuid} {r : FlashcardAppendResult} {written : Option Str}
  {lines : List Str} {b i e : ℕ}

theorem stripLineEndings_rstripChars (line : Str) :
    stripLineEndings (rstripChars ['\n'] line) = stripLineEndings line := by
  rw [stripLineEndings, stripLineEndings, rstripChars, rstripChars, rstripChars]
  induction line using List.reverseRecOn with
  | nil => rfl
  | append_singleton line c ih =>
      by_cases hc : c = '\n'
      · subst hc
        rw [List.rdropWhile_concat_pos (fun c => ['\n'].contains c) _ _ (by decide),
          List.rdropWhile_concat_pos _ _ _ (by decide), ih]
      · rw [List.rdropWhile_concat_neg (fun c => ['\n'].contains c) _ _ (by simpa using hc)]

theorem rstripChars_of_linePiece {line : Str} (h : LinePiece line) :
    rstripChars ['\n'] line = stripLineEndings line := by
  have hSame : rstripChars ['\n'] line = stripLineEndings (rstripChars ['\n'] line) := by
    rw [stripLineEndings, rstripChars, rstripChars, Eq.comm, List.rdropWhile_eq_self_iff]
    intro hne
    have hLast := List.rdropWhile_last_not (fun c => ['\n'].contains c) line hne
    have hMem := (List.rdropWhile_prefix (fun c => ['\n'].contains c) line).subset
      (List.getLast_mem hne)
    generalize (line.rdropWhile fun c => ['\n'].contains c).getLast hne = c at hLast hMem
    have hCr : c ≠ '\r' := by
      rintro rfl
      exact h.cr_notMem hMem
    simpa [hCr] using hLast
  rw [hSame, stripLineEndings_rstripChars]

theorem locateBlockByUuid_rstrip (lines : List Str) :
    locateBlockByUuid tables (lines.map (rstripChars ['\n'])) u =
      locateBlockByUuid tables lines u := by
  have hSame : stripLinesForMatch (lines.map (rstripChars ['\n'])) = stripLinesForMatch lines := by
    simp [stripLinesForMatch, stripLineEndings_rstripChars]
  rw [locateBlockByUuid, hSame]
  rfl

/-- What a call that reports `applied` has done. -/
structure Applied (tables : CaseTables) (u : Str) (newId : ℕ → Uuid) (lines : List Str)
    (cardsPreview : List Str) (written : Option Str) (pairs : List (Str × Str)) (b i e : ℕ) :
    Prop where
  located : locateBlockByUuid tables lines u = some (b, i, e)
  nonempty : pairs ≠ []
  free : ∀ pair ∈ pairs, (∀ c ∈ pair.1, isLineBreak c = false) ∧ ∀ c ∈ pair.2, isLineBreak c = false
  previews : cardsPreview = pairs.map cardPreview
  written : written = some (splice lines e (insertLines (childIndent lines b) newId 0 pairs)).flatten

theorem writePage_eq_ok {new text : Str} (h : writePage file new = .ok text) : text = new := by
  rw [writePage] at h
  split_ifs at h
  exact (Except.ok.inj h).symm

theorem appendUnderBlock_applied {path : Str} (hLines : ∀ l ∈ lines, LinePiece l)
    (h : appendUnderBlock tables casefold file path lines u maxCards dryRun newId = .ok (r, written))
    (hApplied : r.code = .applied) :
    ∃ pairs b i e, Applied tables u newId lines r.cardsPreview written pairs b i e := by
  rw [appendUnderBlock, locateBlockByUuid_rstrip] at h
  dsimp only at h
  split at h
  · cases h
    cases hApplied
  · next b i e hLocated =>
      split_ifs at h with hPairs hDry
      · cases h
        cases hApplied
      · cases h
        cases hApplied
      · split at h
        · cases h
        · next text hText =>
            cases h
            refine ⟨_, b, i, e, hLocated, hPairs, ?_, rfl, ?_⟩
            · intro pair hPair
              apply free_of_mem_extract (slice lines b e)
              · intro l hl
                exact hLines l (List.mem_of_mem_take (List.mem_of_mem_drop hl))
              · rw [map_slice]
                exact List.mem_of_mem_take hPair
            · rw [writePage_eq_ok hText, splice]

theorem applied_of_applied {raw : Str} (h : appendLogseqFlashcardsUnderBlock tables casefold file u
    maxCards dryRun newId = .ok (r, written)) (hApplied : r.code = .applied)
    (hRead : file.atRead = some raw) :
    ∃ pairs b i e, Applied tables u newId (splitlinesKeep (universalNewlines raw)) r.cardsPreview
      written pairs b i e := by
  rw [appendLogseqFlashcardsUnderBlock, readPageLines, hRead] at h
  cases hPath : file.path with
  | none =>
      rw [hPath] at h
      cases h
      cases hApplied
  | some path =>
      rw [hPath] at h
      apply appendUnderBlock_applied _ h hApplied
      intro l hl
      exact linePiece_of_pageLines (pageLines_splitlinesKeep (cr_notMem_universalNewlines raw)) hl

end Calls

section Children

variable {lines : List Str} {newId : ℕ → Uuid} {pairs : List (Str × Str)} {ws indent : Str}
  {b e j k width : ℕ}

theorem bulletIndentUnit_cases (lines : List Str) (b : ℕ) :
    bulletIndentUnit lines b = ['\t'] ∨ bulletIndentUnit lines b = "  ".toList := by
  rw [bulletIndentUnit]
  split
  · exact .inr rfl
  · split_ifs
    · exact .inl rfl
    · exact .inr rfl

theorem childIndent_eq (hLines : ∀ l ∈ lines, LinePiece l)
    (hBullet : bulletIndent? (stripLineEndings (lines.getD b [])) = some ws) :
    childIndent lines b = ws ++ bulletIndentUnit lines b := by
  have hLine : (lines.map (rstripChars ['\n'])).getD b [] = stripLineEndings (lines.getD b []) := by
    rw [List.getD_eq_getElem?_getD, List.getElem?_map, List.getD_eq_getElem?_getD]
    cases hGet : lines[b]? with
    | none => rfl
    | some line => exact rstripChars_of_linePiece (hLines line (List.mem_of_getElem? hGet))
  rw [childIndent, hLine, hBullet]
  rfl

/-- The indentation of the cards is blank, longer than that of the block, and runs over no end
of a line. -/
theorem childIndent_spec (hLines : ∀ l ∈ lines, LinePiece l)
    (hBullet : bulletIndent? (stripLineEndings (lines.getD b [])) = some ws) :
    isBlank (childIndent lines b) = true ∧ ws.length < (childIndent lines b).length ∧
      ∀ c ∈ childIndent lines b, isLineBreak c = false := by
  obtain ⟨m, c, rest, hText, hBlank, _⟩ := bulletIndent?_eq_some.mp hBullet
  have hFree : ∀ c ∈ ws, isLineBreak c = false := by
    obtain ⟨tail, hTail⟩ : stripLineEndings (lines.getD b []) <+: lines.getD b [] :=
      List.rdropWhile_prefix _ _
    have hMem : lines.getD b [] ∈ lines := by
      cases hGet : lines[b]? with
      | none =>
          rw [List.getD_eq_getElem?_getD, hGet] at hBullet
          cases hBullet
      | some line =>
          rw [List.getD_eq_getElem?_getD, hGet]
          exact List.mem_of_getElem? hGet
    have hPiece := hLines _ hMem
    rw [← hTail, hText, List.append_assoc] at hPiece
    exact hPiece.free_of_append_cons
  rw [childIndent_eq hLines hBullet]
  rw [isBlank, List.all_append, Bool.and_eq_true, List.length_append, List.forall_mem_append]
  rcases bulletIndentUnit_cases lines b with hUnit | hUnit
  · rw [hUnit]
    exact ⟨⟨hBlank, by decide⟩, Nat.lt_succ_self _, hFree, by decide⟩
  · rw [hUnit]
    exact ⟨⟨hBlank, by decide⟩, Nat.lt_add_of_pos_right (by decide), hFree, by decide⟩

theorem getD_card (newId : ℕ → Uuid) (indent : Str) (hEnd : e ≤ lines.length) (hk : k < pairs.length) :
    ∃ pair, (splice lines e (insertLines indent newId 0 pairs)).getD (e + 2 * k) [] =
      cardLine indent pair := by
  have hLength := length_insertLines indent newId 0 pairs
  refine ⟨pairs[k], ?_⟩
  rw [List.getD_eq_getElem?_getD, getElem?_splice_add hEnd (by omega),
    (getElem?_insertLines hk).1, List.getElem?_eq_getElem hk]
  rfl

theorem getD_id (hEnd : e ≤ lines.length) (hk : k < pairs.length) :
    (splice lines e (insertLines indent newId 0 pairs)).getD (e + 2 * k + 1) [] =
      idLine indent (newId k) := by
  have hLength := length_insertLines indent newId 0 pairs
  rw [List.getD_eq_getElem?_getD, Nat.add_assoc, getElem?_splice_add hEnd (by omega),
    (getElem?_insertLines hk).2, Nat.zero_add]
  rfl

theorem getD_old (ins : List Str) (hEnd : e ≤ lines.length) (hj : j < e) :
    (splice lines e ins).getD j [] = lines.getD j [] := by
  rw [List.getD_eq_getElem?_getD, getElem?_splice_lt _ hEnd hj, List.getD_eq_getElem?_getD]

/-- A card is a child of the block when no bullet of the block is indented less. -/
theorem isChildOf_card (hEnd : e ≤ lines.length) (hb : b < e) (hIndent : isBlank indent = true)
    (hBullet : bulletIndent? (stripLineEndings (lines.getD b [])) = some ws)
    (hLess : ws.length < indent.length) (hInside : IndentedBy lines indent.length b e)
    (hk : k < pairs.length) :
    IsChildOf (splice lines e (insertLines indent newId 0 pairs)) b (e + 2 * k) := by
  obtain ⟨pair, hCard⟩ := getD_card newId indent hEnd hk
  refine ⟨indent, ?_, bulletAbove_eq_some.mpr ⟨by omega, ⟨ws, ?_, hLess⟩, ?_⟩⟩
  · rw [hCard, bulletIndent?_cardLine hIndent]
  · rw [getD_old _ hEnd hb, hBullet]
    rfl
  · intro j hbj hj other hOther
    by_cases hOld : j < e
    · rw [getD_old _ hEnd hOld] at hOther
      exact hInside j hbj hOld other hOther
    · -- a card or an identifier between the block and this card
      obtain ⟨n, rfl | rfl⟩ : ∃ n, j = e + 2 * n ∨ j = e + 2 * n + 1 := ⟨(j - e) / 2, by omega⟩
      · obtain ⟨before, hBefore⟩ := getD_card newId indent (k := n) hEnd
          (by omega : n < pairs.length)
        rw [hBefore, bulletIndent?_cardLine hIndent] at hOther
        obtain rfl := Option.some.inj hOther
        exact Nat.le_refl _
      · rw [getD_id hEnd (by omega), bulletIndent?_idLine hIndent] at hOther
        cases hOther

theorem indentedBy_of_isChildOf {ins : List Str} (hEnd : e ≤ lines.length)
    (hFirst : bulletIndent? (stripLineEndings ((splice lines e ins).getD e [])) = some indent)
    (h : IsChildOf (splice lines e ins) b e) : IndentedBy lines indent.length b e := by
  obtain ⟨width, hWidth, hAbove⟩ := h
  rw [hFirst] at hWidth
  obtain rfl := Option.some.inj hWidth
  intro j hbj hj ws hLine
  rw [← getD_old ins hEnd hj] at hLine
  exact (bulletAbove_eq_some.mp hAbove).2.2 j hbj hj ws hLine

theorem blockBulletIndex_id (hEnd : e ≤ lines.length) (hIndent : isBlank indent = true)
    (hk : k < pairs.length) :
    blockBulletIndex (splice lines e (insertLines indent newId 0 pairs)) (e + 2 * k + 1) =
      some (e + 2 * k) := by
  obtain ⟨pair, hCard⟩ := getD_card newId indent hEnd hk
  rw [blockBulletIndex, hCard, bulletIndent?_cardLine hIndent]
  rfl

end Children

section Insertion

variable {tables : CaseTables} {casefold : Str → Str} {file : PageFile} {u : Str}
  {newId : ℕ → Uuid} {lines cardsPreview : List Str} {pairs : List (Str × Str)} {indent ws : Str} {b i e : ℕ}

theorem bulletIndent?_of_located {tables : CaseTables} {u : Str}
    (h : locateBlockByUuid tables lines u = some (b, i, e)) :
    ∃ ws, bulletIndent? (stripLineEndings (lines.getD b [])) = some ws := by
  obtain ⟨_, hBullet, _⟩ := locateBlockByUuid_eq_some.mp h
  have hLine := (blockBulletIndex_lt hBullet).2
  rw [getD_stripLinesForMatch, stripLineEndings_idem] at hLine
  exact Option.isSome_iff_exists.mp hLine

theorem idLine_indent {other : Str} {cid : Uuid} (h : idLine indent cid = idLine other cid) :
    indent = other := by
  simpa [idLine] using h

theorem infix_idLine (indent : Str) (cid : Uuid) : cid.text <:+: idLine indent cid :=
  ⟨indent ++ "  id:: ".toList, ['\n'], by rw [idLine]⟩

/-- If the cards stand in what was written as in a pure insertion, the lines in between are
those of the page that was read, and the first card was not glued to any. -/
theorem eq_of_inserted {old : List Str} {others : List (Str × Str)} {other : Str} {m : ℕ}
    (hLines : PageLines lines) (hEnd : e ≤ lines.length)
    (hClosed : ∀ l ∈ insertLines indent newId 0 pairs, Closed l) (hPairs : pairs ≠ [])
    (hPreviews : pairs.map cardPreview = others.map cardPreview)
    (hIndent : isBlank indent = true) (hOther : isBlank other = true)
    (hFresh : ∀ l ∈ lines ++ old, ¬(newId 0).text <:+: l)
    (h : splitlinesKeep (splice lines e (insertLines indent newId 0 pairs)).flatten =
      splice old m (insertLines other newId 0 others)) :
    lines = old ∧ indent = other ∧ (e < lines.length ∨ ∀ l ∈ lines, Closed l) := by
  obtain ⟨pair, pairs, rfl⟩ := List.exists_cons_of_ne_nil hPairs
  cases others with
  | nil => cases hPreviews
  | cons otherPair others =>
      rw [List.forall_mem_append] at hFresh
      obtain ⟨before, tail, after, hWritten, hBefore, hTail⟩ :=
        splitlinesKeep_splice_cons hLines hClosed hEnd
      rw [insertLines, hWritten, splice, insertLines, List.append_assoc] at h
      obtain ⟨hFront, hCard, hId, hBack⟩ := eq_of_marked (P := ((newId 0).text <:+: ·))
        (Q := ('#' ∈ ·)) h (fun l hl => hFresh.1 l (hBefore l hl))
        (fun l hl => hFresh.2 l (List.mem_of_mem_take hl)) (infix_idLine _ _) (infix_idLine _ _)
        (List.mem_append_right _ (hash_cardLine _ _)) (hash_cardLine _ _)
        (hash_idLine hIndent _) (hash_idLine hOther _)
      obtain rfl := idLine_indent hId
      obtain ⟨hPair, hRest⟩ := List.cons.inj hPreviews
      have hNil : tail = [] := by
        rw [cardLine_eq, cardLine_eq, hPair] at hCard
        exact List.append_left_eq_self.mp hCard
      obtain ⟨rfl, rfl, hCut⟩ := hTail hNil
      refine ⟨?_, rfl, hCut⟩
      rw [insertLines_congr hRest] at hBack
      rw [← List.take_append_drop e lines, hFront, List.append_cancel_left hBack,
        List.take_append_drop]

theorem linePieces (raw : Str) : ∀ l ∈ splitlinesKeep (universalNewlines raw), LinePiece l :=
  fun _ => linePiece_of_pageLines (pageLines_splitlinesKeep (cr_notMem_universalNewlines raw))

/-- Everything that the cards of a call stand on in the page that was read. -/
theorem Applied.spec {raw : Str} {written : Option Str}
    (h : Applied tables u newId (splitlinesKeep (universalNewlines raw)) cardsPreview written pairs
      b i e) :
    b < e ∧ e ≤ (splitlinesKeep (universalNewlines raw)).length ∧
      isBlank (childIndent (splitlinesKeep (universalNewlines raw)) b) = true ∧
      ∀ l ∈ insertLines (childIndent (splitlinesKeep (universalNewlines raw)) b) newId 0 pairs,
        Closed l := by
  obtain ⟨hbi, hie, hEnd⟩ := locateBlockByUuid_bounds h.located
  obtain ⟨ws, hBullet⟩ := bulletIndent?_of_located h.located
  obtain ⟨hBlank, _, hFree⟩ := childIndent_spec (linePieces raw) hBullet
  exact ⟨by omega, hEnd, hBlank, closed_insertLines hFree h.free⟩

theorem keepsPage_of_appendable {raw : Str} {written : Option Str}
    (h : Applied tables u newId (splitlinesKeep (universalNewlines raw)) cardsPreview written pairs
      b i e) (hPage : Appendable tables u file (universalNewlines raw)) :
    KeepsPage tables u newId file.atWrite written cardsPreview := by
  obtain ⟨hb, hEnd, hBlank, hClosed⟩ := h.spec
  obtain ⟨ws, hBullet⟩ := bulletIndent?_of_located h.located
  obtain ⟨_, hLess, _⟩ := childIndent_spec (linePieces raw) hBullet
  have hCr := cr_notMem_universalNewlines raw
  have hLast : e < (splitlinesKeep (universalNewlines raw)).length ∨
      ∀ l ∈ splitlinesKeep (universalNewlines raw), Closed l := by
    rcases Nat.lt_or_eq_of_le hEnd with hLt | rfl
    · exact .inl hLt
    · exact .inr ((closed_iff_getLast hCr).mpr (hPage.terminated b i h.located))
  have hLines := splitlinesKeep_splice (pageLines_splitlinesKeep hCr) hClosed hLast
  refine ⟨_, _, _, pairs, b, i, e, hPage.current, h.written, h.located, h.previews, hBlank, hLines,
    ?_, ?_⟩
  · intro k hk
    rw [hLines]
    exact isChildOf_card hEnd hb hBlank hBullet hLess (hPage.indented b i e h.located) hk
  · intro k hk
    rw [hLines]
    exact blockBulletIndex_id hEnd hBlank hk

theorem appendable_of_keepsPage {raw : Str} {written : Option Str}
    (h : Applied tables u newId (splitlinesKeep (universalNewlines raw)) cardsPreview written pairs
      b i e)
    (hFresh : ∀ before ∈ file.atWrite, ∀ line ∈ splitlinesKeep (universalNewlines raw) ++
      splitlinesKeep before, ¬(newId 0).text <:+: line)
    (hKeeps : KeepsPage tables u newId file.atWrite written cardsPreview) :
    Appendable tables u file (universalNewlines raw) := by
  obtain ⟨hb, hEnd, hBlank, hClosed⟩ := h.spec
  obtain ⟨before, new, indent, others, b', i', e', hWrite, hNew, hPure⟩ := hKeeps
  have hPage := pageLines_splitlinesKeep (cr_notMem_universalNewlines raw)
  obtain rfl := Option.some.inj (hNew.symm.trans h.written)
  obtain ⟨hSame, rfl, hLast⟩ := eq_of_inserted hPage hEnd hClosed h.nonempty
    (h.previews.symm.trans hPure.previews) hBlank hPure.blank (hFresh before hWrite) hPure.inserted
  have hText : universalNewlines raw = before := by
    rw [← flatten_splitlinesKeep (universalNewlines raw), hSame, flatten_splitlinesKeep]
  subst hText
  have hAt {b₁ i₁ e₁ : ℕ} (hLocated : locateBlockByUuid tables
      (splitlinesKeep (universalNewlines raw)) u = some (b₁, i₁, e₁)) :
      b₁ = b ∧ i₁ = i ∧ e₁ = e := by
    rw [h.located] at hLocated
    cases hLocated
    exact ⟨rfl, rfl, rfl⟩
  obtain ⟨rfl, rfl, rfl⟩ := hAt hPure.located
  refine ⟨hWrite, ?_, ?_⟩
  · intro b₁ i₁ hLocated
    obtain ⟨_, _, hAll⟩ := hAt hLocated
    rcases hLast with hLt | hClosedAll
    · omega
    · exact (closed_iff_getLast (cr_notMem_universalNewlines raw)).mp hClosedAll
  · intro b₁ i₁ e₁ hLocated
    obtain ⟨rfl, rfl, rfl⟩ := hAt hLocated
    obtain ⟨pair, rest, rfl⟩ := List.exists_cons_of_ne_nil h.nonempty
    have hPairs : 0 < others.length := by
      have := congrArg List.length (h.previews.symm.trans hPure.previews)
      simp at this
      omega
    have hChild := hPure.child 0 hPairs
    rw [hPure.inserted] at hChild
    apply indentedBy_of_isChildOf hEnd _ hChild
    obtain ⟨card, hCard⟩ := getD_card newId (childIndent _ b₁) hEnd hPairs
    rw [Nat.mul_zero, Nat.add_zero] at hCard
    rw [hCard, bulletIndent?_cardLine hBlank]

/-- An applied call is a pure insertion exactly when the page is still the one that was read,
the cards start on a line of their own, and no bullet of the block is indented less than they
are. The first new identifier occurs in neither page. -/
theorem keepsPage_iff {raw : Str} {maxCards : ℤ} {dryRun : Bool} {r : FlashcardAppendResult}
    {written : Option Str}
    (hCall : appendLogseqFlashcardsUnderBlock tables casefold file u maxCards dryRun newId =
      .ok (r, written)) (hApplied : r.code = .applied) (hRead : file.atRead = some raw)
    (hFresh : ∀ before ∈ file.atWrite, ∀ line ∈ splitlinesKeep (universalNewlines raw) ++
      splitlinesKeep before, ¬(newId 0).text <:+: line) :
    KeepsPage tables u newId file.atWrite written r.cardsPreview ↔
      Appendable tables u file (universalNewlines raw) := by
  obtain ⟨pairs, b, i, e, h⟩ := applied_of_applied hCall hApplied hRead
  exact ⟨appendable_of_keepsPage h hFresh, keepsPage_of_appendable h⟩

end Insertion

section Runs

def cardId : Uuid := ⟨"0b1e4c1e-52f0-4f0e-9c5d-6d1f0a7e2b11".toList, by decide⟩

/-- A page with a given text that is another text by the time it is written. -/
def pageFile (read current : String) : PageFile where
  path := some "pages/topic.md".toList
  backupName := "topic.md.bak".toList
  isMarkdown := true
  writable := true
  replaces := true
  atRead := some read.toList
  atBackup := some current.toList
  atWrite := some current.toList

def topic : String :=
  "- topic\n  id:: 6ba7b810-9dad-41d1-80b4-00c04fd430c8\n  - what is x :: it is y\n"

def appendCards (file : PageFile) : Except AppendError (FlashcardAppendResult × Option Str) :=
  appendLogseqFlashcardsUnderBlock asciiCase id file sampleId.text 30 false fun _ => cardId

theorem locate_topic : locateBlockByUuid asciiCase
    (splitlinesKeep (universalNewlines topic.toList)) sampleId.text = some (0, 1, 3) := by
  decide +kernel

theorem keepsPage_topic : ∃ r written, appendCards (pageFile topic topic) = .ok (r, written) ∧
    r.code = .applied ∧ KeepsPage asciiCase sampleId.text (fun _ => cardId)
      (pageFile topic topic).atWrite written r.cardsPreview := by
  obtain ⟨r, written, hCall, hApplied⟩ : ∃ r written,
    appendCards (pageFile topic topic) = .ok (r, written) ∧ r.code = .applied := ⟨_, _, rfl, rfl⟩
  refine ⟨r, written, hCall, hApplied, (keepsPage_iff hCall hApplied rfl ?_).mpr ⟨rfl, ?_, ?_⟩⟩
  · decide +kernel
  · intro _ _ _
    decide +kernel
  · intro b i e hAt
    obtain ⟨rfl, rfl, rfl⟩ : 0 = b ∧ 1 = i ∧ 3 = e := by simpa using locate_topic.symm.trans hAt
    intro j hj hEnd
    rcases (by omega : j = 1 ∨ j = 2) with rfl | rfl
    · decide +kernel
    · decide +kernel

/-- An applied call that is no pure insertion. -/
def Breaks (file : PageFile) : Prop :=
  ∃ r written, appendCards file = .ok (r, written) ∧ r.code = .applied ∧
    ¬KeepsPage asciiCase sampleId.text (fun _ => cardId) file.atWrite written r.cardsPreview

theorem breaks_of_not_appendable {file : PageFile} {raw : Str} (hRead : file.atRead = some raw)
    (hCall : ∃ r written, appendCards file = .ok (r, written) ∧ r.code = .applied)
    (hFresh : ∀ before ∈ file.atWrite, ∀ line ∈ splitlinesKeep (universalNewlines raw) ++
      splitlinesKeep before, ¬cardId.text <:+: line)
    (hNot : ¬Appendable asciiCase sampleId.text file (universalNewlines raw)) : Breaks file := by
  obtain ⟨r, written, hCall, hApplied⟩ := hCall
  obtain ⟨pairs, b, i, e, h⟩ := applied_of_applied hCall hApplied hRead
  exact ⟨r, written, hCall, hApplied, fun hKeeps => hNot (appendable_of_keepsPage h hFresh hKeeps)⟩

def openTopic : String :=
  "- topic\n  id:: 6ba7b810-9dad-41d1-80b4-00c04fd430c8\n  - what is x :: it is y"

def tabbedTopic : String :=
  "- topic\n\tid:: 6ba7b810-9dad-41d1-80b4-00c04fd430c8\n\t- what is x :: it is y\n"

/-- A line that is written in between is lost. A card is glued to the last line of a page that
ends without a newline, and in a page indented with tabs it becomes a child of a child. -/
theorem foreign_line_lost : Breaks (pageFile topic (topic ++ "- new\n")) ∧
    Breaks (pageFile openTopic openTopic) ∧ Breaks (pageFile tabbedTopic tabbedTopic) := by
  refine ⟨breaks_of_not_appendable rfl ⟨_, _, rfl, rfl⟩ (by decide +kernel) ?_,
    breaks_of_not_appendable rfl ⟨_, _, rfl, rfl⟩ (by decide +kernel) ?_,
    breaks_of_not_appendable rfl ⟨_, _, rfl, rfl⟩ (by decide +kernel) ?_⟩
  · intro h
    exact absurd h.current (by decide +kernel)
  · intro h
    exact absurd (h.terminated 0 1 (by decide +kernel)) (by decide +kernel)
  · intro h
    exact absurd (h.indented 0 1 3 (by decide +kernel) 2 (by decide) (by decide) ['\t']
      (by decide +kernel)) (by decide +kernel)

end Runs

end Plumber.Flashcards
