import MatrycaPlumber.Graph.SplitProvenance

/-! What one split does to the pieces of the page, and what every state of the
loop has in common. -/
namespace Plumber.SplitLargeBlocks

open PyText MarkdownBlocks

theorem findPrecedingBulletIdx_eq_some {stripped : List Str} {i b : Nat}
    (h : findPrecedingBulletIdx stripped i = some b) :
    b < i ∧ ∀ j, b < j → j < i → bulletMatch? (stripped.getD j []) = none := by
  induction i with
  | zero => cases h
  | succ i ih =>
      rw [findPrecedingBulletIdx] at h
      split_ifs at h with hBullet
      · obtain rfl := Option.some.inj h
        exact ⟨Nat.lt_succ_self _, fun j hj hlt => by omega⟩
      · obtain ⟨hlt, hNone⟩ := ih h
        refine ⟨by omega, ?_⟩
        intro j hj hji
        by_cases hEq : j = i
        · subst hEq
          simpa using hBullet
        · exact hNone j hj (by omega)

theorem eligibleSplitSentences_eq_some {stripped : List Str} {b i : Nat} {minChars : Int}
    {isProtected : Nat → Bool} {sents : List Str}
    (h : eligibleSplitSentences stripped b i minChars isProtected = some sents) :
    ∃ ws mark rest, bulletMatch? (stripped.getD b []) = some (ws, mark, rest) ∧
      sents = splitSentences (strip rest) ∧ 2 ≤ sents.length := by
  rw [eligibleSplitSentences] at h
  split at h
  · cases h
  · next ws mark rest hMatch =>
      simp only at h
      split_ifs at h with _ _ _ _ hTwo
      obtain rfl := Option.some.inj h
      exact ⟨ws, mark, rest, hMatch, rfl, by omega⟩

/-- What is known of a candidate the loop may take. -/
theorem mem_collectCandidates {tables : CaseTables} {stripped : List Str} {minChars : Int}
    {isProtected : Nat → Bool} {cand : Candidate}
    (h : cand ∈ collectCandidates tables stripped minChars isProtected) :
    cand.idLineIdx < stripped.length ∧
      (idLineUuid? tables (stripped.getD cand.idLineIdx [])).isSome ∧
      findPrecedingBulletIdx stripped cand.idLineIdx = some cand.bulletIdx ∧
      eligibleSplitSentences stripped cand.bulletIdx cand.idLineIdx minChars isProtected =
        some cand.sents := by
  rw [collectCandidates, (List.perm_insertionSort _ _).mem_iff, List.mem_filterMap] at h
  obtain ⟨i, hi, hCand⟩ := h
  rw [candidateAt] at hCand
  split at hCand
  · cases hCand
  · next blockUuid hUuid =>
      split at hCand
      · cases hCand
      · next b hBullet =>
          split at hCand
          · cases hCand
          · next sents hSents =>
              obtain rfl := Option.some.inj hCand
              exact ⟨List.mem_range.mp hi, Option.isSome_of_eq_some hUuid, hBullet, hSents⟩

/-- An `id::` line is no bullet. -/
theorem bulletMatch?_of_idLineUuid? {tables : CaseTables} {line : Str}
    (h : (idLineUuid? tables line).isSome) : bulletMatch? line = none := by
  rw [idLineUuid?] at h
  cases hDrop : lstrip line with
  | nil =>
      rw [hDrop] at h
      cases h
  | cons c cs =>
      rw [hDrop] at h
      have hCase : tables.eqIgnoreCase 'i' c = true := by
        by_contra hNot
        rw [Bool.not_eq_true] at hNot
        simp [dropPrefixIgnoreCase?, hNot] at h
      have hMarker : isListMarker c = false := by
        rw [← Bool.not_eq_true]
        intro hm
        simp only [isListMarker, Bool.or_eq_true, decide_eq_true_eq] at hm
        obtain (rfl | rfl) | rfl := hm
        · exact absurd (tables.eq_of_not_alpha _ _ (by decide) (by decide) hCase) (by decide)
        · exact absurd (tables.eq_of_not_alpha _ _ (by decide) (by decide) hCase) (by decide)
        · exact absurd (tables.eq_of_not_alpha _ _ (by decide) (by decide) hCase) (by decide)
      rw [lstrip] at hDrop
      rw [bulletMatch?, hDrop]
      cases cs with
      | nil => rfl
      | cons d cs => simp [hMarker]

theorem bulletLevel_eq_none {line : Str} :
    bulletLevel line = none ↔ bulletMatch? (rstripChars ['\n'] line) = none := by
  simp [bulletLevel]

/-- The place of a split: the bullet, what stands between it and its `id::`
line, and what follows. -/
structure SplitSite (cur : List Piece) (cand : Candidate) (A : List Piece) (bl : Piece)
    (M : List Piece) (idl : Piece) (Z : List Piece) (ws : Str) (mark : Char) (rest : Str) :
    Prop where
  eq : cur = A ++ bl :: (M ++ idl :: Z)
  bulletIdx : cand.bulletIdx = A.length
  idLineIdx : cand.idLineIdx = A.length + 1 + M.length
  bullet : bulletMatch? (rstripChars ['\n'] bl.2) = some (ws, mark, rest)
  between : ∀ p ∈ M, bulletLevel p.2 = none
  idLine : bulletLevel idl.2 = none
  sents : cand.sents = splitSentences (strip rest)
  two : 2 ≤ cand.sents.length

theorem exists_eq_append_cons {α : Type*} {xs : List α} {n : Nat} (h : n < xs.length) :
    ∃ before x after, xs = before ++ x :: after ∧ before.length = n := by
  refine ⟨xs.take n, xs[n], xs.drop (n + 1), ?_, ?_⟩
  · rw [← List.drop_eq_getElem_cons h, List.take_append_drop]
  · rw [List.length_take]
    omega

theorem getD_strippedLines (before : List Piece) (p : Piece) (after : List Piece) :
    (strippedLines (texts (before ++ p :: after))).getD before.length [] =
      rstripChars ['\n'] p.2 := by
  simp [strippedLines, texts, List.getD_eq_getElem?_getD]

theorem exists_splitSite {tables : CaseTables} {cur : List Piece} {minChars : Int}
    {isProtected : Nat → Bool} {cand : Candidate}
    (h : cand ∈ collectCandidates tables (strippedLines (texts cur)) minChars isProtected) :
    ∃ A bl M idl Z ws mark rest, SplitSite cur cand A bl M idl Z ws mark rest := by
  obtain ⟨hLen, hId, hPreceding, hEligible⟩ := mem_collectCandidates h
  obtain ⟨hlt, hBetween⟩ := findPrecedingBulletIdx_eq_some hPreceding
  obtain ⟨ws, mark, rest, hMatch, hSents, hTwo⟩ := eligibleSplitSentences_eq_some hEligible
  have hLen : cand.idLineIdx < cur.length := by simpa [strippedLines, texts] using hLen
  obtain ⟨pre, idl, Z, rfl, hPre⟩ := exists_eq_append_cons hLen
  obtain ⟨A, bl, M, rfl, hA⟩ := exists_eq_append_cons (show cand.bulletIdx < pre.length by omega)
  have hAssoc : A ++ bl :: M ++ idl :: Z = A ++ bl :: (M ++ idl :: Z) := by simp
  refine ⟨A, bl, M, idl, Z, ws, mark, rest, ?_⟩
  refine ⟨hAssoc, hA.symm, ?_, ?_, ?_, ?_, hSents, hTwo⟩
  · rw [List.length_append, List.length_cons] at hPre
    omega
  · rw [hAssoc, ← hA, getD_strippedLines] at hMatch
    exact hMatch
  · intro p hp
    obtain ⟨M₁, M₂, rfl⟩ := List.append_of_mem hp
    have hNone := hBetween (A ++ bl :: M₁).length
      (by simp only [List.length_append, List.length_cons]; omega)
      (by
        rw [← hPre]
        simp only [List.length_append, List.length_cons]
        omega)
    rw [show A ++ bl :: (M₁ ++ p :: M₂) ++ idl :: Z =
      (A ++ bl :: M₁) ++ p :: (M₂ ++ idl :: Z) by simp, getD_strippedLines] at hNone
    exact bulletLevel_eq_none.mpr hNone
  · rw [← hPre, getD_strippedLines] at hId
    exact bulletLevel_eq_none.mpr (bulletMatch?_of_idLineUuid? hId)

theorem bulletMatch?_eq_some {line ws rest : Str} {mark : Char}
    (h : bulletMatch? line = some (ws, mark, rest)) :
    (∀ c ∈ ws, isSpace c = true) ∧ isListMarker mark = true ∧
      (∃ y, line = ws ++ mark :: y) ∧ rest <:+ line := by
  rw [bulletMatch?] at h
  split at h
  · next m c tail hDrop =>
      split_ifs at h with hMarker
      have hEq := Option.some.inj h
      simp only [Prod.mk.injEq] at hEq
      obtain ⟨rfl, rfl, rfl⟩ := hEq
      rw [Bool.and_eq_true] at hMarker
      have hLine := List.takeWhile_append_dropWhile (p := isSpace) (l := line)
      rw [hDrop] at hLine
      refine ⟨fun c hc => List.mem_takeWhile_imp hc, hMarker.1, ⟨_, hLine.symm⟩, ?_⟩
      refine (List.dropWhile_suffix _).trans ?_
      have hSuffix : m :: c :: tail <:+ line := by
        rw [← hDrop]
        exact List.dropWhile_suffix _
      exact (List.suffix_cons m (c :: tail)).trans hSuffix
  · cases h

theorem not_isSpace_of_isListMarker {c : Char} (h : isListMarker c = true) : isSpace c = false := by
  simp only [isListMarker, Bool.or_eq_true, decide_eq_true_eq] at h
  obtain (rfl | rfl) | rfl := h
  · rfl
  · rfl
  · rfl

/-- A line written as a bullet is read back as that bullet. -/
theorem bulletMatch?_of_parts {ws body : Str} {mark : Char} (hWs : ∀ c ∈ ws, isSpace c = true)
    (hMark : isListMarker mark = true) (hBody : body.dropWhile isSpace = body) :
    bulletMatch? (ws ++ mark :: ' ' :: body) = some (ws, mark, body) := by
  have hSpace := not_isSpace_of_isListMarker hMark
  have hBlank : isSpace ' ' = true := rfl
  have hDrop : (ws ++ mark :: ' ' :: body).dropWhile isSpace = mark :: ' ' :: body := by
    rw [List.dropWhile_append_of_pos hWs, List.dropWhile_cons_of_neg (by simp [hSpace])]
  have hTake : (ws ++ mark :: ' ' :: body).takeWhile isSpace = ws := by
    rw [List.takeWhile_append_of_pos hWs, List.takeWhile_cons_of_neg (by simp [hSpace]),
      List.append_nil]
  rw [bulletMatch?, hDrop]
  simp [hMark, hTake, hBlank, hBody]

/-- The body of a bullet line holds no boundary once it is stripped. -/
theorem free_strip_of_bullet {l ws rest : Str} {mark : Char} (hPiece : LinePiece l)
    (h : bulletMatch? (rstripChars ['\n'] l) = some (ws, mark, rest)) :
    ∀ c ∈ strip rest, isLineBreak c = false := by
  intro c hc
  rw [← Bool.not_eq_true]
  intro hBreak
  obtain ⟨x, y, hStrip⟩ := List.append_of_mem hc
  have hInfix : strip rest <:+: l := by
    obtain ⟨_, _, _, hSuffix⟩ := bulletMatch?_eq_some h
    exact (strip_isInfix rest).trans (hSuffix.isInfix.trans (List.rdropWhile_prefix _ _).isInfix)
  obtain ⟨u, v, rfl⟩ := hInfix
  rw [hStrip] at hPiece
  have hEnd : y ++ v = [] := by
    by_contra hNe
    obtain ⟨d, z, hEq⟩ := List.exists_cons_of_ne_nil hNe
    have hFree := LinePiece.free_of_append_cons (x := u ++ x ++ [c]) (d := d) (y := z) (by
      rw [← hEq]
      simpa using hPiece)
    rw [hFree c (by simp)] at hBreak
    cases hBreak
  have hNe : strip rest ≠ [] := by simp [hStrip]
  have hLast := List.rdropWhile_last_not isSpace (lstrip rest) hNe
  obtain ⟨rfl, _⟩ := List.append_eq_nil_iff.mp hEnd
  apply hLast
  have hEq : (strip rest).getLast hNe = c := by simp [hStrip]
  exact hEq ▸ isSpace_of_isLineBreak hBreak

/-- A bullet line of one sentence, with or without its newline. -/
theorem bulletLine_of_trimmed {ws body : Str} {mark : Char} (hWs : ∀ c ∈ ws, isSpace c = true)
    (hMark : isListMarker mark = true) (hBody : Trimmed body) {n : Str} (hNl : n = [] ∨ n = ['\n']) :
    bulletMatch? (rstripChars ['\n'] (ws ++ mark :: ' ' :: body ++ n)) = some (ws, mark, body) := by
  have hne : ws ++ mark :: ' ' :: body ≠ [] := by simp
  have hEq : (ws ++ mark :: ' ' :: body).getLast hne = body.getLast hBody.ne_nil := by
    rw [List.getLast_append_of_ne_nil _ (by simp), List.getLast_cons (by simp),
      List.getLast_cons hBody.ne_nil]
  have hLast : (ws ++ mark :: ' ' :: body).getLast hne ≠ '\n' := by
    rw [hEq]
    intro h
    have := hBody.last hBody.ne_nil
    rw [h] at this
    cases this
  obtain ⟨hCore, hLine⟩ := rstripChars_of_last hne hLast
  have hMatch := bulletMatch?_of_parts hWs hMark hBody.lstrip_eq
  cases hNl with
  | inl hNil => rw [hNil, List.append_nil, hCore, hMatch]
  | inr hNewline => rw [hNewline, hLine, hMatch]

theorem free_bulletLine {ws body : Str} {mark : Char} (hWs : ∀ c ∈ ws, isLineBreak c = false)
    (hMark : isListMarker mark = true) (hBody : Trimmed body) :
    ∀ c ∈ ws ++ mark :: ' ' :: body, isLineBreak c = false := by
  intro c hc
  simp only [List.mem_append, List.mem_cons] at hc
  obtain hc | rfl | rfl | hc := hc
  · exact hWs c hc
  · exact not_isLineBreak_of_not_isSpace (not_isSpace_of_isListMarker hMark)
  · rfl
  · exact hBody.free c hc

/-- The rewritten bullet keeps its indentation and marker; it keeps its line
boundary only when that is a newline. -/
theorem rewriteBullet_spec {l ws rest first : Str} {mark : Char} (hPiece : LinePiece l)
    (h : bulletMatch? (rstripChars ['\n'] l) = some (ws, mark, rest)) (hFirst : Trimmed first) :
    bulletMatch? (rstripChars ['\n'] (rewriteBullet ws mark first l)) = some (ws, mark, first) ∧
      LinePiece (rewriteBullet ws mark first l) ∧
      (Closed (rewriteBullet ws mark first l) ↔ endsWith ['\n'] l = true) := by
  obtain ⟨hWs, hMark, ⟨y, hCore⟩, _⟩ := bulletMatch?_eq_some h
  have hWsFree : ∀ c ∈ ws, isLineBreak c = false := by
    obtain ⟨t, ht⟩ : rstripChars ['\n'] l <+: l := List.rdropWhile_prefix _ _
    rw [← ht, hCore, List.append_assoc, List.cons_append] at hPiece
    exact hPiece.free_of_append_cons
  have hFree := free_bulletLine hWsFree hMark hFirst
  cases hPiece.newline_cases with
  | inl hNewline =>
      obtain ⟨body, rfl, hStrip⟩ := hNewline
      have hLine : rewriteBullet ws mark first (body ++ ['\n']) =
          ws ++ mark :: ' ' :: first ++ ['\n'] := by
        simp [rewriteBullet, hStrip]
      have hClosed := closed_append_newline hFree
      rw [hLine]
      refine ⟨bulletLine_of_trimmed hWs hMark hFirst (Or.inr rfl), Or.inl hClosed, ?_⟩
      simp only [hClosed, true_iff]
      exact endsWith_iff.mpr ⟨body, rfl⟩
  | inr hBare =>
      obtain ⟨hEnds, hStrip⟩ := hBare
      have hLine : rewriteBullet ws mark first l = ws ++ mark :: ' ' :: first := by
        simp [rewriteBullet, hStrip]
      have hOpen : Unterminated (ws ++ mark :: ' ' :: first) := ⟨by simp, hFree⟩
      have hMatch := bulletLine_of_trimmed hWs hMark hFirst (n := []) (Or.inl rfl)
      rw [List.append_nil] at hMatch
      rw [hLine]
      exact ⟨hMatch, Or.inr hOpen, by simp [hOpen.not_closed, hEnds]⟩

/-- What a new child line and a new identifier line are. -/
structure ChildPiece (i : Nat) (level : Nat) (p : Piece) : Prop where
  closed : Closed p.2
  shape : (p.1 = .child i ∧ bulletLevel p.2 = some level ∧ ∃ ws mark body,
      bulletMatch? (rstripChars ['\n'] p.2) = some (ws, mark, body) ∧ oneSentence false body = true) ∨
    (p.1 = .childId i ∧ bulletLevel p.2 = none)

/-- A line whose first character other than whitespace is no list marker. -/
theorem bulletLevel_of_head {ws : Str} (hWs : ∀ c ∈ ws, isSpace c = true) {c : Char}
    (hc : isSpace c = false) (hNot : isListMarker c = false) (t : Str) :
    bulletLevel (ws ++ c :: t) = none := by
  rw [bulletLevel_eq_none]
  by_contra hSome
  obtain ⟨⟨ws', mark, body⟩, hMatch⟩ := Option.ne_none_iff_exists'.mp hSome
  obtain ⟨hWs', hMark, ⟨y, hCore⟩, _⟩ := bulletMatch?_eq_some hMatch
  obtain ⟨u, hu⟩ : rstripChars ['\n'] (ws ++ c :: t) <+: ws ++ c :: t := List.rdropWhile_prefix _ _
  have hDrop := congrArg (List.dropWhile isSpace) hu
  rw [hCore, List.append_assoc, List.cons_append, List.dropWhile_append_of_pos hWs',
    List.dropWhile_cons_of_neg (by simp [not_isSpace_of_isListMarker hMark]),
    List.dropWhile_append_of_pos hWs, List.dropWhile_cons_of_neg (by simp [hc])] at hDrop
  rw [(List.cons.inj hDrop).1, hNot] at hMark
  cases hMark

theorem childPieces_spec (i : Nat) {childWs : Str} (hSpace : ∀ c ∈ childWs, isSpace c = true)
    (hFree : ∀ c ∈ childWs, isLineBreak c = false) (freshUuid : Nat → Uuid) (k : Nat)
    {sents : List Str} (hSents : ∀ sent ∈ sents, Trimmed sent ∧ oneSentence false sent = true) :
    ∀ p ∈ childPieces i childWs freshUuid k sents, ChildPiece i childWs.length p := by
  induction sents generalizing k with
  | nil => simp [childPieces]
  | cons sent sents ih =>
      obtain ⟨hSent, hTail⟩ := List.forall_mem_cons.mp hSents
      rw [childPieces]
      refine List.forall_mem_cons.mpr ⟨?_, List.forall_mem_cons.mpr ⟨?_, ih (k + 1) hTail⟩⟩
      · have hLine : childWs ++ "- ".toList ++ sent ++ ['\n'] =
            childWs ++ '-' :: ' ' :: sent ++ ['\n'] := by simp
        have hMatch := bulletLine_of_trimmed hSpace (show isListMarker '-' = true from rfl) hSent.1 (Or.inr rfl)
        rw [hLine]
        refine ⟨closed_append_newline (free_bulletLine hFree rfl hSent.1), Or.inl ⟨rfl, ?_, ?_⟩⟩
        · rw [bulletLevel, hMatch]
          rfl
        · exact ⟨_, _, _, hMatch, hSent.2⟩
      · refine ⟨?_, Or.inr ⟨rfl, ?_⟩⟩
        · apply closed_append_newline
          intro c hc
          simp only [List.mem_append] at hc
          obtain (hc | hc) | hc := hc
          · exact hFree c hc
          · revert c
            decide
          · exact not_isLineBreak_of_not_isSpace ((freshUuid k).not_isSpace hc)
        · have hIndent : ∀ c ∈ childWs ++ "  ".toList, isSpace c = true := by
            have hBlanks : ∀ c ∈ "  ".toList, isSpace c = true := by decide
            intro c hc
            cases List.mem_append.mp hc with
            | inl hc => exact hSpace c hc
            | inr hc => exact hBlanks c hc
          have hNone := bulletLevel_of_head hIndent (c := 'i') rfl rfl
            ("d:: ".toList ++ (freshUuid k).text ++ ['\n'])
          simpa using hNone

theorem SplitSite.tagSplit_eq {cur : List Piece} {cand : Candidate} {A M Z : List Piece}
    {bl idl : Piece} {ws rest : Str} {mark : Char}
    (h : SplitSite cur cand A bl M idl Z ws mark rest) (freshUuid : Nat → Uuid) (k : Nat) :
    tagSplit freshUuid k cur cand =
      A ++ (.rewritten bl.1.block, rewriteBullet ws mark (cand.sents.headD []) bl.2) ::
        (M ++ idl :: (childPieces bl.1.block (ws ++ bulletIndentUnit (texts cur) A.length)
          freshUuid k cand.sents.tail ++ Z)) := by
  have hMatch : bulletMatch? ((strippedLines (texts cur)).getD cand.bulletIdx []) =
      some (ws, mark, rest) := by
    rw [h.bulletIdx, h.eq, getD_strippedLines, h.bullet]
  have hOld : cur.getD cand.bulletIdx (.old 0, []) = bl := by
    rw [h.bulletIdx, h.eq]
    simp [List.getD_eq_getElem?_getD]
  have hTake : cur.take cand.bulletIdx = A := by
    rw [h.bulletIdx, h.eq, List.take_left]
  have hAssoc : cur = (A ++ bl :: M ++ [idl]) ++ Z := by rw [h.eq]; simp
  have hLen : cand.idLineIdx + 1 = (A ++ bl :: M ++ [idl]).length := by
    rw [h.idLineIdx]
    simp only [List.length_append, List.length_cons, List.length_nil]
    omega
  have hDrop : cur.drop (cand.idLineIdx + 1) = Z := by
    rw [hLen, hAssoc, List.drop_left]
  have hSlice : slice cur (cand.bulletIdx + 1) (cand.idLineIdx + 1) = M ++ [idl] := by
    rw [slice, hLen, hAssoc, List.take_left, h.bulletIdx,
      show A ++ bl :: M ++ [idl] = (A ++ [bl]) ++ (M ++ [idl]) by simp,
      List.drop_left' (by simp)]
  simp only [tagSplit, hMatch, hOld, hTake, hDrop, hSlice]
  rw [h.bulletIdx]
  simp

/-- Every new identifier line stands right behind its child. -/
theorem childPieces_childId {i : Nat} {childWs : Str} {freshUuid : Nat → Uuid} {k : Nat}
    {sents : List Str} {before after : List Piece} {j : Nat} {l : Str}
    (h : childPieces i childWs freshUuid k sents = before ++ (.childId j, l) :: after) :
    ∃ init l', before = init ++ [(.child i, l')] := by
  induction sents generalizing k before with
  | nil => simp [childPieces] at h
  | cons sent sents ih =>
      rw [childPieces] at h
      cases before with
      | nil => simp at h
      | cons p before =>
          obtain ⟨rfl, hTail⟩ := List.cons.inj h
          cases before with
          | nil => exact ⟨[], _, rfl⟩
          | cons q before =>
              obtain ⟨rfl, hRest⟩ := List.cons.inj hTail
              obtain ⟨init, l', rfl⟩ := ih hRest
              exact ⟨_ :: _ :: init, l', rfl⟩

/-- The children hold the sentences they were made of. -/
theorem sentencesOf_childPieces (i : Nat) {childWs : Str} (hSpace : ∀ c ∈ childWs, isSpace c = true)
    (freshUuid : Nat → Uuid) (k : Nat) {sents : List Str} (hSents : ∀ sent ∈ sents, Trimmed sent) :
    sentencesOf (childPieces i childWs freshUuid k sents) i = sents := by
  induction sents generalizing k with
  | nil => rfl
  | cons sent sents ih =>
      obtain ⟨hSent, hTail⟩ := List.forall_mem_cons.mp hSents
      have hMatch := bulletLine_of_trimmed hSpace (show isListMarker '-' = true from rfl) hSent
        (Or.inr rfl)
      have hLine : childWs ++ "- ".toList ++ sent ++ ['\n'] =
          childWs ++ '-' :: ' ' :: sent ++ ['\n'] := by simp
      have hBody : bodyOf (childWs ++ "- ".toList ++ sent ++ ['\n']) = some sent := by
        rw [hLine, bodyOf, hMatch]
        rfl
      have ih := ih (k + 1) hTail
      simp only [sentencesOf] at ih
      simp only [sentencesOf, childPieces, List.filterMap_cons, hBody, reduceCtorEq, false_or,
        or_self, if_true, if_false, ih]

theorem childPieces_ne_nil (i : Nat) (childWs : Str) (freshUuid : Nat → Uuid) (k : Nat)
    {sents : List Str} (h : sents ≠ []) : childPieces i childWs freshUuid k sents ≠ [] := by
  cases sents with
  | nil => exact absurd rfl h
  | cons sent sents => simp [childPieces]

/-- The line is a bullet of a single sentence. -/
def Settled (l : Str) : Prop :=
  ∃ ws mark body, bulletMatch? (rstripChars ['\n'] l) = some (ws, mark, body) ∧
    oneSentence false body = true

/-- What every state of the loop has in common. -/
structure Inv (lines : List Str) (cur : List Piece) : Prop where
  piece : ∀ p ∈ cur, LinePiece p.2
  index : (cur.filterMap fun p => p.1.index) = List.range lines.length
  old : ∀ i l, (.old i, l) ∈ cur → lines[i]? = some l
  rewritten : ∀ i l, (.rewritten i, l) ∈ cur → Settled l
  child : ∀ i l, (.child i, l) ∈ cur → Settled l
  childId : ∀ i l, (.childId i, l) ∈ cur → bulletLevel l = none
  afterChild : ∀ before i l after, cur = before ++ (.childId i, l) :: after →
    ∃ init i' l', before = init ++ [(.child i', l')]

theorem Settled.bulletLevel_ne_none {l : Str} (h : Settled l) : bulletLevel l ≠ none := by
  obtain ⟨ws, mark, body, hMatch, _⟩ := h
  simp [bulletLevel, hMatch]

section Step

variable {lines : List Str} {cur : List Piece} {cand : Candidate} {A M Z : List Piece}
  {bl idl : Piece} {ws rest : Str} {mark : Char}

theorem SplitSite.not_settled (h : SplitSite cur cand A bl M idl Z ws mark rest) :
    ¬Settled bl.2 := by
  rintro ⟨ws', mark', body, hMatch, hOne⟩
  rw [h.bullet] at hMatch
  have hEq := Option.some.inj hMatch
  simp only [Prod.mk.injEq] at hEq
  obtain ⟨_, _, rfl⟩ := hEq
  have hFew := length_splitSentences_of_oneSentence (oneSentence_strip hOne)
  have hTwo := h.two
  rw [h.sents] at hTwo
  omega

theorem SplitSite.mem_bullet (h : SplitSite cur cand A bl M idl Z ws mark rest) : bl ∈ cur := by
  rw [h.eq]
  simp

/-- Only an old bullet is split. -/
theorem SplitSite.bullet_old (h : SplitSite cur cand A bl M idl Z ws mark rest)
    (hInv : Inv lines cur) : ∃ i, bl.1 = .old i := by
  obtain ⟨tag, l⟩ := bl
  cases tag with
  | old i => exact ⟨i, rfl⟩
  | rewritten i => exact absurd (hInv.rewritten i l h.mem_bullet) h.not_settled
  | child i => exact absurd (hInv.child i l h.mem_bullet) h.not_settled
  | childId i =>
      have hNone := hInv.childId i l h.mem_bullet
      have hSome := h.bullet
      rw [bulletLevel_eq_none] at hNone
      rw [hNone] at hSome
      cases hSome

/-- The lines from the bullet to its `id::` line are old ones. -/
theorem SplitSite.between_old (h : SplitSite cur cand A bl M idl Z ws mark rest)
    (hInv : Inv lines cur) {p : Piece} (hp : p ∈ M ++ [idl]) : ∃ i, p.1 = .old i := by
  have hLevel {q : Piece} (hq : q ∈ M ++ [idl]) : bulletLevel q.2 = none := by
    cases List.mem_append.mp hq with
    | inl hM => exact h.between q hM
    | inr hId => exact List.mem_singleton.mp hId ▸ h.idLine
  have hMem {q : Piece} (hq : q ∈ M ++ [idl]) : q ∈ cur := by
    rw [h.eq]
    cases List.mem_append.mp hq with
    | inl hM => simp [hM]
    | inr hId => simp [List.mem_singleton.mp hId]
  have hNotChild {i : Nat} {l : Str} (hq : (Origin.child i, l) ∈ M ++ [idl]) : False :=
    (hInv.child i l (hMem hq)).bulletLevel_ne_none (hLevel hq)
  obtain ⟨M₁, M₂, hSplit⟩ := List.append_of_mem hp
  obtain ⟨tag, l⟩ := p
  cases tag with
  | old i => exact ⟨i, rfl⟩
  | rewritten i => exact absurd (hLevel hp) (hInv.rewritten i l (hMem hp)).bulletLevel_ne_none
  | child i => exact (hNotChild hp).elim
  | childId i =>
      -- the line before it would be a new child, but it is the old bullet or no bullet
      have hCur : cur = (A ++ bl :: M₁) ++ (.childId i, l) :: (M₂ ++ Z) := by
        rw [h.eq, show M ++ idl :: Z = (M ++ [idl]) ++ Z by simp, hSplit]
        simp
      obtain ⟨init, i', l', hInit⟩ := hInv.afterChild _ _ _ _ hCur
      cases List.eq_nil_or_concat' M₁ with
      | inl hNil =>
          subst hNil
          obtain ⟨_, hEq⟩ := List.append_inj' hInit rfl
          obtain ⟨j, hOld⟩ := h.bullet_old hInv
          rw [(List.cons.inj hEq).1] at hOld
          cases hOld
      | inr hConcat =>
          obtain ⟨M₀, q, rfl⟩ := hConcat
          rw [← List.cons_append, ← List.append_assoc] at hInit
          obtain ⟨_, hEq⟩ := List.append_inj' hInit rfl
          obtain rfl := (List.cons.inj hEq).1
          refine (hNotChild (i := i') (l := l') ?_).elim
          rw [hSplit]
          simp

theorem isSpace_bulletIndentUnit (lines : List Str) (i : Nat) :
    ∀ c ∈ bulletIndentUnit lines i, isSpace c = true ∧ isLineBreak c = false := by
  rw [bulletIndentUnit]
  split
  · decide
  · split_ifs <;> decide

end Step

/-- One split, seen on the pieces: the old bullet `i` is rewritten and new
children are put behind its `id::` line, which is the last one of `N`. -/
structure SplitStep (cur next A : List Piece) (i : Nat) (l l' : Str) (N C Z : List Piece)
    (width childWidth : Nat) : Prop where
  cur_eq : cur = A ++ (.old i, l) :: (N ++ Z)
  next_eq : next = A ++ (.rewritten i, l') :: (N ++ (C ++ Z))
  level : bulletLevel l = some width
  level' : bulletLevel l' = some width
  settled : Settled l'
  piece' : LinePiece l'
  closed' : Closed l' ↔ endsWith ['\n'] l = true
  between : ∀ p ∈ N, bulletLevel p.2 = none
  between_old : ∀ p ∈ N, ∃ j, p.1 = .old j
  between_ne : N ≠ []
  children : ∀ p ∈ C, ChildPiece i childWidth p
  children_ne : C ≠ []
  sentences : sentencesOf ((.rewritten i, l') :: C) i = splitSentences (strip ((bodyOf l).getD []))
  childIds : ∀ before j m after, C = before ++ (.childId j, m) :: after →
    ∃ init m', before = init ++ [(.child i, m')]

theorem SplitSite.splitStep {lines : List Str} {cur : List Piece} {cand : Candidate}
    {A M Z : List Piece} {bl idl : Piece} {ws rest : Str} {mark : Char}
    (h : SplitSite cur cand A bl M idl Z ws mark rest) (hInv : Inv lines cur)
    (freshUuid : Nat → Uuid) (k : Nat) :
    ∃ i l l' C, bl = (.old i, l) ∧ SplitStep cur (tagSplit freshUuid k cur cand) A i l l'
      (M ++ [idl]) C Z ws.length (ws ++ bulletIndentUnit (texts cur) A.length).length := by
  obtain ⟨i, hOld⟩ := h.bullet_old hInv
  obtain ⟨tag, l⟩ := bl
  obtain rfl : tag = .old i := hOld
  have hPiece : LinePiece l := hInv.piece _ h.mem_bullet
  have hFree := free_strip_of_bullet hPiece h.bullet
  have hSents : ∀ sent ∈ cand.sents, Trimmed sent ∧ oneSentence false sent = true := by
    intro sent hSent
    rw [h.sents] at hSent
    exact ⟨trimmed_of_mem_splitSentences hSent hFree, oneSentence_of_mem_splitSentences hSent⟩
  obtain ⟨first, tail, hCons⟩ := List.exists_cons_of_ne_nil (l := cand.sents) (by
    intro hNil
    have := h.two
    simp [hNil] at this)
  have hTail : tail ≠ [] := by
    rintro rfl
    have := h.two
    simp [hCons] at this
  rw [hCons] at hSents
  obtain ⟨⟨hFirst, hOne⟩, hRest⟩ := List.forall_mem_cons.mp hSents
  obtain ⟨hMatch, hPiece', hClosed⟩ := rewriteBullet_spec hPiece h.bullet hFirst
  obtain ⟨hWs, _, ⟨y, hCore⟩, _⟩ := bulletMatch?_eq_some h.bullet
  have hWsFree : ∀ c ∈ ws, isLineBreak c = false := by
    obtain ⟨t, ht⟩ : rstripChars ['\n'] l <+: l := List.rdropWhile_prefix _ _
    rw [← ht, hCore, List.append_assoc, List.cons_append] at hPiece
    exact LinePiece.free_of_append_cons hPiece
  have hChildWs : ∀ c ∈ ws ++ bulletIndentUnit (texts cur) A.length,
      isSpace c = true ∧ isLineBreak c = false := by
    intro c hc
    cases List.mem_append.mp hc with
    | inl hc => exact ⟨hWs c hc, hWsFree c hc⟩
    | inr hc => exact isSpace_bulletIndentUnit (texts cur) A.length c hc
  have hEq := h.tagSplit_eq freshUuid k
  rw [hCons] at hEq
  refine ⟨i, l, rewriteBullet ws mark first l,
    childPieces i (ws ++ bulletIndentUnit (texts cur) A.length) freshUuid k tail, rfl, ?_, ?_, ?_, ?_,
    ⟨ws, mark, first, hMatch, hOne⟩, hPiece', hClosed, ?_, fun p hp => h.between_old hInv hp, by simp, ?_,
    childPieces_ne_nil _ _ _ _ hTail, ?_, fun _ _ _ _ hC => childPieces_childId hC⟩
  · rw [h.eq, List.append_assoc, List.singleton_append]
  · rw [hEq, List.append_assoc, List.singleton_append]
    rfl
  · rw [bulletLevel, h.bullet]
    rfl
  · rw [bulletLevel, hMatch]
    rfl
  · intro p hp
    cases List.mem_append.mp hp with
    | inl hM => exact h.between p hM
    | inr hId => exact List.mem_singleton.mp hId ▸ h.idLine
  · exact childPieces_spec _ (fun c hc => (hChildWs c hc).1) (fun c hc => (hChildWs c hc).2) _ _ hRest
  · have hTailSents := sentencesOf_childPieces i (fun c hc => (hChildWs c hc).1) freshUuid k
      (fun sent hSent => (hRest sent hSent).1)
    have hFirstBody : bodyOf (rewriteBullet ws mark first l) = some first := by
      rw [bodyOf, hMatch]
      rfl
    have hBody : bodyOf l = some rest := by
      rw [bodyOf, h.bullet]
      rfl
    have hStep : sentencesOf ((Origin.rewritten i, rewriteBullet ws mark first l) :: childPieces i
          (ws ++ bulletIndentUnit (texts cur) A.length) freshUuid k tail) i =
        first :: sentencesOf (childPieces i
          (ws ++ bulletIndentUnit (texts cur) A.length) freshUuid k tail) i := by
      simp [sentencesOf, hFirstBody]
    rw [hBody, Option.getD_some, ← h.sents, hCons, hStep, hTailSents]

theorem mem_tagLines {lines : List Str} {p : Piece} (hp : p ∈ tagLines lines) :
    ∃ i, p.1 = .old i ∧ lines[i]? = some p.2 := by
  obtain ⟨⟨l, i⟩, hMem, rfl⟩ := List.mem_map.mp hp
  exact ⟨i, rfl, List.mem_zipIdx_iff_getElem?.mp hMem⟩

theorem Inv.init {lines : List Str} (h : PageLines lines) : Inv lines (tagLines lines) where
  piece p hp := by
    obtain ⟨i, _, hLine⟩ := mem_tagLines hp
    exact linePiece_of_pageLines h (List.mem_of_getElem? hLine)
  index := by
    rw [tagLines, List.filterMap_map, List.range_eq_range', ← List.zipIdx_map_snd 0 lines,
      ← List.filterMap_eq_map]
    rfl
  old i l hp := by
    obtain ⟨j, hOld, hLine⟩ := mem_tagLines hp
    obtain rfl := Origin.old.inj hOld
    exact hLine
  rewritten i l hp := by
    obtain ⟨j, hOld, _⟩ := mem_tagLines hp
    cases hOld
  child i l hp := by
    obtain ⟨j, hOld, _⟩ := mem_tagLines hp
    cases hOld
  childId i l hp := by
    obtain ⟨j, hOld, _⟩ := mem_tagLines hp
    cases hOld
  afterChild before i l after hEq := by
    have hMem : (.childId i, l) ∈ tagLines lines := by rw [hEq]; simp
    obtain ⟨j, hOld, _⟩ := mem_tagLines hMem
    cases hOld

section Step

variable {lines : List Str} {cur next A N C Z : List Piece} {i width childWidth : Nat} {l l' : Str}

/-- The lines of the next state: the old ones without the bullet, the rewritten
bullet and the new children. -/
theorem SplitStep.mem_next (h : SplitStep cur next A i l l' N C Z width childWidth) {p : Piece}
    (hp : p ∈ next) : p ∈ cur ∨ p = (.rewritten i, l') ∨ p ∈ C := by
  rw [h.next_eq] at hp
  rw [h.cur_eq]
  simp only [List.mem_append, List.mem_cons] at hp ⊢
  obtain hA | rfl | hN | hC | hZ := hp
  · exact Or.inl (Or.inl hA)
  · exact Or.inr (Or.inl rfl)
  · exact Or.inl (Or.inr (Or.inr (Or.inl hN)))
  · exact Or.inr (Or.inr hC)
  · exact Or.inl (Or.inr (Or.inr (Or.inr hZ)))

theorem SplitStep.index_children (h : SplitStep cur next A i l l' N C Z width childWidth) :
    (C.filterMap fun p => p.1.index) = [] := by
  rw [List.filterMap_eq_nil_iff]
  intro p hp
  obtain ⟨hTag, _⟩ | ⟨hTag, _⟩ := (h.children p hp).shape
  · rw [hTag]
    rfl
  · rw [hTag]
    rfl

/-- A split keeps the invariant. -/
theorem Inv.step (hInv : Inv lines cur)
    (h : SplitStep cur next A i l l' N C Z width childWidth) : Inv lines next where
  piece p hp := by
    obtain hCur | rfl | hC := h.mem_next hp
    · exact hInv.piece p hCur
    · exact h.piece'
    · exact Or.inl (h.children p hC).closed
  index := by
    have hIndex := hInv.index
    rw [h.cur_eq] at hIndex
    rw [← hIndex, h.next_eq]
    simp only [List.filterMap_append, List.filterMap_cons, h.index_children, List.nil_append]
    rfl
  old j m hp := by
    obtain hCur | hEq | hC := h.mem_next hp
    · exact hInv.old j m hCur
    · cases hEq
    · obtain ⟨hTag, _⟩ | ⟨hTag, _⟩ := (h.children _ hC).shape
      · cases hTag
      · cases hTag
  rewritten j m hp := by
    obtain hCur | hEq | hC := h.mem_next hp
    · exact hInv.rewritten j m hCur
    · obtain ⟨_, rfl⟩ := Prod.mk.inj hEq
      exact h.settled
    · obtain ⟨hTag, _⟩ | ⟨hTag, _⟩ := (h.children _ hC).shape
      · cases hTag
      · cases hTag
  child j m hp := by
    obtain hCur | hEq | hC := h.mem_next hp
    · exact hInv.child j m hCur
    · cases hEq
    · obtain ⟨_, _, hBody⟩ | ⟨hTag, _⟩ := (h.children _ hC).shape
      · exact hBody
      · cases hTag
  childId j m hp := by
    obtain hCur | hEq | hC := h.mem_next hp
    · exact hInv.childId j m hCur
    · cases hEq
    · obtain ⟨hTag, _⟩ | ⟨_, hNone⟩ := (h.children _ hC).shape
      · cases hTag
      · exact hNone
  afterChild before j m after hEq := by
    rw [h.next_eq] at hEq
    obtain ⟨mid, rfl, -⟩ | ⟨-, hTag, -⟩ | ⟨mid, rfl, hTail⟩ := append_cons_eq_cases hEq
    · exact hInv.afterChild before j m (mid ++ (.old i, l) :: (N ++ Z)) (by simp [h.cur_eq])
    · cases hTag
    · obtain ⟨mid', hN, -⟩ | ⟨mid', rfl, hRest⟩ := append_eq_append_cons_cases hTail
      · obtain ⟨i', hOld⟩ := h.between_old (.childId j, m) (by simp [hN])
        cases hOld
      · obtain ⟨C', hC, -⟩ | ⟨Z₁, rfl, rfl⟩ := append_eq_append_cons_cases hRest
        · obtain ⟨init, m', rfl⟩ := h.childIds _ _ _ _ hC
          exact ⟨A ++ (.rewritten i, l') :: (N ++ init), i, m', by simp⟩
        · -- the line before it stands behind the `id::` line in the old state too
          obtain ⟨init, i', m', hInit⟩ := hInv.afterChild
            (A ++ (.old i, l) :: (N ++ Z₁)) j m after (by simp [h.cur_eq])
          cases List.eq_nil_or_concat' Z₁ with
          | inl hNil =>
              subst hNil
              obtain ⟨N₀, q, hN⟩ := (List.eq_nil_or_concat' N).resolve_left h.between_ne
              rw [hN, List.append_nil, ← List.cons_append, ← List.append_assoc] at hInit
              obtain ⟨_, hLast⟩ := List.append_inj' hInit rfl
              obtain ⟨i'', hOld⟩ := h.between_old q (by simp [hN])
              rw [(List.cons.inj hLast).1] at hOld
              cases hOld
          | inr hConcat =>
              obtain ⟨Z₀, q, rfl⟩ := hConcat
              rw [show A ++ (Origin.old i, l) :: (N ++ (Z₀ ++ [q])) =
                (A ++ (Origin.old i, l) :: (N ++ Z₀)) ++ [q] by simp] at hInit
              obtain ⟨_, hLast⟩ := List.append_inj' hInit rfl
              obtain rfl := (List.cons.inj hLast).1
              exact ⟨A ++ (.rewritten i, l') :: (N ++ (C ++ Z₀)), i', m', by simp⟩

end Step

end Plumber.SplitLargeBlocks
