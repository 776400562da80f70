import MatrycaPlumber.Graph.SplitPreservation

/-! What a run of large-block splits does to a page: exactly when every other
line stays where it was, and exactly when protected lines are left alone. -/
namespace Plumber.SplitLargeBlocks

open PyText MarkdownBlocks GlobalFenceScanner

/-- Every old line but the split bullets is a line of its own, in the old order;
the lines that are no bullets stand under the same bullet; and the sentences of
a split bullet are its old body up to whitespace. -/
structure PagePreserved (lines : List Str) (out : List Piece) : Prop where
  order : (out.filterMap fun p => p.1.index) = List.range lines.length
  kept : ∀ j, j < lines.length → (∃ l, (.rewritten j, l) ∈ out) ∨ KeptLine lines out j
  owner : ∀ j, j < lines.length → bulletLevel (lines.getD j []) = none → SameOwner lines out j
  sentences : ∀ j l, (.rewritten j, l) ∈ out →
    squeeze (sentencesOf out j).flatten = squeeze ((bodyOf (lines.getD j [])).getD [])

/-- The bullet ends in a newline, its `id::` line is terminated, and the next
line, if any, is a bullet. -/
def SplitSafe (lines : List Str) (cand : Candidate) : Prop :=
  endsWith ['\n'] (lines.getD cand.bulletIdx []) = true ∧
    (∀ c ∈ (lines.getD cand.idLineIdx []).getLast?, isLineBreak c = true) ∧
      ∀ l ∈ lines[cand.idLineIdx + 1]?, bulletLevel l ≠ none

instance (lines : List Str) (cand : Candidate) : Decidable (SplitSafe lines cand) :=
  inferInstanceAs (Decidable (_ ∧ _ ∧ _))

/-- Every protected line of the page as read is still there as a line of its own
and stands under the same bullet. -/
def ProtectedKept (text : Str) (out : List Piece) : Prop :=
  ∀ j, j < (splitlinesKeep text).length → computePageProtectedLineIndices text j = true →
    KeptLine (splitlinesKeep text) out j ∧ SameOwner (splitlinesKeep text) out j

/-- The split rewrites, glues or moves a protected line. -/
def TouchesProtected (isProtected : Nat → Bool) (cur : List Piece) (cand : Candidate) : Prop :=
  ∃ j, isProtected j = true ∧ (BulletHit cur cand j ∨ GlueHit cur cand j ∨ MoveHit cur cand j)

theorem touchesProtected_iff {isProtected : Nat → Bool} {cur : List Piece} {cand : Candidate} :
    TouchesProtected isProtected cur cand ↔
      ∃ p ∈ cur, ∃ j ∈ p.1.index, isProtected j = true ∧
        (BulletHit cur cand j ∨ GlueHit cur cand j ∨ MoveHit cur cand j) := by
  constructor
  · rintro ⟨j, hj, hHit⟩
    obtain ⟨before, m, after, hEq⟩ : ∃ before m after, cur = before ++ (.old j, m) :: after := by
      obtain ⟨before, m, after, hEq, _⟩ | ⟨before, m, after, hEq, _⟩ |
        ⟨before, m, after, hEq, _⟩ := hHit
      · exact ⟨before, m, after, hEq⟩
      · exact ⟨before, m, after, hEq⟩
      · exact ⟨before, m, after, hEq⟩
    exact ⟨(.old j, m), by simp [hEq], j, rfl, hj, hHit⟩
  · rintro ⟨p, _, j, _, hj, hHit⟩
    exact ⟨j, hj, hHit⟩

instance (isProtected : Nat → Bool) (cur : List Piece) (cand : Candidate) :
    Decidable (TouchesProtected isProtected cur cand) :=
  decidable_of_iff _ touchesProtected_iff.symm

theorem tagLines_split {lines : List Str} {j : Nat} (hj : j < lines.length) :
    tagLines lines = (tagLines lines).take j ++ (.old j, lines.getD j []) ::
      (tagLines lines).drop (j + 1) := by
  have hLen : j < (tagLines lines).length := by simpa [tagLines] using hj
  have hGet : (tagLines lines)[j] = (.old j, lines.getD j []) := by
    simp [tagLines, List.getD_eq_getElem?_getD, hj]
  rw [← hGet, ← List.drop_eq_getElem_cons hLen, List.take_append_drop]

theorem keptLine_init {lines : List Str} (hPage : PageLines lines) {j : Nat}
    (hj : j < lines.length) : KeptLine lines (tagLines lines) j := by
  have hSplit := tagLines_split hj
  refine ⟨_, _, hSplit, ?_⟩
  have hLines : texts ((tagLines lines).take j) ++ lines.getD j [] ::
      texts ((tagLines lines).drop (j + 1)) = lines := by
    conv_rhs => rw [← texts_tagLines lines, hSplit]
    simp [texts]
  rw [← hLines] at hPage
  obtain ⟨hBefore, hTail⟩ := pageLines_append hPage
  rw [OwnLine, splitlinesKeep_flatten hPage, splitlinesKeep_flatten hBefore,
    splitlinesKeep_flatten hTail.tail]

theorem sameOwner_init {lines : List Str} {j : Nat} (hj : j < lines.length) :
    SameOwner lines (tagLines lines) j :=
  ⟨_, _, tagLines_split hj, rfl⟩

section Loop

variable {tables : CaseTables} {lines : List Str} {cur : List Piece} {minChars : Int}
  {isProtected : Nat → Bool} {cand : Candidate}

/-- A line is kept to the end exactly when no split hits it. -/
theorem keptLine_tagLoop_iff (hPage : PageLines lines) (freshUuid : Nat → Uuid) (allowed : Nat)
    {j : Nat} (hj : j < lines.length) :
    KeptLine lines (tagLoop tables freshUuid minChars isProtected allowed 0 (tagLines lines)) j ↔
      EverySplit tables freshUuid minChars isProtected
        (fun cur cand => ¬(BulletHit cur cand j ∨ GlueHit cur cand j)) allowed 0
          (tagLines lines) := by
  have hStep : ∀ cur k cand, Inv lines cur →
      cand ∈ collectCandidates tables (strippedLines (texts cur)) minChars isProtected →
        (KeptLine lines (tagSplit freshUuid k cur cand) j ↔
          KeptLine lines cur j ∧ ¬(BulletHit cur cand j ∨ GlueHit cur cand j)) := by
    intro cur k cand hInv hCand
    rw [keptLine_step hInv hPage freshUuid k hCand j, not_or]
  exact (tagLoop_iff (Q := fun cur => KeptLine lines cur j) freshUuid hStep allowed 0
    (Inv.init hPage)).trans (and_iff_right (keptLine_init hPage hj))

theorem sameOwner_tagLoop_iff (hPage : PageLines lines) (freshUuid : Nat → Uuid) (allowed : Nat)
    {j : Nat} (hj : j < lines.length) :
    SameOwner lines (tagLoop tables freshUuid minChars isProtected allowed 0 (tagLines lines)) j ↔
      EverySplit tables freshUuid minChars isProtected
        (fun cur cand => ¬(BulletHit cur cand j ∨ MoveHit cur cand j)) allowed 0
          (tagLines lines) := by
  have hStep : ∀ cur k cand, Inv lines cur →
      cand ∈ collectCandidates tables (strippedLines (texts cur)) minChars isProtected →
        (SameOwner lines (tagSplit freshUuid k cur cand) j ↔
          SameOwner lines cur j ∧ ¬(BulletHit cur cand j ∨ MoveHit cur cand j)) := by
    intro cur k cand hInv hCand
    rw [sameOwner_step hInv freshUuid k hCand j, not_or]
  exact (tagLoop_iff (Q := fun cur => SameOwner lines cur j) freshUuid hStep allowed 0
    (Inv.init hPage)).trans (and_iff_right (sameOwner_init hj))

theorem everySplit_and {P R : List Piece → Candidate → Prop} (freshUuid : Nat → Uuid)
    (allowed k : Nat) (cur : List Piece) :
    EverySplit tables freshUuid minChars isProtected (fun cur cand => P cur cand ∧ R cur cand)
        allowed k cur ↔
      EverySplit tables freshUuid minChars isProtected P allowed k cur ∧
        EverySplit tables freshUuid minChars isProtected R allowed k cur := by
  have h : EverySplit tables freshUuid minChars isProtected _ allowed k cur ↔ _ :=
    everySplit_forall (P := fun b : Bool => if b then R else P) freshUuid allowed k cur
  simpa using h

theorem Inv.old_lt (hInv : Inv lines cur) {before after : List Piece} {j : Nat} {m : Str}
    (hEq : cur = before ++ (.old j, m) :: after) : j < lines.length :=
  (List.getElem?_eq_some_iff.mp (hInv.old j m (by rw [hEq]; simp))).1

theorem Inv.hit_lt (hInv : Inv lines cur) {j : Nat}
    (h : BulletHit cur cand j ∨ GlueHit cur cand j ∨ MoveHit cur cand j) : j < lines.length := by
  obtain ⟨before, m, after, hEq, _⟩ | ⟨before, m, after, hEq, _⟩ | ⟨before, m, after, hEq, _⟩ := h
  · exact hInv.old_lt hEq
  · exact hInv.old_lt hEq
  · exact hInv.old_lt hEq

/-- A line stays as it was and under its bullet exactly when no split hits it. -/
theorem kept_and_sameOwner_iff (hPage : PageLines lines) (freshUuid : Nat → Uuid) (allowed : Nat)
    {j : Nat} (hj : j < lines.length) :
    KeptLine lines (tagLoop tables freshUuid minChars isProtected allowed 0 (tagLines lines)) j ∧
        SameOwner lines (tagLoop tables freshUuid minChars isProtected allowed 0
          (tagLines lines)) j ↔
      EverySplit tables freshUuid minChars isProtected
        (fun cur cand => ¬(BulletHit cur cand j ∨ GlueHit cur cand j ∨ MoveHit cur cand j))
          allowed 0 (tagLines lines) := by
  rw [keptLine_tagLoop_iff hPage freshUuid allowed hj,
    sameOwner_tagLoop_iff hPage freshUuid allowed hj, ← everySplit_and]
  apply everySplit_congr freshUuid _ allowed 0 (Inv.init hPage)
  intro cur cand _ _
  tauto

/-- The lines of a set stay as they were and under their bullets exactly when no
split hits one of them. -/
theorem untouched_iff (hPage : PageLines lines) (freshUuid : Nat → Uuid) (allowed : Nat)
    (S : Nat → Prop) :
    (∀ j, j < lines.length → S j →
      KeptLine lines (tagLoop tables freshUuid minChars isProtected allowed 0 (tagLines lines)) j ∧
        SameOwner lines (tagLoop tables freshUuid minChars isProtected allowed 0
          (tagLines lines)) j) ↔
      EverySplit tables freshUuid minChars isProtected
        (fun cur cand => ∀ j, S j →
          ¬(BulletHit cur cand j ∨ GlueHit cur cand j ∨ MoveHit cur cand j))
        allowed 0 (tagLines lines) := by
  have hCond : ∀ cur cand, Inv lines cur →
      cand ∈ collectCandidates tables (strippedLines (texts cur)) minChars isProtected →
        ((∀ j, S j → ¬(BulletHit cur cand j ∨ GlueHit cur cand j ∨ MoveHit cur cand j)) ↔
          ∀ x : {j // j < lines.length ∧ S j},
            ¬(BulletHit cur cand x ∨ GlueHit cur cand x ∨ MoveHit cur cand x)) := by
    intro cur cand hInv _
    constructor
    · intro hAll x
      exact hAll x x.2.2
    · intro hAll j hj hHit
      exact hAll ⟨j, hInv.hit_lt hHit, hj⟩ hHit
  rw [everySplit_congr freshUuid hCond allowed 0 (Inv.init hPage), everySplit_forall]
  constructor
  · intro hAll x
    exact (kept_and_sameOwner_iff hPage freshUuid allowed x.2.1).mp (hAll x x.2.1 x.2.2)
  · intro hAll j hj hS
    exact (kept_and_sameOwner_iff hPage freshUuid allowed hj).mpr (hAll ⟨j, hj, hS⟩)

theorem lineAt {before after : List Piece} {p : Piece} {n : Nat}
    (hEq : cur = before ++ p :: after) (hLen : before.length = n) : (texts cur)[n]? = some p.2 := by
  rw [hEq, ← hLen]
  simp [texts]

theorem Inv.line_eq (hInv : Inv lines cur) {before after : List Piece} {j : Nat} {m : Str}
    (hEq : cur = before ++ (.old j, m) :: after) : lines.getD j [] = m := by
  rw [List.getD_eq_getElem?_getD, hInv.old j m (by rw [hEq]; simp)]
  rfl

theorem isAbove_none_eq_false {l : Str} : isAbove none l = false ↔ bulletLevel l = none := by
  cases hLevel : bulletLevel l <;> simp [isAbove, hLevel]

/-- A split is safe exactly when it hits no line other than bullets. -/
theorem splitSafe_iff (hInv : Inv lines cur)
    (hCand : cand ∈ collectCandidates tables (strippedLines (texts cur)) minChars isProtected) :
    SplitSafe (texts cur) cand ↔
      ∀ j, bulletLevel (lines.getD j []) = none →
        ¬(BulletHit cur cand j ∨ GlueHit cur cand j ∨ MoveHit cur cand j) := by
  -- the identifiers of the new children do not matter here
  obtain ⟨A, i, l, l', N, C, Z, width, h, hBullet, hId, hLine⟩ :=
    exists_splitStep hInv (fun _ => sampleId) 0 hCand
  obtain ⟨N₀, q, hN⟩ := (List.eq_nil_or_concat' N).resolve_left h.between_ne
  have hCur : cur = (A ++ (.old i, l) :: N₀) ++ q :: Z := by rw [h.cur_eq, hN]; simp
  have hqLen : (A ++ (Origin.old i, l) :: N₀).length = cand.idLineIdx := by
    rw [hId, hN]
    simp only [List.length_append, List.length_cons, List.length_nil]
  have hIdLine : (texts cur).getD cand.idLineIdx [] = q.2 := by
    rw [List.getD_eq_getElem?_getD, lineAt hCur hqLen, Option.getD_some]
  have hNext : (texts cur)[cand.idLineIdx + 1]? = Z.head?.map Prod.snd := by
    have hTexts : texts cur = texts ((A ++ (.old i, l) :: N₀) ++ [q]) ++ texts Z := by
      rw [hCur]
      simp [texts]
    have hLen : cand.idLineIdx + 1 = (texts ((A ++ (.old i, l) :: N₀) ++ [q])).length := by
      rw [← hqLen]
      simp only [texts, List.length_map, List.length_append, List.length_cons, List.length_nil]
    rw [hTexts, List.getElem?_append_right hLen.ge, hLen, Nat.sub_self]
    cases Z <;> rfl
  constructor
  · rintro ⟨hEnds, hBreak, hHead⟩ j hLevel hHit
    obtain ⟨before, m, after, hEq, hLen⟩ | ⟨before, m, after, hEq, hGlue⟩ |
      ⟨before, m, after, hEq, hLt, _, hNone⟩ := hHit
    · -- the split line is a bullet
      have hGet := lineAt hEq hLen
      rw [hInv.line_eq hEq] at hLevel
      have hLine' := lineAt h.cur_eq hBullet.symm
      rw [hGet] at hLine'
      have hSome := h.level
      rw [← show m = l from Option.some.inj hLine', hLevel] at hSome
      cases hSome
    · obtain ⟨_, hNot⟩ | ⟨hLen, hOpen⟩ := hGlue
      · rw [hEnds] at hNot
        cases hNot
      · have hGet := lineAt hEq hLen
        rw [List.getD_eq_getElem?_getD, hGet, Option.getD_some] at hBreak
        obtain ⟨body, b, rfl⟩ := (List.eq_nil_or_concat' m).resolve_left
          (hInv.piece (.old j, m) (by rw [hEq]; simp)).ne_nil
        have hYes := hBreak b (by simp)
        rw [hOpen b (by simp)] at hYes
        cases hYes
    · rw [hInv.line_eq hEq] at hLevel
      by_cases hAdjacent : before.length = cand.idLineIdx + 1
      · exact hHead m (lineAt hEq hAdjacent) hLevel
      · -- the line right behind the `id::` line stands in between and is no bullet
        obtain ⟨start, p, rest, hBefore, hStart⟩ :=
          exists_eq_append_cons (show cand.idLineIdx + 1 < before.length by omega)
        have hp : isAbove (bulletLevel m) p.2 = false := by
          apply hNone
          rw [hBefore, ← hStart, List.drop_left]
          exact List.mem_cons_self
        rw [hLevel] at hp
        have hCur' : cur = start ++ p :: (rest ++ (.old j, m) :: after) := by
          rw [hEq, hBefore]
          simp
        exact hHead p.2 (lineAt hCur' hStart) (isAbove_none_eq_false.mp hp)
  · intro hAll
    have hOldLevel {before after : List Piece} {r : Piece} {k : Nat} (hr : r ∈ N)
        (hTag : r.1 = .old k) (hEq : cur = before ++ r :: after) :
        bulletLevel (lines.getD k []) = none := by
      obtain ⟨tag, n⟩ := r
      obtain rfl : tag = .old k := hTag
      rw [hInv.line_eq hEq]
      exact h.between _ hr
    refine ⟨?_, ?_, ?_⟩
    · rw [← Bool.not_eq_false]
      intro hNot
      obtain ⟨r, N', hHead⟩ := List.exists_cons_of_ne_nil h.between_ne
      have hr : r ∈ N := by simp [hHead]
      obtain ⟨k, hTag⟩ := h.between_old r hr
      have hEq : cur = (A ++ [(.old i, l)]) ++ r :: (N' ++ Z) := by rw [h.cur_eq, hHead]; simp
      apply hAll k (hOldLevel hr hTag hEq)
      obtain ⟨tag, n⟩ := r
      obtain rfl : tag = .old k := hTag
      exact Or.inr (Or.inl ⟨_, n, _, hEq, Or.inl ⟨by simp [hBullet], hNot⟩⟩)
    · intro c hc
      rw [← Bool.not_eq_false]
      intro hNot
      have hq : q ∈ N := by simp [hN]
      obtain ⟨k, hTag⟩ := h.between_old q hq
      apply hAll k (hOldLevel hq hTag hCur)
      obtain ⟨tag, n⟩ := q
      obtain rfl : tag = .old k := hTag
      rw [hIdLine] at hc
      refine Or.inr (Or.inl ⟨_, n, _, hCur, Or.inr ⟨hqLen, ?_⟩⟩)
      intro d hd
      rw [Option.mem_def] at hc hd
      rw [Option.some.inj (hd.symm.trans hc)]
      exact hNot
    · intro n hn hLevel
      rw [hNext] at hn
      obtain ⟨p, hHead, rfl⟩ := Option.map_eq_some_iff.mp hn
      obtain ⟨Z', rfl⟩ := List.head?_eq_some_iff.mp hHead
      have hEq : cur = ((A ++ (.old i, l) :: N₀) ++ [q]) ++ p :: Z' := by rw [hCur]; simp
      have hMem : p ∈ cur := by rw [hEq]; simp
      obtain ⟨tag, n⟩ := p
      cases tag with
      | rewritten k => exact (hInv.rewritten k n hMem).bulletLevel_ne_none hLevel
      | child k => exact (hInv.child k n hMem).bulletLevel_ne_none hLevel
      | childId k =>
          obtain ⟨init, k', n', hInit⟩ := hInv.afterChild _ _ _ _ hEq
          obtain ⟨_, hLast⟩ := List.append_inj' hInit rfl
          obtain ⟨k'', hTag⟩ := h.between_old q (by simp [hN])
          rw [(List.cons.inj hLast).1] at hTag
          cases hTag
      | old k =>
          apply hAll k (by rw [hInv.line_eq hEq]; exact hLevel)
          have hLevel : bulletLevel n = none := hLevel
          refine Or.inr (Or.inr ⟨_, n, _, hEq, ?_, ?_, ?_⟩)
          · rw [List.length_append, hqLen]
            simp
          · rw [hLevel]
            rfl
          · rw [List.drop_of_length_le (by rw [List.length_append, hqLen]; simp)]
            simp

/-- What the loop knows about the bullets it has split. -/
structure SplitInv (lines : List Str) (cur : List Piece) : Prop where
  bullet : ∀ j l, (.rewritten j, l) ∈ cur → bulletLevel (lines.getD j []) ≠ none
  child : ∀ j l, (.child j, l) ∈ cur → ∃ l', (.rewritten j, l') ∈ cur
  sentences : ∀ j l, (.rewritten j, l) ∈ cur →
    squeeze (sentencesOf cur j).flatten = squeeze ((bodyOf (lines.getD j [])).getD [])
  kept : ∀ j, j < lines.length → bulletLevel (lines.getD j []) ≠ none →
    (∃ l, (.rewritten j, l) ∈ cur) ∨ KeptLine lines cur j

theorem sentencesOf_append (X Y : List Piece) (j : Nat) :
    sentencesOf (X ++ Y) j = sentencesOf X j ++ sentencesOf Y j := List.filterMap_append

theorem sentencesOf_eq_nil {X : List Piece} {j : Nat}
    (h : ∀ p ∈ X, p.1 ≠ .rewritten j ∧ p.1 ≠ .child j) : sentencesOf X j = [] := by
  rw [sentencesOf, List.filterMap_eq_nil_iff]
  intro p hp
  simp [h p hp]

theorem SplitStep.sentencesOf_self {next A N C Z : List Piece} {i width childWidth : Nat}
    {l l' : Str} (h : SplitStep cur next A i l l' N C Z width childWidth)
    (hFresh : ∀ p ∈ cur, p.1 ≠ .rewritten i ∧ p.1 ≠ .child i) :
    sentencesOf next i = splitSentences (strip ((bodyOf l).getD [])) := by
  have hNil {X : List Piece} (hX : ∀ p ∈ X, p ∈ cur) : sentencesOf X i = [] :=
    sentencesOf_eq_nil fun p hp => hFresh p (hX p hp)
  have hA : sentencesOf A i = [] := by
    apply hNil
    intro p hp
    simp [h.cur_eq, hp]
  have hN : sentencesOf N i = [] := by
    apply hNil
    intro p hp
    simp [h.cur_eq, hp]
  have hZ : sentencesOf Z i = [] := by
    apply hNil
    intro p hp
    simp [h.cur_eq, hp]
  have hNext : next = A ++ ([(.rewritten i, l')] ++ (N ++ (C ++ Z))) := h.next_eq
  have hSents : sentencesOf ([(.rewritten i, l')] ++ C) i =
      splitSentences (strip ((bodyOf l).getD [])) := h.sentences
  rw [hNext, ← hSents]
  simp only [sentencesOf_append, hA, hN, hZ, List.nil_append, List.append_nil]

theorem SplitStep.sentencesOf_ne {next A N C Z : List Piece} {i j width childWidth : Nat}
    {l l' : Str} (h : SplitStep cur next A i l l' N C Z width childWidth) (hj : j ≠ i) :
    sentencesOf next j = sentencesOf cur j := by
  have hOld : sentencesOf [(.old i, l)] j = [] := sentencesOf_eq_nil (by simp)
  have hNew : sentencesOf [(.rewritten i, l')] j = [] := by
    apply sentencesOf_eq_nil
    simp [Ne.symm hj]
  have hC : sentencesOf C j = [] := by
    apply sentencesOf_eq_nil
    intro p hp
    obtain ⟨hTag, _⟩ | ⟨hTag, _⟩ := (h.children p hp).shape
    · simp [hTag, Ne.symm hj]
    · simp [hTag]
  have hCur : cur = A ++ ([(.old i, l)] ++ (N ++ Z)) := h.cur_eq
  have hNext : next = A ++ ([(.rewritten i, l')] ++ (N ++ (C ++ Z))) := h.next_eq
  rw [hNext, hCur]
  simp only [sentencesOf_append, hOld, hNew, hC, List.nil_append]

theorem SplitInv.init (hPage : PageLines lines) : SplitInv lines (tagLines lines) where
  bullet j l hMem := by
    obtain ⟨i, hTag, _⟩ := mem_tagLines hMem
    cases hTag
  child j l hMem := by
    obtain ⟨i, hTag, _⟩ := mem_tagLines hMem
    cases hTag
  sentences j l hMem := by
    obtain ⟨i, hTag, _⟩ := mem_tagLines hMem
    cases hTag
  kept j hj _ := Or.inr (keptLine_init hPage hj)

theorem SplitInv.step (hSplit : SplitInv lines cur) (hInv : Inv lines cur)
    (hPage : PageLines lines) (freshUuid : Nat → Uuid) (k : Nat)
    (hCand : cand ∈ collectCandidates tables (strippedLines (texts cur)) minChars isProtected) :
    SplitInv lines (tagSplit freshUuid k cur cand) := by
  have hKeptStep := keptLine_step hInv hPage freshUuid k hCand
  obtain ⟨A, i, l, l', N, C, Z, width, h, hBullet, hId, hLine⟩ :=
    exists_splitStep hInv freshUuid k hCand
  have hLineI : lines.getD i [] = l := hInv.line_eq h.cur_eq
  have hNew : (Origin.rewritten i, l') ∈ tagSplit freshUuid k cur cand := by rw [h.next_eq]; simp
  have hStays {p : Piece} (hp : p ∈ cur) (hNot : p.1 ≠ .old i) :
      p ∈ tagSplit freshUuid k cur cand := by
    rw [h.cur_eq] at hp
    rw [h.next_eq]
    simp only [List.mem_append, List.mem_cons] at hp ⊢
    obtain hA | rfl | hN | hZ := hp
    · exact Or.inl hA
    · exact absurd rfl hNot
    · exact Or.inr (Or.inr (Or.inl hN))
    · exact Or.inr (Or.inr (Or.inr (Or.inr hZ)))
  refine ⟨?_, ?_, ?_, ?_⟩
  · intro j m hMem
    obtain hCur | hEq | hC := h.mem_next hMem
    · exact hSplit.bullet j m hCur
    · obtain ⟨hTag, rfl⟩ := Prod.mk.inj hEq
      obtain rfl := Origin.rewritten.inj hTag
      rw [hLineI, h.level]
      simp
    · obtain ⟨hTag, _⟩ | ⟨hTag, _⟩ := (h.children _ hC).shape
      · cases hTag
      · cases hTag
  · intro j m hMem
    obtain hCur | hEq | hC := h.mem_next hMem
    · obtain ⟨m', hMem'⟩ := hSplit.child j m hCur
      exact ⟨m', hStays hMem' (by simp)⟩
    · cases hEq
    · obtain ⟨hTag, _⟩ | ⟨hTag, _⟩ := (h.children _ hC).shape
      · obtain rfl := Origin.child.inj hTag
        exact ⟨l', hNew⟩
      · cases hTag
  · intro j m hMem
    by_cases hj : j = i
    · subst hj
      -- an old bullet has no sentences yet
      have hFresh : ∀ p ∈ cur, p.1 ≠ .rewritten j ∧ p.1 ≠ .child j := by
        have hNone (n : Str) : (Origin.rewritten j, n) ∉ cur := by
          intro hp
          obtain ⟨before, after, hEq⟩ := List.append_of_mem hp
          obtain ⟨_, hTag, _⟩ := hInv.unique h.cur_eq hEq rfl rfl
          cases hTag
        rintro ⟨tag, n⟩ hp
        refine ⟨?_, ?_⟩
        · rintro rfl
          exact hNone n hp
        · rintro rfl
          obtain ⟨n', hp'⟩ := hSplit.child j n hp
          exact hNone n' hp'
      rw [h.sentencesOf_self hFresh, hLineI, squeeze_splitSentences, squeeze_strip]
    · rw [h.sentencesOf_ne hj]
      obtain hCur | hEq | hC := h.mem_next hMem
      · exact hSplit.sentences j m hCur
      · exact absurd (Origin.rewritten.inj (Prod.mk.inj hEq).1) hj
      · obtain ⟨hTag, _⟩ | ⟨hTag, _⟩ := (h.children _ hC).shape
        · cases hTag
        · cases hTag
  · intro j hj hLevel
    cases hSplit.kept j hj hLevel with
    | inl hRewritten =>
        obtain ⟨m, hMem⟩ := hRewritten
        exact Or.inl ⟨m, hStays hMem (by simp)⟩
    | inr hKept =>
        by_cases hHit : BulletHit cur cand j
        · obtain ⟨before, m, after, hEq, hLen⟩ := hHit
          obtain ⟨_, hTail⟩ := List.append_inj (hEq.symm.trans h.cur_eq) (hLen.trans hBullet)
          obtain rfl := Origin.old.inj (Prod.mk.inj (List.cons.inj hTail).1).1
          exact Or.inl ⟨l', hNew⟩
        · refine Or.inr ((hKeptStep j).mpr ⟨hKept, hHit, ?_⟩)
          -- what is joined to a neighbour stands between a bullet and its `id::` line
          rintro ⟨before, m, after, hEq, hGlue⟩
          rw [hInv.line_eq hEq] at hLevel
          have hNLen : 0 < N.length := List.length_pos_iff.mpr h.between_ne
          have hIn : A.length < before.length ∧ before.length ≤ A.length + N.length := by
            obtain ⟨hLen, _⟩ | ⟨hLen, _⟩ := hGlue
            · omega
            · omega
          rw [h.cur_eq] at hEq
          obtain ⟨hX, _⟩ | ⟨X', Y', _, hZone⟩ := zone_of_cur (q := (.rewritten i, l'))
            (C := C) hEq
          · rw [hX] at hIn
            omega
          · cases hZone with
            | @front X A₂ hA =>
                rw [hA, List.length_append] at hIn
                omega
            | middle hN => exact hLevel (h.between (.old j, m) (by simp [hN]))
            | back _ =>
                simp only [List.length_append, List.length_cons] at hIn
                omega

theorem SplitInv.tagLoop (hPage : PageLines lines) (freshUuid : Nat → Uuid) (allowed : Nat) :
    Inv lines (tagLoop tables freshUuid minChars isProtected allowed 0 (tagLines lines)) ∧
      SplitInv lines (tagLoop tables freshUuid minChars isProtected allowed 0
        (tagLines lines)) := by
  apply tagLoop_induction freshUuid _ allowed 0 (Inv.init hPage) (SplitInv.init hPage)
  intro cur k cand hInv hSplit hCand
  exact hSplit.step hInv hPage freshUuid k hCand

/-- The page is preserved exactly when every split of the run is safe. -/
theorem pagePreserved_tagLoop_iff (hPage : PageLines lines) (freshUuid : Nat → Uuid)
    (allowed : Nat) :
    PagePreserved lines
        (tagLoop tables freshUuid minChars isProtected allowed 0 (tagLines lines)) ↔
      EverySplit tables freshUuid minChars isProtected
        (fun cur cand => SplitSafe (texts cur) cand) allowed 0 (tagLines lines) := by
  obtain ⟨hInv, hSplit⟩ : Inv lines (tagLoop tables freshUuid minChars isProtected allowed 0
        (tagLines lines)) ∧ _ := SplitInv.tagLoop hPage freshUuid allowed
  rw [everySplit_congr freshUuid (fun _ _ hInv hCand => splitSafe_iff hInv hCand) allowed 0
    (Inv.init hPage), ← untouched_iff hPage]
  constructor
  · intro hPreserved j hj hLevel
    refine ⟨?_, hPreserved.owner j hj hLevel⟩
    cases hPreserved.kept j hj with
    | inl hRewritten =>
        obtain ⟨l, hMem⟩ := hRewritten
        exact absurd hLevel (hSplit.bullet j l hMem)
    | inr hKept => exact hKept
  · intro hAll
    refine ⟨hInv.index, ?_, fun j hj hLevel => (hAll j hj hLevel).2, hSplit.sentences⟩
    intro j hj
    by_cases hLevel : bulletLevel (lines.getD j []) = none
    · exact Or.inr (hAll j hj hLevel).1
    · exact hSplit.kept j hj hLevel

end Loop

/-- The pieces of the page after the run. -/
def runPieces (tables : CaseTables) (freshUuid : Nat → Uuid) (minChars maxBlocks : Int)
    (text : Str) : List Piece :=
  tagLoop tables freshUuid minChars (computePageProtectedLineIndices text) maxBlocks.toNat 0
    (tagLines (splitlinesKeep text))

/-- Every split of the run is made in a state of which `C` holds. -/
def EverySplitOfRun (tables : CaseTables) (freshUuid : Nat → Uuid) (minChars maxBlocks : Int)
    (text : Str) (C : List Piece → Candidate → Prop) : Prop :=
  EverySplit tables freshUuid minChars (computePageProtectedLineIndices text) C maxBlocks.toNat 0
    (tagLines (splitlinesKeep text))

instance EverySplit.decidable {tables : CaseTables} {freshUuid : Nat → Uuid} {minChars : Int}
    {isProtected : Nat → Bool} {C : List Piece → Candidate → Prop}
    [∀ cur cand, Decidable (C cur cand)] :
    ∀ allowed k cur,
      Decidable (EverySplit tables freshUuid minChars isProtected C allowed k cur)
  | 0, _, _ => .isTrue trivial
  | allowed + 1, k, cur =>
      match hCands : collectCandidates tables (strippedLines (texts cur)) minChars isProtected with
      | [] => .isTrue (by rw [EverySplit, hCands]; trivial)
      | cand :: _ =>
          have : Decidable (EverySplit tables freshUuid minChars isProtected C allowed
              (k + cand.sents.tail.length) (tagSplit freshUuid k cur cand)) :=
            EverySplit.decidable allowed _ _
          decidable_of_iff (C cur cand ∧ EverySplit tables freshUuid minChars isProtected C allowed
            (k + cand.sents.tail.length) (tagSplit freshUuid k cur cand)) (by
              rw [EverySplit, hCands])

instance {tables : CaseTables} {freshUuid : Nat → Uuid} {minChars maxBlocks : Int} {text : Str}
    {C : List Piece → Candidate → Prop} [∀ cur cand, Decidable (C cur cand)] :
    Decidable (EverySplitOfRun tables freshUuid minChars maxBlocks text C) :=
  EverySplit.decidable _ _ _

/-- The written text is the loop's result, piece by piece. -/
theorem processPage_written {tables : CaseTables} {freshUuid : Nat → Uuid} {commit : Str → Bool}
    {path pageRef raw new : Str} {minChars maxBlocks : Int} {dryRun : Bool} {outcome : PageOutcome}
    (hRun : processPage tables freshUuid commit path pageRef minChars maxBlocks dryRun (.ok raw) =
      .ok outcome)
    (hNew : outcome.written = some new) :
    new = (texts (runPieces tables freshUuid minChars maxBlocks
      (universalNewlines raw))).flatten := by
  rw [runPieces, texts_tagLoop tables freshUuid pageRef, texts_tagLines]
  simp only [processPage] at hRun
  split_ifs at hRun
  · rw [← Except.ok.inj hRun] at hNew
    cases hNew
  · rw [← Except.ok.inj hRun] at hNew
    cases hNew
  · rw [← Except.ok.inj hRun] at hNew
    exact (Option.some.inj hNew).symm

section Run

variable {tables : CaseTables} {text : Str} {minChars maxBlocks : Int}

theorem keptLine_run_iff (freshUuid : Nat → Uuid) (hText : '\r' ∉ text) {j : Nat}
    (hj : j < (splitlinesKeep text).length) :
    KeptLine (splitlinesKeep text) (runPieces tables freshUuid minChars maxBlocks text) j ↔
      EverySplitOfRun tables freshUuid minChars maxBlocks text
        fun cur cand => ¬(BulletHit cur cand j ∨ GlueHit cur cand j) :=
  keptLine_tagLoop_iff (pageLines_splitlinesKeep hText) freshUuid maxBlocks.toNat hj

theorem pagePreserved_run_iff (freshUuid : Nat → Uuid) (hText : '\r' ∉ text) :
    PagePreserved (splitlinesKeep text) (runPieces tables freshUuid minChars maxBlocks text) ↔
      EverySplitOfRun tables freshUuid minChars maxBlocks text
        fun cur cand => SplitSafe (texts cur) cand :=
  pagePreserved_tagLoop_iff (pageLines_splitlinesKeep hText) freshUuid maxBlocks.toNat

theorem protectedKept_run_iff (freshUuid : Nat → Uuid) (hText : '\r' ∉ text) :
    ProtectedKept text (runPieces tables freshUuid minChars maxBlocks text) ↔
      EverySplitOfRun tables freshUuid minChars maxBlocks text
        fun cur cand => ¬TouchesProtected (computePageProtectedLineIndices text) cur cand := by
  have hTouches : ∀ cur cand,
      (¬TouchesProtected (computePageProtectedLineIndices text) cur cand ↔
        ∀ j, computePageProtectedLineIndices text j = true →
          ¬(BulletHit cur cand j ∨ GlueHit cur cand j ∨ MoveHit cur cand j)) := by
    intro cur cand
    simp only [TouchesProtected, not_exists, not_and]
  simp only [EverySplitOfRun, hTouches, ProtectedKept, runPieces]
  exact untouched_iff (pageLines_splitlinesKeep hText) freshUuid maxBlocks.toNat _

end Run

/-- A run that writes preserves the page exactly when each of its splits finds a
bullet that ends in a newline and an `id::` line that is terminated and followed
by a bullet or by nothing. -/
theorem processPage_pagePreserved_iff {tables : CaseTables} {freshUuid : Nat → Uuid}
    {commit : Str → Bool} {path pageRef raw new : Str} {minChars maxBlocks : Int} {dryRun : Bool}
    {outcome : PageOutcome}
    (hRun : processPage tables freshUuid commit path pageRef minChars maxBlocks dryRun (.ok raw) =
      .ok outcome)
    (hNew : outcome.written = some new) :
    new = (texts (runPieces tables freshUuid minChars maxBlocks
        (universalNewlines raw))).flatten ∧
      (PagePreserved (splitlinesKeep (universalNewlines raw))
          (runPieces tables freshUuid minChars maxBlocks (universalNewlines raw)) ↔
        EverySplitOfRun tables freshUuid minChars maxBlocks (universalNewlines raw)
          fun cur cand => SplitSafe (texts cur) cand) := by
  refine ⟨processPage_written hRun hNew, ?_⟩
  exact pagePreserved_run_iff freshUuid (cr_notMem_universalNewlines raw)

def sampleIdLine : Str := "  id:: ".toList ++ sampleId.text ++ ['\n']

/-- A bullet of two sentences above another bullet and a code fence. -/
def samplePage : Str :=
  "- The first sentence is long enough to be cut. Second.\n".toList ++ sampleIdLine ++
    "- b\n```\ncode\n```\n".toList

def sampleSplit : Str :=
  "- The first sentence is long enough to be cut.\n".toList ++ sampleIdLine ++
    "  - Second.\n  ".toList ++ sampleIdLine ++ "- b\n```\ncode\n```\n".toList

def sampleHit : SplitHit where
  pageRef := "p".toList
  blockUuid := sampleId.text
  beforeLen := 52
  sentences := 2

/-- The run on the sample page, with its outcome. -/
def sampleRun : {outcome : PageOutcome //
    processPage asciiCase (fun _ => sampleId) (fun _ => true) "p.md".toList "p".toList 50 1 false
      (.ok samplePage) = .ok outcome} :=
  ⟨⟨[sampleHit], none, ["p.md".toList], some sampleSplit⟩, by decide +kernel⟩

theorem samplePage_run :
    processPage asciiCase (fun _ => sampleId) (fun _ => true) "p.md".toList "p".toList 50 1 false
      (.ok samplePage) = .ok ⟨[sampleHit], none, ["p.md".toList], some sampleSplit⟩ :=
  sampleRun.2

/-- The sample page is preserved. -/
theorem samplePage_pagePreserved :
    sampleSplit = (texts (runPieces asciiCase (fun _ => sampleId) 50 1
        (universalNewlines samplePage))).flatten ∧
      PagePreserved (splitlinesKeep (universalNewlines samplePage))
        (runPieces asciiCase (fun _ => sampleId) 50 1 (universalNewlines samplePage)) := by
  obtain ⟨hWritten, hIff⟩ := processPage_pagePreserved_iff samplePage_run rfl
  exact ⟨hWritten, hIff.mpr (by decide +kernel)⟩

/-- A bullet of two sentences with a property below its `id::` line. -/
def propertyPage : Str :=
  "- The first sentence is long enough to be cut. Second.\n".toList ++ sampleIdLine ++
    "  tags:: x\n".toList

def propertySplit : Str :=
  "- The first sentence is long enough to be cut.\n".toList ++ sampleIdLine ++
    "  - Second.\n  ".toList ++ sampleIdLine ++ "  tags:: x\n".toList

/-- The property falls under the new child. -/
theorem property_below_id_moves :
    ¬∀ (tables : CaseTables) (freshUuid : Nat → Uuid) (commit : Str → Bool)
      (path pageRef raw new : Str) (minChars maxBlocks : Int) (outcome : PageOutcome),
      processPage tables freshUuid commit path pageRef minChars maxBlocks false (.ok raw) =
          .ok outcome → outcome.written = some new →
        PagePreserved (splitlinesKeep (universalNewlines raw))
          (runPieces tables freshUuid minChars maxBlocks (universalNewlines raw)) := by
  intro h
  have hPreserved := h asciiCase (fun _ => sampleId) (fun _ => true) "p.md".toList "p".toList
    propertyPage propertySplit 50 1 ⟨[sampleHit], none, ["p.md".toList], some propertySplit⟩
    (by decide +kernel) rfl
  rw [pagePreserved_run_iff _ (cr_notMem_universalNewlines _)] at hPreserved
  revert hPreserved
  decide +kernel

/-- A run that writes leaves every protected line of the page as read where it
was and under its bullet exactly when no split of it touches one. -/
theorem processPage_protected_iff {tables : CaseTables} {freshUuid : Nat → Uuid}
    {commit : Str → Bool} {path pageRef raw new : Str} {minChars maxBlocks : Int} {dryRun : Bool}
    {outcome : PageOutcome}
    (hRun : processPage tables freshUuid commit path pageRef minChars maxBlocks dryRun (.ok raw) =
      .ok outcome)
    (hNew : outcome.written = some new) :
    new = (texts (runPieces tables freshUuid minChars maxBlocks
        (universalNewlines raw))).flatten ∧
      (ProtectedKept (universalNewlines raw)
          (runPieces tables freshUuid minChars maxBlocks (universalNewlines raw)) ↔
        EverySplitOfRun tables freshUuid minChars maxBlocks (universalNewlines raw)
          fun cur cand => ¬TouchesProtected
            (computePageProtectedLineIndices (universalNewlines raw)) cur cand) := by
  refine ⟨processPage_written hRun hNew, ?_⟩
  exact protectedKept_run_iff freshUuid (cr_notMem_universalNewlines raw)

/-- The code fence of the sample page is left alone. -/
theorem samplePage_protectedKept :
    sampleSplit = (texts (runPieces asciiCase (fun _ => sampleId) 50 1
        (universalNewlines samplePage))).flatten ∧
      ProtectedKept (universalNewlines samplePage)
        (runPieces asciiCase (fun _ => sampleId) 50 1 (universalNewlines samplePage)) := by
  obtain ⟨hWritten, hIff⟩ := processPage_protected_iff samplePage_run rfl
  exact ⟨hWritten, hIff.mpr (by decide +kernel)⟩

/-- A bullet of three sentences above a code fence with a bullet of two. -/
def fencePage : Str :=
  "- The first sentence is long enough to be cut. B. C.\n".toList ++ sampleIdLine ++
    "- b\n```\n- This code line looks like ".toList ++ "a long list bullet. Two.\n".toList ++
      sampleIdLine ++ "```\n".toList

def fenceSplit : Str :=
  "- The first sentence is long enough to be cut.\n".toList ++ sampleIdLine ++
    "  - B.\n  ".toList ++ sampleIdLine ++ "  - C.\n  ".toList ++ sampleIdLine ++
      "- b\n```\n- This code line looks like ".toList ++ "a long list bullet.\n".toList ++
        sampleIdLine ++ "  - Two.\n  ".toList ++ sampleIdLine ++ "```\n".toList

/-- The first split puts four lines above the code fence, whose bullet line then
stands at an index that is not protected. -/
theorem shifted_code_line_is_split :
    ¬∀ (tables : CaseTables) (freshUuid : Nat → Uuid) (commit : Str → Bool)
      (path pageRef raw new : Str) (minChars maxBlocks : Int) (outcome : PageOutcome),
      processPage tables freshUuid commit path pageRef minChars maxBlocks false (.ok raw) =
          .ok outcome → outcome.written = some new →
        ProtectedKept (universalNewlines raw)
          (runPieces tables freshUuid minChars maxBlocks (universalNewlines raw)) := by
  intro h
  have hKept := h asciiCase (fun _ => sampleId) (fun _ => true) "p.md".toList "p".toList
    fencePage fenceSplit 50 2
    ⟨[⟨"p".toList, sampleId.text, 50, 3⟩, ⟨"p".toList, sampleId.text, 50, 2⟩], none,
      ["p.md".toList], some fenceSplit⟩ (by decide +kernel) rfl
  have hCodeLine := (hKept 4 (by decide +kernel) (by decide +kernel)).1
  rw [keptLine_run_iff _ (cr_notMem_universalNewlines _) (by decide +kernel)] at hCodeLine
  revert hCodeLine
  decide +kernel

end Plumber.SplitLargeBlocks
