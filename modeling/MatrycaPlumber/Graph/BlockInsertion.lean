import MatrycaPlumber.Graph.PropertyPlacement

/-! What locating a block finds when a line that is no bullet has been put in between its
identifier and its end. -/
namespace Plumber.MarkdownBlocks

open PyText

section Lists

variable {α : Type*} {p : α → Bool} {x : α}

theorem findIdx_insertIdx (hx : p x = false) {xs : List α} {k : Nat} (hk : k ≤ xs.findIdx p) :
    (xs.insertIdx k x).findIdx p = xs.findIdx p + 1 := by
  induction xs generalizing k with
  | nil =>
      obtain rfl : k = 0 := Nat.le_zero.mp hk
      rw [List.insertIdx_zero, List.findIdx_cons, hx]
      rfl
  | cons y ys ih =>
      cases k with
      | zero => rw [List.insertIdx_zero, List.findIdx_cons, hx, cond_false]
      | succ k =>
          rw [List.findIdx_cons] at hk ⊢
          cases hy : p y with
          | true =>
              rw [hy] at hk
              cases hk
          | false =>
              rw [hy, cond_false] at hk
              rw [List.insertIdx_succ_cons, List.findIdx_cons, hy, cond_false, cond_false,
                ih (Nat.le_of_succ_le_succ hk)]

theorem findIdx?_insertIdx {xs : List α} {i k : Nat} (h : xs.findIdx? p = some i) (hk : i < k) :
    (xs.insertIdx k x).findIdx? p = some i := by
  induction xs generalizing i k with
  | nil => cases h
  | cons y ys ih =>
      cases k with
      | zero => omega
      | succ k =>
          rw [List.insertIdx_succ_cons]
          rw [List.findIdx?_cons] at h ⊢
          split_ifs at h ⊢
          · exact h
          · obtain ⟨j, hj, rfl⟩ := Option.map_eq_some_iff.mp h
            rw [ih hj (Nat.lt_of_succ_lt_succ hk)]
            rfl

theorem drop_insertIdx {xs : List α} {n k : Nat} (h : n ≤ k) (hk : k ≤ xs.length) :
    (xs.insertIdx k x).drop n = (xs.drop n).insertIdx (k - n) x := by
  induction n generalizing xs k with
  | zero => rfl
  | succ n ih =>
      cases k with
      | zero => omega
      | succ k =>
          cases xs with
          | nil => exact absurd hk (Nat.not_succ_le_zero k)
          | cons y ys =>
              rw [List.insertIdx_succ_cons, List.drop_succ_cons, List.drop_succ_cons,
                ih (Nat.le_of_succ_le_succ h) (Nat.le_of_succ_le_succ hk), Nat.add_sub_add_right]

end Lists

section Located

variable {tables : CaseTables} {lines : List Str} {u : Str} {b i e k : Nat} {line : Str}

@[simp] theorem stripLineEndings_idem (line : Str) :
    stripLineEndings (stripLineEndings line) = stripLineEndings line :=
  List.rdropWhile_idempotent _ _

theorem stripLinesForMatch_idem (lines : List Str) :
    stripLinesForMatch (stripLinesForMatch lines) = stripLinesForMatch lines := by
  simp [stripLinesForMatch]

theorem isBulletLine_strip (j : Nat) :
    IsBulletLine (stripLinesForMatch lines) j ↔ IsBulletLine lines j := by
  rw [IsBulletLine, IsBulletLine, getD_stripLinesForMatch, stripLineEndings_idem]

/-- How a block is located: by its identifier line, the bullet above it, and the end that the
two give. -/
theorem locateBlockByUuid_eq_some :
    locateBlockByUuid tables lines u = some (b, i, e) ↔
      findIdLineIndex tables (stripLinesForMatch lines) u = some i ∧
        blockBulletIndex (stripLinesForMatch lines) i = some b ∧
        blockSubtreeEnd (stripLinesForMatch lines) i b = e := by
  rw [locateBlockByUuid]
  constructor
  · intro h
    split at h
    · cases h
    · next idIdx hId =>
        split at h
        · cases h
        · next bulletIdx hBullet =>
            obtain ⟨rfl, hRest⟩ := Prod.mk.inj (Option.some.inj h)
            obtain ⟨rfl, rfl⟩ := Prod.mk.inj hRest
            exact ⟨hId, hBullet, rfl⟩
  · rintro ⟨hId, hBullet, rfl⟩
    rw [hId]
    dsimp only
    rw [hBullet]

theorem blockBulletIndex_insertIdx (h : i ≤ k) :
    blockBulletIndex (lines.insertIdx k line) i = blockBulletIndex lines i := by
  induction i with
  | zero => rfl
  | succ i ih =>
      have hLine : (lines.insertIdx k line).getD i [] = lines.getD i [] := by
        rw [List.getD_eq_getElem?_getD, List.getElem?_insertIdx_of_lt (Nat.lt_of_succ_le h),
          ← List.getD_eq_getElem?_getD]
      rw [blockBulletIndex, blockBulletIndex, hLine, ih (Nat.le_of_succ_le h)]

theorem blockSubtreeEnd_insertIdx (hBullet : IsBulletLine lines b) (hi : i < lines.length)
    (hb : b < i) (hik : i < k) (hk : k ≤ blockSubtreeEnd lines i b) (hLine : bulletIndent? (stripLineEndings line) = none) :
    blockSubtreeEnd (lines.insertIdx k line) i b = blockSubtreeEnd lines i b + 1 := by
  obtain ⟨ws, hws⟩ := Option.isSome_iff_exists.mp hBullet
  have hSame : (lines.insertIdx k line).getD b [] = lines.getD b [] := by
    rw [List.getD_eq_getElem?_getD, List.getElem?_insertIdx_of_lt (hb.trans hik),
      ← List.getD_eq_getElem?_getD]
  have hLen := (blockSubtreeEnd_bounds lines (b := b) hi).2
  have hFirst : i + 1 ≤ k := hik
  have hInside := hk.trans hLen
  rw [blockSubtreeEnd, hws] at hk
  rw [blockSubtreeEnd, blockSubtreeEnd, hSame, hws]
  dsimp only at hk ⊢
  rw [drop_insertIdx hFirst hInside, findIdx_insertIdx]
  · omega
  · rw [hLine]
  · omega

theorem stripLinesForMatch_insertIdx :
    stripLinesForMatch (lines.insertIdx k line) =
      (stripLinesForMatch lines).insertIdx k (stripLineEndings line) := by
  rw [stripLinesForMatch, List.map_insertIdx]
  rfl

/-- A line put in behind the identifier of a located block, up to its end, is part of the
block; the block is located at the same place. -/
theorem locateBlockByUuid_insertIdx (h : locateBlockByUuid tables lines u = some (b, i, e))
    (hik : i < k) (hk : k ≤ e) (hLine : bulletIndent? (stripLineEndings line) = none) :
    locateBlockByUuid tables (lines.insertIdx k line) u = some (b, i, e + 1) := by
  obtain ⟨hId, hBullet, rfl⟩ := locateBlockByUuid_eq_some.mp h
  obtain ⟨hb, hIsBullet⟩ := blockBulletIndex_lt hBullet
  rw [locateBlockByUuid_eq_some, stripLinesForMatch_insertIdx]
  refine ⟨findIdx?_insertIdx hId hik, ?_, ?_⟩
  · rw [blockBulletIndex_insertIdx hik.le, hBullet]
  · have hi := (List.findIdx?_eq_some_iff_findIdx_eq.mp hId).1
    exact blockSubtreeEnd_insertIdx hIsBullet hi hb hik hk (by rw [stripLineEndings_idem, hLine])

/-- An identifier line is no bullet. -/
theorem bulletIndent?_of_idLineMatches {id : Str} (h : idLineMatches tables id line = true) :
    bulletIndent? line = none := by
  rw [bulletIndent?]
  split
  · next m c rest hLine =>
      rw [if_neg]
      rw [Bool.and_eq_true]
      rintro ⟨hMarker, _⟩
      rw [idLineMatches, lstrip, hLine] at h
      have hHead : tables.eqIgnoreCase 'i' m = false := by
        rw [← Bool.not_eq_true]
        intro hSame
        simp only [isListMarker, Bool.or_eq_true, decide_eq_true_eq] at hMarker
        rcases hMarker with (rfl | rfl) | rfl
        · exact absurd (tables.eq_of_not_alpha 'i' '-' (by decide) (by decide) hSame) (by decide)
        · exact absurd (tables.eq_of_not_alpha 'i' '*' (by decide) (by decide) hSame) (by decide)
        · exact absurd (tables.eq_of_not_alpha 'i' '+' (by decide) (by decide) hSame) (by decide)
      have hNone : dropPrefixIgnoreCase? tables "id::".toList (m :: c :: rest) = none := by
        change dropPrefixIgnoreCase? tables ('i' :: "d::".toList) (m :: c :: rest) = none
        rw [dropPrefixIgnoreCase?, hHead, if_neg Bool.false_ne_true]
      rw [hNone] at h
      cases h
  · rfl

/-- The property of a located block goes in behind the identifier, inside the block. -/
theorem blockPropertyInsertIndex_bounds (h : locateBlockByUuid tables lines u = some (b, i, e)) :
    i < blockPropertyInsertIndex (stripLinesForMatch lines) b e ∧
      blockPropertyInsertIndex (stripLinesForMatch lines) b e ≤ e := by
  obtain ⟨hbi, hie, hLen⟩ := locateBlockByUuid_bounds h
  obtain ⟨hId, hBullet, _⟩ := locateBlockByUuid_eq_some.mp h
  have hIsBullet : IsBulletLine lines b :=
    isBulletLine_strip b |>.mp (blockBulletIndex_lt hBullet).2
  rw [blockPropertyInsertIndex_of_bullet e hIsBullet]
  have hLength : (slice (stripLinesForMatch lines) (b + 1) e).length = e - (b + 1) :=
    length_slice _ (by simpa [stripLinesForMatch] using hLen)
  constructor
  · have hNone : ∀ j (hj : j ≤ i - (b + 1)), ¬isChildBullet
        (childBulletMinIndent (stripLinesForMatch lines) b)
        ((slice (stripLinesForMatch lines) (b + 1) e).get ⟨j, by omega⟩) = true := by
      intro j hj hChild
      rw [List.get_eq_getElem] at hChild
      have hGet := getElem?_slice_strip lines b e j
      rw [if_pos (by omega), List.getElem?_eq_getElem (by omega)] at hGet
      obtain ⟨original, hOriginal, hStrip⟩ := Option.map_eq_some_iff.mp hGet.symm
      rw [← hStrip] at hChild
      have hBulletLine : IsBulletLine lines (b + 1 + j) := by
        rw [IsBulletLine, List.getD_eq_getElem?_getD, hOriginal]
        exact bulletIndent?_of_isChildBullet hChild
      by_cases hEq : b + 1 + j = i
      · rw [findIdLineIndex, List.findIdx?_eq_some_iff_getElem] at hId
        obtain ⟨hLt, hMatch, _⟩ := hId
        have hNot := bulletIndent?_of_idLineMatches hMatch
        rw [← isBulletLine_strip, hEq, IsBulletLine, List.getD_eq_getElem?_getD,
          List.getElem?_eq_getElem hLt, Option.getD_some, hNot] at hBulletLine
        cases hBulletLine
      · rw [← isBulletLine_strip] at hBulletLine
        exact blockBulletIndex_between hBullet (by omega) (by omega) hBulletLine
    have := List.lt_findIdx_of_not (by omega) hNone
    omega
  · have : (slice (stripLinesForMatch lines) (b + 1) e).findIdx
        (isChildBullet (childBulletMinIndent (stripLinesForMatch lines) b)) ≤
          (slice (stripLinesForMatch lines) (b + 1) e).length := List.findIdx_le_length
    omega

end Located

end Plumber.MarkdownBlocks
