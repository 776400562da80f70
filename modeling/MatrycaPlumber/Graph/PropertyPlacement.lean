import MatrycaPlumber.Graph.MarkdownBlocks
import MatrycaPlumber.Text.Cuts

/-! Where a property line of a block is inserted. The index is found by comparing
the indentation of the bullets behind the block's own with a guessed unit. -/
namespace Plumber.MarkdownBlocks

open PyText

/-- `_BULLET` matches the line with its line ending taken off. -/
def IsBulletLine (lines : List Str) (j : Nat) : Prop :=
  (bulletIndent? (stripLineEndings (lines.getD j []))).isSome

instance (lines : List Str) (j : Nat) : Decidable (IsBulletLine lines j) :=
  inferInstanceAs (Decidable (_ = true))

/-- A bullet indented by at least `minIndent` characters. -/
def isChildBullet (minIndent : Nat) (line : Str) : Bool :=
  match bulletIndent? line with
  | some ws => minIndent ≤ ws.length
  | none => false

/-- The indentation from which on a bullet counts as a child of the bullet line. -/
def childBulletMinIndent (stripped : List Str) (bulletIdx : Nat) : Nat :=
  ((bulletIndent? (stripped.getD bulletIdx [])).getD []).length +
    (bulletIndentUnit stripped bulletIdx).length

/-- Line index for a new block property: after text continuations, before child bullets. -/
def blockPropertyInsertIndex (stripped : List Str) (bulletIdx blockEnd : Nat) : Nat :=
  match bulletIndent? (stripped.getD bulletIdx []) with
  | none => bulletIdx + 1
  | some _ =>
      bulletIdx + 1 + (slice stripped (bulletIdx + 1) blockEnd).findIdx
        (isChildBullet (childBulletMinIndent stripped bulletIdx))

/-- A line inserted at the index stands behind the bullet of the block, ahead of
the first bullet inside it, and has the bullet of the block as its own. -/
structure PlacedAboveChildren (lines : List Str) (bulletIdx blockEnd : Nat) : Prop where
  after_bullet : bulletIdx < blockPropertyInsertIndex (stripLinesForMatch lines) bulletIdx blockEnd
  before_bullets : ∀ j, bulletIdx < j → j < blockEnd → IsBulletLine lines j →
    blockPropertyInsertIndex (stripLinesForMatch lines) bulletIdx blockEnd ≤ j
  nearest : ∀ property : Str,
    let index := blockPropertyInsertIndex (stripLinesForMatch lines) bulletIdx blockEnd
    blockBulletIndex (lines.insertIdx index property) index = some bulletIdx

/-- The first bullet inside the block, if there is one, is indented by the whole
unit that is guessed from the bullet of the block. -/
def FirstBulletIndented (lines : List Str) (bulletIdx blockEnd : Nat) : Prop :=
  ∀ line ∈ (slice (stripLinesForMatch lines) (bulletIdx + 1) blockEnd).find?
      (fun line => (bulletIndent? line).isSome),
    isChildBullet (childBulletMinIndent (stripLinesForMatch lines) bulletIdx) line = true

theorem getD_stripLinesForMatch (lines : List Str) (j : Nat) :
    (stripLinesForMatch lines).getD j [] = stripLineEndings (lines.getD j []) := by
  rw [stripLinesForMatch, List.getD_eq_getElem?_getD, List.getElem?_map, List.getD_eq_getElem?_getD]
  cases lines[j]? with
  | none => rfl
  | some line => rfl

theorem bulletIndent?_of_isChildBullet {minIndent : Nat} {line : Str}
    (h : isChildBullet minIndent line = true) : (bulletIndent? line).isSome := by
  rw [isChildBullet] at h
  split at h
  · next ws hBullet => rw [hBullet]; rfl
  · cases h

/-- Where `p` only holds of elements with `q`: the first element with `p` is not
behind any element with `q` exactly when the first element with `q` has `p`. -/
theorem findIdx_le_iff {α : Type*} {p q : α → Bool} (hSub : ∀ x, p x = true → q x = true)
    (xs : List α) :
    (∀ k x, xs[k]? = some x → q x = true → xs.findIdx p ≤ k) ↔ ∀ x ∈ xs.find? q, p x = true := by
  induction xs with
  | nil => simp
  | cons head tail ih =>
      cases hHead : q head with
      | true =>
          rw [List.find?_cons_of_pos hHead]
          constructor
          · intro hFirst x hx
            obtain rfl := Option.some.inj hx
            by_contra hNot
            have := hFirst 0 head rfl hHead
            rw [List.findIdx_cons, Bool.eq_false_iff.mpr hNot, cond_false] at this
            omega
          · intro hFind k x _ _
            rw [List.findIdx_cons, hFind head rfl, cond_true]
            exact Nat.zero_le k
      | false =>
          have hNot : p head = false := by
            rw [← Bool.not_eq_true]
            intro hp
            rw [hSub head hp] at hHead
            cases hHead
          rw [List.find?_cons_of_neg (by rw [hHead]; exact Bool.false_ne_true), ← ih]
          rw [List.findIdx_cons, hNot, cond_false]
          constructor
          · intro hFirst k x hx hq
            have := hFirst (k + 1) x (by rw [List.getElem?_cons_succ]; exact hx) hq
            omega
          · intro hFirst k x hx hq
            cases k with
            | zero =>
                rw [List.getElem?_cons_zero] at hx
                obtain rfl := Option.some.inj hx
                rw [hHead] at hq
                cases hq
            | succ k =>
                rw [List.getElem?_cons_succ] at hx
                have := hFirst k x hx hq
                omega

/-- Going up from a line, the bullet is found that has no other in between. -/
theorem blockBulletIndex_eq_some {lines : List Str} {b i : Nat} (hLt : b < i)
    (hBullet : IsBulletLine lines b) (hBetween : ∀ j, b < j → j < i → ¬IsBulletLine lines j) :
    blockBulletIndex lines i = some b := by
  induction i with
  | zero => omega
  | succ i ih =>
      rw [blockBulletIndex]
      by_cases hSame : i = b
      · subst hSame
        exact if_pos hBullet
      · apply (if_neg (hBetween i (by omega) (Nat.lt_succ_self i))).trans
        apply ih (by omega)
        intro j hj hji
        exact hBetween j hj (by omega)

/-- There is no other bullet between a line and its nearest one. -/
theorem blockBulletIndex_between {lines : List Str} {b i j : Nat}
    (h : blockBulletIndex lines i = some b) (hj : b < j) (hji : j < i) : ¬IsBulletLine lines j := by
  induction i with
  | zero => omega
  | succ i ih =>
      rw [blockBulletIndex] at h
      split_ifs at h with hBullet
      · obtain rfl := Option.some.inj h
        omega
      · rcases Nat.lt_succ_iff_lt_or_eq.mp hji with hLt | rfl
        · exact ih h hLt
        · exact hBullet

theorem lt_blockSubtreeEnd {lines : List Str} {i b : Nat} (hBullet : IsBulletLine lines b)
    (h : b < i) : b < blockSubtreeEnd lines i b := by
  obtain ⟨ws, hws⟩ := Option.isSome_iff_exists.mp hBullet
  rw [blockSubtreeEnd, hws]
  dsimp only
  omega

/-- The line behind a subtree, if there is one, is a bullet again. -/
theorem isBulletLine_blockSubtreeEnd {lines : List Str} {i b : Nat} (hBullet : IsBulletLine lines b)
    (hEnd : blockSubtreeEnd lines i b < lines.length) :
    IsBulletLine lines (blockSubtreeEnd lines i b) := by
  obtain ⟨ws, hws⟩ := Option.isSome_iff_exists.mp hBullet
  rw [blockSubtreeEnd, hws] at hEnd ⊢
  let ends : Str → Bool := fun line =>
    match bulletIndent? (stripLineEndings line) with
    | some ws' => ws'.length ≤ ws.length
    | none => false
  change i + 1 + (lines.drop (i + 1)).findIdx ends < lines.length at hEnd
  change IsBulletLine lines (i + 1 + (lines.drop (i + 1)).findIdx ends)
  have hFound : (lines.drop (i + 1)).findIdx ends < (lines.drop (i + 1)).length := by
    rw [List.length_drop]
    omega
  have hEnds : ends (lines.drop (i + 1))[(lines.drop (i + 1)).findIdx ends] = true :=
    List.findIdx_getElem
  rw [List.getElem_drop] at hEnds
  rw [IsBulletLine, List.getD_eq_getElem?_getD, List.getElem?_eq_getElem hEnd]
  simp only [ends] at hEnds
  split at hEnds
  · next hSome => exact Option.isSome_iff_exists.mpr ⟨_, hSome⟩
  · cases hEnds

theorem isBulletLine_insertIdx {lines : List Str} {i j : Nat} (property : Str) (h : j < i) :
    IsBulletLine (lines.insertIdx i property) j ↔ IsBulletLine lines j := by
  rw [IsBulletLine, IsBulletLine, List.getD_eq_getElem?_getD, List.getElem?_insertIdx_of_lt h,
    ← List.getD_eq_getElem?_getD]

/-- The index of a bullet's property, as a position behind the bullet. -/
theorem blockPropertyInsertIndex_of_bullet {lines : List Str} {b : Nat} (e : Nat)
    (hBullet : IsBulletLine lines b) :
    blockPropertyInsertIndex (stripLinesForMatch lines) b e =
      b + 1 + (slice (stripLinesForMatch lines) (b + 1) e).findIdx
        (isChildBullet (childBulletMinIndent (stripLinesForMatch lines) b)) := by
  obtain ⟨ws, hws⟩ := Option.isSome_iff_exists.mp hBullet
  rw [blockPropertyInsertIndex, getD_stripLinesForMatch, hws]

/-- The lines inside a block, counted from the line behind its bullet. -/
theorem getElem?_slice_strip (lines : List Str) (b e k : Nat) :
    (slice (stripLinesForMatch lines) (b + 1) e)[k]? =
      if b + 1 + k < e then (lines[b + 1 + k]?).map stripLineEndings else none := by
  rw [slice, List.getElem?_drop, List.getElem?_take, stripLinesForMatch, List.getElem?_map]

/-- No bullet inside the block is passed exactly when the first one is indented
far enough to count as a child. -/
theorem before_bullets_iff {lines : List Str} {b : Nat} (e : Nat) (hBullet : IsBulletLine lines b) :
    (∀ j, b < j → j < e → IsBulletLine lines j →
      blockPropertyInsertIndex (stripLinesForMatch lines) b e ≤ j) ↔
      FirstBulletIndented lines b e := by
  rw [FirstBulletIndented, blockPropertyInsertIndex_of_bullet e hBullet,
    ← findIdx_le_iff (p := isChildBullet (childBulletMinIndent (stripLinesForMatch lines) b))
      (fun _ => bulletIndent?_of_isChildBullet)]
  constructor
  · intro hPassed k line hk hLine
    rw [getElem?_slice_strip] at hk
    split_ifs at hk with hEnd
    obtain ⟨original, hOriginal, rfl⟩ := Option.map_eq_some_iff.mp hk
    have hBulletLine : IsBulletLine lines (b + 1 + k) := by
      rw [IsBulletLine, List.getD_eq_getElem?_getD, hOriginal]
      exact hLine
    have := hPassed (b + 1 + k) (by omega) hEnd hBulletLine
    omega
  · intro hFirst j hj hEnd hLine
    have hk := getElem?_slice_strip lines b e (j - (b + 1))
    rw [show b + 1 + (j - (b + 1)) = j by omega, if_pos hEnd] at hk
    rw [IsBulletLine, List.getD_eq_getElem?_getD] at hLine
    cases hOriginal : lines[j]? with
    | none =>
        rw [hOriginal] at hLine
        cases hLine
    | some original =>
        rw [hOriginal] at hk hLine
        have := hFirst _ _ hk hLine
        omega

/-- A property line goes ahead of the children of its block exactly when the first
bullet inside the block is indented by the guessed unit. A tab under a block that
is not indented itself counts as one character and is passed. -/
theorem placedAboveChildren_iff {lines : List Str} {b : Nat} (e : Nat)
    (hBullet : IsBulletLine lines b) :
    PlacedAboveChildren lines b e ↔ FirstBulletIndented lines b e := by
  rw [← before_bullets_iff e hBullet]
  constructor
  · intro h
    exact h.before_bullets
  · intro hBefore
    have hAfter : b < blockPropertyInsertIndex (stripLinesForMatch lines) b e := by
      rw [blockPropertyInsertIndex_of_bullet e hBullet]
      omega
    refine ⟨hAfter, hBefore, ?_⟩
    intro property index
    apply blockBulletIndex_eq_some hAfter ((isBulletLine_insertIdx property hAfter).mpr hBullet)
    intro j hj hIndex hLine
    rw [isBulletLine_insertIdx property hIndex] at hLine
    have hEnd : j < e := by
      have hLen : (slice (stripLinesForMatch lines) (b + 1) e).findIdx
          (isChildBullet (childBulletMinIndent (stripLinesForMatch lines) b)) ≤
            (slice (stripLinesForMatch lines) (b + 1) e).length := List.findIdx_le_length
      rw [slice, List.length_drop, List.length_take] at hLen
      simp only [blockPropertyInsertIndex_of_bullet e hBullet, slice] at hIndex
      omega
    have := hBefore j hj hEnd hLine
    omega

/-- A page written with tabs: a block, its identifier and its child. -/
def tabbedPage : List Str :=
  ["- parent\n".toList, "\tid:: 6ba7b810-9dad-41d1-80b4-00c04fd430c8\n".toList,
    "\t- child\n".toList]

/-- Two blanks are guessed for the tabbed page, and the property goes to the child. -/
theorem tabbedPage_passes_child : ¬∀ (tables : CaseTables) (lines : List Str) (u : Str)
    (b i e : Nat), locateBlockByUuid tables lines u = some (b, i, e) →
      PlacedAboveChildren lines b e := by
  intro h
  have hLocated : locateBlockByUuid asciiCase tabbedPage sampleId.text = some (0, 1, 3) := by
    decide +kernel
  have := (h asciiCase tabbedPage sampleId.text 0 1 3 hLocated).before_bullets 2
    (by decide) (by decide) (by decide)
  exact absurd this (by decide)

/-- The same block indented with blanks. -/
theorem placedAboveChildren_blanks :
    PlacedAboveChildren ["- parent\n".toList, "  id:: 1\n".toList, "  - child\n".toList] 0 3 :=
  (placedAboveChildren_iff 3 (by decide)).mpr (by
    unfold FirstBulletIndented
    decide)

end Plumber.MarkdownBlocks
