import MatrycaPlumber.Graph.SplitInvariant

/-! Which old lines a split leaves alone: as lines of their own, and under their
bullet. -/
namespace Plumber.SplitLargeBlocks

open PyText MarkdownBlocks

/-- The old line `j` is the bullet that is split. -/
def BulletHit (cur : List Piece) (cand : Candidate) (j : Nat) : Prop :=
  ∃ before m after, cur = before ++ (.old j, m) :: after ∧ before.length = cand.bulletIdx

/-- The old line `j` is joined to a neighbour: it follows a bullet whose line
boundary is no newline, or it is an `id::` line without a boundary. -/
def GlueHit (cur : List Piece) (cand : Candidate) (j : Nat) : Prop :=
  ∃ before m after, cur = before ++ (.old j, m) :: after ∧
    ((before.length = cand.bulletIdx + 1 ∧
        endsWith ['\n'] ((texts cur).getD cand.bulletIdx []) = false) ∨
      (before.length = cand.idLineIdx ∧ ∀ c ∈ m.getLast?, isLineBreak c = false))

/-- The indentation of the new children. -/
def childWidth (cur : List Piece) (cand : Candidate) : Nat :=
  (bulletLevel ((texts cur).getD cand.bulletIdx [])).getD 0 +
    (bulletIndentUnit (texts cur) cand.bulletIdx).length

/-- A bullet of the given indentation is above lines of the given level. -/
def isDeeper (width : Nat) : Option Nat → Bool
  | some v => width < v
  | none => true

/-- The old line `j` follows the `id::` line of the split bullet, and no bullet
in between keeps it from falling under the last new child. -/
def MoveHit (cur : List Piece) (cand : Candidate) (j : Nat) : Prop :=
  ∃ before m after, cur = before ++ (.old j, m) :: after ∧ cand.idLineIdx < before.length ∧
    isDeeper (childWidth cur cand) (bulletLevel m) = true ∧
      ∀ p ∈ before.drop (cand.idLineIdx + 1), isAbove (bulletLevel m) p.2 = false

/-- Whether an old line has a property of its place can be read off the list. -/
theorem exists_place_iff {cur : List Piece} {j : Nat} {P : List Piece → Str → Prop} :
    (∃ before m after, cur = before ++ (.old j, m) :: after ∧ P before m) ↔
      ∃ n < cur.length, ∃ p ∈ cur[n]?, p.1 = .old j ∧ P (cur.take n) p.2 := by
  constructor
  · rintro ⟨before, m, after, rfl, hP⟩
    refine ⟨before.length, by simp, (.old j, m), by simp, rfl, ?_⟩
    rwa [List.take_left]
  · rintro ⟨n, hn, ⟨tag, m⟩, hGet, rfl, hP⟩
    obtain ⟨_, hGet⟩ := List.getElem?_eq_some_iff.mp hGet
    refine ⟨cur.take n, m, cur.drop (n + 1), ?_, hP⟩
    rw [← hGet, ← List.drop_eq_getElem_cons hn, List.take_append_drop]

section Decidable

variable (cur : List Piece) (cand : Candidate) (j : Nat)

instance {P : List Piece → Str → Prop} [∀ before m, Decidable (P before m)] :
    Decidable (∃ before m after, cur = before ++ (.old j, m) :: after ∧ P before m) :=
  decidable_of_iff _ exists_place_iff.symm

instance : Decidable (BulletHit cur cand j) :=
  inferInstanceAs (Decidable (∃ before m after, cur = before ++ (.old j, m) :: after ∧
    before.length = cand.bulletIdx))

instance : Decidable (GlueHit cur cand j) :=
  inferInstanceAs (Decidable (∃ before m after, cur = before ++ (.old j, m) :: after ∧
    ((before.length = cand.bulletIdx + 1 ∧
        endsWith ['\n'] ((texts cur).getD cand.bulletIdx []) = false) ∨
      (before.length = cand.idLineIdx ∧ ∀ c ∈ m.getLast?, isLineBreak c = false))))

instance : Decidable (MoveHit cur cand j) :=
  inferInstanceAs (Decidable (∃ before m after, cur = before ++ (.old j, m) :: after ∧
    cand.idLineIdx < before.length ∧ isDeeper (childWidth cur cand) (bulletLevel m) = true ∧
      ∀ p ∈ before.drop (cand.idLineIdx + 1), isAbove (bulletLevel m) p.2 = false))

end Decidable

theorem Inv.index_lt {lines : List Str} {cur before after : List Piece} {p q : Piece} {i j : Nat}
    (hInv : Inv lines cur) (hEq : cur = before ++ p :: after) (hq : q ∈ after)
    (hp : p.1.index = some i) (hj : q.1.index = some j) : i < j := by
  have hSorted : (cur.filterMap fun p => p.1.index).Pairwise (· < ·) := by
    rw [hInv.index]
    exact List.pairwise_lt_range
  simp only [hEq, List.filterMap_append, List.filterMap_cons, hp] at hSorted
  have hCons := (List.pairwise_append.mp hSorted).2.1
  exact (List.pairwise_cons.mp hCons).1 j (List.mem_filterMap.mpr ⟨q, hq, hj⟩)

/-- An old line has one place. -/
theorem Inv.unique {lines : List Str} {cur before after before' after' : List Piece} {p q : Piece}
    {j : Nat} (hInv : Inv lines cur) (hp : cur = before ++ p :: after)
    (hq : cur = before' ++ q :: after') (hpj : p.1.index = some j) (hqj : q.1.index = some j) :
    before = before' ∧ p = q ∧ after = after' := by
  obtain ⟨mid, rfl, rfl⟩ | hEq | ⟨mid, rfl, rfl⟩ := append_cons_eq_cases (hp.symm.trans hq)
  · have := hInv.index_lt hq (q := p) (by simp) hqj hpj
    omega
  · exact hEq
  · have := hInv.index_lt hp (q := q) (by simp) hpj hqj
    omega

/-- An old line that is not the last one of the page is closed. -/
theorem Inv.closed_of_before {lines : List Str} {cur before after : List Piece} {i j : Nat} {l : Str}
    {q : Piece} (hInv : Inv lines cur) (hPage : PageLines lines)
    (hEq : cur = before ++ (.old i, l) :: after) (hq : q ∈ after) (hj : q.1.index = some j) :
    Closed l := by
  have hlt := hInv.index_lt hEq hq rfl hj
  have hLine := hInv.old i l (by rw [hEq]; simp)
  have hjLen : j < lines.length := by
    have hMem : j ∈ cur.filterMap fun p => p.1.index :=
      List.mem_filterMap.mpr ⟨q, by rw [hEq]; simp [hq], hj⟩
    rw [hInv.index] at hMem
    exact List.mem_range.mp hMem
  obtain ⟨init, m, rfl⟩ := (List.eq_nil_or_concat' lines).resolve_left (by
    rintro rfl
    cases hjLen)
  rw [List.length_append, List.length_singleton] at hjLen
  have hi : i < init.length := by omega
  rw [List.getElem?_append_left hi] at hLine
  exact (pageLines_append_iff.mp hPage).1 l (List.mem_of_getElem? hLine)

/-- Where a piece stands before and after a split that does not rewrite it. -/
inductive Zone (A : List Piece) (b b' : Piece) (N C Z : List Piece) (p : Piece) :
    List Piece → List Piece → List Piece → List Piece → Prop where
  | front {X A₂ : List Piece} (h : A = X ++ p :: A₂) :
      Zone A b b' N C Z p X (A₂ ++ b :: (N ++ Z)) X (A₂ ++ b' :: (N ++ (C ++ Z)))
  | middle {N₁ N₂ : List Piece} (h : N = N₁ ++ p :: N₂) :
      Zone A b b' N C Z p (A ++ b :: N₁) (N₂ ++ Z) (A ++ b' :: N₁) (N₂ ++ (C ++ Z))
  | back {Z₁ Z₂ : List Piece} (h : Z = Z₁ ++ p :: Z₂) :
      Zone A b b' N C Z p (A ++ b :: (N ++ Z₁)) Z₂ (A ++ b' :: (N ++ (C ++ Z₁))) Z₂

theorem zone_of_cur {A N C Z X Y : List Piece} {b q p : Piece}
    (h : A ++ b :: (N ++ Z) = X ++ p :: Y) :
    (X = A ∧ p = b) ∨ ∃ X' Y', A ++ q :: (N ++ (C ++ Z)) = X' ++ p :: Y' ∧
      Zone A b q N C Z p X Y X' Y' := by
  obtain ⟨mid, hA, rfl⟩ | ⟨rfl, rfl, -⟩ | ⟨mid, rfl, hTail⟩ := append_cons_eq_cases h
  · exact Or.inr ⟨_, _, by simp [hA], .front hA⟩
  · exact Or.inl ⟨rfl, rfl⟩
  · obtain ⟨N₂, hN, rfl⟩ | ⟨Z₁, rfl, hZ⟩ := append_eq_append_cons_cases hTail
    · exact Or.inr ⟨_, _, by simp [hN], .middle hN⟩
    · exact Or.inr ⟨_, _, by simp [hZ], .back hZ⟩

theorem zone_of_next {A N C Z X' Y' : List Piece} {b b' p : Piece} (hp : p ≠ b') (hC : p ∉ C)
    (h : A ++ b' :: (N ++ (C ++ Z)) = X' ++ p :: Y') :
    ∃ X Y, A ++ b :: (N ++ Z) = X ++ p :: Y ∧ Zone A b b' N C Z p X Y X' Y' := by
  obtain ⟨mid, hA, rfl⟩ | ⟨-, hEq, -⟩ | ⟨mid, rfl, hTail⟩ := append_cons_eq_cases h
  · exact ⟨_, _, by simp [hA], .front hA⟩
  · exact absurd hEq.symm hp
  · obtain ⟨N₂, hN, rfl⟩ | ⟨mid', rfl, hRest⟩ := append_eq_append_cons_cases hTail
    · exact ⟨_, _, by simp [hN], .middle hN⟩
    · obtain ⟨C₂, hMem, -⟩ | ⟨Z₁, rfl, hZ⟩ := append_eq_append_cons_cases hRest
      · exact absurd (by simp [hMem]) hC
      · exact ⟨_, _, by simp [hZ], .back hZ⟩

section Step

variable {lines : List Str} {cur next A N C Z X Y X' Y' : List Piece}
  {i j width childWidth : Nat} {l l' m : Str}

theorem getLast?_texts (X : List Piece) : (texts X).getLast? = X.getLast?.map Prod.snd :=
  List.getLast?_map

theorem closed_iff_last_break {l : Str} (h : LinePiece l) :
    Closed l ↔ ¬∀ c ∈ l.getLast?, isLineBreak c = false := by
  obtain ⟨body, b, rfl⟩ := (List.eq_nil_or_concat' l).resolve_left h.ne_nil
  simp only [List.getLast?_concat, Option.mem_def, Option.some.injEq, forall_eq']
  cases h with
  | inl hClosed =>
      have hBreak : isLineBreak b = true := by
        obtain ⟨body', b', hEq, hb, _⟩ := hClosed
        obtain ⟨_, hLast⟩ := List.append_inj' hEq rfl
        rw [(List.cons.inj hLast).1]
        exact hb
      simp [hBreak, hClosed]
  | inr hOpen => simp [hOpen.not_closed, hOpen.2 b (by simp)]

/-- A line is a line of its own when the piece before it is closed, and itself
unless nothing follows. -/
theorem Inv.ownLine_iff (hInv : Inv lines cur) (hEq : cur = X ++ (.old j, m) :: Y) :
    OwnLine (texts X) m (texts Y) ↔
      (∀ p ∈ X.getLast?, Closed p.2) ∧ (Closed m ∨ Y = []) := by
  have hPieces {Z : List Piece} (hZ : ∀ p ∈ Z, p ∈ cur) : ∀ n ∈ texts Z, LinePiece n := by
    intro n hn
    obtain ⟨p, hp, rfl⟩ := List.mem_map.mp hn
    exact hInv.piece p (hZ p hp)
  have hX := hPieces (Z := X) (fun p hp => by rw [hEq]; simp [hp])
  have hY := hPieces (Z := Y) (fun p hp => by rw [hEq]; simp [hp])
  rw [PyText.ownLine_iff hX (hInv.piece (.old j, m) (by rw [hEq]; simp)) hY, getLast?_texts]
  have hLast : (∀ n ∈ X.getLast?.map Prod.snd, Closed n) ↔ ∀ p ∈ X.getLast?, Closed p.2 := by
    cases X.getLast? <;> simp
  rw [hLast]
  simp [texts]

theorem SplitStep.closed_children (h : SplitStep cur next A i l l' N C Z width childWidth) :
    ∀ p ∈ C.getLast?, Closed p.2 :=
  fun p hp => (h.children p (List.mem_of_mem_getLast? hp)).closed

/-- The lines up to the `id::` line are closed when an old line follows. -/
theorem SplitStep.closed_between (h : SplitStep cur next A i l l' N C Z width childWidth)
    (hInv : Inv lines cur) (hPage : PageLines lines) {N₁ N₂ : List Piece} {q : Piece}
    (hN : N = N₁ ++ q :: N₂) {r : Piece} (hr : r ∈ N₂ ++ Z) (hj : r.1.index = some j) :
    Closed q.2 := by
  obtain ⟨k, hOld⟩ := h.between_old q (by simp [hN])
  obtain ⟨tag, n⟩ := q
  obtain rfl : tag = .old k := hOld
  have hEq : cur = (A ++ (.old i, l) :: N₁) ++ (.old k, n) :: (N₂ ++ Z) := by
    rw [h.cur_eq, hN]
    simp
  exact hInv.closed_of_before hPage hEq hr hj

theorem not_or_of_ne {a b c : Nat} {P Q : Prop} (hb : a ≠ b) (hc : a ≠ c) :
    ¬((a = b ∧ P) ∨ (a = c ∧ Q)) := by
  rintro (⟨h, _⟩ | ⟨h, _⟩)
  · exact hb h
  · exact hc h

/-- What the split does to the line at a place: it stays a line of its own
unless it is joined to a neighbour. -/
theorem ownLine_zone (hInv : Inv lines cur) (hNext : Inv lines next) (hPage : PageLines lines)
    (h : SplitStep cur next A i l l' N C Z width childWidth)
    (hZone : Zone A (.old i, l) (.rewritten i, l') N C Z (.old j, m) X Y X' Y')
    (hCur : cur = X ++ (.old j, m) :: Y) (hNextEq : next = X' ++ (.old j, m) :: Y') :
    OwnLine (texts X') m (texts Y') ↔ OwnLine (texts X) m (texts Y) ∧
      ¬((X.length = A.length + 1 ∧ endsWith ['\n'] l = false) ∨
        (X.length = A.length + N.length ∧ ∀ c ∈ m.getLast?, isLineBreak c = false)) := by
  rw [hInv.ownLine_iff hCur, hNext.ownLine_iff hNextEq]
  have hm : LinePiece m := hInv.piece (.old j, m) (by rw [hCur]; simp)
  have hNLen : 0 < N.length := List.length_pos_iff.mpr h.between_ne
  cases hZone with
  | @front X A₂ hA =>
      have hLen : X.length < A.length := by rw [hA]; simp
      rw [and_iff_left (not_or_of_ne (by omega) (by omega))]
      simp
  | @back Z₁ Z₂ hZ =>
      have hLen : (A ++ (Origin.old i, l) :: (N ++ Z₁)).length =
          A.length + 1 + N.length + Z₁.length := by
        simp only [List.length_append, List.length_cons]
        omega
      rw [and_iff_left (not_or_of_ne (by omega) (by omega))]
      apply and_congr_left
      intro _
      obtain ⟨N₀, q, hN⟩ := (List.eq_nil_or_concat' N).resolve_left h.between_ne
      have hq : Closed q.2 := h.closed_between hInv hPage hN (r := (.old j, m)) (by simp [hZ]) rfl
      have hC := h.closed_children
      obtain ⟨C₀, r, rfl⟩ := (List.eq_nil_or_concat' C).resolve_left h.children_ne
      cases List.eq_nil_or_concat' Z₁ with
      | inl hNil =>
          subst hNil
          simpa [hN, hq, List.getLast?_append, List.getLast?_cons] using hC
      | inr hConcat =>
          obtain ⟨Z₀, s, rfl⟩ := hConcat
          simp [List.getLast?_append, List.getLast?_cons]
  | @middle N₁ N₂ hN =>
      have hEnd : N₂ ++ (C ++ Z) ≠ [] := by simp [h.children_ne]
      have hLen : N.length = N₁.length + 1 + N₂.length := by
        rw [hN]
        simp only [List.length_append, List.length_cons]
        omega
      have hX : (A ++ (Origin.old i, l) :: N₁).length = A.length + 1 + N₁.length := by
        simp only [List.length_append, List.length_cons]
        omega
      have hBullet : Closed l := by
        refine hInv.closed_of_before hPage h.cur_eq (q := (.old j, m)) ?_ rfl
        simp [hN]
      -- the end of the line matters when it is the `id::` line
      have hTail : Closed m ↔ (Closed m ∨ N₂ ++ Z = []) ∧
          ¬(A.length + 1 + N₁.length = A.length + N.length ∧
            ∀ c ∈ m.getLast?, isLineBreak c = false) := by
        rw [closed_iff_last_break hm]
        cases N₂ with
        | nil =>
            rw [List.length_nil] at hLen
            simp only [show A.length + 1 + N₁.length = A.length + N.length by omega, true_and]
            exact ⟨fun h => ⟨Or.inl h, h⟩, fun h => h.2⟩
        | cons q N₂ =>
            rw [List.length_cons] at hLen
            simp [show A.length + 1 + N₁.length ≠ A.length + N.length by omega]
      -- its front matters when the rewritten bullet stands before it
      have hFront : (∀ p ∈ (A ++ (Origin.rewritten i, l') :: N₁).getLast?, Closed p.2) ↔
          (∀ p ∈ (A ++ (Origin.old i, l) :: N₁).getLast?, Closed p.2) ∧
            ¬(A.length + 1 + N₁.length = A.length + 1 ∧ endsWith ['\n'] l = false) := by
        cases List.eq_nil_or_concat' N₁ with
        | inl hNil =>
            subst hNil
            simp [hBullet, h.closed']
        | inr hConcat =>
            obtain ⟨N₀, q, rfl⟩ := hConcat
            simp [List.getLast?_append, List.getLast?_cons]
      rw [hX, hFront, or_iff_left hEnd, not_or]
      constructor
      · rintro ⟨⟨hX, hNoGlue⟩, hClosed⟩
        obtain ⟨hEndOk, hNoEnd⟩ := hTail.mp hClosed
        exact ⟨⟨hX, hEndOk⟩, hNoGlue, hNoEnd⟩
      · rintro ⟨⟨hX, hEndOk⟩, hNoGlue, hNoEnd⟩
        exact ⟨⟨hX, hNoGlue⟩, hTail.mpr ⟨hEndOk, hNoEnd⟩⟩

theorem owner_append (level : Option Nat) (X Y : List Piece) :
    owner level (X ++ Y) = (owner level Y).or (owner level X) := by
  rw [owner, List.reverse_append, List.find?_append, Option.map_or]
  rfl

theorem owner_cons (level : Option Nat) (p : Piece) (Y : List Piece) :
    owner level (p :: Y) = (owner level Y).or (owner level [p]) :=
  owner_append level [p] Y

theorem owner_eq_none {level : Option Nat} {X : List Piece} :
    owner level X = none ↔ ∀ p ∈ X, isAbove level p.2 = false := by
  simp [owner]

theorem isAbove_of_bulletLevel_eq {l l' : Str} (h : bulletLevel l' = bulletLevel l)
    (level : Option Nat) : isAbove level l' = isAbove level l := by
  simp only [isAbove, h]

theorem isAbove_of_not_bullet {level : Option Nat} {l : Str} (h : bulletLevel l = none) :
    isAbove level l = false := by
  simp only [isAbove, h]

theorem isAbove_of_width {level : Option Nat} {l : Str} {w : Nat} (h : bulletLevel l = some w) :
    isAbove level l = isDeeper w level := by
  cases level <;> simp [isAbove, isDeeper, h]

/-- The rewritten bullet owns what the old one owned. -/
theorem SplitStep.owner_bullet (h : SplitStep cur next A i l l' N C Z width childWidth)
    (level : Option Nat) :
    owner level [(Origin.rewritten i, l')] = owner level [(Origin.old i, l)] := by
  have hLevel := isAbove_of_bulletLevel_eq (h.level'.trans h.level.symm) level
  cases hAbove : isAbove level l with
  | false => simp [owner, hLevel, hAbove]
  | true => simp [owner, hLevel, hAbove, Origin.index]

theorem SplitStep.owner_between (h : SplitStep cur next A i l l' N C Z width childWidth)
    (level : Option Nat) : owner level N = none :=
  owner_eq_none.mpr fun p hp => isAbove_of_not_bullet (h.between p hp)

/-- A line deeper than the new children falls under the last of them. -/
theorem SplitStep.owner_children (h : SplitStep cur next A i l l' N C Z width childWidth)
    (level : Option Nat) :
    owner level C = if isDeeper childWidth level then some none else none := by
  have hAbove {p : Piece} (hp : p ∈ C) (hp' : isAbove level p.2 = true) :
      p.1.index = none ∧ isDeeper childWidth level = true := by
    obtain ⟨hTag, hLevel, _⟩ | ⟨_, hNone⟩ := (h.children p hp).shape
    · rw [isAbove_of_width hLevel] at hp'
      exact ⟨by rw [hTag]; rfl, hp'⟩
    · rw [isAbove_of_not_bullet hNone] at hp'
      cases hp'
  split_ifs with hDeeper
  · obtain ⟨p, C', rfl⟩ := List.exists_cons_of_ne_nil h.children_ne
    have hChild : isAbove level p.2 = true := by
      obtain ⟨_, hLevel, _⟩ | ⟨hTag, _⟩ := (h.children p (by simp)).shape
      · rw [isAbove_of_width hLevel, hDeeper]
      · obtain ⟨tag, n⟩ := p
        obtain rfl : tag = .childId i := hTag
        obtain ⟨init, n', hInit⟩ := h.childIds [] i n C' rfl
        simp at hInit
    cases hFind : (p :: C').reverse.find? (fun p => isAbove level p.2) with
    | none =>
        rw [List.find?_eq_none] at hFind
        exact absurd hChild (hFind p (by simp))
    | some q =>
        have hq := hAbove (List.mem_reverse.mp (List.mem_of_find?_eq_some hFind))
          (by simpa using List.find?_some hFind)
        simp only [owner, hFind, Option.map_some, hq.1]
  · rw [owner_eq_none]
    intro p hp
    rw [← Bool.not_eq_true]
    intro hp'
    exact hDeeper (hAbove hp hp').2

/-- What the split does to the bullet a line stands under: it stays the same
unless the line falls under the last new child. -/
theorem owner_zone (h : SplitStep cur next A i l l' N C Z width childWidth)
    (hZone : Zone A (.old i, l) (.rewritten i, l') N C Z (.old j, m) X Y X' Y')
    (level : Option Nat) {before : Option (Option Nat)} (hBefore : before ≠ some none) :
    owner level X' = before ↔ owner level X = before ∧
      ¬(A.length + N.length < X.length ∧ isDeeper childWidth level = true ∧
        ∀ p ∈ X.drop (A.length + N.length + 1), isAbove level p.2 = false) := by
  cases hZone with
  | @front X A₂ hA =>
      have hLen : X.length < A.length := by rw [hA]; simp
      rw [and_iff_left (by omega)]
  | @middle N₁ N₂ hN =>
      have hLen : (A ++ (Origin.old i, l) :: N₁).length ≤ A.length + N.length := by
        rw [hN]
        simp only [List.length_append, List.length_cons]
        omega
      rw [and_iff_left (by omega), owner_append, owner_append, owner_cons,
        owner_cons level (Origin.old i, l), h.owner_bullet]
  | @back Z₁ Z₂ hZ =>
      have hLen : A.length + N.length < (A ++ (Origin.old i, l) :: (N ++ Z₁)).length := by
        simp only [List.length_append, List.length_cons]
        omega
      have hDrop : (A ++ (Origin.old i, l) :: (N ++ Z₁)).drop (A.length + N.length + 1) = Z₁ := by
        rw [show A ++ (Origin.old i, l) :: (N ++ Z₁) = (A ++ (Origin.old i, l) :: N) ++ Z₁ by simp,
          List.drop_left' (by simp; omega)]
      simp only [hLen, true_and, hDrop, ← owner_eq_none]
      rw [owner_append, owner_append, owner_cons, owner_cons level (Origin.old i, l), owner_append,
        owner_append level N Z₁, owner_append level C Z₁, h.owner_bullet, h.owner_between,
        h.owner_children]
      cases hZ₁ : owner level Z₁ with
      | some found => simp
      | none =>
          cases hDeeper : isDeeper childWidth level with
          | false => simp
          | true => simpa using fun hEq => hBefore hEq.symm

theorem Zone.length_ne {p b b' : Piece} (h : Zone A b b' N C Z p X Y X' Y') :
    X.length ≠ A.length := by
  cases h with
  | @front X A₂ hA =>
      rw [hA]
      simp
  | middle _ =>
      rw [List.length_append, List.length_cons]
      omega
  | back _ =>
      rw [List.length_append, List.length_cons]
      omega

/-- How a property of the place of a line changes when each zone is known: it
holds afterwards when it held before, the line was not rewritten, and `G` did
not happen to it. -/
theorem place_step {cand : Candidate} (hInv : Inv lines cur)
    (h : SplitStep cur next A i l l' N C Z width childWidth) (hIdx : cand.bulletIdx = A.length)
    {P P' : List Piece → List Piece → Prop} {G : List Piece → Str → Prop}
    (hZone : ∀ X Y X' Y', Zone A (.old i, l) (.rewritten i, l') N C Z (.old j, m) X Y X' Y' →
      cur = X ++ (.old j, m) :: Y → next = X' ++ (.old j, m) :: Y' →
        (P' X' Y' ↔ P X Y ∧ ¬G X m)) :
    (∃ before after, next = before ++ (.old j, m) :: after ∧ P' before after) ↔
      (∃ before after, cur = before ++ (.old j, m) :: after ∧ P before after) ∧
        ¬BulletHit cur cand j ∧
          ¬∃ before n after, cur = before ++ (.old j, n) :: after ∧ G before n := by
  constructor
  · rintro ⟨X', Y', hNext, hP'⟩
    have hNotChild : (Origin.old j, m) ∉ C := by
      intro hC
      obtain ⟨hTag, _⟩ | ⟨hTag, _⟩ := (h.children _ hC).shape
      · cases hTag
      · cases hTag
    obtain ⟨X, Y, hCur, hZ⟩ := zone_of_next (b := (.old i, l)) (by simp) hNotChild
      (h.next_eq.symm.trans hNext)
    rw [← h.cur_eq] at hCur
    obtain ⟨hP, hG⟩ := (hZone X Y X' Y' hZ hCur hNext).mp hP'
    refine ⟨⟨X, Y, hCur, hP⟩, ?_, ?_⟩
    · rintro ⟨before, n, after, hEq, hLen⟩
      obtain ⟨rfl, _, _⟩ := hInv.unique hCur hEq rfl rfl
      exact hZ.length_ne (hLen.trans hIdx)
    · rintro ⟨before, n, after, hEq, hGn⟩
      obtain ⟨rfl, hPiece, _⟩ := hInv.unique hCur hEq rfl rfl
      obtain ⟨_, rfl⟩ := Prod.mk.inj hPiece
      exact hG hGn
  · rintro ⟨⟨X, Y, hCur, hP⟩, hBullet, hNoG⟩
    obtain ⟨rfl, -⟩ | ⟨X', Y', hNext, hZ⟩ :=
      zone_of_cur (q := (.rewritten i, l')) (C := C) (h.cur_eq.symm.trans hCur)
    · exact absurd ⟨X, m, Y, hCur, hIdx.symm⟩ hBullet
    · rw [← h.next_eq] at hNext
      exact ⟨X', Y', hNext, (hZone X Y X' Y' hZ hCur hNext).mpr
        ⟨hP, fun hG => hNoG ⟨X, m, Y, hCur, hG⟩⟩⟩

end Step

theorem owner_tagLines_ne (lines : List Str) (level : Option Nat) (j : Nat) :
    owner level ((tagLines lines).take j) ≠ some none := by
  intro h
  obtain ⟨p, hFind, hIndex⟩ := Option.map_eq_some_iff.mp h
  have hMem := List.mem_of_mem_take (List.mem_reverse.mp (List.mem_of_find?_eq_some hFind))
  obtain ⟨i, hOld, _⟩ := mem_tagLines hMem
  rw [hOld] at hIndex
  cases hIndex

section Loop

variable {tables : CaseTables} {lines : List Str} {cur : List Piece} {minChars : Int}
  {isProtected : Nat → Bool} {cand : Candidate}

theorem exists_splitStep (hInv : Inv lines cur) (freshUuid : Nat → Uuid) (k : Nat)
    (hCand : cand ∈ collectCandidates tables (strippedLines (texts cur)) minChars isProtected) :
    ∃ A i l l' N C Z width, SplitStep cur (tagSplit freshUuid k cur cand) A i l l' N C Z width
        (childWidth cur cand) ∧
      cand.bulletIdx = A.length ∧ cand.idLineIdx = A.length + N.length ∧
        (texts cur).getD cand.bulletIdx [] = l := by
  obtain ⟨A, bl, M, idl, Z, ws, mark, rest, hSite⟩ := exists_splitSite hCand
  obtain ⟨i, l, l', C, rfl, hStep⟩ := hSite.splitStep hInv freshUuid k
  have hLine : (texts cur).getD cand.bulletIdx [] = l := by
    rw [hSite.bulletIdx, hSite.eq]
    simp [texts, List.getD_eq_getElem?_getD]
  have hWidth : (ws ++ bulletIndentUnit (texts cur) A.length).length = childWidth cur cand := by
    rw [childWidth, hLine, bulletLevel, hSite.bullet, hSite.bulletIdx, List.length_append]
    rfl
  rw [hWidth] at hStep
  refine ⟨A, i, l, l', M ++ [idl], C, Z, ws.length, hStep, hSite.bulletIdx, ?_, hLine⟩
  rw [hSite.idLineIdx, List.length_append, List.length_singleton]
  omega

theorem keptLine_step (hInv : Inv lines cur) (hPage : PageLines lines) (freshUuid : Nat → Uuid)
    (k : Nat)
    (hCand : cand ∈ collectCandidates tables (strippedLines (texts cur)) minChars isProtected)
    (j : Nat) :
    KeptLine lines (tagSplit freshUuid k cur cand) j ↔
      KeptLine lines cur j ∧ ¬BulletHit cur cand j ∧ ¬GlueHit cur cand j := by
  obtain ⟨A, i, l, l', N, C, Z, width, hStep, hBullet, hId, hLine⟩ :=
    exists_splitStep hInv freshUuid k hCand
  refine place_step hInv hStep hBullet ?_
  intro X Y X' Y' hZone hCur hNext
  rw [hLine, hBullet, hId]
  exact ownLine_zone hInv (hInv.step hStep) hPage hStep hZone hCur hNext

theorem sameOwner_step (hInv : Inv lines cur) (freshUuid : Nat → Uuid) (k : Nat)
    (hCand : cand ∈ collectCandidates tables (strippedLines (texts cur)) minChars isProtected)
    (j : Nat) :
    SameOwner lines (tagSplit freshUuid k cur cand) j ↔
      SameOwner lines cur j ∧ ¬BulletHit cur cand j ∧ ¬MoveHit cur cand j := by
  obtain ⟨A, i, l, l', N, C, Z, width, hStep, hBullet, hId, _⟩ :=
    exists_splitStep hInv freshUuid k hCand
  refine place_step hInv hStep hBullet ?_
  intro X Y X' Y' hZone _ _
  rw [hId]
  exact owner_zone hStep hZone _ (owner_tagLines_ne lines _ j)

/-- A property that each split keeps unless `H` happens holds after the loop
when it held before and `H` never happened. -/
theorem tagLoop_iff {Q : List Piece → Prop} {H : List Piece → Candidate → Prop}
    (freshUuid : Nat → Uuid)
    (hStep : ∀ cur k cand, Inv lines cur →
      cand ∈ collectCandidates tables (strippedLines (texts cur)) minChars isProtected →
        (Q (tagSplit freshUuid k cur cand) ↔ Q cur ∧ ¬H cur cand))
    (allowed k : Nat) {cur : List Piece} (hInv : Inv lines cur) :
    Q (tagLoop tables freshUuid minChars isProtected allowed k cur) ↔
      Q cur ∧ EverySplit tables freshUuid minChars isProtected (fun cur cand => ¬H cur cand)
        allowed k cur := by
  induction allowed generalizing k cur with
  | zero => simp [tagLoop, EverySplit]
  | succ allowed ih =>
      rw [tagLoop, EverySplit]
      cases hCands : collectCandidates tables (strippedLines (texts cur)) minChars isProtected with
      | nil => simp
      | cons cand cands =>
          have hCand : cand ∈ collectCandidates tables (strippedLines (texts cur)) minChars
            isProtected := by rw [hCands]; exact List.mem_cons_self
          obtain ⟨A, i, l, l', N, C, Z, width, hSplit, _⟩ :=
            exists_splitStep hInv freshUuid k hCand
          simp only
          rw [ih _ (hInv.step hSplit), hStep cur k cand hInv hCand, and_assoc]

/-- What every split keeps holds after the loop. -/
theorem tagLoop_induction {Q : List Piece → Prop} (freshUuid : Nat → Uuid)
    (hStep : ∀ cur k cand, Inv lines cur → Q cur →
      cand ∈ collectCandidates tables (strippedLines (texts cur)) minChars isProtected →
        Q (tagSplit freshUuid k cur cand))
    (allowed k : Nat) {cur : List Piece} (hInv : Inv lines cur) (hQ : Q cur) :
    Inv lines (tagLoop tables freshUuid minChars isProtected allowed k cur) ∧
      Q (tagLoop tables freshUuid minChars isProtected allowed k cur) := by
  induction allowed generalizing k cur with
  | zero => exact ⟨hInv, hQ⟩
  | succ allowed ih =>
      rw [tagLoop]
      cases hCands : collectCandidates tables (strippedLines (texts cur)) minChars isProtected with
      | nil => exact ⟨hInv, hQ⟩
      | cons cand cands =>
          have hCand : cand ∈ collectCandidates tables (strippedLines (texts cur)) minChars
            isProtected := by rw [hCands]; exact List.mem_cons_self
          obtain ⟨A, i, l, l', N, C, Z, width, hSplit, _⟩ :=
            exists_splitStep hInv freshUuid k hCand
          exact ih _ (hInv.step hSplit) (hStep cur k cand hInv hQ hCand)

/-- Conditions that agree on the states of the loop may be exchanged. -/
theorem everySplit_congr {P R : List Piece → Candidate → Prop} (freshUuid : Nat → Uuid)
    (h : ∀ cur cand, Inv lines cur →
      cand ∈ collectCandidates tables (strippedLines (texts cur)) minChars isProtected →
        (P cur cand ↔ R cur cand))
    (allowed k : Nat) (hInv : Inv lines cur) :
    EverySplit tables freshUuid minChars isProtected P allowed k cur ↔
      EverySplit tables freshUuid minChars isProtected R allowed k cur := by
  induction allowed generalizing k cur with
  | zero => exact Iff.rfl
  | succ allowed ih =>
      rw [EverySplit, EverySplit]
      cases hCands : collectCandidates tables (strippedLines (texts cur)) minChars isProtected with
      | nil => exact Iff.rfl
      | cons cand cands =>
          have hCand : cand ∈ collectCandidates tables (strippedLines (texts cur)) minChars
            isProtected := by rw [hCands]; exact List.mem_cons_self
          obtain ⟨A, i, l, l', N, C, Z, width, hSplit, _⟩ :=
            exists_splitStep hInv freshUuid k hCand
          simp only
          rw [h cur cand hInv hCand, ih _ (hInv.step hSplit)]

theorem everySplit_forall {ι : Sort*} {P : ι → List Piece → Candidate → Prop}
    (freshUuid : Nat → Uuid) (allowed k : Nat) (cur : List Piece) :
    EverySplit tables freshUuid minChars isProtected (fun cur cand => ∀ x, P x cur cand)
        allowed k cur ↔
      ∀ x, EverySplit tables freshUuid minChars isProtected (P x) allowed k cur := by
  induction allowed generalizing k cur with
  | zero => simp [EverySplit]
  | succ allowed ih =>
      simp only [EverySplit]
      cases collectCandidates tables (strippedLines (texts cur)) minChars isProtected with
      | nil => simp
      | cons cand cands =>
          simp only
          rw [ih, forall_and]

end Loop

end Plumber.SplitLargeBlocks
