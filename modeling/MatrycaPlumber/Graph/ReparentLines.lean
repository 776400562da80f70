import MatrycaPlumber.Graph.ReparentLayout

/-! When a reparenting keeps every old line as a line of its own. -/
namespace Plumber.ReparentBlocks

open PyText MarkdownBlocks GlobalFenceScanner
open scoped List

variable {tables : CaseTables} {text : Str}

theorem not_isLineBreak_of_indentOnly {ws : Str} (h : IndentOnly ws) {c : Char} (hc : c ∈ ws) :
    isLineBreak c = false := by
  cases h c hc with
  | inl hBlank => rw [hBlank]; decide
  | inr hTab => rw [hTab]; decide

theorem closed_renderTag_idLine (lines : List Str) (moved : Nat → Bool) (groups : List Group)
    (ids : Nat → Uuid) {baseWs unit : Str} (hBase : IndentOnly baseWs) (hUnit : IndentOnly unit)
    (g : Nat) : Closed (renderTag lines moved groups ids baseWs unit (.idLine g)) := by
  apply closed_append_newline
  intro c hc
  simp only [List.mem_append] at hc
  obtain ((hc | hc) | hc) | hc := hc
  · exact not_isLineBreak_of_indentOnly hBase hc
  · exact not_isLineBreak_of_indentOnly hUnit hc
  · revert c
    decide
  · exact not_isLineBreak_of_not_isSpace ((ids g).not_isSpace hc)

theorem closed_renderTag_category (lines : List Str) (moved : Nat → Bool) {groups : List Group}
    (ids : Nat → Uuid) {baseWs unit : Str} (hBase : IndentOnly baseWs)
    (hClean : ∀ group ∈ groups, ∀ c ∈ group.1, isLineBreak c = false) (g : Nat) :
    Closed (renderTag lines moved groups ids baseWs unit (.category g)) := by
  apply closed_append_newline
  intro c hc
  simp only [List.mem_append] at hc
  obtain (hc | hc) | hc := hc
  · exact not_isLineBreak_of_indentOnly hBase hc
  · revert c
    decide
  · rw [List.getD_eq_getElem?_getD] at hc
    cases hGet : groups[g]? with
    | none => simp [hGet] at hc
    | some group =>
        rw [hGet] at hc
        exact hClean group (List.mem_of_getElem? hGet) c hc

theorem closed_renderTag_old {lines : List Str} (moved : Nat → Bool) (groups : List Group)
    (ids : Nat → Uuid) (baseWs : Str) {unit : Str} (hUnit : unit ≠ []) {i : Nat}
    (hLine : Closed (lines.getD i [])) :
    Closed (renderTag lines moved groups ids baseWs unit (.old i)) := by
  have hPos : (0 : Int) < unit.length := by exact_mod_cast List.length_pos_iff.mpr hUnit
  simp only [renderTag]
  split_ifs
  · exact closed_shiftLine hPos hLine
  · exact hLine

theorem unterminated_renderTag_old {lines : List Str} (moved : Nat → Bool) (groups : List Group)
    (ids : Nat → Uuid) (baseWs : Str) {unit : Str} (hUnit : unit ≠ []) {i : Nat}
    (hLine : Unterminated (lines.getD i [])) :
    Unterminated (renderTag lines moved groups ids baseWs unit (.old i)) := by
  have hPos : (0 : Int) < unit.length := by exact_mod_cast List.length_pos_iff.mpr hUnit
  simp only [renderTag]
  split_ifs
  · exact unterminated_shiftLine hPos hLine
  · exact hLine

/-- Every rendered tag of the layout is what its origin allows. -/
theorem renders_renderTag {lines : List Str} {moved : Nat → Bool} {groups : List Group}
    (ids : Nat → Uuid) {baseWs unit : Str} (hBase : IndentOnly baseWs) (hUnit : IndentOnly unit)
    (hNe : unit ≠ []) {tag : LineTag}
    (hTag : tag ∈ (List.range lines.length).map .old ++
      (List.range groups.length).flatMap fun g => [.category g, .idLine g]) :
    Renders lines moved groups ids tag (renderTag lines moved groups ids baseWs unit tag) := by
  have hPos : (0 : Int) < unit.length := by exact_mod_cast List.length_pos_iff.mpr hNe
  cases List.mem_append.mp hTag with
  | inl hOld =>
      obtain ⟨i, hi, rfl⟩ := List.mem_map.mp hOld
      have hLine : lines[i]? = some (lines.getD i []) := by
        simp [List.getD_eq_getElem?_getD, List.mem_range.mp hi]
      simp only [renderTag]
      split_ifs with hMoved
      · exact .moved hLine hMoved (sameButIndent_shiftLine hPos _)
      · exact .kept hLine (by simpa using hMoved)
  | inr hNew =>
      obtain ⟨g, hg, hTag⟩ := List.mem_flatMap.mp hNew
      have hGroup : groups[g]? = some (groups.getD g ([], [])) := by
        simp [List.getD_eq_getElem?_getD, List.mem_range.mp hg]
      cases hTag with
      | head => exact .category hGroup hBase
      | tail _ hTag =>
          obtain rfl := List.mem_singleton.mp hTag
          have hWs : IndentOnly (baseWs ++ unit) := by
            intro c hc
            cases List.mem_append.mp hc with
            | inl hc => exact hBase c hc
            | inr hc => exact hUnit c hc
          exact .idLine hWs

/-- The last line of the page is the last one of the last member, and from the
first selected line on every line is selected. -/
def LastMemberEndsPage (tables : CaseTables) (text : Str) (groups : List Group) : Prop :=
  let n := (splitlinesKeep text).length
  (∃ group u loc, groups.getLast? = some group ∧ group.2.getLast? = some u ∧
    locateBlockByUuid tables ((splitlinesKeep text).map (rstripChars ['\n'])) u = some loc ∧
      loc.1 ≤ n - 1 ∧ n - 1 < loc.2.2) ∧
  ∀ i j, i ≤ j → j < n → selected tables text groups i = true → selected tables text groups j = true

theorem Checked.sortedIntervals_cons {rawGroups : List RawGroup} {groups : List Group}
    {locs : List (Str × Location)} (h : Checked tables text rawGroups groups locs)
    {firstStart : Nat} (hFirst : (locs.map fun entry => entry.2.1).min? = some firstStart) :
    ∃ e rest, sortedIntervals locs = (firstStart, e) :: rest ∧ firstStart < e ∧
      OrderedFrom (splitlinesKeep text).length e rest := by
  obtain ⟨hMem, hMin⟩ := List.min?_eq_some_iff.mp hFirst
  have hOrdered := h.ordered
  have hPerm := sortedIntervals_perm locs
  generalize sortedIntervals locs = ivs at hOrdered hPerm
  have hStarts {b : Nat} : b ∈ ivs.map Prod.fst ↔ b ∈ locs.map fun entry => entry.2.1 := by
    rw [(hPerm.map Prod.fst).mem_iff, List.map_map]
    rfl
  cases hOrdered with
  | nil _ => exact absurd (hStarts.mpr hMem) (by simp)
  | @cons _ b e rest _ hLt hRest =>
      refine ⟨e, rest, ?_, ?_, hRest⟩
      all_goals
        have hLe : firstStart ≤ b := hMin b (hStarts.mp (by simp))
        have hGe : b ≤ firstStart := by
          obtain ⟨iv, hiv, hEq⟩ := List.mem_map.mp (hStarts.mpr hMem)
          cases hiv with
          | head => exact hEq.le
          | tail _ hiv => have := hRest.start_le iv hiv; omega
        obtain rfl : b = firstStart := by omega
      · rfl
      · exact hLt

theorem Checked.layout_eq {rawGroups : List RawGroup} {groups : List Group}
    {locs : List (Str × Location)} (h : Checked tables text rawGroups groups locs)
    {firstStart e : Nat} {rest : List (Nat × Nat)}
    (hIvs : sortedIntervals locs = (firstStart, e) :: rest) :
    layout (splitlinesKeep text).length locs groups firstStart =
      (List.range (splitlinesKeep text).length |>.take firstStart).map .old ++
        insertTags (splitlinesKeep text).length locs 0 groups ++
          (cut (List.range (splitlinesKeep text).length) e rest).map .old := by
  have hOrdered := h.ordered
  rw [hIvs] at hOrdered
  cases hOrdered with
  | cons _ hLt hRest =>
      have hLe : firstStart ≤ (List.range (splitlinesKeep text).length).length := by
        rw [List.length_range]
        have := hRest.le
        omega
      rw [layout, hIvs, drop_cut_cons hLe, cut, List.take_append_of_le_length
        (by rw [length_slice _ hLe]; omega), List.take_of_length_le (by rw [length_slice _ hLe]; omega)]
      rfl

/-- The last of the inserted lines is the end of the last member. -/
theorem Checked.getLast?_insertTags {rawGroups : List RawGroup} {groups : List Group}
    {locs : List (Str × Location)} (h : Checked tables text rawGroups groups locs)
    (hNe : groups ≠ []) {i : Nat} (hi : i + 1 = (splitlinesKeep text).length) :
    (insertTags (splitlinesKeep text).length locs 0 groups).getLast? = some (.old i) ↔
      ∃ group u loc, groups.getLast? = some group ∧ group.2.getLast? = some u ∧
        locateBlockByUuid tables ((splitlinesKeep text).map (rstripChars ['\n'])) u = some loc ∧
          loc.1 ≤ i ∧ i < loc.2.2 := by
  obtain ⟨before, group, rfl⟩ := (List.eq_nil_or_concat' groups).resolve_left hNe
  obtain ⟨cat, us⟩ := group
  have hLast : (before ++ [(cat, us)]).getLast? = some (cat, us) := List.getLast?_concat
  simp only [hLast, Option.some.injEq]
  rw [insertTags_append]
  simp only [insertTags, List.append_nil]
  cases List.eq_nil_or_concat' us with
  | inl hNil =>
      subst hNil
      simp
  | inr hConcat =>
      obtain ⟨init, u, rfl⟩ := hConcat
      have hu : u ∈ locs.map Prod.fst := by rw [h.members]; simp
      obtain ⟨⟨b, k, e⟩, hLoc, hMem⟩ := exists_lookup hu
      have hLocate := h.located _ hMem
      obtain ⟨hb, he, hn⟩ := locateBlockByUuid_bounds hLocate
      rw [List.length_map] at hn
      have hEnd := getLast?_slice_range (n := (splitlinesKeep text).length) (b := b) (e := e)
        (by omega) hn
      have hTags : (memberTags (splitlinesKeep text).length locs u).getLast? =
          some (.old (e - 1)) := by
        rw [memberTags, hLoc]
        simp only [List.getLast?_map, hEnd, Option.map_some]
      have hIns : (insertTags (splitlinesKeep text).length locs 0 before ++
          .category (0 + before.length) :: .idLine (0 + before.length) ::
            (init ++ [u]).flatMap (memberTags (splitlinesKeep text).length locs)).getLast? =
              some (LineTag.old (e - 1)) := by
        rw [List.flatMap_append, List.flatMap_singleton, ← List.cons_append, ← List.cons_append,
          ← List.append_assoc, List.getLast?_append, hTags]
        rfl
      rw [hIns]
      simp only [Option.some.injEq, LineTag.old.injEq]
      constructor
      · intro hEq
        exact ⟨_, u, (b, k, e), rfl, by simp, hLocate, by show b ≤ i; omega, by show i < e; omega⟩
      · rintro ⟨group, v, loc, rfl, hv, hLoc', _, hlt⟩
        simp only [List.getLast?_concat, Option.some.injEq] at hv
        subst hv
        rw [hLocate] at hLoc'
        obtain rfl := Option.some.inj hLoc'
        simp only at hlt
        omega

/-- The last line of the page stays last exactly when it is not selected, or
everything from the first selected line on moves and the last member holds it. -/
theorem Checked.getLast?_layout {rawGroups : List RawGroup} {groups : List Group}
    {locs : List (Str × Location)} (h : Checked tables text rawGroups groups locs)
    {firstStart i : Nat} (hFirst : (locs.map fun entry => entry.2.1).min? = some firstStart)
    (hi : i + 1 = (splitlinesKeep text).length) :
    (layout (splitlinesKeep text).length locs groups firstStart).getLast? = some (.old i) ↔
      selected tables text groups i = false ∨ LastMemberEndsPage tables text groups := by
  obtain ⟨e, rest, hIvs, hLt, hRest⟩ := h.sortedIntervals_cons hFirst
  have hGroups : groups ≠ [] := by
    rintro rfl
    have hLocs : locs.map Prod.fst = [] := h.members
    rw [List.map_eq_nil_iff] at hLocs
    subst hLocs
    cases hFirst
  have hIns : insertTags (splitlinesKeep text).length locs 0 groups ≠ [] := by
    cases groups with
    | nil => exact absurd rfl hGroups
    | cons group groups => simp [insertTags]
  have hLe := hRest.le
  -- a line that is not selected stands before the first interval or in the tail
  have hSplit {j : Nat} (hj : j < (splitlinesKeep text).length) (hge : firstStart ≤ j) :
      j ∈ cut (List.range (splitlinesKeep text).length) e rest ↔
        selected tables text groups j = false := by
    have hKept := h.mem_kept_iff (i := j)
    rw [hIvs, cut, List.mem_append, mem_slice_range] at hKept
    constructor
    · intro hTail
      exact (hKept.mp (Or.inr hTail)).2
    · intro hOut
      cases hKept.mpr ⟨hj, hOut⟩ with
      | inl hHead => omega
      | inr hTail => exact hTail
  have hFirstSelected : selected tables text groups firstStart = true :=
    h.selected_iff.mpr ⟨(firstStart, e), by simp [hIvs], Nat.le_refl _, hLt⟩
  have hBound {j : Nat} (hj : j ∈ cut (List.range (splitlinesKeep text).length) e rest) :
      e ≤ j ∧ j < (splitlinesKeep text).length := by
    have hSub := (cut_range_sublist hRest).subset hj
    obtain ⟨k, hk, rfl⟩ := List.mem_drop_iff_getElem.mp hSub
    simp only [List.length_range] at hk
    simp only [List.getElem_range]
    omega
  rw [h.layout_eq hIvs]
  cases List.eq_nil_or_concat' (cut (List.range (splitlinesKeep text).length) e rest) with
  | inl hNil =>
      rw [hNil, List.map_nil, List.append_nil, List.getLast?_append,
        List.getLast?_eq_some_getLast hIns, Option.some_or, ← List.getLast?_eq_some_getLast hIns,
        h.getLast?_insertTags hGroups hi]
      have hAll {j : Nat} (hj : j < (splitlinesKeep text).length) (hge : firstStart ≤ j) :
          selected tables text groups j = true := by
        rw [← Bool.not_eq_false]
        intro hOut
        have := (hSplit hj hge).mpr hOut
        rw [hNil] at this
        cases this
      have hMoved : selected tables text groups i = true := hAll (by omega) (by omega)
      simp only [hMoved, Bool.true_eq_false, false_or, LastMemberEndsPage]
      rw [show (splitlinesKeep text).length - 1 = i by omega]
      constructor
      · intro hLast
        refine ⟨hLast, ?_⟩
        intro j k hjk hk hj
        apply hAll hk
        obtain ⟨iv, hiv, hStart, _⟩ := h.selected_iff.mp hj
        have hOrdered := h.ordered
        rw [hIvs] at hOrdered hiv
        cases hOrdered with
        | cons _ _ hTail =>
            cases hiv with
            | head => show firstStart ≤ k; omega
            | tail _ hiv => have := hTail.start_le iv hiv; omega
      · intro hLast
        exact hLast.1
  | inr hConcat =>
      obtain ⟨init, m, hTail⟩ := hConcat
      obtain ⟨hm, hmLt⟩ := hBound (j := m) (by rw [hTail]; simp)
      have hmOut : selected tables text groups m = false :=
        (hSplit hmLt (by omega)).mp (by rw [hTail]; simp)
      have hNotLast : ¬LastMemberEndsPage tables text groups := by
        rintro ⟨_, hClosed⟩
        have := hClosed firstStart m (by omega) hmLt hFirstSelected
        rw [hmOut] at this
        cases this
      rw [hTail, List.map_append, ← List.append_assoc, List.map_singleton, List.getLast?_concat]
      simp only [hNotLast, or_false, Option.some.injEq, LineTag.old.injEq]
      constructor
      · rintro rfl
        exact hmOut
      · intro hOut
        have hMem := (hSplit (j := i) (by omega) (by omega)).mpr hOut
        rw [hTail] at hMem
        cases List.mem_append.mp hMem with
        | inr hEq => exact (List.mem_singleton.mp hEq).symm
        | inl hInit =>
            have hSub := (cut_range_sublist hRest).trans (List.drop_sublist _ _)
            rw [hTail] at hSub
            have hSorted := List.pairwise_lt_range.sublist hSub
            have := (List.pairwise_append.mp hSorted).2.2 i hInit m (by simp)
            omega

theorem category_stripped {rawGroups : List RawGroup} {groups : List Group}
    (h : parseGroups rawGroups = .ok groups) {group : Group} (hGroup : group ∈ groups) :
    ∃ category, group.1 = strip category := by
  induction rawGroups generalizing groups with
  | nil =>
      obtain rfl := Except.ok.inj h
      cases hGroup
  | cons raw rawGroups ih =>
      cases hHead : parseGroup raw with
      | error e => simp [parseGroups, hHead, bind, Except.bind] at h
      | ok first =>
          cases hRest : parseGroups rawGroups with
          | error e => simp [parseGroups, hHead, hRest, bind, Except.bind] at h
          | ok others =>
              have hEq : first :: others = groups := by
                simpa [parseGroups, hHead, hRest, bind, Except.bind, pure, Except.pure] using h
              subst hEq
              cases hGroup with
              | tail _ hGroup => exact ih hRest hGroup
              | head =>
                  cases raw with
                  | notObject => cases hHead
                  | object category blockUuids =>
                      simp only [parseGroup] at hHead
                      split at hHead
                      · next c cat raw hStrip =>
                          split_ifs at hHead
                          exact ⟨category, by rw [← Except.ok.inj hHead, hStrip]⟩
                      · cases hHead

theorem isSpace_getLast_strip {s : Str} (h : strip s ≠ []) :
    isSpace ((strip s).getLast h) = false := by
  rw [← Bool.not_eq_true]
  exact List.rdropWhile_last_not isSpace (lstrip s) h

/-- A category that holds a line boundary is never one line of the page. -/
theorem isLineBreak_of_category_line {new : Str} {ws cat category : Str} (hCat : cat = strip category)
    (hLine : ws ++ "- ".toList ++ cat ++ ['\n'] ∈ splitlinesKeep new) {c : Char} (hc : c ∈ cat) :
    isLineBreak c = false := by
  rw [← Bool.not_eq_true]
  intro hBreak
  obtain ⟨before, after, hEq⟩ := List.append_of_mem hc
  have hPair := eq_nil_or_crlf_of_mem_splitlinesKeep hLine
    (x := ws ++ "- ".toList ++ before) (y := after ++ ['\n']) (by simp [hEq]) hBreak
  cases hPair with
  | inl hNil => simp at hNil
  | inr hCrlf =>
      obtain ⟨rfl, hAfter⟩ := hCrlf
      have hAfter : after = [] := by simpa using hAfter
      subst hAfter
      have hNe : strip category ≠ [] := by rw [← hCat, hEq]; simp
      have hSpace := isSpace_getLast_strip hNe
      have hLast : (strip category).getLast hNe = '\r' := by
        simp only [← hCat, hEq, List.getLast_concat]
      rw [hLast] at hSpace
      cases hSpace

theorem exists_of_mem_forall₂ {α β : Type*} {R : α → β → Prop} {xs : List α} {ys : List β}
    (h : List.Forall₂ R xs ys) {x : α} (hx : x ∈ xs) : ∃ y ∈ ys, R x y := by
  induction h with
  | nil => cases hx
  | @cons a b xs ys hab _ ih =>
      cases hx with
      | head => exact ⟨b, List.mem_cons_self, hab⟩
      | tail _ hx =>
          obtain ⟨y, hy, hR⟩ := ih hx
          exact ⟨y, List.mem_cons_of_mem _ hy, hR⟩

/-- When the page ends without a line boundary, its last line is either not
selected or still the last line after the move. -/
def LastLineStays (tables : CaseTables) (text : Str) (groups : List Group) : Prop :=
  (∀ c ∈ text.getLast?, isLineBreak c = true) ∨
    selected tables text groups ((splitlinesKeep text).length - 1) = false ∨
      LastMemberEndsPage tables text groups

section Rendered

variable {rawGroups : List RawGroup} {groups : List Group} {locs : List (Str × Location)}

/-- All tags but the last line of an unterminated page render to closed lines. -/
theorem closed_renderTag (hText : '\r' ∉ text) (ids : Nat → Uuid) {baseWs unit : Str}
    (hBase : IndentOnly baseWs) (hUnit : IndentOnly unit) (hNe : unit ≠ [])
    (hClean : ∀ group ∈ groups, ∀ c ∈ group.1, isLineBreak c = false) {tag : LineTag}
    (hTag : tag ∈ (List.range (splitlinesKeep text).length).map .old ++
      (List.range groups.length).flatMap fun g => [.category g, .idLine g])
    (hLast : (∀ c ∈ text.getLast?, isLineBreak c = true) ∨
      tag ≠ .old ((splitlinesKeep text).length - 1)) :
    Closed (renderTag (splitlinesKeep text) (selected tables text groups) groups ids baseWs unit
      tag) := by
  cases tag with
  | category g => exact closed_renderTag_category _ _ ids hBase hClean g
  | idLine g => exact closed_renderTag_idLine _ _ _ ids hBase hUnit g
  | old i =>
      apply closed_renderTag_old _ _ _ _ hNe
      have hi : i < (splitlinesKeep text).length := by simpa using hTag
      have hPage := pageLines_splitlinesKeep hText
      have hFlat := flatten_splitlinesKeep text
      rw [List.getD_eq_getElem?_getD, List.getElem?_eq_getElem hi, Option.getD_some]
      generalize splitlinesKeep text = lines at *
      obtain ⟨init, m, rfl⟩ := (List.eq_nil_or_concat' lines).resolve_left (by
        rintro rfl
        cases hi)
      rw [List.length_append, List.length_singleton] at hi hLast
      by_cases hInit : i < init.length
      · rw [List.getElem_append_left hInit]
        exact (pageLines_append_iff.mp hPage).1 _ (List.getElem_mem hInit)
      · have hEq : i = init.length := by omega
        subst hEq
        rw [List.getElem_concat_length rfl]
        cases hLast with
        | inl hBreak =>
            apply (closed_last_iff hPage).mpr
            rwa [hFlat]
        | inr hNe => exact absurd rfl hNe

/-- When the move keeps every line, no category holds a line boundary. -/
theorem categories_clean_of_preserved {lines : List Str} {moved : Nat → Bool} {ids : Nat → Uuid}
    {new : Str} (hGroups : parseGroups rawGroups = .ok groups)
    (h : LinesPreserved lines moved groups ids (splitlinesKeep new)) :
    ∀ group ∈ groups, ∀ c ∈ group.1, isLineBreak c = false := by
  obtain ⟨tags, hPerm, hRenders, _⟩ := h
  intro group hGroup c hc
  obtain ⟨g, hg, rfl⟩ := List.mem_iff_getElem.mp hGroup
  have hTag : LineTag.category g ∈ tags := by
    rw [hPerm.mem_iff]
    simpa using hg
  obtain ⟨line, hLine, hRender⟩ := exists_of_mem_forall₂ hRenders hTag
  cases hRender with
  | category hGet _ =>
      rw [List.getElem?_eq_getElem hg] at hGet
      obtain rfl := Option.some.inj hGet
      obtain ⟨category, hStrip⟩ := category_stripped hGroups hGroup
      exact isLineBreak_of_category_line hStrip hLine hc

theorem Checked.pieces_perm_length (h : Checked tables text rawGroups groups locs)
    {t : List LineTag} (firstStart : Nat)
    (hPerm : t.Perm ((List.range (splitlinesKeep text).length).map .old ++
      (List.range groups.length).flatMap fun g => [.category g, .idLine g])) :
    t.length = (layout (splitlinesKeep text).length locs groups firstStart).length :=
  (hPerm.trans (h.layout_perm firstStart).symm).length_eq

theorem nodup_tags (n k : Nat) : ((List.range n).map LineTag.old ++
    (List.range k).flatMap fun g => [LineTag.category g, LineTag.idLine g]).Nodup := by
  refine List.nodup_append.mpr ⟨?_, ?_, ?_⟩
  · exact List.nodup_range.map (fun i j h => LineTag.old.inj h)
  · refine List.nodup_flatMap.mpr ⟨by simp, ?_⟩
    refine List.nodup_range.imp ?_
    intro g g' hne
    simpa [Function.onFun] using Ne.symm hne
  · intro tag hOld other hNew
    obtain ⟨i, _, rfl⟩ := List.mem_map.mp hOld
    obtain ⟨g, _, hNew⟩ := List.mem_flatMap.mp hNew
    cases hNew with
    | head => simp
    | tail _ hNew => simp [List.mem_singleton.mp hNew]

theorem notMem_of_nodup {α : Type*} {before after : List α} {a : α}
    (h : (before ++ a :: after).Nodup) : a ∉ before ∧ a ∉ after := by
  obtain ⟨_, hCons, hDisjoint⟩ := List.nodup_append.mp h
  exact ⟨fun ha => hDisjoint a ha a List.mem_cons_self rfl, (List.nodup_cons.mp hCons).1⟩

theorem unterminated_last (hText : '\r' ∉ text)
    (hBreak : ¬∀ c ∈ text.getLast?, isLineBreak c = true) :
    Unterminated ((splitlinesKeep text).getD ((splitlinesKeep text).length - 1) []) := by
  have hPage := pageLines_splitlinesKeep hText
  have hFlat := flatten_splitlinesKeep text
  cases List.eq_nil_or_concat' (splitlinesKeep text) with
  | inl hNil =>
      rw [hNil] at hFlat
      rw [← hFlat] at hBreak
      simp at hBreak
  | inr hConcat =>
      obtain ⟨init, m, hLines⟩ := hConcat
      rw [hLines] at hPage hFlat ⊢
      rw [← hFlat, ← closed_last_iff hPage] at hBreak
      have hm := (pageLines_append_iff.mp hPage).2.resolve_left hBreak
      simpa [List.getD_eq_getElem?_getD] using hm

/-- Every old line survives the move exactly when no category holds a line
boundary and an unterminated last line is not put in front of another line. -/
theorem Checked.linesPreserved_iff (h : Checked tables text rawGroups groups locs)
    (hText : '\r' ∉ text) (ids : Nat → Uuid) {firstStart : Nat}
    (hFirst : (locs.map fun entry => entry.2.1).min? = some firstStart) :
    LinesPreserved (splitlinesKeep text) (selected tables text groups) groups ids
        (splitlinesKeep (reparentedText (splitlinesKeep text)
          ((splitlinesKeep text).map (rstripChars ['\n'])) locs groups ids firstStart)) ↔
      (∀ group ∈ groups, ∀ c ∈ group.1, isLineBreak c = false) ∧
        LastLineStays tables text groups := by
  obtain ⟨e, rest, _, hLt, hRest⟩ := h.sortedIntervals_cons hFirst
  have hLen : (splitlinesKeep text).length - 1 + 1 = (splitlinesKeep text).length := by
    have := hRest.le
    omega
  have hLast := h.getLast?_layout hFirst hLen
  have hLayout := h.layout_perm firstStart
  have hKept := h.layout_kept firstStart
  have hLength {other : List LineTag} := h.pieces_perm_length (t := other) firstStart
  have hBase := indentOnly_baseWhitespace ((splitlinesKeep text).map (rstripChars ['\n'])) locs
  have hUnit := indentOnly_indentUnit (splitlinesKeep text) (sortedIntervals locs)
  have hNe := indentUnit_ne_nil (splitlinesKeep text) (sortedIntervals locs)
  rw [h.reparentedText_eq]
  generalize layout (splitlinesKeep text).length locs groups firstStart = tags at *
  generalize baseWhitespace ((splitlinesKeep text).map (rstripChars ['\n'])) locs = baseWs at *
  generalize indentUnit (splitlinesKeep text) (sortedIntervals locs) = unit at *
  set render := renderTag (splitlinesKeep text) (selected tables text groups) groups ids baseWs unit
  have hClosed (hClean : ∀ group ∈ groups, ∀ c ∈ group.1, isLineBreak c = false) {tag : LineTag}
      (hTag : tag ∈ tags) (hNotLast : (∀ c ∈ text.getLast?, isLineBreak c = true) ∨
        tag ≠ .old ((splitlinesKeep text).length - 1)) : Closed (render tag) :=
    closed_renderTag hText ids hBase hUnit hNe hClean (hLayout.mem_iff.mp hTag) hNotLast
  constructor
  · intro hPreserved
    have hClean := categories_clean_of_preserved h.parsed hPreserved
    refine ⟨hClean, ?_⟩
    by_cases hBreak : ∀ c ∈ text.getLast?, isLineBreak c = true
    · exact Or.inl hBreak
    · refine Or.inr (hLast.mp ?_)
      have hMem : LineTag.old ((splitlinesKeep text).length - 1) ∈ tags := by
        rw [hLayout.mem_iff]
        simp only [List.mem_append, List.mem_map, List.mem_range]
        exact Or.inl ⟨_, by omega, rfl⟩
      obtain ⟨before, after, rfl⟩ := List.append_of_mem hMem
      cases List.eq_nil_or_concat' after with
      | inl hNil => rw [hNil, List.getLast?_concat]
      | inr hConcat =>
          -- the unterminated line is read together with the one after it
          have hAfterNe : after.map render ≠ [] := by
            obtain ⟨init, m, rfl⟩ := hConcat
            simp
          obtain ⟨hBefore, hAfter⟩ := notMem_of_nodup (hLayout.nodup_iff.mpr (nodup_tags _ _))
          have hOpen : Unterminated (render (.old ((splitlinesKeep text).length - 1))) :=
            unterminated_renderTag_old _ _ _ _ hNe (unterminated_last hText hBreak)
          have hBeforeClosed : ∀ m ∈ before.map render, Closed m := by
            intro m hm
            obtain ⟨tag, hTag, rfl⟩ := List.mem_map.mp hm
            exact hClosed hClean (by simp [hTag]) (Or.inr (fun hEq => hBefore (hEq ▸ hTag)))
          have hAfterClosed : ∀ m ∈ after.map render, Closed m := by
            intro m hm
            obtain ⟨tag, hTag, rfl⟩ := List.mem_map.mp hm
            exact hClosed hClean (by simp [hTag]) (Or.inr (fun hEq => hAfter (hEq ▸ hTag)))
          have hGlued := length_splitlinesKeep_glued hBeforeClosed hOpen
            (pageLines_of_closed hAfterClosed) hAfterNe
          obtain ⟨tags, hPerm, hRenders, _⟩ := hPreserved
          have hTags := hLength hPerm
          have hLines := hRenders.length_eq
          rw [List.map_append, List.map_cons, hGlued, hTags] at hLines
          simp only [List.length_append, List.length_cons, List.length_map] at hLines
          omega
  · rintro ⟨hClean, hStays⟩
    have hPage : PageLines (tags.map render) := by
      cases hStays with
      | inl hBreak =>
          apply pageLines_of_closed
          intro m hm
          obtain ⟨tag, hTag, rfl⟩ := List.mem_map.mp hm
          exact hClosed hClean hTag (Or.inl hBreak)
      | inr hStays =>
          obtain ⟨init, rfl⟩ := List.getLast?_eq_some_iff.mp (hLast.mpr hStays)
          rw [List.map_append, List.map_singleton]
          obtain ⟨hInit, _⟩ := notMem_of_nodup (hLayout.nodup_iff.mpr (nodup_tags _ _))
          refine pageLines_append_iff.mpr ⟨?_, ?_⟩
          · intro m hm
            obtain ⟨tag, hTag, rfl⟩ := List.mem_map.mp hm
            exact hClosed hClean (by simp [hTag]) (Or.inr (fun hEq => hInit (hEq ▸ hTag)))
          · by_cases hBreak : ∀ c ∈ text.getLast?, isLineBreak c = true
            · exact Or.inl (hClosed hClean (by simp) (Or.inl hBreak))
            · exact Or.inr (unterminated_renderTag_old _ _ _ _ hNe (unterminated_last hText hBreak))
    rw [splitlinesKeep_flatten hPage]
    refine ⟨tags, hLayout, ?_, ?_⟩
    · rw [List.forall₂_map_right_iff, List.forall₂_same]
      intro tag hTag
      exact renders_renderTag ids hBase hUnit hNe (hLayout.mem_iff.mp hTag)
    · rw [hKept]
      have hSub := (cut_range_sublist h.ordered).trans (List.drop_sublist _ _)
      exact List.pairwise_lt_range.sublist hSub

end Rendered

/-- An accepted call writes a page with every old line, and two new lines for
each group, exactly when no category holds a line boundary and an unterminated
last line is not moved in front of another line. -/
theorem refactor_linesPreserved_iff {ids : Nat → Uuid} {commit : Str → Bool} {path raw new : Str}
    {rawGroups : List RawGroup} {groups : List Group} {dryRun : Bool} {result : ReparentResult}
    (hRun : refactorLogseqBlocks tables ids commit path (.ok raw) rawGroups dryRun =
      .ok (result, some new))
    (hGroups : parseGroups rawGroups = .ok groups) :
    LinesPreserved (splitlinesKeep (universalNewlines raw))
        (selected tables (universalNewlines raw) groups) groups ids (splitlinesKeep new) ↔
      (∀ group ∈ groups, ∀ c ∈ group.1, isLineBreak c = false) ∧
        LastLineStays tables (universalNewlines raw) groups := by
  simp only [refactorLogseqBlocks] at hRun
  split at hRun
  · simp at hRun
  · next parsed locs hChecks =>
      have hChecked := checkGroups_eq_ok hChecks
      obtain rfl : parsed = groups := Except.ok.inj (hChecked.parsed.symm.trans hGroups)
      split at hRun
      · cases hRun
      · next firstStart hFirst =>
          split_ifs at hRun
          · simp at hRun
          · have hNew := (Prod.mk.inj (Except.ok.inj hRun)).2
            obtain rfl := Option.some.inj hNew
            exact hChecked.linesPreserved_iff (cr_notMem_universalNewlines raw) ids hFirst

/-- One block of a page that ends with a newline moves under a category. -/
theorem refactor_linesPreserved_terminated :
    LinesPreserved ["- a\n".toList, "  id:: 1\n".toList]
      (selected asciiCase "- a\n  id:: 1\n".toList [("x".toList, ["1".toList])])
      [("x".toList, ["1".toList])] (fun _ => sampleId)
      (splitlinesKeep ("- x\n  id:: 6ba7b810-9dad-41d1-80b4-00c04fd430c8\n" ++
        "  - a\n    id:: 1\n").toList) := by
  have hRun : refactorLogseqBlocks asciiCase (fun _ => sampleId) (fun _ => true) "p.md".toList
      (.ok "- a\n  id:: 1\n".toList) [.object "x".toList (some ["1".toList])] false =
        .ok (⟨true, "applied", "Backup `p.md.bak`; reparented 1 blocks.".toList, false,
          some "p.md".toList, ["- x".toList]⟩,
          some ("- x\n  id:: 6ba7b810-9dad-41d1-80b4-00c04fd430c8\n" ++
            "  - a\n    id:: 1\n").toList) := by rfl
  have hGroups : parseGroups [.object "x".toList (some ["1".toList])] =
      .ok [("x".toList, ["1".toList])] := rfl
  have hIff := refactor_linesPreserved_iff hRun hGroups
  exact hIff.mpr ⟨by decide, Or.inl (by decide)⟩

/-- Two blocks of a page without a final newline change places: the identifier
line of the second and the bullet of the first become one line. -/
theorem refactor_glues_unterminated_line :
    ¬∀ (tables : CaseTables) (ids : Nat → Uuid) (commit : Str → Bool) (path raw new : Str)
      (rawGroups : List RawGroup) (groups : List Group) (result : ReparentResult),
      refactorLogseqBlocks tables ids commit path (.ok raw) rawGroups false =
        .ok (result, some new) → parseGroups rawGroups = .ok groups →
          LinesPreserved (splitlinesKeep (universalNewlines raw))
            (selected tables (universalNewlines raw) groups) groups ids (splitlinesKeep new) := by
  intro h
  obtain ⟨layout, hPerm, hRenders, _⟩ := h asciiCase (fun _ => sampleId) (fun _ => true)
    "p.md".toList "- a\n  id:: 1\n- b\n  id:: 2".toList
    ("- x\n  id:: 6ba7b810-9dad-41d1-80b4-00c04fd430c8\n  - b\n    id:: 2" ++
      "  - a\n    id:: 1\n").toList
    [.object "x".toList (some ["2".toList, "1".toList])] [("x".toList, ["2".toList, "1".toList])]
    ⟨true, "applied", "Backup `p.md.bak`; reparented 2 blocks.".toList, false,
      some "p.md".toList, ["- x".toList]⟩ rfl rfl
  have hLength := hPerm.length_eq.symm.trans hRenders.length_eq
  revert hLength
  decide

end Plumber.ReparentBlocks






