import MatrycaPlumber.Graph.GlobalFenceScanner
import MatrycaPlumber.Graph.MldocProperties
import MatrycaPlumber.Graph.PropertyPlacement
import MatrycaPlumber.Text.Searching

/-! Search and replace on the `key::` lines of one block. -/
namespace Plumber.PropertyLineEdit

open PyText MarkdownBlocks MldocProperties GlobalFenceScanner

section Model

/-- A compiled pattern together with a replacement: `subn` on a text, and the text with
only the first match replaced. -/
structure CompiledRegex where
  subn : Str → Str × ℕ
  subFirst : Str → Option Str
  subFirst_eq_none : ∀ text, subFirst text = none ↔ (subn text).2 = 0

inductive SearchPattern where
  | text (search : Str) (caseSensitive : Bool)
  | regex (compiled : CompiledRegex)
  /-- `re.compile` fails. -/
  | invalidRegex
  /-- The pattern compiles, and `validate_regex_pattern` raises. -/
  | rejectedRegex

inductive EditCode where
  | invalidRegex
  | uuidNotFound
  | malformedBlock
  | noPropertyLines
  | protectedFence
  | noMatch
  | ambiguousMatch
  | occConflict
  | dryRunOk
  | applied
  deriving DecidableEq

def EditCode.ok (code : EditCode) : Bool := code = .dryRunOk || code = .applied

variable (tables : CaseTables) (casefold : Str → Str)

/-- The loop of `_apply_case_insensitive_pattern` from a position on. -/
def replaceIgnoreCase (low s replacement text : Str) (step : ℕ) (hStep : 0 < step) (i : ℕ) :
    Str × ℕ :=
  match h : findFrom? s low i with
  | none => (text.drop i, 0)
  | some j =>
      let rest := replaceIgnoreCase low s replacement text step hStep (j + step)
      (slice text i j ++ replacement ++ rest.1, rest.2 + 1)
termination_by low.length + 1 - i
decreasing_by
  have := findFrom?_bounds h
  omega

/-- `_apply_pattern`: the new text and the number of matches, unless it raises or, for an
empty search that ignores case and replaces all, never returns. -/
def applyPattern (pattern : SearchPattern) (replacement : Str) (replaceAll : Bool) (text : Str) :
    Option (Str × ℕ) :=
  match pattern with
  | .invalidRegex | .rejectedRegex => none
  | .regex compiled =>
      if replaceAll then some (compiled.subn text)
      else
        match compiled.subFirst text with
        | none => some (text, 0)
        | some new => some (new, 1)
  | .text search true =>
      if replaceAll then some (PyText.replaceAll search replacement text, occurrences search text)
      else
        match findFrom? search text 0 with
        | none => some (text, 0)
        | some i => some (text.take i ++ replacement ++ text.drop (i + search.length), 1)
  | .text search false =>
      let low := tables.lower text
      let s := tables.lower search
      if replaceAll then
        if hStep : 0 < search.length then
          some (replaceIgnoreCase low s replacement text search.length hStep 0)
        else none
      else
        match findFrom? s low 0 with
        | none => some (text, 0)
        | some j => some (text.take j ++ replacement ++ text.drop (j + search.length), 1)

/-- How often the search text occurs in a line. -/
def matchCount (pattern : SearchPattern) (text : Str) : ℕ :=
  match pattern with
  | .invalidRegex | .rejectedRegex => 0
  | .regex compiled => (compiled.subn text).2
  | .text search true => occurrences search text
  | .text search false => occurrences (tables.lower search) (tables.lower text)

/-- `_property_line_indices`. -/
def propertyLineIndices (lines : List Str) (start stop : ℕ) : List ℕ :=
  (slice (List.range lines.length) start stop).filter fun i =>
    isLogseqBlockPropertyLine casefold (lines.getD i [])

/-- `_locate_editable_property_span`. -/
def locateEditablePropertySpan (stripped : List Str) (isProtected : ℕ → Bool) (blockUuid : Str) :
    Except EditCode (ℕ × List ℕ) :=
  match findIdLineIndex tables stripped blockUuid with
  | none => .error .uuidNotFound
  | some idIdx =>
      match blockBulletIndex stripped idIdx with
      | none => .error .malformedBlock
      | some bulletIdx =>
          let stop := blockSubtreeEnd stripped idIdx bulletIdx
          let indices := propertyLineIndices casefold stripped (bulletIdx + 1) stop
          if indices = [] then .error .noPropertyLines
          else if indices.any isProtected then .error .protectedFence
          else .ok (bulletIdx, indices)

/-- The loop over the property lines: the new lines and the number of matches. -/
def applyReplacements (apply : Str → Option (Str × ℕ)) : List ℕ → List Str → Option (List Str × ℕ)
  | [], lines => some (lines, 0)
  | i :: rest, lines =>
      let original := lines.getD i []
      match apply (stripLineEndings original) with
      | none => none
      | some (newCore, count) =>
          (applyReplacements apply rest (lines.set i (newCore ++ canonicalLineSuffix original))).map
            fun result => (result.1, count + result.2)

/-- A line as it is written: its text with the canonical line ending. -/
def writtenLine (line : Str) : Str := stripLineEndings line ++ canonicalLineSuffix line

structure Outcome where
  code : EditCode
  matchCount : ℕ
  lines : List Str
  deriving DecidableEq

/-- What is done on a page in which the property lines of the subtree are found. -/
def editLocated (lines : List Str) (indices : List ℕ) (pattern : SearchPattern)
    (replacement : Str) (dryRun replaceAll unchanged : Bool) : Option Outcome :=
  match applyReplacements (applyPattern tables pattern replacement replaceAll) indices lines with
  | none => none
  | some (newLines, total) =>
      if total = 0 then some ⟨.noMatch, 0, lines⟩
      else if !replaceAll && 1 < total then some ⟨.ambiguousMatch, total, lines⟩
      else if dryRun then some ⟨.dryRunOk, total, lines⟩
      else if unchanged then some ⟨.applied, total, newLines.map writtenLine⟩
      else some ⟨.occConflict, total, lines⟩

/-- `edit_block_property_lines` on the text of a page: the outcome with the lines that the page
has afterwards, unless an exception is raised or the call never returns. `unchanged` says
that the file still has its baseline time when it is written. -/
def editBlockPropertyLines (text blockUuid : Str) (pattern : SearchPattern) (replacement : Str)
    (dryRun replaceAll unchanged : Bool) : Option Outcome :=
  let lines := splitlinesKeep text
  match pattern with
  | .invalidRegex => some ⟨.invalidRegex, 0, lines⟩
  | _ =>
      match locateEditablePropertySpan tables casefold (stripLinesForMatch lines)
          (computePageProtectedLineIndices text) blockUuid with
      | .error code => some ⟨code, 0, lines⟩
      | .ok (_, indices) =>
          editLocated tables lines indices pattern replacement dryRun replaceAll unchanged

end Model

section Statement

variable (tables : CaseTables) (casefold : Str → Str)

/-- The property lines whose nearest bullet above is that of the block. -/
def ownPropertyLines (stripped : List Str) (bulletIdx : ℕ) : List ℕ :=
  (List.range stripped.length).filter fun i =>
    isLogseqBlockPropertyLine casefold (stripped.getD i []) &&
      blockBulletIndex stripped i = some bulletIdx

/-- The bullet of the block with the identifier. -/
def bulletOf (stripped : List Str) (blockUuid : Str) : Option ℕ :=
  (findIdLineIndex tables stripped blockUuid).bind (blockBulletIndex stripped)

/-- How often the search text occurs in the own property lines of the block. -/
def ownMatches (pattern : SearchPattern) (stripped : List Str) (blockUuid : Str) : ℕ :=
  match bulletOf tables stripped blockUuid with
  | none => 0
  | some b => ((ownPropertyLines casefold stripped b).map fun i =>
      matchCount tables pattern (stripped.getD i [])).sum

/-- Lines other than the own property lines of the block are as they were, and without
`replaceAll` there is exactly one occurrence in these, or an error and the page as it was. -/
structure EditsOwnLines (text blockUuid : Str) (pattern : SearchPattern) (replaceAll : Bool)
    (r : Outcome) : Prop where
  frame : ∀ i, (∀ b ∈ bulletOf tables (stripLinesForMatch (splitlinesKeep text)) blockUuid,
      i ∉ ownPropertyLines casefold (stripLinesForMatch (splitlinesKeep text)) b) →
    r.lines[i]? = (splitlinesKeep text)[i]?
  once : replaceAll = false →
    if r.code.ok then
      ownMatches tables casefold pattern (stripLinesForMatch (splitlinesKeep text)) blockUuid = 1
    else r.lines = splitlinesKeep text

/-- The search can be carried out: it does not raise, and does not go on for ever. -/
def SearchPattern.returns (pattern : SearchPattern) (replaceAll : Bool) : Bool :=
  match pattern with
  | .invalidRegex | .rejectedRegex => false
  | .regex _ => true
  | .text search caseSensitive => caseSensitive || !replaceAll || 0 < search.length

/-- One property line by itself, as the replacement leaves it. -/
def rewrittenLine (pattern : SearchPattern) (replacement : Str) (replaceAll : Bool) (line : Str) :
    Str :=
  match applyPattern tables pattern replacement replaceAll (stripLineEndings line) with
  | none => line
  | some (newCore, _) => writtenLine (newCore ++ canonicalLineSuffix line)

/-- The indices of the property lines that the search text occurs in. -/
def matchedLines (pattern : SearchPattern) (stripped : List Str) (indices : List ℕ) : List ℕ :=
  indices.filter fun i => matchCount tables pattern (stripped.getD i []) ≠ 0

/-- When the property lines of the subtree are searched and the edit is not refused. -/
def Accepts (pattern : SearchPattern) (replaceAll : Bool) (stripped : List Str)
    (indices : List ℕ) : Prop :=
  if replaceAll then matchedLines tables pattern stripped indices ≠ []
  else (matchedLines tables pattern stripped indices).length = 1

/-- What an accepted edit of the property lines of the whole subtree must not meet: lines that
end in a carriage return, property lines of children that change, and with a single replacement
a match in a child or a line with several. -/
structure Confined (pattern : SearchPattern) (replacement : Str) (dryRun replaceAll unchanged : Bool)
    (lines : List Str) (bulletIdx : ℕ) (indices : List ℕ) : Prop where
  endings : dryRun = false → unchanged = true → ∀ i ∉ indices, ∀ line ∈ lines[i]?,
    writtenLine line = line
  children : dryRun = false → unchanged = true → ∀ i ∈ indices, ∀ line ∈ lines[i]?,
    blockBulletIndex (stripLinesForMatch lines) i ≠ some bulletIdx →
      rewrittenLine tables pattern replacement replaceAll line = line
  single : (dryRun = true ∨ unchanged = true) → replaceAll = false → ∀ i ∈ indices,
    matchCount tables pattern ((stripLinesForMatch lines).getD i []) ≤
      if blockBulletIndex (stripLinesForMatch lines) i = some bulletIdx then 1 else 0

end Statement

section Patterns

variable {tables : CaseTables}

theorem applyPattern_isSome_iff {pattern : SearchPattern} {replacement : Str} {replaceAll : Bool}
    {text : Str} : (applyPattern tables pattern replacement replaceAll text).isSome ↔
      pattern.returns replaceAll = true := by
  unfold applyPattern SearchPattern.returns
  split
  · simp
  · simp
  · cases replaceAll with
    | true => simp
    | false =>
        simp only [Bool.false_eq_true, if_false, iff_true]
        split <;> rfl
  · cases replaceAll with
    | true => simp
    | false =>
        simp only [Bool.false_eq_true, if_false, Bool.true_or, iff_true]
        split <;> rfl
  · next search =>
      cases replaceAll with
      | true =>
          by_cases hStep : 0 < search.length
          · simp [hStep]
          · simp [hStep]
      | false =>
          simp only [Bool.false_eq_true, if_false, Bool.not_false, Bool.or_true, Bool.true_or, iff_true]
          split <;> rfl

theorem replaceIgnoreCase_eq_zero {low s replacement text : Str} {step : ℕ} (hStep : 0 < step) :
    (replaceIgnoreCase low s replacement text step hStep 0).2 = 0 ↔ findFrom? s low 0 = none := by
  rw [replaceIgnoreCase]
  split
  · next h => simp [h]
  · next j h => simp [h]

/-- The number of replacements is zero when there is nothing to find, and without `replaceAll`
at most one. -/
theorem applyPattern_count {pattern : SearchPattern} {replacement : Str} {replaceAll : Bool}
    {text : Str} {new : Str × ℕ}
    (h : applyPattern tables pattern replacement replaceAll text = some new) :
    (new.2 = 0 ↔ matchCount tables pattern text = 0) ∧ (replaceAll = false → new.2 ≤ 1) := by
  unfold applyPattern at h
  unfold matchCount
  split at h
  · cases h
  · cases h
  · next compiled =>
      cases replaceAll with
      | true =>
          obtain rfl := Option.some.inj h
          simp
      | false =>
          simp only [Bool.false_eq_true, if_false] at h
          rw [← compiled.subFirst_eq_none]
          split at h <;> next hFirst => obtain rfl := Option.some.inj h; simp [hFirst]
  · next search =>
      cases replaceAll with
      | true =>
          obtain rfl := Option.some.inj h
          simp
      | false =>
          simp only [Bool.false_eq_true, if_false] at h
          rw [occurrences_eq_zero]
          split at h <;> next hFirst => obtain rfl := Option.some.inj h; simp [hFirst]
  · next search =>
      dsimp only at h ⊢
      rw [occurrences_eq_zero]
      cases replaceAll with
      | true =>
          simp only [if_true] at h
          split_ifs at h with hStep
          obtain rfl := Option.some.inj h
          rw [replaceIgnoreCase_eq_zero]
          simp
      | false =>
          simp only [Bool.false_eq_true, if_false] at h
          split at h <;> next hFirst => obtain rfl := Option.some.inj h; simp [hFirst]

end Patterns

section Replacements

/-- A line with its text replaced, before the lines are written. -/
def replacedLine (f : Str → Str × ℕ) (line : Str) : Str :=
  (f (stripLineEndings line)).1 ++ canonicalLineSuffix line

/-- What the loop over the property lines does, line by line. -/
theorem applyReplacements_eq (f : Str → Str × ℕ) {indices : List ℕ} {lines : List Str}
    (hNodup : indices.Nodup) (hRange : ∀ i ∈ indices, i < lines.length) :
    ∃ newLines, applyReplacements (fun text => some (f text)) indices lines =
        some (newLines, (indices.map fun i => (f (stripLineEndings (lines.getD i []))).2).sum) ∧
      ∀ i, newLines[i]? = if i ∈ indices then lines[i]?.map (replacedLine f) else lines[i]? := by
  induction indices generalizing lines with
  | nil => exact ⟨lines, rfl, fun i => by simp⟩
  | cons k rest ih =>
      rw [List.nodup_cons] at hNodup
      rw [List.forall_mem_cons] at hRange
      have hLine : lines.getD k [] = lines[k] := by
        rw [List.getD_eq_getElem?_getD, List.getElem?_eq_getElem hRange.1]
        rfl
      have hOther (i : ℕ) (hi : i ∈ rest) (new : Str) : (lines.set k new).getD i [] = lines.getD i [] := by
        have hNe : k ≠ i := by
          rintro rfl
          exact hNodup.1 hi
        rw [List.getD_eq_getElem?_getD, List.getElem?_set_ne hNe, List.getD_eq_getElem?_getD]
      have hRange' : ∀ i ∈ rest, i < (lines.set k (replacedLine f lines[k])).length := by
        simpa using hRange.2
      obtain ⟨newLines, hEq, hLines⟩ := ih hNodup.2 hRange'
      refine ⟨newLines, ?_, ?_⟩
      · rw [applyReplacements]
        simp only [hLine, replacedLine] at hEq ⊢
        rw [hEq]
        simp only [Option.map_some, List.map_cons, List.sum_cons, hLine]
        rw [List.map_congr_left fun i hi => by rw [hOther i hi]]
      · intro i
        rw [hLines i]
        by_cases hik : k = i
        · subst hik
          rw [if_neg hNodup.1, if_pos List.mem_cons_self, List.getElem?_set_self hRange.1,
            List.getElem?_eq_getElem hRange.1]
          rfl
        · rw [List.getElem?_set_ne hik]
          simp only [List.mem_cons, Ne.symm hik, false_or]

variable {tables : CaseTables} {pattern : SearchPattern} {replacement : Str} {replaceAll : Bool}

/-- A search that returns is a function on texts. -/
theorem exists_apply (tables : CaseTables) (replacement : Str)
    (h : pattern.returns replaceAll = true) :
    ∃ f : Str → Str × ℕ, applyPattern tables pattern replacement replaceAll = fun text => some (f text) := by
  refine ⟨fun text => (applyPattern tables pattern replacement replaceAll text).getD ([], 0), ?_⟩
  funext text
  have hSome : (applyPattern tables pattern replacement replaceAll text).isSome :=
    applyPattern_isSome_iff.mpr h
  obtain ⟨new, hNew⟩ := Option.isSome_iff_exists.mp hSome
  dsimp only
  rw [hNew]
  rfl

theorem writtenLine_replacedLine {f : Str → Str × ℕ}
    (hf : applyPattern tables pattern replacement replaceAll = fun text => some (f text)) (line : Str) :
    writtenLine (replacedLine f line) =
      rewrittenLine tables pattern replacement replaceAll line := by
  rw [rewrittenLine, hf]
  rfl

/-- The edit is accepted exactly when the number of replacements is not refused. -/
theorem accepts_iff {f : Str → Str × ℕ}
    (hf : applyPattern tables pattern replacement replaceAll = fun text => some (f text))
    (stripped : List Str) (indices : List ℕ) :
    Accepts tables pattern replaceAll stripped indices ↔
      (indices.map fun i => (f (stripped.getD i [])).2).sum ≠ 0 ∧
        (replaceAll = false → (indices.map fun i => (f (stripped.getD i [])).2).sum ≤ 1) := by
  have hCount (text : Str) := applyPattern_count (congrFun hf text)
  cases replaceAll with
  | true =>
      have hNone : matchedLines tables pattern stripped indices = [] ↔
          (indices.map fun i => (f (stripped.getD i [])).2).sum = 0 := by
        rw [matchedLines]
        induction indices with
        | nil => simp
        | cons k rest ih =>
            rw [List.map_cons, List.sum_cons, Nat.add_eq_zero_iff, ← ih, (hCount _).1]
            by_cases hZero : matchCount tables pattern (stripped.getD k []) = 0
            · rw [List.filter_cons_of_neg (by simpa using hZero), and_iff_right hZero]
            · rw [List.filter_cons_of_pos (by simpa using hZero)]
              exact iff_of_false (List.cons_ne_nil _ _) fun h => hZero h.1
      rw [Accepts, if_pos rfl, ne_eq, hNone]
      simp
  | false =>
      have hSum : (indices.map fun i => (f (stripped.getD i [])).2).sum =
          (matchedLines tables pattern stripped indices).length := by
        induction indices with
        | nil => rfl
        | cons k rest ih =>
            rw [matchedLines] at ih ⊢
            rw [List.map_cons, List.sum_cons, ih]
            have hOne := (hCount (stripped.getD k [])).2 rfl
            by_cases hZero : matchCount tables pattern (stripped.getD k []) = 0
            · rw [(hCount _).1.mpr hZero, List.filter_cons_of_neg (by simpa using hZero), Nat.zero_add]
            · rw [List.filter_cons_of_pos (by simpa using hZero), List.length_cons]
              have := mt (hCount _).1.mp hZero
              omega
      rw [hSum, Accepts, if_neg Bool.false_ne_true]
      simp only [true_imp_iff]
      omega

end Replacements

section Spans

variable {tables : CaseTables} {casefold : Str → Str}

theorem not_isBulletLine_of_property {lines : List Str} {i : ℕ}
    (h : isLogseqBlockPropertyLine casefold (lines.getD i []) = true) : ¬IsBulletLine lines i := by
  intro hBullet
  rw [IsBulletLine] at hBullet
  rw [isLogseqBlockPropertyLine, parseLogseqPropertyLine] at h
  dsimp only at h
  rw [hBullet, Bool.true_or, if_pos rfl] at h
  cases h

/-- The own property lines of a block are those of its subtree that no bullet inside of it
is nearer to. -/
theorem ownPropertyLines_eq {stripped : List Str} {idIdx b : ℕ}
    (hBullet : blockBulletIndex stripped idIdx = some b) :
    ownPropertyLines casefold stripped b =
      (propertyLineIndices casefold stripped (b + 1) (blockSubtreeEnd stripped idIdx b)).filter
        fun i => blockBulletIndex stripped i = some b := by
  rw [ownPropertyLines, propertyLineIndices, List.filter_filter]
  have hInside : ∀ i < stripped.length, (isLogseqBlockPropertyLine casefold (stripped.getD i []) &&
      decide (blockBulletIndex stripped i = some b)) = true →
      b + 1 ≤ i ∧ i < blockSubtreeEnd stripped idIdx b := by
    intro i hi h
    rw [Bool.and_eq_true, decide_eq_true_eq] at h
    refine ⟨(blockBulletIndex_lt h.2).1, ?_⟩
    by_contra hOut
    have hEnd := isBulletLine_blockSubtreeEnd (i := idIdx) (blockBulletIndex_lt hBullet).2
      (lt_of_le_of_lt (Nat.le_of_not_lt hOut) hi)
    rcases Nat.lt_or_eq_of_le (Nat.le_of_not_lt hOut) with hLt | hEq
    · have hAfter := lt_blockSubtreeEnd (blockBulletIndex_lt hBullet).2 (blockBulletIndex_lt hBullet).1
      exact blockBulletIndex_between h.2 hAfter hLt hEnd
    · rw [hEq] at hEnd
      exact not_isBulletLine_of_property h.1 hEnd
  rw [filter_slice_range hInside]
  apply List.filter_congr
  intro i _
  exact Bool.and_comm _ _

theorem propertyLineIndices_nodup (lines : List Str) (start stop : ℕ) :
    (propertyLineIndices casefold lines start stop).Nodup := by
  apply List.Nodup.filter
  exact ((slice_sublist_drop _ _ _).trans (List.drop_sublist _ _)).nodup List.nodup_range

theorem lt_of_mem_propertyLineIndices {lines : List Str} {start stop i : ℕ}
    (h : i ∈ propertyLineIndices casefold lines start stop) : i < lines.length :=
  (mem_slice_range.mp (List.mem_filter.mp h).1).2.2

/-- What a located span says of the block and of its property lines. -/
theorem locateEditablePropertySpan_ok {stripped : List Str} {isProtected : ℕ → Bool}
    {blockUuid : Str} {b : ℕ} {indices : List ℕ}
    (h : locateEditablePropertySpan tables casefold stripped isProtected blockUuid = .ok (b, indices)) :
    bulletOf tables stripped blockUuid = some b ∧ indices ≠ [] ∧ indices.Nodup ∧
      (∀ i ∈ indices, i < stripped.length) ∧
      ownPropertyLines casefold stripped b =
        indices.filter fun i => blockBulletIndex stripped i = some b := by
  rw [locateEditablePropertySpan] at h
  split at h
  · cases h
  · next idIdx hId =>
      split at h
      · cases h
      · next bulletIdx hBullet =>
          dsimp only at h
          split_ifs at h with hEmpty hFence
          obtain ⟨rfl, rfl⟩ := Prod.mk.inj (Except.ok.inj h)
          refine ⟨?_, hEmpty, propertyLineIndices_nodup _ _ _,
            fun i hi => lt_of_mem_propertyLineIndices hi, ownPropertyLines_eq hBullet⟩
          rw [bulletOf, hId]
          exact hBullet

end Spans

section Sums

/-- When only one index counts at all, its count among the own indices is one exactly when
no index counts for more than it may. -/
theorem sum_own_eq_one_iff {indices : List ℕ} (g : ℕ → ℕ) (own : ℕ → Bool)
    (h : (indices.filter fun i => g i ≠ 0).length = 1) :
    ((indices.filter own).map g).sum = 1 ↔ ∀ i ∈ indices, g i ≤ if own i then 1 else 0 := by
  have hSum : ((indices.filter own).map g).sum =
      (((indices.filter fun i => g i ≠ 0).filter own).map g).sum := by
    clear h
    induction indices with
    | nil => rfl
    | cons k rest ih =>
        by_cases hZero : g k = 0
        · rw [List.filter_cons_of_neg (p := fun i => g i ≠ 0) (by simpa using hZero), ← ih]
          by_cases hOwn : own k = true
          · rw [List.filter_cons_of_pos hOwn, List.map_cons, List.sum_cons, hZero, Nat.zero_add]
          · rw [List.filter_cons_of_neg hOwn]
        · rw [List.filter_cons_of_pos (p := fun i => g i ≠ 0) (by simpa using hZero)]
          by_cases hOwn : own k = true
          · rw [List.filter_cons_of_pos hOwn, List.filter_cons_of_pos hOwn, List.map_cons,
              List.sum_cons, ih, List.map_cons, List.sum_cons]
          · rw [List.filter_cons_of_neg hOwn, List.filter_cons_of_neg hOwn, ih]
  obtain ⟨k, hk⟩ := List.length_eq_one_iff.mp h
  have hOnly (i : ℕ) (hi : i ∈ indices) (hNe : g i ≠ 0) : i = k := by
    have hMem : i ∈ indices.filter fun i => g i ≠ 0 := List.mem_filter.mpr ⟨hi, by simpa using hNe⟩
    rw [hk, List.mem_singleton] at hMem
    exact hMem
  have hMemK : k ∈ indices.filter fun i => g i ≠ 0 := by
    rw [hk]
    exact List.mem_singleton_self k
  rw [List.mem_filter, decide_eq_true_eq] at hMemK
  rw [hSum, hk]
  constructor
  · intro hOne i hi
    by_cases hZero : g i = 0
    · rw [hZero]
      exact Nat.zero_le _
    · obtain rfl := hOnly i hi hZero
      by_cases hOwn : own i = true
      · rw [List.filter_cons_of_pos hOwn] at hOne
        simp only [List.filter_nil, List.map_cons, List.map_nil, List.sum_cons, List.sum_nil] at hOne
        rw [if_pos hOwn]
        omega
      · rw [List.filter_cons_of_neg hOwn] at hOne
        cases hOne
  · intro hAll
    have hK := hAll k hMemK.1
    by_cases hOwn : own k = true
    · rw [if_pos hOwn] at hK
      rw [List.filter_cons_of_pos hOwn]
      simp only [List.filter_nil, List.map_cons, List.map_nil, List.sum_cons, List.sum_nil]
      omega
    · rw [if_neg hOwn] at hK
      omega

end Sums

section Result

variable {tables : CaseTables} {casefold : Str → Str} {text blockUuid : Str}
  {pattern : SearchPattern} {replacement : Str} {dryRun replaceAll unchanged : Bool}

/-- A refused edit leaves the page as it was, whatever the error. -/
theorem editsOwnLines_of_failure {code : EditCode} (hCode : code.ok = false) (count : ℕ) :
    EditsOwnLines tables casefold text blockUuid pattern replaceAll
      ⟨code, count, splitlinesKeep text⟩ := by
  refine ⟨fun _ _ => rfl, fun _ => ?_⟩
  rw [if_neg (by rw [hCode]; exact Bool.false_ne_true)]

/-- A search that raises or does not return has no outcome on any property line. -/
theorem applyReplacements_none (h : pattern.returns replaceAll = false) {indices : List ℕ}
    (hNe : indices ≠ []) (lines : List Str) :
    applyReplacements (applyPattern tables pattern replacement replaceAll) indices lines = none := by
  cases indices with
  | nil => exact absurd rfl hNe
  | cons i rest =>
      have hNone : applyPattern tables pattern replacement replaceAll
          (stripLineEndings (lines.getD i [])) = none := by
        rw [← Option.not_isSome_iff_eq_none, applyPattern_isSome_iff, h]
        exact Bool.false_ne_true
      rw [applyReplacements, hNone]

/-- The own property lines hold one occurrence exactly when the one line that matches is among
them and matches once. -/
theorem ownMatches_eq_one_iff {stripped : List Str} {isProtected : ℕ → Bool} {b : ℕ}
    {indices : List ℕ}
    (hSpan : locateEditablePropertySpan tables casefold stripped isProtected blockUuid =
      .ok (b, indices)) (hAccepts : Accepts tables pattern false stripped indices) :
    ownMatches tables casefold pattern stripped blockUuid = 1 ↔
      ∀ i ∈ indices, matchCount tables pattern (stripped.getD i []) ≤
        if blockBulletIndex stripped i = some b then 1 else 0 := by
  obtain ⟨hBullet, _, _, _, hOwn⟩ := locateEditablePropertySpan_ok hSpan
  rw [ownMatches, hBullet]
  dsimp only
  rw [hOwn, sum_own_eq_one_iff _ _ hAccepts]
  simp only [decide_eq_true_eq]

/-- What is written is right outside of the own property lines exactly when the other lines end
as they are written and the property lines of children stay as they are. -/
theorem frame_iff {b : ℕ} {indices : List ℕ}
    (hSpan : locateEditablePropertySpan tables casefold (stripLinesForMatch (splitlinesKeep text))
      (computePageProtectedLineIndices text) blockUuid = .ok (b, indices))
    {f : Str → Str × ℕ}
    (hf : applyPattern tables pattern replacement replaceAll = fun text => some (f text))
    {newLines : List Str} (hNew : ∀ i, newLines[i]? =
      if i ∈ indices then (splitlinesKeep text)[i]?.map (replacedLine f)
      else (splitlinesKeep text)[i]?) :
    (∀ i, (∀ b ∈ bulletOf tables (stripLinesForMatch (splitlinesKeep text)) blockUuid,
        i ∉ ownPropertyLines casefold (stripLinesForMatch (splitlinesKeep text)) b) →
      (newLines.map writtenLine)[i]? = (splitlinesKeep text)[i]?) ↔
    (∀ i ∉ indices, ∀ line ∈ (splitlinesKeep text)[i]?, writtenLine line = line) ∧
      ∀ i ∈ indices, ∀ line ∈ (splitlinesKeep text)[i]?,
        blockBulletIndex (stripLinesForMatch (splitlinesKeep text)) i ≠ some b →
          rewrittenLine tables pattern replacement replaceAll line = line := by
  obtain ⟨hBullet, _, _, _, hOwn⟩ := locateEditablePropertySpan_ok hSpan
  have hNotOwn (i : ℕ) : (∀ b ∈ bulletOf tables (stripLinesForMatch (splitlinesKeep text)) blockUuid,
      i ∉ ownPropertyLines casefold (stripLinesForMatch (splitlinesKeep text)) b) ↔
      (i ∈ indices → blockBulletIndex (stripLinesForMatch (splitlinesKeep text)) i ≠ some b) := by
    rw [hBullet]
    simp [hOwn]
  have hWritten (i : ℕ) : (newLines.map writtenLine)[i]? =
      if i ∈ indices then (splitlinesKeep text)[i]?.map
        (rewrittenLine tables pattern replacement replaceAll)
      else (splitlinesKeep text)[i]?.map writtenLine := by
    rw [List.getElem?_map, hNew i]
    split_ifs
    · rw [Option.map_map]
      exact congrArg (fun g => (splitlinesKeep text)[i]?.map g)
        (funext fun line => writtenLine_replacedLine hf line)
    · rfl
  have hSame (g : Str → Str) (o : Option Str) : o.map g = o ↔ ∀ line ∈ o, g line = line := by
    cases o <;> simp
  constructor
  · intro hFrame
    refine ⟨?_, ?_⟩
    · intro i hi
      have h := hFrame i ((hNotOwn i).mpr fun hMem => absurd hMem hi)
      rwa [hWritten, if_neg hi, hSame] at h
    · intro i hi line hLine hChild
      have h := hFrame i ((hNotOwn i).mpr fun _ => hChild)
      rw [hWritten, if_pos hi, hSame] at h
      exact h line hLine
  · rintro ⟨hEndings, hChildren⟩ i hi
    rw [hWritten]
    split_ifs with hMem
    · rw [hSame]
      intro line hLine
      exact hChildren i hMem line hLine ((hNotOwn i).mp hi hMem)
    · rw [hSame]
      exact hEndings i hMem

theorem locateEditablePropertySpan_error {stripped : List Str} {isProtected : ℕ → Bool}
    {code : EditCode}
    (h : locateEditablePropertySpan tables casefold stripped isProtected blockUuid = .error code) :
    code.ok = false := by
  rw [locateEditablePropertySpan] at h
  split at h
  · obtain rfl := Except.error.inj h
    rfl
  · split at h
    · obtain rfl := Except.error.inj h
      rfl
    · dsimp only at h
      split_ifs at h
      · obtain rfl := Except.error.inj h
        rfl
      · obtain rfl := Except.error.inj h
        rfl

theorem editBlockPropertyLines_of_valid (h : pattern ≠ .invalidRegex) :
    editBlockPropertyLines tables casefold text blockUuid pattern replacement dryRun replaceAll
        unchanged =
      match locateEditablePropertySpan tables casefold (stripLinesForMatch (splitlinesKeep text))
          (computePageProtectedLineIndices text) blockUuid with
      | .error code => some ⟨code, 0, splitlinesKeep text⟩
      | .ok (_, indices) =>
          editLocated tables (splitlinesKeep text) indices pattern replacement dryRun replaceAll
            unchanged := by
  cases pattern with
  | invalidRegex => exact absurd rfl h
  | text search caseSensitive => rfl
  | regex compiled => rfl
  | rejectedRegex => rfl

theorem editsOwnLines_located_iff {b : ℕ} {indices : List ℕ}
    (hSpan : locateEditablePropertySpan tables casefold (stripLinesForMatch (splitlinesKeep text))
      (computePageProtectedLineIndices text) blockUuid = .ok (b, indices))
    (hReturns : pattern.returns replaceAll = true) :
    (∀ r, editLocated tables (splitlinesKeep text) indices pattern replacement dryRun replaceAll
        unchanged = some r → EditsOwnLines tables casefold text blockUuid pattern replaceAll r) ↔
      (Accepts tables pattern replaceAll (stripLinesForMatch (splitlinesKeep text)) indices →
        Confined tables pattern replacement dryRun replaceAll unchanged (splitlinesKeep text) b
          indices) := by
  obtain ⟨_, _, hNodup, hRange, _⟩ := locateEditablePropertySpan_ok hSpan
  obtain ⟨f, hf⟩ := exists_apply tables replacement hReturns
  have hRange' : ∀ i ∈ indices, i < (splitlinesKeep text).length := by
    simpa [stripLinesForMatch] using hRange
  obtain ⟨newLines, hLoop, hNew⟩ := applyReplacements_eq f hNodup hRange'
  have hAccepts := accepts_iff hf (stripLinesForMatch (splitlinesKeep text)) indices
  simp only [getD_stripLinesForMatch] at hAccepts
  rw [editLocated, hf, hLoop]
  dsimp only
  generalize (indices.map fun i =>
    (f (stripLineEndings ((splitlinesKeep text).getD i []))).2).sum = total at hAccepts
  by_cases hAcc : Accepts tables pattern replaceAll (stripLinesForMatch (splitlinesKeep text)) indices
  · obtain ⟨hSome, hSingle⟩ := hAccepts.mp hAcc
    have hNotMany : (!replaceAll && decide (1 < total)) = false := by
      cases replaceAll with
      | true => rfl
      | false =>
          have := hSingle rfl
          simpa using this
    have hOnce : (replaceAll = false → ownMatches tables casefold pattern
        (stripLinesForMatch (splitlinesKeep text)) blockUuid = 1) ↔
        (replaceAll = false → ∀ i ∈ indices,
          matchCount tables pattern ((stripLinesForMatch (splitlinesKeep text)).getD i []) ≤
            if blockBulletIndex (stripLinesForMatch (splitlinesKeep text)) i = some b then 1
            else 0) := by
      cases replaceAll with
      | true => simp
      | false => rw [ownMatches_eq_one_iff hSpan hAcc]
    rw [if_neg hSome, hNotMany, if_neg Bool.false_ne_true]
    simp only [hAcc, true_imp_iff]
    cases dryRun with
    | true =>
        simp only [if_true, Option.some.injEq, forall_eq']
        constructor
        · intro h
          exact ⟨by rintro ⟨⟩, by rintro ⟨⟩, fun _ => hOnce.mp h.once⟩
        · intro h
          exact ⟨fun _ _ => rfl, hOnce.mpr (h.single (.inl rfl))⟩
    | false =>
        cases unchanged with
        | true =>
            simp only [if_true, Bool.false_eq_true, if_false, Option.some.injEq, forall_eq']
            constructor
            · intro h
              have hFrame := (frame_iff hSpan hf hNew).mp h.frame
              exact ⟨fun _ _ => hFrame.1, fun _ _ => hFrame.2, fun _ => hOnce.mp h.once⟩
            · intro h
              exact ⟨(frame_iff hSpan hf hNew).mpr ⟨h.endings rfl rfl, h.children rfl rfl⟩,
                hOnce.mpr (h.single (.inr rfl))⟩
        | false =>
            simp only [Bool.false_eq_true, if_false, Option.some.injEq, forall_eq']
            refine iff_of_true (editsOwnLines_of_failure rfl total) ⟨by rintro - ⟨⟩, by rintro - ⟨⟩, ?_⟩
            rintro (h | h) <;> cases h
  · refine iff_of_true ?_ fun h => absurd h hAcc
    intro r hr
    split_ifs at hr with hNone hMany hDry hSame
    · obtain rfl := Option.some.inj hr
      exact editsOwnLines_of_failure rfl 0
    · obtain rfl := Option.some.inj hr
      exact editsOwnLines_of_failure rfl total
    all_goals
      refine absurd (hAccepts.mpr ⟨hNone, ?_⟩) hAcc
      rintro rfl
      simpa using hMany

/-- An edit of property lines changes own lines of its block alone, and without `replaceAll`
only a single occurrence in them, exactly when an edit that is accepted for the whole subtree
is confined to the block. -/
theorem editsOwnLines_iff (tables : CaseTables) (casefold : Str → Str) (text blockUuid : Str)
    (pattern : SearchPattern) (replacement : Str) (dryRun replaceAll unchanged : Bool) :
    (∀ r, editBlockPropertyLines tables casefold text blockUuid pattern replacement dryRun replaceAll
        unchanged = some r → EditsOwnLines tables casefold text blockUuid pattern replaceAll r) ↔
      ∀ b indices, locateEditablePropertySpan tables casefold
          (stripLinesForMatch (splitlinesKeep text)) (computePageProtectedLineIndices text) blockUuid =
            .ok (b, indices) →
        pattern.returns replaceAll = true →
        Accepts tables pattern replaceAll (stripLinesForMatch (splitlinesKeep text)) indices →
        Confined tables pattern replacement dryRun replaceAll unchanged (splitlinesKeep text) b
          indices := by
  by_cases hInvalid : pattern = .invalidRegex
  · subst hInvalid
    refine iff_of_true (fun r hr => ?_) (fun _ _ _ hReturns => by cases hReturns)
    obtain rfl := Option.some.inj hr
    exact editsOwnLines_of_failure rfl 0
  · rw [editBlockPropertyLines_of_valid hInvalid]
    cases hSpan : locateEditablePropertySpan tables casefold (stripLinesForMatch (splitlinesKeep text))
        (computePageProtectedLineIndices text) blockUuid with
    | error code =>
        refine iff_of_true (fun r hr => ?_) (fun _ _ hOk => by cases hOk)
        obtain rfl := Option.some.inj hr
        exact editsOwnLines_of_failure (locateEditablePropertySpan_error hSpan) 0
    | ok span =>
        obtain ⟨b, indices⟩ := span
        obtain ⟨_, hNe, hNodup, hRange, _⟩ := locateEditablePropertySpan_ok hSpan
        cases hReturns : pattern.returns replaceAll with
        | false =>
            refine iff_of_true (fun r hr => ?_) (fun _ _ _ hTrue => by cases hTrue)
            simp only [editLocated, applyReplacements_none hReturns hNe] at hr
            cases hr
        | true =>
            have hOnly : (∀ b' indices', Except.ok (ε := EditCode) (b, indices) = .ok (b', indices') →
                true = true → Accepts tables pattern replaceAll
                  (stripLinesForMatch (splitlinesKeep text)) indices' →
                Confined tables pattern replacement dryRun replaceAll unchanged (splitlinesKeep text)
                  b' indices') ↔
                (Accepts tables pattern replaceAll (stripLinesForMatch (splitlinesKeep text)) indices →
                  Confined tables pattern replacement dryRun replaceAll unchanged
                    (splitlinesKeep text) b indices) := by
              constructor
              · intro h
                exact h b indices rfl rfl
              · rintro h b' indices' hEq _
                obtain ⟨rfl, rfl⟩ := Prod.mk.inj (Except.ok.inj hEq)
                exact h
            rw [hOnly]
            exact editsOwnLines_located_iff hSpan hReturns

/-- A block, and a child with a property of its own. -/
def parentAndChild : Str :=
  ("- parent\n  status:: open\n  id:: 6ba7b810-9dad-41d1-80b4-00c04fd430c8\n" ++
    "  - child\n    owner:: ana\n").toList

/-- The property of the child is edited in the name of the parent. -/
theorem parentAndChild_edited : ¬∀ (tables : CaseTables) (casefold : Str → Str)
    (text blockUuid : Str) (pattern : SearchPattern) (replacement : Str)
    (dryRun replaceAll unchanged : Bool) (r : Outcome),
    editBlockPropertyLines tables casefold text blockUuid pattern replacement dryRun replaceAll
      unchanged = some r → EditsOwnLines tables casefold text blockUuid pattern replaceAll r := by
  intro h
  have hEdit : (editBlockPropertyLines asciiCase id parentAndChild sampleId.text
      (.text "ana".toList true) "eva".toList false false true).map (fun r => r.code) =
        some .applied := by decide +kernel
  obtain ⟨r, hr, hCode⟩ := Option.map_eq_some_iff.mp hEdit
  have hOnce := (h _ _ _ _ _ _ _ _ _ r hr).once rfl
  rw [hCode, if_pos (by rfl)] at hOnce
  have hOwn : ownMatches asciiCase id (.text "ana".toList true)
      (stripLinesForMatch (splitlinesKeep parentAndChild)) sampleId.text = 0 := by decide +kernel
  rw [hOwn] at hOnce
  cases hOnce

end Result

end Plumber.PropertyLineEdit
