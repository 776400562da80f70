import MatrycaPlumber.System.InsertionDict
import MatrycaPlumber.Text.Basic
import MatrycaPlumber.Text.Decimal

/-! The properties of an outline node that is converted from the fields of a Tana node. -/
namespace Plumber.TanaConvert

open PyText

structure LogseqPropertyLine where
  key : Str
  value : Str
  deriving DecidableEq

def fieldFallbackPrefix : Str := "field".toList

section Model

/-- The counts that a converter keeps over all nodes, the collisions it has met, and the
properties of the current node. -/
structure FieldState where
  fieldKeyCounts : Str → Option ℕ
  propertyKeyCollisions : ℕ
  out : InsertionDict Str Str

def suffixed (key : Str) (count : ℕ) : Str := key ++ '-' :: decimal count

/-- `_fallback_field_key`, with the counts after it. -/
def fallbackFieldKey (counts : Str → Option ℕ) : Str × (Str → Option ℕ) :=
  let count := (counts fieldFallbackPrefix).getD 0 + 1
  (if count = 1 then fieldFallbackPrefix else suffixed fieldFallbackPrefix count,
    Function.update counts fieldFallbackPrefix (some count))

/-- The key of a field before it is made unique. -/
def fieldKey (counts : Str → Option ℕ) (line : LogseqPropertyLine) : Str × (Str → Option ℕ) :=
  if strip line.key = [] then fallbackFieldKey counts else (strip line.key, counts)

/-- The number that a key gets when it is taken. -/
def nextCount (counts : Str → Option ℕ) (key : Str) : ℕ := (counts key).getD 1 + 1

def addField (s : FieldState) (line : LogseqPropertyLine) : FieldState :=
  let (key, counts) := fieldKey s.fieldKeyCounts line
  if key ∈ s.out.keys then
    { fieldKeyCounts := Function.update counts key (some (nextCount counts key))
      propertyKeyCollisions := s.propertyKeyCollisions + 1
      out := s.out.put (suffixed key (nextCount counts key)) line.value }
  else
    { fieldKeyCounts := counts
      propertyKeyCollisions := s.propertyKeyCollisions
      out := s.out.put key line.value }

def addFields (counts : Str → Option ℕ) (fieldProps : List LogseqPropertyLine) : FieldState :=
  fieldProps.foldl addField ⟨counts, 0, .empty⟩

/-- `_field_properties`, for a converter with these counts. -/
def fieldProperties (counts : Str → Option ℕ) (fieldProps : List LogseqPropertyLine) :
    InsertionDict Str Str :=
  (addFields counts fieldProps).out

end Model

/-- The names that the fields bring with them. -/
def names (fieldProps : List LogseqPropertyLine) : List Str :=
  (fieldProps.map fun line => strip line.key).filter (· ≠ [])

/-- The key of the next field is taken, and with its number it is the name of an earlier field. -/
def Clash (counts : Str → Option ℕ) (before : List LogseqPropertyLine)
    (line : LogseqPropertyLine) : Prop :=
  (fieldKey (addFields counts before).fieldKeyCounts line).1 ∈ (fieldProperties counts before).keys ∧
    suffixed (fieldKey (addFields counts before).fieldKeyCounts line).1
        (nextCount (fieldKey (addFields counts before).fieldKeyCounts line).2
          (fieldKey (addFields counts before).fieldKeyCounts line).1) ∈ names before

section Keys

variable {counts counts' : Str → Option ℕ} {before : List LogseqPropertyLine}
  {line : LogseqPropertyLine} {s : FieldState} {used : List Str}

theorem suffixed_inj {key other : Str} {m n : ℕ} (h : suffixed key m = suffixed other n) :
    key = other ∧ m = n := by
  have hDash (n : ℕ) : '-' ∉ decimal n := notMem_decimal (by decide)
  rcases List.append_eq_append_iff.mp h with ⟨c, hOther, hEnd⟩ | ⟨c, hKey, hEnd⟩
  · cases c with
    | nil =>
        rw [List.append_nil] at hOther
        exact ⟨hOther.symm, decimal_injective (List.cons.inj hEnd).2⟩
    | cons d c =>
        apply absurd _ (hDash m)
        rw [(List.cons.inj hEnd).2]
        exact List.mem_append_right _ List.mem_cons_self
  · cases c with
    | nil =>
        rw [List.append_nil] at hKey
        exact ⟨hKey, (decimal_injective (List.cons.inj hEnd).2).symm⟩
    | cons d c =>
        apply absurd _ (hDash n)
        rw [(List.cons.inj hEnd).2]
        exact List.mem_append_right _ List.mem_cons_self

theorem suffixed_ne_fallback (key : Str) (n : ℕ) : suffixed key n ≠ fieldFallbackPrefix := by
  intro h
  have hDash : '-' ∈ fieldFallbackPrefix := by
    rw [← h]
    exact List.mem_append_right _ List.mem_cons_self
  exact absurd hDash (by decide)

theorem addFields_concat (counts : Str → Option ℕ) (before : List LogseqPropertyLine)
    (line : LogseqPropertyLine) :
    addFields counts (before ++ [line]) = addField (addFields counts before) line := by
  rw [addFields, List.foldl_append]
  rfl

theorem names_concat (before : List LogseqPropertyLine) (line : LogseqPropertyLine) :
    names (before ++ [line]) =
      names before ++ if strip line.key = [] then [] else [strip line.key] := by
  rw [names, names, List.map_append, List.filter_append]
  split_ifs with hKey <;> simp [hKey]

/-- Where the keys of a node come from: the name of a field, or a number that has been counted. -/
structure Origin (counts : Str → Option ℕ) (keys used : List Str) : Prop where
  of_key : ∀ key ∈ keys, key ∈ used ∨ key = fieldFallbackPrefix ∨
    ∃ base n, key = suffixed base n ∧ ∃ c, counts base = some c ∧ n ≤ c
  of_name : ∀ name ∈ used, name ∈ keys

theorem Origin.mono {keys : List Str} (h : Origin counts keys used)
    (hMore : ∀ base c, counts base = some c → ∃ c', counts' base = some c' ∧ c ≤ c') :
    Origin counts' keys used := by
  refine ⟨fun key hKey => ?_, h.of_name⟩
  rcases h.of_key key hKey with hName | hPrefix | ⟨base, n, hEq, c, hCount, hLe⟩
  · exact Or.inl hName
  · exact Or.inr (Or.inl hPrefix)
  · obtain ⟨c', hCount', hLe'⟩ := hMore base c hCount
    exact Or.inr (Or.inr ⟨base, n, hEq, c', hCount', hLe.trans hLe'⟩)

/-- A count that goes up at one key stays where it is at the others. -/
theorem counts_update {key : Str} {count : ℕ} (h : ∀ c, counts key = some c → c ≤ count) :
    ∀ base c, counts base = some c →
      ∃ c', Function.update counts key (some count) base = some c' ∧ c ≤ c' := by
  intro base c hCount
  by_cases hBase : base = key
  · subst hBase
    exact ⟨count, Function.update_self base (some count) counts, h c hCount⟩
  · exact ⟨c, by rw [Function.update_of_ne hBase, hCount], Nat.le_refl c⟩

/-- The key of a field is its name, or comes from the fallback that is counted. -/
theorem fieldKey_cases (counts : Str → Option ℕ) (line : LogseqPropertyLine) :
    (∀ base c, counts base = some c → ∃ c', (fieldKey counts line).2 base = some c' ∧ c ≤ c') ∧
      (strip line.key ≠ [] → (fieldKey counts line).1 = strip line.key) ∧
      (strip line.key = [] → (fieldKey counts line).1 = fieldFallbackPrefix ∨
        ∃ n, (fieldKey counts line).1 = suffixed fieldFallbackPrefix n ∧
          (fieldKey counts line).2 fieldFallbackPrefix = some n) := by
  rw [fieldKey]
  split_ifs with hKey
  · refine ⟨?_, fun h => absurd hKey h, fun _ => ?_⟩
    · apply counts_update
      intro c hCount
      rw [hCount]
      exact Nat.le_succ c
    · rw [fallbackFieldKey]
      dsimp only
      split_ifs
      · exact Or.inl rfl
      · exact Or.inr ⟨_, rfl, Function.update_self _ _ _⟩
  · exact ⟨fun base c hCount => ⟨c, hCount, Nat.le_refl c⟩, fun _ => rfl, fun h => absurd h hKey⟩

/-- The numbered key is taken only by the name of an earlier field. -/
theorem Origin.suffixed_mem_iff {keys : List Str} (h : Origin counts keys used) (key : Str) :
    suffixed key (nextCount counts key) ∈ keys ↔ suffixed key (nextCount counts key) ∈ used := by
  refine ⟨fun hMem => ?_, h.of_name _⟩
  rcases h.of_key _ hMem with hName | hPrefix | ⟨base, n, hEq, c, hCount, hLe⟩
  · exact hName
  · exact absurd hPrefix (suffixed_ne_fallback _ _)
  · obtain ⟨rfl, rfl⟩ := suffixed_inj hEq
    rw [nextCount, hCount] at hLe
    exact absurd hLe (Nat.not_succ_le_self c)

theorem Origin.addField (h : Origin s.fieldKeyCounts s.out.keys (names before)) :
    Origin (addField s line).fieldKeyCounts (addField s line).out.keys (names (before ++ [line])) := by
  obtain ⟨hMore, hName, hFallback⟩ := fieldKey_cases s.fieldKeyCounts line
  have hBase := h.mono hMore
  rw [names_concat, TanaConvert.addField]
  generalize fieldKey s.fieldKeyCounts line = pair at *
  obtain ⟨key, counts⟩ := pair
  dsimp only at *
  have hNew : ∀ name ∈ (if strip line.key = [] then [] else [strip line.key]), name = key := by
    intro name hMem
    split_ifs at hMem with hKey
    · cases hMem
    · rw [List.mem_singleton.mp hMem, hName hKey]
  by_cases hTaken : key ∈ s.out.keys
  · rw [if_pos hTaken]
    have hNext : Origin (Function.update counts key (some (nextCount counts key))) s.out.keys
        (names before) := by
      apply hBase.mono
      apply counts_update
      intro c hCount
      rw [nextCount, hCount]
      exact Nat.le_succ c
    constructor
    · intro other hMem
      rcases InsertionDict.mem_keys_put.mp hMem with rfl | hOld
      · exact Or.inr (Or.inr ⟨key, _, rfl, _, Function.update_self _ _ _, Nat.le_refl _⟩)
      · exact (hNext.of_key other hOld).imp_left (List.mem_append_left _)
    · intro name hMem
      apply InsertionDict.mem_keys_put.mpr
      rcases List.mem_append.mp hMem with hOld | hLast
      · exact Or.inr (h.of_name name hOld)
      · rw [hNew name hLast]
        exact Or.inr hTaken
  · rw [if_neg hTaken]
    constructor
    · intro other hMem
      rcases InsertionDict.mem_keys_put.mp hMem with rfl | hOld
      · by_cases hKey : strip line.key = []
        · rcases hFallback hKey with hPrefix | ⟨n, hSuffix, hCount⟩
          · exact Or.inr (Or.inl hPrefix)
          · exact Or.inr (Or.inr ⟨_, n, hSuffix, n, hCount, Nat.le_refl n⟩)
        · refine Or.inl (List.mem_append_right _ ?_)
          rw [if_neg hKey, hName hKey]
          exact List.mem_singleton_self _
      · exact (hBase.of_key other hOld).imp_left (List.mem_append_left _)
    · intro name hMem
      apply InsertionDict.mem_keys_put.mpr
      rcases List.mem_append.mp hMem with hOld | hLast
      · exact Or.inr (h.of_name name hOld)
      · exact Or.inl (hNew name hLast)

theorem origin_addFields (counts : Str → Option ℕ) (before : List LogseqPropertyLine) :
    Origin (addFields counts before).fieldKeyCounts (addFields counts before).out.keys
      (names before) := by
  induction before using List.reverseRecOn with
  | nil => exact ⟨nofun, nofun⟩
  | append_singleton before line ih =>
      rw [addFields_concat]
      exact ih.addField

end Keys

section Values

variable {counts : Str → Option ℕ} {before : List LogseqPropertyLine} {line : LogseqPropertyLine}

/-- A field without a clash gets an entry of its own behind the others. -/
theorem entries_of_not_clash (h : ¬Clash counts before line) :
    ∃ key, (fieldProperties counts (before ++ [line])).entries =
      (fieldProperties counts before).entries ++ [(key, line.value)] := by
  have hOrigin := (origin_addFields counts before).mono (fieldKey_cases _ line).1
  rw [Clash, fieldProperties, ← hOrigin.suffixed_mem_iff, not_and] at h
  rw [fieldProperties, fieldProperties, addFields_concat, addField]
  generalize fieldKey (addFields counts before).fieldKeyCounts line = pair at *
  obtain ⟨key, next⟩ := pair
  dsimp only at *
  split_ifs with hTaken
  · exact ⟨_, InsertionDict.entries_put_of_notMem (h hTaken)⟩
  · exact ⟨_, InsertionDict.entries_put_of_notMem hTaken⟩

/-- A field with a clash takes the entry of another. -/
theorem length_of_clash (h : Clash counts before line) :
    (fieldProperties counts (before ++ [line])).entries.length =
      (fieldProperties counts before).entries.length := by
  have hOrigin := (origin_addFields counts before).mono (fieldKey_cases _ line).1
  rw [Clash, fieldProperties, ← hOrigin.suffixed_mem_iff] at h
  rw [fieldProperties, fieldProperties, addFields_concat, addField]
  generalize fieldKey (addFields counts before).fieldKeyCounts line = pair at *
  obtain ⟨key, next⟩ := pair
  dsimp only at *
  rw [if_pos h.1]
  have hLength := InsertionDict.length_put (addFields counts before).out
    (suffixed key (nextCount next key)) line.value
  rw [if_pos h.2, Nat.add_zero, InsertionDict.keys, InsertionDict.keys, List.length_map,
    List.length_map] at hLength
  exact hLength

theorem length_fieldProperties_le (counts : Str → Option ℕ) (before : List LogseqPropertyLine) :
    (fieldProperties counts before).entries.length ≤ before.length := by
  induction before using List.reverseRecOn with
  | nil => exact Nat.le_refl 0
  | append_singleton before line ih =>
      rw [List.length_append, List.length_singleton]
      by_cases h : Clash counts before line
      · rw [length_of_clash h]
        omega
      · obtain ⟨key, hEntries⟩ := entries_of_not_clash h
        rw [hEntries, List.length_append, List.length_singleton]
        omega

end Values

/-- Every field keeps its value, under a key of its own, exactly when no key that is taken gets
the name of an earlier field as its numbered form. -/
theorem fieldProperties_lossless_iff (counts : Str → Option ℕ)
    (fieldProps : List LogseqPropertyLine) :
    (fieldProperties counts fieldProps).keys.Nodup ∧
      ((fieldProperties counts fieldProps).entries.map Prod.snd =
          fieldProps.map LogseqPropertyLine.value ↔
        ∀ before line after, fieldProps = before ++ line :: after → ¬Clash counts before line) := by
  refine ⟨(fieldProperties counts fieldProps).nodup, ?_⟩
  induction fieldProps using List.reverseRecOn with
  | nil => exact iff_of_true rfl (by simp)
  | append_singleton init last ih =>
      have hSplit : (∀ before line after, init ++ [last] = before ++ line :: after →
          ¬Clash counts before line) ↔ (∀ before line after, init = before ++ line :: after →
            ¬Clash counts before line) ∧ ¬Clash counts init last := by
        constructor
        · intro h
          refine ⟨fun before line after hInit => h before line (after ++ [last]) ?_,
            h init last [] rfl⟩
          rw [hInit, List.append_assoc]
          rfl
        · rintro ⟨hInit, hLast⟩ before line after hEq
          rcases List.eq_nil_or_concat' after with rfl | ⟨after, other, rfl⟩
          · obtain ⟨rfl, hLine⟩ := List.append_inj' hEq rfl
            rwa [← (List.cons.inj hLine).1]
          · rw [← List.cons_append, ← List.append_assoc] at hEq
            exact hInit before line after (List.append_inj' hEq rfl).1
      rw [hSplit, ← ih, List.map_append]
      by_cases h : Clash counts init last
      · refine iff_of_false (fun hEq => ?_) fun hBoth => hBoth.2 h
        have hLength := congrArg List.length hEq
        have hLe := length_fieldProperties_le counts init
        rw [List.length_map, length_of_clash h] at hLength
        simp only [List.length_append, List.length_map, List.length_cons, List.length_nil] at hLength
        omega
      · obtain ⟨key, hEntries⟩ := entries_of_not_clash h
        rw [and_iff_left h, hEntries, List.map_append]
        exact List.append_left_inj _

/-- A third field takes the entry of the first. -/
theorem numbered_name_overwritten :
    (fieldProperties (fun _ => none) [⟨"a-2".toList, "x".toList⟩, ⟨"a".toList, "y".toList⟩,
      ⟨"a".toList, "z".toList⟩]).entries =
        [("a-2".toList, "z".toList), ("a".toList, "y".toList)] := by
  decide +kernel

end Plumber.TanaConvert
