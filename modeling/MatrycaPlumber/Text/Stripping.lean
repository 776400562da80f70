import MatrycaPlumber.Text.Basic

/-! How the stripping methods act on a text that is put together from others. -/
namespace PyText

theorem mem_rstripChars {chars s : Str} {c : Char} (h : c ∈ s) (hc : c ∉ chars) :
    c ∈ rstripChars chars s := by
  have hParts : c ∈ s.rdropWhile (fun d => chars.contains d) ++
      s.rtakeWhile (fun d => chars.contains d) := by
    rwa [List.rdropWhile_append_rtakeWhile]
  rcases List.mem_append.mp hParts with hKept | hTaken
  · exact hKept
  · exact absurd (List.contains_iff_mem.mp (List.mem_rtakeWhile_imp hTaken)) hc

theorem lstrip_append_of_blank {s t : Str} (h : lstrip s = []) : lstrip (s ++ t) = lstrip t := by
  rw [lstrip, List.dropWhile_append, ← lstrip, h]
  rfl

theorem lstrip_append_of_ne {s : Str} (h : lstrip s ≠ []) (t : Str) :
    lstrip (s ++ t) = lstrip s ++ t := by
  rw [lstrip, List.dropWhile_append, ← lstrip, if_neg (by simpa using h)]

theorem lstrip_cons_of_not_isSpace {c : Char} (h : isSpace c = false) (s : Str) :
    lstrip (c :: s) = c :: s := by
  rw [lstrip, List.dropWhile_cons_of_neg (by simp [h])]

theorem lstrip_eq_nil_iff {s : Str} : lstrip s = [] ↔ ∀ c ∈ s, isSpace c = true := by
  rw [lstrip, List.dropWhile_eq_nil_iff]

theorem lstrip_strip (s : Str) : lstrip (strip s) = strip s := by
  cases hStrip : strip s with
  | nil => rfl
  | cons c t =>
      obtain ⟨r, hr⟩ := List.rdropWhile_prefix isSpace (lstrip s)
      have hLeft : lstrip s = c :: (t ++ r) := by
        rw [← hr, ← rstrip, ← strip, hStrip]
        rfl
      have hHead : ∀ h : lstrip s ≠ [], isSpace ((lstrip s).head h) = false :=
        fun h => List.head_dropWhile_not isSpace h
      rw [hLeft] at hHead
      exact lstrip_cons_of_not_isSpace (hHead (List.cons_ne_nil c _)) t

theorem rstrip_strip (s : Str) : rstrip (strip s) = strip s :=
  List.rdropWhile_idempotent isSpace (lstrip s)

theorem strip_strip (s : Str) : strip (strip s) = strip s := by
  rw [strip, lstrip_strip, rstrip_strip]

/-- What stripping takes off at the two ends is whitespace. -/
theorem exists_ends_of_strip (s : Str) : ∃ a b, s = a ++ (strip s ++ b) ∧
    (∀ c ∈ a, isSpace c = true) ∧ ∀ c ∈ b, isSpace c = true := by
  refine ⟨s.takeWhile isSpace, (lstrip s).rtakeWhile isSpace, ?_, ?_, ?_⟩
  · rw [strip, rstrip, List.rdropWhile_append_rtakeWhile, lstrip, List.takeWhile_append_dropWhile]
  · intro c hc
    exact List.mem_takeWhile_imp hc
  · intro c hc
    exact List.mem_rtakeWhile_imp hc

theorem lstrip_strip_append {s : Str} (h : strip s ≠ []) (rest : Str) :
    lstrip (strip s ++ rest) = strip s ++ rest := by
  rw [lstrip_append_of_ne (by rwa [lstrip_strip]), lstrip_strip]

theorem strip_of_words {s : Str} (h : ∀ c ∈ s, isSpace c = false) : strip s = s := by
  rw [strip, rstrip, lstrip, List.dropWhile_eq_self_iff.mpr, List.rdropWhile_eq_self_iff.mpr]
  · intro hne
    simp [h _ (List.getLast_mem hne)]
  · intro hLength
    simp [h _ (List.getElem_mem hLength)]

theorem rdropWhile_append_cons {p : Char → Bool} (head rest : Str) {c : Char} (hc : p c = false) :
    (head ++ c :: rest).rdropWhile p = head ++ c :: rest.rdropWhile p := by
  have hNot : ¬p c = true := by rw [hc]; exact Bool.false_ne_true
  induction rest using List.reverseRecOn with
  | nil => exact List.rdropWhile_concat_neg _ _ _ hNot
  | append_singleton rest d ih =>
      rw [← List.cons_append, ← List.append_assoc]
      by_cases hd : p d = true
      · rw [List.rdropWhile_concat_pos _ _ _ hd, List.rdropWhile_concat_pos _ _ _ hd]
        exact ih
      · rw [List.rdropWhile_concat_neg _ _ _ hd, List.rdropWhile_concat_neg _ _ _ hd,
          List.append_assoc]
        rfl

theorem rstrip_append_cons (head rest : Str) {c : Char} (hc : isSpace c = false) :
    rstrip (head ++ c :: rest) = head ++ c :: rstrip rest :=
  rdropWhile_append_cons head rest hc

theorem strip_append_space (x : Str) {c : Char} (hc : isSpace c = true) :
    strip (x ++ [c]) = strip x := by
  rw [strip, strip, lstrip, lstrip, List.dropWhile_append]
  split_ifs with hNil
  · rw [List.isEmpty_iff] at hNil
    rw [hNil]
    simp [rstrip, hc]
  · rw [rstrip, List.rdropWhile_concat_pos _ _ _ hc]
    rfl

theorem strip_eq_self_iff {s : Str} : strip s = s ↔
    (∀ c t, s = c :: t → isSpace c = false) ∧ ∀ c t, s = t ++ [c] → isSpace c = false := by
  constructor
  · intro h
    constructor
    · rintro c t rfl
      by_contra hSpace
      have hLength := congrArg List.length h
      rw [strip, lstrip, List.dropWhile_cons_of_pos (by simpa using hSpace)] at hLength
      have := (List.rdropWhile_prefix isSpace (t.dropWhile isSpace)).length_le
      have := (t.dropWhile_suffix isSpace).length_le
      rw [rstrip, List.length_cons] at hLength
      omega
    · rintro c t rfl
      by_contra hSpace
      have hLength := congrArg List.length h
      rw [strip_append_space t (by simpa using hSpace)] at hLength
      have := (strip_isInfix t).length_le
      rw [List.length_append, List.length_singleton] at hLength
      omega
  · rintro ⟨hFirst, hLast⟩
    cases s with
    | nil => rfl
    | cons c t =>
        rw [strip, lstrip_cons_of_not_isSpace (hFirst c t rfl), rstrip,
          List.rdropWhile_eq_self_iff]
        intro hNe
        rw [hLast _ _ (List.dropLast_append_getLast hNe).symm]
        exact Bool.false_ne_true

end PyText
