import MatrycaPlumber.Graph.SplitLargeBlocks
import MatrycaPlumber.Text.Stripping

/-! The sentences of a body: together they are the body up to whitespace, and
none of them is split again. -/
namespace Plumber.SplitLargeBlocks

open PyText MarkdownBlocks

/-- No whitespace follows a stop, so the text is one sentence. -/
def oneSentence : Bool → Str → Bool
  | _, [] => true
  | afterStop, c :: cs =>
      if isSpace c then !afterStop && oneSentence false cs else oneSentence (isStop c) cs

theorem oneSentence_cons (afterStop : Bool) (c : Char) (cs : Str) :
    oneSentence afterStop (c :: cs) =
      if isSpace c then !afterStop && oneSentence false cs else oneSentence (isStop c) cs :=
  rfl

theorem splitAfterStop_of_oneSentence {afterStop : Bool} {s : Str}
    (h : oneSentence afterStop s = true) : splitAfterStop false afterStop s = [s] := by
  induction s generalizing afterStop with
  | nil => rfl
  | cons c s ih =>
      rw [oneSentence_cons] at h
      rw [splitAfterStop]
      by_cases hc : isSpace c = true
      · rw [if_pos hc, Bool.and_eq_true] at h
        have hStop : afterStop = false := by simpa using h.1
        simp [hc, hStop, ih h.2, consHead]
      · rw [if_neg hc] at h
        simp [hc, ih h, consHead]

/-- Every part of a split text is one sentence. -/
theorem oneSentence_of_splitAfterStop {inGap afterStop : Bool} {s p : Str} {ps : List Str}
    (h : splitAfterStop inGap afterStop s = p :: ps) :
    oneSentence (!inGap && afterStop) p = true ∧ ∀ q ∈ ps, oneSentence false q = true := by
  induction s generalizing inGap afterStop p ps with
  | nil =>
      obtain ⟨rfl, rfl⟩ := List.cons.inj h
      simp [oneSentence]
  | cons c s ih =>
      have hHead {gap stop : Bool} (hs : consHead c (splitAfterStop gap stop s) = p :: ps) :
          ∃ r, p = c :: r ∧ oneSentence (!gap && stop) r = true ∧
            ∀ q ∈ ps, oneSentence false q = true := by
        cases hParts : splitAfterStop gap stop s with
        | nil =>
            rw [hParts] at hs
            obtain ⟨rfl, rfl⟩ := List.cons.inj hs
            exact ⟨[], rfl, by simp [oneSentence], by simp⟩
        | cons r rs =>
            rw [hParts] at hs
            obtain ⟨rfl, rfl⟩ := List.cons.inj hs
            exact ⟨r, rfl, ih hParts⟩
      rw [splitAfterStop] at h
      split_ifs at h with hc hGap hStop
      · obtain ⟨hp, hps⟩ := ih h
        simp only [hGap]
        exact ⟨by simpa using hp, hps⟩
      · obtain ⟨rfl, hRest⟩ := List.cons.inj h
        cases hParts : splitAfterStop true false s with
        | nil =>
            rw [hParts] at hRest
            subst hRest
            simp [oneSentence]
        | cons r rs =>
            rw [hParts] at hRest
            subst hRest
            obtain ⟨hr, hrs⟩ := ih hParts
            exact ⟨by simp [oneSentence], List.forall_mem_cons.mpr ⟨by simpa using hr, hrs⟩⟩
      · obtain ⟨r, rfl, hr, hps⟩ := hHead h
        have hStop : afterStop = false := by simpa using hStop
        exact ⟨by simpa [oneSentence, hc, hStop] using hr, hps⟩
      · obtain ⟨r, rfl, hr, hps⟩ := hHead h
        exact ⟨by simpa [oneSentence, hc] using hr, hps⟩

theorem oneSentence_prefix {afterStop : Bool} {s t : Str}
    (h : oneSentence afterStop (s ++ t) = true) : oneSentence afterStop s = true := by
  induction s generalizing afterStop with
  | nil => rfl
  | cons c s ih =>
      rw [List.cons_append, oneSentence_cons] at h
      rw [oneSentence_cons]
      split_ifs at h ⊢ with hc
      · rw [Bool.and_eq_true] at h ⊢
        exact ⟨h.1, ih h.2⟩
      · exact ih h

theorem oneSentence_dropWhile {afterStop : Bool} {s : Str} (h : oneSentence afterStop s = true) :
    oneSentence false (s.dropWhile isSpace) = true := by
  induction s generalizing afterStop with
  | nil => rfl
  | cons c s ih =>
      rw [oneSentence_cons] at h
      by_cases hc : isSpace c = true
      · rw [if_pos hc, Bool.and_eq_true] at h
        rw [List.dropWhile_cons_of_pos hc]
        exact ih h.2
      · rw [if_neg hc] at h
        rw [List.dropWhile_cons_of_neg hc, oneSentence_cons, if_neg hc]
        exact h

theorem oneSentence_strip {afterStop : Bool} {s : Str} (h : oneSentence afterStop s = true) :
    oneSentence false (strip s) = true := by
  have hDrop := oneSentence_dropWhile h
  obtain ⟨t, ht⟩ := List.rdropWhile_prefix isSpace (s.dropWhile isSpace)
  rw [← ht] at hDrop
  exact oneSentence_prefix hDrop

/-- A single sentence is not split again. -/
theorem length_splitSentences_of_oneSentence {s : Str} (h : oneSentence false s = true) :
    (splitSentences s).length < 2 := by
  rw [splitSentences, splitAfterStop_of_oneSentence (oneSentence_strip h)]
  refine Nat.lt_succ_of_le ((List.length_filter_le _ _).trans ?_)
  simp

theorem oneSentence_of_mem_splitSentences {s p : Str} (h : p ∈ splitSentences s) :
    oneSentence false p = true := by
  obtain ⟨hp, _⟩ := List.mem_filter.mp h
  obtain ⟨q, hq, rfl⟩ := List.mem_map.mp hp
  cases hParts : splitAfterStop false false (strip s) with
  | nil =>
      rw [hParts] at hq
      cases hq
  | cons r rs =>
      rw [hParts] at hq
      obtain ⟨hr, hrs⟩ := oneSentence_of_splitAfterStop hParts
      cases hq with
      | head => exact oneSentence_strip hr
      | tail _ hq => exact oneSentence_strip (hrs q hq)

/-- The text without its whitespace. -/
def squeeze (s : Str) : Str := s.filter fun c => !isSpace c

theorem squeeze_append (s t : Str) : squeeze (s ++ t) = squeeze s ++ squeeze t := by
  rw [squeeze, List.filter_append]
  rfl

theorem squeeze_rstrip (s : Str) : squeeze (rstrip s) = squeeze s := by
  induction s using List.reverseRecOn with
  | nil => rfl
  | append_singleton s c ih =>
      rw [rstrip]
      by_cases hc : isSpace c = true
      · rw [List.rdropWhile_concat_pos _ _ _ hc, squeeze_append]
        simpa [squeeze, hc, rstrip] using ih
      · rw [List.rdropWhile_concat_neg _ _ _ hc]

theorem squeeze_lstrip (s : Str) : squeeze (lstrip s) = squeeze s := by
  induction s with
  | nil => rfl
  | cons c s ih =>
      rw [lstrip]
      by_cases hc : isSpace c = true
      · rw [List.dropWhile_cons_of_pos hc]
        simpa [squeeze, hc, lstrip] using ih
      · rw [List.dropWhile_cons_of_neg hc]

theorem squeeze_strip (s : Str) : squeeze (strip s) = squeeze s := by
  rw [strip, squeeze_rstrip, squeeze_lstrip]

theorem squeeze_consHead (c : Char) (parts : List Str) :
    squeeze (consHead c parts).flatten = squeeze (c :: parts.flatten) := by
  cases parts with
  | nil => rfl
  | cons p ps => rfl

theorem squeeze_splitAfterStop (inGap afterStop : Bool) (s : Str) :
    squeeze (splitAfterStop inGap afterStop s).flatten = squeeze s := by
  induction s generalizing inGap afterStop with
  | nil => rfl
  | cons c s ih =>
      rw [splitAfterStop]
      split_ifs with hc hGap hStop
      · simpa [squeeze, hc] using ih true false
      · simpa [squeeze, hc] using ih true false
      · rw [squeeze_consHead]
        simpa [squeeze, hc] using ih false false
      · rw [squeeze_consHead]
        simpa [squeeze, hc] using ih false (isStop c)

theorem squeeze_strip_parts (parts : List Str) :
    squeeze ((parts.map strip).filter (· ≠ [])).flatten = squeeze parts.flatten := by
  induction parts with
  | nil => rfl
  | cons p ps ih =>
      rw [List.flatten_cons, squeeze_append, ← ih, ← squeeze_strip p, List.map_cons]
      by_cases hp : strip p = []
      · simp [hp, squeeze]
      · simp [hp, squeeze_append]

/-- The sentences are the text up to whitespace. -/
theorem squeeze_splitSentences (s : Str) : squeeze (splitSentences s).flatten = squeeze s := by
  rw [splitSentences, squeeze_strip_parts, squeeze_splitAfterStop, squeeze_strip]

/-- Non-empty, without line boundaries and without whitespace at either end. -/
structure Trimmed (s : Str) : Prop where
  ne_nil : s ≠ []
  lstrip_eq : s.dropWhile isSpace = s
  last : ∀ h : s ≠ [], isSpace (s.getLast h) = false
  free : ∀ c ∈ s, isLineBreak c = false

theorem trimmed_strip {s : Str} (hne : strip s ≠ []) (hFree : ∀ c ∈ s, isLineBreak c = false) :
    Trimmed (strip s) where
  ne_nil := hne
  lstrip_eq := lstrip_strip s
  last h := by
    rw [← Bool.not_eq_true]
    exact List.rdropWhile_last_not isSpace (lstrip s) h
  free c hc := hFree c ((strip_isInfix s).subset hc)

theorem mem_splitAfterStop_subset {inGap afterStop : Bool} {s p : Str}
    (hp : p ∈ splitAfterStop inGap afterStop s) : ∀ c ∈ p, c ∈ s := by
  induction s generalizing inGap afterStop p with
  | nil =>
      rw [splitAfterStop, List.mem_singleton] at hp
      simp [hp]
  | cons c s ih =>
      have hHead {gap stop : Bool} (hs : p ∈ consHead c (splitAfterStop gap stop s)) :
          ∀ d ∈ p, d ∈ c :: s := by
        cases hParts : splitAfterStop gap stop s with
        | nil =>
            rw [hParts, consHead, List.mem_singleton] at hs
            simp [hs]
        | cons r rs =>
            have hSub {q : Str} (hq : q ∈ r :: rs) : ∀ d ∈ q, d ∈ s := ih (hParts ▸ hq)
            rw [hParts, consHead] at hs
            cases hs with
            | head =>
                intro d hd
                cases hd with
                | head => exact List.mem_cons_self
                | tail _ hd => exact List.mem_cons_of_mem c (hSub List.mem_cons_self d hd)
            | tail _ hs =>
                intro d hd
                exact List.mem_cons_of_mem c (hSub (List.mem_cons_of_mem r hs) d hd)
      rw [splitAfterStop] at hp
      split_ifs at hp
      · exact fun d hd => List.mem_cons_of_mem c (ih hp d hd)
      · cases hp with
        | head => simp
        | tail _ hp => exact fun d hd => List.mem_cons_of_mem c (ih hp d hd)
      · exact hHead hp
      · exact hHead hp

theorem trimmed_of_mem_splitSentences {s p : Str} (hp : p ∈ splitSentences s)
    (hFree : ∀ c ∈ s, isLineBreak c = false) : Trimmed p := by
  obtain ⟨hp, hne⟩ := List.mem_filter.mp hp
  obtain ⟨q, hq, rfl⟩ := List.mem_map.mp hp
  apply trimmed_strip (by simpa using hne)
  intro c hc
  exact hFree c ((strip_isInfix s).subset (mem_splitAfterStop_subset hq c hc))

end Plumber.SplitLargeBlocks
