import MatrycaPlumber.Text.Substitution

/-! The regular expressions of `re` that repeat single characters only: which ends a pattern has
at a place, in the order in which backtracking tries them, and what `re.sub` leaves of a text. -/
namespace PyText

inductive Pattern where
  /-- A literal, compared after folding the characters of the text. -/
  | text (fold : Char → Char) (p : Str)
  /-- `[..]{least,most}`, as many as possible. -/
  | run (cls : Char → Bool) (least : ℕ) (most : Option ℕ)
  | boundary
  /-- `(?!p)`. -/
  | notAhead (p : Pattern)
  | seq (p q : Pattern)
  | either (p q : Pattern)

/-- Whether the character at the front of a text is one of `\w`. -/
def headIs (word : Char → Bool) : Str → Bool
  | [] => false
  | c :: _ => word c

/-- `\b` between the text before a place, read backwards, and the text at the place. -/
def isBoundary (word : Char → Bool) (before s : Str) : Bool := headIs word before != headIs word s

/-- The lengths from `n` down to `least`. -/
def countDown (least n : ℕ) : List ℕ := (List.range (n + 1 - least)).reverse.map (least + ·)

/-- The lengths of the matches at a place, the preferred one first. -/
def lengths (word : Char → Bool) : Pattern → Str → Str → List ℕ
  | .text fold p, _, s => if (s.take p.length).map fold = p then [p.length] else []
  | .run cls least most, _, s =>
      let longest := (s.takeWhile cls).length
      countDown least (match most with
        | none => longest
        | some n => min longest n)
  | .boundary, before, s => if isBoundary word before s then [0] else []
  | .notAhead p, before, s => if (lengths word p before s).isEmpty then [0] else []
  | .seq p q, before, s =>
      (lengths word p before s).flatMap fun n =>
        (lengths word q ((s.take n).reverse ++ before) (s.drop n)).map (n + ·)
  | .either p q, before, s => lengths word p before s ++ lengths word q before s

def searchFrom (word : Char → Bool) (p : Pattern) : Str → Str → Bool
  | before, [] => !(lengths word p before []).isEmpty
  | before, c :: s => !(lengths word p before (c :: s)).isEmpty || searchFrom word p (c :: before) s

/-- `bool(p.search(s))`. -/
def search (word : Char → Bool) (p : Pattern) (s : Str) : Bool := searchFrom word p [] s

/-- What `p.sub(repl, ..)` does at a place, for a text without references to groups. -/
def finder (word : Char → Bool) (p : Pattern) (repl : Str) : Matcher :=
  fun before s => (lengths word p before s).head?.map (·, repl)

/-- A pattern can match the text `m` between two others. -/
def Matches (word : Char → Bool) (p : Pattern) (before m after : Str) : Prop :=
  m.length ∈ lengths word p before (m ++ after)

variable {word : Char → Bool} {p q : Pattern} {before m after s : Str}

section Lengths

variable {fold : Char → Char} {t : Str} {cls : Char → Bool} {least : ℕ} {most : Option ℕ}

theorem lengths_text : lengths word (.text fold t) before s =
    if (s.take t.length).map fold = t then [t.length] else [] := rfl

theorem lengths_run : lengths word (.run cls least most) before s =
    countDown least (match most with
      | none => (s.takeWhile cls).length
      | some n => min (s.takeWhile cls).length n) := rfl

theorem lengths_boundary : lengths word .boundary before s =
    if isBoundary word before s then [0] else [] := rfl

theorem lengths_notAhead : lengths word (.notAhead p) before s =
    if (lengths word p before s).isEmpty then [0] else [] := rfl

theorem lengths_seq : lengths word (.seq p q) before s =
    (lengths word p before s).flatMap fun n =>
      (lengths word q ((s.take n).reverse ++ before) (s.drop n)).map (n + ·) := rfl

theorem lengths_either : lengths word (.either p q) before s =
    lengths word p before s ++ lengths word q before s := rfl

end Lengths

theorem mem_countDown {least n k : ℕ} : k ∈ countDown least n ↔ least ≤ k ∧ k ≤ n := by
  rw [countDown, List.mem_map]
  constructor
  · rintro ⟨i, hI, rfl⟩
    rw [List.mem_reverse, List.mem_range] at hI
    omega
  · rintro ⟨hLeast, hMost⟩
    refine ⟨k - least, ?_, by omega⟩
    rw [List.mem_reverse, List.mem_range]
    omega

theorem length_le_of_mem_lengths {n : ℕ} (h : n ∈ lengths word p before s) : n ≤ s.length := by
  induction p generalizing before s n with
  | text fold p =>
      rw [lengths_text] at h
      split_ifs at h with hText
      · rw [List.mem_singleton] at h
        have hLength := congrArg List.length hText
        rw [List.length_map, List.length_take] at hLength
        omega
      · cases h
  | run cls least most =>
      have hRun := (List.takeWhile_prefix cls (l := s)).length_le
      simp only [lengths_run, mem_countDown] at h
      cases most with
      | none => exact h.2.trans hRun
      | some most => exact (h.2.trans (min_le_left _ _)).trans hRun
  | boundary =>
      rw [lengths_boundary] at h
      split_ifs at h
      · rw [List.mem_singleton.mp h]
        exact Nat.zero_le _
      · cases h
  | notAhead p =>
      rw [lengths_notAhead] at h
      split_ifs at h
      · rw [List.mem_singleton.mp h]
        exact Nat.zero_le _
      · cases h
  | seq p q hP hQ =>
      rw [lengths_seq, List.mem_flatMap] at h
      obtain ⟨i, hI, hN⟩ := h
      obtain ⟨j, hJ, rfl⟩ := List.mem_map.mp hN
      have hFirst := hP hI
      have hSecond := hQ hJ
      rw [List.length_drop] at hSecond
      omega
  | either p q hP hQ =>
      rw [lengths_either, List.mem_append] at h
      exact h.elim hP hQ

/-- Every match is one of a text at the place. -/
theorem exists_matches {n : ℕ} (h : n ∈ lengths word p before s) :
    ∃ m after, s = m ++ after ∧ m.length = n ∧ Matches word p before m after := by
  have hLength : (s.take n).length = n := List.length_take_of_le (length_le_of_mem_lengths h)
  refine ⟨s.take n, s.drop n, (List.take_append_drop n s).symm, hLength, ?_⟩
  rw [Matches, hLength, List.take_append_drop]
  exact h

theorem matches_text {fold : Char → Char} {t : Str} :
    Matches word (.text fold t) before m after ↔ m.map fold = t := by
  rw [Matches, lengths_text]
  constructor
  · intro h
    split_ifs at h with hText
    · rw [← List.mem_singleton.mp h, List.take_left] at hText
      rw [hText]
    · cases h
  · rintro rfl
    rw [List.length_map, List.take_left, if_pos rfl]
    exact List.mem_singleton_self _

/-- A run is matched by characters of its class, neither too few nor too many. -/
theorem matches_run {cls : Char → Bool} {least : ℕ} {most : Option ℕ} :
    Matches word (.run cls least most) before m after ↔
      (∀ c ∈ m, cls c = true) ∧ least ≤ m.length ∧ ∀ n, most = some n → m.length ≤ n := by
  have hRun : m.length ≤ ((m ++ after).takeWhile cls).length ↔ ∀ c ∈ m, cls c = true := by
    constructor
    · intro h c hMem
      have hPrefix : m <+: (m ++ after).takeWhile cls :=
        List.prefix_of_prefix_length_le (List.prefix_append m after) (List.takeWhile_prefix cls) h
      exact List.mem_takeWhile_imp (hPrefix.subset hMem)
    · intro h
      rw [List.takeWhile_append_of_pos h, List.length_append]
      exact Nat.le_add_right _ _
  rw [Matches]
  simp only [lengths_run, mem_countDown]
  cases most with
  | none =>
      rw [hRun]
      simp [and_comm]
  | some n =>
      dsimp only
      rw [Nat.le_min, hRun]
      simp only [Option.some.injEq, forall_eq']
      tauto

theorem matches_boundary :
    Matches word .boundary before m after ↔ m = [] ∧ isBoundary word before after = true := by
  rw [Matches, lengths_boundary]
  constructor
  · intro h
    split_ifs at h with hBoundary
    · have hNil : m = [] := List.length_eq_zero_iff.mp (List.mem_singleton.mp h)
      rw [hNil] at hBoundary
      exact ⟨hNil, hBoundary⟩
    · cases h
  · rintro ⟨rfl, h⟩
    rw [List.nil_append, if_pos h]
    exact List.mem_singleton_self _

theorem matches_notAhead :
    Matches word (.notAhead p) before m after ↔ m = [] ∧ lengths word p before after = [] := by
  rw [Matches, lengths_notAhead]
  constructor
  · intro h
    split_ifs at h with hNone
    · have hNil : m = [] := List.length_eq_zero_iff.mp (List.mem_singleton.mp h)
      rw [hNil, List.isEmpty_iff] at hNone
      exact ⟨hNil, hNone⟩
    · cases h
  · rintro ⟨rfl, h⟩
    rw [List.nil_append, h]
    exact List.mem_singleton_self _

theorem matches_seq :
    Matches word (.seq p q) before m after ↔
      ∃ u v, m = u ++ v ∧ Matches word p before u (v ++ after) ∧
        Matches word q (u.reverse ++ before) v after := by
  rw [Matches, lengths_seq, List.mem_flatMap]
  constructor
  · rintro ⟨n, hN, hM⟩
    obtain ⟨k, hK, hLength⟩ := List.mem_map.mp hM
    have hU : (m.take n).length = n := List.length_take_of_le (by omega)
    have hV : (m.drop n).length = k := by
      rw [List.length_drop]
      omega
    have hTake : (m ++ after).take n = m.take n := List.take_append_of_le_length (by omega)
    have hDrop : (m ++ after).drop n = m.drop n ++ after :=
      List.drop_append_of_le_length (by omega)
    refine ⟨m.take n, m.drop n, (List.take_append_drop n m).symm, ?_, ?_⟩
    · rw [Matches, hU, ← List.append_assoc, List.take_append_drop]
      exact hN
    · rw [Matches, hV, ← hTake, ← hDrop]
      exact hK
  · rintro ⟨u, v, rfl, hU, hV⟩
    rw [List.append_assoc]
    refine ⟨u.length, hU, List.mem_map.mpr ⟨v.length, ?_, List.length_append.symm⟩⟩
    rw [List.take_left, List.drop_left]
    exact hV

theorem matches_either :
    Matches word (.either p q) before m after ↔
      Matches word p before m after ∨ Matches word q before m after := by
  rw [Matches, lengths_either, List.mem_append]
  rfl

/-- The match that backtracking finds first. -/
def Prefers (word : Char → Bool) (p : Pattern) (before m after : Str) : Prop :=
  (lengths word p before (m ++ after)).head? = some m.length

theorem exists_of_head?_flatMap {α β : Type} {f : α → List β} {l : List α} {b : β}
    (h : (l.flatMap f).head? = some b) : ∃ a ∈ l, (f a).head? = some b := by
  induction l with
  | nil => cases h
  | cons a l ih =>
      rw [List.flatMap_cons] at h
      cases hA : f a with
      | nil =>
          rw [hA, List.nil_append] at h
          obtain ⟨a', hMem, hHead⟩ := ih h
          exact ⟨a', List.mem_cons_of_mem _ hMem, hHead⟩
      | cons b' l' =>
          rw [hA] at h
          exact ⟨a, List.mem_cons_self, by rw [hA]; exact h⟩

theorem exists_prefers {n : ℕ} (h : (lengths word p before s).head? = some n) :
    ∃ m after, s = m ++ after ∧ m.length = n ∧ Prefers word p before m after := by
  have hLength : (s.take n).length = n :=
    List.length_take_of_le (length_le_of_mem_lengths (List.mem_of_head? h))
  refine ⟨s.take n, s.drop n, (List.take_append_drop n s).symm, hLength, ?_⟩
  rw [Prefers, hLength, List.take_append_drop]
  exact h

/-- The second of two patterns is matched as it prefers to be. -/
theorem exists_prefers_of_seq (h : Prefers word (.seq p q) before m after) :
    ∃ u v, m = u ++ v ∧ Matches word p before u (v ++ after) ∧
      Prefers word q (u.reverse ++ before) v after := by
  rw [Prefers, lengths_seq] at h
  obtain ⟨n, hN, hHead⟩ := exists_of_head?_flatMap h
  rw [List.head?_map, Option.map_eq_some_iff] at hHead
  obtain ⟨k, hK, hLength⟩ := hHead
  have hTake : (m ++ after).take n = m.take n := List.take_append_of_le_length (by omega)
  have hDrop : (m ++ after).drop n = m.drop n ++ after :=
    List.drop_append_of_le_length (by omega)
  have hU : (m.take n).length = n := List.length_take_of_le (by omega)
  have hV : (m.drop n).length = k := by
    rw [List.length_drop]
    omega
  refine ⟨m.take n, m.drop n, (List.take_append_drop n m).symm, ?_, ?_⟩
  · rw [Matches, hU, ← List.append_assoc, List.take_append_drop]
    exact hN
  · rw [Prefers, hV, ← hTake, ← hDrop]
    exact hK

/-- A run without an upper bound takes everything it can. -/
theorem headIs_eq_false_of_prefers {cls : Char → Bool} {least : ℕ}
    (h : Prefers word (.run cls least none) before m after) : headIs cls after = false := by
  have hAll : ∀ c ∈ m, cls c = true := (matches_run.mp (List.mem_of_head? h)).1
  have hLeast : least ≤ m.length := (matches_run.mp (List.mem_of_head? h)).2.1
  rw [Prefers] at h
  simp only [lengths_run, countDown] at h
  rw [List.takeWhile_append_of_pos hAll, List.head?_map, List.head?_reverse,
    List.getLast?_range] at h
  rw [List.length_append] at h
  cases after with
  | nil => rfl
  | cons c after =>
      rw [headIs]
      cases hC : cls c with
      | false => rfl
      | true =>
          rw [List.takeWhile_cons_of_pos hC, List.length_cons, if_neg (by omega),
            Option.map_some, Option.some.injEq] at h
          omega

theorem searchFrom_eq_false :
    searchFrom word p before s = false ↔
      ∀ a b, s = a ++ b → lengths word p (a.reverse ++ before) b = [] := by
  induction s generalizing before with
  | nil =>
      rw [searchFrom, Bool.not_eq_false', List.isEmpty_iff]
      constructor
      · intro h a b hAB
        obtain ⟨rfl, rfl⟩ := List.append_eq_nil_iff.mp hAB.symm
        exact h
      · intro h
        exact h [] [] rfl
  | cons c s ih =>
      rw [searchFrom, Bool.or_eq_false_iff, Bool.not_eq_false', List.isEmpty_iff, ih]
      constructor
      · rintro ⟨hHere, hRest⟩ a b hAB
        cases a with
        | nil =>
            rw [List.nil_append] at hAB
            subst hAB
            exact hHere
        | cons d a =>
            obtain ⟨rfl, rfl⟩ := List.cons.inj hAB
            rw [List.reverse_cons, List.append_assoc]
            exact hRest a b rfl
      · intro h
        refine ⟨h [] _ rfl, fun a b hAB => ?_⟩
        have := h (c :: a) b (by rw [hAB]; rfl)
        rwa [List.reverse_cons, List.append_assoc] at this

/-- A search finds nothing if the pattern has no match at any place. -/
theorem search_eq_false {t : Str} :
    search word p t = false ↔ ∀ a b, t = a ++ b → lengths word p a.reverse b = [] := by
  rw [search, searchFrom_eq_false]
  simp only [List.append_nil]

theorem lengths_eq_nil :
    lengths word p before s = [] ↔ ∀ m after, s = m ++ after → ¬Matches word p before m after := by
  rw [List.eq_nil_iff_forall_not_mem]
  constructor
  · rintro h m after rfl hMatch
    exact h _ hMatch
  · intro h n hN
    obtain ⟨m, after, hS, -, hMatch⟩ := exists_matches hN
    exact h m after hS hMatch

theorem finder_eq_none {repl : Str} :
    finder word p repl before s = none ↔ lengths word p before s = [] := by
  rw [finder, Option.map_eq_none_iff, List.head?_eq_none_iff]

theorem finder_eq_some {repl repl' : Str} {n : ℕ}
    (h : finder word p repl before s = some (n, repl')) :
    (lengths word p before s).head? = some n ∧ repl' = repl := by
  rw [finder, Option.map_eq_some_iff] at h
  obtain ⟨k, hHead, hEq⟩ := h
  cases hEq
  exact ⟨hHead, rfl⟩

/-- What a substitution makes of a text: from left to right, every match is replaced, and the
characters at which no match starts are kept. -/
inductive Rewritten (find : Matcher) : Str → Str → Str → Prop where
  | nil (before : Str) : Rewritten find before [] []
  | keep {before s out : Str} {c : Char} (hNone : find before (c :: s) = none)
      (hRest : Rewritten find (c :: before) s out) : Rewritten find before (c :: s) (c :: out)
  | replace {before m repl s out : Str} (hNe : m ≠ [])
      (hFound : find before (m ++ s) = some (m.length, repl))
      (hRest : Rewritten find (m.reverse ++ before) s out) :
      Rewritten find before (m ++ s) (repl ++ out)

theorem subFrom_skip {find : Matcher} (before m s : Str) :
    subFrom find before m.length (m ++ s) = subFrom find (m.reverse ++ before) 0 s := by
  induction m generalizing before with
  | nil => rfl
  | cons c m ih =>
      rw [List.length_cons, List.cons_append, subFrom, ih, List.reverse_cons, List.append_assoc]
      rfl

theorem rewritten_subFrom {find : Matcher}
    (hFind : ∀ before s n repl, find before s = some (n, repl) → 0 < n ∧ n ≤ s.length)
    (before s : Str) : Rewritten find before s (subFrom find before 0 s) := by
  induction hLength : s.length using Nat.strong_induction_on generalizing before s with
  | h k ih =>
      subst hLength
      cases s with
      | nil => exact .nil before
      | cons c s =>
          rw [subFrom_cons]
          split
          · next hNone => exact .keep hNone (ih s.length (Nat.lt_succ_self _) _ s rfl)
          · next repl hFound => exact absurd (hFind _ _ _ _ hFound).1 (Nat.lt_irrefl 0)
          · next len repl hFound =>
              have hLen : len ≤ s.length := Nat.le_of_succ_le_succ (hFind _ _ _ _ hFound).2
              have hTake : (s.take len).length = len := List.length_take_of_le hLen
              -- the text of the match, and the text behind it
              obtain ⟨m, rest, rfl, rfl⟩ : ∃ m rest, s = m ++ rest ∧ m.length = len :=
                ⟨s.take len, s.drop len, (List.take_append_drop len s).symm, hTake⟩
              rw [subFrom_skip]
              have hRest := ih rest.length
                (by rw [List.length_cons, List.length_append]; omega) (m.reverse ++ c :: before)
                rest rfl
              refine Rewritten.replace (m := c :: m) (List.cons_ne_nil c m) hFound ?_
              rw [List.reverse_cons, List.append_assoc]
              exact hRest

/-- The result of a substitution whose matches are never empty. -/
theorem rewritten_sub {find : Matcher}
    (hFind : ∀ before s n repl, find before s = some (n, repl) → 0 < n ∧ n ≤ s.length)
    (s : Str) : Rewritten find [] s (sub find s) :=
  rewritten_subFrom hFind [] s

/-- Where nothing is found, nothing is changed. -/
theorem Rewritten.eq_self {find : Matcher} {before s out : Str} (h : Rewritten find before s out)
    (hNone : ∀ a b, s = a ++ b → find (a.reverse ++ before) b = none) : out = s := by
  induction h with
  | nil => rfl
  | @keep before s out c _ _ ih =>
      rw [ih]
      intro a b hAB
      have := hNone (c :: a) b (by rw [hAB]; rfl)
      rwa [List.reverse_cons, List.append_assoc] at this
  | replace _ hFound _ _ =>
      cases (hNone [] _ rfl).symm.trans hFound

end PyText
