import MatrycaPlumber.Text.PercentCoding
import MatrycaPlumber.Text.Searching
import MatrycaPlumber.Text.Stripping

/-! Page titles and the file names they are stored under. -/
namespace Plumber.PagePath

open PyText

section Model

/-- `s.removesuffix(suffix)`. -/
def removeSuffix (suffix s : Str) : Str :=
  if endsWith suffix s then s.take (s.length - suffix.length) else s

/-- `s.split("/")`. -/
def splitSlash : Str → List Str
  | [] => [[]]
  | c :: s =>
      if c = '/' then [] :: splitSlash s
      else
        match splitSlash s with
        | [] => [[c]]
        | part :: parts => (c :: part) :: parts

/-- A `PurePosixPath`: its root, and its components without those that say nothing. -/
structure PurePath where
  root : Str
  tail : List Str

def PurePath.ofText (s : Str) : PurePath where
  root :=
    if startsWith "//".toList s ∧ ¬startsWith "///".toList s then "//".toList
    else if startsWith ['/'] s then ['/']
    else []
  tail := (splitSlash s).filter fun part => part ≠ [] ∧ part ≠ ['.']

def PurePath.name (path : PurePath) : Str := path.tail.getLast?.getD []

def PurePath.parts (path : PurePath) : List Str :=
  if path.root = [] then path.tail else path.root :: path.tail

def PurePath.asPosix (path : PurePath) : Str :=
  if path.parts = [] then ['.'] else path.root ++ join ['/'] path.tail

/-- `_LOGSEQ_FILENAME_ENCODE_CHARS`. -/
def logseqFilenameEncodeChars : List Char := "?#%<>|\\\":*".toList

def filenameToPageTitle (filename : Str) : Str :=
  let raw := strip (replaceAll ['\\'] ['/'] filename)
  let stem := removeSuffix ".md".toList (PurePath.ofText raw).name
  replaceAll "___".toList ['/'] (unquote stem)

def pageTitleToFilename (title : Str) : Str :=
  let stem := removeSuffix ".md".toList (replaceAll ['\\'] ['/'] (strip title))
  let safe := replaceAll ['/'] "___".toList stem
  quoteReserved logseqFilenameEncodeChars safe ++ ".md".toList

def pageTitleFromGraphRelpath (relpath : Str) : Str :=
  let rel := PurePath.ofText (replaceAll ['\\'] ['/'] relpath)
  let rel : PurePath :=
    match rel.parts with
    | first :: rest =>
        if first = "pages".toList ∨ first = "journals".toList then ⟨[], rest⟩ else rel
    | [] => rel
  let stem := if rel.parts = [] then [] else removeSuffix ".md".toList rel.asPosix
  replaceAll "___".toList ['/'] stem

end Model

example : pageTitleToFilename "FAQ/What is AI?".toList = "FAQ___What is AI%3F.md".toList := by
  decide

/-- The titles that the correspondence is about. -/
structure PlainTitle (title : Str) : Prop where
  backslash : '\\' ∉ title
  triple : ¬"___".toList <:+: title
  stripped : strip title = title
  suffix : endsWith ".md".toList title = false

section Replacing

variable {s t : Str} {c : Char}

theorem replaceAll_char (c : Char) (repl s : Str) :
    replaceAll [c] repl s = s.flatMap fun d => if d = c then repl else [d] := by
  rw [replaceAll, if_neg (by simp), List.append_nil]
  induction s with
  | nil => rfl
  | cons d s ih =>
      rw [replaceFrom, if_neg (by simp), List.flatMap_cons]
      by_cases hd : d = c
      · rw [if_pos (by simp [startsWith, dropPrefix?, hd]), if_pos hd]
        exact congrArg _ ih
      · rw [if_neg (by simp [startsWith, dropPrefix?, Ne.symm hd]), if_neg hd, ih]
        rfl

theorem replaceAll_of_notMem {repl : Str} (h : c ∉ s) : replaceAll [c] repl s = s := by
  rw [replaceAll_char]
  induction s with
  | nil => rfl
  | cons d s ih =>
      rw [List.mem_cons, not_or] at h
      rw [List.flatMap_cons, if_neg (Ne.symm h.1), ih h.2]
      rfl

/-- Three underscores for each slash. -/
def expand (s : Str) : Str := s.flatMap fun c => if c = '/' then "___".toList else [c]

/-- A slash for three underscores, from the left. -/
def collapse : Str → Str
  | '_' :: '_' :: '_' :: s => '/' :: collapse s
  | c :: s => c :: collapse s
  | [] => []

theorem collapse_cons (hc : c ≠ '_') (s : Str) : collapse (c :: s) = c :: collapse s := by
  rw [collapse]
  rintro _ rfl
  exact absurd rfl hc

theorem collapse_one (hc : c ≠ '_') (s : Str) :
    collapse ('_' :: c :: s) = '_' :: c :: collapse s := by
  rw [collapse, collapse_cons hc]
  rintro _ _ hEq
  exact hc (List.cons.inj hEq).1

theorem collapse_two (hc : c ≠ '_') (s : Str) :
    collapse ('_' :: '_' :: c :: s) = '_' :: '_' :: c :: collapse s := by
  rw [collapse, collapse_one hc]
  rintro _ _ hEq
  exact hc (List.cons.inj (List.cons.inj hEq).2).1

/-- Every text is read by runs of underscores. -/
theorem underscoreRuns {P : Str → Prop} (nil : P []) (one : P ['_']) (two : P ['_', '_'])
    (triple : ∀ s, P s → P ('_' :: '_' :: '_' :: s)) (other : ∀ c s, c ≠ '_' → P s → P (c :: s))
    (oneOther : ∀ c s, c ≠ '_' → P s → P ('_' :: c :: s))
    (twoOther : ∀ c s, c ≠ '_' → P s → P ('_' :: '_' :: c :: s)) (s : Str) : P s := by
  induction hLength : s.length using Nat.strong_induction_on generalizing s with
  | _ n ih =>
      subst hLength
      match s with
      | [] => exact nil
      | c :: s =>
          by_cases hc : c = '_'
          · subst hc
            match s with
            | [] => exact one
            | c :: s =>
                by_cases hc : c = '_'
                · subst hc
                  match s with
                  | [] => exact two
                  | c :: s =>
                      have hRest := ih s.length (by simp only [List.length_cons]; omega) s rfl
                      by_cases hc : c = '_'
                      · subst hc
                        exact triple s hRest
                      · exact twoOther c s hc hRest
                · exact oneOther c s hc (ih s.length (by simp only [List.length_cons]; omega) s rfl)
          · exact other c s hc (ih s.length (by simp only [List.length_cons]; omega) s rfl)

theorem replaceFrom_skip {u repl : Str} (hu : startsWith u s = false) (hNe : u ≠ [])
    (hs : s ≠ []) : replaceFrom u repl 0 s = s.headI :: replaceFrom u repl 0 s.tail := by
  cases s with
  | nil => exact absurd rfl hs
  | cons c s =>
      rw [replaceFrom, if_neg hNe, if_neg (by simp [hu])]
      rfl

theorem replaceAll_triple (s : Str) : replaceAll "___".toList ['/'] s = collapse s := by
  rw [replaceAll, if_neg (by decide), List.append_nil]
  have hOther (c : Char) (s : Str) (hc : c ≠ '_') :
      startsWith "___".toList (c :: s) = false := by
    simp [startsWith, dropPrefix?, Ne.symm hc]
  have hOneOther (c : Char) (s : Str) (hc : c ≠ '_') :
      startsWith "___".toList ('_' :: c :: s) = false := by
    simp [startsWith, dropPrefix?, Ne.symm hc]
  have hTwoOther (c : Char) (s : Str) (hc : c ≠ '_') :
      startsWith "___".toList ('_' :: '_' :: c :: s) = false := by
    simp [startsWith, dropPrefix?, Ne.symm hc]
  induction s using underscoreRuns with
  | nil => rfl
  | one => decide
  | two => decide
  | triple s ih =>
      rw [replaceFrom, if_neg (by decide), if_pos (by simp [startsWith, dropPrefix?]), collapse]
      exact congrArg _ ih
  | other c s hc ih =>
      rw [replaceFrom_skip (hOther c s hc) (by decide) (List.cons_ne_nil c s), collapse_cons hc]
      exact congrArg _ ih
  | oneOther c s hc ih =>
      rw [replaceFrom_skip (hOneOther c s hc) (by decide) (List.cons_ne_nil _ _), List.tail_cons,
        replaceFrom_skip (hOther c s hc) (by decide) (List.cons_ne_nil c s), collapse_one hc]
      exact congrArg (fun rest => '_' :: c :: rest) ih
  | twoOther c s hc ih =>
      rw [replaceFrom_skip (hTwoOther c s hc) (by decide) (List.cons_ne_nil _ _), List.tail_cons,
        replaceFrom_skip (hOneOther c s hc) (by decide) (List.cons_ne_nil _ _), List.tail_cons,
        replaceFrom_skip (hOther c s hc) (by decide) (List.cons_ne_nil c s), collapse_two hc]
      exact congrArg (fun rest => '_' :: '_' :: c :: rest) ih

theorem expand_cons (c : Char) (s : Str) :
    expand (c :: s) = (if c = '/' then "___".toList else [c]) ++ expand s :=
  List.flatMap_cons

theorem expand_cons_of_ne (hc : c ≠ '/') (s : Str) : expand (c :: s) = c :: expand s := by
  rw [expand_cons, if_neg hc, List.singleton_append]

theorem mem_expand {d : Char} (h : d ∈ expand s) : d ≠ '/' ∧ (d = '_' ∨ d ∈ s) := by
  obtain ⟨c, hc, hd⟩ := List.mem_flatMap.mp h
  split_ifs at hd with hSlash
  · have : d = '_' := by simpa using hd
    exact ⟨by rw [this]; decide, Or.inl this⟩
  · rw [List.mem_singleton] at hd
    exact ⟨by rwa [hd], Or.inr (by rwa [hd])⟩

theorem mem_collapse {d : Char} (h : d ∈ collapse s) : d = '/' ∨ d ∈ s := by
  fun_induction collapse s with
  | case1 s ih =>
      rcases List.mem_cons.mp h with rfl | hd
      · exact Or.inl rfl
      · rcases ih hd with hSlash | hs
        · exact Or.inl hSlash
        · exact Or.inr (by simp [hs])
  | case2 c s _ ih =>
      rcases List.mem_cons.mp h with rfl | hd
      · exact Or.inr List.mem_cons_self
      · exact (ih hd).imp_right (List.mem_cons_of_mem c)
  | case3 => exact Or.inr h

theorem pair_cons {a b : Char} : [a, b] <:+: c :: s ↔ (c = a ∧ s.head? = some b) ∨ [a, b] <:+: s := by
  rw [List.infix_cons_iff]
  apply or_congr_left
  cases s with
  | nil => simp
  | cons d s => simp [List.cons_prefix_cons, eq_comm]

theorem expand_collapse (h : '/' ∉ s) : expand (collapse s) = s := by
  have hTail {c : Char} {s : Str} (h : '/' ∉ c :: s) : '/' ∉ s :=
    fun hMem => h (List.mem_cons_of_mem c hMem)
  have hHead {c : Char} {s : Str} (h : '/' ∉ c :: s) : c ≠ '/' := by
    rintro rfl
    exact h List.mem_cons_self
  fun_induction collapse s with
  | case1 s ih => rw [expand_cons, if_pos rfl, ih (hTail (hTail (hTail h)))]; rfl
  | case2 c s _ ih => rw [expand_cons_of_ne (hHead h), ih (hTail h)]
  | case3 => rfl

theorem triple_head (s : Str) : "___".toList <:+: '_' :: '_' :: '_' :: s :=
  ⟨[], s, rfl⟩

/-- A slash comes back as a slash when no underscore stands in front of one. -/
theorem collapse_expand (hPair : ¬"_/".toList <:+: s) (hTriple : ¬"___".toList <:+: s) :
    collapse (expand s) = s := by
  have hTail {u : Str} {c : Char} {s : Str} (h : ¬u <:+: c :: s) : ¬u <:+: s :=
    fun hInfix => h (hInfix.trans (List.suffix_cons c s).isInfix)
  have hNoSlash {c : Char} {s : Str} (h : ¬"_/".toList <:+: '_' :: c :: s) : c ≠ '/' := by
    rintro rfl
    exact h ⟨[], s, rfl⟩
  induction s using underscoreRuns with
  | nil => rfl
  | one => decide
  | two => decide
  | triple s ih => exact absurd (triple_head s) hTriple
  | other c s hc ih =>
      rw [expand_cons]
      split_ifs with hSlash
      · show '/' :: collapse (expand s) = c :: s
        rw [ih (hTail hPair) (hTail hTriple), hSlash]
      · rw [List.singleton_append, collapse_cons hc, ih (hTail hPair) (hTail hTriple)]
  | oneOther c s hc ih =>
      rw [expand_cons_of_ne (by decide), expand_cons_of_ne (hNoSlash hPair), collapse_one hc,
        ih (hTail (hTail hPair)) (hTail (hTail hTriple))]
  | twoOther c s hc ih =>
      rw [expand_cons_of_ne (by decide), expand_cons_of_ne (by decide),
        expand_cons_of_ne (hNoSlash (hTail hPair)), collapse_two hc,
        ih (hTail (hTail (hTail hPair))) (hTail (hTail (hTail hTriple)))]

/-- Reading from the left never leaves an underscore in front of a slash. -/
theorem not_pair_collapse (h : '/' ∉ s) : ¬"_/".toList <:+: collapse s := by
  show ¬['_', '/'] <:+: collapse s
  have hTail {c : Char} {s : Str} (h : '/' ∉ c :: s) : '/' ∉ s :=
    fun hMem => h (List.mem_cons_of_mem c hMem)
  have hHead {c : Char} {s : Str} (h : '/' ∉ c :: s) : c ≠ '/' := by
    rintro rfl
    exact h List.mem_cons_self
  induction s using underscoreRuns with
  | nil => decide
  | one => decide
  | two => decide
  | triple s ih =>
      rw [collapse, pair_cons]
      exact not_or.mpr ⟨by simp, ih (hTail (hTail (hTail h)))⟩
  | other c s hc ih =>
      rw [collapse_cons hc, pair_cons]
      exact not_or.mpr ⟨by simp [hc], ih (hTail h)⟩
  | oneOther c s hc ih =>
      rw [collapse_one hc, pair_cons, pair_cons]
      exact not_or.mpr ⟨by simp [hHead (hTail h)], not_or.mpr ⟨by simp [hc], ih (hTail (hTail h))⟩⟩
  | twoOther c s hc ih =>
      rw [collapse_two hc, pair_cons, pair_cons, pair_cons]
      exact not_or.mpr ⟨by simp, not_or.mpr ⟨by simp [hHead (hTail (hTail h))],
        not_or.mpr ⟨by simp [hc], ih (hTail (hTail (hTail h)))⟩⟩⟩

theorem not_triple_collapse (s : Str) : ¬"___".toList <:+: collapse s := by
  show ¬['_', '_', '_'] <:+: collapse s
  induction s using underscoreRuns with
  | nil => decide
  | one => decide
  | two => decide
  | triple s ih =>
      rw [collapse, List.infix_cons_iff]
      exact not_or.mpr ⟨by simp [List.cons_prefix_cons], ih⟩
  | other c s hc ih =>
      rw [collapse_cons hc, List.infix_cons_iff]
      exact not_or.mpr ⟨by simp [List.cons_prefix_cons, Ne.symm hc], ih⟩
  | oneOther c s hc ih =>
      rw [collapse_one hc, List.infix_cons_iff, List.infix_cons_iff]
      exact not_or.mpr ⟨by simp [List.cons_prefix_cons, Ne.symm hc],
        not_or.mpr ⟨by simp [List.cons_prefix_cons, Ne.symm hc], ih⟩⟩
  | twoOther c s hc ih =>
      rw [collapse_two hc, List.infix_cons_iff, List.infix_cons_iff, List.infix_cons_iff]
      exact not_or.mpr ⟨by simp [List.cons_prefix_cons, Ne.symm hc],
        not_or.mpr ⟨by simp [List.cons_prefix_cons, Ne.symm hc],
        not_or.mpr ⟨by simp [List.cons_prefix_cons, Ne.symm hc], ih⟩⟩⟩

theorem collapse_expand_iff (hTriple : ¬"___".toList <:+: s) :
    collapse (expand s) = s ↔ ¬"_/".toList <:+: s := by
  refine ⟨fun hEq => ?_, fun hPair => collapse_expand hPair hTriple⟩
  rw [← hEq]
  exact not_pair_collapse fun hMem => (mem_expand hMem).1 rfl

end Replacing

section Ends

variable {s t x : Str} {c : Char}

/-- Only a slash changes where a title begins and ends. -/
theorem expand_eq_cons (hc : c ≠ '_') (h : expand s = c :: x) :
    ∃ r, s = c :: r := by
  cases s with
  | nil => cases h
  | cons d s =>
      rw [expand_cons] at h
      split_ifs at h
      · exact absurd (List.cons.inj h).1.symm hc
      · exact ⟨s, by rw [(List.cons.inj h).1]⟩

theorem expand_eq_concat (hc : c ≠ '_') (h : expand s = x ++ [c]) :
    ∃ r, s = r ++ [c] ∧ expand r = x := by
  induction s using List.reverseRecOn with
  | nil => simp [expand] at h
  | append_singleton r d _ =>
      rw [expand, List.flatMap_append, List.flatMap_singleton] at h
      split_ifs at h
      · have hLast := congrArg List.getLast? h
        simp only [List.getLast?_append, List.getLast?_singleton] at hLast
        exact absurd (Option.some.inj hLast).symm hc
      · obtain ⟨hBegin, hLast⟩ := List.append_inj' h rfl
        exact ⟨r, by rw [(List.cons.inj hLast).1], hBegin⟩

theorem expand_eq_concat_of_expand_eq (hc : c ≠ '_') (hSlash : c ≠ '/')
    (h : expand (s ++ [c]) = expand t) : ∃ r, t = r ++ [c] ∧ expand r = expand s := by
  apply expand_eq_concat hc
  rw [← h, expand, List.flatMap_append, List.flatMap_singleton, if_neg hSlash, expand]

theorem endsWith_of_expand_eq (h : expand s = expand t)
    (hEnds : endsWith ".md".toList s = true) : endsWith ".md".toList t = true := by
  obtain ⟨a, rfl⟩ := endsWith_iff.mp hEnds
  have hSplit : a ++ ".md".toList = a ++ ['.'] ++ ['m'] ++ ['d'] := by simp
  rw [hSplit] at h
  obtain ⟨t₁, rfl, h₁⟩ := expand_eq_concat_of_expand_eq (by decide) (by decide) h
  obtain ⟨t₂, rfl, h₂⟩ := expand_eq_concat_of_expand_eq (by decide) (by decide) h₁.symm
  obtain ⟨r, rfl, -⟩ := expand_eq_concat_of_expand_eq (by decide) (by decide) h₂.symm
  rw [endsWith_iff]
  exact ⟨r, by simp⟩

theorem strip_of_expand_eq (h : expand s = expand t) (hStrip : strip t = t) : strip s = s := by
  rw [strip_eq_self_iff] at hStrip ⊢
  have hPlain {c : Char} (hc : isSpace c = true) : c ≠ '_' ∧ c ≠ '/' := by
    constructor <;> rintro rfl <;> revert hc <;> decide
  constructor
  · rintro c r rfl
    by_contra hSpace
    rw [Bool.not_eq_false] at hSpace
    rw [expand_cons_of_ne (hPlain hSpace).2] at h
    obtain ⟨r', rfl⟩ := expand_eq_cons (hPlain hSpace).1 h.symm
    rw [hStrip.1 c r' rfl] at hSpace
    cases hSpace
  · rintro c r rfl
    by_contra hSpace
    rw [Bool.not_eq_false] at hSpace
    obtain ⟨r', rfl, -⟩ := expand_eq_concat_of_expand_eq (hPlain hSpace).1 (hPlain hSpace).2 h
    rw [hStrip.2 c r' rfl] at hSpace
    cases hSpace

/-- The title that takes the place of one with an underscore in front of a slash. -/
theorem plainTitle_collapse_expand (h : PlainTitle t) : PlainTitle (collapse (expand t)) := by
  have hSame : expand (collapse (expand t)) = expand t :=
    expand_collapse fun hMem => (mem_expand hMem).1 rfl
  refine ⟨?_, not_triple_collapse _, strip_of_expand_eq hSame h.stripped, ?_⟩
  · intro hMem
    rcases mem_collapse hMem with hEq | hMem
    · exact absurd hEq (by decide)
    · rcases (mem_expand hMem).2 with hEq | hMem
      · exact absurd hEq (by decide)
      · exact h.backslash hMem
  · rw [← Bool.not_eq_true]
    intro hEnds
    have := endsWith_of_expand_eq hSame hEnds
    rw [h.suffix] at this
    cases this

end Ends

section Names

variable {title other f s : Str}

theorem splitSlash_of_notMem (h : '/' ∉ s) : splitSlash s = [s] := by
  induction s with
  | nil => rfl
  | cons c s ih =>
      rw [List.mem_cons, not_or] at h
      rw [splitSlash, if_neg (Ne.symm h.1), ih h.2]

theorem splitSlash_append_slash (h : '/' ∉ s) (f : Str) :
    splitSlash (s ++ '/' :: f) = s :: splitSlash f := by
  induction s with
  | nil => exact if_pos rfl
  | cons c s ih =>
      rw [List.mem_cons, not_or] at h
      rw [List.cons_append, splitSlash, if_neg (Ne.symm h.1), ih h.2]

/-- A file name is its own last component, unless it is empty or a single dot. -/
theorem name_ofText (h : '/' ∉ f) :
    (PurePath.ofText f).name = if f = [] ∨ f = ['.'] then [] else f := by
  rw [PurePath.name, PurePath.ofText]
  dsimp only
  rw [splitSlash_of_notMem h]
  split_ifs with hEmpty
  · rcases hEmpty with rfl | rfl <;> decide
  · rw [not_or] at hEmpty
    rw [List.filter_cons_of_pos (by simp [hEmpty.1, hEmpty.2])]
    rfl

theorem removeSuffix_append (suffix s : Str) : removeSuffix suffix (s ++ suffix) = s := by
  rw [removeSuffix, if_pos (endsWith_iff.mpr (List.suffix_append s suffix)), List.length_append,
    Nat.add_sub_cancel, List.take_left]

theorem removeSuffix_of_not (h : endsWith f s = false) : removeSuffix f s = s := by
  rw [removeSuffix, if_neg (by simp [h])]

theorem PlainTitle.filename (h : PlainTitle title) : pageTitleToFilename title =
    quoteReserved logseqFilenameEncodeChars (expand title) ++ ".md".toList := by
  rw [pageTitleToFilename]
  rw [h.stripped, replaceAll_of_notMem h.backslash, removeSuffix_of_not h.suffix, replaceAll_char]
  rfl

theorem mem_quoteReserved {d : Char} (h : d ∈ quoteReserved logseqFilenameEncodeChars s) :
    (d ∈ s ∧ d ∉ logseqFilenameEncodeChars) ∨ d ∈ "%0123456789ABCDEF".toList := by
  have hDigits : "%0123456789ABCDEF".toList = '%' :: "0123456789ABCDEF".toList := by decide
  rw [hDigits]
  have hDigit (n : ℕ) : hexDigit n ∈ '%' :: "0123456789ABCDEF".toList := by
    apply List.mem_cons_of_mem
    rw [hexDigit, List.getD_eq_getElem?_getD]
    cases hGet : "0123456789ABCDEF".toList[n]? with
    | none => decide
    | some c => exact List.mem_of_getElem? hGet
  obtain ⟨c, hc, hd⟩ := List.mem_flatMap.mp h
  split_ifs at hd with hReserved
  · simp only [quoteChar, List.mem_cons, List.not_mem_nil, or_false] at hd
    right
    rcases hd with rfl | rfl | rfl
    · exact List.mem_cons_self
    · exact hDigit _
    · exact hDigit _
  · rw [List.mem_singleton] at hd
    subst hd
    exact Or.inl ⟨hc, hReserved⟩

/-- Nothing at the ends of the file name of a plain title is taken off when it is read. -/
theorem strip_filename (h : PlainTitle title) :
    strip (pageTitleToFilename title) = pageTitleToFilename title := by
  rw [h.filename, strip_eq_self_iff]
  constructor
  · intro c t hHead
    have hStripped := (strip_eq_self_iff.mp h.stripped).1
    cases title with
    | nil =>
        rw [← (List.cons.inj hHead).1]
        decide
    | cons d title =>
        have hd := hStripped d title rfl
        rw [expand_cons] at hHead
        split_ifs at hHead
        · rw [← (List.cons.inj hHead).1]
          decide
        · rw [List.singleton_append, quoteReserved_cons] at hHead
          split_ifs at hHead
          · rw [← (List.cons.inj hHead).1]
            decide
          · rw [← (List.cons.inj hHead).1]
            exact hd
  · intro c t hLast
    have hSplit : ".md".toList = ".m".toList ++ ['d'] := by decide
    rw [hSplit, ← List.append_assoc] at hLast
    rw [← (List.cons.inj (List.append_inj' hLast rfl).2).1]
    decide

theorem slash_notMem_filename (h : PlainTitle title) : '/' ∉ pageTitleToFilename title := by
  rw [h.filename, List.mem_append]
  rintro (hMem | hMem)
  · rcases mem_quoteReserved hMem with ⟨hMem, -⟩ | hMem
    · exact (mem_expand hMem).1 rfl
    · revert hMem
      decide
  · revert hMem
    decide

theorem backslash_notMem_filename (h : PlainTitle title) : '\\' ∉ pageTitleToFilename title := by
  rw [h.filename, List.mem_append]
  rintro (hMem | hMem)
  · rcases mem_quoteReserved hMem with ⟨-, hNot⟩ | hMem
    · revert hNot
      decide
    · revert hMem
      decide
  · revert hMem
    decide

/-- What reading a flat file name comes to. -/
theorem filenameToPageTitle_of_flat (hSlash : '/' ∉ f) (hBack : '\\' ∉ f) :
    filenameToPageTitle f = collapse (unquote (removeSuffix ".md".toList
      (if strip f = [] ∨ strip f = ['.'] then [] else strip f))) := by
  have hStrip : '/' ∉ strip f := fun hMem => hSlash ((strip_isInfix f).subset hMem)
  rw [filenameToPageTitle]
  rw [replaceAll_of_notMem hBack, name_ofText hStrip, replaceAll_triple]

theorem filenameToPageTitle_filename (h : PlainTitle title) :
    filenameToPageTitle (pageTitleToFilename title) = collapse (expand title) := by
  have hLength : 3 ≤ (pageTitleToFilename title).length := by
    rw [h.filename, List.length_append]
    exact Nat.le_add_left _ _
  rw [filenameToPageTitle_of_flat (slash_notMem_filename h) (backslash_notMem_filename h),
    strip_filename h, if_neg, h.filename, removeSuffix_append,
    unquote_quoteReserved (by decide) (by decide)]
  rintro (hEq | hEq) <;> rw [hEq] at hLength <;> exact absurd hLength (by decide)

theorem expand_eq_of_filename_eq (h : PlainTitle title) (hOther : PlainTitle other)
    (hEq : pageTitleToFilename other = pageTitleToFilename title) :
    expand other = expand title := by
  rw [h.filename, hOther.filename] at hEq
  have hRead := congrArg unquote (List.append_cancel_right hEq)
  rwa [unquote_quoteReserved (by decide) (by decide),
    unquote_quoteReserved (by decide) (by decide)] at hRead

end Names

section Relpaths

variable {f s : Str}

theorem replaceAll_append (c : Char) (repl a b : Str) :
    replaceAll [c] repl (a ++ b) = replaceAll [c] repl a ++ replaceAll [c] repl b := by
  rw [replaceAll_char, replaceAll_char, replaceAll_char, List.flatMap_append]

/-- The relative path of a flat file is read without decoding. -/
theorem pageTitleFromGraphRelpath_of_flat (hSlash : '/' ∉ f) (hBack : '\\' ∉ f) :
    pageTitleFromGraphRelpath ("pages/".toList ++ f) =
      collapse (if f = [] ∨ f = ['.'] then [] else removeSuffix ".md".toList f) := by
  have hText : replaceAll ['\\'] ['/'] ("pages/".toList ++ f) = "pages".toList ++ '/' :: f := by
    rw [replaceAll_append, replaceAll_of_notMem hBack]
    rfl
  have hTail : (PurePath.ofText ("pages".toList ++ '/' :: f)).tail =
      "pages".toList :: if f = [] ∨ f = ['.'] then [] else [f] := by
    rw [PurePath.ofText]
    dsimp only
    rw [splitSlash_append_slash (by decide), splitSlash_of_notMem hSlash,
      List.filter_cons_of_pos (by decide)]
    split_ifs with hEmpty
    · rcases hEmpty with rfl | rfl <;> decide
    · rw [not_or] at hEmpty
      rw [List.filter_cons_of_pos (by simp [hEmpty.1, hEmpty.2])]
      rfl
  have hRoot : (PurePath.ofText ("pages".toList ++ '/' :: f)).root = [] := by
    simp [PurePath.ofText, startsWith, dropPrefix?]
  have hParts : (PurePath.ofText ("pages".toList ++ '/' :: f)).parts =
      "pages".toList :: if f = [] ∨ f = ['.'] then [] else [f] := by
    rw [PurePath.parts, if_pos hRoot, hTail]
  rw [pageTitleFromGraphRelpath]
  rw [hText, hParts]
  simp only [true_or, if_true]
  rw [replaceAll_triple]
  split_ifs with hEmpty hNil hNil
  · rfl
  · exact absurd rfl hNil
  · cases hNil
  · rfl

/-- A slash weighs as much as three underscores, a percent sign less than an escape. -/
def titleWeight (c : Char) : ℕ := if c = '/' then 3 else if c = '%' then 2 else 1

theorem titleWeight_light : Light titleWeight := by
  constructor
  · intro c
    rw [titleWeight]
    split_ifs <;> decide
  · intro c
    rw [titleWeight]
    split_ifs <;> decide
  · rfl

theorem weight_collapse (s : Str) : weight titleWeight (collapse s) = weight titleWeight s := by
  fun_induction collapse s with
  | case1 s ih =>
      simp only [weight_cons, ih]
      have hSlash : titleWeight '/' = 3 := rfl
      have hUnderscore : titleWeight '_' = 1 := rfl
      omega
  | case2 c s _ ih => rw [weight_cons, weight_cons, ih]
  | case3 => rfl

theorem weight_unquote_le (s : Str) : weight titleWeight (unquote s) ≤ weight titleWeight s := by
  cases h : hasEscape s with
  | true => exact (weight_unquote_lt titleWeight_light h).le
  | false => rw [unquote_of_not h]

theorem weight_pos (h : s ≠ []) : 0 < weight titleWeight s := by
  cases s with
  | nil => exact absurd rfl h
  | cons c s =>
      rw [weight_cons]
      exact Nat.add_pos_left (titleWeight_light.pos c) _

theorem weight_removeSuffix_le (suffix s : Str) :
    weight titleWeight (removeSuffix suffix s) ≤ weight titleWeight s := by
  rw [removeSuffix]
  split_ifs
  · conv_rhs => rw [← List.take_append_drop (s.length - suffix.length) s]
    rw [weight_append]
    exact Nat.le_add_right _ _
  · exact Nat.le_refl _

/-- Whitespace in front is no part of the suffix. -/
theorem endsWith_of_blank_append {a g : Str} (ha : ∀ c ∈ a, isSpace c = true)
    (h : endsWith ".md".toList (a ++ g) = true) : endsWith ".md".toList g = true := by
  obtain ⟨stem, hText⟩ := endsWith_iff.mp h
  rw [endsWith_iff]
  rcases List.append_eq_append_iff.mp hText with ⟨c, rfl, hSuffix⟩ | ⟨c, rfl, hg⟩
  · cases c with
    | nil => exact ⟨[], hSuffix⟩
    | cons d c =>
        have hd := ha d (by simp)
        have hSplit : ".md".toList = '.' :: "md".toList := by decide
        rw [hSplit, List.cons_append] at hSuffix
        rw [← (List.cons.inj hSuffix).1] at hd
        exact absurd hd (by decide)
  · exact ⟨c, hg.symm⟩

theorem endsWith_append_blank {a b : Str} (hb : b ≠ []) (hSpace : ∀ c ∈ b, isSpace c = true) :
    endsWith ".md".toList (a ++ b) = false := by
  rw [← Bool.not_eq_true]
  intro h
  obtain ⟨stem, hText⟩ := endsWith_iff.mp h
  obtain ⟨b, c, rfl⟩ := (List.eq_nil_or_concat' b).resolve_left hb
  have hSplit : ".md".toList = ".m".toList ++ ['d'] := by decide
  rw [hSplit, ← List.append_assoc, ← List.append_assoc] at hText
  have hc := hSpace c (by simp)
  rw [← (List.cons.inj (List.append_inj' hText rfl).2).1] at hc
  revert hc
  decide

/-- Stripping a file name takes weight from its stem. -/
theorem weight_strip_lt (h : strip f ≠ f) :
    weight titleWeight (removeSuffix ".md".toList (strip f)) <
      weight titleWeight (removeSuffix ".md".toList f) := by
  obtain ⟨a, b, hText, hFront, hBehind⟩ := exists_ends_of_strip f
  generalize strip f = g at *
  subst hText
  rcases eq_or_ne b [] with rfl | hb
  · have ha : a ≠ [] := by
      rintro rfl
      rw [List.nil_append, List.append_nil] at h
      exact h rfl
    rw [List.append_nil]
    by_cases hSuffix : endsWith ".md".toList g = true
    · obtain ⟨stem, rfl⟩ := endsWith_iff.mp hSuffix
      rw [← List.append_assoc, removeSuffix_append, removeSuffix_append, weight_append]
      exact Nat.lt_add_of_pos_left (weight_pos ha)
    · have hWhole : endsWith ".md".toList (a ++ g) = false := by
        rw [← Bool.not_eq_true]
        exact fun hWhole => hSuffix (endsWith_of_blank_append hFront hWhole)
      rw [removeSuffix_of_not (by simpa using hSuffix), removeSuffix_of_not hWhole, weight_append]
      exact Nat.lt_add_of_pos_left (weight_pos ha)
  · have hWhole : endsWith ".md".toList (a ++ (g ++ b)) = false := by
      rw [← List.append_assoc]
      exact endsWith_append_blank hb hBehind
    rw [removeSuffix_of_not hWhole, weight_append, weight_append]
    have := weight_removeSuffix_le ".md".toList g
    have := weight_pos hb
    omega

/-- The two readings of a file agree if there is nothing to strip and nothing to decode. -/
theorem fromGraphRelpath_eq_iff (hSlash : '/' ∉ f) (hBack : '\\' ∉ f) :
    pageTitleFromGraphRelpath ("pages/".toList ++ f) = filenameToPageTitle f ↔
      strip f = f ∧ hasEscape (removeSuffix ".md".toList f) = false := by
  rw [pageTitleFromGraphRelpath_of_flat hSlash hBack, filenameToPageTitle_of_flat hSlash hBack]
  by_cases hStrip : strip f = f
  · rw [hStrip, and_iff_right rfl]
    split_ifs with hEmpty
    · rcases hEmpty with rfl | rfl <;> decide
    · constructor
      · intro hEq
        rw [← Bool.not_eq_true]
        intro hEscape
        have hLt := weight_unquote_lt titleWeight_light hEscape
        have hWeight := congrArg (weight titleWeight) hEq
        rw [weight_collapse, weight_collapse] at hWeight
        omega
      · intro hEscape
        rw [unquote_of_not hEscape]
  · refine iff_of_false (fun hEq => ?_) fun h => hStrip h.1
    have hNotEmpty : ¬(f = [] ∨ f = ['.']) := by
      rintro (rfl | rfl) <;> exact hStrip (by decide)
    have hWeight := congrArg (weight titleWeight) hEq
    have hLt := weight_strip_lt hStrip
    rw [weight_collapse, weight_collapse, if_neg hNotEmpty] at hWeight
    have hLe := weight_unquote_le (removeSuffix ".md".toList
      (if strip f = [] ∨ strip f = ['.'] then [] else strip f))
    have hStem : weight titleWeight (removeSuffix ".md".toList
        (if strip f = [] ∨ strip f = ['.'] then [] else strip f)) ≤
          weight titleWeight (removeSuffix ".md".toList (strip f)) := by
      split_ifs
      · exact Nat.zero_le _
      · exact Nat.le_refl _
    omega

end Relpaths

/-- A plain title is read back from its file name, and shares it with no title that is read
back, if it has no underscore in front of a slash. The other reading of the file agrees if there
is nothing to strip and nothing to decode in the name. -/
theorem titles_correspond (title f : Str) (h : PlainTitle title) (hSlash : '/' ∉ f)
    (hBackslash : '\\' ∉ f) :
    (filenameToPageTitle (pageTitleToFilename title) = title ↔ ¬"_/".toList <:+: title) ∧
    ((∀ other, PlainTitle other → ¬"_/".toList <:+: other →
      pageTitleToFilename other = pageTitleToFilename title → other = title) ↔
        ¬"_/".toList <:+: title) ∧
    (pageTitleFromGraphRelpath ("pages/".toList ++ f) = filenameToPageTitle f ↔
      strip f = f ∧ hasEscape (removeSuffix ".md".toList f) = false) := by
  refine ⟨?_, ?_, fromGraphRelpath_eq_iff hSlash hBackslash⟩
  · rw [filenameToPageTitle_filename h, collapse_expand_iff h.triple]
  · constructor
    · intro hOnly
      -- the title that the file name is read as
      have hRead := plainTitle_collapse_expand h
      have hExpand : expand (collapse (expand title)) = expand title :=
        expand_collapse fun hMem => (mem_expand hMem).1 rfl
      rw [← collapse_expand_iff h.triple]
      apply hOnly _ hRead
      · exact not_pair_collapse fun hMem => (mem_expand hMem).1 rfl
      · rw [hRead.filename, h.filename, hExpand]
    · intro hPair other hOther hOtherPair hEq
      rw [← collapse_expand hPair h.triple, ← collapse_expand hOtherPair hOther.triple,
        expand_eq_of_filename_eq h hOther hEq]

theorem titles_correspond_faq :
    filenameToPageTitle (pageTitleToFilename "FAQ/What is AI?".toList) =
        "FAQ/What is AI?".toList ∧
      (pageTitleToFilename "FAQ".toList = pageTitleToFilename "FAQ/What is AI?".toList →
        "FAQ".toList = "FAQ/What is AI?".toList) ∧
      pageTitleFromGraphRelpath "pages/FAQ___AI.md".toList =
        filenameToPageTitle "FAQ___AI.md".toList :=
  have hTitles := titles_correspond "FAQ/What is AI?".toList "FAQ___AI.md".toList
    ⟨by decide, by decide, by decide, by decide⟩ (by decide) (by decide)
  ⟨hTitles.1.mpr (by decide),
    hTitles.2.1.mpr (by decide) _ ⟨by decide, by decide, by decide, by decide⟩ (by decide),
    hTitles.2.2.mpr (by decide)⟩

/-- Two titles share a file, and a quoted question mark is not read by path. -/
theorem titles_share_file :
    (PlainTitle "a_/b".toList ∧ PlainTitle "a/_b".toList ∧
      pageTitleToFilename "a_/b".toList = pageTitleToFilename "a/_b".toList) ∧
    filenameToPageTitle (pageTitleToFilename "a_/b".toList) = "a/_b".toList ∧
    filenameToPageTitle "a%3Fb.md".toList = "a?b".toList ∧
    pageTitleFromGraphRelpath "pages/a%3Fb.md".toList = "a%3Fb".toList :=
  ⟨⟨⟨by decide, by decide, by decide, by decide⟩, ⟨by decide, by decide, by decide, by decide⟩,
    by decide⟩, by decide, by decide, by decide⟩

end Plumber.PagePath
