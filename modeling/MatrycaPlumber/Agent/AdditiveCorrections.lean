import MatrycaPlumber.Text.Substitution
import MatrycaPlumber.Text.Stripping
import Mathlib.Data.List.Chain
import Mathlib.Logic.Relation

/-! The test that lets a correction of a bullet's text pass as one that only adds
wikilink brackets and tags. -/
namespace Plumber.SemanticWrite

open PyText Relation

section Model

inductive LintType where
  | autoWikilink
  | tagHygiene
  | anomalyWarning
  deriving DecidableEq

/-- `re.sub(r"\s+", " ", s)`; the flag says that a run of whitespace is being passed. -/
def collapseSpaces : Bool → Str → Str
  | _, [] => []
  | inRun, c :: s =>
      if isSpace c then
        if inRun then collapseSpaces true s else ' ' :: collapseSpaces true s
      else c :: collapseSpaces false s

def normalizeBlockText (text : Str) : Str := collapseSpaces false (strip text)

/-- The pattern `\[\[([^\]]+)\]\]`, replaced by its group. -/
def wikilink? : Str → Option (ℕ × Str)
  | '[' :: '[' :: rest =>
      let inner := rest.takeWhile (· ≠ ']')
      if inner ≠ [] ∧ "]]".toList <+: rest.dropWhile (· ≠ ']') then
        some (inner.length + 4, inner)
      else none
  | _ => none

def stripWikilinkBrackets (text : Str) : Str := sub (fun _ => wikilink?) text

/-- `#` at the head of the text begins a tag `#\S+`. -/
def startsTag : Str → Bool
  | '#' :: c :: _ => !isSpace c
  | _ => false

/-- `re.sub(r"#\S+", "", s)`; the flag says that a tag is being passed. -/
def dropTags : Bool → Str → Str
  | _, [] => []
  | true, c :: s => if isSpace c then c :: dropTags false s else dropTags true s
  | false, c :: s => if startsTag (c :: s) then dropTags true s else c :: dropTags false s

/-- `_is_safe_additive_correction`. Its last line is for other lint types, of which there
are none. -/
def isSafeAdditiveCorrection (original corrected : Str) (lintType : LintType) : Bool :=
  let origNorm := normalizeBlockText original
  let corrNorm := normalizeBlockText corrected
  match lintType with
  | .anomalyWarning => origNorm = corrNorm
  | .autoWikilink => origNorm = normalizeBlockText (stripWikilinkBrackets corrected)
  | .tagHygiene =>
      let origPlain := strip (dropTags false origNorm)
      let corrPlain := strip (dropTags false (stripWikilinkBrackets corrected))
      origPlain = corrPlain && origNorm.length ≤ corrNorm.length

end Model

section Deleting

/-- No tag is open behind the text: its last word has no `#`. -/
def TagFree (before : Str) : Prop :=
  ∀ word, word <:+ before → (∀ c ∈ word, isSpace c = false) → '#' ∉ word

/-- One step of deleting markup: the brackets of one wikilink, or one whole tag. -/
inductive Deletes : Str → Str → Prop where
  | brackets (before inner after : Str) (hInner : inner ≠ []) (hClosed : ']' ∉ inner) :
      Deletes (before ++ ("[[".toList ++ inner ++ "]]".toList) ++ after) (before ++ inner ++ after)
  | tag (before word after : Str) (hFree : TagFree before) (hWord : word ≠ [])
      (hInside : ∀ c ∈ word, isSpace c = false) (hEnd : ∀ c ∈ after.head?, isSpace c = true) :
      Deletes (before ++ '#' :: word ++ after) (before ++ after)

/-- Deleting brackets and tags from the corrected text gives back the original, up to
how the words are set apart. -/
def OnlyAdds (original corrected : Str) : Prop :=
  ∃ kept, ReflTransGen Deletes corrected kept ∧
    normalizeBlockText kept = normalizeBlockText original

/-- Whatever follows a `#` is one of the given characters. -/
def HashesBefore (ok : Char → Prop) (text : Str) : Prop := text.IsChain fun a b => a = '#' → ok b

/-- `#\S+` matches nowhere in the text. -/
def NoTag (text : Str) : Prop := HashesBefore (fun c => isSpace c = true) text

instance (text : Str) : Decidable (NoTag text) := inferInstanceAs (Decidable (List.IsChain _ _))

end Deleting

section Spaces

@[simp] theorem collapseSpaces_nil (inRun : Bool) : collapseSpaces inRun [] = [] := by
  cases inRun <;> rfl

theorem collapseSpaces_cons (inRun : Bool) (c : Char) (s : Str) :
    collapseSpaces inRun (c :: s) =
      if isSpace c then if inRun then collapseSpaces true s else ' ' :: collapseSpaces true s
      else c :: collapseSpaces false s :=
  rfl

theorem collapseSpaces_word {c : Char} (hc : isSpace c = false) (inRun : Bool) (s : Str) :
    collapseSpaces inRun (c :: s) = c :: collapseSpaces false s := by
  rw [collapseSpaces_cons, hc]
  rfl

theorem collapseSpaces_space {c : Char} (hc : isSpace c = true) (s : Str) :
    collapseSpaces false (c :: s) = ' ' :: collapseSpaces true s := by
  rw [collapseSpaces_cons, if_pos hc]
  rfl

theorem collapseSpaces_run {c : Char} (hc : isSpace c = true) (s : Str) :
    collapseSpaces true (c :: s) = collapseSpaces true s := by
  rw [collapseSpaces_cons, if_pos hc]
  rfl

theorem collapseSpaces_append_word {c : Char} (hc : isSpace c = false) (inRun : Bool) (s t : Str) :
    collapseSpaces inRun (s ++ c :: t) = collapseSpaces inRun s ++ c :: collapseSpaces false t := by
  induction s generalizing inRun with
  | nil => rw [List.nil_append, collapseSpaces_word hc, collapseSpaces_nil, List.nil_append]
  | cons d s ih =>
      rw [List.cons_append, collapseSpaces_cons, collapseSpaces_cons]
      split_ifs with hSpace hRun
      · exact ih true
      · rw [ih true, List.cons_append]
      · rw [ih false, List.cons_append]

/-- A run that is collapsed already stays as it is. -/
theorem collapseSpaces_idem (inRun : Bool) (s : Str) :
    collapseSpaces inRun (collapseSpaces inRun s) = collapseSpaces inRun s := by
  induction s generalizing inRun with
  | nil => rw [collapseSpaces_nil, collapseSpaces_nil]
  | cons c s ih =>
      cases hc : isSpace c with
      | true =>
          cases inRun with
          | true => rw [collapseSpaces_run hc, ih]
          | false => rw [collapseSpaces_space hc, collapseSpaces_space (by rfl), ih]
      | false => rw [collapseSpaces_word hc, collapseSpaces_word hc, ih]

/-- A text without blanks at its ends keeps both ends when its blanks are collapsed. -/
theorem strip_collapseSpaces {t : Str} (hStart : lstrip t = t) (hEnd : rstrip t = t) :
    strip (collapseSpaces false t) = collapseSpaces false t := by
  have hLeft : lstrip (collapseSpaces false t) = collapseSpaces false t := by
    cases t with
    | nil => rw [collapseSpaces_nil]; rfl
    | cons c t =>
        have hc : isSpace c = false := by
          rw [lstrip, List.dropWhile_eq_self_iff] at hStart
          simpa using hStart
        rw [collapseSpaces_word hc, lstrip_cons_of_not_isSpace hc]
  have hRight : rstrip (collapseSpaces false t) = collapseSpaces false t := by
    rcases List.eq_nil_or_concat t with rfl | ⟨u, d, rfl⟩
    · rw [collapseSpaces_nil]
      rfl
    · rw [List.concat_eq_append] at hEnd ⊢
      have hd : isSpace d = false := by
        rw [rstrip, List.rdropWhile_eq_self_iff] at hEnd
        simpa using hEnd (by simp)
      rw [collapseSpaces_append_word hd, collapseSpaces_nil, rstrip_append_cons _ _ hd]
      rfl
  rw [strip, hLeft, hRight]

theorem strip_normalizeBlockText (s : Str) : strip (normalizeBlockText s) = normalizeBlockText s :=
  strip_collapseSpaces (lstrip_strip s) (rstrip_strip s)

theorem normalizeBlockText_idem (s : Str) :
    normalizeBlockText (normalizeBlockText s) = normalizeBlockText s := by
  rw [normalizeBlockText, strip_normalizeBlockText, normalizeBlockText, collapseSpaces_idem]

/-- The characters of the words of a text. -/
def wordChars (s : Str) : Str := s.filter fun c => !isSpace c

theorem wordChars_of_spaces {s : Str} (h : ∀ c ∈ s, isSpace c = true) : wordChars s = [] := by
  rw [wordChars, List.filter_eq_nil_iff]
  intro c hc
  rw [h c hc]
  exact Bool.false_ne_true

theorem wordChars_collapseSpaces (inRun : Bool) (s : Str) :
    wordChars (collapseSpaces inRun s) = wordChars s := by
  induction s generalizing inRun with
  | nil => rw [collapseSpaces_nil]
  | cons c s ih =>
      cases hc : isSpace c with
      | true =>
          have hDrop : wordChars (c :: s) = wordChars s := by
            rw [wordChars, List.filter_cons_of_neg (by simp [hc])]
            rfl
          cases inRun with
          | true => rw [collapseSpaces_run hc, ih, hDrop]
          | false =>
              rw [collapseSpaces_space hc, hDrop, ← ih true]
              rfl
      | false =>
          rw [collapseSpaces_word hc, wordChars, wordChars, List.filter_cons_of_pos (by simp [hc]),
            List.filter_cons_of_pos (by simp [hc])]
          exact congrArg (c :: ·) (ih false)

theorem wordChars_strip (s : Str) : wordChars (strip s) = wordChars s := by
  obtain ⟨a, b, hs, ha, hb⟩ := exists_ends_of_strip s
  have hWhole : wordChars s = wordChars a ++ (wordChars (strip s) ++ wordChars b) := by
    conv_lhs => rw [hs]
    rw [wordChars, List.filter_append, List.filter_append]
    rfl
  rw [hWhole, wordChars_of_spaces ha, wordChars_of_spaces hb, List.append_nil, List.nil_append]

theorem wordChars_normalizeBlockText (s : Str) :
    wordChars (normalizeBlockText s) = wordChars s := by
  rw [normalizeBlockText, wordChars_collapseSpaces, wordChars_strip]

end Spaces

section Hashes

variable {ok : Char → Prop}

theorem hashesBefore_cons {c : Char} {s : Str} :
    HashesBefore ok (c :: s) ↔ (∀ d ∈ s.head?, c = '#' → ok d) ∧ HashesBefore ok s :=
  List.isChain_cons

theorem hashesBefore_cons_of_ne {c : Char} (hc : c ≠ '#') {s : Str} :
    HashesBefore ok (c :: s) ↔ HashesBefore ok s := by
  rw [hashesBefore_cons, and_iff_right]
  intro d _ hHash
  exact absurd hHash hc

theorem hashesBefore_append {s t : Str} :
    HashesBefore ok (s ++ t) ↔ HashesBefore ok s ∧ HashesBefore ok t ∧
      ∀ c ∈ s.getLast?, ∀ d ∈ t.head?, c = '#' → ok d :=
  List.isChain_append

theorem ne_hash_of_isSpace {c : Char} (hc : isSpace c = true) : c ≠ '#' := by
  rintro rfl
  cases hc

theorem hashesBefore_of_notMem {s : Str} (h : '#' ∉ s) : HashesBefore ok s := by
  induction s with
  | nil => exact List.IsChain.nil
  | cons c s ih =>
      rw [List.mem_cons, not_or] at h
      exact (hashesBefore_cons_of_ne (Ne.symm h.1)).mpr (ih h.2)

theorem hashesBefore_strip (hOk : ∀ c, isSpace c = true → ok c) (s : Str) :
    HashesBefore ok (strip s) ↔ HashesBefore ok s := by
  obtain ⟨a, b, hs, ha, hb⟩ := exists_ends_of_strip s
  have hSpaces {t : Str} (ht : ∀ c ∈ t, isSpace c = true) : '#' ∉ t :=
    fun hMem => ne_hash_of_isSpace (ht _ hMem) rfl
  conv_rhs => rw [hs]
  rw [hashesBefore_append, hashesBefore_append]
  constructor
  · intro hStrip
    refine ⟨hashesBefore_of_notMem (hSpaces ha),
      ⟨hStrip, hashesBefore_of_notMem (hSpaces hb), ?_⟩, ?_⟩
    · intro c _ d hd _
      exact hOk d (hb d (List.mem_of_mem_head? hd))
    · intro c hc d _ hHash
      exact absurd hHash (ne_hash_of_isSpace (ha c (List.mem_of_mem_getLast? hc)))
  · intro hWhole
    exact hWhole.2.1.1

theorem hashesBefore_collapseSpaces (hOk : ∀ c, isSpace c = true → ok c) (inRun : Bool) (s : Str) :
    HashesBefore ok (collapseSpaces inRun s) ↔ HashesBefore ok s := by
  induction s generalizing inRun with
  | nil => rw [collapseSpaces_nil]
  | cons c s ih =>
      cases hc : isSpace c with
      | true =>
          rw [hashesBefore_cons_of_ne (ne_hash_of_isSpace hc)]
          cases inRun with
          | true => rw [collapseSpaces_run hc, ih]
          | false => rw [collapseSpaces_space hc, hashesBefore_cons_of_ne (by decide), ih]
      | false =>
          rw [collapseSpaces_word hc, hashesBefore_cons, hashesBefore_cons, ih]
          apply and_congr_left'
          cases s with
          | nil => rw [collapseSpaces_nil]
          | cons d s =>
              cases hd : isSpace d with
              | true =>
                  rw [collapseSpaces_space hd]
                  simp [hOk d hd, hOk ' ' (by rfl)]
              | false => rw [collapseSpaces_word hd]; rfl

/-- Collapsing blanks changes nothing about what follows a `#`. -/
theorem hashesBefore_normalizeBlockText (hOk : ∀ c, isSpace c = true → ok c) (s : Str) :
    HashesBefore ok (normalizeBlockText s) ↔ HashesBefore ok s := by
  rw [normalizeBlockText, hashesBefore_collapseSpaces hOk, hashesBefore_strip hOk]

/-- Deleting markup puts nothing new behind a `#`. -/
theorem Deletes.hashesBefore (hBracket : ¬ok '[' ∧ ¬ok ']') (hHash : ¬ok '#') {s t : Str}
    (h : Deletes s t) (hs : HashesBefore ok s) : HashesBefore ok t := by
  cases h with
  | brackets before inner after hInner hClosed =>
      rw [List.append_assoc, hashesBefore_append, hashesBefore_append, hashesBefore_append,
        hashesBefore_append] at hs
      obtain ⟨hBefore, ⟨⟨⟨_, hIn, _⟩, _, hLastIn⟩, hAfter, _⟩, hLast⟩ := hs
      rw [List.append_assoc, hashesBefore_append, hashesBefore_append]
      refine ⟨hBefore, ⟨hIn, hAfter, ?_⟩, ?_⟩
      · intro c hc d _ hIsHash
        have hEnd : c ∈ ("[[".toList ++ inner).getLast? := by
          rw [List.getLast?_append_of_ne_nil _ hInner]
          exact hc
        exact absurd (hLastIn c hEnd ']' rfl hIsHash) hBracket.2
      · intro c hc d _ hIsHash
        exact absurd (hLast c hc '[' rfl hIsHash) hBracket.1
  | tag before word after hFree hWord hInside hEnd =>
      rw [List.append_assoc, List.cons_append, hashesBefore_append, hashesBefore_cons,
        hashesBefore_append] at hs
      obtain ⟨hBefore, ⟨_, _, hAfter, _⟩, hLast⟩ := hs
      refine hashesBefore_append.mpr ⟨hBefore, hAfter, ?_⟩
      intro c hc d _ hIsHash
      exact absurd (hLast c hc '#' rfl hIsHash) hHash

theorem hashesBefore_of_deletions (hBracket : ¬ok '[' ∧ ¬ok ']') (hHash : ¬ok '#') {s t : Str}
    (h : ReflTransGen Deletes s t) (hs : HashesBefore ok s) : HashesBefore ok t := by
  induction h with
  | refl => exact hs
  | tail _ hStep ih => exact hStep.hashesBefore hBracket hHash ih

/-- If only a character that no tag of the original begins with stands behind the hashes of
the corrected text, then no deletion gives back the original. -/
theorem OnlyAdds.hashesBefore (hOk : ∀ c, isSpace c = true → ok c)
    (hBracket : ¬ok '[' ∧ ¬ok ']') (hHash : ¬ok '#') {original corrected : Str}
    (h : OnlyAdds original corrected) (hs : HashesBefore ok corrected) :
    HashesBefore ok original := by
  obtain ⟨kept, hKept, hSame⟩ := h
  rw [← hashesBefore_normalizeBlockText hOk, ← hSame, hashesBefore_normalizeBlockText hOk]
  exact hashesBefore_of_deletions hBracket hHash hKept hs

end Hashes

section Tags

theorem startsTag_iff {c : Char} {s : Str} :
    startsTag (c :: s) = true ↔ c = '#' ∧ ∃ d ∈ s.head?, isSpace d = false := by
  cases s with
  | nil => simp [startsTag]
  | cons d s =>
      by_cases hc : c = '#'
      · subst hc
        simp [startsTag]
      · simp [startsTag, hc]

theorem dropTags_inside (c : Char) (s : Str) :
    dropTags true (c :: s) = if isSpace c then c :: dropTags false s else dropTags true s :=
  rfl

theorem dropTags_outside (c : Char) (s : Str) :
    dropTags false (c :: s) =
      if startsTag (c :: s) then dropTags true s else c :: dropTags false s :=
  rfl

/-- A text without tags loses nothing with its tags. -/
theorem dropTags_append {s : Str} (hs : NoTag s) (t : Str) (ht : ∀ c ∈ t.head?, isSpace c = true) :
    dropTags false (s ++ t) = s ++ dropTags false t := by
  induction s with
  | nil => rfl
  | cons c s ih =>
      obtain ⟨hHead, hRest⟩ := hashesBefore_cons.mp hs
      have hNoTag : startsTag (c :: (s ++ t)) = false := by
        rw [← Bool.not_eq_true, startsTag_iff]
        rintro ⟨hc, d, hd, hWord⟩
        have hSpace : isSpace d = true := by
          cases s with
          | nil => exact ht d hd
          | cons e s => exact hHead d hd hc
        rw [hSpace] at hWord
        cases hWord
      rw [List.cons_append, dropTags_outside, if_neg (by rw [hNoTag]; exact Bool.false_ne_true), ih hRest]
      rfl

theorem dropTags_of_noTag {s : Str} (hs : NoTag s) : dropTags false s = s := by
  have h := dropTags_append hs [] (by simp)
  rwa [List.append_nil, dropTags, List.append_nil] at h

/-- What is left when the tags are gone has none. -/
theorem noTag_dropTags (inTag : Bool) (s : Str) :
    NoTag (dropTags inTag s) ∧ ∀ d ∈ (dropTags inTag s).head?, isSpace d = false →
      inTag = false ∧ s.head? = some d := by
  induction s generalizing inTag with
  | nil => cases inTag <;> exact ⟨List.IsChain.nil, by simp [dropTags]⟩
  | cons c s ih =>
      cases inTag with
      | true =>
          rw [dropTags_inside]
          split_ifs with hc
          · refine ⟨(hashesBefore_cons_of_ne (ne_hash_of_isSpace hc)).mpr (ih false).1, ?_⟩
            intro d hd hWord
            obtain rfl := Option.some.inj hd
            rw [hc] at hWord
            cases hWord
          · refine ⟨(ih true).1, ?_⟩
            intro d hd hWord
            cases ((ih true).2 d hd hWord).1
      | false =>
          rw [dropTags_outside]
          split_ifs with hTag
          · refine ⟨(ih true).1, ?_⟩
            intro d hd hWord
            cases ((ih true).2 d hd hWord).1
          · refine ⟨hashesBefore_cons.mpr ⟨?_, (ih false).1⟩, ?_⟩
            · intro d hd hc
              by_contra hWord
              rw [Bool.not_eq_true] at hWord
              apply hTag
              rw [startsTag_iff]
              exact ⟨hc, d, ((ih false).2 d hd hWord).2, hWord⟩
            · intro d hd _
              exact ⟨rfl, hd⟩

end Tags

section Brackets

theorem wikilink?_link {inner : Str} (hInner : inner ≠ []) (hClosed : ']' ∉ inner) (rest : Str) :
    wikilink? ('[' :: '[' :: (inner ++ ']' :: ']' :: rest)) = some (inner.length + 4, inner) := by
  have hAll : ∀ c ∈ inner, decide (c ≠ ']') = true :=
    fun c hc => decide_eq_true fun hEq => hClosed (hEq ▸ hc)
  have hTake : (inner ++ ']' :: ']' :: rest).takeWhile (· ≠ ']') = inner := by
    rw [List.takeWhile_append_of_pos hAll, List.takeWhile_cons_of_neg (by decide), List.append_nil]
  have hDrop : (inner ++ ']' :: ']' :: rest).dropWhile (· ≠ ']') = ']' :: ']' :: rest := by
    rw [List.dropWhile_append_of_pos hAll, List.dropWhile_cons_of_neg (by decide)]
  simp only [wikilink?, hTake, hDrop]
  exact if_pos ⟨hInner, rest, rfl⟩

theorem exists_of_wikilink? {s : Str} {m : ℕ × Str} (h : wikilink? s = some m) :
    ∃ inner rest, inner ≠ [] ∧ ']' ∉ inner ∧ s = '[' :: '[' :: (inner ++ ']' :: ']' :: rest) := by
  unfold wikilink? at h
  split at h
  · next text =>
      dsimp only at h
      split_ifs at h with hLink
      obtain ⟨hInner, rest, hRest⟩ := hLink
      refine ⟨text.takeWhile (· ≠ ']'), rest, hInner, ?_, ?_⟩
      · intro hMem
        have hNot := List.mem_takeWhile_imp hMem
        exact of_decide_eq_true hNot rfl
      · have hText := List.takeWhile_append_dropWhile (p := (· ≠ ']')) (l := text)
        rw [← hRest] at hText
        exact congrArg ('[' :: '[' :: ·) hText.symm
  · cases h

/-- A text read from the left, link by link. -/
inductive Linked : Str → Prop where
  | nil : Linked []
  | plain {c : Char} {s : Str} (hNone : wikilink? (c :: s) = none) (hRest : Linked s) : Linked (c :: s)
  | link {inner s : Str} (hInner : inner ≠ []) (hClosed : ']' ∉ inner) (hRest : Linked s) :
      Linked ('[' :: '[' :: (inner ++ ']' :: ']' :: s))

theorem linked (s : Str) : Linked s := by
  induction hLength : s.length using Nat.strong_induction_on generalizing s with
  | _ n ih =>
      cases s with
      | nil => exact .nil
      | cons c s =>
          cases hLink : wikilink? (c :: s) with
          | none => exact .plain hLink (ih s.length (by rw [← hLength]; simp) s rfl)
          | some m =>
              obtain ⟨inner, rest, hInner, hClosed, hText⟩ := exists_of_wikilink? hLink
              rw [hText] at hLength ⊢
              refine .link hInner hClosed (ih rest.length ?_ rest rfl)
              simp only [List.length_cons, List.length_append] at hLength
              omega

theorem stripWikilinkBrackets_plain {c : Char} {s : Str} (h : wikilink? (c :: s) = none) :
    stripWikilinkBrackets (c :: s) = c :: stripWikilinkBrackets s :=
  sub_forward_none h

theorem stripWikilinkBrackets_link {inner : Str} (hInner : inner ≠ []) (hClosed : ']' ∉ inner)
    (s : Str) : stripWikilinkBrackets ('[' :: '[' :: (inner ++ ']' :: ']' :: s)) =
      inner ++ stripWikilinkBrackets s := by
  have hLink := wikilink?_link hInner hClosed s
  have h := @sub_forward_some wikilink? '[' ('[' :: (inner ++ [']', ']'])) s inner
  simp only [List.cons_append, List.append_assoc, List.nil_append, List.length_cons,
    List.length_append, List.length_nil] at h
  exact h hLink

/-- The brackets go one link after the other. -/
theorem deletions_stripWikilinkBrackets (before s : Str) :
    ReflTransGen Deletes (before ++ s) (before ++ stripWikilinkBrackets s) := by
  induction linked s generalizing before with
  | nil => exact .refl
  | @plain c s hNone hRest ih =>
      rw [stripWikilinkBrackets_plain hNone]
      have h := ih (before ++ [c])
      rwa [List.append_assoc, List.append_assoc] at h
  | @link inner s hInner hClosed hRest ih =>
      rw [stripWikilinkBrackets_link hInner hClosed]
      apply ReflTransGen.head (b := before ++ inner ++ s)
      · have hStep := Deletes.brackets before inner s hInner hClosed
        simpa using hStep
      · have h := ih (before ++ inner)
        rwa [List.append_assoc before inner (stripWikilinkBrackets s)] at h

end Brackets

section WholeTags

theorem tagFree_nil : TagFree [] := by
  intro word hWord _
  rw [List.suffix_nil] at hWord
  rw [hWord]
  exact List.not_mem_nil

theorem tagFree_space {before : Str} {c : Char} (hc : isSpace c = true) : TagFree (before ++ [c]) := by
  intro word hWord hInside
  rcases List.suffix_concat_iff.mp hWord with rfl | ⟨t, rfl, _⟩
  · exact List.not_mem_nil
  · have := hInside c (by simp)
    rw [hc] at this
    cases this

theorem TagFree.concat {before : Str} (h : TagFree before) {c : Char} (hc : c ≠ '#') :
    TagFree (before ++ [c]) := by
  intro word hWord hInside
  rcases List.suffix_concat_iff.mp hWord with rfl | ⟨t, rfl, hSuffix⟩
  · exact List.not_mem_nil
  · rw [List.mem_append, not_or, List.mem_singleton]
    exact ⟨h t hSuffix fun d hd => hInside d (List.mem_append_left _ hd), Ne.symm hc⟩

/-- The tags go one after the other; in the second case the scan is inside of one. -/
theorem deletions_of_tags (s : Str) :
    (∀ before, (TagFree before ∨ ∀ c ∈ s.head?, isSpace c = true) →
      ReflTransGen Deletes (before ++ s) (before ++ dropTags false s)) ∧
    ∀ before word, TagFree before → (∀ c ∈ word, isSpace c = false) →
      (word ≠ [] ∨ ∃ c ∈ s.head?, isSpace c = false) →
      ReflTransGen Deletes (before ++ '#' :: word ++ s) (before ++ dropTags true s) := by
  induction s with
  | nil =>
      refine ⟨fun _ _ => .refl, ?_⟩
      intro before word hFree hInside hWord
      have hWord : word ≠ [] := by simpa using hWord
      exact .single (Deletes.tag before word [] hFree hWord hInside (by simp))
  | cons c s ih =>
      constructor
      · intro before hFree
        rw [dropTags_outside]
        split_ifs with hTag
        · obtain ⟨rfl, hNext⟩ := startsTag_iff.mp hTag
          have hFree := hFree.resolve_right fun hSpace => absurd (hSpace '#' rfl) (by decide)
          have hGo := ih.2 before [] hFree (by simp) (.inr hNext)
          rwa [List.append_assoc] at hGo
        · have hGo := ih.1 (before ++ [c])
          rw [List.append_assoc, List.append_assoc] at hGo
          apply hGo
          by_cases hc : c = '#'
          · right
            intro d hd
            by_contra hWord
            rw [Bool.not_eq_true] at hWord
            exact hTag (startsTag_iff.mpr ⟨hc, d, hd, hWord⟩)
          · left
            rcases hFree with hFree | hSpace
            · exact hFree.concat hc
            · exact tagFree_space (hSpace c rfl)
      · intro before word hFree hInside hWord
        rw [dropTags_inside]
        split_ifs with hc
        · have hWord : word ≠ [] := by
            rcases hWord with hWord | ⟨d, hd, hNext⟩
            · exact hWord
            · obtain rfl := Option.some.inj hd
              rw [hc] at hNext
              cases hNext
          have hStep := Deletes.tag before word (c :: s) hFree hWord hInside (by simpa using hc)
          have hGo := ih.1 (before ++ [c]) (.inl (tagFree_space hc))
          rw [List.append_assoc, List.append_assoc] at hGo
          exact .head hStep hGo
        · have hGo := ih.2 before (word ++ [c]) hFree (by
            intro d hd
            rcases List.mem_append.mp hd with hd | hd
            · exact hInside d hd
            · rw [List.mem_singleton.mp hd, ← Bool.not_eq_true]
              exact hc) (.inl (by simp))
          simpa using hGo

theorem deletions_dropTags (s : Str) : ReflTransGen Deletes s (dropTags false s) := by
  have h := (deletions_of_tags s).1 [] (.inl tagFree_nil)
  exact h

end WholeTags

section Wrapping

/-- The second text has another pair of brackets around each link of the first. -/
inductive Wraps : Str → Str → Prop where
  | nil : Wraps [] []
  | plain {c : Char} {s t : Str} (hNone : wikilink? (c :: s) = none) (hRest : Wraps s t) :
      Wraps (c :: s) (c :: t)
  | link {inner s t : Str} (hInner : inner ≠ []) (hClosed : ']' ∉ inner) (hRest : Wraps s t) :
      Wraps ('[' :: '[' :: (inner ++ ']' :: ']' :: s))
        ('[' :: '[' :: (('[' :: '[' :: inner) ++ ']' :: ']' :: ']' :: ']' :: t))

theorem exists_wraps (s : Str) : ∃ t, Wraps s t := by
  induction linked s with
  | nil => exact ⟨[], .nil⟩
  | plain hNone hRest ih =>
      obtain ⟨t, ht⟩ := ih
      exact ⟨_, .plain hNone ht⟩
  | link hInner hClosed hRest ih =>
      obtain ⟨t, ht⟩ := ih
      exact ⟨_, .link hInner hClosed ht⟩

theorem Wraps.head? {s t : Str} (h : Wraps s t) : s.head? = t.head? := by
  cases h <;> rfl

/-- The text runs on to a pair of closing brackets. -/
def Closes (s : Str) : Prop := ∃ inner rest, ']' ∉ inner ∧ s = inner ++ ']' :: ']' :: rest

theorem Wraps.closes {s t tail : Str} (h : Wraps s t) (hTail : ']' ∉ tail)
    (ht : Closes (t ++ tail)) : Closes s := by
  induction h with
  | nil =>
      obtain ⟨inner, rest, _, hText⟩ := ht
      exact absurd (by rw [← List.nil_append tail, hText]; simp) hTail
  | @plain c s t hNone hRest ih =>
      obtain ⟨inner, rest, hClosed, hText⟩ := ht
      cases inner with
      | nil =>
          rw [List.cons_append, List.nil_append, List.cons.injEq] at hText
          obtain ⟨rfl, hText⟩ := hText
          cases t with
          | nil => exact absurd (by rw [← List.nil_append tail, hText]; simp) hTail
          | cons d t =>
              rw [List.cons_append, List.cons.injEq] at hText
              have hHead := hRest.head?
              rw [hText.1, List.head?_cons, List.head?_eq_some_iff] at hHead
              obtain ⟨s', rfl⟩ := hHead
              exact ⟨[], s', List.not_mem_nil, rfl⟩
      | cons d inner =>
          rw [List.cons_append, List.cons_append, List.cons.injEq] at hText
          rw [List.mem_cons, not_or] at hClosed
          obtain ⟨inner', rest', hClosed', rfl⟩ := ih ⟨inner, rest, hClosed.2, hText.2⟩
          refine ⟨c :: inner', rest', ?_, rfl⟩
          rw [List.mem_cons, not_or, hText.1]
          exact ⟨hClosed.1, hClosed'⟩
  | @link inner s t hInner hClosed hRest ih =>
      refine ⟨'[' :: '[' :: inner, s, ?_, rfl⟩
      simpa using hClosed

/-- Wrapping a link leaves no new link at an earlier place. -/
theorem Wraps.wikilink?_none {s t tail : Str} (h : Wraps s t) (hOpen : '[' ∉ tail)
    (hTail : ']' ∉ tail) {c : Char} (hNone : wikilink? (c :: s) = none) :
    wikilink? (c :: (t ++ tail)) = none := by
  by_contra hLink
  obtain ⟨m, hm⟩ := Option.ne_none_iff_exists'.mp hLink
  obtain ⟨inner, rest, hInner, hClosed, hText⟩ := exists_of_wikilink? hm
  rw [List.cons.injEq] at hText
  obtain ⟨rfl, hText⟩ := hText
  cases h with
  | nil => exact hOpen (by rw [← List.nil_append tail, hText]; simp)
  | @plain d s t _ hRest =>
      rw [List.cons_append, List.cons.injEq] at hText
      obtain ⟨rfl, hText⟩ := hText
      obtain ⟨inner', rest', hClosed', rfl⟩ := hRest.closes hTail ⟨inner, rest, hClosed, hText⟩
      have hInner' : inner' ≠ [] := by
        rintro rfl
        have hHead := hRest.head?
        cases t with
        | nil => cases hHead
        | cons e t =>
            obtain rfl := Option.some.inj hHead
            cases inner with
            | nil => exact hInner rfl
            | cons f inner =>
                rw [List.cons_append, List.cons_append, List.cons.injEq] at hText
                exact hClosed (hText.1 ▸ List.mem_cons_self)
      rw [wikilink?_link hInner' hClosed'] at hNone
      cases hNone
  | @link inner' s t hInner' hClosed' hRest =>
      have hClosed : ']' ∉ '[' :: inner' := by simpa using hClosed'
      have hSome := wikilink?_link (List.cons_ne_nil _ _) hClosed s
      rw [List.cons_append] at hSome
      rw [hSome] at hNone
      cases hNone

theorem wikilink?_of_ne {c : Char} (hc : c ≠ '[') (s : Str) : wikilink? (c :: s) = none := by
  by_contra hLink
  obtain ⟨m, hm⟩ := Option.ne_none_iff_exists'.mp hLink
  obtain ⟨inner, rest, _, _, hText⟩ := exists_of_wikilink? hm
  rw [List.cons.injEq] at hText
  exact hc hText.1

theorem stripWikilinkBrackets_of_notMem {s : Str} (h : '[' ∉ s) : stripWikilinkBrackets s = s := by
  induction s with
  | nil => rfl
  | cons c s ih =>
      rw [List.mem_cons, not_or] at h
      rw [stripWikilinkBrackets_plain (wikilink?_of_ne (Ne.symm h.1) s), ih h.2]

/-- The added brackets are those that are taken off again. -/
theorem Wraps.strip {s t tail : Str} (h : Wraps s t) (hOpen : '[' ∉ tail) (hTail : ']' ∉ tail) :
    stripWikilinkBrackets (t ++ tail) = s ++ tail := by
  induction h with
  | nil => exact stripWikilinkBrackets_of_notMem hOpen
  | @plain c s t hNone hRest ih =>
      rw [List.cons_append, stripWikilinkBrackets_plain (hRest.wikilink?_none hOpen hTail hNone), ih]
      rfl
  | @link inner s t hInner hClosed hRest ih =>
      have hText : '[' :: '[' :: (('[' :: '[' :: inner) ++ ']' :: ']' :: ']' :: ']' :: t) ++ tail =
          '[' :: '[' :: (('[' :: '[' :: inner) ++ ']' :: ']' :: (']' :: ']' :: (t ++ tail))) := by
        simp
      rw [hText, stripWikilinkBrackets_link (List.cons_ne_nil _ _) (by simpa using hClosed),
        stripWikilinkBrackets_plain (wikilink?_of_ne (by decide) _),
        stripWikilinkBrackets_plain (wikilink?_of_ne (by decide) _), ih]
      simp

theorem Wraps.hashesBefore {ok : Char → Prop} (hBracket : ¬ok '[' ∧ ¬ok ']') {s t : Str}
    (h : Wraps s t) (hs : HashesBefore ok s) : HashesBefore ok t := by
  induction h with
  | nil => exact hs
  | plain hNone hRest ih =>
      rw [hashesBefore_cons] at hs ⊢
      rw [← hRest.head?]
      exact ⟨hs.1, ih hs.2⟩
  | @link inner s t hInner hClosed hRest ih =>
      rw [hashesBefore_cons_of_ne (by decide), hashesBefore_cons_of_ne (by decide),
        hashesBefore_append, hashesBefore_cons_of_ne (by decide),
        hashesBefore_cons_of_ne (by decide)] at hs
      obtain ⟨hIn, hRest, hLast⟩ := hs
      rw [hashesBefore_cons_of_ne (by decide), hashesBefore_cons_of_ne (by decide), List.cons_append,
        List.cons_append, hashesBefore_cons_of_ne (by decide), hashesBefore_cons_of_ne (by decide),
        hashesBefore_append]
      refine ⟨hIn, ?_, fun c hc d hd hIsHash => ?_⟩
      · rw [hashesBefore_cons_of_ne (by decide), hashesBefore_cons_of_ne (by decide),
          hashesBefore_cons_of_ne (by decide), hashesBefore_cons_of_ne (by decide)]
        exact ih hRest
      · exact absurd (hLast c hc ']' rfl hIsHash) hBracket.2

end Wrapping

section Result

/-- A new tag of `n + 1` letters behind a text. -/
def otherTag (z : Char) (n : ℕ) : Str := ' ' :: '#' :: List.replicate (n + 1) z

theorem dropTags_otherTag {z : Char} (hz : isSpace z = false) (n : ℕ) :
    dropTags false (otherTag z n) = [' '] := by
  have hInside (k : ℕ) : dropTags true (List.replicate k z) = [] := by
    induction k with
    | zero => rfl
    | succ k ih =>
        rw [List.replicate_succ, dropTags_inside, if_neg (by rw [hz]; exact Bool.false_ne_true), ih]
  have hTag : startsTag ('#' :: List.replicate (n + 1) z) = true :=
    startsTag_iff.mpr ⟨rfl, z, rfl, hz⟩
  have hBlank : startsTag (otherTag z n) = false := rfl
  rw [otherTag, dropTags_outside, ← otherTag, hBlank, if_neg Bool.false_ne_true, dropTags_outside,
    if_pos hTag, hInside]

theorem wordChars_otherTag {z : Char} (hz : isSpace z = false) (n : ℕ) :
    wordChars (otherTag z n) = '#' :: List.replicate (n + 1) z := by
  rw [wordChars, otherTag, List.filter_cons_of_neg (by decide), List.filter_eq_self.mpr]
  intro c hc
  rcases List.mem_cons.mp hc with rfl | hMem
  · rfl
  · rw [List.eq_of_mem_replicate hMem, hz]
    rfl

theorem hashesBefore_otherTag {ok : Char → Prop} {z : Char} (hz : ok z) (hHash : z ≠ '#') (n : ℕ) :
    HashesBefore ok (otherTag z n) := by
  rw [otherTag, hashesBefore_cons_of_ne (by decide), hashesBefore_cons]
  refine ⟨?_, hashesBefore_of_notMem ?_⟩
  · intro d hd _
    rw [List.replicate_succ] at hd
    obtain rfl := Option.some.inj hd
    exact hz
  · intro hMem
    exact hHash (List.eq_of_mem_replicate hMem).symm

/-- Whatever tags the original has, a correction with only a new one in their place passes. -/
theorem exists_accepted (original : Str) {z : Char} (hz : isSpace z = false) (hOpen : z ≠ '[')
    (hClose : z ≠ ']') (hHash : z ≠ '#') : ∃ corrected,
      isSafeAdditiveCorrection original corrected .tagHygiene = true ∧
      HashesBefore (fun c => isSpace c = true ∨ c = z) corrected := by
  let plain := strip (dropTags false (normalizeBlockText original))
  let tail := otherTag z (normalizeBlockText original).length
  obtain ⟨wrapped, hWraps⟩ := exists_wraps plain
  have hPlain : NoTag plain :=
    (hashesBefore_strip (fun c hc => hc) _).mpr (noTag_dropTags false _).1
  have hBrackets {c : Char} (hc : c ≠ ' ') (hNotHash : c ≠ '#') (hNotZ : c ≠ z) : c ∉ tail := by
    intro hMem
    simp only [tail, otherTag, List.mem_cons, List.mem_replicate] at hMem
    rcases hMem with h | h | h
    · exact hc h
    · exact hNotHash h
    · exact hNotZ h.2
  have hOpenTail : '[' ∉ tail := hBrackets (by decide) (by decide) (Ne.symm hOpen)
  have hCloseTail : ']' ∉ tail := hBrackets (by decide) (by decide) (Ne.symm hClose)
  refine ⟨wrapped ++ tail, ?_, ?_⟩
  · have hPlainKept : strip (dropTags false (stripWikilinkBrackets (wrapped ++ tail))) = plain := by
      have hBlank : ∀ c ∈ tail.head?, isSpace c = true := by simp [tail, otherTag, isSpace]
      rw [hWraps.strip hOpenTail hCloseTail, dropTags_append hPlain tail hBlank,
        dropTags_otherTag hz, strip_append_space _ (by rfl), strip_strip]
    have hLong : (normalizeBlockText original).length ≤
        (normalizeBlockText (wrapped ++ tail)).length := by
      have hFilter : (wordChars (normalizeBlockText (wrapped ++ tail))).length ≤
          (normalizeBlockText (wrapped ++ tail)).length := List.length_filter_le _ _
      rw [wordChars_normalizeBlockText, wordChars, List.filter_append, ← wordChars, ← wordChars,
        wordChars_otherTag hz, List.length_append, List.length_cons, List.length_replicate] at hFilter
      omega
    simp only [isSafeAdditiveCorrection, Bool.and_eq_true, decide_eq_true_eq]
    exact ⟨hPlainKept.symm, hLong⟩
  · have hNotOk {c : Char} (hSpace : isSpace c = false) (hNe : z ≠ c) : ¬(isSpace c = true ∨ c = z) := by
      rintro (h | h)
      · rw [hSpace] at h
        cases h
      · exact hNe h.symm
    rw [hashesBefore_append]
    refine ⟨?_, ?_, ?_⟩
    · apply hWraps.hashesBefore ⟨hNotOk (by rfl) hOpen, hNotOk (by rfl) hClose⟩
      exact hPlain.imp fun a b hab hHash => .inl (hab hHash)
    · exact hashesBefore_otherTag (.inr rfl) hHash _
    · intro c _ d hd _
      obtain rfl := Option.some.inj hd
      exact .inl rfl

/-- A text with a tag fails for the spaces and any other character. -/
theorem exists_other_of_tag {text : Str} (h : ¬NoTag text) :
    ∃ z, isSpace z = false ∧ z ≠ '[' ∧ z ≠ ']' ∧ z ≠ '#' ∧
      ¬HashesBefore (fun c => isSpace c = true ∨ c = z) text := by
  rw [NoTag, HashesBefore, List.isChain_iff_forall_rel_of_append_cons_cons] at h
  push Not at h
  obtain ⟨a, x, before, after, hText, rfl, hx⟩ := h
  have hOther (z : Char) (hz : x ≠ z) : ¬HashesBefore (fun c => isSpace c = true ∨ c = z) text := by
    intro hChain
    rcases (List.isChain_iff_forall_rel_of_append_cons_cons.mp hChain) hText rfl with hSpace | hSame
    · exact hx hSpace
    · exact hz hSame
  by_cases hxa : x = 'a'
  · exact ⟨'b', rfl, by decide, by decide, by decide, hOther 'b' (by rw [hxa]; decide)⟩
  · exact ⟨'a', rfl, by decide, by decide, by decide, hOther 'a' hxa⟩

/-- Accepted corrections of an original only add to it exactly when the lint type is not the
one of tags, or the original has no tag. -/
theorem onlyAdds_iff (original : Str) (lintType : LintType) :
    (∀ corrected, isSafeAdditiveCorrection original corrected lintType = true →
      OnlyAdds original corrected) ↔ (lintType = .tagHygiene → NoTag original) := by
  constructor
  · rintro hSafe rfl
    by_contra hTag
    obtain ⟨z, hz, hOpen, hClose, hHash, hOriginal⟩ := exists_other_of_tag hTag
    obtain ⟨corrected, hAccepted, hCorrected⟩ := exists_accepted original hz hOpen hClose hHash
    apply hOriginal
    refine (hSafe corrected hAccepted).hashesBefore (fun c hc => .inl hc) ⟨?_, ?_⟩ ?_ hCorrected
    · rintro (h | h)
      · cases h
      · exact hOpen h.symm
    · rintro (h | h)
      · cases h
      · exact hClose h.symm
    · rintro (h | h)
      · cases h
      · exact hHash h.symm
  · intro hNoTag corrected hAccepted
    cases lintType with
    | autoWikilink =>
        simp only [isSafeAdditiveCorrection, decide_eq_true_eq] at hAccepted
        exact ⟨_, deletions_stripWikilinkBrackets [] corrected, hAccepted.symm⟩
    | tagHygiene =>
        simp only [isSafeAdditiveCorrection, Bool.and_eq_true, decide_eq_true_eq] at hAccepted
        have hNorm : NoTag (normalizeBlockText original) :=
          (hashesBefore_normalizeBlockText (fun c hc => hc) original).mpr (hNoTag rfl)
        rw [dropTags_of_noTag hNorm, strip_normalizeBlockText] at hAccepted
        refine ⟨_, (deletions_stripWikilinkBrackets [] corrected).trans (deletions_dropTags _), ?_⟩
        rw [List.nil_append, normalizeBlockText, ← hAccepted.1, normalizeBlockText,
          collapseSpaces_idem]
    | anomalyWarning =>
        simp only [isSafeAdditiveCorrection, decide_eq_true_eq] at hAccepted
        exact ⟨corrected, .refl, hAccepted.symm⟩

/-- The tag of a bullet is exchanged for a longer one, and the correction passes. -/
theorem urgent_exchanged : ¬∀ (original corrected : Str) (lintType : LintType),
    isSafeAdditiveCorrection original corrected lintType = true → OnlyAdds original corrected := by
  intro h
  have hAccepted : isSafeAdditiveCorrection "pay rent #urgent".toList "pay rent #someday".toList
      .tagHygiene = true := by decide +kernel
  have hCorrected : HashesBefore (fun c => isSpace c = true ∨ c = 's') "pay rent #someday".toList := by
    unfold HashesBefore
    decide
  have hOriginal := (h _ _ _ hAccepted).hashesBefore (fun _ => .inl) (by decide) (by decide) hCorrected
  unfold HashesBefore at hOriginal
  exact absurd hOriginal (by decide)

end Result

end Plumber.SemanticWrite
