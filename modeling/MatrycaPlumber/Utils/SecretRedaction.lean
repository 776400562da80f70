import MatrycaPlumber.Text.Regex

/-! Likely secrets in texts: the six patterns, what redaction makes of a text, and that it leaves
nothing that a pattern finds. -/
namespace Plumber.SecretRedaction
open PyText

section Patterns

/-- What `(?i)` identifies with the letters of the credential names. -/
def foldCase (c : Char) : Char :=
  if 'A' ≤ c ∧ c ≤ 'Z' then Char.ofNat (c.toNat + 32)
  else if c = 'ſ' then 's'
  else if c = '\u212A' then 'k'
  else if c = 'ı' ∨ c = 'İ' then 'i'
  else c

def isAsciiAlnum (c : Char) : Bool :=
  ('A' ≤ c && c ≤ 'Z') || ('a' ≤ c && c ≤ 'z') || ('0' ≤ c && c ≤ '9')

/-- `\w`, given which other characters beyond ASCII are letters or digits. -/
def isWord (other : Char → Bool) (c : Char) : Bool :=
  isAsciiAlnum c || c = '_' || c ∈ ['ſ', '\u212A', 'ı', 'İ'] ||
    (128 ≤ c.toNat && !isSpace c && other c)

/-- `[A-Za-z0-9_-]`. -/
def isKeyChar (c : Char) : Bool := isAsciiAlnum c || c = '_' || c = '-'

/-- `[A-Za-z0-9._~+/=_-]`. -/
def isBearerChar (c : Char) : Bool :=
  isAsciiAlnum c || c ∈ ['.', '_', '~', '+', '/', '=', '-']

/-- `[0-9A-Z]`. -/
def isAwsChar (c : Char) : Bool := ('0' ≤ c && c ≤ '9') || ('A' ≤ c && c ≤ 'Z')

def literal (s : String) : Pattern := .text id s.toList

def ignoringCase (s : String) : Pattern := .text foldCase s.toList

def bounded (core : Pattern) : Pattern := .seq .boundary (.seq core .boundary)

def credName : Pattern :=
  .either (ignoringCase "token::") <| .either (ignoringCase "password::") <|
    .either (ignoringCase "secret::") <| .either (ignoringCase "api-key::") <|
      ignoringCase "api.key::"

/-- `_CRED_PROP`. -/
def credProp : Pattern :=
  .seq .boundary <| .seq credName <|
    .seq (.run isSpace 0 none) (.run (fun c => !isSpace c) 1 none)

def skAnthropicCore : Pattern := .seq (literal "sk-ant-") (.run isKeyChar 8 none)

/-- `_SK_ANTHROPIC`. -/
def skAnthropic : Pattern := bounded skAnthropicCore

def skOpenaiCore : Pattern :=
  .seq (literal "sk-") (.seq (.notAhead (literal "ant-")) (.run isKeyChar 8 none))

/-- `_SK_OPENAI`. -/
def skOpenai : Pattern := bounded skOpenaiCore

def bearerCore : Pattern :=
  .seq (literal "Bearer") (.seq (.run isSpace 1 none) (.run isBearerChar 20 none))

/-- `_BEARER`. -/
def bearer : Pattern := bounded bearerCore

def awsKeyCore : Pattern := .seq (literal "AKIA") (.run isAwsChar 16 (some 16))

/-- `_AWS_KEY`. -/
def awsKey : Pattern := bounded awsKeyCore

def jwtCore : Pattern :=
  .seq (literal "eyJ") <| .seq (.run isKeyChar 10 none) <| .seq (literal ".") <|
    .seq (.run isKeyChar 10 none) <| .seq (literal ".") (.run isKeyChar 10 none)

/-- `_JWT`. -/
def jwt : Pattern := bounded jwtCore

/-- `_SECRET_PATTERNS`. -/
def secretPatterns : List (Pattern × Str) :=
  [(credProp, "[REDACTED_CREDENTIAL_PROPERTY]".toList),
    (skAnthropic, "[REDACTED_API_KEY]".toList),
    (skOpenai, "[REDACTED_API_KEY]".toList),
    (bearer, "Bearer [REDACTED]".toList),
    (awsKey, "[REDACTED_AWS_KEY]".toList),
    (jwt, "[REDACTED_JWT]".toList)]

def substitute (other : Char → Bool) (out : Str) (rule : Pattern × Str) : Str :=
  sub (finder (isWord other) rule.1 rule.2) out

def redactSecretsInText (other : Char → Bool) (text : Str) : Str :=
  if text = [] then text else secretPatterns.foldl (substitute other) text

def issueIf (other : Char → Bool) (p : Pattern) (blob : Str) (issue : String) : List String :=
  if search (isWord other) p blob then [issue] else []

def secretViolationsInText (other : Char → Bool) (blob : Str) : List String :=
  issueIf other credProp blob
      "credential-like property (token/password/secret/api-key) in payload" ++
    issueIf other skAnthropic blob "possible Anthropic-style API key material in payload" ++
    issueIf other skOpenai blob "possible OpenAI-style API key material in payload" ++
    issueIf other bearer blob "possible Bearer token material in payload" ++
    issueIf other awsKey blob "possible AWS access key material in payload" ++
    issueIf other jwt blob "possible JWT material in payload"

end Patterns

section Shapes

variable (word : Char → Bool)

/-- What must stand behind a secret that ends with `x`: a boundary for the closed ones, and
something to hide for the others. -/
def Ends (closed : Bool) (x : Char) (after : Str) : Prop :=
  if closed then word x ≠ headIs word after else ∃ c ∈ after, isSpace c = false

/-- The texts that a pattern finds behind a boundary. Their first characters decide, and they are
never cut by a placeholder: they have no brackets and do not end with a blank. -/
structure Shape where
  pattern : Pattern
  closed : Bool
  fold : Char → Char
  heads : List Str
  Body : Str → Prop
  starts : ∀ {w}, Body w → headIs word w = true
  plain : ∀ {w}, Body w → '[' ∉ w ∧ ']' ∉ w
  last : ∀ {c w}, Body (c :: w) → isSpace (w.getLastD c) = false
  known : ∀ {w}, Body w → ∃ h ∈ heads, h <+: w.map fold
  finds : ∀ {before s}, lengths word pattern before s = [] ↔
    ∀ c w b, s = c :: w ++ b → Body (c :: w) → headIs word before = false →
      ¬Ends word closed (w.getLastD c) b

/-- The placeholder of a pattern, which keeps the front of what it stands for. -/
structure Mask (pattern : Pattern) (repl : Str) where
  kept : Str
  mark : Str
  repl_eq : repl = kept ++ mark
  kept_plain : kept = [] ∧ mark.head? = some '[' ∨
    (∃ c k, kept = c :: k) ∧ ∃ r, mark = ' ' :: '[' :: r
  /-- A match keeps its front, has a boundary there, hides something, and ends where a secret that
  follows it starts at a boundary. -/
  hides : ∀ {before s n}, (lengths word pattern before s).head? = some n →
    ∃ m after, s = kept ++ m ++ after ∧ n = (kept ++ m).length ∧ headIs word before = false ∧
      headIs word s = true ∧ (∃ c ∈ m, isSpace c = false) ∧
      (kept ≠ [] → headIs isSpace m = true) ∧
      (headIs word after = true → headIs word ((kept ++ m).reverse ++ before) = false)

/-- No secret of a shape begins inside a placeholder, whatever stands behind it. -/
def Sealed (shape : Shape word) (repl : Str) : Prop :=
  ∀ y out w b, y <:+ repl → y ≠ [] → w ++ b = y ++ out → ¬shape.Body w

def sealedBy (fold : Char → Char) (heads : List Str) (y : Str) : Bool :=
  heads.all fun h => !(h.isPrefixOf (y.map fold)) && !((y.map fold).isPrefixOf h)

end Shapes

section Substitution

variable {word : Char → Bool} {pattern : Pattern} {repl : Str}

/-- A secret that begins in front of a placeholder ends there, or in the front that the placeholder
keeps, and it ends there in the text before the substitution as well. -/
theorem Mask.crossing (mask : Mask word pattern repl) (hOpen : word '[' = false)
    (hSpace : ∀ c, isSpace c = true → word c = false) {closed : Bool} {x : Char}
    {w b m after out : Str} (hEq : w ++ b = repl ++ out) (hPlain : '[' ∉ w)
    (hLast : isSpace (w.getLastD x) = false) (hBefore : word x = false)
    (hHides : ∃ c ∈ m, isSpace c = false)
    (hBlank : mask.kept ≠ [] → headIs isSpace m = true) :
    ∃ b', w ++ b' = mask.kept ++ m ++ after ∧
      (Ends word closed (w.getLastD x) b → Ends word closed (w.getLastD x) b') := by
  -- the part of the kept front that is behind the secret
  obtain ⟨k, hKept, hB⟩ : ∃ k, mask.kept = w ++ k ∧ b = k ++ (mask.mark ++ out) := by
    rw [mask.repl_eq, List.append_assoc] at hEq
    rcases List.append_eq_append_iff.mp hEq with ⟨k, hKept, hB⟩ | ⟨k, hW, hMark⟩
    · exact ⟨k, hKept, hB⟩
    · cases k with
      | nil => exact ⟨[], by rw [hW, List.append_nil, List.append_nil], hMark.symm⟩
      | cons d k =>
          exfalso
          rcases mask.kept_plain with ⟨-, hHead⟩ | ⟨-, r, hBlankMark⟩
          · obtain ⟨r, hR⟩ := List.head?_eq_some_iff.mp hHead
            rw [hR, List.cons_append] at hMark
            apply hPlain
            rw [hW, (List.cons.inj hMark).1]
            simp
          · rw [hBlankMark, List.cons_append, List.cons_append] at hMark
            obtain ⟨hD, hK⟩ := List.cons.inj hMark
            cases k with
            | nil =>
                rw [hW, ← hD, List.getLastD_concat] at hLast
                exact absurd hLast (by decide)
            | cons e k =>
                apply hPlain
                rw [hW, (List.cons.inj hK).1]
                simp
  refine ⟨k ++ m ++ after, by rw [hKept]; simp only [List.append_assoc], ?_⟩
  cases closed with
  | false =>
      intro _
      obtain ⟨c, hMem, hC⟩ := hHides
      exact ⟨c, List.mem_append_left _ (List.mem_append_right _ hMem), hC⟩
  | true =>
      intro hEnds
      rw [Ends, if_pos rfl] at hEnds ⊢
      cases k with
      | cons d k =>
          rw [hB] at hEnds
          exact hEnds
      | nil =>
          rw [List.append_nil] at hKept
          rw [List.nil_append] at hB ⊢
          rcases mask.kept_plain with ⟨hNil, hHead⟩ | ⟨⟨c, k, hCons⟩, r, hBlankMark⟩
          · obtain ⟨r, hR⟩ := List.head?_eq_some_iff.mp hHead
            rw [← hKept, hNil, hB, hR] at hEnds
            exact absurd (hBefore.trans hOpen.symm) hEnds
          · have hHeadBlank := hBlank (by rw [hCons]; exact List.cons_ne_nil c k)
            cases m with
            | nil => cases hHeadBlank
            | cons d m =>
                rw [hB, hBlankMark] at hEnds
                have hD : headIs word (d :: m ++ after) = false := hSpace d hHeadBlank
                have hMark : headIs word (' ' :: '[' :: r ++ out) = false := hSpace ' ' rfl
                rw [hD]
                rwa [hMark] at hEnds

/-- What is hidden is not blank, so a text that is not blank was not blank before. -/
theorem nonspace_of_rewritten (mask : Mask word pattern repl) {before s out : Str}
    (h : Rewritten (finder word pattern repl) before s out)
    (hOut : ∃ c ∈ out, isSpace c = false) : ∃ c ∈ s, isSpace c = false := by
  induction h with
  | nil => exact hOut
  | @keep before s out c _ _ ih =>
      obtain ⟨d, hMem, hD⟩ := hOut
      rcases List.mem_cons.mp hMem with rfl | hMem
      · exact ⟨d, List.mem_cons_self, hD⟩
      · obtain ⟨e, hE, hSpace⟩ := ih ⟨d, hMem, hD⟩
        exact ⟨e, List.mem_cons_of_mem _ hE, hSpace⟩
  | @replace before m r s out _ hFound _ _ =>
      obtain ⟨m', after, hS, -, -, -, ⟨c, hC, hSpace⟩, -⟩ := mask.hides (finder_eq_some hFound).1
      rw [hS]
      exact ⟨c, List.mem_append_left _ (List.mem_append_right _ hC), hSpace⟩

/-- A secret that begins at a kept character was there before the substitution. -/
theorem was_there (mask : Mask word pattern repl) (hOpen : word '[' = false)
    (hSpace : ∀ c, isSpace c = true → word c = false) {closed : Bool} {before s out : Str}
    (h : Rewritten (finder word pattern repl) before s out) :
    ∀ {x : Char} {w b : Str}, headIs word before = word x → out = w ++ b → '[' ∉ w →
      isSpace (w.getLastD x) = false →
      ∃ b', s = w ++ b' ∧
        (Ends word closed (w.getLastD x) b → Ends word closed (w.getLastD x) b') := by
  induction h with
  | nil before =>
      intro x w b _ hOut _ _
      obtain ⟨rfl, rfl⟩ := List.append_eq_nil_iff.mp hOut.symm
      exact ⟨[], rfl, id⟩
  | @keep before s out c _ hRest ih =>
      intro x w b hX hOut hPlain hLast
      cases w with
      | nil =>
          obtain rfl : c :: out = b := hOut
          refine ⟨c :: s, rfl, ?_⟩
          cases closed with
          | true => exact id
          | false =>
              rintro ⟨d, hMem, hD⟩
              rcases List.mem_cons.mp hMem with rfl | hMem
              · exact ⟨d, List.mem_cons_self, hD⟩
              · obtain ⟨e, hE, hESpace⟩ := nonspace_of_rewritten mask hRest ⟨d, hMem, hD⟩
                exact ⟨e, List.mem_cons_of_mem _ hE, hESpace⟩
      | cons d w =>
          obtain ⟨rfl, hTail⟩ := List.cons.inj hOut
          rw [List.getLastD_cons] at hLast ⊢
          obtain ⟨b', rfl, hEnds⟩ :=
            ih rfl hTail (fun hMem => hPlain (List.mem_cons_of_mem _ hMem)) hLast
          exact ⟨b', rfl, hEnds⟩
  | @replace before m r s out _ hFound _ _ =>
      intro x w b hX hOut hPlain hLast
      obtain ⟨hHead, rfl⟩ := finder_eq_some hFound
      obtain ⟨m', after, hS, -, hBefore, -, hHides, hBlank, -⟩ := mask.hides hHead
      obtain ⟨b', hEq, hEnds⟩ := mask.crossing hOpen hSpace hOut.symm hPlain hLast
        (hX.symm.trans hBefore) hHides hBlank
      exact ⟨b', hS.trans hEq.symm, hEnds⟩

/-- No secret of a shape is left or made by a substitution, if there is none where the
substitution finds nothing. -/
theorem no_secret_left {shape : Shape word} (mask : Mask word pattern repl)
    (hSealed : Sealed word shape repl) (hOpen : word '[' = false)
    (hSpace : ∀ c, isSpace c = true → word c = false) {before s out : Str}
    (h : Rewritten (finder word pattern repl) before s out) :
    ∀ outBefore : Str,
      (∀ a b, s = a ++ b → finder word pattern repl (a.reverse ++ before) b = none →
        lengths word shape.pattern (a.reverse ++ before) b = []) →
      (headIs word s = true → headIs word outBefore = false → headIs word before = false) →
      ∀ a c w b, out = a ++ (c :: w ++ b) → shape.Body (c :: w) →
        headIs word (a.reverse ++ outBefore) = false →
        ¬Ends word shape.closed (w.getLastD c) b := by
  induction h with
  | nil =>
      intro _ _ _ a c w b hOut _ _
      exact absurd hOut.symm (by simp)
  | @keep before s out c hNone hRest ih =>
      intro outBefore hDead hLinked a d w b hOut hBody hBefore
      cases a with
      | nil =>
          obtain ⟨rfl, hTail⟩ := List.cons.inj hOut
          obtain ⟨b', hS, hEnds⟩ := was_there mask hOpen hSpace hRest rfl hTail
            (fun hMem => (shape.plain hBody).1 (List.mem_cons_of_mem _ hMem)) (shape.last hBody)
          have hHere := hDead [] _ rfl hNone
          intro hOutEnds
          refine shape.finds.mp hHere c w b' (by rw [hS]; rfl) hBody ?_ (hEnds hOutEnds)
          exact hLinked (shape.starts (w := c :: w) hBody) hBefore
      | cons e a =>
          obtain ⟨rfl, hTail⟩ := List.cons.inj hOut
          rw [List.reverse_cons, List.append_assoc] at hBefore
          refine ih (c :: outBefore) ?_ (fun _ hHead => hHead) a d w b hTail hBody
            hBefore
          intro a' b' hAB hFound
          have hHere := hDead (c :: a') b' (by rw [hAB]; rfl)
          rw [List.reverse_cons, List.append_assoc] at hHere
          exact hHere hFound
  | @replace before m r s out hNe hFound hRest ih =>
      intro outBefore hDead hLinked a d w b hOut hBody hBefore
      obtain ⟨hHead, rfl⟩ := finder_eq_some hFound
      obtain ⟨m', after, hS, hLength, -, -, -, -, hAfter⟩ := mask.hides hHead
      obtain ⟨rfl, rfl⟩ := List.append_inj hS hLength
      -- a secret behind the placeholder
      have hBehind : ∀ k, a = r ++ k → out = k ++ (d :: w ++ b) →
          ¬Ends word shape.closed (w.getLastD d) b := by
        rintro k rfl hK
        rw [List.reverse_append, List.append_assoc] at hBefore
        refine ih (r.reverse ++ outBefore) ?_ (fun hWord _ => hAfter hWord) k d w b hK
          hBody hBefore
        intro a' b' hAB hNone
        have hHere := hDead ((mask.kept ++ m') ++ a') b' (by rw [hAB]; simp only [List.append_assoc])
        rw [List.reverse_append, List.append_assoc] at hHere
        exact hHere hNone
      rcases List.append_eq_append_iff.mp hOut with ⟨k, hA, hTail⟩ | ⟨k, hRepl, hTail⟩
      · exact hBehind k hA hTail
      · cases k with
        | nil => exact hBehind [] (by rw [hRepl, List.append_nil, List.append_nil]) hTail.symm
        | cons e k =>
            exact absurd hBody (hSealed (e :: k) out (d :: w) b ⟨a, hRepl.symm⟩
              (List.cons_ne_nil e k) hTail)

theorem rewritten_finder (mask : Mask word pattern repl) (t : Str) :
    Rewritten (finder word pattern repl) [] t (sub (finder word pattern repl) t) := by
  apply rewritten_sub
  intro before s n r hFound
  obtain ⟨m, after, hS, hLength, -, -, ⟨c, hC, -⟩, -⟩ := mask.hides (finder_eq_some hFound).1
  have hPos := List.length_pos_of_mem hC
  rw [hLength, hS]
  simp only [List.length_append]
  omega

/-- A pattern has no match anywhere in a text. -/
def Free (word : Char → Bool) (p : Pattern) (t : Str) : Prop :=
  ∀ a b, t = a ++ b → lengths word p a.reverse b = []

theorem free_sub {shape : Shape word} (mask : Mask word pattern repl)
    (hSealed : Sealed word shape repl) (hOpen : word '[' = false)
    (hSpace : ∀ c, isSpace c = true → word c = false) {t : Str}
    (hDead : ∀ a b, t = a ++ b → finder word pattern repl a.reverse b = none →
      lengths word shape.pattern a.reverse b = []) :
    Free word shape.pattern (sub (finder word pattern repl) t) := by
  intro a s hOut
  rw [shape.finds]
  intro c w b hS hBody hBefore
  rw [hS] at hOut
  refine no_secret_left mask hSealed hOpen hSpace (rewritten_finder mask t) []
    (fun a b hAB => ?_) (fun _ hHead => hHead) a c w b hOut hBody ?_
  · rw [List.append_nil]
    exact hDead a b hAB
  · rw [List.append_nil]
    exact hBefore

end Substitution

section Shapes

variable (other : Char → Bool)

theorem isWord_open : isWord other '[' = false := rfl

theorem not_isSpace_of_isAsciiAlnum {c : Char} (h : isAsciiAlnum c = true) :
    isSpace c = false := by
  have hRange : (65 ≤ c.toNat ∧ c.toNat ≤ 90 ∨ 97 ≤ c.toNat ∧ c.toNat ≤ 122) ∨
      48 ≤ c.toNat ∧ c.toNat ≤ 57 := by
    simpa [isAsciiAlnum, Char.le_def, UInt32.le_iff_toNat_le] using h
  simp only [isSpace, Bool.or_eq_false_iff, Bool.and_eq_false_iff, decide_eq_false_iff_not,
    beq_eq_false_iff_ne]
  omega

theorem not_isSpace_of_isBearerChar {c : Char} (h : isBearerChar c = true) :
    isSpace c = false := by
  rw [isBearerChar, Bool.or_eq_true, decide_eq_true_eq] at h
  rcases h with h | h
  · exact not_isSpace_of_isAsciiAlnum h
  · revert c
    decide

theorem isWord_of_isSpace {c : Char} (h : isSpace c = true) : isWord other c = false := by
  cases hWord : isWord other c with
  | false => rfl
  | true =>
      have hMates : ∀ d ∈ ['ſ', '\u212A', 'ı', 'İ'], isSpace d = false := by decide
      simp only [isWord, Bool.or_eq_true, Bool.and_eq_true, Bool.not_eq_true', decide_eq_true_eq]
        at hWord
      rcases hWord with ((hAlnum | rfl) | hMem) | ⟨⟨-, hNot⟩, -⟩
      · exact absurd (h.symm.trans (not_isSpace_of_isAsciiAlnum hAlnum)) Bool.noConfusion
      · cases h
      · exact absurd (h.symm.trans (hMates c hMem)) Bool.noConfusion
      · exact absurd (h.symm.trans hNot) Bool.noConfusion

/-- A literal, blanks, and at least one character of a key. -/
def IsSecret (lit w : Str) : Prop :=
  ∃ ws v, w = lit ++ ws ++ v ∧ (∀ c ∈ ws, isSpace c = true) ∧ v ≠ [] ∧
    ∀ c ∈ v, isBearerChar c = true

variable {lit w : Str}

theorem IsSecret.plain (h : IsSecret lit w) (hLit : '[' ∉ lit ∧ ']' ∉ lit) :
    '[' ∉ w ∧ ']' ∉ w := by
  obtain ⟨ws, v, rfl, hWs, -, hV⟩ := h
  simp only [List.mem_append, not_or]
  refine ⟨⟨⟨hLit.1, fun hMem => ?_⟩, fun hMem => ?_⟩, ⟨⟨hLit.2, fun hMem => ?_⟩, fun hMem => ?_⟩⟩
  · exact absurd (hWs _ hMem) (by decide)
  · exact absurd (hV _ hMem) (by decide)
  · exact absurd (hWs _ hMem) (by decide)
  · exact absurd (hV _ hMem) (by decide)

theorem IsSecret.exists_last (h : IsSecret lit w) : ∃ u x, w = u ++ [x] ∧ isSpace x = false := by
  obtain ⟨ws, v, rfl, -, hNe, hV⟩ := h
  obtain ⟨v', x, rfl⟩ := (List.eq_nil_or_concat' v).resolve_left hNe
  refine ⟨lit ++ ws ++ v', x, (List.append_assoc _ _ _).symm, ?_⟩
  exact not_isSpace_of_isBearerChar (hV x (List.mem_append_right _ (List.mem_singleton_self x)))

theorem getLastD_of_eq_concat {c x : Char} {u : Str} (h : c :: w = u ++ [x]) :
    w.getLastD c = x := by
  have hLast : (c :: w).getLastD c = x := by rw [h, List.getLastD_concat]
  rwa [List.getLastD_cons] at hLast

theorem IsSecret.last {c : Char} (h : IsSecret lit (c :: w)) : isSpace (w.getLastD c) = false := by
  obtain ⟨u, x, hW, hX⟩ := h.exists_last
  rw [getLastD_of_eq_concat hW]
  exact hX

theorem IsSecret.starts {word : Char → Bool} (h : IsSecret lit w) (hLit : headIs word lit = true)
    (after : Str) : headIs word (w ++ after) = true := by
  obtain ⟨ws, v, rfl, -⟩ := h
  cases lit with
  | nil => cases hLit
  | cons c lit => exact hLit

/-- The end of a secret is not blank. -/
theorem IsSecret.exists_nonspace {kept : Str} (h : IsSecret lit (kept ++ w)) (hNe : w ≠ []) :
    ∃ c ∈ w, isSpace c = false := by
  obtain ⟨u, x, hW, hX⟩ := h.exists_last
  obtain ⟨v, y, rfl⟩ := (List.eq_nil_or_concat' w).resolve_left hNe
  rw [← List.append_assoc] at hW
  obtain ⟨-, hY⟩ := List.append_inj' hW rfl
  cases hY
  exact ⟨x, List.mem_append_right _ (List.mem_singleton_self x), hX⟩

theorem matches_bounded {word : Char → Bool} {core : Pattern} {before m after : Str} :
    Matches word (bounded core) before m after ↔
      isBoundary word before (m ++ after) = true ∧ Matches word core before m after ∧
        isBoundary word (m.reverse ++ before) after = true := by
  simp only [bounded, matches_seq, matches_boundary]
  constructor
  · rintro ⟨u, v, rfl, ⟨rfl, hFirst⟩, u, v', rfl, hCore, rfl, hLast⟩
    simp only [List.nil_append, List.append_nil, List.reverse_nil] at hFirst hCore hLast ⊢
    exact ⟨hFirst, hCore, hLast⟩
  · rintro ⟨hFirst, hCore, hLast⟩
    refine ⟨[], m, rfl, ⟨rfl, hFirst⟩, m, [], (List.append_nil m).symm, hCore, rfl, hLast⟩

theorem headIs_reverse_cons {word : Char → Bool} (c : Char) (w before : Str) :
    headIs word ((c :: w).reverse ++ before) = word (w.getLastD c) := by
  rcases List.eq_nil_or_concat' w with rfl | ⟨v, x, rfl⟩
  · rfl
  · rw [List.getLastD_concat, ← List.cons_append, List.reverse_append]
    rfl

/-- The texts that a pattern between two boundaries finds, if it does not look around itself. -/
def closedShape (core : Pattern) (lit : Str)
    (hCore : ∀ {before m after}, Matches (isWord other) core before m after ↔
      Matches (isWord other) core [] m [])
    (hSecret : ∀ {w}, Matches (isWord other) core [] w [] → IsSecret lit w)
    (hLit : headIs (isWord other) lit = true) (hPlain : '[' ∉ lit ∧ ']' ∉ lit) :
    Shape (isWord other) where
  pattern := bounded core
  closed := true
  fold := id
  heads := [lit]
  Body w := Matches (isWord other) core [] w []
  starts {w} h := by
    rw [← List.append_nil w]
    exact (hSecret h).starts hLit []
  plain h := (hSecret h).plain hPlain
  last h := (hSecret h).last
  known h := by
    obtain ⟨ws, v, rfl, -⟩ := hSecret h
    rw [List.map_id, List.append_assoc]
    exact ⟨lit, List.mem_singleton_self lit, List.prefix_append _ _⟩
  finds {before s} := by
    rw [lengths_eq_nil]
    have hStarts : ∀ {w b : Str}, Matches (isWord other) core [] w [] →
        headIs (isWord other) (w ++ b) = true := fun hBody => (hSecret hBody).starts hLit _
    constructor
    · rintro h c w b rfl hBody hBefore hEnds
      apply h (c :: w) b rfl
      rw [matches_bounded, isBoundary, isBoundary, headIs_reverse_cons, hStarts hBody, hBefore]
      rw [Ends, if_pos rfl] at hEnds
      exact ⟨rfl, hCore.mpr hBody, bne_iff_ne.mpr hEnds⟩
    · rintro h m after rfl hMatch
      rw [matches_bounded] at hMatch
      obtain ⟨hFirst, hBody, hLast⟩ := hMatch
      rw [hCore] at hBody
      cases m with
      | nil =>
          obtain ⟨u, x, hNil, -⟩ := (hSecret hBody).exists_last
          cases u <;> cases hNil
      | cons c w =>
          rw [isBoundary, hStarts hBody, bne_iff_ne, ne_eq, Bool.not_eq_true] at hFirst
          rw [isBoundary, headIs_reverse_cons, bne_iff_ne] at hLast
          apply h c w after rfl hBody hFirst
          rw [Ends, if_pos rfl]
          exact hLast

/-- A placeholder for the texts between two boundaries. -/
def closedMask (core : Pattern) (lit : Str) {repl : Str} (kept mark : Str)
    (hCore : ∀ {before m after}, Matches (isWord other) core before m after →
      IsSecret lit m ∧ ∃ m', m = kept ++ m' ∧ (kept ≠ [] → headIs isSpace m' = true))
    (hRepl : repl = kept ++ mark)
    (hKept : kept = [] ∧ mark.head? = some '[' ∨
      (∃ c k, kept = c :: k) ∧ ∃ r, mark = ' ' :: '[' :: r)
    (hLit : headIs (isWord other) lit = true) :
    Mask (isWord other) (bounded core) repl where
  kept := kept
  mark := mark
  repl_eq := hRepl
  kept_plain := hKept
  hides {before s n} hHead := by
    obtain ⟨m, after, rfl, rfl, hMatch⟩ := exists_matches (List.mem_of_head? hHead)
    obtain ⟨hFirst, hMatch, hLast⟩ := matches_bounded.mp hMatch
    obtain ⟨hSecret, m', rfl, hBlank⟩ := hCore hMatch
    have hStarts := hSecret.starts hLit after
    rw [isBoundary, hStarts, bne_iff_ne, ne_eq, Bool.not_eq_true] at hFirst
    rw [isBoundary, bne_iff_ne, ne_eq] at hLast
    refine ⟨m', after, rfl, rfl, hFirst, hStarts, ?_, hBlank, fun hAfter => ?_⟩
    · apply hSecret.exists_nonspace
      rintro rfl
      cases kept with
      | nil =>
          obtain ⟨u, x, hNil, -⟩ := hSecret.exists_last
          cases u <;> cases hNil
      | cons c kept => cases hBlank (List.cons_ne_nil c kept)
    · rw [hAfter, Bool.not_eq_true] at hLast
      exact hLast

end Shapes

section Secrets

variable (other : Char → Bool)

theorem matches_literal {word : Char → Bool} {t : String} {before m after : Str} :
    Matches word (literal t) before m after ↔ m = t.toList := by
  rw [literal, matches_text, List.map_id]

def credNames : List Str :=
  ["token::".toList, "password::".toList, "secret::".toList, "api-key::".toList,
    "api.key::".toList]

theorem matches_credName {word : Char → Bool} {before m after : Str} :
    Matches word credName before m after ↔ m.map foldCase ∈ credNames := by
  simp only [credName, ignoringCase, matches_either, matches_text, credNames, List.mem_cons,
    List.not_mem_nil, or_false]

/-- A credential is a name, and anything that is not blank behind it. -/
theorem matches_credProp {word : Char → Bool} {before m after : Str} :
    Matches word credProp before m after ↔
      isBoundary word before (m ++ after) = true ∧
        ∃ w ws v, m = w ++ (ws ++ v) ∧ w.map foldCase ∈ credNames ∧
          (∀ c ∈ ws, isSpace c = true) ∧ v ≠ [] ∧ ∀ c ∈ v, isSpace c = false := by
  simp only [credProp, matches_seq, matches_boundary, matches_credName, matches_run]
  constructor
  · rintro ⟨_, _, rfl, ⟨rfl, hFirst⟩, w, _, rfl, hName, ws, v, rfl, ⟨hWs, -⟩, hV, hOne, -⟩
    refine ⟨hFirst, w, ws, v, rfl, hName, hWs, List.ne_nil_of_length_pos hOne, fun c hC => ?_⟩
    simpa using hV c hC
  · rintro ⟨hFirst, w, ws, v, rfl, hName, hWs, hNe, hV⟩
    refine ⟨[], _, rfl, ⟨rfl, hFirst⟩, w, _, rfl, hName, ws, v, rfl, ⟨hWs, Nat.zero_le _, nofun⟩,
      fun c hC => ?_, List.length_pos_of_ne_nil hNe, nofun⟩
    rw [hV c hC]
    rfl

theorem matches_skAnthropicCore {word : Char → Bool} {before m after : Str} :
    Matches word skAnthropicCore before m after ↔
      ∃ v, m = "sk-ant-".toList ++ v ∧ (∀ c ∈ v, isKeyChar c = true) ∧ 8 ≤ v.length := by
  simp only [skAnthropicCore, matches_seq, matches_literal, matches_run]
  constructor
  · rintro ⟨_, v, rfl, rfl, hV, hLeast, -⟩
    exact ⟨v, rfl, hV, hLeast⟩
  · rintro ⟨v, rfl, hV, hLeast⟩
    exact ⟨_, v, rfl, rfl, hV, hLeast, nofun⟩

theorem lengths_literal_eq_nil {word : Char → Bool} {t : String} {before s : Str} :
    lengths word (literal t) before s = [] ↔ ¬t.toList <+: s := by
  rw [literal, lengths_text, List.map_id, List.prefix_iff_eq_take, eq_comm (a := t.toList)]
  split_ifs with h
  · simp [h]
  · simp [h]

/-- The look ahead is decided within the key. -/
theorem matches_skOpenaiCore {word : Char → Bool} {before m after : Str} :
    Matches word skOpenaiCore before m after ↔
      ∃ v, m = "sk-".toList ++ v ∧ ¬"ant-".toList <+: v ∧ (∀ c ∈ v, isKeyChar c = true) ∧
        8 ≤ v.length := by
  have hAhead : ∀ v : Str, 8 ≤ v.length →
      ("ant-".toList <+: v ++ after ↔ "ant-".toList <+: v) := by
    intro v hLength
    constructor
    · intro h
      apply List.prefix_of_prefix_length_le h (List.prefix_append v after)
      exact le_trans (by decide) hLength
    · intro h
      exact h.trans (List.prefix_append v after)
  simp only [skOpenaiCore, matches_seq, matches_literal, matches_notAhead, matches_run,
    lengths_literal_eq_nil]
  constructor
  · rintro ⟨_, _, rfl, rfl, _, v, rfl, ⟨rfl, hNot⟩, hV, hLeast, -⟩
    exact ⟨v, rfl, fun h => hNot ((hAhead v hLeast).mpr h), hV, hLeast⟩
  · rintro ⟨v, rfl, hNot, hV, hLeast⟩
    exact ⟨_, v, rfl, rfl, [], v, rfl, ⟨rfl, fun h => hNot ((hAhead v hLeast).mp h)⟩, hV, hLeast,
      nofun⟩

theorem matches_bearerCore {word : Char → Bool} {before m after : Str} :
    Matches word bearerCore before m after ↔
      ∃ ws v, m = "Bearer".toList ++ (ws ++ v) ∧ ws ≠ [] ∧ (∀ c ∈ ws, isSpace c = true) ∧
        (∀ c ∈ v, isBearerChar c = true) ∧ 20 ≤ v.length := by
  simp only [bearerCore, matches_seq, matches_literal, matches_run]
  constructor
  · rintro ⟨_, _, rfl, rfl, ws, v, rfl, ⟨hWs, hOne, -⟩, hV, hLeast, -⟩
    exact ⟨ws, v, rfl, List.ne_nil_of_length_pos hOne, hWs, hV, hLeast⟩
  · rintro ⟨ws, v, rfl, hNe, hWs, hV, hLeast⟩
    exact ⟨_, _, rfl, rfl, ws, v, rfl, ⟨hWs, List.length_pos_of_ne_nil hNe, nofun⟩, hV, hLeast,
      nofun⟩

theorem matches_awsKeyCore {word : Char → Bool} {before m after : Str} :
    Matches word awsKeyCore before m after ↔
      ∃ v, m = "AKIA".toList ++ v ∧ (∀ c ∈ v, isAwsChar c = true) ∧ v.length = 16 := by
  simp only [awsKeyCore, matches_seq, matches_literal, matches_run]
  constructor
  · rintro ⟨_, v, rfl, rfl, hV, hLeast, hMost⟩
    exact ⟨v, rfl, hV, le_antisymm (hMost 16 rfl) hLeast⟩
  · rintro ⟨v, rfl, hV, hLength⟩
    refine ⟨_, v, rfl, rfl, hV, hLength.ge, ?_⟩
    rintro _ ⟨rfl⟩
    exact hLength.le

theorem matches_jwtCore {word : Char → Bool} {before m after : Str} :
    Matches word jwtCore before m after ↔
      ∃ header payload signature,
        m = "eyJ".toList ++ (header ++ (".".toList ++ (payload ++ (".".toList ++ signature)))) ∧
          ∀ part ∈ [header, payload, signature],
            (∀ c ∈ part, isKeyChar c = true) ∧ 10 ≤ part.length := by
  simp only [jwtCore, matches_seq, matches_literal, matches_run]
  constructor
  · rintro ⟨_, _, rfl, rfl, u, _, rfl, ⟨hU, hULeast, -⟩, _, _, rfl, rfl, v, _, rfl,
      ⟨hV, hVLeast, -⟩, _, x, rfl, rfl, hX, hXLeast, -⟩
    refine ⟨u, v, x, rfl, ?_⟩
    simp only [List.forall_mem_cons]
    exact ⟨⟨hU, hULeast⟩, ⟨hV, hVLeast⟩, ⟨hX, hXLeast⟩, nofun⟩
  · rintro ⟨u, v, x, rfl, hParts⟩
    simp only [List.forall_mem_cons] at hParts
    obtain ⟨⟨hU, hULeast⟩, ⟨hV, hVLeast⟩, ⟨hX, hXLeast⟩, -⟩ := hParts
    exact ⟨_, _, rfl, rfl, u, _, rfl, ⟨hU, hULeast, nofun⟩, _, _, rfl, rfl, v, _, rfl,
      ⟨hV, hVLeast, nofun⟩, _, x, rfl, rfl, hX, hXLeast, nofun⟩

theorem isBearerChar_of_isKeyChar {c : Char} (h : isKeyChar c = true) : isBearerChar c = true := by
  simp only [isKeyChar, isBearerChar, Bool.or_eq_true, decide_eq_true_eq] at h ⊢
  rcases h with (h | rfl) | rfl
  · exact Or.inl h
  · exact Or.inr (by decide)
  · exact Or.inr (by decide)

theorem isBearerChar_of_isAwsChar {c : Char} (h : isAwsChar c = true) : isBearerChar c = true := by
  rw [isBearerChar, isAsciiAlnum]
  rw [isAwsChar, Bool.or_eq_true] at h
  rcases h with h | h
  · rw [h, Bool.or_true, Bool.true_or]
  · rw [h, Bool.true_or, Bool.true_or, Bool.true_or]

theorem isSecret_of_append {lit v : Str} (hNe : 0 < v.length)
    (hV : ∀ c ∈ v, isBearerChar c = true) : IsSecret lit (lit ++ v) :=
  ⟨[], v, by rw [List.append_nil], nofun, List.ne_nil_of_length_pos hNe, hV⟩

theorem isSecret_of_skAnthropic {word : Char → Bool} {before m after : Str}
    (h : Matches word skAnthropicCore before m after) : IsSecret "sk-ant-".toList m := by
  obtain ⟨v, rfl, hV, hLeast⟩ := matches_skAnthropicCore.mp h
  exact isSecret_of_append (by omega) fun c hC => isBearerChar_of_isKeyChar (hV c hC)

theorem isSecret_of_skOpenai {word : Char → Bool} {before m after : Str}
    (h : Matches word skOpenaiCore before m after) : IsSecret "sk-".toList m := by
  obtain ⟨v, rfl, -, hV, hLeast⟩ := matches_skOpenaiCore.mp h
  exact isSecret_of_append (by omega) fun c hC => isBearerChar_of_isKeyChar (hV c hC)

theorem isSecret_of_bearer {word : Char → Bool} {before m after : Str}
    (h : Matches word bearerCore before m after) : IsSecret "Bearer".toList m := by
  obtain ⟨ws, v, rfl, -, hWs, hV, hLeast⟩ := matches_bearerCore.mp h
  exact ⟨ws, v, (List.append_assoc _ _ _).symm, hWs, List.ne_nil_of_length_pos (by omega), hV⟩

theorem isSecret_of_awsKey {word : Char → Bool} {before m after : Str}
    (h : Matches word awsKeyCore before m after) : IsSecret "AKIA".toList m := by
  obtain ⟨v, rfl, hV, hLength⟩ := matches_awsKeyCore.mp h
  exact isSecret_of_append (by omega) fun c hC => isBearerChar_of_isAwsChar (hV c hC)

theorem isSecret_of_jwt {word : Char → Bool} {before m after : Str}
    (h : Matches word jwtCore before m after) : IsSecret "eyJ".toList m := by
  obtain ⟨u, v, x, rfl, hParts⟩ := matches_jwtCore.mp h
  apply isSecret_of_append
  · have := (hParts u List.mem_cons_self).2
    rw [List.length_append]
    omega
  · have hDot : ∀ c ∈ ".".toList, isBearerChar c = true := by decide
    have hPart : ∀ part ∈ [u, v, x], ∀ c ∈ part, isBearerChar c = true :=
      fun part hMem c hC => isBearerChar_of_isKeyChar ((hParts part hMem).1 c hC)
    simp only [List.forall_mem_cons] at hPart
    obtain ⟨hU, hV, hX, -⟩ := hPart
    simp only [List.forall_mem_append]
    exact ⟨hU, hDot, hV, hDot, hX⟩

section Names

theorem isWord_of_foldCase {c : Char} (h : isAsciiAlnum (foldCase c) = true) :
    isWord other c = true := by
  rw [foldCase] at h
  simp only [isWord, Bool.or_eq_true, decide_eq_true_eq]
  split_ifs at h with hUpper hS hK hI
  · refine Or.inl (Or.inl (Or.inl ?_))
    simp [isAsciiAlnum, hUpper]
  · exact Or.inl (Or.inr (by rw [hS]; decide))
  · exact Or.inl (Or.inr (by rw [hK]; decide))
  · refine Or.inl (Or.inr ?_)
    rcases hI with rfl | rfl <;> decide
  · exact Or.inl (Or.inl (Or.inl h))

theorem foldCase_of_isSpace {c : Char} (h : isSpace c = true) : foldCase c = c := by
  have hUpper : ¬('A' ≤ c ∧ c ≤ 'Z') := by
    intro hUpper
    rw [not_isSpace_of_isAsciiAlnum (by simp [isAsciiAlnum, hUpper])] at h
    cases h
  have hMates : ∀ d ∈ ['ſ', '\u212A', 'ı', 'İ'], c ≠ d := by
    rintro d hMem rfl
    have hNot : ∀ d ∈ ['ſ', '\u212A', 'ı', 'İ'], isSpace d = false := by decide
    rw [hNot c hMem] at h
    cases h
  rw [foldCase, if_neg hUpper, if_neg (hMates 'ſ' (by decide)),
    if_neg (hMates '\u212A' (by decide)), if_neg]
  exact not_or.mpr ⟨hMates 'ı' (by decide), hMates 'İ' (by decide)⟩

theorem headIs_of_credName {w : Str} (h : w.map foldCase ∈ credNames) (after : Str) :
    headIs (isWord other) (w ++ after) = true := by
  have hHeads : ∀ name ∈ credNames, headIs isAsciiAlnum name = true := by decide
  have hHead := hHeads _ h
  cases w with
  | nil => cases hHead
  | cons c w => exact isWord_of_foldCase other hHead

theorem foldCase_last_of_credName {c : Char} {w : Str} (h : (c :: w).map foldCase ∈ credNames) :
    foldCase (w.getLastD c) = ':' := by
  have hColon : ∀ name ∈ credNames, name.getLastD 'a' = ':' := by decide
  rw [← hColon _ h, List.map_cons, List.getLastD_cons]
  rcases List.eq_nil_or_concat' w with rfl | ⟨v, x, rfl⟩
  · rfl
  · rw [List.map_append, List.getLastD_concat, List.map_singleton, List.getLastD_concat]

theorem not_isSpace_last_of_credName {c : Char} {w : Str}
    (h : (c :: w).map foldCase ∈ credNames) : isSpace (w.getLastD c) = false := by
  cases hSpace : isSpace (w.getLastD c) with
  | false => rfl
  | true =>
      have hLast := foldCase_last_of_credName h
      rw [foldCase_of_isSpace hSpace] at hLast
      rw [hLast] at hSpace
      cases hSpace

end Names

/-- Credentials: their names, with something behind them. -/
def credShape : Shape (isWord other) where
  pattern := credProp
  closed := false
  fold := foldCase
  heads := credNames
  Body w := w.map foldCase ∈ credNames
  starts {w} h := by
    rw [← List.append_nil w]
    exact headIs_of_credName other h []
  plain h := by
    have hNames : ∀ name ∈ credNames, '[' ∉ name ∧ ']' ∉ name := by decide
    exact ⟨fun hMem => (hNames _ h).1 (List.mem_map_of_mem (f := foldCase) hMem),
      fun hMem => (hNames _ h).2 (List.mem_map_of_mem (f := foldCase) hMem)⟩
  last h := not_isSpace_last_of_credName h
  known h := ⟨_, h, List.prefix_refl _⟩
  finds {before s} := by
    rw [lengths_eq_nil]
    constructor
    · rintro h c w b rfl hName hBefore ⟨d, hMem, hD⟩
      -- the blanks behind the name, and what is not blank behind them
      obtain ⟨v, hV⟩ : ∃ v, v = (b.dropWhile isSpace).takeWhile fun c => !isSpace c := ⟨_, rfl⟩
      have hB : b = b.takeWhile isSpace ++
          (v ++ (b.dropWhile isSpace).dropWhile fun c => !isSpace c) := by
        rw [hV, List.takeWhile_append_dropWhile, List.takeWhile_append_dropWhile]
      have hNe : v ≠ [] := by
        intro hNil
        have hSplit := List.takeWhile_append_dropWhile (p := isSpace) (l := b)
        cases hDrop : b.dropWhile isSpace with
        | nil =>
            rw [hDrop, List.append_nil] at hSplit
            rw [← hSplit] at hMem
            rw [List.mem_takeWhile_imp hMem] at hD
            cases hD
        | cons e b' =>
            have hE : isSpace e = false := by
              have := List.head?_dropWhile_not isSpace b
              rw [hDrop] at this
              exact this
            rw [hV, hDrop, List.takeWhile_cons_of_pos (by rw [hE]; rfl)] at hNil
            cases hNil
      refine h (c :: w ++ (b.takeWhile isSpace ++ v)) _
        (by rw [List.append_assoc, List.append_assoc, ← hB]) (matches_credProp.mpr ⟨?_, c :: w,
          b.takeWhile isSpace, v, rfl, hName, fun c hC => List.mem_takeWhile_imp hC, hNe, ?_⟩)
      · rw [isBoundary, hBefore, List.append_assoc, headIs_of_credName other hName]
        rfl
      · intro c hC
        rw [hV] at hC
        have hNot := List.mem_takeWhile_imp hC
        simpa using hNot
    · rintro h m after rfl hMatch
      obtain ⟨hFirst, w, ws, v, rfl, hName, -, hNe, hV⟩ := matches_credProp.mp hMatch
      cases w with
      | nil => exact absurd (hName : [] ∈ credNames) (by decide)
      | cons c w =>
          rw [isBoundary, List.append_assoc, headIs_of_credName other hName, bne_iff_ne, ne_eq,
            Bool.not_eq_true] at hFirst
          obtain ⟨d, v, rfl⟩ := List.exists_cons_of_ne_nil hNe
          refine h c w (ws ++ (d :: v) ++ after) (List.append_assoc _ _ _) hName hFirst ?_
          exact ⟨d, by simp, hV d List.mem_cons_self⟩

theorem credMask_hides {before s : Str} {n : ℕ}
    (hHead : (lengths (isWord other) credProp before s).head? = some n) :
    ∃ m after, s = m ++ after ∧ n = m.length ∧ headIs (isWord other) before = false ∧
      headIs (isWord other) s = true ∧ (∃ c ∈ m, isSpace c = false) ∧
      headIs (isWord other) after = false := by
  obtain ⟨m, after, rfl, rfl, hPrefers⟩ := exists_prefers hHead
  obtain ⟨u, rest, rfl, hBoundary, hRest⟩ := exists_prefers_of_seq hPrefers
  obtain ⟨rfl, hFirst⟩ := matches_boundary.mp hBoundary
  obtain ⟨w, rest, rfl, hName, hRest⟩ := exists_prefers_of_seq hRest
  obtain ⟨ws, v, rfl, -, hRun⟩ := exists_prefers_of_seq hRest
  rw [matches_credName] at hName
  obtain ⟨hV, hOne, -⟩ := matches_run.mp (List.mem_of_head? hRun)
  have hAfter := headIs_eq_false_of_prefers hRun
  have hStarts : headIs (isWord other) (w ++ (ws ++ v) ++ after) = true := by
    rw [List.append_assoc]
    exact headIs_of_credName other hName _
  rw [isBoundary, hStarts, bne_iff_ne, ne_eq, Bool.not_eq_true] at hFirst
  refine ⟨_, after, rfl, rfl, hFirst, hStarts, ?_, ?_⟩
  · obtain ⟨d, v, rfl⟩ := List.exists_cons_of_length_pos hOne
    exact ⟨d, by simp, by simpa using hV d List.mem_cons_self⟩
  · cases after with
    | nil => rfl
    | cons c after => exact isWord_of_isSpace other (by simpa [headIs] using hAfter)

def credMask : Mask (isWord other) credProp "[REDACTED_CREDENTIAL_PROPERTY]".toList where
  kept := []
  mark := "[REDACTED_CREDENTIAL_PROPERTY]".toList
  repl_eq := rfl
  kept_plain := Or.inl ⟨rfl, rfl⟩
  hides {before s n} hHead := by
    obtain ⟨m, after, hS, hN, hBefore, hStarts, hHides, hAfter⟩ := credMask_hides other hHead
    refine ⟨m, after, hS, hN, hBefore, hStarts, hHides, fun hNe => absurd rfl hNe, fun hWord => ?_⟩
    rw [hAfter] at hWord
    cases hWord

def skAnthropicShape : Shape (isWord other) :=
  closedShape other skAnthropicCore "sk-ant-".toList
    (matches_skAnthropicCore.trans matches_skAnthropicCore.symm) isSecret_of_skAnthropic rfl
    (by decide)

def skOpenaiShape : Shape (isWord other) :=
  closedShape other skOpenaiCore "sk-".toList
    (matches_skOpenaiCore.trans matches_skOpenaiCore.symm) isSecret_of_skOpenai rfl (by decide)

def bearerShape : Shape (isWord other) :=
  closedShape other bearerCore "Bearer".toList
    (matches_bearerCore.trans matches_bearerCore.symm) isSecret_of_bearer rfl (by decide)

def awsKeyShape : Shape (isWord other) :=
  closedShape other awsKeyCore "AKIA".toList
    (matches_awsKeyCore.trans matches_awsKeyCore.symm) isSecret_of_awsKey rfl (by decide)

def jwtShape : Shape (isWord other) :=
  closedShape other jwtCore "eyJ".toList (matches_jwtCore.trans matches_jwtCore.symm)
    isSecret_of_jwt rfl (by decide)

/-- A placeholder that is a bracketed text. -/
def bracketMask (core : Pattern) (lit repl : Str)
    (hSecret : ∀ {before m after}, Matches (isWord other) core before m after → IsSecret lit m)
    (hRepl : repl.head? = some '[') (hLit : headIs (isWord other) lit = true) :
    Mask (isWord other) (bounded core) repl :=
  closedMask other core lit [] repl
    (fun h => ⟨hSecret h, _, rfl, fun hNe => absurd rfl hNe⟩) rfl (Or.inl ⟨rfl, hRepl⟩) hLit

def bearerMask : Mask (isWord other) bearer "Bearer [REDACTED]".toList :=
  closedMask other bearerCore "Bearer".toList "Bearer".toList " [REDACTED]".toList
    (fun {before m after} h => by
      refine ⟨isSecret_of_bearer h, ?_⟩
      obtain ⟨ws, v, rfl, hNe, hWs, -⟩ := matches_bearerCore.mp h
      obtain ⟨c, ws, rfl⟩ := List.exists_cons_of_ne_nil hNe
      exact ⟨_, rfl, fun _ => hWs c List.mem_cons_self⟩)
    (by decide) (Or.inr ⟨⟨'B', "earer".toList, by decide⟩, "REDACTED]".toList, by decide⟩) rfl

theorem sealed_of_known {word : Char → Bool} {shape : Shape word} {y out w b : Str}
    (h : sealedBy shape.fold shape.heads y = true) (hEq : w ++ b = y ++ out) : ¬shape.Body w := by
  intro hBody
  obtain ⟨k, hMem, hK⟩ := shape.known hBody
  have hMap := congrArg (List.map shape.fold) hEq
  rw [List.map_append, List.map_append] at hMap
  have hPrefix : k <+: y.map shape.fold ++ out.map shape.fold := by
    rw [← hMap]
    exact hK.trans (List.prefix_append _ _)
  have hNot := List.all_eq_true.mp h k hMem
  rw [Bool.and_eq_true, Bool.not_eq_true', Bool.not_eq_true', Bool.eq_false_iff,
    Bool.eq_false_iff, ne_eq, ne_eq, List.isPrefixOf_iff_prefix, List.isPrefixOf_iff_prefix] at hNot
  rcases List.prefix_or_prefix_of_prefix hPrefix (List.prefix_append _ _) with hLeft | hRight
  · exact hNot.1 hLeft
  · exact hNot.2 hRight

theorem sealed_of_all {word : Char → Bool} {shape : Shape word} {repl : Str}
    (h : repl.tails.all (fun y => y = [] || sealedBy shape.fold shape.heads y) = true) :
    Sealed word shape repl := by
  intro y out w b hSuffix hNe hEq
  have hY := List.all_eq_true.mp h y ((List.mem_tails y repl).mpr hSuffix)
  rw [Bool.or_eq_true, decide_eq_true_eq] at hY
  exact sealed_of_known (hY.resolve_left hNe) hEq

/-- Behind a kept `Bearer` and its blank there is a bracket, which is no key. -/
theorem sealed_bearer : Sealed (isWord other) (bearerShape other) "Bearer [REDACTED]".toList := by
  intro y out w b hSuffix hNe hEq hBody
  have hRepl : "Bearer [REDACTED]".toList = 'B' :: "earer [REDACTED]".toList := by decide
  have hMark : "Bearer [REDACTED]".toList =
      "Bearer".toList ++ ' ' :: '[' :: "REDACTED]".toList := by decide
  rw [hRepl] at hSuffix
  rcases List.suffix_cons_iff.mp hSuffix with hWhole | hSuffix
  · obtain ⟨ws, v, rfl, hWsNe, hWs, hV, hLeast⟩ := matches_bearerCore.mp hBody
    rw [hWhole, ← hRepl, hMark, List.append_assoc, List.append_assoc, List.append_assoc,
      List.append_cancel_left_eq] at hEq
    obtain ⟨c, ws, rfl⟩ := List.exists_cons_of_ne_nil hWsNe
    have hRest := (List.cons.inj hEq).2
    cases ws with
    | nil =>
        obtain ⟨d, v, rfl⟩ := List.exists_cons_of_length_pos (l := v) (by omega)
        have hD : isBearerChar '[' = true := by
          rw [← (List.cons.inj hRest).1]
          exact hV d List.mem_cons_self
        cases hD
    | cons d ws =>
        have hD : isSpace '[' = true := by
          rw [← (List.cons.inj hRest).1]
          exact hWs d (List.mem_cons_of_mem _ List.mem_cons_self)
        cases hD
  · have hBehind : Sealed _ (bearerShape other) "earer [REDACTED]".toList := sealed_of_all rfl
    exact hBehind y out w b hSuffix hNe hEq hBody

/-- A pattern with its placeholder, which hides what the pattern finds. -/
structure Rule where
  shape : Shape (isWord other)
  repl : Str
  mask : Mask (isWord other) shape.pattern repl
  sealed : Sealed (isWord other) shape repl

def credRule : Rule other := ⟨credShape other, _, credMask other, sealed_of_all rfl⟩

def keyRules : List (Rule other) :=
  [⟨skAnthropicShape other, "[REDACTED_API_KEY]".toList,
      bracketMask other _ _ _ isSecret_of_skAnthropic rfl rfl, sealed_of_all rfl⟩,
    ⟨skOpenaiShape other, "[REDACTED_API_KEY]".toList,
      bracketMask other _ _ _ isSecret_of_skOpenai rfl rfl, sealed_of_all rfl⟩,
    ⟨bearerShape other, _, bearerMask other, sealed_bearer other⟩,
    ⟨awsKeyShape other, "[REDACTED_AWS_KEY]".toList,
      bracketMask other _ _ _ isSecret_of_awsKey rfl rfl, sealed_of_all rfl⟩,
    ⟨jwtShape other, "[REDACTED_JWT]".toList,
      bracketMask other _ _ _ isSecret_of_jwt rfl rfl, sealed_of_all rfl⟩]

def rules : List (Rule other) := credRule other :: keyRules other

theorem closed_of_mem_keyRules : ∀ rule ∈ keyRules other, rule.shape.closed = true := by
  simp only [keyRules, List.forall_mem_cons]
  exact ⟨rfl, rfl, rfl, rfl, rfl, nofun⟩

theorem rules_patterns :
    (rules other).map (fun rule => (rule.shape.pattern, rule.repl)) = secretPatterns := rfl

/-- No later placeholder makes a secret of an earlier pattern. -/
theorem rules_sealed : (rules other).Pairwise fun earlier later =>
    Sealed (isWord other) earlier.shape later.repl := by
  have hChecked : (rules other).Pairwise fun earlier later =>
      later.repl.tails.all (fun y => y = [] || sealedBy earlier.shape.fold earlier.shape.heads y) =
        true := by
    simp only [rules, keyRules, List.pairwise_cons, List.forall_mem_cons]
    exact ⟨⟨rfl, rfl, rfl, rfl, rfl, nofun⟩, ⟨rfl, rfl, rfl, rfl, nofun⟩, ⟨rfl, rfl, rfl, nofun⟩,
      ⟨rfl, rfl, nofun⟩, ⟨rfl, nofun⟩, nofun, .nil⟩
  exact hChecked.imp fun h => sealed_of_all h

end Secrets

section Redaction

variable {other : Char → Bool}

theorem Rule.free_substitute (rule : Rule other) (t : Str) :
    Free (isWord other) rule.shape.pattern
      (substitute other t (rule.shape.pattern, rule.repl)) := by
  refine free_sub rule.mask rule.sealed (isWord_open other) (fun _ => isWord_of_isSpace other) ?_
  intro a b _ hNone
  exact finder_eq_none.mp hNone

/-- A substitution whose placeholder is sealed makes no secret of another shape. -/
theorem Rule.spares (rule : Rule other) {shape : Shape (isWord other)}
    (hSealed : Sealed (isWord other) shape rule.repl) {t : Str}
    (h : Free (isWord other) shape.pattern t) :
    Free (isWord other) shape.pattern (substitute other t (rule.shape.pattern, rule.repl)) :=
  free_sub rule.mask hSealed (isWord_open other) (fun _ => isWord_of_isSpace other)
    fun a b hAB _ => h a b hAB

def applyRules (l : List (Rule other)) (t : Str) : Str :=
  l.foldl (fun out rule => substitute other out (rule.shape.pattern, rule.repl)) t

theorem free_applyRules_of_free {l : List (Rule other)} {shape : Shape (isWord other)}
    (hSealed : ∀ rule ∈ l, Sealed (isWord other) shape rule.repl) {t : Str}
    (h : Free (isWord other) shape.pattern t) :
    Free (isWord other) shape.pattern (applyRules l t) := by
  induction l generalizing t with
  | nil => exact h
  | cons rule l ih =>
      exact ih (fun later hMem => hSealed later (List.mem_cons_of_mem _ hMem))
        (rule.spares (hSealed rule List.mem_cons_self) h)

/-- What one rule clears stays clear of it through all later rules. -/
theorem free_applyRules {l : List (Rule other)}
    (hSealed : l.Pairwise fun earlier later => Sealed (isWord other) earlier.shape later.repl)
    (t : Str) : ∀ rule ∈ l, Free (isWord other) rule.shape.pattern (applyRules l t) := by
  induction l generalizing t with
  | nil => nofun
  | cons rule l ih =>
      rw [List.pairwise_cons] at hSealed
      intro later hMem
      rcases List.mem_cons.mp hMem with rfl | hMem
      · exact free_applyRules_of_free hSealed.1 (later.free_substitute t)
      · exact ih hSealed.2 _ later hMem

theorem redactSecretsInText_eq (t : Str) :
    redactSecretsInText other t = applyRules (rules other) t := by
  have hFold : applyRules (rules other) t = secretPatterns.foldl (substitute other) t := by
    rw [← rules_patterns other, List.foldl_map]
    rfl
  rw [redactSecretsInText, hFold]
  split_ifs with hNil
  · subst hNil
    rfl
  · rfl

theorem free_redacted (t : Str) :
    ∀ p ∈ secretPatterns, Free (isWord other) p.1 (redactSecretsInText other t) := by
  intro p hP
  rw [← rules_patterns other] at hP
  obtain ⟨rule, hMem, rfl⟩ := List.mem_map.mp hP
  rw [redactSecretsInText_eq]
  exact free_applyRules (rules_sealed other) t rule hMem

/-- There are no violations in a text exactly if no pattern has a match. -/
theorem secretViolationsInText_eq_nil {t : Str} :
    secretViolationsInText other t = [] ↔
      ∀ p ∈ secretPatterns, Free (isWord other) p.1 t := by
  have hIssue : ∀ p issue, issueIf other p t issue = [] ↔ Free (isWord other) p t := by
    intro p issue
    rw [issueIf, Free, ← search_eq_false]
    cases search (isWord other) p t <;> simp
  simp only [secretViolationsInText, List.append_eq_nil_iff, hIssue, secretPatterns,
    List.forall_mem_cons, List.not_mem_nil, false_imp_iff, implies_true, and_true, and_assoc]

theorem foldl_substitute_eq_self {l : List (Pattern × Str)} {t : Str}
    (hRewritten : ∀ p ∈ l, Rewritten (finder (isWord other) p.1 p.2) [] t (substitute other t p))
    (h : ∀ p ∈ l, Free (isWord other) p.1 t) : l.foldl (substitute other) t = t := by
  induction l with
  | nil => rfl
  | cons p l ih =>
      have hSame : substitute other t p = t := by
        apply (hRewritten p List.mem_cons_self).eq_self
        intro a b hAB
        rw [List.append_nil, finder_eq_none]
        exact h p List.mem_cons_self a b hAB
      rw [List.foldl_cons, hSame]
      exact ih (fun p hMem => hRewritten p (List.mem_cons_of_mem _ hMem))
        fun p hMem => h p (List.mem_cons_of_mem _ hMem)

/-- A text without violations is not changed. -/
theorem redactSecretsInText_eq_self {t : Str} (h : secretViolationsInText other t = []) :
    redactSecretsInText other t = t := by
  rw [redactSecretsInText]
  split_ifs with hNil
  · rfl
  · apply foldl_substitute_eq_self
    · intro p hP
      rw [← rules_patterns other] at hP
      obtain ⟨rule, -, rfl⟩ := List.mem_map.mp hP
      exact rewritten_finder rule.mask t
    · exact secretViolationsInText_eq_nil.mp h

theorem no_violations_redacted (t : Str) :
    secretViolationsInText other (redactSecretsInText other t) = [] :=
  secretViolationsInText_eq_nil.mpr (free_redacted t)

/-- Redaction leaves no violation, and nothing for a second redaction. -/
theorem redaction_complete (other : Char → Bool) (t : Str) :
    secretViolationsInText other (redactSecretsInText other t) = [] ∧
      redactSecretsInText other (redactSecretsInText other t) = redactSecretsInText other t :=
  ⟨no_violations_redacted t, redactSecretsInText_eq_self (no_violations_redacted t)⟩

end Redaction

end Plumber.SecretRedaction
