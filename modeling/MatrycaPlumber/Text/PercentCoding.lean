import MatrycaPlumber.Text.Basic
import Mathlib.Algebra.BigOperators.Group.List.Basic

/-! Percent coding of file names: `urllib.parse.quote` on single characters, and `unquote`. -/
namespace PyText

section Model

def hexDigit (n : ℕ) : Char := "0123456789ABCDEF".toList.getD n '0'

/-- The value of a hexadecimal digit in either case. -/
def hexDigitValue? (c : Char) : Option ℕ :=
  let n := c.toNat
  if 48 ≤ n ∧ n ≤ 57 then some (n - 48)
  else if 65 ≤ n ∧ n ≤ 70 then some (n - 55)
  else if 97 ≤ n ∧ n ≤ 102 then some (n - 87)
  else none

/-- `quote(c, safe="")` of an ASCII character that is not left as it is. -/
def quoteChar (c : Char) : Str := ['%', hexDigit (c.toNat / 16), hexDigit (c.toNat % 16)]

/-- The text with the reserved characters quoted. -/
def quoteReserved (reserved : List Char) (s : Str) : Str :=
  s.flatMap fun c => if c ∈ reserved then quoteChar c else [c]

/-- The byte that `%` and two digits stand for at the head of the text. -/
def escape? : Str → Option ℕ
  | '%' :: h :: l :: _ =>
      match hexDigitValue? h, hexDigitValue? l with
      | some high, some low => some (16 * high + low)
      | _, _ => none
  | _ => none

/-- `unquote_to_bytes`, with the number of characters still to be passed. -/
def unquoteToBytes : ℕ → Str → List ℕ
  | _, [] => []
  | skip + 1, _ :: s => unquoteToBytes skip s
  | 0, c :: s =>
      match escape? (c :: s) with
      | some byte => byte :: unquoteToBytes 2 s
      | none => c.toNat :: unquoteToBytes 0 s

def replacementChar : Char := '\uFFFD'

/-- The character that starts at a byte and the number of further bytes that belong to it.
What is no character is replaced, as far as it could have been the start of one. -/
def utf8At (b : ℕ) (behind : List ℕ) : Char × ℕ :=
  let isNext (x : ℕ) : Bool := 0x80 ≤ x && x ≤ 0xBF
  if b < 0x80 then (Char.ofNat b, 0)
  else if 0xC2 ≤ b ∧ b ≤ 0xDF then
    match behind with
    | x :: _ =>
        if isNext x then (Char.ofNat (64 * (b - 0xC0) + (x - 0x80)), 1) else (replacementChar, 0)
    | [] => (replacementChar, 0)
  else if 0xE0 ≤ b ∧ b ≤ 0xEF then
    match behind with
    | x :: rest =>
        if (if b = 0xE0 then 0xA0 else 0x80) ≤ x ∧ x ≤ (if b = 0xED then 0x9F else 0xBF) then
          match rest with
          | y :: _ =>
              if isNext y then
                (Char.ofNat (4096 * (b - 0xE0) + 64 * (x - 0x80) + (y - 0x80)), 2)
              else (replacementChar, 1)
          | [] => (replacementChar, 1)
        else (replacementChar, 0)
    | [] => (replacementChar, 0)
  else if 0xF0 ≤ b ∧ b ≤ 0xF4 then
    match behind with
    | x :: rest =>
        if (if b = 0xF0 then 0x90 else 0x80) ≤ x ∧ x ≤ (if b = 0xF4 then 0x8F else 0xBF) then
          match rest with
          | y :: rest =>
              if isNext y then
                match rest with
                | z :: _ =>
                    if isNext z then
                      (Char.ofNat (262144 * (b - 0xF0) + 4096 * (x - 0x80) + 64 * (y - 0x80) +
                        (z - 0x80)), 3)
                    else (replacementChar, 2)
                | [] => (replacementChar, 2)
              else (replacementChar, 1)
          | [] => (replacementChar, 1)
        else (replacementChar, 0)
    | [] => (replacementChar, 0)
  else (replacementChar, 0)

/-- `bytes.decode("utf-8", "replace")`, with the number of bytes still to be passed. -/
def decodeUtf8 : ℕ → List ℕ → Str
  | _, [] => []
  | skip + 1, _ :: bytes => decodeUtf8 skip bytes
  | 0, b :: bytes =>
      let (c, further) := utf8At b bytes
      c :: decodeUtf8 further bytes

/-- `_generate_unquoted_parts`, with the run of ASCII characters in front. -/
def unquoteParts (run : Str) : Str → Str
  | [] => decodeUtf8 0 (unquoteToBytes 0 run)
  | c :: s =>
      if c.toNat < 128 then unquoteParts (run ++ [c]) s
      else decodeUtf8 0 (unquoteToBytes 0 run) ++ c :: unquoteParts [] s

/-- `urllib.parse.unquote`. -/
def unquote (s : Str) : Str := if '%' ∈ s then unquoteParts [] s else s

/-- A percent sign with two digits behind it. -/
def hasEscape : Str → Bool
  | [] => false
  | c :: s => (escape? (c :: s)).isSome || hasEscape s

end Model

/-- A character outside the basic plane, one that is cut off, and a percent sign by itself. -/
example : unquote "%F0%9F%A4%96 %E2%82x %zz é%C3%A9".toList = "🤖 \uFFFDx %zz éé".toList := by
  decide +kernel

section Decoding

variable {s run : Str} {c : Char} {bytes : List ℕ}

theorem utf8At_ascii {b : ℕ} (h : b < 0x80) (behind : List ℕ) :
    utf8At b behind = (Char.ofNat b, 0) := by
  unfold utf8At
  exact if_pos h

theorem decodeUtf8_ascii (h : ∀ b ∈ bytes, b < 128) : decodeUtf8 0 bytes = bytes.map Char.ofNat := by
  induction bytes with
  | nil => rfl
  | cons b bytes ih =>
      rw [List.forall_mem_cons] at h
      rw [decodeUtf8, utf8At_ascii h.1, List.map_cons]
      dsimp only
      rw [ih h.2]

theorem map_ofNat_toNat (s : Str) : (s.map Char.toNat).map Char.ofNat = s := by
  rw [List.map_map]
  exact List.map_id'' Char.ofNat_toNat s

theorem escape?_of_ne (h : c ≠ '%') (s : Str) : escape? (c :: s) = none := by
  unfold escape?
  split
  · next hEq => exact absurd (List.cons.inj hEq).1 h
  · rfl

/-- An escape is three ASCII characters. -/
theorem escape?_eq_some {byte : ℕ} (h : escape? s = some byte) :
    ∃ a b rest, s = '%' :: a :: b :: rest ∧ hexDigitValue? a ≠ none ∧ hexDigitValue? b ≠ none := by
  unfold escape? at h
  split at h
  · next a b rest =>
      split at h
      · next hHigh hLow =>
          exact ⟨a, b, rest, rfl, by rw [hHigh]; exact Option.some_ne_none _,
            by rw [hLow]; exact Option.some_ne_none _⟩
      · cases h
  · cases h

theorem hasEscape_of_notMem (h : '%' ∉ s) : hasEscape s = false := by
  induction s with
  | nil => rfl
  | cons c s ih =>
      rw [List.mem_cons, not_or] at h
      rw [hasEscape, escape?_of_ne (Ne.symm h.1), ih h.2]
      rfl

theorem unquoteToBytes_of_not (h : hasEscape run = false) :
    unquoteToBytes 0 run = run.map Char.toNat := by
  induction run with
  | nil => rfl
  | cons c run ih =>
      rw [hasEscape, Bool.or_eq_false_iff, Option.isSome_eq_false_iff,
        Option.isNone_iff_eq_none] at h
      rw [unquoteToBytes, h.1, List.map_cons]
      dsimp only
      rw [ih h.2]

theorem lt_128_of_hexDigitValue (h : hexDigitValue? c ≠ none) : c.toNat < 128 := by
  unfold hexDigitValue? at h
  dsimp only at h
  split_ifs at h
  · omega
  · omega
  · omega
  · exact absurd rfl h

theorem escape?_append_cons (hc : ¬c.toNat < 128) (x s : Str) :
    escape? (x ++ c :: s) = escape? x := by
  have hValue : hexDigitValue? c = none := by
    by_contra hSome
    exact hc (lt_128_of_hexDigitValue hSome)
  have hPercent : c ≠ '%' := by
    rintro rfl
    exact hc (by decide)
  match x with
  | [] => exact escape?_of_ne hPercent s
  | [a] =>
      by_cases ha : a = '%'
      · subst ha
        cases s with
        | nil => rfl
        | cons b s => simp [escape?, hValue]
      · rw [List.singleton_append, escape?_of_ne ha, escape?_of_ne ha]
  | [a, b] =>
      by_cases ha : a = '%'
      · subst ha
        simp only [List.cons_append, List.nil_append, escape?, hValue]
        cases hexDigitValue? b <;> rfl
      · rw [List.cons_append, escape?_of_ne ha, escape?_of_ne ha]
  | a :: b :: d :: x =>
      by_cases ha : a = '%'
      · subst ha
        rfl
      · rw [List.cons_append, escape?_of_ne ha, escape?_of_ne ha]

/-- No escape reaches over a character that is not ASCII. -/
theorem hasEscape_append_cons (hc : ¬c.toNat < 128) (run s : Str) :
    hasEscape (run ++ c :: s) = (hasEscape run || hasEscape s) := by
  induction run with
  | nil =>
      have hNone := escape?_append_cons hc [] s
      rw [List.nil_append] at hNone
      show ((escape? (c :: s)).isSome || hasEscape s) = _
      rw [hNone]
      rfl
  | cons d run ih =>
      have hSame := escape?_append_cons hc (d :: run) s
      rw [List.cons_append] at hSame
      rw [List.cons_append, hasEscape, hSame, ih, hasEscape, Bool.or_assoc]

/-- A run of ASCII characters without escapes is decoded as it is. -/
theorem decodeUtf8_run (hRun : ∀ c ∈ run, c.toNat < 128) (h : hasEscape run = false) :
    decodeUtf8 0 (unquoteToBytes 0 run) = run := by
  rw [unquoteToBytes_of_not h, decodeUtf8_ascii, map_ofNat_toNat]
  intro b hb
  obtain ⟨c, hc, rfl⟩ := List.mem_map.mp hb
  exact hRun c hc

theorem unquoteParts_of_not {run : Str} (hRun : ∀ c ∈ run, c.toNat < 128) (h : hasEscape (run ++ s) = false) :
    unquoteParts run s = run ++ s := by
  induction s generalizing run with
  | nil =>
      rw [List.append_nil] at h
      rw [unquoteParts, decodeUtf8_run hRun h, List.append_nil]
  | cons c s ih =>
      rw [unquoteParts]
      split_ifs with hc
      · rw [ih, List.append_assoc, List.singleton_append]
        · exact List.forall_mem_append.mpr ⟨hRun, List.forall_mem_singleton.mpr hc⟩
        · rwa [List.append_assoc, List.singleton_append]
      · rw [hasEscape_append_cons hc, Bool.or_eq_false_iff] at h
        rw [decodeUtf8_run hRun h.1, ih (List.forall_mem_nil _) h.2, List.nil_append]

theorem unquote_of_not (h : hasEscape s = false) : unquote s = s := by
  rw [unquote]
  split_ifs
  · exact unquoteParts_of_not (List.forall_mem_nil _) h
  · rfl

theorem unquote_eq_parts (s : Str) : unquote s = unquoteParts [] s := by
  rw [unquote]
  split_ifs with h
  · rfl
  · exact (unquoteParts_of_not (List.forall_mem_nil _) (hasEscape_of_notMem h)).symm

end Decoding

section Quoting

variable {reserved : List Char} {s run : Str} {c : Char}

theorem hexDigitValue?_hexDigit {n : ℕ} (h : n < 16) : hexDigitValue? (hexDigit n) = some n := by
  have hAll : ∀ n < 16, hexDigitValue? (hexDigit n) = some n := by decide
  exact hAll n h

theorem escape?_quoteChar (hc : c.toNat < 128) (s : Str) :
    escape? (quoteChar c ++ s) = some c.toNat := by
  simp only [quoteChar, List.cons_append, List.nil_append, escape?,
    hexDigitValue?_hexDigit (show c.toNat / 16 < 16 by omega),
    hexDigitValue?_hexDigit (show c.toNat % 16 < 16 by omega)]
  rw [Nat.div_add_mod]

theorem quoteReserved_cons (c : Char) (s : Str) : quoteReserved reserved (c :: s) =
    (if c ∈ reserved then quoteChar c else [c]) ++ quoteReserved reserved s :=
  List.flatMap_cons

theorem quoteReserved_append (a b : Str) :
    quoteReserved reserved (a ++ b) = quoteReserved reserved a ++ quoteReserved reserved b :=
  List.flatMap_append

theorem unquoteToBytes_quoteReserved (hPercent : '%' ∈ reserved)
    (hRun : ∀ c ∈ run, c.toNat < 128) :
    unquoteToBytes 0 (quoteReserved reserved run) = run.map Char.toNat := by
  induction run with
  | nil => rfl
  | cons c run ih =>
      rw [List.forall_mem_cons] at hRun
      rw [quoteReserved_cons, List.map_cons]
      split_ifs with hc
      · have hEscape := escape?_quoteChar hRun.1 (quoteReserved reserved run)
        rw [quoteChar, List.cons_append] at hEscape ⊢
        rw [unquoteToBytes, hEscape]
        dsimp only
        rw [List.cons_append, List.cons_append, List.nil_append, unquoteToBytes, unquoteToBytes,
          ih hRun.2]
      · have hNe : c ≠ '%' := by
          rintro rfl
          exact hc hPercent
        rw [List.singleton_append, unquoteToBytes, escape?_of_ne hNe]
        dsimp only
        rw [ih hRun.2]

theorem unquoteParts_append {a : Str} (ha : ∀ c ∈ a, c.toNat < 128) (run s : Str) :
    unquoteParts run (a ++ s) = unquoteParts (run ++ a) s := by
  induction a generalizing run with
  | nil => rw [List.nil_append, List.append_nil]
  | cons c a ih =>
      rw [List.forall_mem_cons] at ha
      rw [List.cons_append, unquoteParts, if_pos ha.1, ih ha.2, List.append_assoc,
        List.singleton_append]

theorem hexDigit_ascii (n : ℕ) : (hexDigit n).toNat < 128 := by
  have hAll : ∀ c ∈ '0' :: "0123456789ABCDEF".toList, c.toNat < 128 := by decide
  apply hAll
  rw [hexDigit, List.getD_eq_getElem?_getD]
  cases hGet : "0123456789ABCDEF".toList[n]? with
  | none => exact List.mem_cons_self
  | some c => exact List.mem_cons_of_mem _ (List.mem_of_getElem? hGet)

theorem quoteReserved_ascii (hc : c.toNat < 128) :
    ∀ d ∈ quoteReserved reserved [c], d.toNat < 128 := by
  rw [quoteReserved, List.flatMap_singleton]
  split_ifs
  · simp only [quoteChar, List.forall_mem_cons]
    exact ⟨by decide, hexDigit_ascii _, hexDigit_ascii _, List.forall_mem_nil _⟩
  · exact List.forall_mem_singleton.mpr hc

theorem unquoteParts_quoteReserved (hPercent : '%' ∈ reserved)
    (hReserved : ∀ c ∈ reserved, c.toNat < 128) (hRun : ∀ c ∈ run, c.toNat < 128) (s : Str) :
    unquoteParts (quoteReserved reserved run) (quoteReserved reserved s) = run ++ s := by
  have hDecode {run : Str} (hRun : ∀ c ∈ run, c.toNat < 128) :
      decodeUtf8 0 (unquoteToBytes 0 (quoteReserved reserved run)) = run := by
    rw [unquoteToBytes_quoteReserved hPercent hRun, decodeUtf8_ascii, map_ofNat_toNat]
    intro b hb
    obtain ⟨c, hc, rfl⟩ := List.mem_map.mp hb
    exact hRun c hc
  induction s generalizing run with
  | nil =>
      show unquoteParts (quoteReserved reserved run) [] = _
      rw [unquoteParts, hDecode hRun, List.append_nil]
  | cons c s ih =>
      have hSplit : quoteReserved reserved (c :: s) =
          quoteReserved reserved [c] ++ quoteReserved reserved s :=
        quoteReserved_append [c] s
      by_cases hc : c.toNat < 128
      · rw [hSplit, unquoteParts_append (quoteReserved_ascii hc), ← quoteReserved_append, ih,
          List.append_assoc, List.singleton_append]
        exact List.forall_mem_append.mpr ⟨hRun, List.forall_mem_singleton.mpr hc⟩
      · have hRest := ih (List.forall_mem_nil _)
        rw [quoteReserved_cons, if_neg (fun hMem => hc (hReserved c hMem)), List.singleton_append,
          unquoteParts, if_neg hc, hDecode hRun]
        exact congrArg (fun rest => run ++ c :: rest) hRest

/-- What was quoted is read back. -/
theorem unquote_quoteReserved (hPercent : '%' ∈ reserved)
    (hReserved : ∀ c ∈ reserved, c.toNat < 128) (s : Str) :
    unquote (quoteReserved reserved s) = s := by
  rw [unquote_eq_parts]
  exact unquoteParts_quoteReserved hPercent hReserved (List.forall_mem_nil _) s

end Quoting

section Weights

/-- Characters that weigh so little that an escape weighs more than what it is decoded to. -/
structure Light (w : Char → ℕ) : Prop where
  pos : ∀ c, 1 ≤ w c
  le : ∀ c, w c ≤ 3
  percent : w '%' = 2

variable {w : Char → ℕ} {s run : Str} {bytes : List ℕ}

def weight (w : Char → ℕ) (s : Str) : ℕ := (s.map w).sum

theorem weight_nil : weight w [] = 0 := rfl

theorem weight_cons (c : Char) (s : Str) : weight w (c :: s) = w c + weight w s := by
  rw [weight, List.map_cons, List.sum_cons, weight]

theorem weight_append (a b : Str) : weight w (a ++ b) = weight w a + weight w b := by
  rw [weight, List.map_append, List.sum_append, weight, weight]

def byteWeight (w : Char → ℕ) (b : ℕ) : ℕ := if b < 128 then w (Char.ofNat b) else 3

theorem byteWeight_le (hw : Light w) (b : ℕ) : byteWeight w b ≤ 3 := by
  rw [byteWeight]
  split_ifs
  · exact hw.le _
  · exact Nat.le_refl 3

theorem weight_decodeUtf8_le (hw : Light w) (skip : ℕ) (bytes : List ℕ) :
    weight w (decodeUtf8 skip bytes) ≤ (bytes.map (byteWeight w)).sum := by
  induction bytes generalizing skip with
  | nil => cases skip <;> exact Nat.le_refl 0
  | cons b bytes ih =>
      rw [List.map_cons, List.sum_cons]
      cases skip with
      | succ skip =>
          rw [decodeUtf8]
          exact (ih skip).trans (Nat.le_add_left _ _)
      | zero =>
          rw [decodeUtf8]
          dsimp only
          rw [weight_cons]
          have hFirst : w (utf8At b bytes).1 ≤ byteWeight w b := by
            rw [byteWeight]
            split_ifs with hb
            · rw [utf8At_ascii hb]
            · exact hw.le _
          have := ih (utf8At b bytes).2
          omega

/-- Decoding the bytes of a run makes it lighter when it has an escape. -/
theorem byteWeights_le (hw : Light w) (run : Str) (hRun : ∀ c ∈ run, c.toNat < 128) :
    ((unquoteToBytes 0 run).map (byteWeight w)).sum + (if hasEscape run then 1 else 0) ≤
      weight w run := by
  have hLength : ∀ n, ∀ run : Str, run.length ≤ n → (∀ c ∈ run, c.toNat < 128) →
      ((unquoteToBytes 0 run).map (byteWeight w)).sum + (if hasEscape run then 1 else 0) ≤
        weight w run := by
    intro n
    induction n with
    | zero =>
        intro run hLength _
        obtain rfl := List.length_eq_zero_iff.mp (Nat.le_zero.mp hLength)
        exact Nat.le_refl 0
    | succ n ih =>
        intro run hLength hRun
        cases run with
        | nil => exact Nat.le_refl 0
        | cons c run =>
            rw [List.forall_mem_cons] at hRun
            rw [unquoteToBytes, hasEscape]
            cases hEscape : escape? (c :: run) with
            | none =>
                have := ih run (by simpa using hLength) hRun.2
                have hByte : byteWeight w c.toNat = w c := by
                  rw [byteWeight, if_pos hRun.1, Char.ofNat_toNat]
                dsimp only
                rw [List.map_cons, List.sum_cons, hByte, weight_cons]
                simp only [Option.isSome_none, Bool.false_or]
                omega
            | some byte =>
                obtain ⟨a, b, rest, hText, -, -⟩ := escape?_eq_some hEscape
                obtain ⟨rfl, rfl⟩ := List.cons.inj hText
                have := ih rest (by simp at hLength; omega) (fun c hc => hRun.2 c (by simp [hc]))
                have hByte := byteWeight_le hw byte
                have ha := hw.pos a
                have hb := hw.pos b
                dsimp only
                rw [unquoteToBytes, unquoteToBytes, List.map_cons, List.sum_cons, weight_cons,
                  weight_cons, weight_cons, hw.percent]
                simp only [Option.isSome_some, Bool.true_or, if_true]
                split_ifs at this <;> omega
  exact hLength run.length run (Nat.le_refl _) hRun

theorem weight_unquoteParts_le (hw : Light w) (s run : Str) (hRun : ∀ c ∈ run, c.toNat < 128) :
    weight w (unquoteParts run s) + (if hasEscape (run ++ s) then 1 else 0) ≤
      weight w (run ++ s) := by
  have hDecode (run : Str) (hRun : ∀ c ∈ run, c.toNat < 128) :
      weight w (decodeUtf8 0 (unquoteToBytes 0 run)) + (if hasEscape run then 1 else 0) ≤
        weight w run :=
    (Nat.add_le_add_right (weight_decodeUtf8_le hw 0 _) _).trans (byteWeights_le hw run hRun)
  induction s generalizing run with
  | nil =>
      rw [unquoteParts, List.append_nil]
      exact hDecode run hRun
  | cons c s ih =>
      by_cases hc : c.toNat < 128
      · rw [unquoteParts, if_pos hc, List.append_cons run c s]
        exact ih (run ++ [c]) (List.forall_mem_append.mpr ⟨hRun, List.forall_mem_singleton.mpr hc⟩)
      · have hFront := hDecode run hRun
        have hBehind := ih [] (List.forall_mem_nil _)
        rw [List.nil_append] at hBehind
        rw [unquoteParts, if_neg hc, hasEscape_append_cons hc, weight_append, weight_append,
          weight_cons, weight_cons]
        generalize hasEscape run = first at *
        generalize hasEscape s = second at *
        cases first <;> cases second <;> simp at hFront hBehind ⊢ <;> omega

/-- Unquoting a text makes it lighter if it has an escape. -/
theorem weight_unquote_lt (hw : Light w) (h : hasEscape s = true) :
    weight w (unquote s) < weight w s := by
  have hLe := weight_unquoteParts_le hw s [] (List.forall_mem_nil _)
  rw [List.nil_append, if_pos h] at hLe
  rw [unquote_eq_parts]
  exact hLe

end Weights

end PyText
