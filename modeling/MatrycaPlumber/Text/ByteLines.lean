import MatrycaPlumber.Text.Basic

/-! The lines of a byte string, which `\n`, `\r` and `\r\n` end, and the last of them. -/
namespace PyText

/-- `b.splitlines(keepends=True)` of a byte string. -/
def byteLines : Str → List Str
  | [] => []
  | '\r' :: '\n' :: rest => ['\r', '\n'] :: byteLines rest
  | c :: rest =>
      if c = '\n' ∨ c = '\r' then [c] :: byteLines rest
      else match byteLines rest with
        | [] => [[c]]
        | line :: lines => (c :: line) :: lines

/-- `b[b.rfind(b"\n") + 1:]`. -/
def lastLine (s : Str) : Str := s.rtakeWhile (· ≠ '\n')

/-- A text that no line of a byte string ends in. -/
def OneLine (s : Str) : Prop := ∀ c ∈ s, c ≠ '\n' ∧ c ≠ '\r'

variable {s : Str} {c : Char}

theorem OneLine.nil : OneLine [] := List.forall_mem_nil _

theorem oneLine_cons : OneLine (c :: s) ↔ (c ≠ '\n' ∧ c ≠ '\r') ∧ OneLine s := List.forall_mem_cons

theorem OneLine.of_isPrefix {p : Str} (h : OneLine s) (hPrefix : p <+: s) : OneLine p :=
  fun c hC => h c (hPrefix.subset hC)

theorem OneLine.getLast?_ne (h : OneLine s) : s.getLast? ≠ some '\n' ∧ s.getLast? ≠ some '\r' := by
  constructor <;> intro hLast
  · exact (h _ (List.mem_of_getLast? hLast)).1 rfl
  · exact (h _ (List.mem_of_getLast? hLast)).2 rfl

theorem byteLines_cons (h : c ≠ '\n' ∧ c ≠ '\r') (rest : Str) :
    byteLines (c :: rest) = match byteLines rest with
      | [] => [[c]]
      | line :: lines => (c :: line) :: lines := by
  rw [byteLines, if_neg (not_or.mpr h)]
  rintro rest' rfl
  exact fun _ => absurd rfl h.2

/-- A record with its end is one line. -/
theorem byteLines_record (h : OneLine s) (rest : Str) :
    byteLines (s ++ '\n' :: rest) = (s ++ ['\n']) :: byteLines rest := by
  induction s with
  | nil =>
      rw [List.nil_append, byteLines, if_pos (.inl rfl), List.nil_append]
      rintro rest' hEq
      cases hEq
  | cons c s ih =>
      rw [oneLine_cons] at h
      rw [List.cons_append, byteLines_cons h.1, ih h.2]
      rfl

/-- What is behind the last end is one line. -/
theorem byteLines_rest (h : OneLine s) : byteLines s = if s = [] then [] else [s] := by
  induction s with
  | nil => rfl
  | cons c s ih =>
      rw [oneLine_cons] at h
      rw [byteLines_cons h.1, ih h.2, if_neg (List.cons_ne_nil _ _)]
      by_cases hNil : s = []
      · rw [if_pos hNil, hNil]
      · rw [if_neg hNil]

/-- Records that are ended, with a rest behind them. -/
theorem byteLines_records {records : List Str} (h : ∀ record ∈ records, OneLine record)
    (rest : Str) : byteLines (records.flatMap (· ++ ['\n']) ++ rest) =
      records.map (· ++ ['\n']) ++ byteLines rest := by
  induction records with
  | nil => rfl
  | cons record records ih =>
      rw [List.forall_mem_cons] at h
      rw [List.flatMap_cons, List.append_assoc, List.append_assoc, List.singleton_append,
        byteLines_record h.1, ih h.2]
      rfl

theorem lastLine_oneLine (h : OneLine s) : lastLine s = s := by
  rw [lastLine, List.rtakeWhile_eq_self_iff]
  intro c hC
  exact decide_eq_true (h c hC).1

theorem lastLine_append (h : OneLine s) (front : Str) : lastLine (front ++ '\n' :: s) = s := by
  induction s using List.reverseRecOn with
  | nil =>
      rw [lastLine, List.rtakeWhile_concat_neg]
      simp
  | append_singleton s c ih =>
      have hC : c ≠ '\n' := (h c (by simp)).1
      have hBefore := ih fun d hD => h d (List.mem_append_left _ hD)
      rw [lastLine, ← List.cons_append, ← List.append_assoc, List.rtakeWhile_concat_pos]
      · rw [lastLine] at hBefore
        rw [hBefore]
      · exact decide_eq_true hC

/-- The last line behind records that are ended. -/
theorem lastLine_records (h : OneLine s) (records : List Str) :
    lastLine (records.flatMap (· ++ ['\n']) ++ s) = s := by
  rcases List.eq_nil_or_concat' records with rfl | ⟨front, record, rfl⟩
  · exact lastLine_oneLine h
  · rw [List.flatMap_append, List.flatMap_cons, List.flatMap_nil, List.append_nil,
      ← List.append_assoc, List.append_assoc _ ['\n'], List.singleton_append]
    exact lastLine_append h _

end PyText
