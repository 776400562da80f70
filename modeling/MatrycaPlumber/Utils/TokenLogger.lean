import MatrycaPlumber.Text.Basic
import Mathlib.Data.List.DropRight
import Mathlib.Data.List.Nodup

/-! The tail of the operations log, read backwards from its end. -/
namespace Plumber.TokenLogger

open PyText

abbrev Bytes := List UInt8

def newline : UInt8 := 10

/-- `data.split(b"\n")`. -/
def splitNewline : Bytes → List Bytes
  | [] => [[]]
  | b :: data =>
      if b = newline then [] :: splitNewline data
      else (b :: (splitNewline data).headI) :: (splitNewline data).tail

section Model

/-- `part.strip()` leaves something of it. -/
def nonblank (part : Bytes) : Bool := part.any fun b => !(b = 32 || (9 ≤ b && b ≤ 13))

def blockSize : ℕ := 8192

/-- The loop over the parts of a block, from the last one on. -/
def collectParts (count : ℕ) (collected : List Bytes) : List Bytes → List Bytes
  | [] => collected
  | part :: parts =>
      if nonblank part then
        if count ≤ (collected ++ [part]).length then collected ++ [part]
        else collectParts count (collected ++ [part]) parts
      else collectParts count collected parts

/-- The loop over the blocks. It ends with the fragment that is pending and the lines that are
collected, the last line of the file first. -/
def readBack (count : ℕ) (content : Bytes) (position : ℕ) (pending : Bytes)
    (collected : List Bytes) : Bytes × List Bytes :=
  if position = 0 ∨ count ≤ collected.length then (pending, collected)
  else
    let readSize := min blockSize position
    let parts := splitNewline ((content.drop (position - readSize)).take readSize ++ pending)
    readBack count content (position - readSize) parts.headI
      (collectParts count collected parts.tail.reverse)
termination_by position
decreasing_by
  have hBlock : 0 < blockSize := by decide
  omega

variable (decode : Bytes → Str)

/-- `tail_lines`, for the content of the file; `decode` is the decoder of a line. -/
def tailLines (count : ℤ) (content : Bytes) : List Str :=
  if count ≤ 0 then []
  else if content = [] then []
  else
    let (pending, collected) := readBack count.toNat content content.length [] []
    let collected :=
      if collected.length < count.toNat ∧ nonblank pending then collected ++ [pending] else collected
    (collected.take count.toNat).reverse.map decode

def lifecycleNoise : List Str := ["[DAEMON SHUTDOWN RECEIVED]".toList, "[DAEMON LIFECYCLE]".toList]

def isNoise (line : Str) : Bool := lifecycleNoise.any fun tag => decide (tag <:+: line)

/-- The loop over the lines of the tail, with the records that have a summary so far. -/
def keepActivity {α : Type*} (summary : α → Str) (count : ℤ) (kept : List α) : List α → List α
  | [] => kept
  | raw :: rest =>
      if isNoise (summary raw) then keepActivity summary count kept rest
      else if count ≤ (kept ++ [raw]).length then kept ++ [raw]
      else keepActivity summary count (kept ++ [raw]) rest

variable (summary : Str → Str)

/-- `tail_activity_summaries`; `summary` is what a raw line is shown as. -/
def tailActivitySummaries (count : ℤ) (content : Bytes) : List Str :=
  (keepActivity summary count [] (tailLines decode (max (count * 8) count) content)).map summary

end Model

section Splitting

theorem splitNewline_cons (b : UInt8) (data : Bytes) :
    splitNewline (b :: data) = if b = newline then [] :: splitNewline data
      else (b :: (splitNewline data).headI) :: (splitNewline data).tail := rfl

theorem splitNewline_ne_nil (data : Bytes) : splitNewline data ≠ [] := by
  cases data with
  | nil => exact List.cons_ne_nil _ _
  | cons b data =>
      rw [splitNewline_cons]
      split_ifs <;> exact List.cons_ne_nil _ _

theorem headI_cons_tail (data : Bytes) :
    (splitNewline data).headI :: (splitNewline data).tail = splitNewline data := by
  cases h : splitNewline data with
  | nil => exact absurd h (splitNewline_ne_nil data)
  | cons part parts => rfl

theorem splitNewline_of_notMem {part : Bytes} (h : newline ∉ part) :
    splitNewline part = [part] := by
  induction part with
  | nil => rfl
  | cons b part ih =>
      rw [List.mem_cons, not_or] at h
      rw [splitNewline_cons, if_neg (Ne.symm h.1), ih h.2]
      rfl

theorem newline_notMem_of_mem_splitNewline {data part : Bytes} (h : part ∈ splitNewline data) :
    newline ∉ part := by
  induction data generalizing part with
  | nil =>
      rw [List.mem_singleton.mp h]
      exact List.not_mem_nil
  | cons b data ih =>
      rw [splitNewline_cons] at h
      rw [← headI_cons_tail data] at ih
      split_ifs at h with hBreak
      · rcases List.mem_cons.mp h with rfl | hRest
        · exact List.not_mem_nil
        · rw [← headI_cons_tail data] at hRest
          exact ih hRest
      · rcases List.mem_cons.mp h with rfl | hRest
        · rw [List.mem_cons, not_or]
          exact ⟨Ne.symm hBreak, ih List.mem_cons_self⟩
        · exact ih (List.mem_cons_of_mem _ hRest)

/-- A block in front of the rest of a file changes only the first line of the rest. -/
theorem splitNewline_append (block rest : Bytes) :
    splitNewline (block ++ rest) =
      splitNewline (block ++ (splitNewline rest).headI) ++ (splitNewline rest).tail := by
  induction block with
  | nil =>
      have hFirst : newline ∉ (splitNewline rest).headI :=
        newline_notMem_of_mem_splitNewline (by
          rw [← headI_cons_tail rest]
          exact List.mem_cons_self)
      rw [List.nil_append, List.nil_append, splitNewline_of_notMem hFirst]
      exact (headI_cons_tail rest).symm
  | cons b block ih =>
      rw [List.cons_append, List.cons_append, splitNewline_cons, splitNewline_cons, ih]
      rw [← headI_cons_tail (block ++ (splitNewline rest).headI)]
      split_ifs <;> rfl

end Splitting

section Collecting

variable {count : ℕ} {collected parts : List Bytes}

/-- The parts are collected until there are enough. -/
theorem collectParts_eq (h : collected.length < count) :
    collectParts count collected parts = (collected ++ parts.filter nonblank).take count := by
  induction parts generalizing collected with
  | nil =>
      rw [collectParts, List.filter_nil, List.append_nil, List.take_of_length_le h.le]
  | cons part parts ih =>
      have hCons : collected ++ part :: parts.filter nonblank =
          collected ++ [part] ++ parts.filter nonblank := List.append_cons _ _ _
      rw [collectParts]
      split_ifs with hPart hFull
      · have hLength : (collected ++ [part]).length = collected.length + 1 := by simp
        rw [List.filter_cons_of_pos hPart, hCons, List.take_append_of_le_length hFull,
          List.take_of_length_le (by omega)]
      · rw [List.filter_cons_of_pos hPart, hCons, ih (not_le.mp hFull)]
      · rw [List.filter_cons_of_neg (by simpa using hPart), ih h]

/-- What the loop over the blocks keeps: the pending fragment is the first line of what has been
read, and the lines behind it are collected. -/
structure Reading (count : ℕ) (content : Bytes) (position : ℕ) (pending : Bytes)
    (collected : List Bytes) : Prop where
  inside : position ≤ content.length
  pending_eq : pending = (splitNewline (content.drop position)).headI
  collected_eq : collected =
    ((splitNewline (content.drop position)).tail.reverse.filter nonblank).take count

theorem Reading.start (count : ℕ) (content : Bytes) :
    Reading count content content.length [] [] := by
  refine ⟨Nat.le_refl _, ?_, ?_⟩
  · rw [List.drop_length]
    rfl
  · rw [List.drop_length]
    exact List.take_nil.symm

variable {content pending : Bytes} {position : ℕ}

theorem Reading.step (h : Reading count content position pending collected)
    (hOpen : collected.length < count) {readSize : ℕ} (hSize : readSize ≤ position) :
    Reading count content (position - readSize)
      (splitNewline ((content.drop (position - readSize)).take readSize ++ pending)).headI
      (collectParts count collected
        (splitNewline ((content.drop (position - readSize)).take readSize ++ pending)).tail.reverse) := by
  obtain ⟨hInside, hPending, hCollected⟩ := h
  have hRest : (content.drop (position - readSize)).drop readSize = content.drop position := by
    rw [List.drop_drop, Nat.sub_add_cancel hSize]
  have hAll := splitNewline_append ((content.drop (position - readSize)).take readSize)
    (content.drop position)
  rw [← hPending] at hAll
  conv_lhs at hAll => rw [← hRest, List.take_append_drop]
  rw [← headI_cons_tail ((content.drop (position - readSize)).take readSize ++ pending),
    List.cons_append] at hAll
  refine ⟨by omega, ?_, ?_⟩
  · rw [hAll]
    rfl
  · rw [collectParts_eq hOpen, hAll, List.tail_cons, List.reverse_append, List.filter_append]
    -- the lines that had been collected were all of the lines behind
    have hEnough : collected =
        (splitNewline (content.drop position)).tail.reverse.filter nonblank := by
      rw [hCollected, List.length_take] at hOpen
      rw [hCollected, List.take_of_length_le (by omega)]
    rw [← hEnough]

theorem readBack_reading (h : Reading count content position pending collected) :
    ∃ position', Reading count content position' (readBack count content position pending collected).1
        (readBack count content position pending collected).2 ∧
      (position' = 0 ∨ count ≤ (readBack count content position pending collected).2.length) := by
  fun_induction readBack count content position pending collected with
  | case1 position pending collected hStop => exact ⟨position, h, hStop⟩
  | case2 position pending collected hGo readSize parts ih =>
      rw [not_or, not_le] at hGo
      exact ih (h.step hGo.2 (Nat.min_le_right _ _))

/-- The lines of the whole file, from the last one on. -/
theorem Reading.lines (h : Reading count content position pending collected) :
    (splitNewline content).reverse.filter nonblank =
      (splitNewline (content.drop position)).tail.reverse.filter nonblank ++
        (splitNewline (content.take position ++ pending)).reverse.filter nonblank := by
  conv_lhs => rw [← List.take_append_drop position content, splitNewline_append, ← h.pending_eq]
  rw [List.reverse_append, List.filter_append]

/-- What is collected in the end, with the pending fragment if there is room for it. -/
theorem Reading.finish (h : Reading count content position pending collected)
    (hEnd : position = 0 ∨ count ≤ collected.length) :
    (if collected.length < count ∧ nonblank pending then collected ++ [pending]
      else collected).take count = ((splitNewline content).reverse.filter nonblank).take count := by
  rw [h.lines]
  have hCollected := h.collected_eq
  by_cases hFull : count ≤ collected.length
  · rw [if_neg fun hRoom => absurd hRoom.1 (not_lt.mpr hFull)]
    rw [hCollected, List.length_take] at hFull
    rw [List.take_append_of_le_length (by omega), hCollected, List.take_take, Nat.min_self]
  · have hAll : collected =
        (splitNewline (content.drop position)).tail.reverse.filter nonblank := by
      rw [hCollected, List.length_take] at hFull
      rw [hCollected, List.take_of_length_le (by omega)]
    have hFirst : newline ∉ pending := by
      rw [h.pending_eq]
      apply newline_notMem_of_mem_splitNewline
      rw [← headI_cons_tail (content.drop position)]
      exact List.mem_cons_self
    rw [← hAll, hEnd.resolve_right hFull, List.take_zero, List.nil_append,
      splitNewline_of_notMem hFirst, List.reverse_singleton]
    cases hPending : nonblank pending with
    | true =>
        rw [if_pos ⟨not_le.mp hFull, rfl⟩, List.filter_cons_of_pos hPending]
        rfl
    | false =>
        rw [if_neg fun hRoom => absurd hRoom.2 Bool.false_ne_true,
          List.filter_cons_of_neg (by simp [hPending]), List.filter_nil, List.append_nil]

end Collecting

variable (decode : Bytes → Str)

/-- The lines read backwards are the last lines of the file that are not blank. -/
theorem tailLines_eq (count : ℤ) (content : Bytes) : tailLines decode count content =
    (((splitNewline content).filter nonblank).rtake count.toNat).map decode := by
  rw [tailLines]
  split_ifs with hCount hEmpty
  · rw [Int.toNat_of_nonpos hCount, List.rtake_zero, List.map_nil]
  · rw [hEmpty]
    have hNone : (splitNewline []).filter nonblank = [] := by decide
    rw [hNone, List.rtake_nil, List.map_nil]
  · obtain ⟨position, hReading, hEnd⟩ := readBack_reading (Reading.start count.toNat content)
    dsimp only
    rw [hReading.finish hEnd, List.rtake_eq_reverse_take_reverse, ← List.filter_reverse]

section Activity

variable {α : Type*} {line : α → Str}

/-- The loop keeps the first records that are not noise. -/
theorem keepActivity_eq {count : ℕ} {kept raws : List α} (h : kept.length < count) :
    keepActivity line count kept raws =
      (kept ++ raws.filter fun raw => !isNoise (line raw)).take count := by
  induction raws generalizing kept with
  | nil =>
      rw [keepActivity, List.filter_nil, List.append_nil, List.take_of_length_le h.le]
  | cons raw raws ih =>
      have hCons : kept ++ raw :: raws.filter (fun raw => !isNoise (line raw)) =
          kept ++ [raw] ++ raws.filter fun raw => !isNoise (line raw) := List.append_cons _ _ _
      rw [keepActivity]
      split_ifs with hNoise hFull
      · rw [List.filter_cons_of_neg (by simpa using hNoise), ih h]
      · have hRoom : count ≤ (kept ++ [raw]).length := by exact_mod_cast hFull
        have hLength : (kept ++ [raw]).length = kept.length + 1 := by simp
        rw [List.filter_cons_of_pos (by simpa using hNoise), hCons,
          List.take_append_of_le_length hRoom, List.take_of_length_le (by omega)]
      · have hRoom : (kept ++ [raw]).length < count := by
          rw [← not_le]
          exact_mod_cast hFull
        rw [List.filter_cons_of_pos (by simpa using hNoise), hCons, ih hRoom]

theorem map_keepActivity {β : Type*} (f : β → α) (count : ℤ) (kept raws : List β) :
    (keepActivity (line ∘ f) count kept raws).map f =
      keepActivity line count (kept.map f) (raws.map f) := by
  induction raws generalizing kept with
  | nil => rfl
  | cons raw raws ih =>
      have hKept : (kept ++ [raw]).map f = kept.map f ++ [f raw] := by simp
      have hLength : (kept ++ [raw]).length = (kept.map f ++ [f raw]).length := by simp
      rw [List.map_cons, keepActivity, keepActivity, Function.comp_apply, hLength]
      split_ifs
      · exact ih kept
      · exact hKept
      · rw [ih (kept ++ [raw]), hKept]

/-- The first elements of a list without repetitions are its last ones if there are no more. -/
theorem take_eq_rtake_iff {l : List α} (hNodup : l.Nodup) {n : ℕ} (hn : 0 < n) :
    l.take n = l.rtake n ↔ l.length ≤ n := by
  constructor
  · intro hEq
    by_contra hLong
    rw [not_le] at hLong
    rw [List.rtake] at hEq
    have hFirst : (l.take n)[0]? = (l.drop (l.length - n))[0]? := by rw [hEq]
    rw [List.getElem?_take_of_lt hn, List.getElem?_drop,
      List.getElem?_eq_getElem (by omega), List.getElem?_eq_getElem (by omega),
      Option.some.injEq, hNodup.getElem_inj_iff] at hFirst
    omega
  · intro hShort
    rw [List.take_of_length_le hShort, List.rtake, Nat.sub_eq_zero_of_le hShort, List.drop_zero]

end Activity

variable (summary : Str → Str)

/-- The lines that the activity is looked for in, each with its place. -/
def lookedAt (count : ℤ) (content : Bytes) : List (Str × ℕ) :=
  (tailLines decode (max (count * 8) count) content).zipIdx

/-- The records among them. -/
def activityRecords (count : ℤ) (content : Bytes) : List (Str × ℕ) :=
  (lookedAt decode count content).filter fun record => !isNoise (summary record.1)

/-- The records whose summaries are returned. -/
def keptRecords (count : ℤ) (content : Bytes) : List (Str × ℕ) :=
  keepActivity (summary ∘ Prod.fst) count [] (lookedAt decode count content)

end Plumber.TokenLogger
