import Mathlib.Data.List.Basic

/-! A stream of records that each end in a mark, read in chunks. A reader handles the records
that are complete and keeps what follows the last mark. -/
namespace RecordStream

variable {α σ ε : Type*} [DecidableEq α]

/-- The records before each mark, and what follows the last one. -/
def cut (mark : α) : List α → List (List α) × List α
  | [] => ([], [])
  | x :: xs =>
      if x = mark then ([] :: (cut mark xs).1, (cut mark xs).2)
      else match (cut mark xs).1 with
        | [] => ([], x :: (cut mark xs).2)
        | record :: records => ((x :: record) :: records, (cut mark xs).2)

/-- A chunk goes behind what is pending. A record may be longer than `limit` only while it is
being refused, and so may what is left pending. -/
def feed (mark : α) (handle : σ → List α → Except ε σ) (limit : ℕ) (tooLong : σ → ε)
    (reader : σ × List α) (chunk : List α) : Except ε (σ × List α) :=
  match (cut mark (reader.2 ++ chunk)).1.foldlM handle reader.1 with
  | .error e => .error e
  | .ok state =>
      if limit < (cut mark (reader.2 ++ chunk)).2.length then .error (tooLong state)
      else .ok (state, (cut mark (reader.2 ++ chunk)).2)

variable {mark : α} {xs ys record : List α} {records : List (List α)}

@[simp] theorem cut_mark_cons :
    cut mark (mark :: xs) = ([] :: (cut mark xs).1, (cut mark xs).2) := by
  rw [cut, if_pos rfl]

theorem cut_cons_of_nil {x : α} (hx : x ≠ mark) (h : (cut mark xs).1 = []) :
    cut mark (x :: xs) = ([], x :: (cut mark xs).2) := by
  rw [cut, if_neg hx, h]

theorem cut_cons_of_cons {x : α} (hx : x ≠ mark) (h : (cut mark xs).1 = record :: records) :
    cut mark (x :: xs) = ((x :: record) :: records, (cut mark xs).2) := by
  rw [cut, if_neg hx, h]

theorem cut_of_notMem (h : mark ∉ xs) : cut mark xs = ([], xs) := by
  induction xs with
  | nil => rfl
  | cons x xs ih =>
      rw [List.mem_cons, not_or] at h
      have hTail := ih h.2
      rw [cut_cons_of_nil (Ne.symm h.1) (congrArg Prod.fst hTail), hTail]

theorem cut_record (h : mark ∉ record) :
    cut mark (record ++ mark :: xs) = (record :: (cut mark xs).1, (cut mark xs).2) := by
  induction record with
  | nil => exact cut_mark_cons
  | cons x record ih =>
      rw [List.mem_cons, not_or] at h
      have hTail := ih h.2
      rw [List.cons_append, cut_cons_of_cons (Ne.symm h.1) (congrArg Prod.fst hTail), hTail]

/-- A text is its records, each with its mark, and the rest. -/
theorem cut_join (mark : α) (xs : List α) :
    (cut mark xs).1.flatMap (· ++ [mark]) ++ (cut mark xs).2 = xs := by
  induction xs with
  | nil => rfl
  | cons x xs ih =>
      by_cases hx : x = mark
      · subst hx
        rw [cut_mark_cons, List.flatMap_cons, List.nil_append, List.append_assoc, ih,
          List.singleton_append]
      · cases hCut : (cut mark xs).1 with
        | nil =>
            rw [cut_cons_of_nil hx hCut]
            rw [hCut] at ih
            exact congrArg (x :: ·) ih
        | cons record records =>
            rw [cut_cons_of_cons hx hCut]
            rw [hCut] at ih
            exact congrArg (x :: ·) ih

theorem mark_notMem_rest (xs : List α) : mark ∉ (cut mark xs).2 := by
  induction xs with
  | nil => exact List.not_mem_nil
  | cons x xs ih =>
      by_cases hx : x = mark
      · rw [hx, cut_mark_cons]
        exact ih
      · cases hCut : (cut mark xs).1 with
        | nil =>
            rw [cut_cons_of_nil hx hCut, List.mem_cons, not_or]
            exact ⟨Ne.symm hx, ih⟩
        | cons record records =>
            rw [cut_cons_of_cons hx hCut]
            exact ih

theorem mark_notMem_record (h : record ∈ (cut mark xs).1) : mark ∉ record := by
  induction xs generalizing record with
  | nil => cases h
  | cons x xs ih =>
      by_cases hx : x = mark
      · rw [hx, cut_mark_cons] at h
        rcases List.mem_cons.mp h with rfl | hTail
        · exact List.not_mem_nil
        · exact ih hTail
      · cases hCut : (cut mark xs).1 with
        | nil =>
            rw [cut_cons_of_nil hx hCut] at h
            cases h
        | cons first records =>
            rw [cut_cons_of_cons hx hCut] at h
            rw [hCut] at ih
            rcases List.mem_cons.mp h with rfl | hTail
            · rw [List.mem_cons, not_or]
              exact ⟨Ne.symm hx, ih List.mem_cons_self⟩
            · exact ih (List.mem_cons_of_mem first hTail)

/-- What two chunks are cut into. -/
theorem cut_append (xs ys : List α) :
    cut mark (xs ++ ys) = ((cut mark xs).1 ++ (cut mark ((cut mark xs).2 ++ ys)).1,
      (cut mark ((cut mark xs).2 ++ ys)).2) := by
  have hRecords (records : List (List α)) (h : ∀ record ∈ records, mark ∉ record)
      (rest : List α) : cut mark (records.flatMap (· ++ [mark]) ++ rest) =
        (records ++ (cut mark rest).1, (cut mark rest).2) := by
    induction records with
    | nil => rfl
    | cons record records ih =>
        rw [List.flatMap_cons, List.append_assoc, List.append_assoc, List.singleton_append,
          cut_record (h record List.mem_cons_self),
          ih fun other hOther => h other (List.mem_cons_of_mem record hOther)]
        rfl
  have hSplit := hRecords (cut mark xs).1 (fun record => mark_notMem_record) ((cut mark xs).2 ++ ys)
  rwa [← List.append_assoc, cut_join] at hSplit

theorem cut_flatMap (h : ∀ record ∈ records, mark ∉ record) :
    cut mark (records.flatMap (· ++ [mark])) = (records, []) := by
  induction records with
  | nil => rfl
  | cons record records ih =>
      rw [List.flatMap_cons, List.append_assoc, List.singleton_append,
        cut_record (h record List.mem_cons_self),
        ih fun other hOther => h other (List.mem_cons_of_mem record hOther)]

section Reading

variable {handle : σ → List α → Except ε σ} {limit : ℕ} {tooLong : σ → ε}
  {reader : σ × List α} {state : σ}

/-- A record that grows longer than the limit is refused as the records before it leave the
reader, whether its mark has come or not. -/
theorem feed_of_long (hLong : ∀ s record, limit < record.length →
      handle s record = .error (tooLong s)) (hRest : mark ∉ xs) (hLength : limit < xs.length)
    (s : σ) (ys : List α) : feed mark handle limit tooLong (s, xs) ys = .error (tooLong s) := by
  rw [feed]
  rcases hCut : (cut mark ys).1 with _ | ⟨record, records⟩
  · have hYs := cut_join mark ys
    rw [hCut, List.flatMap_nil, List.nil_append] at hYs
    have hNone : mark ∉ xs ++ ys := by
      rw [List.mem_append, not_or, ← hYs]
      exact ⟨hRest, mark_notMem_rest ys⟩
    rw [cut_of_notMem hNone]
    have hMore : limit < (xs ++ ys).length := by
      rw [List.length_append]
      omega
    exact if_pos hMore
  · have hYs := cut_join mark ys
    rw [hCut, List.flatMap_cons, List.append_assoc, List.append_assoc, List.singleton_append]
      at hYs
    have hRecord : mark ∉ xs ++ record := by
      rw [List.mem_append, not_or]
      have hMem : record ∈ (cut mark ys).1 := by
        rw [hCut]
        exact List.mem_cons_self
      exact ⟨hRest, mark_notMem_record hMem⟩
    have hMore : limit < (xs ++ record).length := by
      rw [List.length_append]
      omega
    rw [← hYs, ← List.append_assoc, cut_record hRecord, List.foldlM_cons, hLong s _ hMore]
    rfl

/-- It makes no difference where a stream is cut into chunks. -/
theorem feed_feed (hLong : ∀ s record, limit < record.length →
      handle s record = .error (tooLong s)) (a b : List α) :
    (feed mark handle limit tooLong reader a >>= fun next =>
      feed mark handle limit tooLong next b) = feed mark handle limit tooLong reader (a ++ b) := by
  rw [feed, feed, ← List.append_assoc, cut_append (reader.2 ++ a) b, List.foldlM_append]
  cases hFirst : (cut mark (reader.2 ++ a)).1.foldlM handle reader.1 with
  | error e => rfl
  | ok state =>
      by_cases hLength : limit < (cut mark (reader.2 ++ a)).2.length
      · simp only [if_pos hLength]
        exact (feed_of_long hLong (mark_notMem_rest _) hLength state b).symm
      · simp only [if_neg hLength]
        rfl

theorem feed_nil (hRest : mark ∉ reader.2) (hLength : reader.2.length ≤ limit) :
    feed mark handle limit tooLong reader [] = .ok reader := by
  rw [feed, List.append_nil, cut_of_notMem hRest]
  exact if_neg (Nat.not_lt.mpr hLength)

/-- What is pending never holds a mark, and never more than the limit. -/
theorem pending_of_feed {next : σ × List α} {chunk : List α}
    (h : feed mark handle limit tooLong reader chunk = .ok next) :
    mark ∉ next.2 ∧ next.2.length ≤ limit := by
  rw [feed] at h
  split at h
  · cases h
  · split_ifs at h with hLength
    obtain rfl := Except.ok.inj h
    exact ⟨mark_notMem_rest _, Nat.not_lt.mp hLength⟩

/-- The chunks of a stream are read as the stream is. -/
theorem foldlM_feed (hLong : ∀ s record, limit < record.length →
      handle s record = .error (tooLong s)) (hRest : mark ∉ reader.2)
    (hLength : reader.2.length ≤ limit) (chunks : List (List α)) :
    chunks.foldlM (feed mark handle limit tooLong) reader =
      feed mark handle limit tooLong reader chunks.flatten := by
  induction chunks generalizing reader with
  | nil => exact (feed_nil hRest hLength).symm
  | cons chunk chunks ih =>
      rw [List.foldlM_cons, List.flatten_cons, ← feed_feed hLong]
      cases hNext : feed mark handle limit tooLong reader chunk with
      | error e => rfl
      | ok next => exact ih (pending_of_feed hNext).1 (pending_of_feed hNext).2

end Reading

end RecordStream
