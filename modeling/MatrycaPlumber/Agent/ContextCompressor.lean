import MatrycaPlumber.Text.Basic
import MatrycaPlumber.Text.Decimal
import Mathlib.Data.Rat.Floor

/-! The condensation of a chat history that has grown over its budget. -/
namespace Plumber.ContextCompressor

open PyText

inductive Role where
  | system
  | user
  | assistant
  deriving DecidableEq

structure ChatMessage where
  role : Role
  content : Str
  deriving DecidableEq

/-- Metrics of a pass that compressed, without its latency. -/
structure CompressionEvent where
  initialTokens : ℕ
  postTokens : ℕ
  messagesBefore : ℕ
  messagesAfter : ℕ

def messageOverheadTokens : ℕ := 4

section Slices

variable {α : Type*}

/-- `l[:stop]`. -/
def upTo (l : List α) : ℤ → List α
  | .ofNat stop => l.take stop
  | .negSucc back => l.take (l.length - (back + 1))

/-- `l[start:]`. -/
def fromOn (l : List α) : ℤ → List α
  | .ofNat start => l.drop start
  | .negSucc back => l.drop (l.length - (back + 1))

theorem upTo_append_fromOn (l : List α) (cut : ℤ) : upTo l cut ++ fromOn l cut = l := by
  cases cut with
  | ofNat n => exact List.take_append_drop n l
  | negSucc n => exact List.take_append_drop _ l

end Slices

section Model

def Role.name : Role → Str
  | .system => "system".toList
  | .user => "user".toList
  | .assistant => "assistant".toList

def serializeTurns (idx : ℕ) : List ChatMessage → List Str
  | [] => []
  | msg :: messages =>
      ("#### Turn ".toList ++ decimal idx ++ " (".toList ++ msg.role.name ++ ")\n".toList ++
        msg.content) :: serializeTurns (idx + 1) messages

def serializeHistoryForCompression (messages : List ChatMessage) : Str :=
  join "\n\n".toList (serializeTurns 1 messages)

/-- The digits of an integer, after its sign. -/
def signedDecimal : ℤ → Str
  | .ofNat n => decimal n
  | .negSucc n => '-' :: decimal (n + 1)

def buildCompressionUserPrompt (historyText : Str) (targetTokens : ℤ) : Str :=
  ("Compress the Matryca Plumber maintenance history below into dense markdown under " ++
      "`## Consolidated Epistemic State`. Target <= ").toList ++ signedDecimal targetTokens ++
    (" estimated tokens. Preserve factual details; do not invent events.\n\n").toList ++ historyText

/-- The parts of a list that can be condensed: the system message, the compressible middle, the
preserved tail and the current user message. -/
structure Split where
  system : ChatMessage
  middle : List ChatMessage
  tail : List ChatMessage
  currentUser : Option ChatMessage

/-- The current user message, when it is the last one, after the history. -/
def splitUser (rest : List ChatMessage) : List ChatMessage × Option ChatMessage :=
  match rest.getLast? with
  | none => (rest, none)
  | some last => if last.role = .user then (rest.dropLast, some last) else (rest, none)

def splitForCompression (preserveTailTurns : ℤ) : List ChatMessage → Option Split
  | [] => none
  | system :: rest =>
      if system.role ≠ .system then none
      else if rest = [] then some ⟨system, [], [], none⟩
      else
        let history := (splitUser rest).1
        let tailSize := preserveTailTurns * 2
        if (history.length : ℤ) ≤ tailSize then none
        else if upTo history (-tailSize) = [] then none
        else some ⟨system, upTo history (-tailSize), fromOn history (-tailSize), (splitUser rest).2⟩

/-- `max(1, int(len(rest) * fraction))`. -/
def dropCount (fraction : ℚ) (length : ℕ) : ℕ := max 1 ⌊length * fraction⌋.toNat

def dropOldestMessagesFraction (fraction : ℚ) : List ChatMessage → List ChatMessage
  | [] => []
  | first :: others =>
      if fraction ≤ 0 then first :: others
      else if first.role = .system then
        if others = [] then [first] else first :: others.drop (dropCount fraction others.length)
      else (first :: others).drop (dropCount fraction (others.length + 1))

variable (estimateTokens : Str → ℕ)

def estimateMessagesTokens (messages : List ChatMessage) : ℕ :=
  (messages.map fun msg => messageOverheadTokens + estimateTokens msg.content).sum

/-- The loop that drops the preserved tail two messages at a time. -/
def dropTail (target : ℤ) (system : ChatMessage) (currentUser : Option ChatMessage)
    (tail : List ChatMessage) : List ChatMessage :=
  if (estimateMessagesTokens estimateTokens (system :: tail ++ currentUser.toList) : ℤ) ≤ target ∨
      tail.length ≤ 2 then
    system :: tail ++ currentUser.toList
  else dropTail target system currentUser (tail.drop 2)
termination_by tail.length
decreasing_by grind

def truncateMessagesToBudget (target preserveTailTurns : ℤ) (messages : List ChatMessage) :
    List ChatMessage :=
  match splitForCompression preserveTailTurns messages with
  | none =>
      if (estimateMessagesTokens estimateTokens messages : ℤ) ≤ target then messages
      else dropOldestMessagesFraction (1 / 5) messages
  | some parts => dropTail estimateTokens target parts.system parts.currentUser parts.tail

def summaryMessage (summary : Str) : ChatMessage where
  role := .user
  content := "## Consolidated Epistemic State\n\n".toList ++ strip summary ++
    "\n\n<!-- matryca-compressed-history -->".toList

def acknowledgement : ChatMessage where
  role := .assistant
  content := "Consolidated maintenance context acknowledged.".toList

variable (compress : Str → Option Str)

/-- `compress` is what the model's completion is after it has been sanitized, if the call does
not fail. -/
def condenseMessages (trigger target preserveTailTurns : ℤ) (messages : List ChatMessage) :
    List ChatMessage × Option CompressionEvent :=
  if (estimateMessagesTokens estimateTokens messages : ℤ) ≤ trigger then (messages, none)
  else
    match splitForCompression preserveTailTurns messages with
    | none => (truncateMessagesToBudget estimateTokens target preserveTailTurns messages, none)
    | some parts =>
        match compress
          (buildCompressionUserPrompt (serializeHistoryForCompression parts.middle) target) with
        | none => (dropOldestMessagesFraction (1 / 5) messages, none)
        | some summary =>
            let compressed := parts.system :: summaryMessage summary :: acknowledgement ::
              parts.tail ++ parts.currentUser.toList
            (compressed, some
              { initialTokens := estimateMessagesTokens estimateTokens messages
                postTokens := estimateMessagesTokens estimateTokens compressed
                messagesBefore := messages.length
                messagesAfter := compressed.length })

end Model

/-- The list still starts with the system message and ends with the current user message. What
stands between is added, or was there before. -/
def KeepsRequest (Added : List ChatMessage → Prop) (system user : ChatMessage)
    (between result : List ChatMessage) : Prop :=
  ∃ added kept, Added added ∧ kept.Sublist between ∧ result = system :: added ++ kept ++ [user]

/-- Nothing, or a summary with its acknowledgement. -/
def SummaryPair (added : List ChatMessage) : Prop :=
  added = [] ∨ ∃ summary, added = [summaryMessage summary, acknowledgement]

/-- Nothing, or a summary by itself. -/
def OneSummary (added : List ChatMessage) : Prop :=
  added = [] ∨ ∃ summary, added = [summaryMessage summary]

section Requests

variable {system user : ChatMessage} {between : List ChatMessage} {preserveTailTurns : ℤ}
  {Added : List ChatMessage → Prop}

theorem KeepsRequest.refl (hNone : Added []) :
    KeepsRequest Added system user between (system :: between ++ [user]) :=
  ⟨[], between, hNone, List.Sublist.refl _, rfl⟩

theorem splitUser_concat (hUser : user.role = .user) :
    splitUser (between ++ [user]) = (between, some user) := by
  simp [splitUser, hUser]

/-- The parts of a list with a system message first and a user message last. -/
theorem splitForCompression_eq_some {parts : Split} (hUser : user.role = .user)
    (h : splitForCompression preserveTailTurns (system :: between ++ [user]) = some parts) :
    parts.system = system ∧ parts.currentUser = some user ∧ parts.tail.Sublist between ∧
      between ≠ [] := by
  rw [List.cons_append, splitForCompression, splitUser_concat hUser] at h
  dsimp only at h
  split_ifs at h with hRole hRest hLong hMiddle
  · simp at hRest
  · cases h
    have hWhole := upTo_append_fromOn between (-(preserveTailTurns * 2))
    refine ⟨rfl, rfl, ?_, ?_⟩
    · conv_rhs => rw [← hWhole]
      exact List.sublist_append_right _ _
    · rintro rfl
      exact hMiddle (List.append_eq_nil_iff.mp hWhole).1

/-- A fifth of two messages or more leaves the last one. -/
theorem dropCount_le {length : ℕ} (h : 1 ≤ length) : dropCount (1 / 5) (length + 1) ≤ length := by
  rw [dropCount, Nat.max_le]
  refine ⟨h, ?_⟩
  rw [Int.toNat_le, ← Int.lt_add_one_iff, Int.floor_lt]
  push_cast
  have hCast : (1 : ℚ) ≤ length := by exact_mod_cast h
  linarith

theorem keepsRequest_dropOldest (hSystem : system.role = .system) (hNone : Added [])
    (hBetween : between ≠ []) : KeepsRequest Added system user between
      (dropOldestMessagesFraction (1 / 5) (system :: between ++ [user])) := by
  rw [List.cons_append, dropOldestMessagesFraction, if_neg (by norm_num), if_pos hSystem,
    if_neg (by simp), List.length_append, List.length_singleton]
  have hCount := dropCount_le (List.length_pos_iff.mpr hBetween)
  rw [List.drop_append_of_le_length hCount]
  exact ⟨[], _, hNone, List.drop_sublist _ between, rfl⟩

variable (estimateTokens : Str → ℕ) {target : ℤ}

theorem keepsRequest_dropTail (hNone : Added []) {tail : List ChatMessage}
    (hTail : tail.Sublist between) :
    KeepsRequest Added system user between
      (dropTail estimateTokens target system (some user) tail) := by
  fun_induction dropTail estimateTokens target system (some user) tail with
  | case1 tail hStop => exact ⟨[], tail, hNone, hTail, rfl⟩
  | case2 tail hStop ih => exact ih ((List.drop_sublist 2 tail).trans hTail)

/-- Truncation keeps the request when there is something else to drop, or nothing has to be. -/
theorem keepsRequest_truncate (hSystem : system.role = .system) (hUser : user.role = .user)
    (hNone : Added []) (hKeeps : between ≠ [] ∨
      (estimateMessagesTokens estimateTokens (system :: between ++ [user]) : ℤ) ≤ target) :
    KeepsRequest Added system user between
      (truncateMessagesToBudget estimateTokens target preserveTailTurns
        (system :: between ++ [user])) := by
  rw [truncateMessagesToBudget]
  cases hSplit : splitForCompression preserveTailTurns (system :: between ++ [user]) with
  | none =>
      dsimp only
      split_ifs with hFits
      · exact .refl hNone
      · exact keepsRequest_dropOldest hSystem hNone (hKeeps.resolve_right hFits)
  | some parts =>
      obtain ⟨hFirst, hLast, hTail, -⟩ := splitForCompression_eq_some hUser hSplit
      dsimp only
      rw [hFirst, hLast]
      exact keepsRequest_dropTail estimateTokens hNone hTail

end Requests

/-- A list that is condensed or truncated keeps its system message and its current user message,
as long as there is something else to drop or it fits. -/
theorem request_kept (estimateTokens : Str → ℕ) (compress : Str → Option Str)
    (trigger target preserveTailTurns : ℤ) (system user : ChatMessage) (between : List ChatMessage)
    (hSystem : system.role = .system) (hUser : user.role = .user) :
    (between ≠ [] ∨
        (estimateMessagesTokens estimateTokens (system :: between ++ [user]) : ℤ) ≤ target →
      KeepsRequest (· = []) system user between
        (truncateMessagesToBudget estimateTokens target preserveTailTurns
          (system :: between ++ [user]))) ∧
    (between ≠ [] ∨
        (estimateMessagesTokens estimateTokens (system :: between ++ [user]) : ℤ) ≤
          max trigger target →
      KeepsRequest SummaryPair system user between
        (condenseMessages estimateTokens compress trigger target preserveTailTurns
          (system :: between ++ [user])).1) := by
  refine ⟨keepsRequest_truncate estimateTokens hSystem hUser rfl, fun hKeeps => ?_⟩
  have hNone : SummaryPair [] := Or.inl rfl
  rw [condenseMessages]
  split_ifs with hTrigger
  · exact .refl hNone
  · cases hSplit : splitForCompression preserveTailTurns (system :: between ++ [user]) with
    | none =>
        apply keepsRequest_truncate estimateTokens hSystem hUser hNone
        exact hKeeps.imp_right fun hFits => (le_max_iff.mp hFits).resolve_left hTrigger
    | some parts =>
        obtain ⟨hFirst, hLast, hTail, hBetween⟩ := splitForCompression_eq_some hUser hSplit
        dsimp only
        cases compress (buildCompressionUserPrompt
            (serializeHistoryForCompression parts.middle) target) with
        | none => exact keepsRequest_dropOldest hSystem hNone hBetween
        | some summary =>
            refine ⟨[summaryMessage summary, acknowledgement], parts.tail, Or.inr ⟨summary, rfl⟩,
              hTail, ?_⟩
            rw [hFirst, hLast]
            rfl

def sampleSystem : ChatMessage := ⟨.system, "Maintain the graph.".toList⟩

def sampleUser : ChatMessage := ⟨.user, "Next page.".toList⟩

/-- Five messages of a history, of which the last four are preserved. -/
def sampleHistory : List ChatMessage :=
  [⟨.assistant, "a".toList⟩, ⟨.user, "b".toList⟩, ⟨.assistant, "c".toList⟩, ⟨.user, "d".toList⟩,
    ⟨.assistant, "e".toList⟩]

theorem request_kept_sample : KeepsRequest (· = []) sampleSystem sampleUser sampleHistory
        (truncateMessagesToBudget List.length 0 2 (sampleSystem :: sampleHistory ++ [sampleUser])) ∧
      KeepsRequest SummaryPair sampleSystem sampleUser sampleHistory
        (condenseMessages List.length (fun _ => some "s".toList) 0 0 2
          (sampleSystem :: sampleHistory ++ [sampleUser])).1 :=
  have hKept := request_kept List.length (fun _ => some "s".toList) 0 0 2 sampleSystem sampleUser
    sampleHistory rfl rfl
  ⟨hKept.1 (Or.inl (by decide)), hKept.2 (Or.inl (by decide))⟩

/-- A summary is not added by itself: the acknowledgement after it was not there before. -/
theorem summary_acknowledged : ¬KeepsRequest OneSummary sampleSystem sampleUser sampleHistory
    (condenseMessages List.length (fun _ => some "s".toList) 0 0 2
      (sampleSystem :: sampleHistory ++ [sampleUser])).1 := by
  rintro ⟨added, kept, hAdded, hKept, hResult⟩
  have hAck : acknowledgement ∈ (condenseMessages List.length (fun _ => some "s".toList) 0 0 2
      (sampleSystem :: sampleHistory ++ [sampleUser])).1 := by decide
  rw [hResult, List.mem_append, List.cons_append, List.mem_cons, List.mem_append] at hAck
  rcases hAck with (hFirst | hNew | hOld) | hLast
  · exact absurd hFirst (by decide)
  · rcases hAdded with rfl | ⟨summary, rfl⟩
    · cases hNew
    · have hRole : Role.assistant = Role.user :=
        congrArg ChatMessage.role (List.mem_singleton.mp hNew)
      cases hRole
  · exact absurd (hKept.subset hOld) (by decide)
  · exact absurd hLast (by decide)

end Plumber.ContextCompressor
