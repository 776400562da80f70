import MatrycaPlumber.System.RecordStream
import MatrycaPlumber.Text.Basic

/-! What the worker of a dashboard read says on its two pipes, and what the caller of the read is
shown of it. -/
namespace Plumber.Dashboard

open PyText

abbrev Bytes := List UInt8

inductive DashboardCode where
  | timeout
  | busy
  | workerFailed
  | protocolError
  | outputOverflow
  | cleanupUnverified
  | platformUnsupported
  deriving DecidableEq

inductive DashboardPhase where
  | discover
  | stat
  | loadAst
  | ids
  | refs
  | format
  | complete
  deriving DecidableEq

def phases : List DashboardPhase :=
  [.discover, .stat, .loadAst, .ids, .refs, .format, .complete]

/-- An exception, as far as the supervisor tells them apart: a `ValueError` is the worker's
breach of the protocol. -/
inductive Raised where
  | valueError
  | other
  deriving DecidableEq

def Raised.code : Raised → DashboardCode
  | .valueError => .protocolError
  | .other => .workerFailed

/-- What `decode_document` makes of a line: the phase `p` of a document equal to `{"phase": p}`,
`none` for another document, or an exception. -/
abbrev LineDecoder := Bytes → Except Raised (Option DashboardPhase)

def newline : UInt8 := 10

def maxRecord : ℕ := 1024

/-- The channel on which the worker says which stages it has entered. -/
structure PhaseReader where
  count : ℕ := 0
  pending : Bytes := []

/-- A stage whose record is refused ends the reading, and only how far it came matters. -/
abbrev Refused := Raised × ℕ

namespace PhaseReader

def lastPhase (count : ℕ) : Option DashboardPhase :=
  if count = 0 then none else phases[count - 1]?

def isComplete (reader : PhaseReader) : Bool :=
  reader.count == phases.length && reader.pending.isEmpty

variable (decode : LineDecoder)

/-- One complete line of the channel. -/
def enter (count : ℕ) (line : Bytes) : Except Refused ℕ :=
  if maxRecord < line.length ∨ phases.length ≤ count then .error (.valueError, count)
  else match decode line with
    | .error raised => .error (raised, count)
    | .ok phase => if phase = phases[count]? then .ok (count + 1) else .error (.valueError, count)

def feed (reader : PhaseReader) (data : Bytes) : Except Refused PhaseReader :=
  (RecordStream.feed newline (enter decode) maxRecord (fun count => (.valueError, count))
    (reader.count, reader.pending) data).map fun next => ⟨next.1, next.2⟩

/-- The chunks of the channel, as they are read from the pipe. -/
def feedAll (reader : PhaseReader) (chunks : List Bytes) : Except Refused PhaseReader :=
  chunks.foldlM (feed decode) reader

/-- A record without its end is an error once the pipe is closed. -/
def finish (reader : PhaseReader) : Except Refused PhaseReader :=
  if reader.pending = [] then .ok reader else .error (.valueError, reader.count)

end PhaseReader

/-- One terminal frame: either the text of the dashboard or a code. -/
inductive FrameResult where
  | ok (markdown : Str)
  | error (code : DashboardCode)

structure DashboardFrame where
  requestId : Str
  result : FrameResult

/-- `decode_frame` on a frame that has been decoded. -/
def checkFrame (frame : DashboardFrame) (requestId : Str) (complete : Bool) :
    Except Raised DashboardFrame :=
  if frame.requestId ≠ requestId then .error .valueError
  else match frame.result with
    | .ok _ => if complete then .ok frame else .error .valueError
    | .error _ => .ok frame

structure DashboardOutcome where
  code : Option DashboardCode := none
  lastPhase : Option DashboardPhase := none
  elapsedMs : ℕ
  cleanupVerified : Bool
  markdown : Option Str := none

/-- The text of an outcome: the dashboard, or the fields of a failure. -/
inductive PublicText where
  | content (markdown : Str)
  | failure (code : DashboardCode) (lastPhase : Option DashboardPhase) (elapsedMs : ℕ)
      (cleanupVerified : Bool)

def DashboardOutcome.publicText (outcome : DashboardOutcome) : PublicText :=
  match outcome.code, outcome.cleanupVerified, outcome.markdown with
  | none, true, some markdown => .content markdown
  | code, cleanupVerified, _ =>
      .failure (code.getD .cleanupUnverified) outcome.lastPhase outcome.elapsedMs cleanupVerified

theorem DashboardOutcome.publicText_eq_content {outcome : DashboardOutcome} {markdown : Str} :
    outcome.publicText = .content markdown ↔
      outcome.code = none ∧ outcome.cleanupVerified = true ∧ outcome.markdown = some markdown := by
  obtain ⟨code, lastPhase, elapsedMs, cleanupVerified, text⟩ := outcome
  cases code <;> cases cleanupVerified <;> cases text <;>
    simp [publicText]

section Phases

variable {decode : LineDecoder} {count n : ℕ} {line : Bytes} {lines chunks : List Bytes}

namespace PhaseReader

theorem enter_eq_ok : enter decode count line = .ok n ↔
    line.length ≤ maxRecord ∧ count < phases.length ∧ decode line = .ok phases[count]? ∧
      n = count + 1 := by
  rw [enter]
  by_cases hBound : maxRecord < line.length ∨ phases.length ≤ count
  · rw [if_pos hBound]
    refine iff_of_false (by rintro ⟨⟩) ?_
    rintro ⟨hLength, hCount, -, -⟩
    exact hBound.elim (Nat.not_lt.mpr hLength) (Nat.not_le.mpr hCount)
  · rw [if_neg hBound]
    rw [not_or, Nat.not_lt, Nat.not_le] at hBound
    rw [and_iff_right hBound.1, and_iff_right hBound.2]
    cases hDecode : decode line with
    | error raised => exact iff_of_false (by rintro ⟨⟩) (by rintro ⟨⟨⟩, -⟩)
    | ok phase =>
        dsimp only
        rw [Except.ok.injEq]
        by_cases hPhase : phase = phases[count]?
        · rw [if_pos hPhase, Except.ok.injEq, and_iff_right hPhase, eq_comm]
        · rw [if_neg hPhase]
          exact iff_of_false (by rintro ⟨⟩) (fun h => hPhase h.1)

theorem enter_of_long (count : ℕ) (line : Bytes) (h : maxRecord < line.length) :
    enter decode count line = .error (.valueError, count) := by
  rw [enter, if_pos (.inl h)]

/-- The records that are accepted name the stages in their order, one each. -/
theorem foldlM_enter (hCount : count ≤ phases.length) :
    lines.foldlM (enter decode) count = .ok n ↔
      n = count + lines.length ∧ n ≤ phases.length ∧ ∀ k line, lines[k]? = some line →
        line.length ≤ maxRecord ∧ decode line = .ok phases[count + k]? := by
  induction lines generalizing count with
  | nil =>
      rw [List.foldlM_nil]
      constructor
      · intro h
        obtain rfl := Except.ok.inj h
        exact ⟨rfl, hCount, fun k line hLine => by cases hLine⟩
      · rintro ⟨rfl, -, -⟩
        rfl
  | cons first lines ih =>
      have hStep : (first :: lines).foldlM (enter decode) count = .ok n ↔
          ∃ next, enter decode count first = .ok next ∧
            lines.foldlM (enter decode) next = .ok n := by
        rw [List.foldlM_cons]
        cases enter decode count first with
        | error e => exact iff_of_false (by rintro ⟨⟩) (by rintro ⟨next, ⟨⟩, -⟩)
        | ok next => simp [bind, Except.bind]
      rw [hStep]
      constructor
      · rintro ⟨next, hFirst, hRest⟩
        obtain ⟨hLength, hLt, hDecode, rfl⟩ := enter_eq_ok.mp hFirst
        obtain ⟨hN, hLe, hLines⟩ := (ih hLt).mp hRest
        rw [List.length_cons]
        refine ⟨by omega, hLe, ?_⟩
        intro k line hLine
        cases k with
        | zero =>
            obtain rfl := Option.some.inj hLine
            exact ⟨hLength, hDecode⟩
        | succ k =>
            have hTail := hLines k line hLine
            rwa [Nat.succ_add_eq_add_succ] at hTail
      · rintro ⟨hN, hLe, hLines⟩
        rw [List.length_cons] at hN
        have hFirst := hLines 0 first rfl
        have hLt : count < phases.length := by omega
        refine ⟨count + 1, enter_eq_ok.mpr ⟨hFirst.1, hLt, hFirst.2, rfl⟩, (ih hLt).mpr ?_⟩
        refine ⟨by omega, hLe, ?_⟩
        intro k line hLine
        rw [Nat.succ_add_eq_add_succ]
        exact hLines (k + 1) line hLine

/-- The chunks of the channel are read as the channel is. -/
theorem feedAll_eq (chunks : List Bytes) :
    feedAll decode {} chunks = feed decode {} chunks.flatten := by
  have hChunks (reader : PhaseReader) : feedAll decode reader chunks =
      (chunks.foldlM (RecordStream.feed newline (enter decode) maxRecord
        fun count => (.valueError, count)) (reader.count, reader.pending)).map
          fun next => ⟨next.1, next.2⟩ := by
    induction chunks generalizing reader with
    | nil => rfl
    | cons chunk chunks ih =>
        rw [feedAll, List.foldlM_cons, List.foldlM_cons, feed]
        cases RecordStream.feed newline (enter decode) maxRecord _ (reader.count, reader.pending)
          chunk with
        | error e => rfl
        | ok next => exact ih ⟨next.1, next.2⟩
  rw [hChunks, RecordStream.foldlM_feed enter_of_long List.not_mem_nil (Nat.zero_le _), feed]

end PhaseReader

end Phases

end Plumber.Dashboard
