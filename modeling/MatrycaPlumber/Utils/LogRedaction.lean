import MatrycaPlumber.Utils.SecretRedaction
import MatrycaPlumber.Text.Decimal
import Mathlib.Tactic.IntervalCases

/-! The records of the operations log, and which of their texts redaction reaches. -/
namespace Plumber.LogRedaction
open PyText SecretRedaction

section Texts

def between (low high : Char) (c : Char) : Bool := low ≤ c && c ≤ high

/-- `_ANSI_ESCAPE`. -/
def ansiEscape : Pattern :=
  .seq (literal "\x1b") <|
    .either (.run (fun c => between '@' 'Z' c || between '\\' '_' c) 1 (some 1)) <|
      .seq (literal "[") <| .seq (.run (between '0' '?') 0 none) <|
        .seq (.run (between ' ' '/') 0 none) (.run (between '@' '~') 1 (some 1))

/-- `_CONTROL_CHAR`. -/
def isControlChar (c : Char) : Bool :=
  c.toNat ≤ 8 || c.toNat = 11 || c.toNat = 12 || (14 ≤ c.toNat && c.toNat ≤ 31) || c.toNat = 127

def sanitizeForConsole (other : Char → Bool) (text : Str) : Str :=
  if text = [] then text
  else (sub (finder (isWord other) ansiEscape []) text).filter fun c => !isControlChar c

def redactForLog (other : Char → Bool) (enabled : Bool) (text : Str) : Str :=
  if text = [] ∨ enabled = false then text else redactSecretsInText other text

def truncated (dropped : ℕ) : Str :=
  "... [truncated ".toList ++ decimal dropped ++ " chars]".toList

/-- `_truncate`. -/
def truncate (text : Str) (limit : ℕ) : Str :=
  if text.length ≤ limit then text else text.take limit ++ truncated (text.length - limit)

def maxPromptChars : ℕ := 12000

def maxResponseChars : ℕ := 12000

/-- `str` of an integer. -/
def integer (n : ℤ) : Str := (if n < 0 then ['-'] else []) ++ decimal n.natAbs

/-- A float as `:.4f` shows it, in units of the fourth decimal. -/
inductive Rounded where
  | finite (negative : Bool) (units : ℕ)
  | infinite (negative : Bool)
  | nan

def sign (negative : Bool) : Str := if negative then ['-'] else []

def Rounded.text : Rounded → Str
  | .finite negative units =>
      sign negative ++ decimal (units / 10000) ++ ['.'] ++ zeroPadded 4 (units % 10000)
  | .infinite negative => sign negative ++ "inf".toList
  | .nan => "nan".toList

/-- The time of `datetime.now(tz=UTC)`. -/
structure UtcTime where
  year : ℕ
  month : ℕ
  day : ℕ
  hour : ℕ
  minute : ℕ
  second : ℕ
  microsecond : ℕ

def UtcTime.isoformat (t : UtcTime) : Str :=
  zeroPadded 4 t.year ++ ['-'] ++ zeroPadded 2 t.month ++ ['-'] ++ zeroPadded 2 t.day ++ ['T'] ++
    zeroPadded 2 t.hour ++ [':'] ++ zeroPadded 2 t.minute ++ [':'] ++ zeroPadded 2 t.second ++
    (if t.microsecond = 0 then [] else ['.'] ++ zeroPadded 6 t.microsecond) ++ "+00:00".toList

end Texts

section Records

inductive OperationType where
  | conceptIndexing
  | semanticLinting
  | structuralRefactoring
  | healthCheck
  | daemonLifecycle
  | contextCompression

def OperationType.text : OperationType → Str
  | .conceptIndexing => "Concept Indexing".toList
  | .semanticLinting => "Semantic Linting".toList
  | .structuralRefactoring => "Structural Refactoring".toList
  | .healthCheck => "Health Check".toList
  | .daemonLifecycle => "Daemon Lifecycle".toList
  | .contextCompression => "Context Compression".toList

/-- The values that a record holds under its keys. -/
inductive Value where
  | text (s : Str)
  | texts (l : List Str)
  | number (n : ℤ)
  | rounded (x : Rounded)
  | flag (b : Bool)
  | null

abbrev Record := List (String × Value)

def Value.strings : Value → List Str
  | .text s => [s]
  | .texts l => l
  | .number _ => []
  | .rounded _ => []
  | .flag _ => []
  | .null => []

/-- All string values of a record, those in lists included. -/
def strings (record : Record) : List Str := record.flatMap fun entry => entry.2.strings

structure TurnArgs where
  targetFile : Str
  operation : OperationType
  promptTokens : ℤ
  completionTokens : ℤ
  prompt : Str
  response : Str
  latencySeconds : Rounded
  model : Str
  ok : Bool
  error : Option Str
  kvPrefixHash : Option Str

structure CompressionArgs where
  initialTokens : ℤ
  postTokens : ℤ
  latencySeconds : Rounded
  compressionRatio : Rounded
  messagesBefore : ℤ
  messagesAfter : ℤ
  model : Str

/-- The calls that append a record to the log. -/
inductive Call where
  | logTurn (args : TurnArgs)
  | logCompressionEvent (args : CompressionArgs)
  | logCompressionWarning (message model : Str)
  | logDaemonShutdown (signum : ℤ)
  | logStructuralLintWarning (targetFile message : Str) (malformedRefs : Option (List Str))

/-- `signal.Signals(signum).name`, on Linux. -/
def signalNames : List (ℤ × String) :=
  [(1, "SIGHUP"), (2, "SIGINT"), (3, "SIGQUIT"), (4, "SIGILL"), (5, "SIGTRAP"), (6, "SIGABRT"),
    (7, "SIGBUS"), (8, "SIGFPE"), (9, "SIGKILL"), (10, "SIGUSR1"), (11, "SIGSEGV"),
    (12, "SIGUSR2"), (13, "SIGPIPE"), (14, "SIGALRM"), (15, "SIGTERM"), (16, "SIGSTKFLT"),
    (17, "SIGCHLD"), (18, "SIGCONT"), (19, "SIGSTOP"), (20, "SIGTSTP"), (21, "SIGTTIN"),
    (22, "SIGTTOU"), (23, "SIGURG"), (24, "SIGXCPU"), (25, "SIGXFSZ"), (26, "SIGVTALRM"),
    (27, "SIGPROF"), (28, "SIGWINCH"), (29, "SIGIO"), (30, "SIGPWR"), (31, "SIGSYS"),
    (34, "SIGRTMIN"), (64, "SIGRTMAX")]

def signalName (signum : ℤ) : Str :=
  match signalNames.lookup signum with
  | some name => name.toList
  | none => integer signum

variable (other : Char → Bool) (enabled : Bool)

/-- `entry.to_dict()` for the entry of `log_turn`. -/
def turnRecord (now : UtcTime) (args : TurnArgs) : Record :=
  [("timestamp", .text now.isoformat),
    ("target_file", .text (sanitizeForConsole other args.targetFile)),
    ("operation", .text args.operation.text),
    ("prompt_tokens", .number args.promptTokens),
    ("completion_tokens", .number args.completionTokens),
    ("total_tokens", .number (args.promptTokens + args.completionTokens)),
    ("prompt", .text (truncate
      (redactForLog other enabled (sanitizeForConsole other args.prompt)) maxPromptChars)),
    ("response", .text (truncate
      (redactForLog other enabled (sanitizeForConsole other args.response)) maxResponseChars)),
    ("latency_seconds", .rounded args.latencySeconds),
    ("model", .text args.model),
    ("ok", .flag args.ok),
    ("error", match args.error with
      | some (c :: error) => .text (sanitizeForConsole other (c :: error))
      | _ => .null)] ++
  match args.kvPrefixHash with
  | some (c :: hash) => [("kv_prefix_hash", .text (c :: hash))]
  | _ => []

def compressionRecord (now : UtcTime) (args : CompressionArgs) : Record :=
  [("timestamp", .text now.isoformat),
    ("operation", .text "Context Compression".toList),
    ("message", .text ("[CONTEXT COMPRESSION EVENT] initial=".toList ++ integer args.initialTokens ++
      " post=".toList ++ integer args.postTokens ++ " ratio=".toList ++ args.compressionRatio.text ++
      " latency=".toList ++ args.latencySeconds.text ++ "s messages=".toList ++
      integer args.messagesBefore ++ "->".toList ++ integer args.messagesAfter)),
    ("initial_tokens", .number args.initialTokens),
    ("post_tokens", .number args.postTokens),
    ("compression_ratio", .rounded args.compressionRatio),
    ("latency_seconds", .rounded args.latencySeconds),
    ("messages_before", .number args.messagesBefore),
    ("messages_after", .number args.messagesAfter),
    ("model", .text args.model)]

def compressionWarnTag : Str := "[COMPRESSION WARN]".toList

def compressionFaultTag : Str := "[COMPRESSION LLM FAULT]".toList

def lintWarnTag : Str := "[STRUCTURAL LINT WARN]".toList

def warningRecord (now : UtcTime) (message model : Str) : Record :=
  [("timestamp", .text now.isoformat),
    ("operation", .text "Context Compression".toList),
    ("message", .text (if startsWith compressionWarnTag message ∨
        startsWith compressionFaultTag message then message
      else compressionWarnTag ++ ' ' :: message)),
    ("model", .text model),
    ("fallback", .flag true)]

def shutdownRecord (now : UtcTime) (signum : ℤ) : Record :=
  [("timestamp", .text now.isoformat),
    ("operation", .text "Daemon Lifecycle".toList),
    ("message", .text "[DAEMON SHUTDOWN RECEIVED] Executing safe evacuation...".toList),
    ("signal", .text (signalName signum)),
    ("critical", .flag true)]

def lintRecord (now : UtcTime) (targetFile message : Str) (malformedRefs : Option (List Str)) :
    Record :=
  [("timestamp", .text now.isoformat),
    ("operation", .text "Health Check".toList),
    ("target_file", .text targetFile),
    ("message", .text (if startsWith lintWarnTag message then message
      else lintWarnTag ++ ' ' :: message)),
    ("malformed_refs", .texts (malformedRefs.getD [])),
    ("fallback", .flag true)]

def record (now : UtcTime) : Call → Record
  | .logTurn args => turnRecord other enabled now args
  | .logCompressionEvent args => compressionRecord now args
  | .logCompressionWarning message model => warningRecord now message model
  | .logDaemonShutdown signum => shutdownRecord now signum
  | .logStructuralLintWarning targetFile message refs => lintRecord now targetFile message refs

/-- The logger: the counters of the session, and the records that it has appended. -/
structure Logger where
  sessionPromptTokens : ℤ
  sessionCompletionTokens : ℤ
  records : List Record

def Logger.fresh : Logger := ⟨0, 0, []⟩

/-- One call, at a time. -/
def Logger.call (logger : Logger) (timed : UtcTime × Call) : Logger :=
  let appended := logger.records ++ [record other enabled timed.1 timed.2]
  match timed.2 with
  | .logTurn args =>
      { sessionPromptTokens := logger.sessionPromptTokens + args.promptTokens
        sessionCompletionTokens := logger.sessionCompletionTokens + args.completionTokens
        records := appended }
  | _ => { logger with records := appended }

def Logger.run (logger : Logger) (calls : List (UtcTime × Call)) : Logger :=
  calls.foldl (Logger.call other enabled) logger

end Records

section Conditions

variable (other : Char → Bool)

/-- No pattern finds anything in a text. -/
def Clean (t : Str) : Prop := secretViolationsInText other t = []

/-- The text ends with the name of a credential, with nothing but blanks behind it. -/
def EndsWithName (t : Str) : Prop :=
  ∃ a name blanks, t = a ++ (name ++ blanks) ∧ name.map foldCase ∈ credNames ∧
    headIs (isWord other) a.reverse = false ∧ ∀ c ∈ blanks, isSpace c = true

/-- A text that is too long for a record is cut where no secret ends. -/
def CutClean (limit : ℕ) (t : Str) : Prop :=
  limit < t.length → Clean other (t.take limit) ∧ ¬EndsWithName other (t.take limit)

/-- The arguments that are written as they are hold no secrets, and the others are not cut behind
one. -/
def CallClean : Call → Prop
  | .logTurn args =>
      Clean other (sanitizeForConsole other args.targetFile) ∧
        CutClean other maxPromptChars
          (redactSecretsInText other (sanitizeForConsole other args.prompt)) ∧
        CutClean other maxResponseChars
          (redactSecretsInText other (sanitizeForConsole other args.response)) ∧
        Clean other args.model ∧
        (∀ error, args.error = some error → Clean other (sanitizeForConsole other error)) ∧
        ∀ hash, args.kvPrefixHash = some hash → Clean other hash
  | .logCompressionEvent args => Clean other args.model
  | .logCompressionWarning message model => Clean other message ∧ Clean other model
  | .logDaemonShutdown _ => True
  | .logStructuralLintWarning targetFile message refs =>
      Clean other targetFile ∧ Clean other message ∧ ∀ l, refs = some l → ∀ ref ∈ l, Clean other ref

end Conditions

section Searching

variable {other : Char → Bool}

theorem clean_iff_rules {t : Str} :
    Clean other t ↔ ∀ rule ∈ rules other, Free (isWord other) rule.shape.pattern t := by
  rw [Clean, secretViolationsInText_eq_nil, ← rules_patterns other, List.forall_mem_map]

/-- A text is free of a pattern if no secret of its shape begins anywhere in it. -/
theorem free_iff {shape : Shape (isWord other)} {t : Str} :
    Free (isWord other) shape.pattern t ↔
      ∀ a c w b, t = a ++ (c :: w ++ b) → shape.Body (c :: w) →
        headIs (isWord other) a.reverse = false →
        ¬Ends (isWord other) shape.closed (w.getLastD c) b := by
  simp only [Free, shape.finds]
  constructor
  · intro h a c w b hT hBody hBefore
    exact h a _ hT c w b rfl hBody hBefore
  · rintro h a _ hT c w b rfl hBody hBefore
    exact h a c w b hT hBody hBefore

/-- Every head of a shape has a character that the texts over an alphabet lack. -/
def lacks (alphabet : Str) (fold : Char → Char) (heads : List Str) : Bool :=
  heads.all fun h => h.any fun c => !(alphabet.map fold).contains c

theorem not_body_of_lacks {shape : Shape (isWord other)} {alphabet w : Str}
    (h : lacks alphabet shape.fold shape.heads = true) (hW : ∀ c ∈ w, c ∈ alphabet) :
    ¬shape.Body w := by
  intro hBody
  obtain ⟨k, hMem, hK⟩ := shape.known hBody
  obtain ⟨c, hC, hNot⟩ := List.any_eq_true.mp (List.all_eq_true.mp h k hMem)
  obtain ⟨d, hD, rfl⟩ := List.mem_map.mp (hK.subset hC)
  rw [Bool.not_eq_true', ← Bool.not_eq_true, List.contains_iff_mem] at hNot
  exact hNot (List.mem_map_of_mem (hW d hD))

def keyHeads : List Str :=
  ["sk-ant-".toList, "sk-".toList, "Bearer".toList, "AKIA".toList, "eyJ".toList]

/-- The alphabet is not enough for any secret. -/
def Harmless (alphabet : Str) : Prop :=
  lacks alphabet foldCase credNames = true ∧ lacks alphabet id keyHeads = true

theorem Harmless.lacks {alphabet : Str} (h : Harmless alphabet) :
    ∀ rule ∈ rules other, lacks alphabet rule.shape.fold rule.shape.heads = true := by
  obtain ⟨hNames, hKeys⟩ := h
  have hKey : ∀ k ∈ keyHeads, LogRedaction.lacks alphabet id [k] = true := by
    intro k hMem
    rw [LogRedaction.lacks, List.all_cons, List.all_nil, Bool.and_true]
    exact List.all_eq_true.mp hKeys k hMem
  simp only [keyHeads, List.forall_mem_cons] at hKey
  obtain ⟨hAnthropic, hOpenai, hBearer, hAws, hJwt, -⟩ := hKey
  simp only [rules, keyRules, List.forall_mem_cons]
  exact ⟨hNames, hAnthropic, hOpenai, hBearer, hAws, hJwt, List.forall_mem_nil _⟩

/-- A text over an alphabet that every secret goes beyond has none. -/
theorem clean_of_alphabet (alphabet : Str) {t : Str} (h : Harmless alphabet)
    (hT : ∀ c ∈ t, c ∈ alphabet) : Clean other t := by
  rw [clean_iff_rules]
  intro rule hRule
  rw [free_iff]
  rintro a c w b rfl hBody _ _
  refine not_body_of_lacks (h.lacks rule hRule) (fun d hD => hT d ?_) hBody
  exact List.mem_append_right a (List.mem_append_left b hD)

end Searching

section Tags

variable {other : Char → Bool}

theorem headIs_reverse_append {word : Char → Bool} {front : Str}
    (hFront : headIs word front.reverse = false) (a : Str) :
    headIs word (front ++ a).reverse = headIs word a.reverse := by
  rw [List.reverse_append]
  cases a.reverse with
  | nil => exact hFront
  | cons c a => rfl

/-- In front of a text, a tag in which no secret begins changes nothing. -/
theorem clean_tag {tag t : Str}
    (hSealed : ∀ rule ∈ rules other, Sealed (isWord other) rule.shape tag)
    (hTag : headIs (isWord other) tag.reverse = false) : Clean other (tag ++ t) ↔ Clean other t := by
  rw [clean_iff_rules, clean_iff_rules]
  refine forall₂_congr fun rule hRule => ?_
  rw [free_iff, free_iff]
  constructor
  · rintro h a c w b rfl hBody hBefore
    apply h (tag ++ a) c w b (List.append_assoc _ _ _).symm hBody
    rwa [headIs_reverse_append hTag]
  · intro h a c w b hEq hBody hBefore
    rcases List.append_eq_append_iff.mp hEq with ⟨k, rfl, hT⟩ | ⟨k, hK, hT⟩
    · rw [headIs_reverse_append hTag] at hBefore
      exact h k c w b hT hBody hBefore
    · cases k with
      | nil =>
          rw [List.append_nil] at hK
          rw [← hK] at hBefore
          exact h [] c w b hT.symm hBody rfl
      | cons d k =>
          exact absurd hBody (hSealed rule hRule (d :: k) t (c :: w) b ⟨a, hK.symm⟩
            (List.cons_ne_nil d k) hT)

end Tags

section Cuts

variable {other : Char → Bool}

theorem truncated_eq (n : ℕ) : truncated n =
    '.' :: '.' :: '.' :: ' ' :: '[' :: ("truncated ".toList ++ decimal n ++ " chars]".toList) := by
  have hDots : "... [truncated ".toList =
      '.' :: '.' :: '.' :: ' ' :: '[' :: "truncated ".toList := by decide
  unfold truncated
  simp only [hDots, List.cons_append]

/-- A secret that begins in front of the dots also ends there, unless it ends with one. -/
theorem ends_in_cut {shape : Shape (isWord other)} {n : ℕ} {k w b : Str} {c : Char}
    (hBody : shape.Body (c :: w)) (hEnds : Ends (isWord other) shape.closed (w.getLastD c) b)
    (hDot : shape.closed = true ∨ w.getLastD c ≠ '.') (hEq : k ++ truncated n = c :: w ++ b) :
    ∃ b', k = c :: w ++ b' ∧ b = b' ++ truncated n := by
  rcases List.append_eq_append_iff.mp hEq with ⟨v, hW, hV⟩ | ⟨b', hK, hB⟩
  · rcases List.eq_nil_or_concat' v with rfl | ⟨u, x, rfl⟩
    · exact ⟨[], by rw [hW, List.append_nil, List.append_nil], hV.symm⟩
    · exfalso
      have hLast : w.getLastD c = x := getLastD_of_eq_concat (by rw [hW, List.append_assoc])
      rw [hLast] at hEnds hDot
      have hBlank := shape.last hBody
      have hOpen := (shape.plain hBody).1
      rw [hLast] at hBlank
      rw [hW] at hOpen
      rw [truncated_eq, List.append_assoc] at hV
      have hDots : ∀ b', b = '.' :: b' ∨ b = ' ' :: b' → x = '.' → False := by
        rintro b' hB rfl
        rcases hDot with hClosed | hNot
        · rw [hClosed, Ends, if_pos rfl] at hEnds
          rcases hB with rfl | rfl <;> exact hEnds rfl
        · exact hNot rfl
      generalize "truncated ".toList ++ decimal n ++ " chars]".toList = rest at hV
      match u with
      | [] =>
          obtain ⟨rfl, hB⟩ := List.cons.inj hV
          exact hDots _ (Or.inl hB.symm) rfl
      | [_] =>
          obtain ⟨rfl, hB⟩ := List.cons.inj (List.cons.inj hV).2
          exact hDots _ (Or.inl hB.symm) rfl
      | [_, _] =>
          obtain ⟨rfl, hB⟩ := List.cons.inj (List.cons.inj (List.cons.inj hV).2).2
          exact hDots _ (Or.inr hB.symm) rfl
      | [_, _, _] =>
          simp only [List.cons_append, List.nil_append, List.cons.injEq] at hV
          rw [← hV.2.2.2.1] at hBlank
          cases hBlank
      | [_, _, _, _] =>
          simp only [List.cons_append, List.nil_append, List.cons.injEq] at hV
          exact hOpen (by rw [← hV.2.2.2.2.1]; simp)
      | _ :: _ :: _ :: _ :: e :: u =>
          simp only [List.cons_append, List.cons.injEq] at hV
          exact hOpen (by rw [← hV.2.2.2.2.1]; simp)
  · exact ⟨b', hK, hB⟩

/-- The last character of a credential's name is a colon. -/
theorem last_credName_ne_dot {c : Char} {w : Str} (h : (c :: w).map foldCase ∈ credNames) :
    w.getLastD c ≠ '.' := by
  intro hDot
  have hFold : foldCase (w.getLastD c) = ':' := foldCase_last_of_credName h
  rw [hDot] at hFold
  cases hFold

/-- A key of a closed pattern is found in front of the dots exactly if it is found in the cut
text. -/
theorem free_cut_closed {shape : Shape (isWord other)} {cut : Str} {n : ℕ}
    (hClosed : shape.closed = true)
    (hMark : ∀ a k, truncated n = a ++ k → ∀ c w b, k = c :: w ++ b → ¬shape.Body (c :: w)) :
    Free (isWord other) shape.pattern (cut ++ truncated n) ↔
      Free (isWord other) shape.pattern cut := by
  -- neither the end of the text nor a dot is a word character
  have hNext : ∀ b : Str, headIs (isWord other) (b ++ truncated n) = headIs (isWord other) b := by
    intro b
    cases b with
    | nil =>
        rw [truncated_eq]
        rfl
    | cons c b => rfl
  rw [free_iff, free_iff, hClosed]
  simp only [Ends, if_true]
  constructor
  · rintro h a c w b rfl hBody hBefore hEnds
    refine h a c w (b ++ truncated n) (by simp only [List.append_assoc]) hBody hBefore ?_
    rwa [hNext]
  · intro h a c w b hEq hBody hBefore hEnds
    rcases List.append_eq_append_iff.mp hEq with ⟨k, -, hTail⟩ | ⟨k, rfl, hTail⟩
    · exact hMark k _ hTail c w b rfl hBody
    · obtain ⟨b', rfl, rfl⟩ := ends_in_cut hBody
        (by rw [hClosed, Ends, if_pos rfl]; exact hEnds) (Or.inl hClosed) hTail.symm
      rw [hNext] at hEnds
      exact h a c w b' rfl hBody hBefore hEnds

/-- A name at the end of the cut text becomes a credential with the dots. -/
theorem free_cut_cred {cut : Str} {n : ℕ}
    (hMark : ∀ a k, truncated n = a ++ k → ∀ c w b, k = c :: w ++ b →
      ¬(credShape other).Body (c :: w)) :
    Free (isWord other) (credShape other).pattern (cut ++ truncated n) ↔
      Free (isWord other) (credShape other).pattern cut ∧ ¬EndsWithName other cut := by
  rw [free_iff, free_iff]
  constructor
  · intro h
    constructor
    · rintro a c w b rfl hBody hBefore ⟨d, hMem, hD⟩
      refine h a c w (b ++ truncated n) (by simp only [List.append_assoc]) hBody hBefore ?_
      exact ⟨d, List.mem_append_left _ hMem, hD⟩
    · rintro ⟨a, name, blanks, rfl, hName, hBefore, -⟩
      cases name with
      | nil => exact absurd (hName : [] ∈ credNames) (by decide)
      | cons c w =>
          refine h a c w (blanks ++ truncated n) (by simp only [List.append_assoc]) hName hBefore ?_
          refine ⟨'.', List.mem_append_right _ ?_, rfl⟩
          rw [truncated_eq]
          exact List.mem_cons_self
  · rintro ⟨hFree, hName⟩ a c w b hEq hBody hBefore hEnds
    rcases List.append_eq_append_iff.mp hEq with ⟨k, -, hTail⟩ | ⟨k, rfl, hTail⟩
    · exact hMark k _ hTail c w b rfl hBody
    · obtain ⟨b', rfl, rfl⟩ := ends_in_cut hBody hEnds (Or.inr (last_credName_ne_dot hBody))
        hTail.symm
      by_cases hBlank : ∀ d ∈ b', isSpace d = true
      · exact hName ⟨a, c :: w, b', rfl, hBody, hBefore, hBlank⟩
      · push Not at hBlank
        obtain ⟨d, hMem, hD⟩ := hBlank
        exact hFree a c w b' rfl hBody hBefore ⟨d, hMem, Bool.eq_false_iff.mpr hD⟩

theorem mem_digits {c : Char} (h : c.isDigit = true) : c ∈ "0123456789".toList := by
  have hRange : 48 ≤ c.toNat ∧ c.toNat ≤ 57 := by
    simpa [Char.isDigit, UInt32.le_iff_toNat_le] using h
  have hChar : c = Char.ofNat c.toNat := c.ofNat_toNat.symm
  obtain ⟨hLow, hHigh⟩ := hRange
  rw [hChar]
  generalize c.toNat = k at hLow hHigh
  interval_cases k <;> decide

def truncatedAlphabet : Str := "0123456789".toList ++ "... [truncated  chars]".toList

theorem harmless_truncatedAlphabet : Harmless truncatedAlphabet := by
  constructor <;> decide +kernel

theorem mem_truncated {n : ℕ} {d : Char} (h : d ∈ truncated n) : d ∈ truncatedAlphabet := by
  have hFront : ∀ c ∈ "... [truncated ".toList, c ∈ truncatedAlphabet := by decide +kernel
  have hBack : ∀ c ∈ " chars]".toList, c ∈ truncatedAlphabet := by decide +kernel
  unfold truncated at h
  rw [List.mem_append, List.mem_append] at h
  rcases h with (hMem | hMem) | hMem
  · exact hFront d hMem
  · exact List.mem_append_left _ (mem_digits (isDigit_of_mem_decimal hMem))
  · exact hBack d hMem

/-- No secret begins in what is written behind a cut. -/
theorem not_body_in_mark (rule : Rule other) (hRule : rule ∈ rules other) (n : ℕ) :
    ∀ a k, truncated n = a ++ k → ∀ c w b, k = c :: w ++ b → ¬rule.shape.Body (c :: w) := by
  rintro a _ hMark c w b rfl
  apply not_body_of_lacks (harmless_truncatedAlphabet.lacks rule hRule)
  intro d hD
  apply mem_truncated (n := n)
  rw [hMark]
  exact List.mem_append_right a (List.mem_append_left b hD)

/-- A cut text has a secret if there is one before the cut, or a name in front of it. -/
theorem clean_cut {cut : Str} {n : ℕ} :
    Clean other (cut ++ truncated n) ↔ Clean other cut ∧ ¬EndsWithName other cut := by
  have hCred : Free (isWord other) (credShape other).pattern (cut ++ truncated n) ↔
      Free (isWord other) (credShape other).pattern cut ∧ ¬EndsWithName other cut :=
    free_cut_cred (not_body_in_mark (credRule other) List.mem_cons_self n)
  have hKeys : (∀ rule ∈ keyRules other, Free (isWord other) rule.shape.pattern
        (cut ++ truncated n)) ↔
      ∀ rule ∈ keyRules other, Free (isWord other) rule.shape.pattern cut :=
    forall₂_congr fun rule hRule => free_cut_closed (closed_of_mem_keyRules other rule hRule)
      (not_body_in_mark rule (List.mem_cons_of_mem _ hRule) n)
  rw [clean_iff_rules, clean_iff_rules, rules, List.forall_mem_cons, List.forall_mem_cons, hKeys]
  constructor
  · rintro ⟨hName, hFree⟩
    exact ⟨⟨(hCred.mp hName).1, hFree⟩, (hCred.mp hName).2⟩
  · rintro ⟨⟨hName, hFree⟩, hNot⟩
    exact ⟨hCred.mpr ⟨hName, hNot⟩, hFree⟩

theorem clean_truncate {limit : ℕ} {t : Str} (h : Clean other t) :
    Clean other (truncate t limit) ↔ CutClean other limit t := by
  rw [truncate, CutClean]
  split_ifs with hShort
  · exact ⟨fun _ hLong => absurd hShort (Nat.not_le.mpr hLong), fun _ => h⟩
  · rw [clean_cut]
    exact ⟨fun hCut _ => hCut, fun hCut => hCut (Nat.not_le.mp hShort)⟩

end Cuts

section Constants

variable {other : Char → Bool}

instance (alphabet : Str) : Decidable (Harmless alphabet) :=
  inferInstanceAs (Decidable (_ ∧ _))

theorem clean_of_harmless {t : Str} (h : Harmless t) : Clean other t :=
  clean_of_alphabet t h fun _ hMem => hMem

theorem clean_operation (operation : OperationType) : Clean other operation.text := by
  cases operation <;> exact clean_of_harmless (by decide +kernel)

def digits : Str := "0123456789".toList

theorem mem_zeroPadded {w n : ℕ} {c : Char} (h : c ∈ zeroPadded w n) : c ∈ digits := by
  rw [zeroPadded, List.leftpad, List.mem_append] at h
  rcases h with hZero | hMem
  · rw [List.eq_of_mem_replicate hZero]
    decide
  · exact mem_digits (isDigit_of_mem_decimal hMem)

def timeAlphabet : Str := digits ++ "-:T.+".toList

theorem clean_isoformat (t : UtcTime) : Clean other t.isoformat := by
  apply clean_of_alphabet timeAlphabet (by decide +kernel)
  have hPadded : ∀ w n, ∀ c ∈ zeroPadded w n, c ∈ timeAlphabet :=
    fun w n c hMem => List.mem_append_left _ (mem_zeroPadded hMem)
  have hMarks : ∀ c ∈ "-:T.+".toList, ∀ d ∈ [c], d ∈ timeAlphabet := by
    intro c hMem d hD
    rw [List.mem_singleton.mp hD]
    exact List.mem_append_right _ hMem
  have hZone : ∀ c ∈ "+00:00".toList, c ∈ timeAlphabet := by decide +kernel
  simp only [UtcTime.isoformat, List.forall_mem_append]
  refine ⟨⟨⟨⟨⟨⟨⟨⟨⟨⟨⟨⟨hPadded _ _, ?_⟩, hPadded _ _⟩, ?_⟩, hPadded _ _⟩, ?_⟩, hPadded _ _⟩, ?_⟩,
    hPadded _ _⟩, ?_⟩, hPadded _ _⟩, ?_⟩, hZone⟩
  · exact hMarks '-' (by decide)
  · exact hMarks '-' (by decide)
  · exact hMarks 'T' (by decide)
  · exact hMarks ':' (by decide)
  · exact hMarks ':' (by decide)
  · split_ifs
    · exact nofun
    · rw [List.forall_mem_append]
      exact ⟨hMarks '.' (by decide), hPadded _ _⟩

def numberAlphabet : Str := digits ++ "-.infa".toList

theorem mem_integer {n : ℤ} {c : Char} (h : c ∈ integer n) : c ∈ numberAlphabet := by
  rw [integer, List.mem_append] at h
  rcases h with hSign | hMem
  · split_ifs at hSign
    · rw [List.mem_singleton.mp hSign]
      decide
    · cases hSign
  · exact List.mem_append_left _ (mem_digits (isDigit_of_mem_decimal hMem))

theorem mem_roundedText {x : Rounded} {c : Char} (h : c ∈ x.text) : c ∈ numberAlphabet := by
  have hSign : ∀ negative, c ∈ sign negative → c ∈ numberAlphabet := by
    intro negative hMem
    rw [sign] at hMem
    split_ifs at hMem
    · rw [List.mem_singleton.mp hMem]
      decide
    · cases hMem
  have hDigits : c ∈ digits → c ∈ numberAlphabet := List.mem_append_left _
  have hInf : ∀ d ∈ "inf".toList, d ∈ numberAlphabet := by decide +kernel
  have hNan : ∀ d ∈ "nan".toList, d ∈ numberAlphabet := by decide +kernel
  cases x with
  | finite negative units =>
      rw [Rounded.text, List.mem_append, List.mem_append, List.mem_append] at h
      rcases h with ((hMem | hMem) | hMem) | hMem
      · exact hSign negative hMem
      · exact hDigits (mem_digits (isDigit_of_mem_decimal hMem))
      · rw [List.mem_singleton.mp hMem]
        decide
      · exact hDigits (mem_zeroPadded hMem)
  | infinite negative =>
      rw [Rounded.text, List.mem_append] at h
      exact h.elim (hSign negative) (hInf c)
  | nan => exact hNan c h

theorem clean_signalName (signum : ℤ) : Clean other (signalName signum) := by
  have hNames : ∀ entry ∈ signalNames, Harmless entry.2.toList := by decide +kernel
  rw [signalName]
  split
  · next name hName =>
      obtain ⟨l, l', hEq, -⟩ := List.lookup_eq_some_iff.mp hName
      apply clean_of_harmless (hNames (signum, name) _)
      rw [hEq]
      exact List.mem_append_right _ List.mem_cons_self
  · exact clean_of_alphabet numberAlphabet (by decide +kernel) fun _ => mem_integer

end Constants

section Results

variable {other : Char → Bool}

def messageAlphabet : Str :=
  numberAlphabet ++ "[CONTEXT COMPRESSION EVENT] initial= post= ratio= latency=s messages=->".toList

theorem clean_compressionMessage (args : CompressionArgs) :
    Clean other ("[CONTEXT COMPRESSION EVENT] initial=".toList ++ integer args.initialTokens ++
      " post=".toList ++ integer args.postTokens ++ " ratio=".toList ++ args.compressionRatio.text ++
      " latency=".toList ++ args.latencySeconds.text ++ "s messages=".toList ++
      integer args.messagesBefore ++ "->".toList ++ integer args.messagesAfter) := by
  apply clean_of_alphabet messageAlphabet (by decide +kernel)
  have hInteger : ∀ n, ∀ c ∈ integer n, c ∈ messageAlphabet :=
    fun n c hMem => List.mem_append_left _ (mem_integer hMem)
  have hRounded : ∀ x : Rounded, ∀ c ∈ x.text, c ∈ messageAlphabet :=
    fun x c hMem => List.mem_append_left _ (mem_roundedText hMem)
  simp only [List.forall_mem_append]
  refine ⟨⟨⟨⟨⟨⟨⟨⟨⟨⟨⟨?_, hInteger _⟩, ?_⟩, hInteger _⟩, ?_⟩, hRounded _⟩, ?_⟩, hRounded _⟩, ?_⟩,
    hInteger _⟩, ?_⟩, hInteger _⟩ <;> decide +kernel

/-- No secret begins in a tag, wherever it is put. -/
def sealsAll (tag : Str) : Prop :=
  (tag.tails.all fun y => y = [] || sealedBy foldCase credNames y) = true ∧
    (tag.tails.all fun y => y = [] || sealedBy id keyHeads y) = true

instance (tag : Str) : Decidable (sealsAll tag) := inferInstanceAs (Decidable (_ ∧ _))

theorem sealed_of_sealsAll {tag : Str} (h : sealsAll tag) :
    ∀ rule ∈ rules other, Sealed (isWord other) rule.shape tag := by
  have hKey : ∀ k ∈ keyHeads, (tag.tails.all fun y => y = [] || sealedBy id [k] y) = true := by
    intro k hMem
    rw [List.all_eq_true]
    intro y hY
    have hSeals := List.all_eq_true.mp h.2 y hY
    rw [Bool.or_eq_true] at hSeals ⊢
    refine hSeals.imp_right fun hAll => ?_
    rw [sealedBy, List.all_cons, List.all_nil, Bool.and_true]
    exact List.all_eq_true.mp hAll k hMem
  simp only [keyHeads, List.forall_mem_cons] at hKey
  obtain ⟨hAnthropic, hOpenai, hBearer, hAws, hJwt, -⟩ := hKey
  simp only [rules, keyRules, List.forall_mem_cons]
  exact ⟨sealed_of_all h.1, sealed_of_all hAnthropic, sealed_of_all hOpenai, sealed_of_all hBearer,
    sealed_of_all hAws, sealed_of_all hJwt, List.forall_mem_nil _⟩

theorem clean_tagged {tag message : Str} (hTag : sealsAll (tag ++ [' '])) :
    Clean other (tag ++ ' ' :: message) ↔ Clean other message := by
  rw [← List.singleton_append, ← List.append_assoc]
  apply clean_tag (sealed_of_sealsAll hTag)
  rw [List.reverse_append]
  exact isWord_of_isSpace other rfl

theorem redactForLog_true (t : Str) : redactForLog other true t = redactSecretsInText other t := by
  by_cases hNil : t = []
  · subst hNil
    rfl
  · rw [redactForLog, if_neg (not_or.mpr ⟨hNil, Bool.noConfusion⟩)]

theorem clean_nil : Clean other [] := clean_of_harmless (by decide)

/-- The texts that a turn always writes. -/
theorem turnRecord_clean_iff (now : UtcTime) (args : TurnArgs) :
    (∀ s ∈ strings (turnRecord other true now args), Clean other s) ↔
      CallClean other (.logTurn args) := by
  have hTime : Clean other now.isoformat := clean_isoformat now
  have hKind : Clean other args.operation.text := clean_operation args.operation
  have hError : ∀ error : Option Str, (∀ s ∈ (match error with
      | some (c :: text) => Value.text (sanitizeForConsole other (c :: text))
      | _ => Value.null).strings, Clean other s) ↔
        ∀ text, error = some text → Clean other (sanitizeForConsole other text) := by
    rintro (_ | _ | ⟨c, text⟩)
    · simp [Value.strings]
    · simpa [Value.strings, sanitizeForConsole] using clean_nil
    · simp [Value.strings]
  have hHash : ∀ hash : Option Str, (∀ s ∈ strings (match hash with
      | some (c :: text) => [("kv_prefix_hash", Value.text (c :: text))]
      | _ => []), Clean other s) ↔ ∀ text, hash = some text → Clean other text := by
    rintro (_ | _ | ⟨c, text⟩)
    · simp [strings]
    · simpa [strings] using clean_nil
    · simp [strings, Value.strings]
  rw [CallClean, ← hError, ← hHash, ← clean_truncate (no_violations_redacted _),
    ← clean_truncate (no_violations_redacted _), ← redactForLog_true, ← redactForLog_true]
  rw [turnRecord, strings, List.flatMap_append, List.forall_mem_append]
  simp only [List.flatMap_cons, List.flatMap_nil, Value.strings, List.forall_mem_append,
    List.forall_mem_singleton, List.not_mem_nil, false_imp_iff, implies_true, true_and, and_true,
    hTime, hKind, and_assoc]
  rfl

theorem warningRecord_clean_iff (now : UtcTime) (message model : Str) :
    (∀ s ∈ strings (warningRecord now message model), Clean other s) ↔
      CallClean other (.logCompressionWarning message model) := by
  have hTime : Clean other now.isoformat := clean_isoformat now
  have hKind : Clean other "Context Compression".toList := clean_operation .contextCompression
  have hTag : Clean other (compressionWarnTag ++ ' ' :: message) ↔ Clean other message :=
    clean_tagged (by decide +kernel)
  simp only [warningRecord, strings, Value.strings, List.flatMap_cons, List.flatMap_nil,
    List.cons_append, List.nil_append, List.forall_mem_cons, CallClean]
  split_ifs
  · exact ⟨fun h => ⟨h.2.2.1, h.2.2.2.1⟩, fun h => ⟨hTime, hKind, h.1, h.2, nofun⟩⟩
  · rw [hTag]
    exact ⟨fun h => ⟨h.2.2.1, h.2.2.2.1⟩, fun h => ⟨hTime, hKind, h.1, h.2, nofun⟩⟩

theorem lintRecord_clean_iff (now : UtcTime) (targetFile message : Str)
    (refs : Option (List Str)) :
    (∀ s ∈ strings (lintRecord now targetFile message refs), Clean other s) ↔
      CallClean other (.logStructuralLintWarning targetFile message refs) := by
  have hTime : Clean other now.isoformat := clean_isoformat now
  have hKind : Clean other "Health Check".toList := clean_operation .healthCheck
  have hTag : Clean other (lintWarnTag ++ ' ' :: message) ↔ Clean other message :=
    clean_tagged (by decide +kernel)
  have hRefs : (∀ s ∈ refs.getD [], Clean other s) ↔
      ∀ l, refs = some l → ∀ ref ∈ l, Clean other ref := by
    cases refs with
    | none => simp
    | some l => simp
  have hMessage : Clean other (if startsWith lintWarnTag message then message
      else lintWarnTag ++ ' ' :: message) ↔ Clean other message := by
    split_ifs
    · rfl
    · exact hTag
  rw [CallClean, ← hRefs, ← hMessage]
  simp only [lintRecord, strings, Value.strings, List.flatMap_cons, List.flatMap_nil,
    List.cons_append, List.nil_append, List.append_nil, List.forall_mem_cons,
    hTime, hKind, true_and]

/-- A record holds no secret exactly if its call is given none where it redacts none. -/
theorem record_clean_iff (now : UtcTime) (call : Call) :
    (∀ s ∈ strings (record other true now call), Clean other s) ↔ CallClean other call := by
  have hTime : Clean other now.isoformat := clean_isoformat now
  cases call with
  | logTurn args => exact turnRecord_clean_iff now args
  | logCompressionEvent args =>
      have hKind : Clean other "Context Compression".toList := clean_operation .contextCompression
      simp only [record, compressionRecord, strings, Value.strings, List.flatMap_cons,
        List.flatMap_nil, List.cons_append, List.nil_append, List.forall_mem_cons, CallClean]
      exact ⟨fun h => h.2.2.2.1, fun h => ⟨hTime, hKind, clean_compressionMessage args, h, nofun⟩⟩
  | logCompressionWarning message model => exact warningRecord_clean_iff now message model
  | logDaemonShutdown signum =>
      have hKind : Clean other "Daemon Lifecycle".toList := clean_operation .daemonLifecycle
      have hMessage : Clean other
          "[DAEMON SHUTDOWN RECEIVED] Executing safe evacuation...".toList :=
        clean_of_harmless (by decide +kernel)
      simp only [record, shutdownRecord, strings, Value.strings, List.flatMap_cons,
        List.flatMap_nil, List.cons_append, List.nil_append, List.forall_mem_cons, CallClean]
      exact ⟨fun _ => trivial, fun _ => ⟨hTime, hKind, hMessage, clean_signalName signum, nofun⟩⟩
  | logStructuralLintWarning targetFile message refs =>
      exact lintRecord_clean_iff now targetFile message refs

/-- Every call appends its record. -/
theorem records_run (enabled : Bool) (logger : Logger) (calls : List (UtcTime × Call)) :
    (logger.run other enabled calls).records =
      logger.records ++ calls.map fun timed => record other enabled timed.1 timed.2 := by
  induction calls generalizing logger with
  | nil => rw [Logger.run, List.foldl_nil, List.map_nil, List.append_nil]
  | cons timed calls ih =>
      rw [Logger.run, List.foldl_cons]
      have hCall : (Logger.call other enabled logger timed).records =
          logger.records ++ [record other enabled timed.1 timed.2] := by
        rw [Logger.call]
        split <;> rfl
      have hRest := ih (Logger.call other enabled logger timed)
      rw [hCall, List.append_assoc] at hRest
      exact hRest

/-- With redaction on, the records of a session hold no secret exactly if no call is given one in
an argument that is written as it is, and none has a text that is cut behind one. -/
theorem log_clean_iff (other : Char → Bool) (calls : List (UtcTime × Call)) :
    (∀ r ∈ (Logger.fresh.run other true calls).records, ∀ s ∈ strings r,
      secretViolationsInText other s = []) ↔ ∀ timed ∈ calls, CallClean other timed.2 := by
  rw [records_run, Logger.fresh, List.nil_append, List.forall_mem_map]
  exact forall₂_congr fun timed _ => record_clean_iff timed.1 timed.2

def leakyTurn : TurnArgs where
  targetFile := "page".toList
  operation := .conceptIndexing
  promptTokens := 1
  completionTokens := 0
  prompt := "p".toList
  response := []
  latencySeconds := .finite false 0
  model := "m".toList
  ok := false
  error := some "key sk-abcdefgh".toList
  kvPrefixHash := none

/-- A key in the text of an error is written to the log. -/
theorem error_not_redacted :
    ¬∀ r ∈ (Logger.fresh.run (fun _ => false) true
        [(⟨2026, 1, 1, 0, 0, 0, 0⟩, .logTurn leakyTurn)]).records,
      ∀ s ∈ strings r, secretViolationsInText (fun _ => false) s = [] := by
  intro h
  have hMem : "key sk-abcdefgh".toList ∈
      strings (turnRecord (fun _ => false) true ⟨2026, 1, 1, 0, 0, 0, 0⟩ leakyTurn) := by
    decide +kernel
  have hClean := h _ List.mem_cons_self _ hMem
  revert hClean
  decide +kernel

end Results

end Plumber.LogRedaction
