import MatrycaPlumber.System.Transition
import MatrycaPlumber.Text.Basic

/-! Page parsing in a worker process: the calls of one process, the worker it starts and the
two queues between them, or a subprocess for each call when the process is a daemon. -/
namespace Plumber.BoundedPageParse

open PyText Transition

/-- The parsers of pages, with the text of their exceptions' types, and the JSON of a page. -/
structure ParserPackage (π β : Type) where
  stackMachineParser : Int → Str → Str → Except Str π
  logosParser : Str → Except Str π
  modelDumpJson : π → β
  modelValidateJson : β → Option π
  emptyBytes : β

/-- A message for the worker. An identifier or a hash is missing when it is equal to no
number or no text. -/
structure Request where
  op : Str
  requestId : Option Nat
  contentHash : Option Str
  mode : Str
  text : Str
  title : Str
  tabSize : Int
deriving DecidableEq

inductive InMessage where
  | shutdown
  | request (msg : Request) (expected : Bool)
deriving DecidableEq

/-- A response as a dictionary, with a blob unless what it has is no bytes. -/
structure Response (β : Type) where
  requestId : Option Nat
  contentHash : Option Str
  ok : Bool
  error : Option Str
  blob : Option β
deriving DecidableEq

/-- What a queue of responses can hold, with the request that the worker had read for it. -/
inductive OutMessage (β : Type) where
  | null
  | noDict
  | response (r : Response β) (source : Option (Request × Bool))
deriving DecidableEq

/-- No request has been read for a message that nobody expects. -/
def OutMessage.unexpected {β : Type} : OutMessage β → OutMessage β
  | response r _ => response r none
  | msg => msg

/-- The fields of a result that depend on the call alone are those of the page. -/
structure BoundedParseResult (π : Type) where
  ok : Bool
  timedOut : Bool
  contentHash : Str
  byteCount : Nat
  lineCount : Nat
  mode : Str
  error : Option Str
  page : Option π

section Worker

variable {π β : Type} (parser : ParserPackage π β)

def parsePage (msg : Request) : Except Str π :=
  if msg.mode = "stack".toList then parser.stackMachineParser msg.tabSize msg.text msg.title
  else parser.logosParser msg.text

/-- `_parse_request_message`. -/
def parseRequestMessage (msg : Request) : Response β :=
  let failed (error : Str) : Response β := ⟨msg.requestId, msg.contentHash, false, some error, none⟩
  if msg.op ≠ "parse".toList then failed "unknown_op".toList
  else if msg.mode ≠ "logos".toList ∧ msg.mode ≠ "stack".toList then failed "invalid_mode".toList
  else
    match parsePage parser msg with
    | .error name => failed name
    | .ok page =>
        ⟨msg.requestId, msg.contentHash, true, none, some (parser.modelDumpJson page)⟩

end Worker

def pageLineCount (text : Str) : Nat :=
  if text = [] then 0 else text.count '\n' + if text.getLast? = some '\n' then 0 else 1

/-- A call that has its request and the lock. -/
structure ParseCall where
  request : Request
  requestId : Nat
  digest : Str
  mode : Str
deriving DecidableEq

section Results

variable {π β : Type} (parser : ParserPackage π β)

def ParseCall.result (c : ParseCall) (ok timedOut : Bool) (error : Option Str) (page : Option π) :
    BoundedParseResult π where
  ok := ok
  timedOut := timedOut
  contentHash := c.digest
  byteCount := (String.ofList c.request.text).utf8ByteSize
  lineCount := pageLineCount c.request.text
  mode := c.mode
  error := error
  page := page

def ParseCall.failed (c : ParseCall) (error : String) : BoundedParseResult π :=
  c.result false false (some error.toList) none

/-- The name of an error, unless it looks like a path. -/
def errorName (error : Option Str) : Str :=
  let error := match error with
    | none | some [] => "parse_error".toList
    | some error => error
  if '/' ∈ error ∨ '\\' ∈ error then "parse_error".toList else error

/-- The identifier and the hash are those of the call. -/
def Response.matches (r : Response β) (c : ParseCall) : Bool :=
  r.requestId = some c.requestId ∧ r.contentHash = some c.digest

def Request.echoes (msg : Request) (c : ParseCall) : Bool :=
  msg.requestId = some c.requestId ∧ msg.contentHash = some c.digest

/-- A response with the identifier and the hash of the call. A blob that is no bytes
leaves the result without a page. -/
def ParseCall.accept (c : ParseCall) (r : Response β) : BoundedParseResult π :=
  if r.ok = false then c.result false false (some (errorName r.error)) none
  else
    match r.blob with
    | none => c.result true false none none
    | some blob =>
        match parser.modelValidateJson blob with
        | none => c.failed "unpickle_error"
        | some page => c.result true false none (some page)

/-- `_write_response` of the child: what is no bytes is written as none. -/
def Response.withBytes (r : Response β) : Response β :=
  { r with blob := some (r.blob.getD parser.emptyBytes) }

/-- `_daemon_subprocess_result_unlocked` on the response that the child has written. -/
def ParseCall.daemonResult (c : ParseCall) (r : Response β) : BoundedParseResult π :=
  if r.matches c then c.accept parser (r.withBytes parser)
  else c.failed "protocol_mismatch"

end Results

/-- The worker process and its queues. -/
structure Connection (β : Type) where
  alive : Bool := true
  inQueue : List InMessage := []
  outQueue : List (OutMessage β) := []
  current : Option (Request × Bool) := none

/-- Where the call that has the lock is: before `_ensure_worker_unlocked`, the check for
leftover output, the request, or its answer, or in the subprocess of a daemon. -/
inductive Stage where
  | idle
  | entered (c : ParseCall)
  | ensured (c : ParseCall)
  | checked (c : ParseCall)
  | waiting (c : ParseCall)
  | subprocess (c : ParseCall)

/-- A result, with the request of its call and the one whose answer was accepted. -/
structure Return (π : Type) where
  call : ParseCall
  result : BoundedParseResult π
  source : Option Request

/-- The object of the worker in the process that uses it, with all results so far. -/
structure World (π β : Type) where
  nextRequestId : Nat := 0
  connection : Option (Connection β) := none
  forked : Bool := false
  stage : Stage := .idle
  returns : List (Return π) := []

/-- What may come of the child that a daemon starts. -/
inductive ChildOutcome where
  | timeout
  | osError
  | failed
  | answered

inductive Action (β : Type) where
  /-- the call takes the lock -/
  | start (text mode title : Str) (tabSize : Int) (daemon : Bool)
  | ensure
  /-- `get_nowait`, which may not see a message that is on its way -/
  | check (seen : Bool)
  | put
  | receive
  /-- `get` raises -/
  | receiveFails
  | timeout
  | child (outcome : ChildOutcome)
  | workerTakes
  | workerAnswers
  | workerDies
  /-- a message that nobody expects -/
  | injectIn (msg : Option Request)
  | injectOut (msg : OutMessage β)
  | shutdown
  | fork

section Steps

variable {π β : Type} (parser : ParserPackage π β) (digest : Str → Str)

/-- The call returns, and the lock is free. -/
def World.return (w : World π β) (c : ParseCall) (result : BoundedParseResult π)
    (source : Option Request) : World π β :=
  { w with stage := .idle, returns := w.returns ++ [⟨c, result, source⟩] }

/-- `_kill_worker_unlocked` discards both queues. -/
def World.kill (w : World π β) : World π β := { w with connection := none }

def World.mismatch (w : World π β) (c : ParseCall) : World π β :=
  w.kill.return c (c.failed "protocol_mismatch") none

def World.start (w : World π β) (text mode title : Str) (tabSize : Int) (daemon : Bool) :
    World π β :=
  let request : Request :=
    ⟨"parse".toList, some (w.nextRequestId + 1), some (digest text), mode, text, title, tabSize⟩
  let c : ParseCall := ⟨request, w.nextRequestId + 1, digest text, mode⟩
  if mode ≠ "logos".toList ∧ mode ≠ "stack".toList then
    { w with returns := w.returns ++ [⟨c, c.failed "invalid_mode", none⟩] }
  else
    { w with
      nextRequestId := w.nextRequestId + 1
      stage := if daemon then .subprocess c else .entered c }

/-- `_ensure_worker_unlocked`. -/
def World.ensureWorker (w : World π β) : World π β :=
  if w.forked then { w with connection := some {}, forked := false }
  else
    match w.connection with
    | none => { w with connection := some {} }
    | some conn => if conn.alive then w else { w with connection := some {} }

/-- A message from the worker, while the call waits for its answer. What is no dictionary
raises and leaves the worker as it is. -/
def World.handle (w : World π β) (c : ParseCall) : OutMessage β → World π β
  | .null | .noDict => { w with stage := .idle }
  | .response r source =>
      if r.matches c then w.return c (c.accept parser r) (source.map Prod.fst) else w.mismatch c

/-- The worker process takes the next message, or ends. -/
def Connection.take (conn : Connection β) : Option (Connection β) :=
  match conn.alive, conn.current, conn.inQueue with
  | true, none, .shutdown :: rest => some { conn with inQueue := rest, alive := false }
  | true, none, .request msg expected :: rest =>
      some { conn with inQueue := rest, current := some (msg, expected) }
  | _, _, _ => none

def Connection.answer (conn : Connection β) : Option (Connection β) :=
  match conn.alive, conn.current, conn.outQueue with
  | true, some (msg, expected), [] =>
      some { conn with
        outQueue := [.response (parseRequestMessage parser msg) (some (msg, expected))]
        current := none }
  | _, _, _ => none

/-- The state of the worker process and its queues changes, if there is one. -/
def World.onConnection (w : World π β) (f : Connection β → Option (Connection β)) :
    Option (World π β) :=
  (w.connection.bind f).map fun conn => { w with connection := some conn }

def step (w : World π β) : Action β → Option (World π β)
  | .start text mode title tabSize daemon =>
      match w.stage with
      | .idle => some (w.start digest text mode title tabSize daemon)
      | _ => none
  | .ensure =>
      match w.stage with
      | .entered c => some { w.ensureWorker with stage := .ensured c }
      | _ => none
  | .check seen =>
      match w.stage, w.connection with
      | .ensured c, some conn =>
          if seen then
            match conn.outQueue with
            | [] => none
            -- `unexpected is not None`
            | .null :: rest =>
                some { w with
                  connection := some { conn with outQueue := rest }
                  stage := .checked c }
            | _ :: _ => some (w.mismatch c)
          else some { w with stage := .checked c }
      | _, _ => none
  | .put =>
      match w.stage, w.connection with
      | .checked c, some conn =>
          if conn.inQueue = [] then
            some { w with
              connection := some { conn with inQueue := [.request c.request true] }
              stage := .waiting c }
          else none
      | _, _ => none
  | .receive =>
      match w.stage, w.connection with
      | .waiting c, some conn =>
          match conn.outQueue with
          | [] => none
          | msg :: rest =>
              some ({ w with connection := some { conn with outQueue := rest } }.handle parser c msg)
      | _, _ => none
  | .receiveFails =>
      match w.stage with
      | .waiting c => some (w.mismatch c)
      | _ => none
  | .timeout =>
      match w.stage with
      | .waiting c => some (w.kill.return c (c.result false true (some "timeout".toList) none) none)
      | _ => none
  | .child outcome =>
      match w.stage, outcome with
      | .subprocess c, .timeout =>
          some (w.return c (c.result false true (some "timeout".toList) none) none)
      | .subprocess c, .osError => some (w.return c (c.failed "subprocess_error") none)
      | .subprocess c, .failed => some (w.mismatch c)
      | .subprocess c, .answered =>
          some (w.return c (c.daemonResult parser (parseRequestMessage parser c.request))
            (some c.request))
      | _, _ => none
  | .workerTakes => w.onConnection Connection.take
  | .workerAnswers => w.onConnection (Connection.answer parser)
  | .workerDies => w.onConnection fun conn => some { conn with alive := false, current := none }
  | .injectIn msg =>
      w.onConnection fun conn =>
        if conn.inQueue = [] then
          some { conn with inQueue := [msg.elim .shutdown fun msg => .request msg false] }
        else none
  | .injectOut msg =>
      w.onConnection fun conn =>
        match conn.outQueue with
        | [] => some { conn with outQueue := [msg.unexpected] }
        | _ :: _ => none
  | .shutdown =>
      match w.stage with
      | .idle => some w.kill
      | _ => none
  | .fork =>
      match w.stage with
      | .idle => some { w with forked := true }
      | _ => none

end Steps

section Conditions

variable {π β : Type}

/-- An unexpected message with the identifier and the hash of the call is on its way. -/
def InMessage.forges (c : ParseCall) : InMessage → Bool
  | request msg expected => !expected && msg.echoes c
  | shutdown => false

def OutMessage.forges (c : ParseCall) : OutMessage β → Bool
  | response r source => !(source.any Prod.snd) && r.matches c
  | null | noDict => false

def Connection.forges (conn : Connection β) (c : ParseCall) : Bool :=
  conn.inQueue.any (InMessage.forges c) ||
    conn.current.any (fun current => !current.2 && current.1.echoes c) ||
    conn.outQueue.any (OutMessage.forges c)

/-- No unexpected message has the identifier and the hash of a call that waits for its
answer. -/
def Unforged (w : World π β) : Action β → Prop
  | .put =>
      match w.stage, w.connection with
      | .checked c, some conn => conn.forges c = false
      | _, _ => True
  | .injectIn (some msg) =>
      match w.stage with
      | .waiting c => msg.echoes c = false
      | _ => True
  | .injectOut (.response r _) =>
      match w.stage with
      | .waiting c => r.matches c = false
      | _ => True
  | _ => True

end Conditions

/-- A result that is ok has a page that the parser made of the request of this call, and no
later call returns what was made of the request of an earlier one. -/
structure Matched {π β : Type} (parser : ParserPackage π β) (w : World π β) : Prop where
  own : ∀ ret ∈ w.returns, ret.result.ok = true → ret.source = some ret.call.request ∧
    ∃ parsed page, parsePage parser ret.call.request = .ok parsed ∧
      parser.modelValidateJson (parser.modelDumpJson parsed) = some page ∧
        ret.result.page = some page
  later : w.returns.Pairwise fun earlier ret =>
    ret.result.ok = true → ret.source ≠ some earlier.call.request

end Plumber.BoundedPageParse
