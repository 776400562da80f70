import MatrycaPlumber.Graph.BoundedPageParse

/-! Responses are matched to their requests: whatever the worker and the queues do, a page
that a call returns was made of its own request, as long as no message is forged. -/
namespace Plumber.BoundedPageParse

open PyText Transition

section Echo

variable {π β : Type} {parser : ParserPackage π β} {msg : Request} {c : ParseCall}

theorem parseRequestMessage_echo (parser : ParserPackage π β) (msg : Request) :
    (parseRequestMessage parser msg).requestId = msg.requestId ∧
      (parseRequestMessage parser msg).contentHash = msg.contentHash := by
  unfold parseRequestMessage
  split_ifs
  · exact ⟨rfl, rfl⟩
  · exact ⟨rfl, rfl⟩
  · cases parsePage parser msg <;> exact ⟨rfl, rfl⟩

/-- The worker echoes what correlates the response with the request. -/
theorem matches_parseRequestMessage :
    (parseRequestMessage parser msg).matches c = msg.echoes c := by
  obtain ⟨hId, hHash⟩ := parseRequestMessage_echo parser msg
  rw [Response.matches, Request.echoes, hId, hHash]

/-- A response that is ok has the bytes of the page that was parsed. -/
theorem parseRequestMessage_ok (h : (parseRequestMessage parser msg).ok = true) :
    ∃ parsed, parsePage parser msg = .ok parsed ∧
      (parseRequestMessage parser msg).blob = some (parser.modelDumpJson parsed) := by
  unfold parseRequestMessage at h ⊢
  split_ifs at h ⊢
  cases hParsed : parsePage parser msg with
  | error name =>
      rw [hParsed] at h
      cases h
  | ok parsed => exact ⟨parsed, rfl, rfl⟩

theorem accept_not_ok {r : Response β} (h : r.ok = false) : (c.accept parser r).ok = false := by
  rw [ParseCall.accept, if_pos h]
  rfl

/-- An accepted answer to a request has a page if it is ok, and the page comes from the
request. -/
theorem accept_ok (h : (c.accept parser (parseRequestMessage parser msg)).ok = true) :
    ∃ parsed page, parsePage parser msg = .ok parsed ∧
      parser.modelValidateJson (parser.modelDumpJson parsed) = some page ∧
        (c.accept parser (parseRequestMessage parser msg)).page = some page := by
  cases hOk : (parseRequestMessage parser msg).ok with
  | false =>
      rw [accept_not_ok hOk] at h
      cases h
  | true =>
      obtain ⟨parsed, hParsed, hBlob⟩ := parseRequestMessage_ok hOk
      rw [ParseCall.accept, if_neg (by simp [hOk]), hBlob] at h ⊢
      dsimp only at h ⊢
      cases hPage : parser.modelValidateJson (parser.modelDumpJson parsed) with
      | none =>
          rw [hPage] at h
          cases h
      | some page => exact ⟨parsed, page, hParsed, hPage, rfl⟩

theorem withBytes_of_blob {r : Response β} {blob : β} (h : r.blob = some blob) :
    r.withBytes parser = r := by
  cases r
  rw [Response.withBytes, h]
  exact congrArg _ h.symm

/-- The child of a daemon answers the request that it was given. -/
theorem daemonResult_ok (h : (c.daemonResult parser (parseRequestMessage parser msg)).ok = true) :
    ∃ parsed page, parsePage parser msg = .ok parsed ∧
      parser.modelValidateJson (parser.modelDumpJson parsed) = some page ∧
        (c.daemonResult parser (parseRequestMessage parser msg)).page = some page := by
  rw [ParseCall.daemonResult] at h ⊢
  split_ifs at h ⊢ with hMatches
  · cases hOk : (parseRequestMessage parser msg).ok with
    | false =>
        have hNot : (c.accept parser ((parseRequestMessage parser msg).withBytes parser)).ok = false :=
          accept_not_ok hOk
        rw [hNot] at h
        cases h
    | true =>
        obtain ⟨parsed, _, hBlob⟩ := parseRequestMessage_ok hOk
        rw [withBytes_of_blob hBlob] at h ⊢
        exact accept_ok h
  · cases h

end Echo

/-- The requests behind all messages between the process and its worker. -/
def Connection.requests {β : Type} (conn : Connection β) : List (Request × Bool) :=
  (conn.inQueue.filterMap fun
    | .request msg expected => some (msg, expected)
    | .shutdown => none) ++
  conn.current.toList ++
  conn.outQueue.filterMap fun
    | .response _ source => source
    | .null | .noDict => none

def ValidMode (mode : Str) : Prop := mode = "logos".toList ∨ mode = "stack".toList

def Stage.call? : Stage → Option ParseCall
  | idle => none
  | entered c | ensured c | checked c | waiting c | subprocess c => some c

/-- The request of a call has the last identifier. -/
structure ParseCall.Current (c : ParseCall) (nextRequestId : Nat) : Prop where
  requestId : c.requestId = nextRequestId
  request : c.request.requestId = some nextRequestId
  contentHash : c.request.contentHash = some c.digest
  mode : ValidMode c.request.mode

/-- A request that was sent has an identifier that has been given, which is older than that
of a call that has not sent its own. -/
def Stage.Sent (nextRequestId : Nat) (msg : Request) : Stage → Prop
  | idle => ∃ n, msg.requestId = some n ∧ n ≤ nextRequestId
  | waiting c => ∃ n, msg.requestId = some n ∧ n ≤ nextRequestId ∧
      (n = nextRequestId → msg = c.request)
  | entered _ | ensured _ | checked _ | subprocess _ =>
      ∃ n, msg.requestId = some n ∧ n < nextRequestId

/-- A request that has been answered is older than that of the present call. -/
def Stage.Past (nextRequestId : Nat) (msg : Request) (stage : Stage) : Prop :=
  ValidMode msg.mode → ∃ n, msg.requestId = some n ∧ n ≤ nextRequestId ∧
    (stage.call?.isSome → n < nextRequestId)

structure Invariant {π β : Type} (parser : ParserPackage π β) (w : World π β) : Prop where
  call : ∀ c, w.stage.call? = some c → c.Current w.nextRequestId
  sent : ∀ conn, w.connection = some conn → ∀ msg, (msg, true) ∈ conn.requests →
    w.stage.Sent w.nextRequestId msg
  answers : ∀ conn, w.connection = some conn → ∀ r msg expected,
    .response r (some (msg, expected)) ∈ conn.outQueue → r = parseRequestMessage parser msg
  unforged : ∀ conn c, w.connection = some conn → w.stage = .waiting c → conn.forges c = false
  past : ∀ ret ∈ w.returns, w.stage.Past w.nextRequestId ret.call.request
  matched : Matched parser w

section Steps

variable {π β : Type} {parser : ParserPackage π β} {digest : Str → Str} {w u : World π β}

theorem Stage.Sent.idle {n : Nat} {msg : Request} {stage : Stage} (h : stage.Sent n msg) :
    Stage.idle.Sent n msg := by
  cases stage with
  | idle => exact h
  | waiting c =>
      obtain ⟨k, hId, hLe, _⟩ := h
      exact ⟨k, hId, hLe⟩
  | _ =>
      obtain ⟨k, hId, hLt⟩ := h
      exact ⟨k, hId, hLt.le⟩

theorem Stage.Past.idle {n : Nat} {msg : Request} {stage : Stage} (h : stage.Past n msg) :
    Stage.idle.Past n msg := by
  intro hMode
  obtain ⟨k, hId, hLe, _⟩ := h hMode
  exact ⟨k, hId, hLe, fun hNever => by cases hNever⟩

/-- The call of a result is over. -/
theorem ParseCall.Current.past {c : ParseCall} {n : Nat} (h : c.Current n) :
    Stage.idle.Past n c.request :=
  fun _ => ⟨n, h.request, Nat.le_refl n, fun hNever => by cases hNever⟩

/-- A result joins the others. If it is ok its page comes from the request of its call,
which no earlier call had. -/
theorem Matched.append {ret : Return π} (h : Matched parser w)
    (hReturns : u.returns = w.returns ++ [ret])
    (hOwn : ret.result.ok = true → ret.source = some ret.call.request ∧
      ∃ parsed page, parsePage parser ret.call.request = .ok parsed ∧
        parser.modelValidateJson (parser.modelDumpJson parsed) = some page ∧
          ret.result.page = some page)
    (hNew : ret.result.ok = true → ∀ earlier ∈ w.returns, earlier.call.request ≠ ret.call.request) :
    Matched parser u where
  own other hOther hOk := by
    rw [hReturns, List.mem_append, List.mem_singleton] at hOther
    rcases hOther with hOld | rfl
    · exact h.own other hOld hOk
    · exact hOwn hOk
  later := by
    rw [hReturns, List.pairwise_append]
    refine ⟨h.later, List.pairwise_singleton _ _, ?_⟩
    intro earlier hEarlier other hOther hOk
    rw [List.mem_singleton.mp hOther] at hOk ⊢
    rw [(hOwn hOk).1]
    exact fun hEq => hNew hOk earlier hEarlier (Option.some.inj hEq).symm

/-- The request of the present call is none of those that were answered. -/
theorem Invariant.new_request (h : Invariant parser w) {c : ParseCall}
    (hCall : w.stage.call? = some c) : ∀ earlier ∈ w.returns, earlier.call.request ≠ c.request := by
  intro earlier hEarlier hEq
  have hCurrent := h.call c hCall
  obtain ⟨n, hId, _, hLt⟩ := h.past earlier hEarlier (hEq ▸ hCurrent.mode)
  rw [hEq, hCurrent.request] at hId
  have hOlder := hLt (by rw [hCall]; rfl)
  rw [← Option.some.inj hId] at hOlder
  exact absurd hOlder (Nat.lt_irrefl _)

/-- The call returns a result that is not ok, or the page of its own request. -/
theorem Invariant.return (h : Invariant parser w) {c : ParseCall} (hCall : w.stage.call? = some c)
    {result : BoundedParseResult π} {source : Option Request} {connection : Option (Connection β)}
    (hConnection : ∀ conn, connection = some conn →
      (∀ msg, (msg, true) ∈ conn.requests → w.stage.Sent w.nextRequestId msg) ∧
      ∀ r msg expected, .response r (some (msg, expected)) ∈ conn.outQueue →
        r = parseRequestMessage parser msg)
    (hOwn : result.ok = true → source = some c.request ∧
      ∃ parsed page, parsePage parser c.request = .ok parsed ∧
        parser.modelValidateJson (parser.modelDumpJson parsed) = some page ∧
          result.page = some page) :
    Invariant parser ({ w with connection }.return c result source) where
  call _ hNever := by cases hNever
  sent conn hConn msg hMsg := ((hConnection conn hConn).1 msg hMsg).idle
  answers conn hConn := (hConnection conn hConn).2
  unforged _ _ _ hNever := by cases hNever
  past ret hRet := by
    rw [World.return, List.mem_append, List.mem_singleton] at hRet
    rcases hRet with hOld | rfl
    · exact (h.past ret hOld).idle
    · exact (h.call c hCall).past
  matched := h.matched.append rfl hOwn fun _ => h.new_request hCall

theorem Invariant.start (h : Invariant parser w) (hIdle : w.stage = .idle)
    (text mode title : Str) (tabSize : Int) (daemon : Bool) :
    Invariant parser (w.start digest text mode title tabSize daemon) := by
  have hSent := h.sent
  have hPast := h.past
  rw [hIdle] at hSent hPast
  rw [World.start]
  by_cases hMode : mode ≠ "logos".toList ∧ mode ≠ "stack".toList
  · rw [if_pos hMode]
    have hInvalid : ¬ValidMode mode := fun hValid => hValid.elim hMode.1 hMode.2
    refine ⟨h.call, h.sent, h.answers, h.unforged, ?_, h.matched.append rfl nofun nofun⟩
    intro ret hRet
    rw [List.mem_append, List.mem_singleton] at hRet
    rcases hRet with hOld | rfl
    · exact h.past ret hOld
    · exact fun hValid => absurd hValid hInvalid
  · rw [if_neg hMode]
    have hValid : ValidMode mode := by
      rw [not_and_or, not_not, not_not] at hMode
      exact hMode
    have hCurrent : ParseCall.Current ⟨⟨"parse".toList, some (w.nextRequestId + 1), some (digest text),
        mode, text, title, tabSize⟩, w.nextRequestId + 1, digest text, mode⟩ (w.nextRequestId + 1) :=
      ⟨rfl, rfl, rfl, hValid⟩
    have hOlder {msg : Request} (hMsg : Stage.idle.Sent w.nextRequestId msg) :
        ∃ n, msg.requestId = some n ∧ n < w.nextRequestId + 1 := by
      obtain ⟨n, hId, hLe⟩ := hMsg
      exact ⟨n, hId, Nat.lt_succ_of_le hLe⟩
    have hBefore {ret : Return π} (hRet : ret ∈ w.returns) (hRetMode : ValidMode ret.call.request.mode) :
        ∃ n, ret.call.request.requestId = some n ∧ n ≤ w.nextRequestId + 1 ∧
          (true = true → n < w.nextRequestId + 1) := by
      obtain ⟨n, hId, hLe, _⟩ := hPast ret hRet hRetMode
      exact ⟨n, hId, hLe.trans (Nat.le_succ _), fun _ => Nat.lt_succ_of_le hLe⟩
    cases daemon with
    | true => exact ⟨fun _ hc => Option.some.inj hc ▸ hCurrent,
        fun conn hConn msg hMsg => hOlder (hSent conn hConn msg hMsg), h.answers, nofun,
        fun ret hRet hRetMode => hBefore hRet hRetMode, h.matched.own, h.matched.later⟩
    | false => exact ⟨fun _ hc => Option.some.inj hc ▸ hCurrent,
        fun conn hConn msg hMsg => hOlder (hSent conn hConn msg hMsg), h.answers, nofun,
        fun ret hRet hRetMode => hBefore hRet hRetMode, h.matched.own, h.matched.later⟩

/-- A fresh worker, or the one that was there. -/
theorem Invariant.connect (h : Invariant parser w) {connection : Option (Connection β)} {forked : Bool}
    (hNew : connection = w.connection ∨ connection = some {} ∨ connection = none)
    (hStage : ∀ c, w.stage ≠ .waiting c) : Invariant parser { w with connection, forked } := by
  have hFrom (conn : Connection β) (hConn : connection = some conn) :
      w.connection = some conn ∨ conn = {} := by
    rcases hNew with rfl | rfl | rfl
    · exact .inl hConn
    · exact .inr (Option.some.inj hConn).symm
    · cases hConn
  refine ⟨h.call, ?_, ?_, fun _ c _ hWaiting => absurd hWaiting (hStage c), h.past,
    h.matched.own, h.matched.later⟩
  · intro conn hConn msg hMsg
    rcases hFrom conn hConn with hOld | rfl
    · exact h.sent conn hOld msg hMsg
    · cases hMsg
  · intro conn hConn r msg expected hMem
    rcases hFrom conn hConn with hOld | rfl
    · exact h.answers conn hOld r msg expected hMem
    · cases hMem

/-- The call goes on without having sent its request, or ends with an exception. -/
theorem Invariant.goto (h : Invariant parser w) {stage : Stage}
    (hCall : ∀ c, stage.call? = some c → w.stage.call? = some c)
    (hSent : ∀ n msg, w.stage.Sent n msg → stage.Sent n msg) (hStage : ∀ c, stage ≠ .waiting c) :
    Invariant parser { w with stage } where
  call c hc := h.call c (hCall c hc)
  sent conn hConn msg hMsg := hSent _ _ (h.sent conn hConn msg hMsg)
  answers := h.answers
  unforged _ c _ hWaiting := absurd hWaiting (hStage c)
  past ret hRet hMode := by
    obtain ⟨n, hId, hLe, hLt⟩ := h.past ret hRet hMode
    refine ⟨n, hId, hLe, fun hSome => hLt ?_⟩
    obtain ⟨c, hc⟩ := Option.isSome_iff_exists.mp hSome
    rw [hCall c hc]
    rfl
  matched := ⟨h.matched.own, h.matched.later⟩

/-- The worker and its queues change, and nothing in them is new. -/
theorem Invariant.within (h : Invariant parser w) {conn after : Connection β}
    (hConn : w.connection = some conn)
    (hRequests : ∀ msg, (msg, true) ∈ after.requests → (msg, true) ∈ conn.requests)
    (hAnswers : ∀ r msg expected, .response r (some (msg, expected)) ∈ after.outQueue →
      .response r (some (msg, expected)) ∈ conn.outQueue ∨ r = parseRequestMessage parser msg)
    (hForges : ∀ c, w.stage = .waiting c → conn.forges c = false → after.forges c = false) :
    Invariant parser { w with connection := some after } := by
  refine ⟨h.call, ?_, ?_, ?_, h.past, h.matched.own, h.matched.later⟩
  · rintro _ ⟨⟩ msg hMsg
    exact h.sent conn hConn msg (hRequests msg hMsg)
  · rintro _ ⟨⟩ r msg expected hMem
    exact (hAnswers r msg expected hMem).elim (h.answers conn hConn r msg expected) id
  · rintro _ c ⟨⟩ hWaiting
    exact hForges c hWaiting (h.unforged conn c hConn hWaiting)

theorem Invariant.mismatch (h : Invariant parser w) {c : ParseCall} (hCall : w.stage.call? = some c) :
    Invariant parser (w.mismatch c) :=
  h.return hCall nofun nofun

theorem Invariant.ensure (h : Invariant parser w) {c : ParseCall} (hStage : w.stage = .entered c) :
    Invariant parser { w.ensureWorker with stage := .ensured c } := by
  have hNot (c' : ParseCall) : w.stage ≠ .waiting c' := by
    rw [hStage]
    nofun
  have hGoto {connection : Option (Connection β)} {forked : Bool}
      (hInv : Invariant parser { w with connection, forked }) :
      Invariant parser { w with connection, forked, stage := .ensured c } := by
    apply hInv.goto
    · rw [hStage]
      exact fun _ hc => hc
    · rw [hStage]
      exact fun _ _ hSent => hSent
    · nofun
  rw [World.ensureWorker]
  split_ifs
  · exact hGoto (h.connect (.inr (.inl rfl)) hNot)
  · cases hConn : w.connection with
    | none => exact hGoto (h.connect (.inr (.inl rfl)) hNot)
    | some conn =>
        dsimp only
        split_ifs
        · exact hGoto (h.connect (.inl rfl) hNot)
        · exact hGoto (h.connect (.inr (.inl rfl)) hNot)

/-- A message is taken out of the queue of responses. -/
theorem Invariant.pop (h : Invariant parser w) {conn : Connection β} {msg : OutMessage β}
    {rest : List (OutMessage β)} (hConn : w.connection = some conn)
    (hQueue : conn.outQueue = msg :: rest) :
    Invariant parser { w with connection := some { conn with outQueue := rest } } := by
  apply h.within hConn
  · intro sent hSent
    rw [Connection.requests, List.mem_append] at hSent ⊢
    rcases hSent with hIn | hOut
    · exact .inl hIn
    · rw [hQueue, ← List.singleton_append, List.filterMap_append]
      exact .inr (List.mem_append_right _ hOut)
  · intro r sent expected hMem
    rw [hQueue]
    exact .inl (List.mem_cons_of_mem _ hMem)
  · intro c _ hForges
    rw [Connection.forges, hQueue, List.any_cons] at hForges
    rw [Connection.forges]
    simp only [Bool.or_eq_false_iff] at hForges ⊢
    exact ⟨hForges.1, hForges.2.2⟩

theorem Invariant.check (h : Invariant parser w) {c : ParseCall} {conn : Connection β}
    (hStage : w.stage = .ensured c) (hConn : w.connection = some conn) {seen : Bool}
    (hStep : step parser digest w (.check seen) = some u) : Invariant parser u := by
  have hCall : w.stage.call? = some c := by rw [hStage]; rfl
  have hGoto {connection : Option (Connection β)} (hInv : Invariant parser { w with connection }) :
      Invariant parser { w with connection, stage := .checked c } := by
    apply hInv.goto
    · rw [hStage]
      exact fun _ hc => hc
    · rw [hStage]
      exact fun _ _ hSent => hSent
    · nofun
  rw [step, hStage, hConn] at hStep
  dsimp only at hStep
  split_ifs at hStep
  · split at hStep
    · cases hStep
    · cases hStep
      exact hGoto (h.pop hConn ‹_›)
    · cases hStep
      exact h.mismatch hCall
  · cases hStep
    have hSame : Invariant parser { w with connection := some conn } := by
      rw [← hConn]
      exact h
    exact hGoto hSame

/-- The request is sent, and no forged one is on its way. -/
theorem Invariant.put (h : Invariant parser w) {c : ParseCall} {conn : Connection β}
    (hStage : w.stage = .checked c) (hConn : w.connection = some conn)
    (hForges : conn.forges c = false) :
    Invariant parser { w with
      connection := some { conn with inQueue := [.request c.request true] }
      stage := .waiting c } := by
  have hCurrent := h.call c (by rw [hStage]; rfl)
  have hSent := h.sent conn hConn
  rw [hStage] at hSent
  refine ⟨fun c' hc => Option.some.inj hc ▸ hCurrent, ?_, ?_, ?_, ?_, h.matched.own, h.matched.later⟩
  · rintro _ ⟨⟩ msg hMsg
    rw [Connection.requests, List.mem_append, List.mem_append] at hMsg
    have hOld (hMem : (msg, true) ∈ conn.requests) :
        (Stage.waiting c).Sent w.nextRequestId msg := by
      obtain ⟨n, hId, hLt⟩ := hSent msg hMem
      exact ⟨n, hId, hLt.le, fun hEq => absurd hEq hLt.ne⟩
    rcases hMsg with (hIn | hNow) | hOut
    · obtain ⟨rfl, -⟩ := Prod.mk.inj (List.mem_singleton.mp hIn)
      exact ⟨_, hCurrent.request, Nat.le_refl _, fun _ => rfl⟩
    · exact hOld (List.mem_append_left _ (List.mem_append_right _ hNow))
    · exact hOld (List.mem_append_right _ hOut)
  · rintro _ ⟨⟩
    exact h.answers conn hConn
  · rintro _ c' ⟨⟩ ⟨⟩
    rw [Connection.forges] at hForges ⊢
    simp only [Bool.or_eq_false_iff] at hForges ⊢
    exact ⟨⟨rfl, hForges.1.2⟩, hForges.2⟩
  · intro ret hRet hMode
    obtain ⟨n, hId, hLe, hLt⟩ := h.past ret hRet hMode
    rw [hStage] at hLt
    exact ⟨n, hId, hLe, fun _ => hLt rfl⟩

/-- Whatever the call receives: an answer with its identifier and its hash is the one to
its own request. -/
theorem Invariant.receive (h : Invariant parser w) {c : ParseCall} {conn : Connection β}
    {msg : OutMessage β} {rest : List (OutMessage β)} (hStage : w.stage = .waiting c)
    (hConn : w.connection = some conn) (hQueue : conn.outQueue = msg :: rest) :
    Invariant parser
      ({ w with connection := some { conn with outQueue := rest } }.handle parser c msg) := by
  have hCall : w.stage.call? = some c := by rw [hStage]; rfl
  have hPop := h.pop hConn hQueue
  have hRaise : Invariant parser
      { w with connection := some { conn with outQueue := rest }, stage := .idle } :=
    hPop.goto nofun (fun _ _ hSent => hSent.idle) nofun
  cases msg with
  | null => exact hRaise
  | noDict => exact hRaise
  | response r source =>
      rw [World.handle]
      split_ifs with hMatches
      · apply hPop.return hCall
        · rintro _ ⟨⟩
          exact ⟨hPop.sent _ rfl, hPop.answers _ rfl⟩
        · intro hOk
          have hForges := h.unforged conn c hConn hStage
          rw [Connection.forges, hQueue, List.any_cons] at hForges
          simp only [OutMessage.forges, hMatches, Bool.and_true, Bool.or_eq_false_iff,
            Bool.not_eq_false'] at hForges
          obtain ⟨⟨request, expected⟩, hSource, hExpected⟩ := (Option.any_eq_true _ _).mp hForges.2.1
          dsimp only at hExpected
          subst hSource hExpected
          have hAnswer := h.answers conn hConn r request true (hQueue ▸ List.mem_cons_self)
          have hMem : (request, true) ∈ conn.requests := by
            rw [Connection.requests, hQueue]
            exact List.mem_append_right _ List.mem_cons_self
          have hSent := h.sent conn hConn request hMem
          rw [hStage] at hSent
          obtain ⟨n, hId, _, hSame⟩ := hSent
          have hRequest : request = c.request := by
            apply hSame
            rw [hAnswer, matches_parseRequestMessage, Request.echoes, hId, decide_eq_true_eq] at hMatches
            rw [← (h.call c hCall).requestId]
            exact Option.some.inj hMatches.1
          subst hAnswer
          rw [← hRequest]
          exact ⟨rfl, accept_ok hOk⟩
      · exact hPop.mismatch hCall

theorem Invariant.take (h : Invariant parser w) {conn after : Connection β}
    (hConn : w.connection = some conn) (hTake : conn.take = some after) :
    Invariant parser { w with connection := some after } := by
  obtain ⟨alive, inQueue, outQueue, current⟩ := conn
  unfold Connection.take at hTake
  dsimp only at hTake
  split at hTake <;> cases hTake
  · exact h.within hConn (fun _ hSent => hSent) (fun _ _ _ hMem => .inl hMem) fun _ _ hForges => hForges
  · apply h.within hConn
    · intro sent hSent
      simp only [Connection.requests, List.filterMap_cons, Option.toList_some, Option.toList_none,
        List.append_nil, List.mem_append, List.mem_cons, List.not_mem_nil, or_false] at hSent ⊢
      rcases hSent with (hIn | hNow) | hOut
      · exact .inl (.inr hIn)
      · exact .inl (.inl hNow)
      · exact .inr hOut
    · exact fun _ _ _ hMem => .inl hMem
    · intro c _ hForges
      simp only [Connection.forges, List.any_cons, InMessage.forges, Option.any_none, Option.any_some,
        Bool.or_false, Bool.or_eq_false_iff] at hForges ⊢
      exact ⟨⟨hForges.1.2, hForges.1.1⟩, hForges.2⟩

theorem Invariant.answer (h : Invariant parser w) {conn after : Connection β}
    (hConn : w.connection = some conn) (hAnswer : conn.answer parser = some after) :
    Invariant parser { w with connection := some after } := by
  obtain ⟨alive, inQueue, outQueue, current⟩ := conn
  unfold Connection.answer at hAnswer
  dsimp only at hAnswer
  split at hAnswer <;> cases hAnswer
  apply h.within hConn
  · intro sent hSent
    simp only [Connection.requests, List.filterMap_cons, List.filterMap_nil, Option.toList_some,
      Option.toList_none, List.append_nil, List.mem_append, List.mem_singleton] at hSent ⊢
    exact hSent
  · intro r sent expected hMem
    cases List.mem_singleton.mp hMem
    exact .inr rfl
  · intro c _ hForges
    simp only [Connection.forges, List.any_cons, List.any_nil, OutMessage.forges, Option.any_none,
      Option.any_some, matches_parseRequestMessage, Bool.or_false, Bool.or_eq_false_iff] at hForges ⊢
    exact hForges

/-- A message that nobody expects does not echo the call that waits. -/
theorem Invariant.injectIn (h : Invariant parser w) {conn : Connection β} {msg : Option Request}
    (hConn : w.connection = some conn) (hUnforged : Unforged w (.injectIn msg)) :
    Invariant parser { w with connection := some { conn with
      inQueue := [msg.elim .shutdown fun msg => .request msg false] } } := by
  apply h.within hConn
  · intro sent hSent
    rw [Connection.requests, List.append_assoc, List.mem_append] at hSent ⊢
    right
    cases msg <;> simpa using hSent
  · exact fun _ _ _ hMem => .inl hMem
  · intro c hWaiting hForges
    simp only [Connection.forges, Bool.or_eq_false_iff] at hForges ⊢
    refine ⟨⟨?_, hForges.1.2⟩, hForges.2⟩
    cases msg with
    | none => rfl
    | some msg =>
        rw [Unforged, hWaiting] at hUnforged
        simp [InMessage.forges, hUnforged]

theorem Invariant.injectOut (h : Invariant parser w) {conn : Connection β} {msg : OutMessage β}
    (hConn : w.connection = some conn) (hUnforged : Unforged w (.injectOut msg)) :
    Invariant parser { w with connection := some { conn with outQueue := [msg.unexpected] } } := by
  apply h.within hConn
  · intro sent hSent
    rw [Connection.requests, List.mem_append] at hSent ⊢
    apply hSent.imp_right
    cases msg <;> simp [OutMessage.unexpected]
  · intro r sent expected hMem
    cases msg <;> simp [OutMessage.unexpected] at hMem
  · intro c hWaiting hForges
    simp only [Connection.forges, Bool.or_eq_false_iff] at hForges ⊢
    refine ⟨hForges.1, ?_⟩
    cases msg with
    | null => rfl
    | noDict => rfl
    | response r source =>
        rw [Unforged, hWaiting] at hUnforged
        simp [OutMessage.unexpected, OutMessage.forges, hUnforged]

theorem Invariant.step {a : Action β} (h : Invariant parser w) (hUnforged : Unforged w a)
    (hStep : BoundedPageParse.step parser digest w a = some u) : Invariant parser u := by
  cases a with
  | start text mode title tabSize daemon =>
      rw [BoundedPageParse.step] at hStep
      split at hStep <;> cases hStep
      exact h.start ‹_› text mode title tabSize daemon
  | ensure =>
      rw [BoundedPageParse.step] at hStep
      split at hStep <;> cases hStep
      exact h.ensure ‹_›
  | check seen =>
      have hChecked := hStep
      rw [BoundedPageParse.step] at hStep
      split at hStep
      · exact h.check ‹_› ‹_› hChecked
      · cases hStep
  | put =>
      rw [BoundedPageParse.step] at hStep
      split at hStep
      · next c conn hStage hConn =>
          split_ifs at hStep
          cases hStep
          rw [Unforged, hStage, hConn] at hUnforged
          exact h.put hStage hConn hUnforged
      · cases hStep
  | receive =>
      rw [BoundedPageParse.step] at hStep
      split at hStep
      · next c conn hStage hConn =>
          split at hStep <;> cases hStep
          exact h.receive hStage hConn ‹_›
      · cases hStep
  | receiveFails =>
      rw [BoundedPageParse.step] at hStep
      split at hStep <;> cases hStep
      next c hStage => exact h.mismatch (by rw [hStage]; rfl)
  | timeout =>
      rw [BoundedPageParse.step] at hStep
      split at hStep <;> cases hStep
      next c hStage => exact h.return (by rw [hStage]; rfl) nofun nofun
  | child outcome =>
      have hKept (conn : Connection β) (hConn : w.connection = some conn) :=
        And.intro (h.sent conn hConn) (h.answers conn hConn)
      unfold BoundedPageParse.step at hStep
      dsimp only at hStep
      split at hStep <;> cases hStep
      · next c hStage => exact h.return (by rw [hStage]; rfl) hKept nofun
      · next c hStage => exact h.return (by rw [hStage]; rfl) hKept nofun
      · next c hStage => exact h.mismatch (by rw [hStage]; rfl)
      · next c hStage =>
          exact h.return (by rw [hStage]; rfl) hKept fun hOk => ⟨rfl, daemonResult_ok hOk⟩
  | workerTakes =>
      obtain ⟨after, hAfter, rfl⟩ := Option.map_eq_some_iff.mp hStep
      obtain ⟨conn, hConn, hTake⟩ := Option.bind_eq_some_iff.mp hAfter
      exact h.take hConn hTake
  | workerAnswers =>
      obtain ⟨after, hAfter, rfl⟩ := Option.map_eq_some_iff.mp hStep
      obtain ⟨conn, hConn, hAnswer⟩ := Option.bind_eq_some_iff.mp hAfter
      exact h.answer hConn hAnswer
  | workerDies =>
      obtain ⟨after, hAfter, rfl⟩ := Option.map_eq_some_iff.mp hStep
      obtain ⟨conn, hConn, hDies⟩ := Option.bind_eq_some_iff.mp hAfter
      cases hDies
      apply h.within hConn
      · intro sent hSent
        simp only [Connection.requests, Option.toList_none, List.append_nil, List.mem_append] at hSent ⊢
        exact hSent.imp_left Or.inl
      · exact fun _ _ _ hMem => .inl hMem
      · intro c _ hForges
        simp only [Connection.forges, Option.any_none, Bool.or_false, Bool.or_eq_false_iff] at hForges ⊢
        exact ⟨hForges.1.1, hForges.2⟩
  | injectIn msg =>
      obtain ⟨after, hAfter, rfl⟩ := Option.map_eq_some_iff.mp hStep
      obtain ⟨conn, hConn, hInject⟩ := Option.bind_eq_some_iff.mp hAfter
      split_ifs at hInject with hEmpty
      cases hInject
      exact h.injectIn hConn hUnforged
  | injectOut msg =>
      obtain ⟨after, hAfter, rfl⟩ := Option.map_eq_some_iff.mp hStep
      obtain ⟨conn, hConn, hInject⟩ := Option.bind_eq_some_iff.mp hAfter
      split at hInject <;> cases hInject
      exact h.injectOut hConn hUnforged
  | shutdown =>
      rw [BoundedPageParse.step] at hStep
      split at hStep <;> cases hStep
      next hStage => exact h.connect (.inr (.inr rfl)) (by rw [hStage]; nofun)
  | fork =>
      rw [BoundedPageParse.step] at hStep
      split at hStep <;> cases hStep
      next hStage => exact h.connect (.inl rfl) (by rw [hStage]; nofun)

/-- However slow the worker is, whether it dies and whatever its queues hold, a result that
is ok has the page of its own call, as long as no message is forged. -/
theorem responses_matched (run : Run (step parser digest) Unforged {} w) : Matched parser w := by
  have hAll : Invariant parser w := by
    apply run.invariant
    · exact ⟨nofun, nofun, nofun, nofun, nofun, nofun, .nil⟩
    · exact fun _ _ _ hInv hUnforged hStep => Invariant.step hInv hUnforged hStep
  exact hAll.matched

end Steps

section Runs

/-- A parser whose pages are the texts, and a hash that is the text. -/
def textParser : ParserPackage Str Str where
  stackMachineParser _ text _ := .ok text
  logosParser := .ok
  modelDumpJson := id
  modelValidateJson := some
  emptyBytes := []

abbrev textStep : World Str Str → Action Str → Option (World Str Str) := step textParser id

def sendPage : List (Action Str) :=
  [.start "- a".toList "logos".toList "Page".toList 2 false, .ensure, .check false, .put]

/-- A call that the worker answers returns the page. -/
theorem responses_matched_page : ∃ w, exec textStep (fun _ _ => True) {}
    (sendPage ++ [.workerTakes, .workerAnswers, .receive]) = some w ∧
      w.returns.map (fun ret => (ret.result.ok, ret.result.page)) = [(true, some "- a".toList)] ∧
        Matched textParser w := by
  have sent : Run textStep Unforged {} _ := .tail (a := .put) (.tail (a := .check false)
    (.tail (a := .ensure) (.tail (a := .start "- a".toList "logos".toList "Page".toList 2 false)
      (.refl _) trivial rfl) trivial rfl) trivial rfl) rfl rfl
  have received : Run textStep Unforged {} _ := .tail (a := .receive) (.tail (a := .workerAnswers)
    (.tail (a := .workerTakes) sent trivial rfl) trivial rfl) trivial rfl
  exact ⟨_, rfl, rfl, responses_matched received⟩

/-- An unexpected message with the identifier and the hash of the call that waits is
accepted: without bytes the result is ok and has no page, and with bytes it has the page of
another text. -/
theorem forged_accepted :
    (¬∀ w : World Str Str, Run textStep (fun _ _ => True) {} w → Matched textParser w) ∧
    ∃ w, exec textStep (fun _ _ => True) {} (sendPage ++
      [.injectOut (.response ⟨some 1, some "- a".toList, true, none, some "- b".toList⟩ none),
        .receive]) = some w ∧
      w.returns.map (fun ret => (ret.result.ok, ret.result.page)) = [(true, some "- b".toList)] := by
  refine ⟨fun h => ?_, _, rfl, rfl⟩
  have hExec : exec textStep (fun _ _ => True) {} (sendPage ++
    [.injectOut (.response ⟨some 1, some "- a".toList, true, none, none⟩ none), .receive]) =
      some _ := rfl
  obtain ⟨_, _, _, _, _, hPage⟩ := (h _ (Run.of_exec hExec)).own _ List.mem_cons_self rfl
  cases hPage

end Runs

end Plumber.BoundedPageParse
