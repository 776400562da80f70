import MatrycaPlumber.Shadow.PageCounts

/-! The state of the shadow database as the API reports it, beside the health that gates reads. -/
namespace Plumber.Shadow

open PyText

/-- An error of SQLite. It is operational when a table is not there, for one. -/
structure SqliteError where
  operational : Bool
  message : Str

/-- What the queries of an open database return. -/
structure Connection where
  shadowMeta : Except SqliteError (Str → Option Str)
  pageCount : Except SqliteError ℕ
  quarantinedPageCount : Except SqliteError ℕ

inductive Opened where
  | connection (conn : Connection)
  | sqliteError (error : SqliteError)
  /-- An `OSError`, a `RuntimeError` or a path that is not allowed. -/
  | otherError

/-- Where the database of a graph is. -/
inductive DbPath where
  | unavailable
  | missing
  | file (opened : Opened)

/-- What the two resolvers find, in the order in which they ask for it. -/
structure Process where
  enabled : Bool
  bootstrapping : Bool
  syncFailed : Bool
  dbPath : DbPath

inductive NotReadyReason where
  | notBootstrapped
  | bootstrapInProgress
  | databaseUnreadable
  | schemaVersionMismatch
  | syncError
  | fullSyncIncomplete
  | pageCountMismatch
  | cacheUnavailable
  deriving DecidableEq

structure ReadProfile where
  generation : Option ℕ
  state : ShadowHealthState
  ready : Bool
  schemaCompatible : Option Bool

/-- The state of the response has the values of the health. -/
structure StateResponse where
  enabled : Bool := false
  state : ShadowHealthState := .disabled
  lastFullSyncAt : Option Str := none
  sourcePageCount : Option ℕ := none
  indexedPageCount : Option ℕ := none
  lagPages : Option ℕ := none
  lastSyncError : Option Str := none
  notReadyReason : Option NotReadyReason := none
  quarantinedPageCount : ℕ := 0
  readProfile : Option ReadProfile := none

def metaSchemaVersion : Str := "schema_version".toList

def metaGeneration : Str := "generation".toList

def metaLastFullSyncAt : Str := "last_full_sync_at".toList

def metaLastFullSyncCompleted : Str := "last_full_sync_completed".toList

def metaSourcePageCount : Str := "source_page_count".toList

def metaIndexedPageCount : Str := "indexed_page_count".toList

def metaLastSyncError : Str := "last_sync_error".toList

/-- `str(SHADOW_SCHEMA_VERSION)`. -/
def shadowSchemaVersion : Str := "1".toList

/-- `(value or "").strip()`. -/
def stripped (value : Option Str) : Str := strip (value.getD [])

/-- `pyInt` is `int(text)` of a text that is not blank, `lower` is `str.lower`, and
`boundedErrorMessage` makes an error fit for the API. -/
structure Texts where
  pyInt : Str → Option ℤ
  lower : Str → Str
  boundedErrorMessage : Str → Option Str

section Model

variable (T : Texts)

/-- `_parse_non_negative_int`, and `_parse_meta_page_count` alike. -/
def parseNonNegativeInt (raw : Option Str) : Option ℕ :=
  match raw with
  | none => none
  | some raw => if strip raw = [] then none else (T.pyInt (strip raw)).map Int.toNat

def metaMatchesPageRows (values : Str → Option Str) (actual quarantined : ℕ) : Bool :=
  shadowMetaMatchesPageRows (parseNonNegativeInt T (values metaIndexedPageCount))
    (parseNonNegativeInt T (values metaSourcePageCount)) actual quarantined

def fullSyncCompleted (values : Str → Option Str) : Bool :=
  T.lower (stripped (values metaLastFullSyncCompleted)) = "true".toList

/-- The body of `resolve_shadow_health` for an open connection; no result when it raises. -/
def healthOfConnection (conn : Connection) : Option ShadowHealthState :=
  match conn.shadowMeta with
  | .error _ => none
  | .ok values =>
      if values metaSchemaVersion ≠ some shadowSchemaVersion then some .error
      else if stripped (values metaLastSyncError) ≠ [] then some .error
      else if fullSyncCompleted T values then
        match conn.pageCount, conn.quarantinedPageCount with
        | .ok actual, .ok quarantined =>
            if metaMatchesPageRows T values actual quarantined then some .ready else some .stale
        | _, _ => none
      else some .stale

/-- `resolve_shadow_health`. -/
def resolveHealth (p : Process) : Option ShadowHealthState :=
  if !p.enabled then some .disabled
  else if p.bootstrapping then some .bootstrapping
  else if p.syncFailed then some .error
  else
    match p.dbPath with
    | .unavailable => some .error
    | .missing => some .stale
    | .file (.sqliteError _) => some .error
    | .file .otherError => some .error
    | .file (.connection conn) => healthOfConnection T conn

/-- `_read_quarantined_count`. -/
def readQuarantinedCount (conn : Connection) : Except SqliteError ℕ :=
  match conn.quarantinedPageCount with
  | .ok count => .ok count
  | .error error => if error.operational then .ok 0 else .error error

/-- `_read_meta_readonly`. -/
def readMetaReadonly (conn : Connection) : Except SqliteError ((Str → Option Str) × ℕ × ℕ) := do
  let values ← conn.shadowMeta
  let pageCount ← conn.pageCount
  let quarantined ← readQuarantinedCount conn
  return (values, pageCount, quarantined)

def stateFromMeta (values : Str → Option Str) (actual quarantined : ℕ) : ShadowHealthState :=
  if stripped (values metaLastSyncError) ≠ [] then .error
  else if fullSyncCompleted T values then
    if metaMatchesPageRows T values actual quarantined then .ready else .stale
  else .stale

def notReadyReasonFromMeta (values : Str → Option Str) (actual quarantined : ℕ) :
    Option NotReadyReason :=
  if stripped (values metaLastSyncError) ≠ [] then some .syncError
  else if !fullSyncCompleted T values then some .fullSyncIncomplete
  else if !metaMatchesPageRows T values actual quarantined then some .pageCountMismatch
  else none

def resolveLagPages (source indexed : Option ℕ) (quarantined : ℕ) : Option ℕ :=
  match source, indexed with
  | some source, some indexed => some (source - indexed - quarantined)
  | _, _ => none

def snapshotFromMeta (values : Str → Option Str) (state : ShadowHealthState)
    (lastSyncError : Option Str) (notReadyReason : Option NotReadyReason) (quarantined : ℕ) :
    StateResponse :=
  let source := parseNonNegativeInt T (values metaSourcePageCount)
  let indexed := parseNonNegativeInt T (values metaIndexedPageCount)
  { enabled := true
    state := state
    lastFullSyncAt :=
      if stripped (values metaLastFullSyncAt) = [] then none
      else some (stripped (values metaLastFullSyncAt))
    sourcePageCount := source
    indexedPageCount := indexed
    lagPages := resolveLagPages source indexed quarantined
    lastSyncError := lastSyncError
    notReadyReason := notReadyReason
    quarantinedPageCount := quarantined }

/-- `_with_read_profile`, without the producer and the graph. -/
def withReadProfile (snapshot : StateResponse) (values : Str → Option Str) : StateResponse :=
  { snapshot with
    readProfile := some
      { generation := parseNonNegativeInt T (values metaGeneration)
        state := snapshot.state
        ready := snapshot.state = .ready
        schemaCompatible :=
          (values metaSchemaVersion).map fun raw => strip raw = shadowSchemaVersion } }

def databaseUnreadable (error : SqliteError) : StateResponse :=
  withReadProfile T
    { enabled := true
      state := .error
      lastSyncError := T.boundedErrorMessage error.message
      notReadyReason := some .databaseUnreadable }
    fun _ => none

def apiOfConnection (conn : Connection) : StateResponse :=
  match readMetaReadonly conn with
  | .error error => databaseUnreadable T error
  | .ok (values, pageCount, quarantined) =>
      if stripped (values metaSchemaVersion) ≠ shadowSchemaVersion then
        withReadProfile T (snapshotFromMeta T values .error
          (some "Shadow schema version mismatch".toList) (some .schemaVersionMismatch) quarantined)
          values
      else
        let state := stateFromMeta T values pageCount quarantined
        withReadProfile T (snapshotFromMeta T values state
          (if state = .error then T.boundedErrorMessage (stripped (values metaLastSyncError)) else none)
          (notReadyReasonFromMeta T values pageCount quarantined) quarantined) values

/-- `resolve_shadow_db_state_for_api`; no result when it raises. -/
def resolveStateForApi (p : Process) : Option StateResponse :=
  if !p.enabled then some (withReadProfile T {} fun _ => none)
  else if p.bootstrapping then
    some (withReadProfile T
      { enabled := true, state := .bootstrapping, notReadyReason := some .bootstrapInProgress }
      fun _ => none)
  else if p.syncFailed then
    some (withReadProfile T
      { enabled := true
        state := .error
        lastSyncError := some "incremental_sync_failed".toList
        notReadyReason := some .syncError }
      fun _ => none)
  else
    match p.dbPath with
    | .unavailable =>
        some (withReadProfile T
          { enabled := true
            state := .error
            lastSyncError := some "External Shadow cache unavailable".toList
            notReadyReason := some .cacheUnavailable }
          fun _ => none)
    | .missing =>
        some (withReadProfile T
          { enabled := true, state := .stale, notReadyReason := some .notBootstrapped }
          fun _ => none)
    | .file .otherError => none
    | .file (.sqliteError error) => some (databaseUnreadable T error)
    | .file (.connection conn) => some (apiOfConnection T conn)

end Model

/-- The health returns when the API does, both say ready at once, and only a database that is
ready or disabled has no reason not to be. -/
def Agree (T : Texts) (p : Process) : Prop :=
  ∀ response, resolveStateForApi T p = some response →
    (∃ health, resolveHealth T p = some health ∧ (response.state = .ready ↔ health = .ready)) ∧
      (response.notReadyReason = none ↔ response.state = .ready ∨ response.state = .disabled)

/-- No sync error is recorded, and a full sync has been completed. -/
def Settled (T : Texts) (values : Str → Option Str) : Prop :=
  stripped (values metaLastSyncError) = [] ∧ fullSyncCompleted T values = true

/-- The metadata can be read. What has been settled under the exact schema version can be counted,
and what has been settled under the version with outer whitespace does not match its counts. -/
def Consistent (T : Texts) (conn : Connection) : Prop :=
  ∃ values, conn.shadowMeta = .ok values ∧ (Settled T values →
    (values metaSchemaVersion = some shadowSchemaVersion →
      (∃ actual, conn.pageCount = .ok actual) ∧
        ∃ quarantined, conn.quarantinedPageCount = .ok quarantined) ∧
    (values metaSchemaVersion ≠ some shadowSchemaVersion →
      stripped (values metaSchemaVersion) = shadowSchemaVersion →
      ∀ actual quarantined, conn.pageCount = .ok actual → readQuarantinedCount conn = .ok quarantined →
        metaMatchesPageRows T values actual quarantined = false))

/-- A database that is asked at all. -/
def Reached (p : Process) (conn : Connection) : Prop :=
  p.enabled = true ∧ p.bootstrapping = false ∧ p.syncFailed = false ∧
    p.dbPath = .file (.connection conn)

section Ladders

variable {T : Texts} {values : Str → Option Str} {actual quarantined : ℕ} {conn : Connection}

theorem stateFromMeta_eq_ready : stateFromMeta T values actual quarantined = .ready ↔
    Settled T values ∧ metaMatchesPageRows T values actual quarantined = true := by
  rw [stateFromMeta, Settled]
  split_ifs with hError hDone hMatch
  · exact iff_of_false nofun fun h => hError h.1.1
  · exact iff_of_true rfl ⟨⟨not_not.mp hError, hDone⟩, hMatch⟩
  · exact iff_of_false nofun fun h => hMatch h.2
  · exact iff_of_false nofun fun h => hDone h.1.2

theorem stateFromMeta_ne_disabled : stateFromMeta T values actual quarantined ≠ .disabled := by
  rw [stateFromMeta]
  split_ifs <;> exact nofun

/-- The two ladders over the metadata go the same way. -/
theorem notReadyReasonFromMeta_eq_none : notReadyReasonFromMeta T values actual quarantined = none ↔
    stateFromMeta T values actual quarantined = .ready := by
  rw [stateFromMeta_eq_ready, notReadyReasonFromMeta, Settled]
  split_ifs with hError hDone hMatch
  · exact iff_of_false nofun fun h => hError h.1.1
  · exact iff_of_false nofun fun h => absurd h.1.2 (by simpa using hDone)
  · exact iff_of_false nofun fun h => absurd h.2 (by simpa using hMatch)
  · exact iff_of_true rfl ⟨⟨not_not.mp hError, by simpa using hDone⟩, by simpa using hMatch⟩

theorem readMetaReadonly_eq_ok : readMetaReadonly conn = .ok (values, actual, quarantined) ↔
    conn.shadowMeta = .ok values ∧ conn.pageCount = .ok actual ∧
      readQuarantinedCount conn = .ok quarantined := by
  rw [readMetaReadonly]
  cases conn.shadowMeta with
  | error error => exact iff_of_false nofun nofun
  | ok values' =>
      cases conn.pageCount with
      | error error => exact iff_of_false nofun nofun
      | ok actual' =>
          cases readQuarantinedCount conn with
          | error error => exact iff_of_false nofun nofun
          | ok quarantined' =>
              show Except.ok (values', actual', quarantined') = _ ↔ _
              simp only [Except.ok.injEq, Prod.mk.injEq]

/-- The reason is that of the state, whatever the database holds. -/
theorem apiOfConnection_reason (T : Texts) (conn : Connection) :
    (apiOfConnection T conn).notReadyReason = none ↔
      (apiOfConnection T conn).state = .ready ∨ (apiOfConnection T conn).state = .disabled := by
  rw [apiOfConnection]
  cases readMetaReadonly conn with
  | error error => exact iff_of_false nofun nofun
  | ok read =>
      obtain ⟨values, actual, quarantined⟩ := read
      dsimp only
      by_cases hSchema : stripped (values metaSchemaVersion) ≠ shadowSchemaVersion
      · rw [if_pos hSchema]
        exact iff_of_false nofun nofun
      · rw [if_neg hSchema]
        exact notReadyReasonFromMeta_eq_none.trans
          (or_iff_left stateFromMeta_ne_disabled).symm

theorem apiOfConnection_ready (hMeta : conn.shadowMeta = .ok values) :
    (apiOfConnection T conn).state = .ready ↔
      stripped (values metaSchemaVersion) = shadowSchemaVersion ∧ Settled T values ∧
        ∃ actual quarantined, conn.pageCount = .ok actual ∧
          readQuarantinedCount conn = .ok quarantined ∧
          metaMatchesPageRows T values actual quarantined = true := by
  rw [apiOfConnection]
  cases hRead : readMetaReadonly conn with
  | error error =>
      refine iff_of_false nofun ?_
      rintro ⟨-, -, actual, quarantined, hPages, hQuarantined, -⟩
      rw [readMetaReadonly_eq_ok.mpr ⟨hMeta, hPages, hQuarantined⟩] at hRead
      cases hRead
  | ok read =>
      obtain ⟨values', actual, quarantined⟩ := read
      obtain ⟨hValues, hPages, hQuarantined⟩ := readMetaReadonly_eq_ok.mp hRead
      rw [hMeta] at hValues
      cases hValues
      dsimp only
      rw [hPages, hQuarantined]
      by_cases hSchema : stripped (values metaSchemaVersion) ≠ shadowSchemaVersion
      · rw [if_pos hSchema]
        exact iff_of_false nofun fun h => hSchema h.1
      · rw [if_neg hSchema]
        refine stateFromMeta_eq_ready.trans ⟨fun h => ?_, ?_⟩
        · exact ⟨not_not.mp hSchema, h.1, actual, quarantined, rfl, rfl, h.2⟩
        · rintro ⟨-, hSettled, _, _, hActual, hParked, h⟩
          cases hActual
          cases hParked
          exact ⟨hSettled, h⟩

/-- The gate over settled metadata under the exact schema version. -/
theorem healthOfConnection_of_settled (hMeta : conn.shadowMeta = .ok values)
    (hExact : values metaSchemaVersion = some shadowSchemaVersion) (hSettled : Settled T values) :
    healthOfConnection T conn =
      match conn.pageCount, conn.quarantinedPageCount with
      | .ok actual, .ok quarantined =>
          if metaMatchesPageRows T values actual quarantined then some .ready else some .stale
      | _, _ => none := by
  rw [healthOfConnection, hMeta]
  dsimp only
  rw [if_neg (not_not.mpr hExact), if_neg (not_not.mpr hSettled.1), if_pos hSettled.2]

theorem healthOfConnection_of_not_settled (hMeta : conn.shadowMeta = .ok values)
    (h : ¬(values metaSchemaVersion = some shadowSchemaVersion ∧ Settled T values)) :
    ∃ health, healthOfConnection T conn = some health ∧ health ≠ .ready := by
  rw [healthOfConnection, hMeta]
  dsimp only
  split_ifs with hExact hError hDone
  · exact ⟨_, rfl, nofun⟩
  · exact ⟨_, rfl, nofun⟩
  · exact absurd ⟨not_not.mp hExact, not_not.mp hError, hDone⟩ h
  · exact ⟨_, rfl, nofun⟩

/-- The health of a connection returns, and is ready when the API is. -/
def ConnectionAgrees (T : Texts) (conn : Connection) : Prop :=
  ∃ health, healthOfConnection T conn = some health ∧
    ((apiOfConnection T conn).state = .ready ↔ health = .ready)

theorem agrees_iff_of_settled (hMeta : conn.shadowMeta = .ok values)
    (hExact : values metaSchemaVersion = some shadowSchemaVersion) (hSettled : Settled T values) :
    ConnectionAgrees T conn ↔ (∃ actual, conn.pageCount = .ok actual) ∧
      ∃ quarantined, conn.quarantinedPageCount = .ok quarantined := by
  have hSame : stripped (values metaSchemaVersion) = shadowSchemaVersion := by
    rw [hExact]
    decide
  rw [ConnectionAgrees, healthOfConnection_of_settled hMeta hExact hSettled,
    apiOfConnection_ready hMeta]
  cases hPages : conn.pageCount with
  | error error => exact iff_of_false nofun nofun
  | ok actual =>
      cases hQuarantined : conn.quarantinedPageCount with
      | error error => exact iff_of_false nofun nofun
      | ok quarantined =>
          have hRead : readQuarantinedCount conn = .ok quarantined := by
            rw [readQuarantinedCount, hQuarantined]
          refine iff_of_true ?_ ⟨⟨actual, rfl⟩, quarantined, rfl⟩
          rw [hRead]
          dsimp only
          split_ifs with hMatch
          · exact ⟨_, rfl, iff_of_true ⟨hSame, hSettled, actual, quarantined, rfl, rfl, hMatch⟩ rfl⟩
          · refine ⟨_, rfl, iff_of_false ?_ nofun⟩
            rintro ⟨-, -, _, _, hActual, hParked, hOther⟩
            cases hActual
            cases hParked
            exact hMatch hOther

/-- Where the gate is not ready, the API must not be. -/
theorem agrees_iff_of_not (hMeta : conn.shadowMeta = .ok values)
    (h : ¬(values metaSchemaVersion = some shadowSchemaVersion ∧ Settled T values)) :
    ConnectionAgrees T conn ↔ ¬(apiOfConnection T conn).state = .ready := by
  obtain ⟨health, hHealth, hNotReady⟩ := healthOfConnection_of_not_settled hMeta h
  constructor
  · rintro ⟨other, hOther, hAgree⟩ hReady
    rw [hHealth] at hOther
    cases hOther
    exact hNotReady (hAgree.mp hReady)
  · intro hApi
    exact ⟨health, hHealth, iff_of_false hApi hNotReady⟩

theorem connection_agrees_iff (T : Texts) (conn : Connection) :
    ConnectionAgrees T conn ↔ Consistent T conn := by
  cases hMeta : conn.shadowMeta with
  | error error =>
      refine iff_of_false ?_ ?_
      · rintro ⟨health, hHealth, -⟩
        rw [healthOfConnection, hMeta] at hHealth
        cases hHealth
      · rintro ⟨values, hValues, -⟩
        rw [hMeta] at hValues
        cases hValues
  | ok values =>
      by_cases hReady : values metaSchemaVersion = some shadowSchemaVersion ∧ Settled T values
      · rw [agrees_iff_of_settled hMeta hReady.1 hReady.2]
        constructor
        · intro hCounts
          exact ⟨values, hMeta, fun _ => ⟨fun _ => hCounts, fun hOther => absurd hReady.1 hOther⟩⟩
        · rintro ⟨other, hOther, h⟩
          rw [hMeta] at hOther
          cases hOther
          exact (h hReady.2).1 hReady.1
      · rw [agrees_iff_of_not hMeta hReady, apiOfConnection_ready hMeta]
        constructor
        · intro hApi
          refine ⟨values, hMeta, fun hSettled => ⟨fun hExact => absurd ⟨hExact, hSettled⟩ hReady, ?_⟩⟩
          intro _ hSame actual quarantined hPages hQuarantined
          rw [← Bool.not_eq_true]
          exact fun hMatch => hApi ⟨hSame, hSettled, actual, quarantined, hPages, hQuarantined, hMatch⟩
        · rintro ⟨other, hOther, h⟩ ⟨hSame, hSettled, actual, quarantined, hPages, hQuarantined, hMatch⟩
          rw [hMeta] at hOther
          cases hOther
          have hExact := fun hExact => hReady ⟨hExact, hSettled⟩
          rw [(h hSettled).2 hExact hSame actual quarantined hPages hQuarantined] at hMatch
          cases hMatch

end Ladders

/-- The API and the gate agree exactly when a database that is asked is consistent. -/
theorem agree_iff_consistent (T : Texts) (p : Process) :
    Agree T p ↔ ∀ conn, Reached p conn → Consistent T conn := by
  obtain ⟨enabled, bootstrapping, syncFailed, dbPath⟩ := p
  have hEarly {response : StateResponse} {health : ShadowHealthState}
      (hApi : resolveStateForApi T ⟨enabled, bootstrapping, syncFailed, dbPath⟩ = some response)
      (hHealth : resolveHealth T ⟨enabled, bootstrapping, syncFailed, dbPath⟩ = some health)
      (hReady : response.state = .ready ↔ health = .ready)
      (hReason : response.notReadyReason = none ↔
        response.state = .ready ∨ response.state = .disabled) :
      Agree T ⟨enabled, bootstrapping, syncFailed, dbPath⟩ := by
    intro other hOther
    rw [hApi] at hOther
    cases hOther
    exact ⟨⟨health, hHealth, hReady⟩, hReason⟩
  cases enabled with
  | false =>
      refine iff_of_true (hEarly rfl rfl ?_ ?_) fun conn h => nomatch h.1
      · exact iff_of_false nofun nofun
      · exact iff_of_true rfl (Or.inr rfl)
  | true =>
      cases bootstrapping with
      | true =>
          refine iff_of_true (hEarly rfl rfl ?_ ?_) fun conn h => nomatch h.2.1
          · exact iff_of_false nofun nofun
          · exact iff_of_false nofun nofun
      | false =>
          cases syncFailed with
          | true =>
              refine iff_of_true (hEarly rfl rfl ?_ ?_) fun conn h => nomatch h.2.2.1
              · exact iff_of_false nofun nofun
              · exact iff_of_false nofun nofun
          | false =>
              cases dbPath with
              | unavailable =>
                  refine iff_of_true (hEarly rfl rfl ?_ ?_) fun conn h => nomatch h.2.2.2
                  · exact iff_of_false nofun nofun
                  · exact iff_of_false nofun nofun
              | missing =>
                  refine iff_of_true (hEarly rfl rfl ?_ ?_) fun conn h => nomatch h.2.2.2
                  · exact iff_of_false nofun nofun
                  · exact iff_of_false nofun nofun
              | file opened =>
                  cases opened with
                  | otherError =>
                      have hApi : resolveStateForApi T ⟨true, false, false, .file .otherError⟩ =
                        none := rfl
                      refine iff_of_true (fun response hResponse => ?_) fun conn h => ?_
                      · rw [hApi] at hResponse
                        cases hResponse
                      · cases h.2.2.2
                  | sqliteError error =>
                      refine iff_of_true (hEarly rfl rfl ?_ ?_) fun conn h => ?_
                      · exact iff_of_false nofun nofun
                      · exact iff_of_false nofun nofun
                      · cases h.2.2.2
                  | connection conn =>
                      have hReached : (∀ other, Reached ⟨true, false, false, .file (.connection conn)⟩
                          other → Consistent T other) ↔ Consistent T conn := by
                        refine ⟨fun h => h conn ⟨rfl, rfl, rfl, rfl⟩, fun h other hOther => ?_⟩
                        cases hOther.2.2.2
                        exact h
                      have hApi : resolveStateForApi T
                          ⟨true, false, false, .file (.connection conn)⟩ =
                            some (apiOfConnection T conn) := rfl
                      have hHealth : resolveHealth T
                          ⟨true, false, false, .file (.connection conn)⟩ =
                            healthOfConnection T conn := rfl
                      rw [hReached, ← connection_agrees_iff, ConnectionAgrees, Agree, hApi, hHealth]
                      constructor
                      · exact fun h => (h (apiOfConnection T conn) rfl).1
                      · intro h response hResponse
                        rw [Option.some.injEq] at hResponse
                        subst hResponse
                        exact ⟨h, apiOfConnection_reason T conn⟩

/-- The metadata of a graph with one page, and no others. -/
def onePageMeta (key : Str) : Option Str :=
  if key = metaSchemaVersion then some shadowSchemaVersion
  else if key = metaLastFullSyncCompleted then some "true".toList
  else none

/-- A database that was written before pages were quarantined. -/
def beforeQuarantine : Process where
  enabled := true
  bootstrapping := false
  syncFailed := false
  dbPath := .file (.connection
    ⟨.ok onePageMeta, .ok 1, .error ⟨true, "no such table: quarantined_pages".toList⟩⟩)

/-- The API calls such a database ready, and the gate raises. -/
theorem before_quarantine_disagree :
    ¬Agree ⟨fun _ => none, id, some⟩ beforeQuarantine ∧
      (resolveStateForApi ⟨fun _ => none, id, some⟩ beforeQuarantine).map StateResponse.state =
        some .ready ∧
      resolveHealth ⟨fun _ => none, id, some⟩ beforeQuarantine = none := by
  have hApi : (resolveStateForApi ⟨fun _ => none, id, some⟩ beforeQuarantine).map
      StateResponse.state = some .ready := by decide
  have hHealth : resolveHealth ⟨fun _ => none, id, some⟩ beforeQuarantine = none := by decide
  refine ⟨fun h => ?_, hApi, hHealth⟩
  obtain ⟨response, hResponse, -⟩ := Option.map_eq_some_iff.mp hApi
  obtain ⟨⟨health, hSome, -⟩, -⟩ := h response hResponse
  rw [hHealth] at hSome
  cases hSome

end Plumber.Shadow
