import MatrycaPlumber.Memory.EvidenceModels
import MatrycaPlumber.Text.ByteLines

/-! The archive of the evidence events: one record to a line, appended under a lock by processes
that may be cut off after any number of bytes, and repaired by the next one. -/
namespace Plumber.Evidence

open PyText PyJson

section Model

def maxArchiveBytes : ℕ := 16 * 1024 * 1024

def maxTornRecordBytes : ℕ := 1024 * 1024

variable (fromisoformat : Str → Option Timestamp)

/-- A line as an event, when it is one. -/
def record? (line : Str) : Option EvidenceEvent :=
  match loads line with
  | some (.obj members) => (EvidenceEvent.fromDict fromisoformat members).toOption
  | _ => none

/-- The loop of `_read_events`. A last line that is not ended may be torn. -/
def readRecords : List Str → Except String (List EvidenceEvent)
  | [] => .ok []
  | line :: lines =>
      match record? fromisoformat line with
      | some event => (readRecords lines).map (event :: ·)
      | none =>
          if lines = [] ∧ line.getLast? ≠ some '\n' ∧ line.getLast? ≠ some '\r' then .ok []
          else .error "archive_record_invalid"

/-- `_read_events`. The file is `none` where it does not exist. -/
def readEvents (file : Option Str) : Except String (List EvidenceEvent) :=
  match file with
  | none => .ok []
  | some raw =>
      if maxArchiveBytes < raw.length then .error "archive_size_limit_exceeded"
      else readRecords fromisoformat (byteLines raw)

/-- `_prepare_append_tail`: the separator that is needed, and the file as it is left. -/
def prepareAppendTail (file : Option Str) : Except String (Str × Option Str) :=
  match file with
  | none => .ok ([], none)
  | some raw =>
      if raw = [] ∨ raw.getLast? = some '\n' then .ok ([], some raw)
      else
        let tail := lastLine raw
        match record? fromisoformat tail with
        | some _ => .ok (['\n'], some raw)
        | none =>
            if tail.head? ≠ some '{' ∨ maxTornRecordBytes < tail.length then
              .error "archive_torn_record_unrecoverable"
            else .ok ([], some (raw.take (raw.length - tail.length)))

variable (digest : Str → Str)

def eventId (event : EvidenceEvent) : Str := digest (canonicalEventBytes event)

/-- `append` up to its write: the file by then, and the bytes to write unless the event is
stored already. -/
def planAppend (file : Option Str) (event : EvidenceEvent) :
    Option Str × Except String (Option Str) :=
  match prepareAppendTail fromisoformat file with
  | .error e => (file, .error e)
  | .ok (separator, repaired) =>
      match readEvents fromisoformat repaired with
      | .error e => (repaired, .error e)
      | .ok records =>
          if records.any fun existing => eventId digest existing = eventId digest event then
            (repaired, .ok none)
          else (repaired, .ok (some (separator ++ canonicalEventBytes event ++ ['\n'])))

/-- `append` as its caller sees it: whether the event was appended. -/
def appendResult (file : Option Str) (event : EvidenceEvent) : Except String Bool :=
  (planAppend fromisoformat digest file event).2.map Option.isSome

/-- Where a call of `append` ends. -/
inductive Stop where
  | never
  | beforeRepair
  | afterBytes (count : ℕ)

/-- The archive, with what is known of the calls: the events all of whose bytes were written and
that are read back, and whether a record that is not read back was ended. -/
structure Archive where
  file : Option Str := none
  written : List EvidenceEvent := []
  spoiled : Bool := false

/-- The first bytes of a record are written. -/
def Archive.write (archive : Archive) (event : EvidenceEvent) (base : Option Str) (bytes : Str)
    (count : ℕ) : Archive where
  file := some (base.getD [] ++ bytes.take count)
  written :=
    if event.schemaVersion = .one ∧ bytes.length ≤ count + 1 then archive.written ++ [event]
    else archive.written
  spoiled := archive.spoiled || (event.schemaVersion = .true && bytes.length ≤ count)

/-- A call of `append` by a process that holds the lock. -/
def Archive.append (archive : Archive) (call : EvidenceEvent × Stop) : Archive :=
  match call.2, planAppend fromisoformat digest archive.file call.1 with
  | .beforeRepair, _ => archive
  | .never, (base, .ok (some bytes)) => archive.write call.1 base bytes bytes.length
  | .afterBytes count, (base, .ok (some bytes)) => archive.write call.1 base bytes count
  | _, (base, _) => { archive with file := base }

def runAppends (calls : List (EvidenceEvent × Stop)) : Archive :=
  calls.foldl (Archive.append fromisoformat digest) {}

end Model

section Records

variable (fromisoformat : Str → Option Timestamp) (event : EvidenceEvent)

theorem canonicalEventBytes_oneLine : OneLine (canonicalEventBytes event) :=
  dumps_oneLine (plain_event event)

theorem canonicalEventBytes_head : (canonicalEventBytes event).head? = some '{' := by
  rw [canonicalEventBytes, dumps_obj]
  rfl

theorem canonicalEventBytes_ne_nil : canonicalEventBytes event ≠ [] := by
  intro hNil
  have hHead := canonicalEventBytes_head event
  rw [hNil] at hHead
  cases hHead

/-- The version is read as an integer. -/
theorem fromDict_of_true (h : event.schemaVersion = .true) :
    (EvidenceEvent.fromDict fromisoformat event.members).toOption = none := by
  obtain ⟨candidate, recordedAt, version⟩ := event
  obtain rfl : version = .true := h
  have hVersion : requiredInt (EvidenceEvent.members ⟨candidate, recordedAt, .true⟩)
      "schema_version" = .error "invalid_schema_version" := rfl
  rw [EvidenceEvent.fromDict, hVersion]
  cases requireExactKeys (EvidenceEvent.members ⟨candidate, recordedAt, .true⟩)
      ["candidate", "event_type", "recorded_at", "schema_version"] with
  | error e => rfl
  | ok _ =>
      have hCandidate : get? (EvidenceEvent.members ⟨candidate, recordedAt, .true⟩) "candidate" =
          some (.obj candidate.members) := rfl
      have hType : requiredString (EvidenceEvent.members ⟨candidate, recordedAt, .true⟩)
          "event_type" = .ok "candidate_observed".toList := rfl
      have hRecorded : requiredString (EvidenceEvent.members ⟨candidate, recordedAt, .true⟩)
          "recorded_at" = .ok ((recordedAt.1.map Char.toNat).map Char.ofNat) := rfl
      rw [hCandidate, hType, hRecorded]
      simp only [Except.bind, bind, MemoryCandidate.fromDict_members, ne_eq, not_true_eq_false,
        if_false]
      rfl

/-- A record is read back as its event, but for an event whose version is `True`. -/
theorem record?_of_loads {line : Str} (h : loads line = some (.obj event.members)) :
    record? fromisoformat line = if event.schemaVersion = .one then some event else none := by
  rw [record?, h]
  dsimp only
  cases hVersion : event.schemaVersion with
  | one => rw [event.fromDict_members fromisoformat hVersion, if_pos rfl]; rfl
  | true => rw [fromDict_of_true fromisoformat event hVersion, if_neg (by rintro ⟨⟩)]

theorem record?_canonicalEventBytes : record? fromisoformat (canonicalEventBytes event) =
    if event.schemaVersion = .one then some event else none :=
  record?_of_loads fromisoformat event (loads_dumps (plain_event event))

theorem record?_ended : record? fromisoformat (canonicalEventBytes event ++ ['\n']) =
    if event.schemaVersion = .one then some event else none :=
  record?_of_loads fromisoformat event
    (loads_append_blanks (loads_dumps (plain_event event)) (by decide))

/-- No part of a record is read as an event. -/
theorem record?_of_isPrefix {p : Str} (hPrefix : p <+: canonicalEventBytes event)
    (hProper : p ≠ canonicalEventBytes event) : record? fromisoformat p = none := by
  rw [record?]
  split
  · next members hLoads =>
      exact absurd hLoads <| not_object_of_prefix (plain_event event) hPrefix hProper members
  · rfl

end Records

section Lengths

theorem length_text (s : Str) : (dumps (text s)).length = s.length + 2 := by
  rw [text, length_dumps_str, List.length_map]

theorem length_identifier (x : Identifier) : x.1.length ≤ 64 := by
  obtain ⟨s, h⟩ := x
  cases s with
  | nil => exact Nat.zero_le _
  | cons c s =>
      rw [isIdentifier, Bool.and_eq_true, Bool.and_eq_true, decide_eq_true_eq] at h
      exact Nat.succ_le_succ h.1.2

theorem length_sha256 (x : Sha256) : x.1.length = 64 := by
  have h := x.2
  rw [isSha256, Bool.and_eq_true, decide_eq_true_eq] at h
  exact h.1

theorem length_timestamp (x : Timestamp) : x.1.length ≤ 27 := by
  have h := x.2
  rw [isTimestamp, Bool.and_eq_true, Bool.and_eq_true, decide_eq_true_eq] at h
  exact h.1.1

/-- A member whose value is a text. -/
theorem length_member_text (name : String) (s : Str) (ms : List (List ℕ × Json)) :
    ((printedMembers ((key name, text s) :: ms)).flatMap tokenText).length ≤
      name.toList.length + s.length + 6 + ((printedMembers ms).flatMap tokenText).length := by
  have h := length_members_cons (key name) (text s) ms
  rw [length_text, key, List.length_map] at h
  rw [key]
  omega

theorem length_members_nil : ((printedMembers []).flatMap tokenText).length = 0 := rfl

theorem length_ref (ref : EvidenceRef) : (dumps (.obj ref.members)).length ≤ 300 := by
  have hDigest := length_member_text "revision_digest" ref.revisionDigest.1
    [(key "source_id", text ref.sourceId.1), (key "source_kind", text ref.sourceKind.1)]
  have hId := length_member_text "source_id" ref.sourceId.1
    [(key "source_kind", text ref.sourceKind.1)]
  have hKind := length_member_text "source_kind" ref.sourceKind.1 []
  have hNames : ("revision_digest".toList.length = 15 ∧ "source_id".toList.length = 9) ∧
      "source_kind".toList.length = 11 := by decide
  have hFields := length_identifier ref.sourceKind
  rw [length_sha256, hNames.1.1] at hDigest
  rw [length_sha256, hNames.1.2] at hId
  rw [length_members_nil, hNames.2] at hKind
  rw [length_dumps_obj, EvidenceRef.members]
  omega

theorem length_refs (refs : List EvidenceRef) :
    ((printedItems (refs.map fun ref => .obj ref.members)).flatMap tokenText).length ≤
      301 * refs.length := by
  induction refs with
  | nil => exact Nat.zero_le _
  | cons ref refs ih =>
      have hItem := length_items_cons (.obj ref.members) (refs.map fun ref => .obj ref.members)
      have hRef := length_ref ref
      rw [List.map_cons, List.length_cons]
      omega

theorem length_evidenceRefs (candidate : MemoryCandidate) : candidate.evidenceRefs.length ≤ 32 := by
  have h := candidate.checked
  rw [checkRefs] at h
  split_ifs at h with hNone hMany
  exact not_lt.mp hMany

theorem length_candidate (candidate : MemoryCandidate) :
    (dumps (.obj candidate.members)).length ≤ 10200 := by
  have hId := length_member_text "candidate_id" candidate.candidateId.1
    [(key "candidate_kind", text candidate.candidateKind.1),
      (key "evidence_refs", .arr (candidate.evidenceRefs.map fun ref => .obj ref.members)),
      (key "observed_at", text candidate.observedAt.1), (key "status", text "proposed".toList)]
  have hKind := length_member_text "candidate_kind" candidate.candidateKind.1
    [(key "evidence_refs", .arr (candidate.evidenceRefs.map fun ref => .obj ref.members)),
      (key "observed_at", text candidate.observedAt.1), (key "status", text "proposed".toList)]
  have hRefs := length_members_cons (key "evidence_refs")
    (.arr (candidate.evidenceRefs.map fun ref => .obj ref.members))
    [(key "observed_at", text candidate.observedAt.1), (key "status", text "proposed".toList)]
  have hObserved := length_member_text "observed_at" candidate.observedAt.1
    [(key "status", text "proposed".toList)]
  have hStatus := length_member_text "status" "proposed".toList []
  have hNames : ("candidate_id".toList.length = 12 ∧ "candidate_kind".toList.length = 14) ∧
      (key "evidence_refs").length = 13 ∧ "observed_at".toList.length = 11 ∧
      "status".toList.length = 6 ∧ "proposed".toList.length = 8 := by decide
  have hFields := length_identifier candidate.candidateKind
  have hTime := length_timestamp candidate.observedAt
  have hItems := length_refs candidate.evidenceRefs
  have hFew := length_evidenceRefs candidate
  rw [length_sha256, hNames.1.1] at hId
  rw [hNames.1.2] at hKind
  rw [length_dumps_arr, hNames.2.1] at hRefs
  rw [hNames.2.2.1] at hObserved
  rw [length_members_nil, hNames.2.2.2.1, hNames.2.2.2.2] at hStatus
  rw [length_dumps_obj, MemoryCandidate.members]
  omega

/-- A record is far shorter than what a torn one may be. -/
theorem length_canonicalEventBytes (event : EvidenceEvent) :
    (canonicalEventBytes event).length ≤ maxTornRecordBytes := by
  have hCandidate := length_members_cons (key "candidate") (.obj event.candidate.members)
    [(key "event_type", text "candidate_observed".toList),
      (key "recorded_at", text event.recordedAt.1),
      (key "schema_version", event.schemaVersion.toJson)]
  have hType := length_member_text "event_type" "candidate_observed".toList
    [(key "recorded_at", text event.recordedAt.1),
      (key "schema_version", event.schemaVersion.toJson)]
  have hRecorded := length_member_text "recorded_at" event.recordedAt.1
    [(key "schema_version", event.schemaVersion.toJson)]
  have hVersion := length_members_cons (key "schema_version") event.schemaVersion.toJson []
  have hWord : (dumps event.schemaVersion.toJson).length ≤ 4 := by
    cases event.schemaVersion <;> decide
  have hNames : (key "candidate").length = 9 ∧ "event_type".toList.length = 10 ∧
      "candidate_observed".toList.length = 18 ∧ "recorded_at".toList.length = 11 ∧
      (key "schema_version").length = 14 := by decide
  have hInner := length_candidate event.candidate
  have hTime := length_timestamp event.recordedAt
  rw [hNames.1] at hCandidate
  rw [hNames.2.1, hNames.2.2.1] at hType
  rw [hNames.2.2.2.1] at hRecorded
  rw [length_members_nil, hNames.2.2.2.2] at hVersion
  rw [canonicalEventBytes, length_dumps_obj, EvidenceEvent.members, maxTornRecordBytes]
  omega

end Lengths

section Shapes

variable {fromisoformat : Str → Option Timestamp} {es : List EvidenceEvent}
  {event : EvidenceEvent} {spoiled : Bool} {file : Option Str} {p : Str}

/-- Records that are ended. -/
def records (es : List EvidenceEvent) : Str :=
  (es.map canonicalEventBytes).flatMap (· ++ ['\n'])

theorem records_concat (es : List EvidenceEvent) (event : EvidenceEvent) :
    records (es ++ [event]) = records es ++ (canonicalEventBytes event ++ ['\n']) := by
  rw [records, List.map_append, List.flatMap_append, List.map_singleton, List.flatMap_singleton]
  rfl

/-- What a writer that was cut off leaves behind, and is ready to be taken away. -/
structure Torn (fromisoformat : Str → Option Timestamp) (p : Str) : Prop where
  oneLine : OneLine p
  unread : record? fromisoformat p = none
  head : p = [] ∨ p.head? = some '{'
  length : p.length ≤ maxTornRecordBytes

theorem Torn.nil : Torn fromisoformat [] where
  oneLine := .nil
  unread := rfl
  head := .inl rfl
  length := Nat.zero_le _

theorem Torn.of_isPrefix (hPrefix : p <+: canonicalEventBytes event)
    (hUnread : record? fromisoformat p = none) : Torn fromisoformat p where
  oneLine := (canonicalEventBytes_oneLine event).of_isPrefix hPrefix
  unread := hUnread
  head := by
    obtain ⟨rest, hRest⟩ := hPrefix
    have hHead := canonicalEventBytes_head event
    cases p with
    | nil => exact .inl rfl
    | cons c p =>
        rw [← hRest] at hHead
        exact .inr hHead
  length := hPrefix.length_le.trans (length_canonicalEventBytes event)

/-- The files that calls of `append` leave. -/
inductive Tail (fromisoformat : Str → Option Timestamp) :
    List EvidenceEvent → Bool → Option Str → Prop
  | absent : Tail fromisoformat [] false none
  | torn {es : List EvidenceEvent} {p : Str} (h : Torn fromisoformat p) :
      Tail fromisoformat es false (some (records es ++ p))
  | unended {es : List EvidenceEvent} {event : EvidenceEvent} :
      Tail fromisoformat (es ++ [event]) false (some (records es ++ canonicalEventBytes event))
  | spoiled {es : List EvidenceEvent} {event : EvidenceEvent} (h : event.schemaVersion = .true) :
      Tail fromisoformat es true (some (records es ++ (canonicalEventBytes event ++ ['\n'])))

/-- Nothing is behind the records. -/
theorem Tail.ended (es : List EvidenceEvent) : Tail fromisoformat es false (some (records es)) := by
  rw [← List.append_nil (records es)]
  exact .torn .nil

/-- The lines of records that are ended are read, and then the lines behind them. -/
theorem readRecords_byteLines (hVersions : ∀ event ∈ es, event.schemaVersion = .one) (rest : Str) :
    readRecords fromisoformat (byteLines (records es ++ rest)) =
      (readRecords fromisoformat (byteLines rest)).map (es ++ ·) := by
  have hOneLine : ∀ record ∈ es.map canonicalEventBytes, OneLine record := by
    intro record hMem
    obtain ⟨event, -, rfl⟩ := List.mem_map.mp hMem
    exact canonicalEventBytes_oneLine event
  rw [records, byteLines_records hOneLine]
  clear hOneLine
  induction es with
  | nil =>
      rw [List.map_nil, List.map_nil, List.nil_append]
      cases readRecords fromisoformat (byteLines rest) <;> rfl
  | cons event es ih =>
      rw [List.forall_mem_cons] at hVersions
      rw [List.map_cons, List.map_cons, List.cons_append, readRecords, record?_ended,
        if_pos hVersions.1]
      dsimp only
      rw [ih hVersions.2]
      cases readRecords fromisoformat (byteLines rest) <;> rfl

/-- What the archive is read as. -/
theorem Tail.readEvents (h : Tail fromisoformat es spoiled file)
    (hVersions : ∀ event ∈ es, event.schemaVersion = .one) :
    readEvents fromisoformat file =
      if maxArchiveBytes < (file.getD []).length then .error "archive_size_limit_exceeded"
      else if spoiled = true then .error "archive_record_invalid" else .ok es := by
  cases h with
  | absent => rfl
  | @torn es p hTorn =>
      rw [Evidence.readEvents, Option.getD_some, readRecords_byteLines hVersions,
        byteLines_rest hTorn.oneLine]
      have hRest : readRecords fromisoformat (if p = [] then [] else [p]) = .ok [] := by
        split_ifs
        · rfl
        · rw [readRecords, hTorn.unread]
          exact if_pos ⟨rfl, hTorn.oneLine.getLast?_ne⟩
      rw [hRest]
      simp [Except.map]
  | @unended es event =>
      rw [List.forall_mem_append, List.forall_mem_singleton] at hVersions
      rw [Evidence.readEvents, Option.getD_some, readRecords_byteLines hVersions.1,
        byteLines_rest (canonicalEventBytes_oneLine event),
        if_neg (canonicalEventBytes_ne_nil event), readRecords, record?_canonicalEventBytes,
        if_pos hVersions.2]
      rfl
  | @spoiled es event hTrue =>
      have hRest : readRecords fromisoformat [canonicalEventBytes event ++ ['\n']] =
          .error "archive_record_invalid" := by
        rw [readRecords, record?_ended, hTrue, if_neg (by rintro ⟨⟩)]
        refine if_neg ?_
        rintro ⟨-, hLast, -⟩
        exact hLast List.getLast?_concat
      rw [Evidence.readEvents, Option.getD_some, readRecords_byteLines hVersions,
        byteLines_record (canonicalEventBytes_oneLine event) [], byteLines, hRest]
      rfl

theorem getLast?_records (es : List EvidenceEvent) :
    records es = [] ∨ (records es).getLast? = some '\n' := by
  rcases List.eq_nil_or_concat' es with rfl | ⟨front, event, rfl⟩
  · exact .inl rfl
  · refine .inr ?_
    rw [records_concat, ← List.append_assoc]
    exact List.getLast?_concat

/-- The repair leaves the records that are ended, or one that only lacks its end. -/
theorem Tail.prepareAppendTail (h : Tail fromisoformat es spoiled file)
    (hVersions : ∀ event ∈ es, event.schemaVersion = .one) :
    ∃ separator repaired, prepareAppendTail fromisoformat file = .ok (separator, repaired) ∧
      Tail fromisoformat es spoiled repaired ∧
      (repaired.getD []).length ≤ (file.getD []).length ∧
      (spoiled = true → repaired = file) ∧
      (spoiled = false → repaired.getD [] ++ separator = records es) ∧
      (separator = [] ∨ separator = ['\n'] ∧ ∃ raw, repaired = some raw) := by
  cases h with
  | absent => exact ⟨[], none, rfl, .absent, le_rfl, fun _ => rfl, fun _ => rfl, .inl rfl⟩
  | @torn es p hTorn =>
      by_cases hNil : p = []
      · subst hNil
        have hEnded := getLast?_records es
        rw [Evidence.prepareAppendTail, List.append_nil, if_pos hEnded]
        exact ⟨[], _, rfl, .ended es, le_rfl, fun _ => rfl, fun _ => List.append_nil _, .inl rfl⟩
      · have hLast : ¬(records es ++ p = [] ∨ (records es ++ p).getLast? = some '\n') := by
          rw [List.append_eq_nil_iff, List.getLast?_append_of_ne_nil _ hNil, not_or]
          exact ⟨fun hBoth => hNil hBoth.2, hTorn.oneLine.getLast?_ne.1⟩
        have hLine : lastLine (records es ++ p) = p := lastLine_records hTorn.oneLine _
        rw [Evidence.prepareAppendTail, if_neg hLast]
        dsimp only
        rw [hLine, hTorn.unread]
        dsimp only
        rw [if_neg (not_or.mpr ⟨not_not.mpr (hTorn.head.resolve_left hNil),
          Nat.not_lt.mpr hTorn.length⟩), List.length_append, Nat.add_sub_cancel, List.take_left]
        refine ⟨[], _, rfl, .ended es, ?_, by rintro ⟨⟩, fun _ => List.append_nil _, .inl rfl⟩
        rw [Option.getD_some, Option.getD_some, List.length_append]
        exact Nat.le_add_right _ _
  | @unended es event =>
      have hOneLine := canonicalEventBytes_oneLine event
      have hNil := canonicalEventBytes_ne_nil event
      have hLast : ¬(records es ++ canonicalEventBytes event = [] ∨
          (records es ++ canonicalEventBytes event).getLast? = some '\n') := by
        rw [List.append_eq_nil_iff, List.getLast?_append_of_ne_nil _ hNil, not_or]
        exact ⟨fun hBoth => hNil hBoth.2, hOneLine.getLast?_ne.1⟩
      have hLine : lastLine (records es ++ canonicalEventBytes event) = canonicalEventBytes event :=
        lastLine_records hOneLine _
      rw [List.forall_mem_append, List.forall_mem_singleton] at hVersions
      rw [Evidence.prepareAppendTail, if_neg hLast]
      dsimp only
      rw [hLine, record?_canonicalEventBytes, if_pos hVersions.2]
      refine ⟨['\n'], _, rfl, .unended, le_rfl, fun _ => rfl, fun _ => ?_, .inr ⟨rfl, _, rfl⟩⟩
      rw [records_concat, Option.getD_some, List.append_assoc]
  | @spoiled es event hTrue =>
      have hLast : (records es ++ (canonicalEventBytes event ++ ['\n'])).getLast? = some '\n' := by
        rw [← List.append_assoc]
        exact List.getLast?_concat
      rw [Evidence.prepareAppendTail, if_pos (.inr hLast)]
      exact ⟨[], _, rfl, .spoiled hTrue, le_rfl, fun _ => rfl, by rintro ⟨⟩, .inl rfl⟩

end Shapes

section Samples

theorem isSha256_sample : isSha256 (List.replicate 64 'a') = true := by decide

theorem isIdentifier_sample : isIdentifier "semantic-claim".toList = true := by decide

theorem isTimestamp_sample : isTimestamp "2026-08-10T12:00:00Z".toList = true := by decide

def sampleRef : EvidenceRef :=
  ⟨⟨_, isIdentifier_sample⟩, ⟨_, isSha256_sample⟩, ⟨_, isSha256_sample⟩⟩

theorem checkRefs_sample : checkRefs [sampleRef] = .ok () := by decide

def sampleEvent (version : SchemaVersion) : EvidenceEvent where
  candidate := ⟨⟨_, isSha256_sample⟩, ⟨_, isIdentifier_sample⟩, ⟨_, isTimestamp_sample⟩,
    [sampleRef], checkRefs_sample⟩
  recordedAt := ⟨_, isTimestamp_sample⟩
  schemaVersion := version

end Samples

section Runs

variable {fromisoformat : Str → Option Timestamp} {digest : Str → Str} {archive : Archive}
  {event : EvidenceEvent}

/-- The invariant of the archive: its file holds the events that were written, each once. -/
structure Sound (fromisoformat : Str → Option Timestamp) (digest : Str → Str) (archive : Archive) :
    Prop where
  tail : Tail fromisoformat archive.written archive.spoiled archive.file
  versions : ∀ event ∈ archive.written, event.schemaVersion = .one
  distinct : (archive.written.map (eventId digest)).Nodup

/-- What a call has before it writes. -/
structure Planned (fromisoformat : Str → Option Timestamp) (digest : Str → Str) (archive : Archive)
    (event : EvidenceEvent) (base : Option Str) (separator : Str) : Prop where
  tail : Tail fromisoformat archive.written false base
  ready : base.getD [] ++ separator = records archive.written
  separator : separator = [] ∨ separator = ['\n'] ∧ ∃ raw, base = some raw
  fresh : eventId digest event ∉ archive.written.map (eventId digest)

/-- A plan is a refusal, or the whole record of an event that is not stored. -/
theorem Sound.plan (h : Sound fromisoformat digest archive) (event : EvidenceEvent) :
    ∃ base result, planAppend fromisoformat digest archive.file event = (base, result) ∧
      Tail fromisoformat archive.written archive.spoiled base ∧
      (base.getD []).length ≤ (archive.file.getD []).length ∧
      (archive.spoiled = true → base = archive.file ∧ ∃ e, result = .error e) ∧
      (archive.spoiled = false → (archive.file.getD []).length ≤ maxArchiveBytes →
        result.map Option.isSome =
          .ok (decide (eventId digest event ∉ archive.written.map (eventId digest)))) ∧
      ∀ bytes, result = .ok (some bytes) → archive.spoiled = false ∧ ∃ separator,
        bytes = separator ++ canonicalEventBytes event ++ ['\n'] ∧
        Planned fromisoformat digest archive event base separator := by
  obtain ⟨separator, base, hPrepare, hTail, hLength, hSame, hReady, hSeparator⟩ :=
    h.tail.prepareAppendTail h.versions
  have hRead := hTail.readEvents h.versions
  rw [planAppend, hPrepare]
  dsimp only
  by_cases hSize : maxArchiveBytes < (base.getD []).length
  · rw [hRead, if_pos hSize]
    refine ⟨base, _, rfl, hTail, hLength, fun hSpoiled => ⟨hSame hSpoiled, _, rfl⟩, ?_, ?_⟩
    · intro _ hFits
      omega
    · rintro bytes ⟨⟩
  · rw [hRead, if_neg hSize]
    cases hSpoiled : archive.spoiled with
    | true =>
        rw [hSpoiled] at hTail
        exact ⟨base, _, rfl, hTail, hLength, fun _ => ⟨hSame hSpoiled, _, rfl⟩, by rintro ⟨⟩,
          by rintro bytes ⟨⟩⟩
    | false =>
        rw [hSpoiled] at hTail
        rw [if_neg Bool.false_ne_true]
        dsimp only
        have hStored : (archive.written.any fun existing =>
            eventId digest existing = eventId digest event) = true ↔
              eventId digest event ∈ archive.written.map (eventId digest) := by
          simp [List.any_eq_true]
        split_ifs with hAny
        · refine ⟨base, _, rfl, hTail, hLength, by rintro ⟨⟩, fun _ _ => ?_, by rintro bytes ⟨⟩⟩
          rw [decide_eq_false (not_not.mpr (hStored.mp hAny))]
          rfl
        · have hFresh := mt hStored.mpr hAny
          refine ⟨base, _, rfl, hTail, hLength, by rintro ⟨⟩, fun _ _ => ?_, ?_⟩
          · rw [decide_eq_true hFresh]
            rfl
          · rintro bytes ⟨⟩
            exact ⟨rfl, separator, rfl, hTail, hReady hSpoiled, hSeparator, hFresh⟩

/-- After any number of the bytes of a record, the archive is as it was, has a torn line more, or
has the record. -/
theorem Sound.write (h : Sound fromisoformat digest archive) (hClean : archive.spoiled = false)
    {base : Option Str} {separator : Str}
    (hPlan : Planned fromisoformat digest archive event base separator) (count : ℕ) :
    Sound fromisoformat digest (archive.write event base
      (separator ++ canonicalEventBytes event ++ ['\n']) count) := by
  have hTotal : (separator ++ canonicalEventBytes event ++ ['\n']).length =
      separator.length + (canonicalEventBytes event).length + 1 := by
    rw [List.length_append, List.length_append, List.length_singleton]
  have hEnded {m : ℕ} (hLt : m < separator.length + (canonicalEventBytes event).length + 1) :
      (decide (event.schemaVersion = .true) &&
        decide (separator.length + (canonicalEventBytes event).length + 1 ≤ m)) = false :=
    Bool.and_eq_false_iff.mpr (.inr (decide_eq_false (Nat.not_le.mpr hLt)))
  rcases Nat.lt_or_ge count separator.length with hEarly | hLate
  · -- nothing of the record is there yet
    obtain ⟨rfl, raw, rfl⟩ : separator = ['\n'] ∧ ∃ raw, base = some raw := by
      refine hPlan.separator.resolve_left ?_
      rintro rfl
      exact Nat.not_lt_zero _ hEarly
    obtain rfl : count = 0 := Nat.lt_one_iff.mp hEarly
    have hPos := List.length_pos_of_ne_nil (canonicalEventBytes_ne_nil event)
    rw [List.length_singleton] at hTotal hEnded
    rw [Archive.write, hTotal, if_neg (by rintro ⟨-, hLe⟩; omega), hEnded (by omega), Bool.or_false,
      List.take_zero, List.append_nil, Option.getD_some, hClean]
    exact ⟨hPlan.tail, h.versions, h.distinct⟩
  · obtain ⟨k, rfl⟩ := Nat.exists_eq_add_of_le hLate
    have hTake : (separator ++ canonicalEventBytes event ++ ['\n']).take (separator.length + k) =
        separator ++ (canonicalEventBytes event ++ ['\n']).take k := by
      rw [List.append_assoc, List.take_length_add_append]
    have hDistinct : ((archive.written ++ [event]).map (eventId digest)).Nodup := by
      rw [List.map_append, List.map_singleton]
      refine List.nodup_append.mpr ⟨h.distinct, List.nodup_singleton _, ?_⟩
      rintro a hA b hB rfl
      exact hPlan.fresh (List.mem_singleton.mp hB ▸ hA)
    rw [Archive.write, hTotal, hTake, ← List.append_assoc, hPlan.ready, hClean]
    rcases Nat.lt_trichotomy k (canonicalEventBytes event).length with hPart | rfl | hWhole
    · rw [if_neg (by rintro ⟨-, hLe⟩; omega), hEnded (by omega), Bool.or_false,
        List.take_append_of_le_length hPart.le]
      have hTorn : Torn fromisoformat ((canonicalEventBytes event).take k) := by
        refine .of_isPrefix (List.take_prefix _ _)
          (record?_of_isPrefix _ event (List.take_prefix _ _) ?_)
        intro hAll
        have hLength := congrArg List.length hAll
        rw [List.length_take] at hLength
        omega
      exact ⟨.torn hTorn, h.versions, h.distinct⟩
    · rw [List.take_left, hEnded (by omega), Bool.or_false]
      cases hVersion : event.schemaVersion with
      | one =>
          rw [if_pos ⟨rfl, by omega⟩]
          exact ⟨.unended, List.forall_mem_append.mpr ⟨h.versions,
            List.forall_mem_singleton.mpr hVersion⟩, hDistinct⟩
      | true =>
          rw [if_neg (by rintro ⟨⟨⟩, -⟩)]
          refine ⟨.torn (.of_isPrefix (List.prefix_refl _) ?_), h.versions, h.distinct⟩
          rw [record?_canonicalEventBytes, hVersion]
          exact if_neg (by rintro ⟨⟩)
    · rw [List.take_of_length_le (by rw [List.length_append, List.length_singleton]; omega),
        decide_eq_true (by omega : _ ≤ separator.length + k), Bool.and_true, Bool.false_or]
      cases hVersion : event.schemaVersion with
      | one =>
          rw [if_pos ⟨rfl, by omega⟩, ← records_concat]
          exact ⟨.ended _, List.forall_mem_append.mpr ⟨h.versions,
            List.forall_mem_singleton.mpr hVersion⟩, hDistinct⟩
      | true =>
          rw [if_neg (by rintro ⟨⟨⟩, -⟩)]
          exact ⟨.spoiled hVersion, h.versions, h.distinct⟩

/-- A call keeps the invariant, wherever it is cut off. -/
theorem Sound.append (h : Sound fromisoformat digest archive) (call : EvidenceEvent × Stop) :
    Sound fromisoformat digest (archive.append fromisoformat digest call) := by
  obtain ⟨event, stop⟩ := call
  obtain ⟨base, result, hPlan, hTail, -, -, -, hBytes⟩ := h.plan event
  have hBase : Sound fromisoformat digest { archive with file := base } :=
    ⟨hTail, h.versions, h.distinct⟩
  rw [Archive.append, hPlan]
  cases stop with
  | beforeRepair => exact h
  | never =>
      cases result with
      | error e => exact hBase
      | ok bytes? =>
          cases bytes? with
          | none => exact hBase
          | some bytes =>
              obtain ⟨hClean, separator, rfl, hPlanned⟩ := hBytes bytes rfl
              exact h.write hClean hPlanned _
  | afterBytes count =>
      cases result with
      | error e => exact hBase
      | ok bytes? =>
          cases bytes? with
          | none => exact hBase
          | some bytes =>
              obtain ⟨hClean, separator, rfl, hPlanned⟩ := hBytes bytes rfl
              exact h.write hClean hPlanned _

theorem Sound.run (h : Sound fromisoformat digest archive) (calls : List (EvidenceEvent × Stop)) :
    Sound fromisoformat digest (calls.foldl (Archive.append fromisoformat digest) archive) := by
  induction calls generalizing archive with
  | nil => exact h
  | cons call calls ih => exact ih (h.append call)

theorem sound_runAppends (fromisoformat : Str → Option Timestamp) (digest : Str → Str)
    (calls : List (EvidenceEvent × Stop)) :
    Sound fromisoformat digest (runAppends fromisoformat digest calls) := by
  have hEmpty : Sound fromisoformat digest {} := ⟨.absent, List.forall_mem_nil _, List.nodup_nil⟩
  exact hEmpty.run calls

theorem Sound.readEvents {archive : Archive} (h : Sound fromisoformat digest archive) :
    Evidence.readEvents fromisoformat archive.file =
      if maxArchiveBytes < (archive.file.getD []).length then .error "archive_size_limit_exceeded"
      else if archive.spoiled = true then .error "archive_record_invalid"
      else .ok archive.written := h.tail.readEvents h.versions

/-- Wherever the calls were cut off, the archive is read as exactly the events all of whose bytes
were written, each once and in their order, unless it is over its limit or an event whose version
is `True` was ended in it. -/
theorem events_exact (fromisoformat : Str → Option Timestamp) (digest : Str → Str)
    (calls : List (EvidenceEvent × Stop)) :
    readEvents fromisoformat (runAppends fromisoformat digest calls).file =
        (if maxArchiveBytes < ((runAppends fromisoformat digest calls).file.getD []).length then
          .error "archive_size_limit_exceeded"
        else if (runAppends fromisoformat digest calls).spoiled = true then
          .error "archive_record_invalid"
        else .ok (runAppends fromisoformat digest calls).written) ∧
      ((runAppends fromisoformat digest calls).written.map (eventId digest)).Nodup := by
  have hSound := sound_runAppends fromisoformat digest calls
  exact ⟨hSound.readEvents, hSound.distinct⟩

/-- The first call on a new archive. -/
theorem runAppends_singleton (event : EvidenceEvent) :
    runAppends fromisoformat digest [(event, .never)] =
      { file := some (canonicalEventBytes event ++ ['\n'])
        written := if event.schemaVersion = .one then [event] else []
        spoiled := event.schemaVersion = .true } := by
  have hRun : runAppends fromisoformat digest [(event, .never)] =
      Archive.write {} event none (canonicalEventBytes event ++ ['\n'])
        (canonicalEventBytes event ++ ['\n']).length := rfl
  rw [hRun, Archive.write, List.take_length]
  cases event.schemaVersion <;> simp

theorem length_runAppends_sample (version : SchemaVersion) :
    ((runAppends (fun _ => none) id [(sampleEvent version, .never)]).file.getD []).length ≤
      maxArchiveBytes := by
  have hLength := length_canonicalEventBytes (sampleEvent version)
  rw [runAppends_singleton, Option.getD_some, List.length_append, List.length_singleton,
    maxArchiveBytes]
  rw [maxTornRecordBytes] at hLength
  omega

/-- A call leaves the events before it, and a spoiled archive as it is. -/
theorem Sound.append_kept (h : Sound fromisoformat digest archive)
    (call : EvidenceEvent × Stop) :
    archive.written <+: (archive.append fromisoformat digest call).written ∧
      (archive.spoiled = true → (archive.append fromisoformat digest call).file = archive.file ∧
        (archive.append fromisoformat digest call).spoiled = true) := by
  obtain ⟨event, stop⟩ := call
  obtain ⟨base, result, hPlan, -, -, hSpoiled, -, hBytes⟩ := h.plan event
  have hWrite (bytes : Str) (count : ℕ) :
      archive.written <+: (archive.write event base bytes count).written := by
    rw [Archive.write]
    split_ifs
    · exact List.prefix_append _ _
    · exact List.prefix_refl _
  rw [Archive.append, hPlan]
  cases stop with
  | beforeRepair => exact ⟨List.prefix_refl _, fun hTrue => ⟨rfl, hTrue⟩⟩
  | never =>
      cases result with
      | error e => exact ⟨List.prefix_refl _, fun hTrue => ⟨(hSpoiled hTrue).1, hTrue⟩⟩
      | ok bytes? =>
          cases bytes? with
          | none => exact ⟨List.prefix_refl _, fun hTrue => ⟨(hSpoiled hTrue).1, hTrue⟩⟩
          | some bytes =>
              refine ⟨hWrite bytes _, fun hTrue => ?_⟩
              obtain ⟨-, e, hError⟩ := hSpoiled hTrue
              cases hError
  | afterBytes count =>
      cases result with
      | error e => exact ⟨List.prefix_refl _, fun hTrue => ⟨(hSpoiled hTrue).1, hTrue⟩⟩
      | ok bytes? =>
          cases bytes? with
          | none => exact ⟨List.prefix_refl _, fun hTrue => ⟨(hSpoiled hTrue).1, hTrue⟩⟩
          | some bytes =>
              refine ⟨hWrite bytes _, fun hTrue => ?_⟩
              obtain ⟨-, e, hError⟩ := hSpoiled hTrue
              cases hError

theorem Sound.run_kept (h : Sound fromisoformat digest archive)
    (calls : List (EvidenceEvent × Stop)) :
    archive.written <+: (calls.foldl (Archive.append fromisoformat digest) archive).written ∧
      (archive.spoiled = true →
        (calls.foldl (Archive.append fromisoformat digest) archive).file = archive.file ∧
        (calls.foldl (Archive.append fromisoformat digest) archive).spoiled = true) := by
  induction calls generalizing archive with
  | nil => exact ⟨List.prefix_refl _, fun hTrue => ⟨rfl, hTrue⟩⟩
  | cons call calls ih =>
      obtain ⟨hFirst, hFile⟩ := h.append_kept call
      obtain ⟨hRest, hFileRest⟩ := ih (h.append call)
      refine ⟨hFirst.trans hRest, fun hTrue => ?_⟩
      obtain ⟨hSame, hStill⟩ := hFile hTrue
      obtain ⟨hSameRest, hStillRest⟩ := hFileRest hStill
      exact ⟨hSameRest.trans hSame, hStillRest⟩

/-- What was once read is read again, before whatever was appended since. -/
theorem events_kept (fromisoformat : Str → Option Timestamp) (digest : Str → Str)
    (calls more : List (EvidenceEvent × Stop)) {es later : List EvidenceEvent}
    (hEvents : readEvents fromisoformat (runAppends fromisoformat digest calls).file = .ok es)
    (hLater : readEvents fromisoformat (runAppends fromisoformat digest (calls ++ more)).file =
      .ok later) : es <+: later := by
  have hSound := sound_runAppends fromisoformat digest calls
  have hBefore := hSound.readEvents
  have hAfter := (sound_runAppends fromisoformat digest (calls ++ more)).readEvents
  rw [hEvents] at hBefore
  rw [hLater] at hAfter
  split_ifs at hBefore hAfter
  rw [Except.ok.inj hBefore, Except.ok.inj hAfter, runAppends, runAppends, List.foldl_append]
  exact (hSound.run_kept more).1

theorem events_kept_second : [sampleEvent .one] <+: [sampleEvent .one] := by
  have hRead : readEvents (fun _ => none)
      (runAppends (fun _ => none) id [(sampleEvent .one, .never)]).file =
        .ok [sampleEvent .one] := by
    rw [(sound_runAppends (fun _ => none) id _).readEvents,
      if_neg (Nat.not_lt.mpr (length_runAppends_sample .one)), runAppends_singleton]
    rfl
  exact events_kept (fun _ => none) id [(sampleEvent .one, .never)]
    [(sampleEvent .one, .beforeRepair)] hRead hRead

/-- Once an event whose version is `True` is ended, no call writes anything any more, and every
one of them fails, as reading does. -/
theorem spoiled_for_good (fromisoformat : Str → Option Timestamp) (digest : Str → Str)
    (calls more : List (EvidenceEvent × Stop))
    (hSpoiled : (runAppends fromisoformat digest calls).spoiled = true) :
    (runAppends fromisoformat digest (calls ++ more)).file =
        (runAppends fromisoformat digest calls).file ∧
      (∀ event, ∃ e, appendResult fromisoformat digest
        (runAppends fromisoformat digest (calls ++ more)).file event = .error e) ∧
      ∃ e, readEvents fromisoformat (runAppends fromisoformat digest (calls ++ more)).file =
        .error e := by
  have hSound := sound_runAppends fromisoformat digest calls
  have hLater := sound_runAppends fromisoformat digest (calls ++ more)
  have hKept := (hSound.run_kept more).2 hSpoiled
  have hRun : runAppends fromisoformat digest (calls ++ more) =
      more.foldl (Archive.append fromisoformat digest) (runAppends fromisoformat digest calls) :=
    List.foldl_append
  rw [← hRun] at hKept
  refine ⟨hKept.1, fun event => ?_, ?_⟩
  · obtain ⟨base, result, hPlan, -, -, hRefused, -, -⟩ := hLater.plan event
    obtain ⟨-, e, rfl⟩ := hRefused hKept.2
    exact ⟨e, by rw [appendResult, hPlan]; rfl⟩
  · rw [hLater.readEvents, hKept.2, if_pos rfl]
    split_ifs
    · exact ⟨_, rfl⟩
    · exact ⟨_, rfl⟩

theorem spoiled_for_good_first :
    (runAppends (fun _ => none) id
        ([(sampleEvent .true, .never)] ++ [(sampleEvent .one, .never)])).file =
      (runAppends (fun _ => none) id [(sampleEvent .true, .never)]).file ∧
      (∀ event, ∃ e, appendResult (fun _ => none) id (runAppends (fun _ => none) id
        ([(sampleEvent .true, .never)] ++ [(sampleEvent .one, .never)])).file event = .error e) ∧
      ∃ e, readEvents (fun _ => none) (runAppends (fun _ => none) id
        ([(sampleEvent .true, .never)] ++ [(sampleEvent .one, .never)])).file = .error e :=
  spoiled_for_good (fun _ => none) id [(sampleEvent .true, .never)] [(sampleEvent .one, .never)]
    (by rw [runAppends_singleton]; rfl)

end Runs

end Plumber.Evidence
