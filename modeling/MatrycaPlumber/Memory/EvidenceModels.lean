import Mathlib.Data.List.Sort
import MatrycaPlumber.Text.JsonPrint
import MatrycaPlumber.Text.Stripping

/-! The evidence events of the archive, what their constructors accept, and their canonical
text. -/
namespace Plumber.Evidence

open PyText PyJson

section Fields

def isLower (c : Char) : Bool := 'a' ≤ c && c ≤ 'z'

def isDecimal (c : Char) : Bool := '0' ≤ c && c ≤ '9'

/-- `_IDENTIFIER`. -/
def isIdentifier : Str → Bool
  | [] => false
  | c :: s =>
      isLower c && s.length ≤ 63 &&
        s.all fun d => isLower d || isDecimal d || d = '_' || d = '.' || d = '-'

/-- `_SHA256`. -/
def isSha256 (s : Str) : Bool :=
  s.length = 64 && s.all fun c => isDecimal c || ('a' ≤ c && c ≤ 'f')

/-- The digits of a text at a place, as a number. -/
def field? (s : Str) (start len : ℕ) : Option ℕ :=
  let part := (s.drop start).take len
  if part.length = len && part.all isDecimal then
    some (part.foldl (fun n c => 10 * n + (c.toNat - '0'.toNat)) 0)
  else none

def daysInMonth (year month : ℕ) : ℕ :=
  if month = 2 then
    if year % 4 = 0 && (year % 100 != 0 || year % 400 = 0) then 29 else 28
  else if month ∈ [4, 6, 9, 11] then 30
  else 31

/-- The seconds of an `isoformat` end it, but for microseconds that are not zero. -/
def isFraction (s : Str) : Bool :=
  s.drop 19 = ['Z'] || (s[19]? = some '.' && (field? s 20 6).any (0 < ·) && s.drop 26 = ['Z'])

/-- A timestamp as `_timestamp` returns it: the `isoformat` of a time in UTC, with a `Z`. -/
def isTimestamp (s : Str) : Bool :=
  s.length ≤ 27 && (s.all fun c => isDecimal c || c ∈ ['-', 'T', ':', '.', 'Z']) &&
    match field? s 0 4, field? s 5 2, field? s 8 2, field? s 11 2, field? s 14 2, field? s 17 2 with
    | some year, some month, some day, some hour, some minute, some second =>
        s[4]? = some '-' && s[7]? = some '-' && s[10]? = some 'T' && s[13]? = some ':' &&
          s[16]? = some ':' && 1 ≤ year && 1 ≤ month && month ≤ 12 && 1 ≤ day &&
          day ≤ daysInMonth year month && hour < 24 && minute < 60 && second < 60 && isFraction s
    | _, _, _, _, _, _ => false

abbrev Identifier := {s : Str // isIdentifier s = true}

abbrev Sha256 := {s : Str // isSha256 s = true}

abbrev Timestamp := {s : Str // isTimestamp s = true}

/-- `EvidenceContractError`, with its text. -/
abbrev Contract := Except String

def identifier (name : String) (value : Str) : Contract Identifier :=
  if h : isIdentifier (strip value) = true then .ok ⟨strip value, h⟩
  else .error ("invalid_" ++ name)

def lowerHex (c : Char) : Char := if 'A' ≤ c ∧ c ≤ 'F' then Char.ofNat (c.toNat + 32) else c

/-- Of all the characters that `lower` changes, only `A` to `F` become hexadecimal digits. -/
def sha256 (name : String) (value : Str) : Contract Sha256 :=
  if h : isSha256 ((strip value).map lowerHex) = true then .ok ⟨(strip value).map lowerHex, h⟩
  else .error ("invalid_" ++ name)

/-- A normalized timestamp stays as it is; other spellings are read by `fromisoformat`. -/
def timestamp (fromisoformat : Str → Option Timestamp) (name : String) (value : Str) :
    Contract Timestamp :=
  if h : isTimestamp (strip value) = true then .ok ⟨strip value, h⟩
  else
    match fromisoformat (strip value) with
    | some parsed => .ok parsed
    | none => .error ("invalid_" ++ name)

end Fields

section Records

structure EvidenceRef where
  sourceKind : Identifier
  sourceId : Sha256
  revisionDigest : Sha256
  deriving DecidableEq

def refSortKey (ref : EvidenceRef) : List Str :=
  [ref.sourceKind.1, ref.sourceId.1, ref.revisionDigest.1]

/-- What the constructor of a candidate says about its references. -/
def checkRefs (refs : List EvidenceRef) : Contract Unit :=
  if refs = [] then .error "missing_evidence_refs"
  else if 32 < refs.length then .error "too_many_evidence_refs"
  else if refs.insertionSort (fun a b => ¬ refSortKey b < refSortKey a) ≠ refs then
    .error "evidence_refs_not_canonical"
  else if ¬ (refs.map refSortKey).Nodup then .error "duplicate_evidence_ref"
  else .ok ()

/-- A proposed memory; its status is always `proposed`. -/
structure MemoryCandidate where
  candidateId : Sha256
  candidateKind : Identifier
  observedAt : Timestamp
  evidenceRefs : List EvidenceRef
  checked : checkRefs evidenceRefs = .ok ()
  deriving DecidableEq

/-- The values of the field that are equal to `EVIDENCE_SCHEMA_VERSION`: `1`, and `True`, which
is an `int` that the constructor does not tell from it. -/
inductive SchemaVersion where
  | one
  | true
  deriving DecidableEq

/-- One observation; its type is always `candidate_observed`. -/
structure EvidenceEvent where
  candidate : MemoryCandidate
  recordedAt : Timestamp
  schemaVersion : SchemaVersion
  deriving DecidableEq

end Records

section Encoding

def key (name : String) : List ℕ := name.toList.map Char.toNat

def text (s : Str) : Json := .str (s.map Char.toNat)

/-- `to_dict` with its keys sorted, as `json.dumps` writes them. -/
def EvidenceRef.members (ref : EvidenceRef) : List (List ℕ × Json) :=
  [(key "revision_digest", text ref.revisionDigest.1), (key "source_id", text ref.sourceId.1),
    (key "source_kind", text ref.sourceKind.1)]

def MemoryCandidate.members (candidate : MemoryCandidate) : List (List ℕ × Json) :=
  [(key "candidate_id", text candidate.candidateId.1),
    (key "candidate_kind", text candidate.candidateKind.1),
    (key "evidence_refs", .arr (candidate.evidenceRefs.map fun ref => .obj ref.members)),
    (key "observed_at", text candidate.observedAt.1), (key "status", text "proposed".toList)]

def SchemaVersion.toJson : SchemaVersion → Json
  | .one => .number "1".toList
  | .true => .bool Bool.true

def EvidenceEvent.members (event : EvidenceEvent) : List (List ℕ × Json) :=
  [(key "candidate", .obj event.candidate.members), (key "event_type", text "candidate_observed".toList),
    (key "recorded_at", text event.recordedAt.1),
    (key "schema_version", event.schemaVersion.toJson)]

/-- `canonical_event_bytes`. -/
def canonicalEventBytes (event : EvidenceEvent) : Str := dumps (.obj event.members)

end Encoding

section Decoding

/-- A member of a dictionary: a later one replaces an earlier one with the same key. -/
def get? (members : List (List ℕ × Json)) (name : String) : Option Json :=
  ((members.filter fun m => m.1 = key name).getLast?).map Prod.snd

def requireExactKeys (members : List (List ℕ × Json)) (expected : List String) : Contract Unit :=
  if (∀ k ∈ members.map Prod.fst, k ∈ expected.map key) ∧
      ∀ k ∈ expected.map key, k ∈ members.map Prod.fst then
    .ok ()
  else .error "unexpected_fields"

def requiredString (members : List (List ℕ × Json)) (name : String) : Contract Str :=
  match get? members name with
  | some (.str codes) => .ok (codes.map Char.ofNat)
  | _ => .error ("invalid_" ++ name)

/-- An integer, as it is written. -/
def requiredInt (members : List (List ℕ × Json)) (name : String) : Contract Str :=
  match get? members name with
  | some (.number w) =>
      if isInteger w ∨ w.head? = some '-' ∧ isInteger w.tail then .ok w
      else .error ("invalid_" ++ name)
  | _ => .error ("invalid_" ++ name)

def EvidenceRef.fromDict (members : List (List ℕ × Json)) : Contract EvidenceRef := do
  requireExactKeys members ["source_kind", "source_id", "revision_digest"]
  let sourceKind ← requiredString members "source_kind"
  let sourceId ← requiredString members "source_id"
  let revisionDigest ← requiredString members "revision_digest"
  return ⟨← identifier "source_kind" sourceKind, ← sha256 "source_id" sourceId,
    ← sha256 "revision_digest" revisionDigest⟩

def refsFromList : List Json → Contract (List EvidenceRef)
  | [] => .ok []
  | .obj members :: refs => do
      let ref ← EvidenceRef.fromDict members
      let refs ← refsFromList refs
      return ref :: refs
  | _ :: _ => .error "invalid_evidence_ref"

variable (fromisoformat : Str → Option Timestamp)

def MemoryCandidate.fromDict (members : List (List ℕ × Json)) : Contract MemoryCandidate := do
  requireExactKeys members
    ["candidate_id", "candidate_kind", "evidence_refs", "observed_at", "status"]
  let refs ← match get? members "evidence_refs" with
    | some (.arr refs) => refsFromList refs
    | _ => .error "invalid_evidence_refs"
  let status ← requiredString members "status"
  if status ≠ "proposed".toList then throw "invalid_candidate_status"
  let candidateId ← requiredString members "candidate_id"
  let candidateKind ← requiredString members "candidate_kind"
  let observedAt ← requiredString members "observed_at"
  let candidateId ← sha256 "candidate_id" candidateId
  let candidateKind ← identifier "candidate_kind" candidateKind
  let observedAt ← timestamp fromisoformat "observed_at" observedAt
  match h : checkRefs refs with
  | .ok () => return ⟨candidateId, candidateKind, observedAt, refs, h⟩
  | .error e => throw e

def EvidenceEvent.fromDict (members : List (List ℕ × Json)) : Contract EvidenceEvent := do
  requireExactKeys members ["candidate", "event_type", "recorded_at", "schema_version"]
  let candidate ← match get? members "candidate" with
    | some (.obj candidate) => .ok candidate
    | _ => .error "invalid_candidate"
  let eventType ← requiredString members "event_type"
  if eventType ≠ "candidate_observed".toList then throw "invalid_event_type"
  let candidate ← MemoryCandidate.fromDict fromisoformat candidate
  let recordedAt ← requiredString members "recorded_at"
  let schemaVersion ← requiredInt members "schema_version"
  let recordedAt ← timestamp fromisoformat "recorded_at" recordedAt
  if schemaVersion ≠ "1".toList then throw "unsupported_schema_version"
  return ⟨candidate, recordedAt, .one⟩

end Decoding

section RoundTrip

theorem map_ofNat_toNat (s : Str) : (s.map Char.toNat).map Char.ofNat = s := by
  rw [List.map_map]
  have hId : Char.ofNat ∘ Char.toNat = id := funext Char.ofNat_toNat
  rw [hId, List.map_id]

/-- What the fields are made of: no blanks, no quotes, no backslashes, nothing beyond ASCII. -/
def isFieldChar (c : Char) : Bool :=
  33 ≤ c.toNat && c.toNat < 127 && c != '"' && c != '\\'

theorem toNat_le {a b : Char} : a ≤ b ↔ a.toNat ≤ b.toNat :=
  Char.le_def.trans UInt32.le_iff_toNat_le

theorem isFieldChar_of_range {c : Char} (hRange : (45 ≤ c.toNat ∧ c.toNat ≤ 90) ∨
    (95 ≤ c.toNat ∧ c.toNat ≤ 122)) : isFieldChar c = true := by
  have hNe {d : Char} (hD : d.toNat < 45 ∨ (90 < d.toNat ∧ d.toNat < 95)) : (c != d) = true := by
    rw [bne_iff_ne]
    rintro rfl
    omega
  rw [isFieldChar, hNe (by decide), hNe (by decide), Bool.and_true, Bool.and_true,
    Bool.and_eq_true, decide_eq_true_eq, decide_eq_true_eq]
  omega

theorem isDecimal_range {c : Char} (h : isDecimal c = true) : 48 ≤ c.toNat ∧ c.toNat ≤ 57 := by
  rw [isDecimal, Bool.and_eq_true, decide_eq_true_eq, decide_eq_true_eq, toNat_le, toNat_le] at h
  exact h

theorem isLower_range {c : Char} (h : isLower c = true) : 97 ≤ c.toNat ∧ c.toNat ≤ 122 := by
  rw [isLower, Bool.and_eq_true, decide_eq_true_eq, decide_eq_true_eq, toNat_le, toNat_le] at h
  exact h

theorem isFieldChar_identifier (x : Identifier) : ∀ c ∈ x.1, isFieldChar c = true := by
  obtain ⟨s, h⟩ := x
  cases s with
  | nil => exact fun c hMem => absurd hMem List.not_mem_nil
  | cons c s =>
      rw [isIdentifier, Bool.and_eq_true, Bool.and_eq_true, List.all_eq_true] at h
      obtain ⟨⟨hLower, -⟩, hRest⟩ := h
      rw [List.forall_mem_cons]
      constructor
      · have hRange := isLower_range hLower
        exact isFieldChar_of_range (by omega)
      · intro d hD
        have hKind := hRest d hD
        simp only [Bool.or_eq_true, decide_eq_true_eq] at hKind
        rcases hKind with (((hLower | hDecimal) | rfl) | rfl) | rfl
        · have hRange := isLower_range hLower
          exact isFieldChar_of_range (by omega)
        · have hRange := isDecimal_range hDecimal
          exact isFieldChar_of_range (by omega)
        · decide
        · decide
        · decide

theorem isHex_range {c : Char} (h : (isDecimal c || (decide ('a' ≤ c) && decide (c ≤ 'f'))) = true) :
    (48 ≤ c.toNat ∧ c.toNat ≤ 57) ∨ (97 ≤ c.toNat ∧ c.toNat ≤ 102) := by
  rw [Bool.or_eq_true, Bool.and_eq_true, decide_eq_true_eq, decide_eq_true_eq, toNat_le,
    toNat_le] at h
  rcases h with hDecimal | hLetter
  · exact .inl (isDecimal_range hDecimal)
  · exact .inr hLetter

theorem isHex_sha256 (x : Sha256) : ∀ c ∈ x.1,
    (48 ≤ c.toNat ∧ c.toNat ≤ 57) ∨ (97 ≤ c.toNat ∧ c.toNat ≤ 102) := by
  obtain ⟨s, h⟩ := x
  rw [isSha256, Bool.and_eq_true, List.all_eq_true] at h
  exact fun c hC => isHex_range (h.2 c hC)

theorem isFieldChar_sha256 (x : Sha256) : ∀ c ∈ x.1, isFieldChar c = true := by
  intro c hC
  have hRange := isHex_sha256 x c hC
  exact isFieldChar_of_range (by omega)

theorem isFieldChar_timestamp (x : Timestamp) : ∀ c ∈ x.1, isFieldChar c = true := by
  obtain ⟨s, h⟩ := x
  rw [isTimestamp, Bool.and_eq_true, Bool.and_eq_true, List.all_eq_true] at h
  intro c hC
  have hKind := h.1.2 c hC
  simp only [Bool.or_eq_true, decide_eq_true_eq, List.mem_cons, List.not_mem_nil, or_false] at hKind
  rcases hKind with hDecimal | rfl | rfl | rfl | rfl | rfl
  · have hRange := isDecimal_range hDecimal
    exact isFieldChar_of_range (by omega)
  all_goals decide

theorem strip_field {s : Str} (h : ∀ c ∈ s, isFieldChar c = true) : strip s = s := by
  apply strip_of_words
  intro c hC
  have hField := h c hC
  simp only [isFieldChar, Bool.and_eq_true, decide_eq_true_eq] at hField
  simp only [isSpace, Bool.or_eq_false_iff, Bool.and_eq_false_iff, decide_eq_false_iff_not,
    beq_eq_false_iff_ne]
  omega

theorem plain_field {s : Str} (h : ∀ c ∈ s, isFieldChar c = true) : PlainText (s.map Char.toNat) := by
  intro n hN
  obtain ⟨c, hC, rfl⟩ := List.mem_map.mp hN
  have hField := h c hC
  simp only [isFieldChar, Bool.and_eq_true, decide_eq_true_eq, bne_iff_ne] at hField
  obtain ⟨⟨⟨hLow, hHigh⟩, hQuote⟩, hSlash⟩ := hField
  have hNat {d : Char} (hD : c ≠ d) : c.toNat ≠ d.toNat := fun hEq => hD (Char.toNat_inj.mp hEq)
  exact ⟨by omega, hHigh, hNat hQuote, hNat hSlash⟩

theorem identifier_self (name : String) (x : Identifier) : identifier name x.1 = .ok x := by
  have hStrip := strip_field (isFieldChar_identifier x)
  rw [identifier, dif_pos (by rw [hStrip]; exact x.2)]
  congr 1
  exact Subtype.ext hStrip

theorem sha256_self (name : String) (x : Sha256) : sha256 name x.1 = .ok x := by
  have hStrip : (strip x.1).map lowerHex = x.1 := by
    rw [strip_field (isFieldChar_sha256 x)]
    have hSame : x.1.map lowerHex = x.1.map id := by
      apply List.map_congr_left
      intro c hC
      have hRange := isHex_sha256 x c hC
      rw [lowerHex, if_neg, id]
      rw [toNat_le, toNat_le]
      have hA : 'A'.toNat = 65 := rfl
      have hF : 'F'.toNat = 70 := rfl
      omega
    rw [hSame, List.map_id]
  rw [sha256, dif_pos (by rw [hStrip]; exact x.2)]
  congr 1
  exact Subtype.ext hStrip

theorem timestamp_self (fromisoformat : Str → Option Timestamp) (name : String) (x : Timestamp) :
    timestamp fromisoformat name x.1 = .ok x := by
  have hStrip := strip_field (isFieldChar_timestamp x)
  rw [timestamp, dif_pos (by rw [hStrip]; exact x.2)]
  congr 1
  exact Subtype.ext hStrip

variable (fromisoformat : Str → Option Timestamp)

theorem requireExactKeys_of {members : List (List ℕ × Json)} (names : List String)
    {expected : List String} (hKeys : members.map Prod.fst = names.map key)
    (h : (∀ k ∈ names.map key, k ∈ expected.map key) ∧
      ∀ k ∈ expected.map key, k ∈ names.map key) :
    requireExactKeys members expected = .ok () := by
  rw [requireExactKeys, hKeys, if_pos h]

theorem EvidenceRef.fromDict_members (ref : EvidenceRef) :
    EvidenceRef.fromDict ref.members = .ok ref := by
  have hKeys : requireExactKeys ref.members ["source_kind", "source_id", "revision_digest"] =
      .ok () :=
    requireExactKeys_of ["revision_digest", "source_id", "source_kind"] rfl (by decide)
  have hKind : requiredString ref.members "source_kind" =
      .ok ((ref.sourceKind.1.map Char.toNat).map Char.ofNat) := rfl
  have hId : requiredString ref.members "source_id" =
      .ok ((ref.sourceId.1.map Char.toNat).map Char.ofNat) := rfl
  have hDigest : requiredString ref.members "revision_digest" =
      .ok ((ref.revisionDigest.1.map Char.toNat).map Char.ofNat) := rfl
  rw [EvidenceRef.fromDict, hKeys, hKind, hId, hDigest, map_ofNat_toNat, map_ofNat_toNat,
    map_ofNat_toNat]
  simp only [Except.bind, bind, identifier_self, sha256_self]
  rfl

theorem refsFromList_members (refs : List EvidenceRef) :
    refsFromList (refs.map fun ref => .obj ref.members) = .ok refs := by
  induction refs with
  | nil => rfl
  | cons ref refs ih =>
      rw [List.map_cons, refsFromList, ref.fromDict_members, ih]
      rfl

/-- A candidate is read back from its dictionary. -/
theorem MemoryCandidate.fromDict_members (candidate : MemoryCandidate) :
    MemoryCandidate.fromDict fromisoformat candidate.members = .ok candidate := by
  have hKeys : requireExactKeys candidate.members
      ["candidate_id", "candidate_kind", "evidence_refs", "observed_at", "status"] = .ok () :=
    requireExactKeys_of ["candidate_id", "candidate_kind", "evidence_refs", "observed_at", "status"]
      rfl (by decide)
  have hRefs : get? candidate.members "evidence_refs" =
      some (.arr (candidate.evidenceRefs.map fun ref => .obj ref.members)) := rfl
  have hStatus : requiredString candidate.members "status" = .ok "proposed".toList := rfl
  have hId : requiredString candidate.members "candidate_id" =
      .ok ((candidate.candidateId.1.map Char.toNat).map Char.ofNat) := rfl
  have hKind : requiredString candidate.members "candidate_kind" =
      .ok ((candidate.candidateKind.1.map Char.toNat).map Char.ofNat) := rfl
  have hObserved : requiredString candidate.members "observed_at" =
      .ok ((candidate.observedAt.1.map Char.toNat).map Char.ofNat) := rfl
  rw [MemoryCandidate.fromDict, hKeys, hRefs, hStatus, hId, hKind, hObserved, map_ofNat_toNat,
    map_ofNat_toNat, map_ofNat_toNat]
  simp only [Except.bind, bind, refsFromList_members, identifier_self, sha256_self, timestamp_self,
    ne_eq, not_true_eq_false, if_false]
  split
  · rfl
  · next hError =>
      rw [candidate.checked] at hError
      cases hError

/-- An event whose version is the integer is read back from its dictionary. -/
theorem EvidenceEvent.fromDict_members (event : EvidenceEvent)
    (h : event.schemaVersion = .one) :
    EvidenceEvent.fromDict fromisoformat event.members = .ok event := by
  have hKeys : requireExactKeys event.members
      ["candidate", "event_type", "recorded_at", "schema_version"] = .ok () :=
    requireExactKeys_of ["candidate", "event_type", "recorded_at", "schema_version"] rfl (by decide)
  have hCandidate : get? event.members "candidate" = some (.obj event.candidate.members) := rfl
  have hType : requiredString event.members "event_type" = .ok "candidate_observed".toList := rfl
  have hRecorded : requiredString event.members "recorded_at" =
      .ok ((event.recordedAt.1.map Char.toNat).map Char.ofNat) := rfl
  have hVersion : requiredInt event.members "schema_version" = .ok "1".toList := by
    obtain ⟨candidate, recordedAt, schemaVersion⟩ := event
    obtain rfl : schemaVersion = .one := h
    rfl
  rw [EvidenceEvent.fromDict, hKeys, hCandidate, hType, hRecorded, hVersion, map_ofNat_toNat]
  simp only [Except.bind, bind, MemoryCandidate.fromDict_members, timestamp_self,
    ne_eq, not_true_eq_false, if_false]
  obtain ⟨candidate, recordedAt, schemaVersion⟩ := event
  obtain rfl : schemaVersion = .one := h
  rfl

theorem plain_text {s : Str} (h : ∀ c ∈ s, isFieldChar c = true) : Plain (text s) := by
  rw [text, Plain]
  exact plain_field h

theorem plainText_key (name : String) (h : ∀ c ∈ name.toList, isFieldChar c = true) :
    PlainText (key name) := plain_field h

theorem plain_ref (ref : EvidenceRef) : PlainMembers ref.members := by
  simp only [EvidenceRef.members, PlainMembers]
  exact ⟨plainText_key _ (by decide), plain_text (isFieldChar_sha256 _),
    plainText_key _ (by decide), plain_text (isFieldChar_sha256 _),
    plainText_key _ (by decide), plain_text (isFieldChar_identifier _), trivial⟩

theorem plain_refs (refs : List EvidenceRef) :
    PlainItems (refs.map fun ref => .obj ref.members) := by
  induction refs with
  | nil => trivial
  | cons ref refs ih =>
      rw [List.map_cons, PlainItems, Plain]
      exact ⟨plain_ref ref, ih⟩

theorem plain_candidate (candidate : MemoryCandidate) : PlainMembers candidate.members := by
  simp only [MemoryCandidate.members, PlainMembers, Plain]
  exact ⟨plainText_key _ (by decide), plain_text (isFieldChar_sha256 _),
    plainText_key _ (by decide), plain_text (isFieldChar_identifier _),
    plainText_key _ (by decide), plain_refs _,
    plainText_key _ (by decide), plain_text (isFieldChar_timestamp _),
    plainText_key _ (by decide), plain_text (by decide), trivial⟩

theorem plain_event (event : EvidenceEvent) : Plain (.obj event.members) := by
  have hVersion : Plain event.schemaVersion.toJson := by
    cases event.schemaVersion with
    | one => exact ⟨⟨by decide, by decide⟩, by rfl⟩
    | true => trivial
  simp only [EvidenceEvent.members, PlainMembers, Plain]
  exact ⟨plainText_key _ (by decide), plain_candidate _, plainText_key _ (by decide),
    plain_text (by decide), plainText_key _ (by decide), plain_text (isFieldChar_timestamp _),
    plainText_key _ (by decide), hVersion, trivial⟩

end RoundTrip

end Plumber.Evidence
