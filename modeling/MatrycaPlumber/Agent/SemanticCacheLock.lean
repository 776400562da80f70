import MatrycaPlumber.Agent.SemanticCache

/-! The calls of the semantic cache with its lock, which the thread that holds it cannot take
again. -/
namespace Plumber.SemanticCache

open PyText PyDict Transition

variable {Root Payload Digest α : Type} [DecidableEq Root] [DecidableEq Digest]

/-- `with _lock:`. The body is told that the lock is held, and there is no result when the
thread waits for itself. -/
def withLock (held : Bool) (body : Bool → Option α) : Option α :=
  if held then none else body true

namespace Settings

variable (S : Settings Payload Digest) (s : System Root Payload Digest)

/-- `cache_evict`. -/
def lockedEvict (held : Bool) (access : Access) (k : CacheKey Root) :
    Option (System Root Payload Digest) :=
  if access.readOnly then some s
  else
    match withLock held fun _ => some { s with memory := s.memory.pop (S.digest k) } with
    | none => none
    | some s =>
        some
          { s with
            files := if access.unlinked then s.files.erase (k.graphRoot, S.digest k) else s.files }

/-- `cache_put`. -/
def lockedPut (access : Access) (now : ℚ) (ttlSeconds : Option Int) (payload : Payload)
    (k : CacheKey Root) : Option (System Root Payload Digest) :=
  if S.Accepts access payload then
    let ttl := ttlSeconds.getD S.envTtl
    let envelope := ⟨k.cacheNamespace, k.cacheKey, now, ttl, payload⟩
    let s := { s with files := s.files.insert (k.graphRoot, S.digest k) envelope }
    withLock false fun _ => some (S.memoryPut s (S.digest k) ⟨now + ttl, payload, k⟩)
  else some s

/-- The part of `cache_get` under the lock: what it returns there, or that it goes on. -/
def lockedHit (access : Access) (now : ℚ) (k : CacheKey Root) :
    Option (Option (Option Payload) × System Root Payload Digest) :=
  withLock false fun held =>
    match s.memory.get (S.digest k) with
    | none => some (none, s)
    | some entry =>
        if now ≤ entry.expiresAt then
          if S.payloadWithinLimit entry.payload then some (some (some entry.payload), s)
          else
            match S.lockedEvict s held access k with
            | none => none
            | some s => some (some none, s)
        else some (none, { s with memory := s.memory.pop (S.digest k) })

/-- The part of `cache_get` behind it. -/
def lockedFromFile (access : Access) (now : ℚ) (k : CacheKey Root) :
    Option (Option Payload × System Root Payload Digest) :=
  match s.files.lookup (k.graphRoot, S.digest k) with
  | none => some (none, s)
  | some f =>
      if !access.readable then some (none, s)
      else if f.ttlSeconds < now - f.createdAt ∨ !S.payloadWithinLimit f.payload then
        match S.lockedEvict s false access k with
        | none => none
        | some s => some (none, s)
      else
        match withLock false fun _ => some (S.memoryPut s (S.digest k)
            ⟨f.createdAt + f.ttlSeconds, f.payload, f.source k.graphRoot⟩) with
        | none => none
        | some s => some (some f.payload, s)

/-- `cache_get`. -/
def lockedGet (access : Access) (now : ℚ) (k : CacheKey Root) :
    Option (Option Payload × System Root Payload Digest) :=
  match S.lockedHit s access now k with
  | none => none
  | some (some answer, s) => some (answer, s)
  | some (none, s) => S.lockedFromFile s access now k

/-- `validate_cached_model`, for a payload that is a valid model or not. -/
def lockedValidate (access : Access) (payload : Payload) (valid : Bool) (k : CacheKey Root) :
    Option (System Root Payload Digest) :=
  if !S.payloadWithinLimit payload ∨ !valid then S.lockedEvict s false access k else some s

end Settings

inductive Operation (Root Payload : Type) where
  | put (k : CacheKey Root) (access : Access) (now : ℚ) (ttlSeconds : Option Int)
      (payload : Payload)
  | get (k : CacheKey Root) (access : Access) (now : ℚ)
  | evict (k : CacheKey Root) (access : Access)
  | validate (k : CacheKey Root) (access : Access) (payload : Payload) (valid : Bool)

/-- A call, with the limit on payloads that is set when it is made. -/
structure LimitedCall (Root Payload : Type) where
  payloadWithinLimit : Payload → Bool
  operation : Operation Root Payload

def Settings.withLimit (S : Settings Payload Digest) (payloadWithinLimit : Payload → Bool) :
    Settings Payload Digest :=
  { S with payloadWithinLimit := payloadWithinLimit }

variable (S : Settings Payload Digest)

/-- The state after a call that returns. -/
def lockedCall (s : System Root Payload Digest) (call : LimitedCall Root Payload) :
    Option (System Root Payload Digest) :=
  match call.operation with
  | .put k access now ttlSeconds payload =>
      (S.withLimit call.payloadWithinLimit).lockedPut s access now ttlSeconds payload k
  | .get k access now =>
      ((S.withLimit call.payloadWithinLimit).lockedGet s access now k).map Prod.snd
  | .evict k access => (S.withLimit call.payloadWithinLimit).lockedEvict s false access k
  | .validate k access payload valid =>
      (S.withLimit call.payloadWithinLimit).lockedValidate s access payload valid k

/-- The calls of one thread, one after the other. -/
def lockedCalls (s : System Root Payload Digest) :
    List (LimitedCall Root Payload) → Option (System Root Payload Digest)
  | [] => some s
  | call :: calls =>
      match lockedCall S s call with
      | none => none
      | some t => lockedCalls t calls

/-- A read finds a live payload in memory that is over the limit of now, and may evict it. -/
def Outgrown (s : System Root Payload Digest) (call : LimitedCall Root Payload) : Prop :=
  ∃ k access now entry, call.operation = .get k access now ∧
    s.memory.get (S.digest k) = some entry ∧ now ≤ entry.expiresAt ∧
      call.payloadWithinLimit entry.payload = false ∧ access.readOnly = false

section Blocking

variable {S} {s : System Root Payload Digest} {access : Access} {now : ℚ} {k : CacheKey Root}

theorem lockedEvict_free : S.lockedEvict s false access k = some (S.cacheEvict s access k) := by
  rw [Settings.lockedEvict, Settings.cacheEvict]
  split_ifs <;> rfl

theorem lockedEvict_held : S.lockedEvict s true access k = if access.readOnly then some s else none := by
  rw [Settings.lockedEvict]
  split_ifs <;> rfl

theorem lockedPut_eq {ttlSeconds : Option Int} {payload : Payload} :
    S.lockedPut s access now ttlSeconds payload k =
      some (S.cachePut s access now ttlSeconds payload k) := by
  rw [Settings.lockedPut, Settings.cachePut]
  split_ifs <;> rfl

/-- What an answer is with the lock. -/
def Answer.returned : Answer Payload × System Root Payload Digest →
    Option (Option Payload × System Root Payload Digest)
  | (.blocked, _) => none
  | (.nothing, s) => some (none, s)
  | (.found payload, s) => some (some payload, s)

theorem lockedFromFile_eq :
    S.lockedFromFile s access now k = Answer.returned (S.getFromFile s access now k) := by
  rw [Settings.lockedFromFile, Settings.getFromFile]
  cases s.files.lookup (k.graphRoot, S.digest k) with
  | none => rfl
  | some f =>
      dsimp only
      rw [lockedEvict_free]
      split_ifs with hReadable hGone hExpired hLarge hExpired hLarge
      · rfl
      · rfl
      · rfl
      · exact absurd hGone (not_or.mpr ⟨hExpired, hLarge⟩)
      · exact absurd (Or.inl hExpired) hGone
      · exact absurd (Or.inr hLarge) hGone
      · rfl

/-- The calls with the lock return what the calls without it do, unless they are blocked. -/
theorem lockedGet_eq :
    S.lockedGet s access now k = Answer.returned (S.cacheGet s access now k) := by
  have hHit : S.lockedHit s access now k =
      match s.memory.get (S.digest k) with
      | none => some (none, s)
      | some entry =>
          if now ≤ entry.expiresAt then
            if S.payloadWithinLimit entry.payload then some (some (some entry.payload), s)
            else
              match S.lockedEvict s true access k with
              | none => none
              | some s => some (some none, s)
          else some (none, { s with memory := s.memory.pop (S.digest k) }) := rfl
  rw [Settings.lockedGet, hHit, Settings.cacheGet]
  cases s.memory.get (S.digest k) with
  | none => exact lockedFromFile_eq
  | some entry =>
      dsimp only
      rw [lockedEvict_held]
      split_ifs with hLive hWithin hReadOnly
      · rfl
      · rfl
      · rfl
      · exact lockedFromFile_eq

theorem lockedGet_isSome_iff : (S.lockedGet s access now k).isSome ↔
    ¬∃ entry, s.memory.get (S.digest k) = some entry ∧ now ≤ entry.expiresAt ∧
      S.payloadWithinLimit entry.payload = false ∧ access.readOnly = false := by
  have hFile (t : System Root Payload Digest) :
      (Answer.returned (S.getFromFile t access now k)).isSome := by
    rw [Settings.getFromFile]
    cases t.files.lookup (k.graphRoot, S.digest k) with
    | none => rfl
    | some f =>
        dsimp only
        split_ifs <;> rfl
  rw [lockedGet_eq, Settings.cacheGet]
  cases hGet : s.memory.get (S.digest k) with
  | none =>
      refine iff_of_true (hFile s) ?_
      rintro ⟨entry, hEq, -⟩
      cases hEq
  | some entry =>
      dsimp only
      split_ifs with hLive hWithin hReadOnly
      · refine iff_of_true rfl ?_
        rintro ⟨other, hEq, -, hOver, -⟩
        cases hEq
        rw [hWithin] at hOver
        cases hOver
      · refine iff_of_true rfl ?_
        rintro ⟨other, -, -, -, hWritable⟩
        rw [hReadOnly] at hWritable
        cases hWritable
      · refine iff_of_false Bool.false_ne_true (not_not.mpr ⟨entry, rfl, hLive, ?_, ?_⟩)
        · simpa using hWithin
        · simpa using hReadOnly
      · refine iff_of_true (hFile _) ?_
        rintro ⟨other, hEq, hOther, -⟩
        cases hEq
        exact hLive hOther

/-- A call returns exactly when it is no read of a payload that has outgrown the limit. -/
theorem lockedCall_isSome_iff (call : LimitedCall Root Payload) :
    (lockedCall S s call).isSome ↔ ¬Outgrown S s call := by
  obtain ⟨payloadWithinLimit, operation⟩ := call
  cases operation with
  | put k access now ttlSeconds payload =>
      refine iff_of_true ?_ ?_
      · rw [lockedCall]
        dsimp only
        rw [lockedPut_eq]
        rfl
      · rintro ⟨k, access, now, entry, hEq, -⟩
        cases hEq
  | get k access now =>
      rw [lockedCall]
      dsimp only
      rw [Option.isSome_map, lockedGet_isSome_iff, not_iff_not]
      constructor
      · rintro ⟨entry, hEntry⟩
        exact ⟨k, access, now, entry, rfl, hEntry⟩
      · rintro ⟨k', access', now', entry, hEq, hEntry⟩
        cases hEq
        exact ⟨entry, hEntry⟩
  | evict k access =>
      refine iff_of_true ?_ ?_
      · rw [lockedCall]
        dsimp only
        rw [lockedEvict_free]
        rfl
      · rintro ⟨k, access, now, entry, hEq, -⟩
        cases hEq
  | validate k access payload valid =>
      refine iff_of_true ?_ ?_
      · rw [lockedCall]
        dsimp only
        rw [Settings.lockedValidate, lockedEvict_free]
        split_ifs <;> rfl
      · rintro ⟨k, access, now, entry, hEq, -⟩
        cases hEq

end Blocking

/-- The calls of a thread all return exactly when none of them reads a payload from memory that
has outgrown the limit of now. -/
theorem lockedCalls_isSome_iff (s : System Root Payload Digest)
    (calls : List (LimitedCall Root Payload)) :
    (lockedCalls S s calls).isSome ↔ ∀ before call after, calls = before ++ call :: after →
      ∀ t, lockedCalls S s before = some t → ¬Outgrown S t call := by
  induction calls generalizing s with
  | nil => exact iff_of_true rfl (by simp)
  | cons call calls ih =>
      rw [lockedCalls]
      cases hCall : lockedCall S s call with
      | none =>
          refine iff_of_false nofun fun h => ?_
          have hReturns := (lockedCall_isSome_iff call).mpr (h [] call calls rfl s rfl)
          rw [hCall] at hReturns
          cases hReturns
      | some u =>
          dsimp only
          rw [ih]
          constructor
          · intro h before other after hSplit t hBefore
            cases before with
            | nil =>
                cases hSplit
                cases hBefore
                rw [← lockedCall_isSome_iff, hCall]
                rfl
            | cons first before =>
                cases hSplit
                rw [lockedCalls, hCall] at hBefore
                exact h before other after rfl t hBefore
          · intro h before other after hSplit t hBefore
            apply h (call :: before) other after (by rw [hSplit]; rfl) t
            rw [lockedCalls, hCall]
            exact hBefore

/-- Settings whose payloads are told by their sizes. -/
def sized : Settings ℕ Str where
  sha256 := id
  payloadWithinLimit _ := true
  memoryMaxEntries := 16
  envTtl := 86400

/-- A payload of 5000 bytes is put, and read when the limit has been set to 4096 bytes. -/
theorem outgrown_read_blocks :
    lockedCalls sized ({} : System Str ℕ Str)
      [⟨fun size => decide (size ≤ 262144), .put homeKey {} 10 none 5000⟩,
        ⟨fun size => decide (size ≤ 4096), .get homeKey {} 20⟩] = none := by
  have hPut : lockedCall sized ({} : System Str ℕ Str)
      ⟨fun size => decide (size ≤ 262144), .put homeKey {} 10 none 5000⟩ =
        some ((sized.withLimit fun size => decide (size ≤ 262144)).cachePut {} {} 10 none 5000
          homeKey) := lockedPut_eq
  have hGet : ((sized.withLimit fun size => decide (size ≤ 262144)).cachePut
      ({} : System Str ℕ Str) {} 10 none 5000 homeKey).memory.get (sized.digest homeKey) =
        some ⟨10 + (86400 : Int), 5000, homeKey⟩ := rfl
  rw [lockedCalls, hPut]
  dsimp only
  rw [lockedCalls]
  cases hRead : lockedCall sized ((sized.withLimit fun size => decide (size ≤ 262144)).cachePut
      {} {} 10 none 5000 homeKey) ⟨fun size => decide (size ≤ 4096), .get homeKey {} 20⟩ with
  | none => rfl
  | some t =>
      have hReturns := (lockedCall_isSome_iff _).mp (Option.isSome_of_eq_some hRead)
      exact absurd ⟨homeKey, {}, 20, _, rfl, hGet, by norm_num, by decide, rfl⟩ hReturns

end Plumber.SemanticCache
