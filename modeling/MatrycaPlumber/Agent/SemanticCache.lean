import MatrycaPlumber.System.Dict
import MatrycaPlumber.System.OrderedCache
import MatrycaPlumber.System.Transition
import MatrycaPlumber.Text.Basic
import Mathlib.Algebra.Order.Ring.Rat
import Mathlib.Tactic.Linarith

/-! The semantic cache: one map of recent payloads for the process, in front of a directory
of JSON files for each graph. -/
namespace Plumber.SemanticCache

open PyText PyDict Transition

variable {Root Payload Digest : Type}

/-- The arguments that name an entry. -/
structure CacheKey (Root : Type) where
  graphRoot : Root
  cacheNamespace : Str
  cacheKey : Str
  deriving DecidableEq

/-- The size of a payload is that of its JSON text, and `envTtl` is in seconds. -/
structure Settings (Payload Digest : Type) where
  sha256 : Str → Digest
  payloadWithinLimit : Payload → Bool
  memoryMaxEntries : Nat
  envTtl : Int

/-- The graph is not part of the text that is hashed. -/
def Settings.digest (S : Settings Payload Digest) (k : CacheKey Root) : Digest :=
  S.sha256 (k.cacheNamespace ++ ':' :: k.cacheKey)

/-- What a file of the cache holds. -/
structure Envelope (Payload : Type) where
  cacheNamespace : Str
  cacheKey : Str
  createdAt : ℚ
  ttlSeconds : Int
  payload : Payload

/-- The entry that a file of a graph was written for. -/
def Envelope.source (f : Envelope Payload) (graphRoot : Root) : CacheKey Root where
  graphRoot := graphRoot
  cacheNamespace := f.cacheNamespace
  cacheKey := f.cacheKey

/-- `source` is the entry that the payload was put for, which the process does not keep. -/
structure MemoryEntry (Root Payload : Type) where
  expiresAt : ℚ
  payload : Payload
  source : CacheKey Root

/-- A call that has changed what the cache should hold. -/
inductive Call (Root Payload : Type) where
  | put (k : CacheKey Root) (now : ℚ) (ttl : Int) (payload : Payload)
  | evict (k : CacheKey Root)

def Call.key : Call Root Payload → CacheKey Root
  | .put k _ _ _ => k
  | .evict k => k

/-- The state of the cache, and the calls so far with the last one first. -/
structure System (Root Payload Digest : Type) where
  memory : OrderedCache Digest (MemoryEntry Root Payload) := {}
  files : Dict (Root × Digest) (Envelope Payload) := ∅
  history : List (Call Root Payload) := []

/-- What the file system lets a call do. -/
structure Access where
  readOnly : Bool := false
  readable : Bool := true
  unlinked : Bool := true

/-- What `cache_get` returns. A call is blocked when it takes the lock of the map while it
holds it. -/
inductive Answer (Payload : Type) where
  | blocked
  | nothing
  | found (payload : Payload)

inductive Action (Root Payload Digest : Type) where
  | put (k : CacheKey Root) (access : Access) (now : ℚ) (ttlSeconds : Option Int)
      (payload : Payload)
  | get (k : CacheKey Root) (access : Access) (now : ℚ)
  | evict (k : CacheKey Root) (access : Access)
  | forget (kept : Digest → Bool)

variable [DecidableEq Root] [DecidableEq Digest]

namespace Settings

variable (S : Settings Payload Digest) (s : System Root Payload Digest)

def memoryPut (digest : Digest) (entry : MemoryEntry Root Payload) : System Root Payload Digest :=
  { s with memory := (s.memory.setLast digest entry).trim S.memoryMaxEntries }

/-- Under the read-only policy, the entry stays. -/
def cacheEvict (access : Access) (k : CacheKey Root) : System Root Payload Digest :=
  if access.readOnly then s
  else
    { s with
      memory := s.memory.pop (S.digest k)
      files := if access.unlinked then s.files.erase (k.graphRoot, S.digest k) else s.files }

def Accepts (access : Access) (payload : Payload) : Prop :=
  S.payloadWithinLimit payload ∧ ¬access.readOnly
  deriving Decidable

/-- A payload that is too large is not put, and none is under the read-only policy. -/
def cachePut (access : Access) (now : ℚ) (ttlSeconds : Option Int) (payload : Payload)
    (k : CacheKey Root) : System Root Payload Digest :=
  if S.Accepts access payload then
    let ttl := ttlSeconds.getD S.envTtl
    let envelope := ⟨k.cacheNamespace, k.cacheKey, now, ttl, payload⟩
    S.memoryPut { s with files := s.files.insert (k.graphRoot, S.digest k) envelope }
      (S.digest k) ⟨now + ttl, payload, k⟩
  else s

/-- `cache_get` after a miss in the map. -/
def getFromFile (access : Access) (now : ℚ) (k : CacheKey Root) :
    Answer Payload × System Root Payload Digest :=
  match s.files.lookup (k.graphRoot, S.digest k) with
  | none => (.nothing, s)
  | some f =>
      if !access.readable then (.nothing, s)
      else if f.ttlSeconds < now - f.createdAt then (.nothing, S.cacheEvict s access k)
      else if !S.payloadWithinLimit f.payload then (.nothing, S.cacheEvict s access k)
      else
        (.found f.payload,
          S.memoryPut s (S.digest k)
            ⟨f.createdAt + f.ttlSeconds, f.payload, f.source k.graphRoot⟩)

def cacheGet (access : Access) (now : ℚ) (k : CacheKey Root) :
    Answer Payload × System Root Payload Digest :=
  match s.memory.get (S.digest k) with
  | none => S.getFromFile s access now k
  | some entry =>
      if now ≤ entry.expiresAt then
        if S.payloadWithinLimit entry.payload then (.found entry.payload, s)
        else if access.readOnly then (.nothing, s)
        else (.blocked, s)
      else S.getFromFile { s with memory := s.memory.pop (S.digest k) } access now k

end Settings

variable (S : Settings Payload Digest)

/-- Memory may lose any of its entries between two calls. -/
def step (s : System Root Payload Digest) :
    Action Root Payload Digest → Option (System Root Payload Digest)
  | .put k access now ttlSeconds payload =>
      some { S.cachePut s access now ttlSeconds payload k with
        history := .put k now (ttlSeconds.getD S.envTtl) payload :: s.history }
  | .get k access now => some (S.cacheGet s access now k).2
  | .evict k access =>
      some { S.cacheEvict s access k with history := .evict k :: s.history }
  | .forget kept =>
      some { s with
        memory := { s.memory with entries := s.memory.entries.filter fun e => kept e.1 } }

/-- The last call that put or evicted an entry. -/
def latest (history : List (Call Root Payload)) (k : CacheKey Root) :
    Option (Call Root Payload) :=
  history.find? fun call => call.key = k

/-- A payload is that of the last put of the entry, which no eviction has followed, and it
has not outlived its time. -/
def Answer.Right (history : List (Call Root Payload)) (k : CacheKey Root) (now : ℚ) :
    Answer Payload → Prop
  | .blocked => False
  | .nothing => True
  | .found payload => ∃ (createdAt : ℚ) (ttl : Int),
      latest history k = some (.put k createdAt ttl payload) ∧ now - createdAt ≤ ttl

namespace System

variable (s : System Root Payload Digest) (k : CacheKey Root)

/-- Neither the map nor the graph has a payload that was put for the entry. -/
def Free : Prop :=
  (∀ entry ∈ s.memory.entries, entry.2.source ≠ k) ∧
    ∀ f, s.files.lookup (k.graphRoot, S.digest k) = some f → f.source k.graphRoot ≠ k

/-- No payload under the digest of the entry that has not expired was put for another
graph, or for another namespace and key. -/
def Own (now : ℚ) : Prop :=
  (∀ entry, s.memory.get (S.digest k) = some entry → now ≤ entry.expiresAt → entry.source = k) ∧
    ∀ f, s.files.lookup (k.graphRoot, S.digest k) = some f → now - f.createdAt ≤ f.ttlSeconds →
      f.source k.graphRoot = k

end System

/-- A put or an eviction that is refused is of an entry without a payload. -/
def Accepted (s : System Root Payload Digest) : Action Root Payload Digest → Prop
  | .put k access _ _ payload => S.Accepts access payload ∨ s.Free S k
  | .evict k access => (¬access.readOnly ∧ access.unlinked) ∨ s.Free S k
  | _ => True

section Invariant

variable {S} {s t : System Root Payload Digest} {k : CacheKey Root}

/-- A payload under the digest of its entry that is the one last put for it. -/
structure Kept (S : Settings Payload Digest) (history : List (Call Root Payload)) (digest : Digest)
    (source : CacheKey Root) (createdAt : ℚ) (ttl : Int) (payload : Payload) : Prop where
  digest : S.digest source = digest
  within : S.payloadWithinLimit payload = true
  latest : latest history source = some (.put source createdAt ttl payload)

structure Invariant (S : Settings Payload Digest) (s : System Root Payload Digest) : Prop where
  memory : ∀ entry ∈ s.memory.entries, ∃ (createdAt : ℚ) (ttl : Int),
    entry.2.expiresAt = createdAt + ttl ∧
      Kept S s.history entry.1 entry.2.source createdAt ttl entry.2.payload
  files : ∀ graphRoot digest f, s.files.lookup (graphRoot, digest) = some f →
    Kept S s.history digest (f.source graphRoot) f.createdAt f.ttlSeconds f.payload

theorem invariant_empty : Invariant S ({} : System Root Payload Digest) where
  memory _ hMem := by cases hMem
  files _ _ _ hFile := by cases hFile

omit [DecidableEq Digest] in
/-- A call for another entry leaves the last put of this one. -/
theorem Kept.cons {history : List (Call Root Payload)} {digest : Digest} {source : CacheKey Root}
    {createdAt : ℚ} {ttl : Int} {payload : Payload} {call : Call Root Payload}
    (h : Kept S history digest source createdAt ttl payload) (hOther : call.key ≠ source) :
    Kept S (call :: history) digest source createdAt ttl payload where
  digest := h.digest
  within := h.within
  latest := by
    rw [SemanticCache.latest, List.find?_cons_of_neg (by simpa using hOther)]
    exact h.latest

/-- Losing payloads keeps the others. -/
theorem Invariant.lose (h : Invariant S s)
    (hMemory : ∀ entry ∈ t.memory.entries, entry ∈ s.memory.entries)
    (hFiles : ∀ place f, t.files.lookup place = some f → s.files.lookup place = some f)
    (hHistory : t.history = s.history) : Invariant S t where
  memory entry hMem := by
    rw [hHistory]
    exact h.memory entry (hMemory entry hMem)
  files graphRoot digest f hFile := by
    rw [hHistory]
    exact h.files graphRoot digest f (hFiles _ f hFile)

theorem history_cacheEvict (access : Access) :
    (S.cacheEvict s access k).history = s.history := by
  rw [Settings.cacheEvict]
  split <;> rfl

theorem mem_cacheEvict {access : Access} {entry : Digest × MemoryEntry Root Payload}
    (h : entry ∈ (S.cacheEvict s access k).memory.entries) : entry ∈ s.memory.entries := by
  rw [Settings.cacheEvict] at h
  split at h
  · exact h
  · exact (OrderedCache.mem_pop.mp h).1

theorem lookup_cacheEvict {access : Access} {place : Root × Digest} {f : Envelope Payload}
    (h : (S.cacheEvict s access k).files.lookup place = some f) :
    s.files.lookup place = some f := by
  rw [Settings.cacheEvict] at h
  split_ifs at h with hReadOnly hUnlinked
  · exact h
  · simp only [lookup_erase] at h
    split_ifs at h
    exact h
  · exact h

theorem Invariant.cacheEvict (h : Invariant S s) (access : Access) (k : CacheKey Root) :
    Invariant S (S.cacheEvict s access k) :=
  h.lose (fun _ => mem_cacheEvict) (fun _ _ => lookup_cacheEvict) (history_cacheEvict access)

/-- The map takes a payload that is kept. -/
theorem Invariant.memoryPut (h : Invariant S s) {digest : Digest}
    {entry : MemoryEntry Root Payload} {createdAt : ℚ} {ttl : Int}
    (hExpires : entry.expiresAt = createdAt + ttl)
    (hKept : Kept S s.history digest entry.source createdAt ttl entry.payload) :
    Invariant S (S.memoryPut s digest entry) where
  memory other hMem := by
    cases OrderedCache.mem_setLast (OrderedCache.mem_of_mem_trim hMem) with
    | inl hOld => exact h.memory other hOld
    | inr hNew =>
        subst hNew
        exact ⟨createdAt, ttl, hExpires, hKept⟩
  files := h.files

theorem Invariant.getFromFile (h : Invariant S s) (access : Access) (now : ℚ)
    (k : CacheKey Root) : Invariant S (S.getFromFile s access now k).2 := by
  rw [Settings.getFromFile]
  cases hFile : s.files.lookup (k.graphRoot, S.digest k) with
  | none => exact h
  | some f =>
      dsimp only
      split_ifs
      · exact h
      · exact h.cacheEvict access k
      · exact h.cacheEvict access k
      · exact h.memoryPut rfl (h.files _ _ _ hFile)

theorem Invariant.pop (h : Invariant S s) (digest : Digest) :
    Invariant S { s with memory := s.memory.pop digest } :=
  h.lose (fun _ hMem => (OrderedCache.mem_pop.mp hMem).1) (fun _ _ hFile => hFile) rfl

theorem Invariant.cacheGet (h : Invariant S s) (access : Access) (now : ℚ) (k : CacheKey Root) :
    Invariant S (S.cacheGet s access now k).2 := by
  rw [Settings.cacheGet]
  cases s.memory.get (S.digest k) with
  | none => exact h.getFromFile access now k
  | some entry =>
      dsimp only
      split_ifs
      · exact h
      · exact h
      · exact h
      · exact (h.pop (S.digest k)).getFromFile access now k

/-- What is kept for other entries stays kept when a call for an entry without a payload
is recorded. -/
theorem Invariant.record (h : Invariant S s) (call : Call Root Payload)
    (hFree : s.Free S call.key) : Invariant S { s with history := call :: s.history } where
  memory entry hMem := by
    obtain ⟨createdAt, ttl, hExpires, hKept⟩ := h.memory entry hMem
    exact ⟨createdAt, ttl, hExpires, hKept.cons (hFree.1 entry hMem).symm⟩
  files graphRoot digest f hFile := by
    have hKept := h.files graphRoot digest f hFile
    apply hKept.cons
    intro hKey
    have hRoot : call.key.graphRoot = graphRoot := congrArg CacheKey.graphRoot hKey
    have hDigest : S.digest call.key = digest := by rw [hKey, hKept.digest]
    apply hFree.2 f
    · rw [hRoot, hDigest]
      exact hFile
    · rw [hRoot]
      exact hKey.symm

/-- An entry is free once its digest is not in the map and has no file in its graph. -/
theorem Invariant.free (h : Invariant S s) (hMemory : ∀ entry ∈ s.memory.entries,
      entry.1 ≠ S.digest k) (hFile : s.files.lookup (k.graphRoot, S.digest k) = none) :
    s.Free S k := by
  constructor
  · intro entry hMem hSource
    obtain ⟨_, _, _, hKept⟩ := h.memory entry hMem
    apply hMemory entry hMem
    rw [← hKept.digest, hSource]
  · intro f hSome
    rw [hFile] at hSome
    cases hSome

theorem Invariant.free_cacheEvict (h : Invariant S s) {access : Access}
    (hReadOnly : ¬access.readOnly) (hUnlinked : access.unlinked = true) (k : CacheKey Root) :
    (S.cacheEvict s access k).Free S k := by
  apply (h.cacheEvict access k).free
  · intro entry hMem
    rw [Settings.cacheEvict, if_neg hReadOnly] at hMem
    exact (OrderedCache.mem_pop.mp hMem).2
  · rw [Settings.cacheEvict, if_neg hReadOnly]
    simp only [hUnlinked, if_true, lookup_erase]

theorem free_cacheEvict_of_free (h : s.Free S k) (access : Access) :
    (S.cacheEvict s access k).Free S k :=
  ⟨fun entry hMem => h.1 entry (mem_cacheEvict hMem),
    fun f hFile => h.2 f (lookup_cacheEvict hFile)⟩

/-- A put that is accepted replaces all that its digest stood for. -/
theorem Invariant.cachePut (h : Invariant S s) {access : Access} {payload : Payload}
    (hAccepts : S.Accepts access payload) (now : ℚ) (ttlSeconds : Option Int)
    (k : CacheKey Root) :
    Invariant S { S.cachePut s access now ttlSeconds payload k with
      history := .put k now (ttlSeconds.getD S.envTtl) payload :: s.history } := by
  let ttl := ttlSeconds.getD S.envTtl
  have hNew : Kept S (.put k now ttl payload :: s.history) (S.digest k) k now ttl payload :=
    ⟨rfl, hAccepts.1, List.find?_cons_of_pos (by simp [Call.key])⟩
  rw [Settings.cachePut, if_pos hAccepts]
  constructor
  · intro entry hMem
    cases OrderedCache.mem_setLast_iff.mp (OrderedCache.mem_of_mem_trim hMem) with
    | inl hOld =>
        obtain ⟨hOld, hDigest⟩ := OrderedCache.mem_pop.mp hOld
        obtain ⟨createdAt, ttl, hExpires, hKept⟩ := h.memory entry hOld
        refine ⟨createdAt, ttl, hExpires, hKept.cons ?_⟩
        intro hKey
        apply hDigest
        rw [← hKept.digest, ← hKey]
        rfl
    | inr hLast =>
        subst hLast
        exact ⟨now, ttl, rfl, hNew⟩
  · intro graphRoot digest f hFile
    simp only [Settings.memoryPut, lookup_insert] at hFile
    split_ifs at hFile with hPlace
    · obtain ⟨rfl, rfl⟩ := Prod.mk.inj hPlace
      obtain rfl := Option.some.inj hFile
      exact hNew
    · have hKept := h.files graphRoot digest f hFile
      apply hKept.cons
      intro hKey
      apply hPlace
      rw [← hKept.digest, ← hKey]
      exact Prod.ext (congrArg CacheKey.graphRoot hKey).symm rfl

theorem Invariant.step {a : Action Root Payload Digest} (h : Invariant S s)
    (hAccepted : Accepted S s a) (hStep : step S s a = some t) : Invariant S t := by
  cases a with
  | put k access now ttlSeconds payload =>
      obtain rfl := Option.some.inj hStep
      by_cases hAccepts : S.Accepts access payload
      · exact h.cachePut hAccepts now ttlSeconds k
      · rw [Settings.cachePut, if_neg hAccepts]
        exact h.record (.put k now (ttlSeconds.getD S.envTtl) payload)
          (hAccepted.resolve_left hAccepts)
  | get k access now =>
      obtain rfl := Option.some.inj hStep
      exact h.cacheGet access now k
  | evict k access =>
      obtain rfl := Option.some.inj hStep
      have hFree : (S.cacheEvict s access k).Free S k := by
        cases hAccepted with
        | inl hDone => exact h.free_cacheEvict hDone.1 hDone.2 k
        | inr hFree => exact free_cacheEvict_of_free hFree access
      rw [← history_cacheEvict (S := S) (s := s) (k := k) access]
      exact (h.cacheEvict access k).record (.evict k) hFree
  | forget kept =>
      obtain rfl := Option.some.inj hStep
      exact h.lose (fun _ hMem => List.mem_of_mem_filter hMem) (fun _ _ hFile => hFile) rfl

end Invariant

section Answers

variable {S} {s : System Root Payload Digest} {k : CacheKey Root} {now : ℚ}

theorem Invariant.right_getFromFile (h : Invariant S s) (access : Access)
    (hOwn : ∀ f, s.files.lookup (k.graphRoot, S.digest k) = some f →
      now - f.createdAt ≤ f.ttlSeconds → f.source k.graphRoot = k) :
    (S.getFromFile s access now k).1.Right s.history k now := by
  rw [Settings.getFromFile]
  cases hFile : s.files.lookup (k.graphRoot, S.digest k) with
  | none => trivial
  | some f =>
      dsimp only
      split_ifs with hReadable hExpired hLarge
      · trivial
      · trivial
      · trivial
      · have hKept := h.files _ _ f hFile
        rw [hOwn f hFile (not_lt.mp hExpired)] at hKept
        exact ⟨f.createdAt, f.ttlSeconds, hKept.latest, not_lt.mp hExpired⟩

theorem Invariant.right (h : Invariant S s) (access : Access) (hOwn : s.Own S k now) :
    (S.cacheGet s access now k).1.Right s.history k now := by
  rw [Settings.cacheGet]
  cases hGet : s.memory.get (S.digest k) with
  | none => exact h.right_getFromFile access hOwn.2
  | some entry =>
      obtain ⟨createdAt, ttl, hExpires, hKept⟩ := h.memory _ (OrderedCache.mem_of_get hGet)
      dsimp only
      split_ifs with hLive hWithin hReadOnly
      · rw [hOwn.1 entry hGet hLive] at hKept
        refine ⟨createdAt, ttl, hKept.latest, ?_⟩
        linarith
      · trivial
      · exact hWithin hKept.within
      · exact (h.pop (S.digest k)).right_getFromFile access hOwn.2

/-- After calls of which none is refused for an entry that has a payload, a read returns
nothing or what the last put of its own entry stored, if the live payloads under its digest
are its own. -/
theorem right_of_own (run : Run (step S) (Accepted S) {} s) (access : Access)
    (hOwn : s.Own S k now) : (S.cacheGet s access now k).1.Right s.history k now := by
  have hInvariant : Invariant S s :=
    run.invariant invariant_empty fun _ _ _ h hAccepted hStep => h.step hAccepted hStep
  exact hInvariant.right access hOwn

end Answers

section Samples

/-- Settings whose digest is the text itself. -/
def plain : Settings Str Str where
  sha256 := id
  payloadWithinLimit payload := decide (payload.length ≤ 4096)
  memoryMaxEntries := 16
  envTtl := 86400

def lintKey (graphRoot : Str) : CacheKey Str :=
  ⟨graphRoot, "lint".toList, "garden.md".toList⟩

def homeKey : CacheKey Str := lintKey "home".toList

def workKey : CacheKey Str := lintKey "work".toList

/-- The state after a payload was put for the graph `home`. -/
def afterPut : System Str Str Str :=
  (step plain {} (.put homeKey {} 10 none "weeds".toList)).getD {}

theorem run_afterPut : Run (step plain) (Accepted plain) {} afterPut :=
  (Run.refl _).tail (a := .put homeKey {} 10 none "weeds".toList) (.inl (by decide)) rfl

theorem own_afterPut : afterPut.Own plain homeKey 20 := by
  constructor
  · intro entry hGet _
    have hSource : (afterPut.memory.get (plain.digest homeKey)).map MemoryEntry.source =
        some homeKey := by decide
    rw [hGet] at hSource
    exact Option.some.inj hSource
  · intro f hFile _
    have hSource : (afterPut.files.lookup (homeKey.graphRoot, plain.digest homeKey)).map
        (fun f => f.source homeKey.graphRoot) = some homeKey := by decide
    rw [hFile] at hSource
    exact Option.some.inj hSource

theorem right_of_own_home :
    (plain.cacheGet afterPut {} 20 homeKey).1.Right afterPut.history homeKey 20 :=
  right_of_own run_afterPut {} own_afterPut

/-- One graph reads the payload that was put for another. -/
theorem other_graph_is_served :
    ¬∀ s : System Str Str Str, Run (step plain) (fun _ _ => True) {} s → ∀ access now k,
      (plain.cacheGet s access now k).1.Right s.history k now := by
  intro h
  have hRight := h afterPut (run_afterPut.mono fun _ _ _ => trivial) {} 20 workKey
  have hGet : afterPut.memory.get (plain.digest workKey) =
      some ⟨10 + (86400 : Int), "weeds".toList, homeKey⟩ := rfl
  have hAnswer : (plain.cacheGet afterPut {} 20 workKey).1 = .found "weeds".toList := by
    rw [Settings.cacheGet, hGet]
    dsimp only
    rw [if_pos (by norm_num), if_pos (by decide)]
  have hLatest : latest afterPut.history workKey = none := by rfl
  rw [hAnswer] at hRight
  obtain ⟨createdAt, ttl, hPut, _⟩ := hRight
  rw [hLatest] at hPut
  cases hPut

end Samples

end Plumber.SemanticCache
