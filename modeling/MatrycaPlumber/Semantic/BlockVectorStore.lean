import MatrycaPlumber.System.Dict
import MatrycaPlumber.System.Transition
import MatrycaPlumber.Text.Basic

/-! The file with the vectors of the blocks, and the page updates of it: what a call reads
before it takes the file lock, and what it does under the lock. -/
namespace Plumber.BlockVectors

open PyText PyDict Transition

/-- The embeddings of one block, whose numbers are of any type. -/
structure BlockVectorRecord (V : Type) where
  pageTitle : Str
  blockText : Str
  applicabilityText : Str
  vecContent : List V
  vecApplicability : List V
  updatedAt : Str
  deriving DecidableEq

variable {V : Type}

abbrev Blocks (V : Type) := Dict Str (BlockVectorRecord V)

abbrev Entries (V : Type) := List (Sigma fun _ : Str => BlockVectorRecord V)

structure BlockVectorStore (V : Type) where
  embeddingDim : Option ℕ
  blocks : Blocks V

/-- The arguments of `apply_page_block_vector_updates`. -/
structure PageUpdate (V : Type) where
  pageTitle : Str
  upserts : Blocks V
  keepUuids : List Str

section Validation

/-- One turn of the loop of `_validate_block_vectors`; `none` is its early return. -/
def validateVector (vector : List V) (newDim : Option ℕ) : Option (Option ℕ) :=
  if vector = [] then none
  else
    match newDim with
    | none => some (some vector.length)
    | some dim => if vector.length = dim then some (some dim) else none

/-- `_validate_block_vectors`. -/
def validateBlockVectors (record : BlockVectorRecord V) (embeddingDim : Option ℕ) :
    Bool × Option ℕ :=
  match (validateVector record.vecContent embeddingDim).bind
      (validateVector record.vecApplicability) with
  | none => (false, embeddingDim)
  | some newDim => (true, newDim)

/-- The loop that fills `validated`, with the dimension that it ends with. -/
def validateUpserts : Entries V → Option ℕ → Entries V × Option ℕ
  | [], embeddingDim => ([], embeddingDim)
  | entry :: rest, embeddingDim =>
      let (ok, newDim) := validateBlockVectors entry.2 embeddingDim
      let (validated, finalDim) := validateUpserts rest newDim
      (if ok then entry :: validated else validated, finalDim)

theorem validateUpserts_sublist (entries : Entries V) (embeddingDim : Option ℕ) :
    (validateUpserts entries embeddingDim).1.Sublist entries := by
  induction entries generalizing embeddingDim with
  | nil => exact .slnil
  | cons entry rest ih =>
      rw [validateUpserts]
      dsimp only
      split_ifs
      · exact (ih _).cons_cons _
      · exact (ih _).cons _

/-- `validated`. -/
def PageUpdate.validated (update : PageUpdate V) (embeddingDim : Option ℕ) : Blocks V where
  entries := (validateUpserts update.upserts.entries embeddingDim).1
  nodupKeys := update.upserts.nodupKeys.sublist (validateUpserts_sublist _ _)

def PageUpdate.validatedDim (update : PageUpdate V) (embeddingDim : Option ℕ) : Option ℕ :=
  (validateUpserts update.upserts.entries embeddingDim).2

end Validation

section Creation

/-- `BlockVectorStore._validate_vector`. -/
def BlockVectorStore.validateVector (store : BlockVectorStore V) (vector : List V) :
    Bool × BlockVectorStore V :=
  if vector = [] then (false, store)
  else
    match store.embeddingDim with
    | none => (true, { store with embeddingDim := some vector.length })
    | some expected => (decide (vector.length = expected), store)

/-- `BlockVectorStore.upsert`. -/
def BlockVectorStore.upsert (store : BlockVectorStore V) (blockUuid : Str)
    (record : BlockVectorRecord V) : BlockVectorStore V :=
  match store.validateVector record.vecContent with
  | (false, store) => store
  | (true, store) =>
      match store.validateVector record.vecApplicability with
      | (false, store) => store
      | (true, store) => { store with blocks := store.blocks.insert blockUuid record }

/-- The store that is saved when there was no file. -/
def createdStore (validated : Blocks V) : BlockVectorStore V :=
  validated.entries.foldl (fun store entry => store.upsert entry.1 entry.2) ⟨none, ∅⟩

end Creation

section Merging

/-- What the streaming loop has written, and what it leaves. -/
structure MergeLoop (V : Type) where
  written : Entries V
  pending : Blocks V
  pruned : ℕ
  changed : Bool

/-- The loop over the records of the old file. -/
def mergeLoop (update : PageUpdate V) : Entries V → Blocks V → MergeLoop V
  | [], pending => ⟨[], pending, 0, false⟩
  | ⟨blockUuid, record⟩ :: rest, pending =>
      if record.pageTitle = update.pageTitle ∧ blockUuid ∉ update.keepUuids then
        let loop := mergeLoop update rest pending
        { loop with pruned := loop.pruned + 1, changed := true }
      else
        match pending.lookup blockUuid with
        | some replacement =>
            let loop := mergeLoop update rest (pending.erase blockUuid)
            { loop with written := ⟨blockUuid, replacement⟩ :: loop.written, changed := true }
        | none =>
            let loop := mergeLoop update rest pending
            { loop with written := ⟨blockUuid, record⟩ :: loop.written }

/-- The records of other pages, and those of the page that it keeps. -/
def PageUpdate.keeps (update : PageUpdate V) (blockUuid : Str) (record : BlockVectorRecord V) :
    Bool :=
  decide (record.pageTitle ≠ update.pageTitle ∨ blockUuid ∈ update.keepUuids)

def MergeLoop.entries (loop : MergeLoop V) : Entries V := loop.written ++ loop.pending.entries

theorem dlookup_mergeLoop (update : PageUpdate V) {old : Entries V} (hNodup : old.NodupKeys)
    (pending : Blocks V) (blockUuid : Str) :
    (mergeLoop update old pending).entries.dlookup blockUuid =
      (pending.lookup blockUuid).or
        ((old.dlookup blockUuid).filter (update.keeps blockUuid)) := by
  induction old generalizing pending with
  | nil => simp [mergeLoop, MergeLoop.entries, AList.lookup]
  | cons entry rest ih =>
      obtain ⟨uuid, record⟩ := entry
      rw [List.nodupKeys_cons] at hNodup
      have hRest : rest.dlookup uuid = none := List.dlookup_eq_none.mpr hNodup.1
      have hNext (pending : Blocks V) := ih hNodup.2 pending
      rw [mergeLoop]
      split_ifs with hPruned
      · have hKeeps : update.keeps uuid record = false := by
          simp [PageUpdate.keeps, hPruned]
        show (mergeLoop update rest pending).entries.dlookup blockUuid = _
        rw [hNext]
        by_cases hEq : blockUuid = uuid
        · subst hEq
          simp [hRest, Option.filter, hKeeps]
        · rw [List.dlookup_cons_ne _ _ hEq]
      · have hKeeps : update.keeps uuid record = true := by
          rw [not_and_or, not_not] at hPruned
          simpa [PageUpdate.keeps] using hPruned
        cases hPending : pending.lookup uuid with
        | some replacement =>
            show List.dlookup blockUuid (⟨uuid, replacement⟩ ::
              (mergeLoop update rest (pending.erase uuid)).entries) = _
            by_cases hEq : blockUuid = uuid
            · subst hEq
              simp [hPending]
            · rw [List.dlookup_cons_ne _ _ hEq, List.dlookup_cons_ne _ _ hEq, hNext,
                lookup_erase, if_neg hEq]
        | none =>
            show List.dlookup blockUuid (⟨uuid, record⟩ ::
              (mergeLoop update rest pending).entries) = _
            by_cases hEq : blockUuid = uuid
            · subst hEq
              simp [hPending, Option.filter, hKeeps]
            · rw [List.dlookup_cons_ne _ _ hEq, List.dlookup_cons_ne _ _ hEq, hNext]

theorem nodupKeys_mergeLoop (update : PageUpdate V) {old : Entries V} (hNodup : old.NodupKeys)
    (pending : Blocks V) : (mergeLoop update old pending).entries.NodupKeys := by
  induction old generalizing pending with
  | nil => exact pending.nodupKeys
  | cons entry rest ih =>
      obtain ⟨uuid, record⟩ := entry
      rw [List.nodupKeys_cons] at hNodup
      have hRest : rest.dlookup uuid = none := List.dlookup_eq_none.mpr hNodup.1
      rw [mergeLoop]
      split_ifs with hPruned
      · exact ih hNodup.2 pending
      · cases hPending : pending.lookup uuid with
        | some replacement =>
            apply List.nodupKeys_cons.mpr
            refine ⟨?_, ih hNodup.2 (pending.erase uuid)⟩
            apply List.dlookup_eq_none.mp
            show (mergeLoop update rest (pending.erase uuid)).entries.dlookup uuid = none
            rw [dlookup_mergeLoop update hNodup.2, lookup_erase, if_pos rfl, hRest]
            rfl
        | none =>
            apply List.nodupKeys_cons.mpr
            refine ⟨?_, ih hNodup.2 pending⟩
            apply List.dlookup_eq_none.mp
            show (mergeLoop update rest pending).entries.dlookup uuid = none
            rw [dlookup_mergeLoop update hNodup.2, hPending, hRest]
            rfl

/-- The blocks of the file after the merge. -/
def mergedBlocks (update : PageUpdate V) (old validated : Blocks V) : Blocks V where
  entries := (mergeLoop update old.entries validated).entries
  nodupKeys := nodupKeys_mergeLoop update old.nodupKeys validated

/-- What goes wrong while a file is read: its header cannot be read, or the stream of its
records ends with an error after some of them. -/
structure ReadErrors where
  header : Bool
  stream : Option ℕ
  deriving DecidableEq

/-- The section under the lock for a file that exists. -/
def lockedMerge (update : PageUpdate V) (embeddingDim : Option ℕ) (errors : ReadErrors)
    (store : BlockVectorStore V) : BlockVectorStore V × ℕ × ℕ :=
  let headerDim := if errors.header then none else store.embeddingDim
  let validated := update.validated embeddingDim
  let indexed := validated.entries.length
  match errors.stream with
  | some records =>
      (store, indexed, (mergeLoop update (store.blocks.entries.take records) validated).pruned)
  | none =>
      let loop := mergeLoop update store.blocks.entries validated
      let changed := decide (validated.entries ≠ []) || loop.changed
      if changed then
        (⟨(update.validatedDim embeddingDim).or headerDim,
          mergedBlocks update store.blocks validated⟩, indexed, loop.pruned)
      else (store, indexed, loop.pruned)

end Merging

section System

/-- Where a call stands. The dimension is that of the header, as it was read. -/
inductive Phase
  | start
  | found
  | read (headerDim : Option ℕ)
  | saving (headerDim : Option ℕ)
  | merging (headerDim : Option ℕ)
  | returned (indexed pruned : ℕ)
  deriving DecidableEq

inductive Step
  | isFile
  | readHeader (fails : Bool)
  | isFileAgain
  | locked (errors : ReadErrors)

structure State (V : Type) where
  file : Option (BlockVectorStore V)
  phase : ℕ → Phase

def State.goto (s : State V) (call : ℕ) (phase : Phase) : State V :=
  { s with phase := Function.update s.phase call phase }

theorem State.goto_self (s : State V) (call : ℕ) (phase : Phase) :
    (s.goto call phase).phase call = phase :=
  Function.update_self ..

theorem State.goto_of_ne (s : State V) {call other : ℕ} (h : other ≠ call) (phase : Phase) :
    (s.goto call phase).phase other = s.phase other :=
  Function.update_of_ne h ..

/-- What a call does next. A file that is there does not go away. -/
def step (updates : ℕ → PageUpdate V) (s : State V) (event : ℕ × Step) : Option (State V) :=
  let call := event.1
  let update := updates call
  match s.phase call, event.2 with
  | .start, .isFile =>
      match s.file with
      | none => some (s.goto call (.read none))
      | some _ => some (s.goto call .found)
  | .found, .readHeader fails =>
      match s.file with
      | none => none
      | some store => some (s.goto call (.read (if fails then none else store.embeddingDim)))
  | .read headerDim, .isFileAgain =>
      match s.file with
      | none =>
          if (update.validated headerDim).entries = [] then some (s.goto call (.returned 0 0))
          else some (s.goto call (.saving headerDim))
      | some _ => some (s.goto call (.merging headerDim))
  | .saving headerDim, .locked _ =>
      let validated := update.validated headerDim
      some (State.goto { s with file := some (createdStore validated) } call
        (.returned validated.entries.length 0))
  | .merging headerDim, .locked errors =>
      match s.file with
      | none => none
      | some store =>
          let (merged, indexed, pruned) := lockedMerge update headerDim errors store
          some (State.goto { s with file := some merged } call (.returned indexed pruned))
  | _, _ => none

end System

end Plumber.BlockVectors
