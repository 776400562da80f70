import Mathlib.Data.Set.Card
import MatrycaPlumber.Semantic.BlockVectorStore
import MatrycaPlumber.System.Linearization

/-! Page updates of the vector file have the effect of the same updates one after another,
as long as the file is still what each one saw when it takes the lock. -/
namespace Plumber.BlockVectors

open PyText PyDict Transition Linearization

variable {V : Type}

/-- What the file holds, whether it exists or not. -/
@[ext]
structure Catalog (V : Type) where
  dim : Option ℕ
  records : Str → Option (BlockVectorRecord V)

def catalog : Option (BlockVectorStore V) → Catalog V
  | none => ⟨none, fun _ => none⟩
  | some store => ⟨store.embeddingDim, fun blockUuid => store.blocks.lookup blockUuid⟩

/-- All vectors have the dimension of the header. -/
def Catalog.Uniform (c : Catalog V) : Prop :=
  ∀ blockUuid record, c.records blockUuid = some record →
    c.dim = some record.vecContent.length ∧
      record.vecApplicability.length = record.vecContent.length

/-- The records of the page that the update removes. -/
def PageUpdate.removed (update : PageUpdate V) (c : Catalog V) : Set Str :=
  {blockUuid | ∃ record, c.records blockUuid = some record ∧ update.keeps blockUuid record = false}

/-- What a call is for: it removes the records of its page that it does not keep, stores the
upserts of the right dimension, and returns both numbers. -/
noncomputable def applyUpdate (update : PageUpdate V) (c : Catalog V) : Catalog V × ℕ × ℕ :=
  (⟨update.validatedDim c.dim, fun blockUuid =>
      ((update.validated c.dim).lookup blockUuid).or
        ((c.records blockUuid).filter (update.keeps blockUuid))⟩,
    (update.validated c.dim).entries.length, (update.removed c).ncard)

section Validation

theorem validateBlockVectors_spec (record : BlockVectorRecord V) (dim : Option ℕ) :
    validateBlockVectors record dim = (false, dim) ∨
      validateBlockVectors record dim = (true, some record.vecContent.length) ∧
        record.vecContent ≠ [] ∧ record.vecApplicability.length = record.vecContent.length ∧
        (dim = none ∨ dim = some record.vecContent.length) := by
  rw [validateBlockVectors]
  cases hBoth : (validateVector record.vecContent dim).bind
      (validateVector record.vecApplicability) with
  | none => exact .inl rfl
  | some newDim =>
      apply Or.inr
      obtain ⟨first, hFirst, hSecond⟩ := Option.bind_eq_some_iff.mp hBoth
      unfold validateVector at hFirst hSecond
      split_ifs at hFirst hSecond with hContent hApplicability
      have hDim : first = some record.vecContent.length ∧
          (dim = none ∨ dim = some record.vecContent.length) := by
        cases dim with
        | none => exact ⟨(Option.some.inj hFirst).symm, .inl rfl⟩
        | some n =>
            dsimp only at hFirst
            split_ifs at hFirst with hLength
            rw [hLength]
            exact ⟨(Option.some.inj hFirst).symm, .inr rfl⟩
      obtain ⟨rfl, hOld⟩ := hDim
      dsimp only at hSecond
      split_ifs at hSecond with hLength
      rw [← Option.some.inj hSecond]
      exact ⟨rfl, hContent, hLength, hOld⟩

/-- All accepted records have the final dimension, and a known dimension does not change. -/
theorem validateUpserts_spec (entries : Entries V) (dim : Option ℕ) :
    (∀ entry ∈ (validateUpserts entries dim).1, entry.2.vecContent ≠ [] ∧
      entry.2.vecApplicability.length = entry.2.vecContent.length ∧
      (validateUpserts entries dim).2 = some entry.2.vecContent.length) ∧
    (∀ n, dim = some n → (validateUpserts entries dim).2 = some n) ∧
    ((validateUpserts entries dim).1 = [] → (validateUpserts entries dim).2 = dim) := by
  induction entries generalizing dim with
  | nil => simp [validateUpserts]
  | cons entry rest ih =>
      rw [validateUpserts]
      rcases validateBlockVectors_spec entry.2 dim with hBad | ⟨hGood, hContent, hLength, hDim⟩
      · rw [hBad]
        exact ih dim
      · rw [hGood]
        obtain ⟨hAll, hKnown, -⟩ := ih (some entry.2.vecContent.length)
        refine ⟨?_, ?_, fun hNil => absurd hNil (List.cons_ne_nil _ _)⟩
        · intro accepted hAccepted
          rcases List.mem_cons.mp hAccepted with rfl | hRest
          · exact ⟨hContent, hLength, hKnown _ rfl⟩
          · exact hAll accepted hRest
        · rintro n rfl
          apply hKnown
          rcases hDim with hNone | hSome
          · cases hNone
          · exact hSome.symm

variable (update : PageUpdate V)

theorem validatedDim_of_nil {dim : Option ℕ} (h : (update.validated dim).entries = []) :
    update.validatedDim dim = dim :=
  (validateUpserts_spec _ dim).2.2 h

theorem validatedDim_of_some (n : ℕ) : update.validatedDim (some n) = some n :=
  (validateUpserts_spec _ _).2.1 n rfl

theorem lookup_validated {dim : Option ℕ} {blockUuid : Str} {record : BlockVectorRecord V}
    (h : (update.validated dim).lookup blockUuid = some record) :
    record.vecContent ≠ [] ∧ record.vecApplicability.length = record.vecContent.length ∧
      update.validatedDim dim = some record.vecContent.length :=
  (validateUpserts_spec _ dim).1 _ (List.of_mem_dlookup h)

/-- What is accepted fixes the dimension. -/
theorem validatedDim_congr {dim other : Option ℕ}
    (h : (update.validated dim).entries = (update.validated other).entries)
    (hNonempty : (update.validated dim).entries ≠ []) :
    update.validatedDim dim = update.validatedDim other := by
  obtain ⟨entry, hEntry⟩ := List.exists_mem_of_ne_nil _ hNonempty
  have hOther : entry ∈ (update.validated other).entries := by rwa [← h]
  have hFirst := ((validateUpserts_spec update.upserts.entries dim).1 entry hEntry).2.2
  have hSecond := ((validateUpserts_spec update.upserts.entries other).1 entry hOther).2.2
  exact hFirst.trans hSecond.symm

theorem applyUpdate_uniform {c : Catalog V} (h : c.Uniform) : (applyUpdate update c).1.Uniform := by
  intro blockUuid record hRecord
  rw [applyUpdate] at hRecord ⊢
  dsimp only at hRecord ⊢
  cases hNew : (update.validated c.dim).lookup blockUuid with
  | some accepted =>
      rw [hNew, Option.some_or] at hRecord
      obtain rfl := Option.some.inj hRecord
      obtain ⟨-, hLength, hDim⟩ := lookup_validated update hNew
      exact ⟨hDim, hLength⟩
  | none =>
      rw [hNew, Option.none_or] at hRecord
      obtain ⟨hDim, hLength⟩ := h blockUuid record (Option.eq_some_of_filter_eq_some hRecord)
      rw [hDim, validatedDim_of_some]
      exact ⟨rfl, hLength⟩

theorem applyUpdate_dim {c : Catalog V} {n : ℕ} (h : c.dim = some n) :
    (applyUpdate update c).1.dim = some n := by
  show update.validatedDim c.dim = some n
  rw [h, validatedDim_of_some]

end Validation

section Creation

theorem upsert_of_valid {store : BlockVectorStore V} {blockUuid : Str}
    {record : BlockVectorRecord V} (hContent : record.vecContent ≠ [])
    (hLength : record.vecApplicability.length = record.vecContent.length)
    (hDim : store.embeddingDim = none ∨ store.embeddingDim = some record.vecContent.length) :
    store.upsert blockUuid record =
      ⟨some record.vecContent.length, store.blocks.insert blockUuid record⟩ := by
  have hApplicability : record.vecApplicability ≠ [] := by
    intro hNil
    rw [hNil] at hLength
    exact hContent (List.length_eq_zero_iff.mp hLength.symm)
  rcases hDim with hDim | hDim
  all_goals simp [BlockVectorStore.upsert, BlockVectorStore.validateVector, hContent,
    hApplicability, hDim, hLength]

/-- The upserts of accepted records all succeed. -/
theorem foldl_upsert {n : ℕ} {entries : Entries V} (hNodup : entries.NodupKeys)
    (hAll : ∀ entry ∈ entries, entry.2.vecContent ≠ [] ∧
      entry.2.vecApplicability.length = entry.2.vecContent.length ∧
      entry.2.vecContent.length = n)
    (store : BlockVectorStore V) (hDim : store.embeddingDim = none ∨ store.embeddingDim = some n) :
    let final := entries.foldl (fun store entry => store.upsert entry.1 entry.2) store
    (entries ≠ [] → final.embeddingDim = some n) ∧
      (entries = [] → final.embeddingDim = store.embeddingDim) ∧
      ∀ blockUuid, final.blocks.lookup blockUuid =
        (entries.dlookup blockUuid).or (store.blocks.lookup blockUuid) := by
  induction entries generalizing store with
  | nil => simp
  | cons entry rest ih =>
      obtain ⟨uuid, record⟩ := entry
      rw [List.nodupKeys_cons] at hNodup
      obtain ⟨hContent, hLength, rfl⟩ := hAll _ List.mem_cons_self
      dsimp only at hDim
      have hUpsert : store.upsert uuid record =
          ⟨some record.vecContent.length, store.blocks.insert uuid record⟩ :=
        upsert_of_valid hContent hLength hDim
      obtain ⟨hSome, hNil, hLookup⟩ := ih hNodup.2
        (fun later hLater => hAll later (List.mem_cons_of_mem _ hLater))
        (store.upsert uuid record) (.inr (by rw [hUpsert]))
      refine ⟨fun _ => ?_, fun hNil => absurd hNil (List.cons_ne_nil _ _), ?_⟩
      · by_cases hRest : rest = []
        · rw [List.foldl_cons, hNil hRest, hUpsert]
        · exact hSome hRest
      · intro blockUuid
        rw [List.foldl_cons, hLookup, hUpsert, lookup_insert]
        by_cases hEq : blockUuid = uuid
        · subst hEq
          rw [if_pos rfl, List.dlookup_eq_none.mpr hNodup.1, List.dlookup_cons_eq]
          rfl
        · rw [if_neg hEq, List.dlookup_cons_ne _ _ hEq]

variable (update : PageUpdate V)

theorem catalog_createdStore (h : (update.validated none).entries ≠ []) :
    catalog (some (createdStore (update.validated none))) =
      (applyUpdate update (catalog none)).1 := by
  obtain ⟨entry, hEntry⟩ := List.exists_mem_of_ne_nil _ h
  have hSpec := (validateUpserts_spec update.upserts.entries none).1
  have hFinal := (hSpec entry hEntry).2.2
  obtain ⟨hDim, -, hLookup⟩ := foldl_upsert (update.validated none).nodupKeys (by
    intro accepted hAccepted
    obtain ⟨hContent, hLength, hSame⟩ := hSpec accepted hAccepted
    exact ⟨hContent, hLength, Option.some.inj (hSame.symm.trans hFinal)⟩) ⟨none, ∅⟩ (.inl rfl)
  apply Catalog.ext
  · exact (hDim h).trans hFinal.symm
  · funext blockUuid
    exact hLookup blockUuid

theorem removed_none : (update.removed (catalog none)).ncard = 0 := by
  have hEmpty : update.removed (catalog none) = ∅ := by
    apply Set.eq_empty_of_forall_notMem
    rintro blockUuid ⟨record, hRecord, -⟩
    cases hRecord
  rw [hEmpty, Set.ncard_empty]

/-- Without a file an update without accepted records does nothing. -/
theorem applyUpdate_none (h : (update.validated none).entries = []) :
    applyUpdate update (catalog none) = (catalog none, 0, 0) := by
  have hLookup (blockUuid : Str) : (update.validated none).lookup blockUuid = none := by
    rw [AList.lookup, h, List.dlookup_nil]
  rw [applyUpdate, removed_none]
  simp [catalog, validatedDim_of_nil update h, hLookup, h]

theorem createdStore_correct :
    (catalog (some (createdStore (update.validated none))),
      (update.validated none).entries.length, 0) = applyUpdate update (catalog none) := by
  by_cases hNil : (update.validated none).entries = []
  · rw [applyUpdate_none update hNil, createdStore, hNil]
    rfl
  · apply Prod.ext
    · exact catalog_createdStore update hNil
    · exact Prod.ext rfl (removed_none update).symm

end Creation

section Merging

variable (update : PageUpdate V)

theorem mergeLoop_pruned (old : Entries V) (pending : Blocks V) :
    (mergeLoop update old pending).pruned =
      (old.filter fun entry => !update.keeps entry.1 entry.2).length := by
  induction old generalizing pending with
  | nil => rfl
  | cons entry rest ih =>
      obtain ⟨uuid, record⟩ := entry
      rw [mergeLoop]
      split_ifs with hPruned
      · have hKeeps : update.keeps uuid record = false := by simp [PageUpdate.keeps, hPruned]
        rw [List.filter_cons_of_pos (by simp [hKeeps]), List.length_cons, ← ih pending]
      · have hKeeps : update.keeps uuid record = true := by
          rw [not_and_or, not_not] at hPruned
          simpa [PageUpdate.keeps] using hPruned
        rw [List.filter_cons_of_neg (by simp [hKeeps])]
        cases pending.lookup uuid with
        | some replacement => exact ih _
        | none => exact ih _

theorem mergeLoop_unchanged {old : Entries V} {pending : Blocks V}
    (h : (mergeLoop update old pending).changed = false) :
    ∀ entry ∈ old, update.keeps entry.1 entry.2 = true := by
  induction old generalizing pending with
  | nil => exact fun _ hMem => nomatch hMem
  | cons entry rest ih =>
      obtain ⟨uuid, record⟩ := entry
      rw [mergeLoop] at h
      split_ifs at h with hPruned
      have hKeeps : update.keeps uuid record = true := by
        rw [not_and_or, not_not] at hPruned
        simpa [PageUpdate.keeps] using hPruned
      cases hLookup : pending.lookup uuid with
      | some replacement =>
          rw [hLookup] at h
          cases h
      | none =>
          rw [hLookup] at h
          intro other hOther
          rcases List.mem_cons.mp hOther with rfl | hRest
          · exact hKeeps
          · exact ih h other hRest

theorem mergeLoop_idle {old : Entries V} {pending : Blocks V} (hNil : pending.entries = [])
    (hKeeps : ∀ entry ∈ old, update.keeps entry.1 entry.2 = true) :
    (mergeLoop update old pending).changed = false := by
  induction old with
  | nil => rfl
  | cons entry rest ih =>
      obtain ⟨uuid, record⟩ := entry
      have hKept := hKeeps _ List.mem_cons_self
      have hLookup : pending.lookup uuid = none := by
        rw [AList.lookup, hNil, List.dlookup_nil]
      rw [PageUpdate.keeps, decide_eq_true_eq] at hKept
      rw [mergeLoop, if_neg (by tauto), hLookup]
      exact ih fun later hLater => hKeeps later (List.mem_cons_of_mem _ hLater)

theorem ncard_removed (store : BlockVectorStore V) :
    (update.removed (catalog (some store))).ncard =
      (store.blocks.entries.filter fun entry => !update.keeps entry.1 entry.2).length := by
  let uuids := (store.blocks.entries.filter fun entry => !update.keeps entry.1 entry.2).keys
  have hNodup : uuids.Nodup := store.blocks.nodupKeys.sublist List.filter_sublist
  have hSet : update.removed (catalog (some store)) = (uuids.toFinset : Set Str) := by
    ext blockUuid
    simp only [PageUpdate.removed, Set.mem_ofPred_eq, uuids, List.coe_toFinset, List.mem_keys,
      List.mem_filter, Bool.not_eq_true']
    apply exists_congr
    intro record
    exact and_congr_left' AList.mem_lookup_iff
  rw [hSet, Set.ncard_coe_finset, List.toFinset_card_of_nodup hNodup]
  exact List.length_map _

/-- With this dimension the update has nothing to store and nothing to remove. -/
def PageUpdate.Idle (headerDim : Option ℕ) (store : BlockVectorStore V) : Prop :=
  (update.validated headerDim).entries = [] ∧
    ∀ entry ∈ store.blocks.entries, update.keeps entry.1 entry.2 = true

/-- What the section under the lock needs of the file: the upserts that were accepted are
still those for the dimension of the file, and its records can be read. -/
structure MergeOk (headerDim : Option ℕ) (errors : ReadErrors) (store : BlockVectorStore V) :
    Prop where
  same_accepted :
    (update.validated headerDim).entries = (update.validated store.embeddingDim).entries
  header_read : errors.header = true → update.validatedDim headerDim ≠ none ∨
    store.embeddingDim = none ∨ update.Idle headerDim store
  stream_read : errors.stream ≠ none → update.Idle headerDim store

variable {update} {store : BlockVectorStore V} {headerDim : Option ℕ}

theorem PageUpdate.Idle.filter_eq_nil (h : update.Idle headerDim store) :
    (store.blocks.entries.filter fun entry => !update.keeps entry.1 entry.2) = [] := by
  rw [List.filter_eq_nil_iff]
  intro entry hEntry
  simp [h.2 entry hEntry]

theorem PageUpdate.Idle.catalog_eq (h : update.Idle headerDim store)
    (hSame : (update.validated headerDim).entries =
      (update.validated store.embeddingDim).entries) :
    (applyUpdate update (catalog (some store))).1 = catalog (some store) := by
  have hNil : (update.validated store.embeddingDim).entries = [] := hSame.symm.trans h.1
  apply Catalog.ext
  · exact validatedDim_of_nil update hNil
  · funext blockUuid
    show ((update.validated store.embeddingDim).lookup blockUuid).or
      ((store.blocks.lookup blockUuid).filter (update.keeps blockUuid)) =
        store.blocks.lookup blockUuid
    rw [AList.lookup, hNil, List.dlookup_nil, Option.none_or]
    cases hOld : store.blocks.lookup blockUuid with
    | none => rfl
    | some record =>
        have hKeeps := h.2 _ (AList.mem_lookup_iff.mp hOld)
        simp [Option.filter, show update.keeps blockUuid record = true from hKeeps]

/-- The header that is written has the dimension of the accepted records. -/
theorem MergeOk.dim_eq {errors : ReadErrors} (h : MergeOk update headerDim errors store)
    (hHeader : ∀ n, headerDim = some n → store.embeddingDim = some n)
    (hBusy : ¬ update.Idle headerDim store) :
    (update.validatedDim headerDim).or (if errors.header then none else store.embeddingDim) =
      update.validatedDim store.embeddingDim := by
  have hSame : update.validatedDim headerDim ≠ none →
      update.validatedDim headerDim = update.validatedDim store.embeddingDim := by
    intro hKnown
    by_cases hNil : (update.validated headerDim).entries = []
    · rw [validatedDim_of_nil update hNil] at hKnown ⊢
      obtain ⟨n, hDim⟩ := Option.ne_none_iff_exists'.mp hKnown
      rw [hDim, hHeader n hDim, validatedDim_of_some]
    · exact validatedDim_congr update h.same_accepted hNil
  cases hDim : update.validatedDim headerDim with
  | some n =>
      rw [← hSame (by simp [hDim]), hDim]
      rfl
  | none =>
      have hNil : (update.validated headerDim).entries = [] := by
        by_contra hNonempty
        obtain ⟨entry, hEntry⟩ := List.exists_mem_of_ne_nil _ hNonempty
        have hSpec := ((validateUpserts_spec update.upserts.entries headerDim).1 entry hEntry).2.2
        exact absurd (hDim.symm.trans hSpec) (by simp)
      rw [validatedDim_of_nil update (h.same_accepted.symm.trans hNil), Option.none_or]
      split_ifs with hError
      · rcases h.header_read hError with hKnown | hNone | hIdle
        · exact absurd hDim hKnown
        · exact hNone.symm
        · exact absurd hIdle hBusy
      · rfl

theorem lockedMerge_correct {errors : ReadErrors} (h : MergeOk update headerDim errors store)
    (hHeader : ∀ n, headerDim = some n → store.embeddingDim = some n) :
    (catalog (some (lockedMerge update headerDim errors store).1),
      (lockedMerge update headerDim errors store).2) =
        applyUpdate update (catalog (some store)) := by
  have hIndexed : (update.validated headerDim).entries.length =
      (update.validated store.embeddingDim).entries.length := by rw [h.same_accepted]
  -- An update that changes nothing returns the right numbers, wherever it stops.
  have hIdle (hNothing : update.Idle headerDim store) (k : ℕ) (hZero : k = 0) :
      (catalog (some store), (update.validated headerDim).entries.length, k) =
        applyUpdate update (catalog (some store)) := by
    apply Prod.ext
    · exact (hNothing.catalog_eq h.same_accepted).symm
    · apply Prod.ext
      · exact hIndexed
      · show k = (update.removed (catalog (some store))).ncard
        rw [ncard_removed, hNothing.filter_eq_nil, hZero]
        rfl
  rw [lockedMerge]
  cases hStream : errors.stream with
  | some records =>
      have hNothing := h.stream_read (by simp [hStream])
      apply hIdle hNothing
      rw [mergeLoop_pruned, List.length_eq_zero_iff, List.filter_eq_nil_iff]
      intro entry hEntry
      simp [hNothing.2 entry (List.mem_of_mem_take hEntry)]
  | none =>
      by_cases hNothing : update.Idle headerDim store
      · have hUnchanged : (decide ((update.validated headerDim).entries ≠ []) ||
            (mergeLoop update store.blocks.entries (update.validated headerDim)).changed) =
              false := by
          simp [hNothing.1, mergeLoop_idle update hNothing.1 hNothing.2]
        simp only [hUnchanged, Bool.false_eq_true, if_false]
        apply hIdle hNothing
        rw [mergeLoop_pruned, hNothing.filter_eq_nil]
        rfl
      · have hChanged : (decide ((update.validated headerDim).entries ≠ []) ||
            (mergeLoop update store.blocks.entries (update.validated headerDim)).changed) =
              true := by
          by_contra hUnchanged
          rw [Bool.not_eq_true, Bool.or_eq_false_iff, decide_eq_false_iff_not, not_not]
            at hUnchanged
          exact hNothing ⟨hUnchanged.1, mergeLoop_unchanged update hUnchanged.2⟩
        simp only [hChanged, if_true]
        apply Prod.ext
        · apply Catalog.ext
          · exact h.dim_eq hHeader hNothing
          · funext blockUuid
            show (mergedBlocks update store.blocks (update.validated headerDim)).lookup blockUuid =
              ((update.validated store.embeddingDim).lookup blockUuid).or
                ((store.blocks.lookup blockUuid).filter (update.keeps blockUuid))
            rw [AList.lookup, mergedBlocks, dlookup_mergeLoop update store.blocks.nodupKeys,
              AList.lookup, AList.lookup, h.same_accepted]
            rfl
        · apply Prod.ext
          · exact hIndexed
          · exact (mergeLoop_pruned update _ _).trans (ncard_removed update store).symm

end Merging

section Runs

def Phase.result? : Phase → Option (ℕ × ℕ)
  | .returned indexed pruned => some (indexed, pruned)
  | _ => none

/-- The dimension that a call has read. -/
def Phase.headerDim? : Phase → Option ℕ
  | .read headerDim => headerDim
  | .saving headerDim => headerDim
  | .merging headerDim => headerDim
  | _ => none

/-- The file is made by one call only, and a call merges into the file that it has
checked its upserts for. -/
def StepOk (updates : ℕ → PageUpdate V) (s : State V) (event : ℕ × Step) : Prop :=
  match s.phase event.1, event.2 with
  | .saving _, .locked _ => s.file = none
  | .merging headerDim, .locked errors =>
      ∀ store, s.file = some store → MergeOk (updates event.1) headerDim errors store
  | _, _ => True

/-- The calls that have returned have the effect and the results of the same calls in some
order, and all stored vectors have the dimension of the header. -/
structure Correct (updates : ℕ → PageUpdate V) (initial : Catalog V) (s : State V) : Prop where
  explained : Explained (fun call => applyUpdate (updates call)) initial (catalog s.file)
    fun call => (s.phase call).result?
  uniform : (catalog s.file).Uniform

structure Invariant (updates : ℕ → PageUpdate V) (initial : Catalog V) (s : State V) : Prop
    extends Correct updates initial s where
  header : ∀ call n, (s.phase call).headerDim? = some n → (catalog s.file).dim = some n

variable {updates : ℕ → PageUpdate V} {initial : Catalog V} {s t : State V} {call : ℕ}

/-- A step of a call that has not come to the file lock. -/
theorem Invariant.goto (h : Invariant updates initial s) {phase : Phase}
    (hBefore : (s.phase call).result? = none) (hAfter : phase.result? = none)
    (hHeader : ∀ n, phase.headerDim? = some n → (catalog s.file).dim = some n) :
    Invariant updates initial (s.goto call phase) := by
  have hResults : (fun other => ((s.goto call phase).phase other).result?) =
      fun other => (s.phase other).result? := by
    funext other
    by_cases hEq : other = call
    · rw [hEq, State.goto_self, hAfter, hBefore]
    · rw [State.goto_of_ne _ hEq]
  constructor
  · constructor
    · rw [hResults]
      exact h.explained
    · exact h.uniform
  · intro other n hRead
    by_cases hEq : other = call
    · rw [hEq, State.goto_self] at hRead
      exact hHeader n hRead
    · rw [State.goto_of_ne _ hEq] at hRead
      exact h.header other n hRead

/-- A call returns what it is for, on the file as it is. -/
theorem Invariant.finish (h : Invariant updates initial s) {file : Option (BlockVectorStore V)}
    {indexed pruned : ℕ} (hBefore : (s.phase call).result? = none)
    (hApply : (catalog file, indexed, pruned) = applyUpdate (updates call) (catalog s.file)) :
    Invariant updates initial
      (State.goto { s with file := file } call (.returned indexed pruned)) := by
  have hFile : catalog file = (applyUpdate (updates call) (catalog s.file)).1 :=
    congrArg Prod.fst hApply
  have hResults : (fun other =>
      ((State.goto { s with file := file } call (.returned indexed pruned)).phase other).result?) =
        Function.update (fun other => (s.phase other).result?) call
          (some (applyUpdate (updates call) (catalog s.file)).2) := by
    funext other
    by_cases hEq : other = call
    · rw [hEq, State.goto_self, Function.update_self, ← hApply]
      rfl
    · rw [State.goto_of_ne _ hEq, Function.update_of_ne hEq]
  constructor
  · constructor
    · rw [hResults]
      show Explained _ initial (catalog file) _
      rw [hFile]
      exact h.explained.return hBefore
    · show (catalog file).Uniform
      rw [hFile]
      exact applyUpdate_uniform _ h.uniform
  · intro other n hRead
    show (catalog file).dim = some n
    rw [hFile]
    apply applyUpdate_dim
    by_cases hEq : other = call
    · rw [hEq, State.goto_self] at hRead
      cases hRead
    · rw [State.goto_of_ne _ hEq] at hRead
      exact h.header other n hRead

/-- Without a file no dimension was read. -/
theorem Invariant.headerDim_of_no_file (h : Invariant updates initial s) (hFile : s.file = none)
    (call : ℕ) : (s.phase call).headerDim? = none := by
  cases hRead : (s.phase call).headerDim? with
  | none => rfl
  | some n =>
      have hDim := h.header call n hRead
      rw [hFile] at hDim
      cases hDim

theorem Invariant.step_of_ok (h : Invariant updates initial s) {event : ℕ × Step}
    (hOk : StepOk updates s event) (hStep : step updates s event = some t) :
    Invariant updates initial t := by
  obtain ⟨call, action⟩ := event
  rw [step] at hStep
  rw [StepOk] at hOk
  dsimp only at hStep hOk
  cases hPhase : s.phase call with
  | start =>
      cases action with
      | isFile =>
          rw [hPhase] at hStep
          have hBefore : (s.phase call).result? = none := by rw [hPhase]; rfl
          cases hFile : s.file with
          | none =>
              rw [hFile] at hStep
              obtain rfl := Option.some.inj hStep
              exact h.goto hBefore rfl (fun n hNone => nomatch hNone)
          | some store =>
              rw [hFile] at hStep
              obtain rfl := Option.some.inj hStep
              exact h.goto hBefore rfl (fun n hNone => nomatch hNone)
      | _ => rw [hPhase] at hStep; cases hStep
  | found =>
      cases action with
      | readHeader fails =>
          rw [hPhase] at hStep
          have hBefore : (s.phase call).result? = none := by rw [hPhase]; rfl
          cases hFile : s.file with
          | none => rw [hFile] at hStep; cases hStep
          | some store =>
              rw [hFile] at hStep
              obtain rfl := Option.some.inj hStep
              apply h.goto hBefore rfl
              intro n hRead
              rw [hFile]
              cases fails with
              | true => cases hRead
              | false => exact hRead
      | _ => rw [hPhase] at hStep; cases hStep
  | read headerDim =>
      cases action with
      | isFileAgain =>
          rw [hPhase] at hStep
          have hBefore : (s.phase call).result? = none := by rw [hPhase]; rfl
          have hHeader (n : ℕ) (hRead : headerDim = some n) : (catalog s.file).dim = some n := by
            apply h.header call n
            rw [hPhase]
            exact hRead
          cases hFile : s.file with
          | none =>
              have hNone : headerDim = none := by
                have hNoFile := h.headerDim_of_no_file hFile call
                rwa [hPhase] at hNoFile
              rw [hFile] at hStep
              dsimp only at hStep
              split_ifs at hStep with hNil
              · obtain rfl := Option.some.inj hStep
                subst hNone
                have hFinish : Invariant updates initial
                    (State.goto { s with file := s.file } call (.returned 0 0)) :=
                  h.finish hBefore (by rw [hFile, applyUpdate_none _ hNil])
                exact hFinish
              · obtain rfl := Option.some.inj hStep
                exact h.goto hBefore rfl hHeader
          | some store =>
              rw [hFile] at hStep
              obtain rfl := Option.some.inj hStep
              exact h.goto hBefore rfl hHeader
      | _ => rw [hPhase] at hStep; cases hStep
  | saving headerDim =>
      cases action with
      | locked errors =>
          rw [hPhase] at hStep hOk
          have hBefore : (s.phase call).result? = none := by rw [hPhase]; rfl
          have hNone : headerDim = none := by
            have hNoFile := h.headerDim_of_no_file hOk call
            rwa [hPhase] at hNoFile
          subst hNone
          obtain rfl := Option.some.inj hStep
          apply h.finish hBefore
          rw [show s.file = none from hOk]
          exact createdStore_correct (updates call)
      | _ => rw [hPhase] at hStep; cases hStep
  | merging headerDim =>
      cases action with
      | locked errors =>
          rw [hPhase] at hStep hOk
          have hBefore : (s.phase call).result? = none := by rw [hPhase]; rfl
          cases hFile : s.file with
          | none => rw [hFile] at hStep; cases hStep
          | some store =>
              have hHeader (n : ℕ) (hRead : headerDim = some n) : store.embeddingDim = some n := by
                have hDim := h.header call n
                rw [hPhase, hFile] at hDim
                exact hDim hRead
              rw [hFile] at hStep
              obtain rfl := Option.some.inj hStep
              apply h.finish hBefore
              rw [hFile]
              exact lockedMerge_correct (hOk store hFile) hHeader
      | _ => rw [hPhase] at hStep; cases hStep
  | returned indexed pruned =>
      rw [hPhase] at hStep
      cases hStep

/-- In a run whose steps under the lock find the file that their calls are meant for, the
calls are linearizable and the dimensions uniform. -/
theorem pageUpdates_correct (updates : ℕ → PageUpdate V) {start s : State V}
    (hStart : ∀ call, start.phase call = .start) (hUniform : (catalog start.file).Uniform)
    (run : Run (step updates) (StepOk updates) start s) :
    Correct updates (catalog start.file) s := by
  have hInit : Invariant updates (catalog start.file) start := by
    constructor
    · constructor
      · apply Explained.start
        intro call
        rw [hStart]
        rfl
      · exact hUniform
    · intro call n hRead
      rw [hStart] at hRead
      cases hRead
  have hFinal := run.invariant (I := Invariant updates (catalog start.file)) hInit
    fun t event u hInvariant hOk hStep => hInvariant.step_of_ok hOk hStep
  exact hFinal.toCorrect

end Runs

section Sample

def sampleRecord (page : Char) : BlockVectorRecord ℕ :=
  ⟨[page], "text".toList, "use".toList, [1], [2], []⟩

/-- The page of the first call is `A`, and that of the others `B`; each has one block. -/
def sampleUpdates (call : ℕ) : PageUpdate ℕ :=
  if call = 0 then
    ⟨['A'], AList.singleton ['a'] (sampleRecord 'A'), [['a']]⟩
  else ⟨['B'], AList.singleton ['b'] (sampleRecord 'B'), [['b']]⟩

def noFile : State ℕ := ⟨none, fun _ => .start⟩

/-- Two calls that both see no file. -/
def bothCreate : List (ℕ × Step) :=
  [(0, .isFile), (1, .isFile), (0, .isFileAgain), (1, .isFileAgain),
    (0, .locked ⟨false, none⟩), (1, .locked ⟨false, none⟩)]

/-- After both the file has the block of the second call only. -/
def bothCreated : State ℕ :=
  (((((noFile.goto 0 (.read none)).goto 1 (.read none)).goto 0 (.saving none)).goto 1
    (.saving none)).goto 0 (.returned 1 0)).goto 1 (.returned 1 0)

theorem second_file_replaces_first :
    ¬ ∀ s : State ℕ, Run (step sampleUpdates) (fun _ _ => True) noFile s →
      Correct sampleUpdates (catalog none) s := by
  intro h
  let last : State ℕ := ⟨some (createdStore ((sampleUpdates 1).validated none)), bothCreated.phase⟩
  have hRun : exec (step sampleUpdates) (fun _ _ => True) noFile bothCreate = some last := rfl
  obtain ⟨order, hNodup, hFinal, hAnswers⟩ := (h last (Run.of_exec hRun)).explained
  have hMem (call : ℕ) : call ∈ order ↔ call ∈ [0, 1] := by
    rw [← not_iff_not, ← answer_eq_none (catalog none), ← hAnswers]
    by_cases hZero : call = 0
    · subst hZero
      exact iff_of_false (by decide) (by decide)
    by_cases hOne : call = 1
    · subst hOne
      exact iff_of_false (by decide) (by decide)
    have hStart : (last.phase call).result? = none := by
      simp only [last, bothCreated, State.goto_of_ne _ hZero, State.goto_of_ne _ hOne]
      rfl
    exact iff_of_true hStart (by simp [hZero, hOne])
  have hPerm : order.Perm [0, 1] :=
    (List.perm_ext_iff_of_nodup hNodup (by decide)).mpr hMem
  have hLost : (catalog last.file).records ['a'] = none := rfl
  rw [← hFinal] at hLost
  obtain ⟨first, second, rfl⟩ := List.length_eq_two.mp hPerm.length_eq
  have hNe : first ≠ second := by simpa using hNodup
  have hFirst : first = 0 ∨ first = 1 := by simpa using (hMem first).mp (by simp)
  have hSecond : second = 0 ∨ second = 1 := by simpa using (hMem second).mp (by simp)
  rcases hFirst with rfl | rfl
  · rcases hSecond with rfl | rfl
    · exact hNe rfl
    · cases hLost
  · rcases hSecond with rfl | rfl
    · cases hLost
    · exact hNe rfl

theorem pageUpdates_correct_of_sample :
    Correct sampleUpdates (catalog none)
      (State.goto ⟨some (createdStore ((sampleUpdates 0).validated none)),
        ((noFile.goto 0 (.read none)).goto 0 (.saving none)).phase⟩ 0 (.returned 1 0)) := by
  have hRead : Run (step sampleUpdates) (StepOk sampleUpdates) noFile
      (noFile.goto 0 (.read none)) := .tail (.refl _) (a := (0, .isFile)) trivial rfl
  have hSaving : Run (step sampleUpdates) (StepOk sampleUpdates) noFile
      ((noFile.goto 0 (.read none)).goto 0 (.saving none)) :=
    .tail hRead (a := (0, .isFileAgain)) trivial rfl
  have hUniform : (catalog noFile.file).Uniform := by
    intro blockUuid record hRecord
    cases hRecord
  exact pageUpdates_correct sampleUpdates (fun _ => rfl) hUniform
    (.tail hSaving (a := (0, .locked ⟨false, none⟩)) rfl rfl)

end Sample

end Plumber.BlockVectors
