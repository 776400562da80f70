import MatrycaPlumber.Graph.PageMutation

/-! Lost updates: a committed write was computed from the content it replaced as
long as no other write falls into a window that no comparison covers. -/
namespace Plumber.PageMutation

open PyText MarkdownBlocks PageFiles

/-- What an operation relies on is the case: it read what the page holds now, or
it did unless the comparison to come fails. -/
structure OpInv (op : Op) (file : Option FileState) : Prop where
  exposed : op.guard = .exposed → op.base = some (file.map FileState.text)
  watching : ∀ baseline, op.guard = .watching baseline → ∀ f ∈ file,
    mtimeDrifted f.mtimeNs baseline = false → op.base = some (some f.text)

theorem OpInv.of_free {op : Op} {file : Option FileState} (h : op.guard = .free) : OpInv op file :=
  ⟨fun hEq => (by rw [h] at hEq; cases hEq), fun _ hEq => (by rw [h] at hEq; cases hEq)⟩

/-- A write that an operation tolerates leaves it what it relies on. -/
theorem OpInv.of_tolerates {op : Op} {file : Option FileState}
    (h : op.tolerates op.path file = true) : OpInv op file := by
  simp only [Op.tolerates, ne_eq, not_true_eq_false, decide_false, Bool.false_or] at h
  cases hGuard : op.guard with
  | free => exact OpInv.of_free hGuard
  | exposed =>
      rw [hGuard] at h
      cases h
  | watching baseline =>
      simp only [hGuard] at h
      refine ⟨fun hEq => (by rw [hGuard] at hEq; cases hEq), ?_⟩
      intro baseline' hEq f hFile hSame
      obtain rfl : baseline = baseline' := by
        rw [hGuard] at hEq
        exact Guard.watching.inj hEq
      obtain rfl : file = some f := hFile
      have hDrift : mtimeDrifted f.mtimeNs baseline = true := h
      rw [hSame] at hDrift
      cases hDrift

/-- An operation whose base is what the page holds now. -/
theorem OpInv.of_current {op : Op} {file : Option FileState}
    (h : op.base = some (file.map FileState.text)) : OpInv op file := by
  refine ⟨fun _ => h, ?_⟩
  rintro baseline _ f rfl _
  exact h

theorem OpInv.of_same {op op' : Op} {file : Option FileState} (h : OpInv op file)
    (hBase : op'.base = op.base) (hGuard : op'.guard = op.guard) : OpInv op' file :=
  ⟨fun hEq => hBase.trans (h.exposed (hGuard.symm.trans hEq)),
    fun baseline hEq f hFile hSame =>
      hBase.trans (h.watching baseline (hGuard.symm.trans hEq) f hFile hSame)⟩

theorem readPage_inv (op : Op) (file : Option FileState) : OpInv (op.readPage file) file := by
  cases file with
  | none => exact OpInv.of_free rfl
  | some f => exact OpInv.of_current rfl

/-- A comparison that succeeds finds the page as it was read. -/
theorem compare_inv {op : Op} {file : Option FileState} (h : OpInv op file)
    (hGuard : ∀ baseline, op.baseline = some baseline → op.guard = .watching baseline)
    (next : Phase) : OpInv (op.compare file next) file := by
  rw [Op.compare]
  cases hBaseline : op.baseline with
  | none => exact OpInv.of_free rfl
  | some baseline =>
      simp only
      split_ifs with hDrift
      · exact OpInv.of_free rfl
      · cases file with
        | none => exact absurd rfl hDrift
        | some f =>
            rw [Bool.not_eq_true] at hDrift
            exact OpInv.of_current (h.watching baseline (hGuard baseline hBaseline) f rfl hDrift)

theorem advanceAlias_inv {op : Op} {file : Option FileState} {callerBaseline : Bool}
    (h : OpInv op file) (hKind : op.kind = .aliasAppend callerBaseline) :
    OpInv (advanceAlias op callerBaseline file).1 file := by
  rw [advanceAlias.eq_def]
  cases hPhase : op.phase with
  | idle =>
      simp only
      split_ifs
      · exact OpInv.of_free rfl
      · exact readPage_inv op file
  | called => exact readPage_inv op file
  | read =>
      cases hBaseline : op.baseline with
      | none =>
          exact OpInv.of_current (h.exposed (by simp [Op.guard, Op.pending, hPhase, hKind, hBaseline]))
      | some baseline =>
          exact h.of_same rfl (by simp [Op.guard, Op.pending, hPhase, hKind, hBaseline])
  | ready =>
      simp only
      cases op.payload with
      | none => exact OpInv.of_free rfl
      | some newText => exact h.of_same rfl (by simp [Op.guard, Op.pending, hPhase, hKind])
  | locked =>
      simp only
      split_ifs with hBaseline
      · exact h.of_same rfl (by simp [Op.guard, Op.pending, hPhase, hKind])
      · exact compare_inv h (fun baseline hEq => by
          simp [Op.guard, Op.pending, hPhase, hKind, hEq]) _
  | compared =>
      cases file with
      | none => exact OpInv.of_free rfl
      | some f =>
          cases hBaseline : op.baseline with
          | none => exact OpInv.of_current (h.exposed (by
              simp [Op.guard, Op.pending, hPhase, hBaseline]))
          | some baseline => exact h.of_same rfl (by
              simp [Op.guard, Op.pending, hPhase, hBaseline])
  | _ => exact h

theorem advanceBlocks_inv {op : Op} {file : Option FileState} (h : OpInv op file)
    (hKind : op.kind = .reparent ∨ op.kind = .split) : OpInv (advanceBlocks op file).1 file := by
  have hExposed (hPhase : op.phase = .read ∨ op.phase = .locked) : op.guard = .exposed := by
    obtain hPhase | hPhase := hPhase
    · obtain hKind | hKind := hKind <;> simp [Op.guard, hPhase, hKind]
    · obtain hKind | hKind := hKind <;> simp [Op.guard, hPhase, hKind]
  rw [advanceBlocks.eq_def]
  cases hPhase : op.phase with
  | idle => exact readPage_inv op file
  | read => exact OpInv.of_current (h.exposed (hExposed (Or.inl hPhase)))
  | locked =>
      cases op.payload with
      | none => exact OpInv.of_free rfl
      | some newText =>
          cases file with
          | none => exact OpInv.of_free rfl
          | some f => exact OpInv.of_current (h.exposed (hExposed (Or.inr hPhase)))
  | _ => exact h

theorem advanceIngestion_inv {op : Op} {file : Option FileState} (h : OpInv op file)
    (hKind : op.kind = .ingestion) : OpInv (advanceIngestion op file).1 file := by
  rw [advanceIngestion.eq_def]
  cases hPhase : op.phase with
  | idle => exact OpInv.of_free rfl
  | entered => exact OpInv.of_current rfl
  | read =>
      have hBase := h.exposed (by simp [Op.guard, hPhase, hKind])
      cases op.payload with
      | none => exact OpInv.of_free rfl
      | some newText =>
          cases file with
          | none => exact OpInv.of_current hBase
          | some f => exact OpInv.of_current hBase
  | locked =>
      exact compare_inv h (fun baseline hEq => by
        simp [Op.guard, Op.pending, hPhase, hKind, hEq]) _
  | _ => exact h

/-- A step of an operation keeps what it relies on, or takes it off the page. -/
theorem advance_inv {op : Op} {file : Option FileState} (h : OpInv op file) :
    OpInv (advance op file).1 file := by
  have hPending (hPhase : op.phase = .armed ∨ op.phase = .checked) :
      ∀ baseline, op.baseline = some baseline → op.guard = .watching baseline := by
    intro baseline hEq
    obtain hPhase | hPhase := hPhase <;> simp [Op.guard, Op.pending, hPhase, hEq]
  rw [advance.eq_def]
  cases hPhase : op.phase with
  | armed => exact compare_inv h (hPending (Or.inl hPhase)) _
  | checked => exact compare_inv h (hPending (Or.inr hPhase)) _
  | committing => exact OpInv.of_free rfl
  | leaving => exact OpInv.of_free rfl
  | done => exact h
  | _ =>
      cases hKind : op.kind with
      | aliasAppend callerBaseline => exact advanceAlias_inv h hKind
      | reparent => exact advanceBlocks_inv h (Or.inl hKind)
      | split => exact advanceBlocks_inv h (Or.inr hKind)
      | ingestion => exact advanceIngestion_inv h hKind

@[simp] theorem readPage_path (op : Op) (file : Option FileState) :
    (op.readPage file).path = op.path := by
  cases file <;> rfl

@[simp] theorem compare_path (op : Op) (file : Option FileState) (next : Phase) :
    (op.compare file next).path = op.path := by
  rw [Op.compare]
  split
  · rfl
  · split_ifs <;> rfl

theorem advanceAlias_path (op : Op) (callerBaseline : Bool) (file : Option FileState) :
    (advanceAlias op callerBaseline file).1.path = op.path ∧
      (advanceAlias op callerBaseline file).2 ≠ .replace := by
  rw [advanceAlias.eq_def]
  cases op.phase with
  | idle => cases callerBaseline <;> simp
  | ready => cases op.payload <;> simp
  | locked =>
      simp only
      split_ifs <;> simp
  | compared => cases file <;> simp
  | _ => simp

theorem advanceBlocks_path (op : Op) (file : Option FileState) :
    (advanceBlocks op file).1.path = op.path ∧ (advanceBlocks op file).2 ≠ .replace := by
  rw [advanceBlocks.eq_def]
  cases op.phase with
  | locked => cases op.payload <;> cases file <;> simp
  | _ => simp

theorem advanceIngestion_path (op : Op) (file : Option FileState) :
    (advanceIngestion op file).1.path = op.path ∧ (advanceIngestion op file).2 ≠ .replace := by
  rw [advanceIngestion.eq_def]
  cases op.phase with
  | read => cases op.payload <;> cases file <;> simp
  | _ => simp

/-- An operation stays on its page and replaces it in its last step only. -/
theorem advance_path (op : Op) (file : Option FileState) :
    (advance op file).1.path = op.path ∧
      ((advance op file).2 = .replace → op.phase = .committing) := by
  have hByKind : ∀ next : Op × Effect, next.1.path = op.path ∧ next.2 ≠ .replace →
      next.1.path = op.path ∧ (next.2 = .replace → op.phase = .committing) :=
    fun next h => ⟨h.1, fun hReplace => absurd hReplace h.2⟩
  rw [advance.eq_def]
  cases hPhase : op.phase with
  | committing => exact ⟨rfl, fun _ => rfl⟩
  | armed => exact ⟨compare_path _ _ _, fun h => by cases h⟩
  | checked => exact ⟨compare_path _ _ _, fun h => by cases h⟩
  | leaving => exact ⟨rfl, fun h => by cases h⟩
  | done => exact ⟨rfl, fun h => by cases h⟩
  | _ =>
      rw [hPhase] at hByKind
      cases op.kind with
      | aliasAppend callerBaseline => exact hByKind _ (advanceAlias_path op callerBaseline file)
      | reparent => exact hByKind _ (advanceBlocks_path op file)
      | split => exact hByKind _ (advanceBlocks_path op file)
      | ingestion => exact hByKind _ (advanceIngestion_path op file)

/-- All operations have what they rely on, and all commits so far were computed
from what they replaced. -/
structure Inv (s : Store) : Prop where
  ops : ∀ op ∈ s.ops, OpInv op (s.files op.path)
  commits : ∀ commit ∈ s.commits, commit.base = some commit.before

theorem mem_set_cases {β : Type*} {xs : List β} {i : Nat} {x y : β} (h : y ∈ xs.set i x) :
    y = x ∨ y ∈ xs.eraseIdx i := by
  obtain ⟨j, hj⟩ := List.mem_iff_getElem?.mp h
  rw [List.getElem?_set] at hj
  split_ifs at hj with hEq hLt
  · exact Or.inl (Option.some.inj hj).symm
  · exact Or.inr (List.mem_eraseIdx_iff_getElem?.mpr ⟨j, Ne.symm hEq, hj⟩)

/-- A write by another one to a page. -/
theorem inv_setAt {op : Op} {files : Disk} {path : Str} {file : Option FileState}
    (h : OpInv op (files op.path)) (hTolerates : op.tolerates path file = true) :
    OpInv op (setAt files path file op.path) := by
  by_cases hPath : op.path = path
  · rw [← hPath, setAt_self]
    exact OpInv.of_tolerates (hPath ▸ hTolerates)
  · rw [setAt_ne files file hPath]
    exact h

section Step

variable {s t : Store}

/-- A step of one operation that leaves the files alone. -/
theorem Inv.set {i : Nat} {op : Op} {locks : Str → Option Nat} (h : Inv s)
    (hOp : OpInv op (s.files op.path)) :
    Inv { s with ops := s.ops.set i op, locks := locks } where
  ops other hOther := by
    cases mem_set_cases hOther with
    | inl hEq => exact hEq ▸ hOp
    | inr hMem => exact h.ops other (List.mem_of_mem_eraseIdx hMem)
  commits := h.commits

theorem Inv.edit {path : Str} {file : Option FileState} (h : Inv s)
    (hUndisturbed : Undisturbed s (.edit path file)) :
    Inv { s with files := setAt s.files path file } where
  ops op hOp := inv_setAt (h.ops op hOp) (hUndisturbed op hOp)
  commits := h.commits

/-- The replacement of a page by an operation whose base is the page. -/
theorem Inv.replace {i : Nat} {op : Op} {mtimeNs : Nat} (h : Inv s) (hGet : s.ops[i]? = some op)
    (hPhase : op.phase = .committing) (hUndisturbed : Undisturbed s (.run i mtimeNs)) :
    Inv { s with
      ops := s.ops.set i { op with phase := .leaving }
      files := setAt s.files op.path (some ⟨op.newText, mtimeNs⟩)
      commits := s.commits ++ [⟨op.path, op.base, (s.files op.path).map FileState.text⟩] } where
  ops other hOther := by
    cases mem_set_cases hOther with
    | inl hEq => exact OpInv.of_free (by rw [hEq]; rfl)
    | inr hMem =>
        exact inv_setAt (h.ops other (List.mem_of_mem_eraseIdx hMem))
          (hUndisturbed op hGet hPhase other hMem)
  commits commit hCommit := by
    cases List.mem_append.mp hCommit with
    | inl hOld => exact h.commits commit hOld
    | inr hNew =>
        rw [List.mem_singleton.mp hNew]
        apply (h.ops op (List.mem_of_getElem? hGet)).exposed
        rw [Op.guard, hPhase]

theorem Inv.step {a : Action} (h : Inv s) (hUndisturbed : Undisturbed s a)
    (hStep : step s a = some t) : Inv t := by
  cases a with
  | edit path file =>
      simp only [PageMutation.step] at hStep
      split_ifs at hStep
      obtain rfl := Option.some.inj hStep
      exact h.edit hUndisturbed
  | run i mtimeNs =>
      simp only [PageMutation.step] at hStep
      cases hGet : s.ops[i]? with
      | none =>
          rw [hGet] at hStep
          cases hStep
      | some op =>
          simp only [hGet] at hStep
          obtain ⟨hPath, hReplace⟩ := advance_path op (s.files op.path)
          have hNext : OpInv (advance op (s.files op.path)).1
              (s.files (advance op (s.files op.path)).1.path) := by
            rw [hPath]
            exact advance_inv (h.ops op (List.mem_of_getElem? hGet))
          cases hEffect : (advance op (s.files op.path)).2 with
          | quiet =>
              rw [hEffect] at hStep
              obtain rfl := Option.some.inj hStep
              exact h.set hNext
          | acquire =>
              rw [hEffect] at hStep
              simp only at hStep
              split_ifs at hStep
              obtain rfl := Option.some.inj hStep
              exact h.set hNext
          | release =>
              rw [hEffect] at hStep
              obtain rfl := Option.some.inj hStep
              exact h.set hNext
          | replace =>
              have hPhase := hReplace hEffect
              rw [hEffect] at hStep
              obtain rfl := Option.some.inj hStep
              have hOp : (advance op (s.files op.path)).1 = { op with phase := .leaving } := by
                rw [advance, hPhase]
              rw [hOp]
              exact h.replace hGet hPhase hUndisturbed
  | raise i =>
      simp only [PageMutation.step] at hStep
      cases hGet : s.ops[i]? with
      | none =>
          rw [hGet] at hStep
          cases hStep
      | some op =>
          simp only [hGet] at hStep
          obtain rfl := Option.some.inj hStep
          exact h.set (OpInv.of_free rfl)
  | retry i =>
      simp only [PageMutation.step] at hStep
      cases hGet : s.ops[i]? with
      | none =>
          rw [hGet] at hStep
          cases hStep
      | some op =>
          simp only [hGet] at hStep
          split_ifs at hStep with hRetry
          obtain rfl := Option.some.inj hStep
          apply h.set
          apply OpInv.of_current
          apply (h.ops op (List.mem_of_getElem? hGet)).exposed
          rw [Op.guard, hRetry.1]

end Step

/-- In a run without disturbing writes every committed write was computed from
the content that it replaced. -/
theorem committed_from_current {files : Disk} {ops : List Op} {s : Store}
    (hIdle : ∀ op ∈ ops, op.phase = .idle)
    (hRun : Transition.Run step Undisturbed (initialStore files ops) s) :
    ∀ commit ∈ s.commits, commit.base = some commit.before := by
  have hInv : Inv s := by
    apply hRun.invariant
    · refine ⟨?_, fun commit hCommit => by cases hCommit⟩
      intro op hOp
      exact OpInv.of_free (by rw [Op.guard, hIdle op hOp])
    · exact fun t a u hInv hUndisturbed hStep => hInv.step hUndisturbed hStep
  exact hInv.commits

section Sample

def samplePage : Str := "- a\n  id:: 1\n".toList

def sampleFiles : Disk := fun path =>
  if path = "p.md".toList then some ⟨samplePage, 10 ^ 18⟩ else none

def sampleReparent : Op :=
  reparentOp asciiCase (fun _ => sampleId) "p.md".toList [.object "x".toList (some ["1".toList])]

def sampleAlias : Op where
  kind := .aliasAppend false
  path := "p.md".toList
  rewrite content := content.map fun text => "alias:: b\n".toList ++ text

def sampleReparented : Str :=
  "- x\n  id:: ".toList ++ sampleId.text ++ "\n  - a\n    id:: 1\n".toList

/-- The alias append reads and takes its baseline, the reparenting replaces the
page, and the alias append then finds that the page has changed. -/
theorem committed_from_current_interleaved :
    ∃ s, Transition.Run step Undisturbed (initialStore sampleFiles [sampleReparent, sampleAlias]) s ∧
      s.commits = [⟨"p.md".toList, some (some samplePage), some samplePage⟩] ∧
      ∀ commit ∈ s.commits, commit.base = some commit.before := by
  have hExec : (Transition.exec step Undisturbed
      (initialStore sampleFiles [sampleReparent, sampleAlias])
      [.run 1 0, .run 1 0, .run 0 0, .run 0 0, .run 0 0, .run 0 (2 * 10 ^ 18), .run 0 0,
        .run 1 0, .run 1 0, .run 1 0]).map Store.commits =
      some [⟨"p.md".toList, some (some samplePage), some samplePage⟩] := by
    decide +kernel
  obtain ⟨s, hRun, hCommits⟩ := Option.map_eq_some_iff.mp hExec
  have hRun := Transition.Run.of_exec hRun
  exact ⟨s, hRun, hCommits, committed_from_current (by decide) hRun⟩

/-- The user writes between the read and the lock of the reparenting, which
replaces the page without looking again. -/
theorem edit_before_lock_is_lost :
    ¬∀ (files : Disk) (ops : List Op) (s : Store), (∀ op ∈ ops, op.phase = .idle) →
      Transition.Run step (fun _ _ => True) (initialStore files ops) s →
        ∀ commit ∈ s.commits, commit.base = some commit.before := by
  intro h
  have hExec : (Transition.exec step (fun _ _ => True) (initialStore sampleFiles [sampleReparent])
      [.run 0 0, .edit "p.md".toList (some ⟨samplePage ++ "- note\n".toList, 10 ^ 18 + 1⟩),
        .run 0 0, .run 0 0, .run 0 (2 * 10 ^ 18)]).map Store.commits =
      some [⟨"p.md".toList, some (some samplePage),
        some (samplePage ++ "- note\n".toList)⟩] := by
    decide +kernel
  obtain ⟨s, hRun, hCommits⟩ := Option.map_eq_some_iff.mp hExec
  have hLost := h sampleFiles [sampleReparent] s (by decide) (Transition.Run.of_exec hRun)
    ⟨"p.md".toList, some (some samplePage), some (samplePage ++ "- note\n".toList)⟩
    (by rw [hCommits]; exact List.mem_cons_self)
  revert hLost
  decide +kernel

end Sample

end Plumber.PageMutation
