import MatrycaPlumber.Graph.PageFiles
import MatrycaPlumber.Graph.ReparentBlocks
import MatrycaPlumber.Graph.SplitLargeBlocks
import MatrycaPlumber.System.Transition

/-! The read-modify-write operations on page files as sequences of atomic steps,
interleaved with each other and with the edits of other programs. -/
namespace Plumber.PageMutation

open PyText MarkdownBlocks PageFiles

/-- The operations differ in where they read, lock and take their baseline. An
alias append may get its baseline from the caller. -/
inductive Kind where
  | aliasAppend (callerBaseline : Bool)
  | reparent
  | split
  | ingestion
  deriving DecidableEq

inductive Phase where
  | idle
  | called
  | entered
  | read
  | ready
  | locked
  | compared
  | armed
  | checked
  | committing
  | leaving
  | done
  deriving DecidableEq

/-- An operation under way. `base` is what it read, with `none` for a file that
was not there; `rewrite` is what it makes of that, with `none` when it gives up. -/
structure Op where
  kind : Kind
  path : Str
  rewrite : Option Str → Option Str
  phase : Phase := .idle
  base : Option (Option Str) := none
  baseline : Option Nat := none
  newText : Str := []

inductive Effect where
  | quiet
  | acquire
  | replace
  | release
  deriving DecidableEq

def Op.payload (op : Op) : Option Str := op.base.bind op.rewrite

/-- The read of a page that must be there. -/
def Op.readPage (op : Op) (file : Option FileState) : Op :=
  match file with
  | none => { op with phase := .done }
  | some file => { op with base := some (some file.text), phase := .read }

/-- A comparison with the baseline, from which the operation goes on to `next`. -/
def Op.compare (op : Op) (file : Option FileState) (next : Phase) : Op :=
  match op.baseline with
  | none => { op with phase := .leaving }
  | some baseline =>
      if fileMtimeDrifted file baseline then { op with phase := .leaving }
      else { op with phase := next }

/-- `append_page_alias_line`: read, baseline, lock, comparison, backup, and a
baseline for the write if there is none yet. -/
def advanceAlias (op : Op) (callerBaseline : Bool) (file : Option FileState) : Op × Effect :=
  match op.phase with
  | .idle =>
      if callerBaseline then
        ({ op with baseline := file.map FileState.mtimeNs, phase := .called }, .quiet)
      else (op.readPage file, .quiet)
  | .called => (op.readPage file, .quiet)
  | .read =>
      ({ op with baseline := op.baseline <|> file.map FileState.mtimeNs, phase := .ready }, .quiet)
  | .ready =>
      match op.payload with
      | none => ({ op with phase := .done }, .quiet)
      | some newText => ({ op with newText := newText, phase := .locked }, .acquire)
  | .locked =>
      if op.baseline = none then ({ op with phase := .compared }, .quiet)
      else (op.compare file .compared, .quiet)
  | .compared =>
      match file with
      | none => ({ op with phase := .leaving }, .quiet)
      | some file =>
          ({ op with baseline := op.baseline <|> some file.mtimeNs, phase := .armed }, .quiet)
  | _ => (op, .quiet)

/-- `refactor_logseq_blocks` and `_process_page`: read, lock, backup, write. -/
def advanceBlocks (op : Op) (file : Option FileState) : Op × Effect :=
  match op.phase with
  | .idle => (op.readPage file, .quiet)
  | .read => ({ op with phase := .locked }, .acquire)
  | .locked =>
      match op.payload, file with
      | some newText, some _ => ({ op with newText := newText, phase := .committing }, .quiet)
      | _, _ => ({ op with phase := .leaving }, .quiet)
  | _ => (op, .quiet)

/-- `_append_markdown_page`: lock, read, then a baseline and a comparison if the
file exists, and a plain write otherwise. -/
def advanceIngestion (op : Op) (file : Option FileState) : Op × Effect :=
  match op.phase with
  | .idle => ({ op with phase := .entered }, .acquire)
  | .entered => ({ op with base := some (file.map FileState.text), phase := .read }, .quiet)
  | .read =>
      match op.payload, file with
      | none, _ => ({ op with phase := .leaving }, .quiet)
      | some newText, none => ({ op with newText := newText, phase := .committing }, .quiet)
      | some newText, some file =>
          ({ op with newText := newText, baseline := some file.mtimeNs, phase := .locked }, .quiet)
  | .locked => (op.compare file .armed, .quiet)
  | _ => (op, .quiet)

/-- The next step of an operation when its page is in the given state. The two
comparisons of `atomic_write_bytes_if_unchanged`, the replacement and the end of
the lock are common to all. -/
def advance (op : Op) (file : Option FileState) : Op × Effect :=
  match op.phase with
  | .armed => (op.compare file .checked, .quiet)
  | .checked => (op.compare file .committing, .quiet)
  | .committing => ({ op with phase := .leaving }, .replace)
  | .leaving => ({ op with phase := .done }, .release)
  | .done => (op, .quiet)
  | _ =>
      match op.kind with
      | .aliasAppend callerBaseline => advanceAlias op callerBaseline file
      | .reparent => advanceBlocks op file
      | .split => advanceBlocks op file
      | .ingestion => advanceIngestion op file

/-- A committed write: what it was computed from, and what it replaced. -/
structure Commit where
  path : Str
  base : Option (Option Str)
  before : Option Str
  deriving DecidableEq

structure Store where
  files : Disk
  locks : Str → Option Nat
  ops : List Op
  commits : List Commit

def initialStore (files : Disk) (ops : List Op) : Store := ⟨files, fun _ => none, ops, []⟩

/-- What may happen next: an edit by another program, a step of an operation
(with the time a replaced file would get), an operation that raises, and a
replacement that failed and is tried again. -/
inductive Action where
  | edit (path : Str) (file : Option FileState)
  | run (i : Nat) (mtimeNs : Nat)
  | raise (i : Nat)
  | retry (i : Nat)

def step (s : Store) : Action → Option Store
  | .edit path file =>
      if changesMtime (s.files path) file then some { s with files := setAt s.files path file }
      else none
  | .run i mtimeNs =>
      match s.ops[i]? with
      | none => none
      | some op =>
          let (op', effect) := advance op (s.files op.path)
          let ops := s.ops.set i op'
          match effect with
          | .quiet => some { s with ops := ops }
          | .acquire =>
              if s.locks op.path = none then
                some { s with ops := ops, locks := setAt s.locks op.path (some i) }
              else none
          | .replace =>
              some { s with
                ops := ops
                files := setAt s.files op.path (some ⟨op.newText, mtimeNs⟩)
                commits := s.commits ++
                  [⟨op.path, op.base, (s.files op.path).map FileState.text⟩] }
          | .release => some { s with ops := ops, locks := setAt s.locks op.path none }
  | .raise i =>
      match s.ops[i]? with
      | none => none
      | some op =>
          some { s with
            ops := s.ops.set i { op with phase := .done }
            locks := if s.locks op.path = some i then setAt s.locks op.path none else s.locks }
  | .retry i =>
      match s.ops[i]? with
      | none => none
      | some op =>
          if op.phase = .committing ∧ op.baseline.isSome then
            some { s with ops := s.ops.set i { op with phase := .checked } }
          else none

/-- Block reparenting with its own rewriting. -/
def reparentOp (tables : CaseTables) (ids : Nat → Uuid) (path : Str)
    (rawGroups : List ReparentBlocks.RawGroup) : Op where
  kind := .reparent
  path := path
  rewrite content := content.bind fun raw =>
    match ReparentBlocks.refactorLogseqBlocks tables ids (fun _ => true) path (.ok raw) rawGroups
      false with
    | .ok (_, written) => written
    | .error _ => none

/-- Large-block splitting with its own rewriting. -/
def splitOp (tables : CaseTables) (freshUuid : Nat → Uuid) (path pageRef : Str)
    (minChars maxBlocks : Int) : Op where
  kind := .split
  path := path
  rewrite content := content.bind fun raw =>
    match SplitLargeBlocks.processPage tables freshUuid (fun _ => true) path pageRef minChars
      maxBlocks false (.ok raw) with
    | .ok outcome => outcome.written
    | .error _ => none

/-- How much of its page an operation has to rely on. -/
inductive Guard where
  | free
  | exposed
  | watching (baseline : Nat)

/-- A baseline stands in for the page until it is compared. -/
def Op.pending (op : Op) : Guard :=
  match op.baseline with
  | some baseline => .watching baseline
  | none => .exposed

/-- An operation that has read relies on the page until its write; where a
comparison is still to come, only as far as the baseline goes. -/
def Op.guard (op : Op) : Guard :=
  match op.phase, op.kind with
  | .read, .aliasAppend _ => op.pending
  | .read, _ => .exposed
  | .ready, _ => op.pending
  | .locked, .reparent => .exposed
  | .locked, .split => .exposed
  | .locked, _ => op.pending
  | .compared, _ => op.pending
  | .armed, _ => op.pending
  | .checked, _ => op.pending
  | .committing, _ => .exposed
  | _, _ => .free

/-- A write of another one to the page does no harm: it falls into no window
without a comparison, and its time differs from the baseline that is compared. -/
def Op.tolerates (op : Op) (path : Str) (file : Option FileState) : Bool :=
  op.path ≠ path ||
    match op.guard with
    | .free => true
    | .exposed => false
    | .watching baseline => fileMtimeDrifted file baseline

/-- Every other operation on the page tolerates the write. -/
def Undisturbed (s : Store) : Action → Prop
  | .edit path file => ∀ op ∈ s.ops, op.tolerates path file = true
  | .run i mtimeNs =>
      ∀ op ∈ s.ops[i]?, op.phase = .committing →
        ∀ other ∈ s.ops.eraseIdx i, other.tolerates op.path (some ⟨op.newText, mtimeNs⟩) = true
  | .raise _ => True
  | .retry _ => True

instance (s : Store) : (a : Action) → Decidable (Undisturbed s a)
  | .edit _ _ => List.decidableBAll _ _
  | .run _ _ => Option.decidableForallMem _
  | .raise _ => .isTrue trivial
  | .retry _ => .isTrue trivial

end Plumber.PageMutation
