import MatrycaPlumber.Graph.LogseqUuid
import MatrycaPlumber.Graph.PageFiles
import MatrycaPlumber.System.Transition

/-! The settle paths of the daemon cycle as sequences of atomic steps, each of
which ends in a ledger record with a modification time, interleaved with the
edits of other programs. -/
namespace Plumber.DaemonCycle

open PyText LogseqUuid PageFiles

inductive Status where
  | processed
  | skipped
  | error
  | lockBackoff
  deriving DecidableEq

def Status.settled (status : Status) : Bool := status = .processed || status = .skipped

/-- `_mtime_matches`, with times in nanoseconds. -/
def mtimeMatches (stored current : Nat) : Bool :=
  stored = current || ((stored : Int) - current).natAbs ≤ 1000

/-- A write of the daemon: what it was computed from, with `none` for a page that
was not there, and the new text. -/
structure OwnWrite where
  base : Option Str
  text : Str
  deriving DecidableEq

/-- What a page holds that held `content` before the writes, as long as each of
them was computed from what it replaced. -/
def leftBy (content : Option Str) : List OwnWrite → Option (Option Str)
  | [] => some content
  | write :: writes => if write.base = content then leftBy (some write.text) writes else none

/-- An entry of `state.files`, with what its pass read and wrote. -/
structure Record where
  mtime : Nat
  status : Status
  content : Option (Option Str)
  writes : List OwnWrite
  deriving DecidableEq

/-- What the page holds as far as the pass of the record can know. -/
def Record.left (record : Record) : Option (Option Str) :=
  record.content.bind (leftBy · record.writes)

/-- The record says that a file with this time needs no pass. -/
def Record.settles (record : Record) (file : FileState) : Bool :=
  record.status.settled && mtimeMatches record.mtime file.mtimeNs

/-- The settle paths. A fast-track pass depends on whether the bootstrap is
complete, the journey log on the text it makes of the journal, the LLM pass on
whether cognitive modules run first and on what the corrections and the index
section make of the page (`none` if the safety validators reject it). -/
inductive Route where
  | fastTrack (bootstrapComplete : Bool)
  | journal
  | journey (upsert : Str → Str)
  | semantic (cognitive : Bool) (rewrite : Str → Option Str)

def Route.isJourney : Route → Bool
  | .journey _ => true
  | _ => false

inductive Phase where
  | idle
  | opened
  | snapshotted
  | modules
  | reread
  | inferring
  | inferred
  | applying
  | verifying
  | locked
  | rebased
  | compared
  | armed
  | checked
  | committing
  | written
  | stated
  | recorded
  | done
  deriving DecidableEq

/-- A pass under way. `mtime` is its first stat, `malformedRefs` is there once the
page goes into quarantine, `base` is what the writing part has read under the
lock, and `status` and `recordedMtime` are what it is about to record. -/
structure Pass where
  route : Route
  path : Str
  phase : Phase := .idle
  mtime : Nat := 0
  content : Option (Option Str) := none
  baseline : Option Nat := none
  malformedRefs : Option (List Str) := none
  base : Option Str := none
  newText : Str := []
  writes : List OwnWrite := []
  status : Status := .processed
  recordedMtime : Nat := 0

def Pass.left (pass : Pass) : Option (Option Str) := pass.content.bind (leftBy · pass.writes)

inductive Failure where
  | malformedRef
  | lockUnavailable
  | other

inductive Effect where
  | quiet
  | replace
  | record

def Pass.read (pass : Pass) (file : Option FileState) : Pass :=
  { pass with content := some (file.map FileState.text), writes := [] }

/-- An exception. The annotation of a quarantined page may fail, journal and LLM
passes leave a record with the time of their first stat, and a malformed
reference sends the LLM pass into quarantine. -/
def Pass.failed (pass : Pass) (failure : Failure) : Pass :=
  if pass.malformedRefs.isSome then
    { pass with phase := if pass.phase = .written then .done else .written }
  else if pass.phase = .idle then { pass with phase := .done }
  else
    match pass.route, failure with
    | .semantic _ _, .malformedRef =>
        { pass with
          malformedRefs := some (findMalformedBlockRefs ((pass.content.bind id).getD []))
          phase := .applying }
    | .semantic _ _, .lockUnavailable =>
        { pass with status := .lockBackoff, recordedMtime := pass.mtime, phase := .stated }
    | .semantic _ _, .other | .journal, _ =>
        { pass with status := .error, recordedMtime := pass.mtime, phase := .stated }
    | _, _ => { pass with phase := .done }

/-- A comparison with the baseline, if there is one. A conflict ends the LLM pass
without a record, but only the annotation of a page in quarantine. -/
def Pass.compare (pass : Pass) (file : Option FileState) (next : Phase) : Pass :=
  match pass.baseline with
  | none => { pass with phase := next }
  | some baseline =>
      if fileMtimeDrifted file baseline then
        { pass with phase := if pass.malformedRefs.isSome then .written else .done }
      else { pass with phase := next }

/-- `SEMANTIC_INDEX_HEADING`. -/
def semanticIndexHeading : Str := "### Matryca Semantic Index".toList

/-- `STRUCTURAL_LINT_HEADING`. -/
def structuralLintHeading : Str := "### Matryca Structural Lint".toList

def sectionPresent (heading content : Str) : Bool := content.tails.any (startsWith heading)

/-- The page with the structural lint section at its end. -/
def withStructuralLint (text : Str) (malformedRefs : List Str) : Str :=
  let sample := malformedRefs.take 5
  let more := malformedRefs.length - sample.length
  rstripChars ['\n'] text ++ "\n".toList ++ join "\n".toList
    ([[], "- ".toList ++ structuralLintHeading, "- malformed-block-refs::".toList] ++
      sample.map (fun ref => "  - ((".toList ++ ref ++ "))".toList) ++
      (if 0 < more then ["  - ... and ".toList ++ (toString more).toList ++ " more".toList]
        else []) ++
      ["- todo:: #todo [[Matryca Broken Reference]] ".toList ++
        "— fix ((uuid)) typos in Logseq".toList, []])

/-- `append_structural_lint_warning`, with a baseline of its own. -/
def advanceWarning (malformedRefs : List Str) (pass : Pass) (file : Option FileState) : Pass :=
  match pass.phase, file with
  | .applying, none => { pass with phase := .written }
  | .applying, some file =>
      if malformedRefs = [] then { pass with phase := .written }
      else { pass with baseline := some file.mtimeNs, phase := .verifying }
  | .verifying, file => pass.compare file .compared
  | .compared, file => pass.compare file .locked
  | .locked, none => { pass with phase := .written }
  | .locked, some file =>
      if sectionPresent structuralLintHeading file.text then { pass with phase := .written }
      else
        { pass with
          base := some file.text
          newText := withStructuralLint file.text malformedRefs
          phase := .armed }
  | _, _ => pass

/-- `try_fast_track_cycle_file` after its stat. -/
def advanceFastTrack (bootstrapComplete : Bool) (pass : Pass) (file : Option FileState) : Pass :=
  match pass.phase, file with
  | .opened, none => { pass with phase := .done }
  | .opened, some file =>
      let pass := pass.read (some file)
      if findMalformedBlockRefs file.text ≠ [] then
        { pass with
          malformedRefs := some (findMalformedBlockRefs file.text)
          phase := .applying }
      else if sectionPresent semanticIndexHeading file.text && !bootstrapComplete ||
          isBlank file.text then
        { pass with status := .skipped, recordedMtime := pass.mtime, phase := .stated }
      else { pass with phase := .done }
  | _, _ => pass

/-- `process_llm_cycle_file` and `apply_semantic_page_result` after the first
stat. What the cognitive modules write is read again, and then there is a new
baseline. -/
def advanceSemantic (cognitive : Bool) (rewrite : Str → Option Str) (pass : Pass)
    (file : Option FileState) : Pass :=
  match pass.phase, file with
  | .opened, file => { pass with baseline := file.map FileState.mtimeNs, phase := .snapshotted }
  | .snapshotted, file =>
      { pass.read file with phase := if cognitive then .modules else .inferring }
  | .modules, none => { pass with phase := .inferring }
  | .modules, some file => { pass.read (some file) with phase := .reread }
  | .reread, file =>
      { pass with
        baseline := file.map FileState.mtimeNs <|> pass.baseline
        phase := .inferring }
  | .inferring, file => pass.compare file .inferred
  | .inferred, file => pass.compare file .applying
  | .applying, file =>
      { pass with
        baseline := pass.baseline <|> file.map FileState.mtimeNs
        phase := .verifying }
  | .verifying, file => pass.compare file .locked
  -- a page that is blank or gone ends the write before the comparison under the lock
  | .locked, none => { pass with base := none, baseline := none, phase := .written }
  | .locked, some file =>
      { pass with
        base := some file.text
        phase := if isBlank file.text then .written else .rebased }
  | .rebased, file =>
      { pass with
        baseline := pass.baseline <|> file.map FileState.mtimeNs
        phase := .compared }
  | .compared, file =>
      match pass.base.bind rewrite with
      | none => { pass with phase := .done }
      | some newText => ({ pass with newText := newText } : Pass).compare file .armed
  | _, _ => pass

/-- The status of a page that is settled without an exception. -/
def Pass.settledStatus (pass : Pass) : Status :=
  if pass.malformedRefs.isSome then .skipped
  else
    match pass.route with
    | .journal | .semantic _ _ => .processed
    | .fastTrack _ | .journey _ => .skipped

/-- The stat before the record. -/
def Pass.restat (pass : Pass) (file : Option FileState) : Pass :=
  match file with
  | some file =>
      { pass with
        status := pass.settledStatus
        recordedMtime := file.mtimeNs
        phase := .stated }
  | none =>
      if pass.malformedRefs.isSome then
        { pass with status := .skipped, recordedMtime := pass.mtime, phase := .stated }
      else pass.failed .other

/-- The steps up to the write of the page, or to its record if there is none. -/
def advanceRoute (pass : Pass) (file : Option FileState) : Pass :=
  match pass.phase, pass.route, file with
  | .idle, .journey upsert, file =>
      { pass.read file with
        base := file.map FileState.text
        newText := upsert ((file.map FileState.text).getD [])
        phase := .armed }
  | .idle, _, none => { pass with phase := .done }
  | .idle, _, some file => { pass with mtime := file.mtimeNs, phase := .opened }
  | _, .fastTrack bootstrapComplete, file => advanceFastTrack bootstrapComplete pass file
  | .opened, .journal, file => { pass.read file with phase := .written }
  | _, .semantic cognitive rewrite, file => advanceSemantic cognitive rewrite pass file
  | _, _, _ => pass

/-- The next step of a pass when its page is in the given state. -/
def advance (pass : Pass) (file : Option FileState) : Pass × Effect :=
  match pass.phase with
  | .armed =>
      -- the annotation of a quarantined page is written with its malformed references
      if pass.malformedRefs = none ∧ findMalformedBlockRefs pass.newText ≠ [] ∧
          (pass.compare file .checked).phase = .checked then
        (pass.failed .malformedRef, .quiet)
      else (pass.compare file .checked, .quiet)
  | .checked => (pass.compare file .committing, .quiet)
  | .committing =>
      ({ pass with
        writes := pass.writes ++ [⟨pass.base, pass.newText⟩]
        phase := .written }, .replace)
  | .written => (pass.restat file, .quiet)
  | .stated =>
      ({ pass with
        phase := match pass.route, pass.status with
          | .semantic _ _, .processed => .recorded
          | _, _ => .done }, .record)
  | .recorded => ({ pass with phase := .done }, .quiet)
  | .done => (pass, .quiet)
  | _ =>
      match pass.malformedRefs with
      | some malformedRefs => (advanceWarning malformedRefs pass file, .quiet)
      | none => (advanceRoute pass file, .quiet)

/-- The daemon works on one page at a time. -/
structure Daemon where
  files : Disk
  ledger : Str → Option Record
  pass : Option Pass

def initialDaemon (files : Disk) : Daemon := ⟨files, fun _ => none, none⟩

/-- What may happen next: a write by the user, by another program or by another
part of the daemon, the begin of a pass, one step of it (with the time a written
file would get), an exception, a replacement that failed and is tried again, and
the removal of a record. -/
inductive Action where
  | edit (path : Str) (file : Option FileState)
  | start (route : Route) (path : Str)
  | run (mtimeNs : Nat)
  | fail (failure : Failure)
  | retry
  | prune (path : Str)

/-- The ledger after a pass has recorded its page. A lock that is not available
leaves a processed page as it is. -/
def recordPass (ledger : Str → Option Record) (pass : Pass) : Str → Option Record :=
  if pass.status = .lockBackoff ∧ (ledger pass.path).any (·.status = .processed) then ledger
  else
    setAt ledger pass.path
      (some ⟨pass.recordedMtime, pass.status, pass.content, pass.writes⟩)

/-- The pass in which a failed replacement is tried again, after a comparison if
the write has a baseline. -/
def Pass.retried (pass : Pass) : Pass :=
  if pass.baseline.isSome then { pass with phase := .checked } else pass

def step (s : Daemon) : Action → Option Daemon
  | .edit path file =>
      if changesMtime (s.files path) file then some { s with files := setAt s.files path file }
      else none
  | .start route path =>
      if s.pass.isNone then some { s with pass := some { route := route, path := path } }
      else none
  | .run mtimeNs =>
      match s.pass with
      | none => none
      | some pass =>
          if pass.phase = .done then some { s with pass := none }
          else
            let (pass', effect) := advance pass (s.files pass.path)
            match effect with
            | .quiet => some { s with pass := some pass' }
            | .replace =>
                some { s with
                  files := setAt s.files pass.path (some ⟨pass.newText, mtimeNs⟩)
                  pass := some pass' }
            | .record => some { s with ledger := recordPass s.ledger pass, pass := some pass' }
  | .fail failure =>
      match s.pass with
      | none => none
      | some pass =>
          if pass.phase = .stated ∨ pass.phase = .done then none
          else some { s with pass := some (pass.failed failure) }
  | .retry =>
      match s.pass with
      | none => none
      | some pass =>
          if pass.phase = .committing then some { s with pass := some pass.retried } else none
  | .prune path => some { s with ledger := setAt s.ledger path none }

/-- `_page_is_terminal_skip`. -/
def pageIsTerminalSkip (content : Str) : Bool :=
  isBlank content || findMalformedBlockRefs content ≠ []

/-- `page_needs_phase2_cognitive` for a page that the daemon has not generated
itself. -/
def pageNeedsPhase2Cognitive (journal lockBackoffActive : Bool) (record : Option Record)
    (file : FileState) : Bool :=
  if pageIsTerminalSkip file.text then false
  else
    match record with
    | none => true
    | some record =>
        if !mtimeMatches record.mtime file.mtimeNs then true
        else if journal then false
        else
          match record.status with
          | .processed | .error => false
          | .lockBackoff => !lockBackoffActive
          | .skipped => sectionPresent semanticIndexHeading file.text

/-- The page has not drifted from the baseline; without one every state of the
page passes. -/
def Pass.passes (pass : Pass) (file : FileState) : Bool :=
  match pass.baseline with
  | some baseline => !mtimeDrifted file.mtimeNs baseline
  | none => true

/-- The pass takes a page in this state for the one it has read or written: it
goes on to record it, or to write and then to record it. -/
def Pass.trusts (pass : Pass) (file : FileState) : Bool :=
  match pass.phase with
  | .idle | .opened | .snapshotted | .modules | .done => false
  | .reread | .written => true
  | .stated | .recorded => pass.status.settled && mtimeMatches pass.recordedMtime file.mtimeNs
  | .committing => pass.passes file && !pass.route.isJourney
  | .locked => pass.malformedRefs.isSome || pass.passes file || isBlank file.text
  | _ => pass.malformedRefs.isSome || pass.passes file && !pass.route.isJourney

/-- A page does not get into a state for which the ledger or the pass under way
takes it without having read it. -/
def Undisturbed (s : Daemon) : Action → Prop
  | .edit path file =>
      ∀ f ∈ file, (∀ record ∈ s.ledger path, record.settles f = false) ∧
        ∀ pass ∈ s.pass, pass.path = path → pass.trusts f = false
  | .run mtimeNs =>
      ∀ pass ∈ s.pass, pass.phase = .committing → ∀ record ∈ s.ledger pass.path,
        record.settles ⟨pass.newText, mtimeNs⟩ = false
  | .fail failure =>
      ∀ pass ∈ s.pass, ∀ f ∈ s.files pass.path, (pass.failed failure).trusts f = true →
        pass.trusts f = true
  | .retry =>
      ∀ pass ∈ s.pass, ∀ f ∈ s.files pass.path, pass.retried.trusts f = true →
        pass.trusts f = true
  | .start _ _ | .prune _ => True

instance (s : Daemon) : (a : Action) → Decidable (Undisturbed s a)
  | .edit _ _ | .run _ | .fail _ | .retry => Option.decidableForallMem _
  | .start _ _ | .prune _ => .isTrue trivial

end Plumber.DaemonCycle
