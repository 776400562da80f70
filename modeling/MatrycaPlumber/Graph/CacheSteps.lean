import Mathlib.Data.List.Sort
import MatrycaPlumber.Graph.FileSignature
import MatrycaPlumber.System.Transition

/-! The steps of the cached getters and of the patches, one for each file that is read or
asked for its time. Other programs write files between any two of them. -/
namespace Plumber.Generational

open PyText PyDict

/-- A structure that is kept between two calls: which files it is built from, how it is
built from their texts in the order of the scan, what a patch drops at first, and how the
page of one path is replaced by a text that was read, or taken out. -/
structure Kind (π D : Type) where
  scannable : π → Bool
  build : List (π × Option Str) → D
  clear : D → D
  replacePage : D → π → Option Str → D

/-- Where the call that holds the lock stands. `rest` are the paths that are still to be
read or asked, and `read` the texts that were read. -/
inductive Phase (π D : Type) where
  | idle
  | statBefore (attempts : Nat) (resident : Bool) (rest : List π) (sig : Signature π)
  | buildReads (attempts : Nat) (resident : Bool) (before : Signature π) (rest : List π)
      (read : List (π × Option Str))
  | statAfter (attempts : Nat) (before : Signature π) (read : List (π × Option Str))
      (rest : List π) (sig : Signature π)
  | patchReads (sig : Signature π) (changedPaths removedRels : List π) (rest : List π)
      (read : List (π × Option Str)) (value : D)
  | patchRead (sig : Signature π) (changedPaths removedRels : List π) (path : π) (rest : List π)
      (read : List (π × Option Str)) (value : D)
  | patchStats (read : List (π × Option Str)) (value : D) (rest : List π) (sig : Signature π)

/-- `versions` are all files there have ever been, and `moment` is what the last first
signature of a getter found at each path, neither of which the code knows. -/
structure Generation (π D : Type) where
  files : Files π
  cached : Option (Signature π × D)
  phase : Phase π D
  versions : List (π × SourceFile)
  moment : Files π

inductive Action (π : Type) where
  | write (path : π) (file : Option SourceFile)
  | startGet (resident : Bool)
  | startPatch (changedPaths removedRels : List π)
  | advance
  | release

variable {π D : Type} [LinearOrder π] (K : Kind π D)

def initial (files : Files π) : Generation π D where
  files := files
  cached := none
  phase := .idle
  versions := files.entries.map fun row => (row.1, row.2)
  moment := ∅

/-- The files of the cache in the order of the scan. The listing is one step. -/
def sourcePaths (files : Files π) : List π :=
  (files.keys.filter K.scannable).insertionSort (· ≤ ·)

/-- What a getter is about to return without a build: the cached structure, if the
signature that it has just taken is the stored one. -/
def Generation.hit (s : Generation π D) : Option D :=
  match s.phase, s.cached with
  | .statBefore _ true [] sig, some (stored, value) => if same stored sig then some value else none
  | _, _ => none

/-- The texts of the files at the first signature of the getter. -/
def Generation.signedTexts (s : Generation π D) : π → Option Str := readText s.moment

/-- One more attempt of a getter, of which there are three. -/
def Generation.attempt (s : Generation π D) (attempts : Nat) (resident : Bool) : Generation π D :=
  { s with phase := .statBefore attempts resident (sourcePaths K s.files) ∅, moment := ∅ }

/-- The next step of the call that holds the lock. -/
def Generation.advance (s : Generation π D) : Option (Generation π D) :=
  match s.phase with
  | .idle => none
  | .statBefore attempts resident (path :: rest) sig =>
      some { s with
        phase := .statBefore attempts resident rest (update sig path (mtimeNs s.files path))
        moment := update s.moment path (s.files.lookup path) }
  | .statBefore attempts resident [] sig =>
      match s.hit with
      | some _ => some { s with phase := .idle }
      | none =>
          some { s with phase := .buildReads attempts resident sig (sourcePaths K s.files) [] }
  | .buildReads attempts resident before (path :: rest) read =>
      some { s with
        phase := .buildReads attempts resident before rest
          (read ++ [(path, readText s.files path)]) }
  | .buildReads attempts true before [] read =>
      some { s with phase := .statAfter attempts before read (sourcePaths K s.files) ∅ }
  | .buildReads _ false _ [] _ => some { s with phase := .idle }
  | .statAfter attempts before read (path :: rest) sig =>
      some { s with
        phase := .statAfter attempts before read rest (update sig path (mtimeNs s.files path)) }
  | .statAfter attempts before read [] sig =>
      if same before sig then
        some { s with cached := some (sig, K.build read), phase := .idle }
      else
        match attempts with
        | 0 => some { s with phase := .idle }
        | attempts + 1 => some (s.attempt K attempts true)
  | .patchReads sig changedPaths removedRels (path :: rest) read value =>
      if (s.files.lookup path).isSome then
        some { s with
          phase := .patchRead sig changedPaths removedRels path rest read value }
      else
        some { s with
          phase := .patchReads sig changedPaths removedRels rest ((path, none) :: read)
            (K.replacePage value path none) }
  | .patchRead sig changedPaths removedRels path rest read value =>
      some { s with
        phase := .patchReads sig changedPaths removedRels rest
          ((path, readText s.files path) :: read)
          (K.replacePage value path (readText s.files path)) }
  | .patchReads sig changedPaths removedRels [] read value =>
      some { s with phase := .patchStats read value changedPaths (popAll removedRels sig) }
  | .patchStats read value (path :: rest) sig =>
      some { s with
        phase := .patchStats read value rest (update sig path (mtimeNs s.files path)) }
  | .patchStats _ value [] sig => some { s with cached := some (sig, value), phase := .idle }

/-- A patch takes out the removed pages and then reads the changed ones. -/
def Generation.startPatch (s : Generation π D) (changedPaths removedRels : List π) :
    Generation π D :=
  match s.cached with
  | none => s
  | some (sig, value) =>
      let value := if changedPaths = [] ∧ removedRels = [] then value else K.clear value
      let value := removedRels.foldl (fun value rel => K.replacePage value rel none) value
      { s with phase := .patchReads sig changedPaths removedRels changedPaths [] value }

/-- A call waits for the lock, a write does not. -/
def step (s : Generation π D) : Action π → Option (Generation π D)
  | .write path file =>
      some { s with
        files := update s.files path file
        versions := (file.map fun new => (path, new)).toList ++ s.versions }
  | .advance => s.advance K
  | .startGet resident =>
      match s.phase with
      | .idle => some (s.attempt K 2 resident)
      | _ => none
  | .startPatch changedPaths removedRels =>
      match s.phase with
      | .idle => some (s.startPatch K changedPaths removedRels)
      | _ => none
  | .release =>
      match s.phase with
      | .idle => some { s with cached := none }
      | _ => none

section Conditions

variable {K}

/-- The text that was read at a path, if it was there. -/
def textRead (read : List (π × Option Str)) (path : π) : Option Str := (read.lookup path).join

/-- The time of a file tells its text: no other text has ever been there at that time. -/
def TimeTells (s : Generation π D) : Action π → Prop
  | .write path file => ∀ new ∈ file, ∀ version ∈ s.versions,
      version.1 = path → version.2.mtimeNs = new.mtimeNs → version.2.text = new.text
  | .startGet _ | .startPatch _ _ | .advance | .release => True

/-- What a write may do to a path that was read but not yet asked for its time. A patch
needs the text that it has read. A build only fails if the path comes back to the time
of the first signature with another text. -/
def Phase.Allows (phase : Phase π D) (path : π) (file : Option SourceFile) : Prop :=
  match phase with
  | .patchReads _ _ _ rest read _ =>
      path ∉ rest → ∀ text ∈ read.lookup path, file.bind SourceFile.text = text
  | .patchRead _ _ _ next rest read _ =>
      path ∉ next :: rest → ∀ text ∈ read.lookup path, file.bind SourceFile.text = text
  | .patchStats read _ rest _ =>
      path ∈ rest → ∀ text ∈ read.lookup path, file.bind SourceFile.text = text
  | .buildReads _ true before rest read =>
      path ∉ rest → file.map SourceFile.mtimeNs = before.lookup path →
        file.bind SourceFile.text = textRead read path
  | .statAfter _ before read rest _ =>
      path ∈ rest → file.map SourceFile.mtimeNs = before.lookup path →
        file.bind SourceFile.text = textRead read path
  | .idle | .statBefore _ _ _ _ | .buildReads _ false _ _ _ => True

/-- No write falls between the read of a path and the stat that dates it. -/
def ReadKept (s : Generation π D) : Action π → Prop
  | .write path file => s.phase.Allows path file
  | .startGet _ | .startPatch _ _ | .advance | .release => True

instance (s : Generation π D) : (a : Action π) → Decidable (TimeTells s a)
  | .write _ _ => Option.decidableForallMem _
  | .startGet _ | .startPatch _ _ | .advance | .release => .isTrue trivial

instance (path : π) (file : Option SourceFile) : (phase : Phase π D) →
    Decidable (phase.Allows path file)
  | .patchReads _ _ _ _ _ _ | .patchRead _ _ _ _ _ _ _ | .patchStats _ _ _ _
  | .buildReads _ true _ _ _ | .statAfter _ _ _ _ _ => inferInstanceAs (Decidable (_ → _))
  | .idle | .statBefore _ _ _ _ | .buildReads _ false _ _ _ => .isTrue trivial

instance (s : Generation π D) : (a : Action π) → Decidable (ReadKept s a)
  | .write path file => inferInstanceAs (Decidable (s.phase.Allows path file))
  | .startGet _ | .startPatch _ _ | .advance | .release => .isTrue trivial

end Conditions

end Plumber.Generational
