import MatrycaPlumber.System.RecursiveQuery
import MatrycaPlumber.Text.Basic
import Mathlib.Data.List.Lex
import Mathlib.Data.Prod.Basic

/-! The capture of the pages below two directories: a walk with an explicit stack, bounded in six
ways, and the revision of what it finds. -/
namespace Plumber.OgTopologySnapshot
open PyText

abbrev Bytes := List UInt8

section Model

/-- What `os.scandir` calls an entry; a name that is not UTF-8 has no encoding. -/
inductive Name where
  | text (s : Str)
  | undecodable (raw : Bytes)
deriving DecidableEq

/-- An entry of a directory, with what is below it. Links, pipes and devices are special. -/
inductive Node where
  | file (name : Name) (content : Bytes)
  | directory (name : Name) (entries : List Node)
  | special (name : Name)

def Node.name : Node → Name
  | .file name _ => name
  | .directory name _ => name
  | .special name => name

def maxCaptureFiles : ℕ := 1024

def maxCaptureFileBytes : ℕ := 1024 * 1024

def maxCaptureBytes : ℕ := 16 * 1024 * 1024

def maxCaptureEntries : ℕ := 8192

def maxCaptureDirectories : ℕ := 1024

def maxCaptureDepth : ℕ := 32

inductive CaptureError where
  /-- `_OgSnapshotReadError`. -/
  | snapshotRead (code message : String)
  | overflow
deriving DecidableEq

def sourceRejected : CaptureError := .snapshotRead "source_rejected" "OG topology source rejected"

def regularRejected : CaptureError := .snapshotRead "source_rejected" "OG snapshot source rejected"

def captureRejected : CaptureError :=
  .snapshotRead "source_rejected" "OG topology capture rejected"

def walkLimit : CaptureError := .snapshotRead "bounds_exceeded" "OG topology walk limit exceeded"

def entryLimit : CaptureError := .snapshotRead "bounds_exceeded" "OG topology entry limit exceeded"

def pageLimit : CaptureError := .snapshotRead "bounds_exceeded" "OG topology page limit exceeded"

def byteLimit : CaptureError := .snapshotRead "bounds_exceeded" "OG topology byte limit exceeded"

structure CapturedOgPage (Digest : Type) where
  logicalPath : Str
  content : Bytes
  sha256 : Digest

structure OgTopologyCapture (Digest : Type) where
  pages : List (CapturedOgPage Digest)
  sourceRevision : Digest

/-- The counters of the walk and the pages that are read so far. -/
structure State (Digest : Type) where
  pages : List (CapturedOgPage Digest)
  totalBytes : ℕ
  visited : ℕ
  directories : ℕ

/-- A directory that is open, with the entries that are still to come. -/
structure Frame where
  logicalPath : Str
  depth : ℕ
  entries : List Node

variable {Digest : Type} (sha256 : Bytes → Digest)

/-- `content.decode("utf-8")` does not raise. -/
def decodes (content : Bytes) : Bool := content.toByteArray.validateUTF8

/-- `_capture_page`, for a file that does not change. -/
def capturePage (logicalPath : Str) (content : Bytes) (remaining : ℕ) :
    Except CaptureError (CapturedOgPage Digest) :=
  if min maxCaptureFileBytes remaining < content.length then .error byteLimit
  else if !decodes content then .error captureRejected
  else .ok ⟨logicalPath, content, sha256 content⟩

def mdSuffix : Str := ".md".toList

/-- One turn of the loop for an entry of a directory at a depth. -/
def visit (parent : Str) (depth : ℕ) (state : State Digest) (node : Node) :
    Except CaptureError (State Digest) :=
  if maxCaptureEntries < state.visited + 1 then .error entryLimit
  else
    match node.name with
    | .undecodable _ => .error captureRejected
    | .text name =>
        if '\\' ∈ name then .error sourceRejected
        else
          match node with
          | .directory _ _ =>
              if maxCaptureDepth < depth + 1 ∨ maxCaptureDirectories ≤ state.directories then
                .error walkLimit
              else .ok { state with
                visited := state.visited + 1
                directories := state.directories + 1 }
          | .special _ => .error regularRejected
          | .file _ content =>
              if !(mdSuffix.isSuffixOf name) then .ok { state with visited := state.visited + 1 }
              else if maxCaptureFiles ≤ state.pages.length then .error pageLimit
              else
                match capturePage sha256 (parent ++ '/' :: name) content
                    (maxCaptureBytes - state.totalBytes) with
                | .error e => .error e
                | .ok page => .ok { state with
                    visited := state.visited + 1
                    totalBytes := state.totalBytes + page.content.length
                    pages := state.pages ++ [page] }

/-- The frame that is pushed for an entry. -/
def opened (parent : Str) (depth : ℕ) : Node → List Frame
  | .directory (.text name) entries => [⟨parent ++ '/' :: name, depth + 1, entries⟩]
  | _ => []

mutual
def Node.weight : Node → ℕ
  | .directory _ entries => weights entries + 2
  | .file _ _ => 1
  | .special _ => 1

def weights : List Node → ℕ
  | [] => 0
  | node :: nodes => node.weight + weights nodes
end

def framesWeight (frames : List Frame) : ℕ :=
  (frames.map fun frame => weights frame.entries + 1).sum

theorem framesWeight_opened_lt (parent : Str) (depth : ℕ) (node : Node) :
    framesWeight (opened parent depth node) < node.weight := by
  unfold opened
  split
  · simp [framesWeight, Node.weight]
  · cases node <;> simp [framesWeight, Node.weight]

/-- The loop over the frames: the entries of the last frame are visited until it is empty. -/
def walk : List Frame → State Digest → Except CaptureError (State Digest)
  | [], state => .ok state
  | ⟨_, _, []⟩ :: frames, state => walk frames state
  | ⟨path, depth, node :: entries⟩ :: frames, state =>
      match visit sha256 path depth state node with
      | .error e => .error e
      | .ok state => walk (opened path depth node ++ ⟨path, depth, entries⟩ :: frames) state
termination_by frames => framesWeight frames
decreasing_by
  · simp [framesWeight]
  · have hOpened := framesWeight_opened_lt path depth node
    simp only [framesWeight, List.map_append, List.sum_append, List.map_cons, List.sum_cons,
      weights] at hOpened ⊢
    omega

/-- What stands at `pages` or `journals`: nothing, a directory, or something else. -/
inductive Top where
  | missing
  | directory (entries : List Node)
  | other

/-- One turn of the loop over the two subtrees. -/
def captureTop (name : Str) (state : State Digest) (top : Top) :
    Except CaptureError (State Digest) :=
  match top with
  | .missing => .ok state
  | .other =>
      if maxCaptureEntries < state.visited + 1 ∨ maxCaptureDirectories ≤ state.directories then
        .error walkLimit
      else .error sourceRejected
  | .directory entries =>
      if maxCaptureEntries < state.visited + 1 ∨ maxCaptureDirectories ≤ state.directories then
        .error walkLimit
      else walk sha256 [⟨name, 1, entries⟩] { state with
        visited := state.visited + 1
        directories := state.directories + 1 }

/-- `text.encode("utf-8")`. -/
def encode (s : Str) : Bytes := s.flatMap String.utf8EncodeChar

/-- The bytes of a path, as they are compared. -/
def sortKey (page : CapturedOgPage Digest) : List ℕ := (encode page.logicalPath).map UInt8.toNat

/-- The last `width` digits of a number to base 256, the first one in front. -/
def bigEndian : ℕ → ℕ → Bytes
  | 0, _ => []
  | width + 1, n => bigEndian width (n / 256) ++ [UInt8.ofNat (n % 256)]

/-- `n.to_bytes(width, "big")`. -/
def toBytes (width n : ℕ) : Except CaptureError Bytes :=
  if 256 ^ width ≤ n then .error .overflow else .ok (bigEndian width n)

/-- What is hashed of the pages. -/
def revisionBytes : List (CapturedOgPage Digest) → Except CaptureError Bytes
  | [] => .ok []
  | page :: pages => do
      let pathLength ← toBytes 4 (encode page.logicalPath).length
      let contentLength ← toBytes 8 page.content.length
      let rest ← revisionBytes pages
      .ok (pathLength ++ encode page.logicalPath ++ contentLength ++ page.content ++ rest)

def initial : State Digest := ⟨[], 0, 0, 1⟩

/-- `capture_og_topology`, for a root that is admitted and has these two subtrees. -/
def captureOgTopology (pages journals : Top) : Except CaptureError (OgTopologyCapture Digest) := do
  let state ← captureTop sha256 "pages".toList initial pages
  let state ← captureTop sha256 "journals".toList state journals
  let sorted := state.pages.insertionSort fun p q => sortKey p ≤ sortKey q
  let revision ← revisionBytes sorted
  .ok ⟨sorted, sha256 revision⟩

end Model

section Items

/-- What an entry is, without what is below it. -/
inductive Kind where
  | file (content : Bytes)
  | directory
  | special

def Node.kind : Node → Kind
  | .file _ content => .file content
  | .directory _ _ => .directory
  | .special _ => .special

/-- An entry where the walk meets it. -/
structure Item where
  parent : Str
  depth : ℕ
  name : Name
  kind : Kind

def Node.item (parent : Str) (depth : ℕ) (node : Node) : Item :=
  ⟨parent, depth, node.name, node.kind⟩

mutual
/-- The entries that are met at and below an entry, in the order of the walk. -/
def Node.items (parent : Str) (depth : ℕ) : Node → List Item
  | .directory (.text name) entries =>
      ⟨parent, depth, .text name, .directory⟩ ::
        itemsAll (parent ++ '/' :: name) (depth + 1) entries
  | .directory (.undecodable raw) _ => [⟨parent, depth, .undecodable raw, .directory⟩]
  | .file name content => [⟨parent, depth, name, .file content⟩]
  | .special name => [⟨parent, depth, name, .special⟩]

def itemsAll (parent : Str) (depth : ℕ) : List Node → List Item
  | [] => []
  | node :: nodes => node.items parent depth ++ itemsAll parent depth nodes
end

def Frame.items (frame : Frame) : List Item := itemsAll frame.logicalPath frame.depth frame.entries

def Item.isDirectory (item : Item) : Bool :=
  match item.kind with
  | .directory => true
  | _ => false

/-- The entry raises no error for what it is. -/
def Item.Admitted (item : Item) : Prop :=
  ∃ name, item.name = .text name ∧ '\\' ∉ name ∧
    match item.kind with
    | .special => False
    | .directory => item.depth + 1 ≤ maxCaptureDepth
    | .file content => mdSuffix.isSuffixOf name = true →
        content.length ≤ maxCaptureFileBytes ∧ decodes content = true

variable {Digest : Type} (sha256 : Bytes → Digest)

def Item.page? (item : Item) : Option (CapturedOgPage Digest) :=
  match item.name, item.kind with
  | .text name, .file content =>
      if mdSuffix.isSuffixOf name then
        some ⟨item.parent ++ '/' :: name, content, sha256 content⟩
      else none
  | _, _ => none

def pagesOf (items : List Item) : List (CapturedOgPage Digest) :=
  items.filterMap (Item.page? sha256)

def sizeOfPages (pages : List (CapturedOgPage Digest)) : ℕ :=
  (pages.map fun page => page.content.length).sum

/-- The state behind some entries that raise no error. -/
def State.after (state : State Digest) (items : List Item) : State Digest where
  pages := state.pages ++ pagesOf sha256 items
  totalBytes := state.totalBytes + sizeOfPages (pagesOf sha256 items)
  visited := state.visited + items.length
  directories := state.directories + items.countP Item.isDirectory

structure State.Within (state : State Digest) : Prop where
  files : state.pages.length ≤ maxCaptureFiles
  bytes : state.totalBytes ≤ maxCaptureBytes
  entries : state.visited ≤ maxCaptureEntries
  directories : state.directories ≤ maxCaptureDirectories

variable {sha256} {state state' : State Digest}

theorem sizeOfPages_append (p q : List (CapturedOgPage Digest)) :
    sizeOfPages (p ++ q) = sizeOfPages p + sizeOfPages q := by
  rw [sizeOfPages, List.map_append, List.sum_append]
  rfl

theorem pagesOf_append (items items' : List Item) :
    pagesOf sha256 (items ++ items') = pagesOf sha256 items ++ pagesOf sha256 items' :=
  List.filterMap_append

@[simp]
theorem after_nil : state.after sha256 [] = state := by
  simp [State.after, pagesOf, sizeOfPages]

theorem after_append (items items' : List Item) :
    state.after sha256 (items ++ items') = (state.after sha256 items).after sha256 items' := by
  simp only [State.after, pagesOf_append, sizeOfPages_append, List.length_append,
    List.countP_append, List.append_assoc, Nat.add_assoc]

/-- The counters only go up. -/
theorem State.Within.of_after {items : List Item} (h : (state.after sha256 items).Within) :
    state.Within := by
  obtain ⟨hFiles, hBytes, hEntries, hDirectories⟩ := h
  simp only [State.after, List.length_append] at hFiles hBytes hEntries hDirectories
  exact ⟨by omega, by omega, by omega, by omega⟩

theorem itemsAll_append (parent : Str) (depth : ℕ) (nodes nodes' : List Node) :
    itemsAll parent depth (nodes ++ nodes') =
      itemsAll parent depth nodes ++ itemsAll parent depth nodes' := by
  induction nodes with
  | nil => rfl
  | cons node nodes ih => rw [List.cons_append, itemsAll, itemsAll, ih, List.append_assoc]

/-- An entry is met, and then what the frame holds that is pushed for it. -/
theorem items_eq (parent : Str) (depth : ℕ) (node : Node) :
    node.items parent depth =
      node.item parent depth :: (opened parent depth node).flatMap Frame.items := by
  unfold opened
  split
  · rw [Node.items, List.flatMap_singleton]
    rfl
  · next hNot =>
      cases node with
      | file name content => rfl
      | special name => rfl
      | directory name entries =>
          cases name with
          | text name => exact absurd rfl (hNot name entries)
          | undecodable raw => rfl

end Items

section Walking

variable {Digest : Type} {sha256 : Bytes → Digest} {state state' : State Digest}

theorem capturePage_eq_ok {path : Str} {content : Bytes} {remaining : ℕ}
    {page : CapturedOgPage Digest} :
    capturePage sha256 path content remaining = .ok page ↔
      content.length ≤ maxCaptureFileBytes ∧ content.length ≤ remaining ∧
        decodes content = true ∧ page = ⟨path, content, sha256 content⟩ := by
  rw [capturePage]
  split_ifs with hSize hDecode
  · refine ⟨nofun, ?_⟩
    rintro ⟨hFile, hRest, -⟩
    omega
  · rw [Bool.not_eq_true'] at hDecode
    simp [hDecode]
  · rw [Bool.not_eq_true', Bool.not_eq_false] at hDecode
    rw [Except.ok.injEq]
    constructor
    · rintro rfl
      exact ⟨by omega, by omega, hDecode, rfl⟩
    · rintro ⟨-, -, -, rfl⟩
      rfl

theorem error_eq_ok_iff {ε α : Type} {e : ε} {a : α} {P : Prop} (h : ¬P) :
    (Except.error e : Except ε α) = .ok a ↔ P :=
  ⟨nofun, fun hP => absurd hP h⟩

theorem ok_eq_ok_iff {ε α : Type} {a b c : α} {P Q : Prop} (hP : P) (hQ : Q) (h : b = c) :
    (Except.ok b : Except ε α) = .ok a ↔ P ∧ Q ∧ a = c := by
  rw [Except.ok.injEq, ← h, eq_comm]
  exact ⟨fun hEq => ⟨hP, hQ, hEq⟩, fun hEq => hEq.2.2⟩

theorem admitted_iff {item : Item} {name : Str} (h : item.name = .text name) :
    item.Admitted ↔ '\\' ∉ name ∧
      match item.kind with
      | .special => False
      | .directory => item.depth + 1 ≤ maxCaptureDepth
      | .file content => mdSuffix.isSuffixOf name = true →
          content.length ≤ maxCaptureFileBytes ∧ decodes content = true := by
  constructor
  · rintro ⟨name', hName, hAll⟩
    cases hName.symm.trans h
    exact hAll
  · intro hAll
    exact ⟨name, h, hAll⟩

theorem not_admitted_undecodable {item : Item} {raw : Bytes} (h : item.name = .undecodable raw) :
    ¬item.Admitted := by
  rintro ⟨name, hName, -⟩
  cases hName.symm.trans h

/-- An entry that is no page is only counted. -/
theorem after_singleton_of_none {item : Item} (h : item.page? sha256 = none) :
    state.after sha256 [item] = { state with
      visited := state.visited + 1
      directories := state.directories + (if item.isDirectory then 1 else 0) } := by
  simp [State.after, pagesOf, h, sizeOfPages, List.countP_cons]

theorem after_singleton_of_some {item : Item} {page : CapturedOgPage Digest}
    (h : item.page? sha256 = some page) (hKind : item.isDirectory = false) :
    state.after sha256 [item] = { state with
      visited := state.visited + 1
      totalBytes := state.totalBytes + page.content.length
      pages := state.pages ++ [page] } := by
  simp [State.after, pagesOf, h, sizeOfPages, hKind]

/-- What a directory needs, and what it leaves. -/
theorem visit_directory_eq_ok (parent : Str) (depth : ℕ) (name : Str) (entries : List Node)
    (h : state.Within) (hEntries : ¬maxCaptureEntries < state.visited + 1) :
    visit sha256 parent depth state (.directory (.text name) entries) = .ok state' ↔
      (Node.item parent depth (.directory (.text name) entries)).Admitted ∧
        (state.after sha256 [Node.item parent depth (.directory (.text name) entries)]).Within ∧
        state' = state.after sha256 [Node.item parent depth (.directory (.text name) entries)] := by
  have hAfter : state.after sha256 [Node.item parent depth (.directory (.text name) entries)] =
      { state with
        visited := state.visited + 1
        directories := state.directories + 1 } := after_singleton_of_none rfl
  rw [hAfter, admitted_iff rfl, visit, if_neg hEntries]
  dsimp only [Node.name, Node.item, Node.kind]
  by_cases hSlash : '\\' ∈ name
  · rw [if_pos hSlash]
    exact error_eq_ok_iff fun hAll => hAll.1.1 hSlash
  · rw [if_neg hSlash]
    by_cases hLimit : maxCaptureDepth < depth + 1 ∨ maxCaptureDirectories ≤ state.directories
    · rw [if_pos hLimit]
      apply error_eq_ok_iff
      rintro ⟨⟨-, hDepth⟩, hWithin, -⟩
      have hDirectories := hWithin.directories
      dsimp only at hDirectories
      omega
    · rw [if_neg hLimit]
      rw [not_or] at hLimit
      refine ok_eq_ok_iff ⟨hSlash, Nat.not_lt.mp hLimit.1⟩ ?_ rfl
      exact ⟨h.files, h.bytes, Nat.not_lt.mp hEntries, Nat.not_le.mp hLimit.2⟩

/-- What a file needs, and what it leaves. -/
theorem visit_file_eq_ok (parent : Str) (depth : ℕ) (name : Str) (content : Bytes)
    (h : state.Within) (hEntries : ¬maxCaptureEntries < state.visited + 1) :
    visit sha256 parent depth state (.file (.text name) content) = .ok state' ↔
      (Node.item parent depth (.file (.text name) content)).Admitted ∧
        (state.after sha256 [Node.item parent depth (.file (.text name) content)]).Within ∧
        state' = state.after sha256 [Node.item parent depth (.file (.text name) content)] := by
  rw [admitted_iff rfl, visit, if_neg hEntries]
  dsimp only [Node.name, Node.item, Node.kind]
  by_cases hSlash : '\\' ∈ name
  · rw [if_pos hSlash]
    exact error_eq_ok_iff fun hAll => hAll.1.1 hSlash
  · rw [if_neg hSlash]
    cases hMd : mdSuffix.isSuffixOf name with
    | false =>
        have hNone : Item.page? sha256 ⟨parent, depth, .text name, .file content⟩ = none := by
          rw [Item.page?]
          simp [hMd]
        rw [after_singleton_of_none hNone]
        refine ok_eq_ok_iff ⟨hSlash, fun hTrue => by cases hTrue⟩ ?_ rfl
        exact ⟨h.files, h.bytes, Nat.not_lt.mp hEntries, h.directories⟩
    | true =>
        have hSome : Item.page? sha256 ⟨parent, depth, .text name, .file content⟩ =
            some ⟨parent ++ '/' :: name, content, sha256 content⟩ := by
          rw [Item.page?]
          simp [hMd]
        rw [after_singleton_of_some hSome rfl]
        simp only [Bool.not_true, Bool.false_eq_true, if_false, true_imp_iff]
        by_cases hFiles : maxCaptureFiles ≤ state.pages.length
        · rw [if_pos hFiles]
          apply error_eq_ok_iff
          rintro ⟨-, hWithin, -⟩
          have hLength := hWithin.files
          rw [List.length_append, List.length_singleton] at hLength
          omega
        · rw [if_neg hFiles]
          cases hPage : capturePage sha256 (parent ++ '/' :: name) content
              (maxCaptureBytes - state.totalBytes) with
          | error e =>
              apply error_eq_ok_iff
              rintro ⟨⟨-, hFile, hDecode⟩, hWithin, -⟩
              have hBytes := hWithin.bytes
              have hRest : content.length ≤ maxCaptureBytes - state.totalBytes := by
                dsimp only at hBytes
                omega
              cases hPage.symm.trans (capturePage_eq_ok.mpr ⟨hFile, hRest, hDecode, rfl⟩)
          | ok page =>
              obtain ⟨hFile, hRest, hDecode, rfl⟩ := capturePage_eq_ok.mp hPage
              refine ok_eq_ok_iff ⟨hSlash, hFile, hDecode⟩ ?_ rfl
              have hBytes := h.bytes
              refine ⟨?_, ?_, Nat.not_lt.mp hEntries, h.directories⟩
              · rw [List.length_append, List.length_singleton]
                omega
              · dsimp only
                omega

/-- What one entry needs, and what it leaves. -/
theorem visit_eq_ok (parent : Str) (depth : ℕ) (node : Node) (h : state.Within) :
    visit sha256 parent depth state node = .ok state' ↔
      (node.item parent depth).Admitted ∧
        (state.after sha256 [node.item parent depth]).Within ∧
        state' = state.after sha256 [node.item parent depth] := by
  by_cases hEntries : maxCaptureEntries < state.visited + 1
  · rw [visit, if_pos hEntries]
    apply error_eq_ok_iff
    rintro ⟨-, hWithin, -⟩
    exact absurd hWithin.entries (Nat.not_le.mpr hEntries)
  · cases hName : node.name with
    | undecodable raw =>
        rw [visit, if_neg hEntries, hName]
        exact error_eq_ok_iff fun hAll => not_admitted_undecodable hName hAll.1
    | text name =>
        cases node with
        | file fileName content =>
            cases hName
            exact visit_file_eq_ok parent depth name content h hEntries
        | directory directoryName entries =>
            cases hName
            exact visit_directory_eq_ok parent depth name entries h hEntries
        | special specialName =>
            cases hName
            rw [visit, if_neg hEntries]
            rw [admitted_iff rfl]
            dsimp only [Node.name, Node.item, Node.kind]
            split_ifs with hSlash
            · exact ⟨False.elim, fun ⟨⟨hNot, _⟩, _⟩ => hNot hSlash⟩
            · exact ⟨False.elim, fun ⟨⟨_, hSpecial⟩, _⟩ => hSpecial⟩

theorem frameItems_cons (path : Str) (depth : ℕ) (node : Node) (entries : List Node)
    (frames : List Frame) :
    (⟨path, depth, node :: entries⟩ :: frames : List Frame).flatMap Frame.items =
      [node.item path depth] ++
        (opened path depth node ++ ⟨path, depth, entries⟩ :: frames).flatMap Frame.items := by
  rw [List.flatMap_cons, Frame.items, itemsAll, items_eq, List.flatMap_append, List.flatMap_cons]
  simp only [List.cons_append, List.nil_append, List.append_assoc]
  rfl

/-- The walk ends well exactly if every entry is admitted and all of them are within the limits. -/
theorem walk_eq_ok (frames : List Frame) (h : state.Within) :
    walk sha256 frames state = .ok state' ↔
      (∀ item ∈ frames.flatMap Frame.items, item.Admitted) ∧
        (state.after sha256 (frames.flatMap Frame.items)).Within ∧
        state' = state.after sha256 (frames.flatMap Frame.items) := by
  induction frames, state using walk.induct sha256 with
  | case1 state =>
      rw [walk, List.flatMap_nil, after_nil]
      exact ok_eq_ok_iff nofun h rfl
  | case2 path depth frames state ih =>
      rw [walk, ih h]
      rfl
  | case3 path depth node entries frames state e hVisit =>
      rw [walk, hVisit, frameItems_cons, after_append]
      apply error_eq_ok_iff
      rintro ⟨hAdmitted, hWithin, -⟩
      have hNode := hAdmitted _ (List.mem_append_left _ (List.mem_singleton_self _))
      cases hVisit.symm.trans ((visit_eq_ok path depth node h).mpr ⟨hNode, hWithin.of_after, rfl⟩)
  | case4 path depth node entries frames state next hVisit ih =>
      obtain ⟨hNode, hWithin, rfl⟩ := (visit_eq_ok path depth node h).mp hVisit
      rw [walk, hVisit, frameItems_cons, after_append, List.forall_mem_append,
        List.forall_mem_singleton]
      dsimp only
      rw [ih hWithin]
      exact ⟨fun hRest => ⟨⟨hNode, hRest.1⟩, hRest.2⟩, fun hAll => ⟨hAll.1.2, hAll.2⟩⟩

end Walking

section Tops

variable {Digest : Type} {sha256 : Bytes → Digest} {state state' : State Digest}

/-- The entries that are met at and below one of the two subtrees. -/
def Top.items (name : Str) : Top → List Item
  | .directory entries => ⟨[], 0, .text name, .directory⟩ :: itemsAll name 1 entries
  | _ => []

theorem captureTop_eq_ok {name : Str} (hName : '\\' ∉ name) (top : Top) (h : state.Within) :
    captureTop sha256 name state top = .ok state' ↔
      top ≠ .other ∧ (∀ item ∈ top.items name, item.Admitted) ∧
        (state.after sha256 (top.items name)).Within ∧
        state' = state.after sha256 (top.items name) := by
  cases top with
  | missing =>
      rw [captureTop, Top.items, after_nil, Except.ok.injEq, eq_comm]
      · exact ⟨fun hEq => ⟨nofun, nofun, h, hEq⟩, fun hAll => hAll.2.2.2⟩
      · nofun
  | other =>
      rw [captureTop]
      constructor
      · split_ifs <;> nofun
      · rintro ⟨hOther, -⟩
        exact absurd rfl hOther
  | directory entries =>
      have hSplit : Top.items name (.directory entries) =
          [⟨[], 0, .text name, .directory⟩] ++ itemsAll name 1 entries := rfl
      have hFrames : ([⟨name, 1, entries⟩] : List Frame).flatMap Frame.items =
          itemsAll name 1 entries := List.flatMap_singleton _ _
      have hAfter : state.after sha256 [⟨[], 0, .text name, .directory⟩] = { state with
          visited := state.visited + 1
          directories := state.directories + 1 } := after_singleton_of_none rfl
      rw [captureTop, hSplit, after_append, hAfter, List.forall_mem_append,
        List.forall_mem_singleton, admitted_iff rfl]
      by_cases hLimit : maxCaptureEntries < state.visited + 1 ∨
          maxCaptureDirectories ≤ state.directories
      · rw [if_pos hLimit]
        apply error_eq_ok_iff
        rintro ⟨-, -, hWithin, -⟩
        have hEntries := hWithin.of_after.entries
        have hDirectories := hWithin.of_after.directories
        dsimp only at hEntries hDirectories
        omega
      · rw [if_neg hLimit, walk_eq_ok, hFrames]
        · constructor
          · rintro ⟨hAdmitted, hRest⟩
            have hTop : 0 + 1 ≤ maxCaptureDepth := by decide
            exact ⟨nofun, ⟨⟨hName, hTop⟩, hAdmitted⟩, hRest⟩
          · rintro ⟨-, ⟨-, hAdmitted⟩, hRest⟩
            exact ⟨hAdmitted, hRest⟩
        · rw [not_or] at hLimit
          exact ⟨h.files, h.bytes, Nat.not_lt.mp hLimit.1, Nat.not_le.mp hLimit.2⟩

/-- All entries of the two subtrees, in the order of the walk. -/
def allItems (pages journals : Top) : List Item :=
  pages.items "pages".toList ++ journals.items "journals".toList

theorem within_initial : (initial : State Digest).Within :=
  ⟨Nat.zero_le _, Nat.zero_le _, Nat.zero_le _, (by decide : 1 ≤ maxCaptureDirectories)⟩

def sortPages (pages : List (CapturedOgPage Digest)) : List (CapturedOgPage Digest) :=
  pages.insertionSort fun p q => sortKey p ≤ sortKey q

/-- When the capture returns, and what it returns. -/
theorem capture_eq_ok {pages journals : Top} {c : OgTopologyCapture Digest} :
    captureOgTopology sha256 pages journals = .ok c ↔
      (pages ≠ .other ∧ journals ≠ .other) ∧ (∀ item ∈ allItems pages journals, item.Admitted) ∧
        (initial.after sha256 (allItems pages journals)).Within ∧
        ∃ bytes, revisionBytes (sortPages (pagesOf sha256 (allItems pages journals))) = .ok bytes ∧
          c = ⟨sortPages (pagesOf sha256 (allItems pages journals)), sha256 bytes⟩ := by
  have hPages : '\\' ∉ "pages".toList := by decide
  have hJournals : '\\' ∉ "journals".toList := by decide
  rw [captureOgTopology, allItems, after_append, List.forall_mem_append]
  cases hFirst : captureTop sha256 "pages".toList initial pages with
  | error e =>
      apply error_eq_ok_iff
      rintro ⟨⟨hOther, -⟩, ⟨hAdmitted, -⟩, hWithin, -⟩
      have hOk := (captureTop_eq_ok hPages pages within_initial).mpr
        ⟨hOther, hAdmitted, hWithin.of_after, rfl⟩
      cases hFirst.symm.trans hOk
  | ok state =>
      obtain ⟨hOther, hAdmitted, hWithin, rfl⟩ :=
        (captureTop_eq_ok hPages pages within_initial).mp hFirst
      change (captureTop sha256 "journals".toList _ journals >>= _) = _ ↔ _
      cases hSecond : captureTop sha256 "journals".toList
          (initial.after sha256 (pages.items "pages".toList)) journals with
      | error e =>
          apply error_eq_ok_iff
          rintro ⟨⟨-, hOther'⟩, ⟨-, hAdmitted'⟩, hWithin', -⟩
          have hOk := (captureTop_eq_ok hJournals journals hWithin).mpr
            ⟨hOther', hAdmitted', hWithin', rfl⟩
          cases hSecond.symm.trans hOk
      | ok state =>
          obtain ⟨hOther', hAdmitted', hWithin', rfl⟩ :=
            (captureTop_eq_ok hJournals journals hWithin).mp hSecond
          have hFound : ((initial.after sha256 (pages.items "pages".toList)).after sha256
              (journals.items "journals".toList)).pages =
              pagesOf sha256 (pages.items "pages".toList ++ journals.items "journals".toList) := by
            rw [pagesOf_append]
            rfl
          change (revisionBytes (sortPages _) >>= _) = _ ↔ _
          rw [hFound]
          cases hBytes : revisionBytes (sortPages (pagesOf sha256
              (pages.items "pages".toList ++ journals.items "journals".toList))) with
          | error e =>
              apply error_eq_ok_iff
              rintro ⟨-, -, -, bytes, hOk, -⟩
              cases hOk
          | ok bytes =>
              change Except.ok _ = Except.ok c ↔ _
              rw [Except.ok.injEq]
              constructor
              · rintro rfl
                exact ⟨⟨hOther, hOther'⟩, ⟨hAdmitted, hAdmitted'⟩, hWithin', bytes, rfl, rfl⟩
              · rintro ⟨-, -, -, bytes', hOk, rfl⟩
                cases hOk
                rfl

end Tops

section Orders

mutual
/-- Two entries with the same things below them, whatever the order of the enumerations. -/
inductive SameNode : Node → Node → Prop where
  | file (name : Name) (content : Bytes) : SameNode (.file name content) (.file name content)
  | special (name : Name) : SameNode (.special name) (.special name)
  | directory (name : Name) {entries entries' : List Node} (h : SameEntries entries entries') :
      SameNode (.directory name entries) (.directory name entries')

inductive SameEntries : List Node → List Node → Prop where
  | nil : SameEntries [] []
  | cons {a b : Node} {l l' : List Node} (hNode : SameNode a b) (hRest : SameEntries l l') :
      SameEntries (a :: l) (b :: l')
  | swap (a b : Node) (l : List Node) : SameEntries (a :: b :: l) (b :: a :: l)
  | trans {l l' l'' : List Node} (h : SameEntries l l') (h' : SameEntries l' l'') :
      SameEntries l l''
end

/-- The same subtree, with its directories enumerated in other orders. -/
inductive SameTop : Top → Top → Prop where
  | missing : SameTop .missing .missing
  | other : SameTop .other .other
  | directory {entries entries' : List Node} (h : SameEntries entries entries') :
      SameTop (.directory entries) (.directory entries')

mutual
theorem items_perm : ∀ {node node' : Node}, SameNode node node' → ∀ (parent : Str) (depth : ℕ),
    (node.items parent depth).Perm (node'.items parent depth)
  | _, _, .file _ _, _, _ => List.Perm.refl _
  | _, _, .special _, _, _ => List.Perm.refl _
  | _, _, .directory (.undecodable _) _, _, _ => List.Perm.refl _
  | _, _, .directory (.text _) h, _, _ => (itemsAll_perm h _ _).cons _

theorem itemsAll_perm : ∀ {l l' : List Node}, SameEntries l l' → ∀ (parent : Str) (depth : ℕ),
    (itemsAll parent depth l).Perm (itemsAll parent depth l')
  | _, _, .nil, _, _ => List.Perm.refl _
  | _, _, .cons hNode hRest, parent, depth => by
      rw [itemsAll, itemsAll]
      exact (items_perm hNode parent depth).append (itemsAll_perm hRest parent depth)
  | _, _, .swap a b l, parent, depth => by
      rw [itemsAll, itemsAll, itemsAll, itemsAll, ← List.append_assoc, ← List.append_assoc]
      exact List.perm_append_comm.append_right _
  | _, _, .trans hFirst hSecond, parent, depth =>
      (itemsAll_perm hFirst parent depth).trans (itemsAll_perm hSecond parent depth)
end

theorem topItems_perm {top top' : Top} (h : SameTop top top') (name : Str) :
    (top.items name).Perm (top'.items name) := by
  cases h with
  | missing => exact List.Perm.refl _
  | other => exact List.Perm.refl _
  | directory hEntries => exact (itemsAll_perm hEntries name 1).cons _

theorem allItems_perm {pages pages' journals journals' : Top} (hPages : SameTop pages pages')
    (hJournals : SameTop journals journals') :
    (allItems pages journals).Perm (allItems pages' journals') :=
  (topItems_perm hPages _).append (topItems_perm hJournals _)

variable {Digest : Type} {sha256 : Bytes → Digest}

/-- The limits do not depend on the order. -/
theorem within_of_perm {items items' : List Item} {state : State Digest}
    (hPerm : items.Perm items') (h : (state.after sha256 items).Within) :
    (state.after sha256 items').Within := by
  obtain ⟨hFiles, hBytes, hEntries, hDirectories⟩ := h
  have hPages : (pagesOf sha256 items).Perm (pagesOf sha256 items') := hPerm.filterMap _
  have hSize : sizeOfPages (pagesOf sha256 items) = sizeOfPages (pagesOf sha256 items') :=
    (hPages.map _).sum_nat
  simp only [State.after, List.length_append, hPages.length_eq, hSize, hPerm.length_eq,
    hPerm.countP_eq] at hFiles hBytes hEntries hDirectories
  refine ⟨?_, hBytes, hEntries, hDirectories⟩
  rw [State.after, List.length_append]
  exact hFiles

end Orders

section Paths

def Name.Plain : Name → Prop
  | .text s => '/' ∉ s
  | .undecodable _ => True

mutual
/-- No two entries of a directory have one name, and no name has a slash. -/
def Node.WellFormed : Node → Prop
  | .directory _ entries => WellFormedAll entries
  | .file _ _ => True
  | .special _ => True

def WellFormedAll : List Node → Prop
  | [] => True
  | node :: nodes =>
      node.WellFormed ∧ node.name.Plain ∧ (∀ other ∈ nodes, other.name ≠ node.name) ∧
        WellFormedAll nodes
end

/-- A path is that of an entry, or lies below it. -/
def Under (entry path : Str) : Prop := path = entry ∨ ∃ rest, path = entry ++ '/' :: rest

variable {Digest : Type} {sha256 : Bytes → Digest}

theorem under_of_under {entry name path : Str} (h : Under (entry ++ '/' :: name) path) :
    Under entry path := by
  rcases h with rfl | ⟨rest, rfl⟩
  · exact Or.inr ⟨name, rfl⟩
  · exact Or.inr ⟨name ++ '/' :: rest, by simp⟩

/-- Different entries of one directory have nothing below them in common. -/
theorem name_eq_of_under {parent name name' path : Str} (hName : '/' ∉ name)
    (hName' : '/' ∉ name') (h : Under (parent ++ '/' :: name) path)
    (h' : Under (parent ++ '/' :: name') path) : name = name' := by
  have hFirst : ∀ n : Str, '/' ∉ n → Under (parent ++ '/' :: n) path →
      ∃ rest, path = parent ++ '/' :: rest ∧ rest.takeWhile (fun c => c != '/') = n := by
    rintro n hSlash (hPath | ⟨rest, hPath⟩)
    · refine ⟨n, hPath, List.takeWhile_eq_self_iff.mpr fun c hC => ?_⟩
      rw [bne_iff_ne]
      rintro rfl
      exact hSlash hC
    · refine ⟨n ++ '/' :: rest, by rw [hPath]; simp, ?_⟩
      rw [List.takeWhile_append_of_pos, List.takeWhile_cons_of_neg, List.append_nil]
      · decide
      · intro c hC
        rw [bne_iff_ne]
        rintro rfl
        exact hSlash hC
  obtain ⟨rest, hPath, rfl⟩ := hFirst name hName h
  obtain ⟨rest', hPath', rfl⟩ := hFirst name' hName' h'
  rw [hPath, List.append_cancel_left_eq] at hPath'
  rw [(List.cons.inj hPath').2]

theorem mem_pagesOf {items : List Item} {page : CapturedOgPage Digest} :
    page ∈ pagesOf sha256 items ↔ ∃ item ∈ items, item.page? sha256 = some page :=
  List.mem_filterMap

mutual
theorem under_of_mem_items {parent : Str} {depth : ℕ} {page : CapturedOgPage Digest} :
    ∀ {node : Node}, page ∈ pagesOf sha256 (node.items parent depth) →
      ∃ name, node.name = .text name ∧ Under (parent ++ '/' :: name) page.logicalPath
  | .file (.text name) content, h => by
      obtain ⟨item, hMem, hPage⟩ := mem_pagesOf.mp h
      rw [Node.items, List.mem_singleton] at hMem
      subst hMem
      refine ⟨name, rfl, Or.inl ?_⟩
      rw [Item.page?] at hPage
      dsimp only at hPage
      split_ifs at hPage
      rw [← Option.some.inj hPage]
  | .file (.undecodable _) _, h => by cases h
  | .special name, h => by cases name <;> cases h
  | .directory (.undecodable _) _, h => by cases h
  | .directory (.text name) entries, h => by
      have hChildren : page ∈ pagesOf sha256 (itemsAll (parent ++ '/' :: name) (depth + 1)
        entries) := h
      obtain ⟨node, hNode, child, -, hUnder⟩ := under_of_mem_itemsAll hChildren
      exact ⟨name, rfl, under_of_under hUnder⟩

theorem under_of_mem_itemsAll {parent : Str} {depth : ℕ} {page : CapturedOgPage Digest} :
    ∀ {nodes : List Node}, page ∈ pagesOf sha256 (itemsAll parent depth nodes) →
      ∃ node ∈ nodes, ∃ name, node.name = .text name ∧
        Under (parent ++ '/' :: name) page.logicalPath
  | [], h => by cases h
  | node :: nodes, h => by
      rw [itemsAll, pagesOf_append, List.mem_append] at h
      rcases h with h | h
      · exact ⟨node, List.mem_cons_self, under_of_mem_items h⟩
      · obtain ⟨other, hMem, hUnder⟩ := under_of_mem_itemsAll h
        exact ⟨other, List.mem_cons_of_mem _ hMem, hUnder⟩
end

theorem plain_of_mem {node : Node} {nodes : List Node} (h : WellFormedAll nodes)
    (hMem : node ∈ nodes) : node.name.Plain := by
  induction nodes with
  | nil => cases hMem
  | cons other nodes ih =>
      rw [WellFormedAll] at h
      rcases List.mem_cons.mp hMem with rfl | hMem
      · exact h.2.1
      · exact ih h.2.2.2 hMem

/-- The paths of the pages. -/
def paths (pages : List (CapturedOgPage Digest)) : List Str := pages.map (·.logicalPath)

mutual
theorem nodup_items (parent : Str) (depth : ℕ) : ∀ {node : Node}, node.WellFormed →
    (paths (pagesOf sha256 (node.items parent depth))).Nodup
  | .file name content, _ => by
      rw [Node.items, pagesOf, List.filterMap_cons]
      split <;> simp [paths]
  | .special name, _ => by
      cases name <;> exact List.nodup_nil
  | .directory (.undecodable _) _, _ => List.nodup_nil
  | .directory (.text name) entries, h => nodup_itemsAll (parent ++ '/' :: name) (depth + 1) h

theorem nodup_itemsAll (parent : Str) (depth : ℕ) : ∀ {nodes : List Node}, WellFormedAll nodes →
    (paths (pagesOf sha256 (itemsAll parent depth nodes))).Nodup
  | [], _ => List.nodup_nil
  | node :: nodes, h => by
      rw [WellFormedAll] at h
      obtain ⟨hNode, hPlain, hOthers, hNodes⟩ := h
      rw [itemsAll, pagesOf_append, paths, List.map_append]
      refine List.nodup_append.mpr
        ⟨nodup_items parent depth hNode, nodup_itemsAll parent depth hNodes, ?_⟩
      intro path hPath path' hPath' hEq
      obtain ⟨page, hPage, rfl⟩ := List.mem_map.mp hPath
      obtain ⟨page', hPage', rfl⟩ := List.mem_map.mp hPath'
      obtain ⟨name, hName, hUnder⟩ := under_of_mem_items hPage
      obtain ⟨other, hOther, name', hName', hUnder'⟩ := under_of_mem_itemsAll hPage'
      have hPlain' := plain_of_mem hNodes hOther
      rw [hName] at hPlain
      rw [hName'] at hPlain'
      rw [← hEq] at hUnder'
      apply hOthers other hOther
      rw [hName, hName', name_eq_of_under hPlain hPlain' hUnder hUnder']
end

end Paths

section Files

/-- The regular `*.md` files of a subtree, with their logical paths. -/
inductive IsMdFile : Str → List Node → Str → Bytes → Prop where
  | here {parent name : Str} {content : Bytes} {entries : List Node}
      (hMem : .file (.text name) content ∈ entries) (hMd : mdSuffix <:+ name) :
      IsMdFile parent entries (parent ++ '/' :: name) content
  | inside {parent name path : Str} {content : Bytes} {entries children : List Node}
      (hMem : .directory (.text name) children ∈ entries)
      (h : IsMdFile (parent ++ '/' :: name) children path content) :
      IsMdFile parent entries path content

def Top.IsMdFile (name : Str) (top : Top) (path : Str) (content : Bytes) : Prop :=
  ∃ entries, top = .directory entries ∧ OgTopologySnapshot.IsMdFile name entries path content

theorem IsMdFile.mono {parent path : Str} {content : Bytes} {entries entries' : List Node}
    (h : IsMdFile parent entries path content) (hSubset : entries ⊆ entries') :
    IsMdFile parent entries' path content := by
  cases h with
  | here hMem hMd => exact .here (hSubset hMem) hMd
  | inside hMem hBelow => exact .inside (hSubset hMem) hBelow

variable {Digest : Type} {sha256 : Bytes → Digest}

theorem items_subset {node : Node} {nodes : List Node} (h : node ∈ nodes) (parent : Str)
    (depth : ℕ) : node.items parent depth ⊆ itemsAll parent depth nodes := by
  induction nodes with
  | nil => cases h
  | cons other nodes ih =>
      rw [itemsAll]
      rcases List.mem_cons.mp h with rfl | hMem
      · exact List.subset_append_left _ _
      · exact List.Subset.trans (ih hMem) (List.subset_append_right _ _)

theorem pagesOf_subset {items items' : List Item} (h : items ⊆ items') :
    pagesOf sha256 items ⊆ pagesOf sha256 items' := by
  intro page hPage
  obtain ⟨item, hMem, hItem⟩ := mem_pagesOf.mp hPage
  exact mem_pagesOf.mpr ⟨item, h hMem, hItem⟩

theorem page?_file (parent name : Str) (depth : ℕ) (content : Bytes)
    (page : CapturedOgPage Digest) :
    Item.page? sha256 ⟨parent, depth, .text name, .file content⟩ = some page ↔
      mdSuffix <:+ name ∧ page = ⟨parent ++ '/' :: name, content, sha256 content⟩ := by
  rw [Item.page?]
  dsimp only
  rw [← List.isSuffixOf_iff_suffix]
  split_ifs with hMd
  · rw [Option.some.injEq, eq_comm]
    exact (and_iff_right hMd).symm
  · exact ⟨nofun, fun h => absurd h.1 hMd⟩

/-- A page is hashed, and small enough. -/
theorem page_of_admitted {item : Item} {page : CapturedOgPage Digest} (h : item.Admitted)
    (hPage : item.page? sha256 = some page) :
    page.sha256 = sha256 page.content ∧ page.content.length ≤ maxCaptureFileBytes := by
  obtain ⟨parent, depth, itemName, kind⟩ := item
  obtain ⟨name, hName, -, hKind⟩ := h
  dsimp only at hName
  subst hName
  cases kind with
  | file content =>
      obtain ⟨hMd, rfl⟩ := (page?_file _ _ _ _ _).mp hPage
      exact ⟨rfl, (hKind (List.isSuffixOf_iff_suffix.mpr hMd)).1⟩
  | directory => cases hPage
  | special => cases hPage

theorem mem_pages_of_isMdFile {parent path : Str} {entries : List Node} {content : Bytes}
    (h : IsMdFile parent entries path content) :
    ∀ depth, ⟨path, content, sha256 content⟩ ∈ pagesOf sha256 (itemsAll parent depth entries) := by
  induction h with
  | @here parent name content entries hMem hMd =>
      intro depth
      apply pagesOf_subset (items_subset hMem parent depth)
      exact mem_pagesOf.mpr ⟨_, List.mem_singleton_self _, (page?_file _ _ _ _ _).mpr ⟨hMd, rfl⟩⟩
  | @inside parent name path content entries children hMem _ ih =>
      intro depth
      apply pagesOf_subset (items_subset hMem parent depth)
      exact ih (depth + 1)

mutual
theorem isMdFile_of_mem_items {parent : Str} {depth : ℕ} {page : CapturedOgPage Digest} :
    ∀ {node : Node}, page ∈ pagesOf sha256 (node.items parent depth) →
      IsMdFile parent [node] page.logicalPath page.content ∧ page.sha256 = sha256 page.content
  | .file (.text name) content, h => by
      obtain ⟨item, hMem, hPage⟩ := mem_pagesOf.mp h
      rw [Node.items, List.mem_singleton] at hMem
      subst hMem
      obtain ⟨hMd, rfl⟩ := (page?_file _ _ _ _ _).mp hPage
      exact ⟨.here (List.mem_singleton_self _) hMd, rfl⟩
  | .file (.undecodable _) _, h => by cases h
  | .special name, h => by cases name <;> cases h
  | .directory (.undecodable _) _, h => by cases h
  | .directory (.text name) entries, h => by
      have hChildren : page ∈ pagesOf sha256 (itemsAll (parent ++ '/' :: name) (depth + 1)
        entries) := h
      obtain ⟨hFile, hDigest⟩ := isMdFile_of_mem_itemsAll hChildren
      exact ⟨.inside (List.mem_singleton_self _) hFile, hDigest⟩

theorem isMdFile_of_mem_itemsAll {parent : Str} {depth : ℕ} {page : CapturedOgPage Digest} :
    ∀ {nodes : List Node}, page ∈ pagesOf sha256 (itemsAll parent depth nodes) →
      IsMdFile parent nodes page.logicalPath page.content ∧ page.sha256 = sha256 page.content
  | [], h => by cases h
  | node :: nodes, h => by
      rw [itemsAll, pagesOf_append, List.mem_append] at h
      rcases h with h | h
      · obtain ⟨hFile, hDigest⟩ := isMdFile_of_mem_items h
        exact ⟨hFile.mono fun _ hMem => by
          rw [List.mem_singleton.mp hMem]; exact List.mem_cons_self, hDigest⟩
      · obtain ⟨hFile, hDigest⟩ := isMdFile_of_mem_itemsAll h
        exact ⟨hFile.mono fun _ hMem => List.mem_cons_of_mem _ hMem, hDigest⟩
end

/-- The pages of all entries are the files of the two subtrees. -/
theorem mem_pages_iff {pages journals : Top} {path : Str} {content : Bytes} :
    (∃ page ∈ pagesOf sha256 (allItems pages journals),
        page.logicalPath = path ∧ page.content = content) ↔
      pages.IsMdFile "pages".toList path content ∨
        journals.IsMdFile "journals".toList path content := by
  have hTop : ∀ (name : Str) (top : Top), (∃ page ∈ pagesOf sha256 (top.items name),
      page.logicalPath = path ∧ page.content = content) ↔ top.IsMdFile name path content := by
    intro name top
    constructor
    · rintro ⟨page, hPage, rfl, rfl⟩
      cases top with
      | missing => cases hPage
      | other => cases hPage
      | directory entries =>
          have hBelow : page ∈ pagesOf sha256 (itemsAll name 1 entries) := hPage
          exact ⟨entries, rfl, (isMdFile_of_mem_itemsAll hBelow).1⟩
    · rintro ⟨entries, rfl, hFile⟩
      exact ⟨_, mem_pages_of_isMdFile hFile 1, rfl, rfl⟩
  rw [← hTop, ← hTop, allItems, pagesOf_append]
  simp only [List.mem_append, or_and_right, exists_or]

end Files

section Results

/-- One of the two subtrees as a file system holds it. -/
structure Subtree where
  top : Top
  wellFormed : ∀ entries, top = .directory entries → WellFormedAll entries

mutual
/-- The entries at and below an entry, with the depths of the directories they are in. -/
def Node.allAt (depth : ℕ) : Node → List (ℕ × Kind)
  | .file _ content => [(depth, .file content)]
  | .special _ => [(depth, .special)]
  | .directory _ entries => (depth, .directory) :: allAtAll (depth + 1) entries

def allAtAll (depth : ℕ) : List Node → List (ℕ × Kind)
  | [] => []
  | node :: nodes => node.allAt depth ++ allAtAll depth nodes
end

/-- The entries of a subtree, itself included. -/
def Top.all : Top → List (ℕ × Kind)
  | .directory entries => (0, .directory) :: allAtAll 1 entries
  | .missing => []
  | .other => [(0, .special)]

def isDirectoryEntry (entry : ℕ × Kind) : Bool :=
  match entry.2 with
  | .directory => true
  | _ => false

variable {Digest : Type} (sha256 : Bytes → Digest)

/-- What a capture says of the two subtrees. -/
structure Captures (pages journals : Top) (c : OgTopologyCapture Digest) : Prop where
  exactly : ∀ path content, (∃ page ∈ c.pages, page.logicalPath = path ∧ page.content = content) ↔
    pages.IsMdFile "pages".toList path content ∨ journals.IsMdFile "journals".toList path content
  /-- Sorted, and no path twice. -/
  sorted : c.pages.Pairwise fun p q => sortKey p < sortKey q
  digests : ∀ page ∈ c.pages, page.sha256 = sha256 page.content
  files : c.pages.length ≤ maxCaptureFiles
  fileBytes : ∀ page ∈ c.pages, page.content.length ≤ maxCaptureFileBytes
  bytes : sizeOfPages c.pages ≤ maxCaptureBytes
  entries : (pages.all ++ journals.all).length ≤ maxCaptureEntries
  directories : 1 + (pages.all ++ journals.all).countP isDirectoryEntry ≤ maxCaptureDirectories
  depth : ∀ entry ∈ pages.all ++ journals.all, isDirectoryEntry entry = true →
    entry.1 + 1 ≤ maxCaptureDepth

/-- What two captures are compared by. -/
def contents (c : OgTopologyCapture Digest) : List (Str × Bytes) :=
  c.pages.map fun page => (page.logicalPath, page.content)

variable {sha256}

mutual
theorem map_items (parent : Str) (depth : ℕ) : ∀ {node : Node},
    (∀ item ∈ node.items parent depth, item.Admitted) →
      (node.items parent depth).map (fun item => (item.depth, item.kind)) = node.allAt depth
  | .file name content, _ => by cases name <;> rfl
  | .special name, _ => by cases name <;> rfl
  | .directory (.undecodable raw) entries, h =>
      absurd (h _ (List.mem_singleton_self _)) (not_admitted_undecodable rfl)
  | .directory (.text name) entries, h => by
      rw [Node.items, List.map_cons, Node.allAt]
      exact congrArg _ (map_itemsAll _ _ fun item hMem => h item (List.mem_cons_of_mem _ hMem))

theorem map_itemsAll (parent : Str) (depth : ℕ) : ∀ {nodes : List Node},
    (∀ item ∈ itemsAll parent depth nodes, item.Admitted) →
      (itemsAll parent depth nodes).map (fun item => (item.depth, item.kind)) =
        allAtAll depth nodes
  | [], _ => rfl
  | node :: nodes, h => by
      rw [itemsAll, List.forall_mem_append] at h
      rw [itemsAll, List.map_append, allAtAll, map_items parent depth h.1,
        map_itemsAll parent depth h.2]
end

theorem map_topItems {name : Str} {top : Top} (hOther : top ≠ .other)
    (h : ∀ item ∈ top.items name, item.Admitted) :
    (top.items name).map (fun item => (item.depth, item.kind)) = top.all := by
  cases top with
  | missing => rfl
  | other => exact absurd rfl hOther
  | directory entries =>
      rw [Top.items, List.map_cons, Top.all]
      exact congrArg _ (map_itemsAll _ _ fun item hMem => h item (List.mem_cons_of_mem _ hMem))

theorem encode_injective : Function.Injective encode := by
  intro s t h
  have hBytes : s.utf8Encode = t.utf8Encode := congrArg List.toByteArray h
  have hString : String.ofList s = String.ofList t := String.toByteArray_inj.mp hBytes
  rw [← String.toList_ofList (l := s), hString, String.toList_ofList]

theorem logicalPath_eq_of_sortKey {p q : CapturedOgPage Digest} (h : sortKey p = sortKey q) :
    p.logicalPath = q.logicalPath := by
  apply encode_injective
  exact List.map_injective_iff.mpr (fun _ _ => UInt8.toNat_inj.mp) h

theorem nodup_topItems (name : Str) (tree : Subtree) :
    (paths (pagesOf sha256 (tree.top.items name))).Nodup := by
  obtain ⟨top, hWell⟩ := tree
  cases top with
  | missing => exact List.nodup_nil
  | other => exact List.nodup_nil
  | directory entries => exact nodup_itemsAll name 1 (hWell entries rfl)

theorem nodup_allItems (pages journals : Subtree) :
    (paths (pagesOf sha256 (allItems pages.top journals.top))).Nodup := by
  rw [allItems, pagesOf_append, paths, List.map_append]
  refine List.nodup_append.mpr ⟨nodup_topItems _ pages, nodup_topItems _ journals, ?_⟩
  have hFirst : ∀ (name path : Str) (top : Top), path ∈ paths (pagesOf sha256 (top.items name)) →
      ∃ rest, path = name ++ '/' :: rest := by
    intro name path top hPath
    obtain ⟨page, hPage, rfl⟩ := List.mem_map.mp hPath
    cases top with
    | missing => cases hPage
    | other => cases hPage
    | directory entries =>
        have hBelow : page ∈ pagesOf sha256 (itemsAll name 1 entries) := hPage
        obtain ⟨node, -, child, -, hEq | ⟨rest, hEq⟩⟩ := under_of_mem_itemsAll hBelow
        · exact ⟨child, hEq⟩
        · exact ⟨child ++ '/' :: rest, by rw [hEq]; simp⟩
  intro path hPath path' hPath' hEq
  obtain ⟨rest, hRest⟩ := hFirst _ _ _ hPath
  obtain ⟨rest', hRest'⟩ := hFirst _ _ _ hPath'
  have hPages : "pages".toList = 'p' :: "ages".toList := by decide
  have hJournals : "journals".toList = 'j' :: "ournals".toList := by decide
  rw [hEq, hRest', hPages, hJournals] at hRest
  exact absurd (List.cons.inj hRest).1 (by decide)

theorem perm_sortPages (pages : List (CapturedOgPage Digest)) : (sortPages pages).Perm pages :=
  List.perm_insertionSort _ _

/-- Pages with different paths are sorted strictly. -/
theorem sortPages_strict {pages : List (CapturedOgPage Digest)} (h : (paths pages).Nodup) :
    (sortPages pages).Pairwise fun p q => sortKey p < sortKey q := by
  have hTotal : Std.Total fun p q : CapturedOgPage Digest => sortKey p ≤ sortKey q :=
    ⟨fun p q => le_total _ _⟩
  have hTrans : IsTrans (CapturedOgPage Digest) fun p q => sortKey p ≤ sortKey q :=
    ⟨fun _ _ _ hLe hLe' => hLe.trans hLe'⟩
  have hSorted := List.pairwise_insertionSort
    (fun p q : CapturedOgPage Digest => sortKey p ≤ sortKey q) pages
  have hDistinct : (sortPages pages).Pairwise fun p q => p.logicalPath ≠ q.logicalPath := by
    have hNodup : (paths (sortPages pages)).Nodup :=
      ((perm_sortPages pages).map _).nodup_iff.mpr h
    exact List.pairwise_map.mp hNodup
  exact (hSorted.and hDistinct).imp fun hBoth =>
    lt_of_le_of_ne hBoth.1 fun hEq => hBoth.2 (logicalPath_eq_of_sortKey hEq)

/-- The order in which the pages were found is forgotten. -/
theorem sortPages_eq_of_perm {pages pages' : List (CapturedOgPage Digest)}
    (hPerm : pages.Perm pages') (h : (paths pages').Nodup) : sortPages pages = sortPages pages' :=
  RecursiveQuery.insertionSort_eq_of_perm (hPerm.trans (perm_sortPages pages').symm)
    (sortPages_strict h)

/-- Whatever the orders of the enumerations, the capture is the same. -/
theorem capture_of_same {pages pages' journals journals' : Subtree}
    (hPages : SameTop pages.top pages'.top) (hJournals : SameTop journals.top journals'.top)
    {c : OgTopologyCapture Digest}
    (h : captureOgTopology sha256 pages.top journals.top = .ok c) :
    captureOgTopology sha256 pages'.top journals'.top = .ok c := by
  rw [capture_eq_ok] at h ⊢
  obtain ⟨⟨hOther, hOther'⟩, hAdmitted, hWithin, bytes, hBytes, rfl⟩ := h
  have hPerm := allItems_perm hPages hJournals
  have hSorted : sortPages (pagesOf sha256 (allItems pages.top journals.top)) =
      sortPages (pagesOf sha256 (allItems pages'.top journals'.top)) :=
    sortPages_eq_of_perm (hPerm.filterMap _) (nodup_allItems pages' journals')
  have hNotOther : ∀ {top top' : Top}, SameTop top top' → top ≠ .other → top' ≠ .other := by
    rintro _ _ (_ | _ | _) hNe
    · nofun
    · exact hNe
    · nofun
  refine ⟨⟨hNotOther hPages hOther, hNotOther hJournals hOther'⟩,
    fun item hMem => hAdmitted item (hPerm.mem_iff.mpr hMem), within_of_perm hPerm hWithin, bytes,
    ?_, ?_⟩
  · rw [← hSorted]
    exact hBytes
  · rw [hSorted]

mutual
theorem SameNode.symm : ∀ {node node' : Node}, SameNode node node' → SameNode node' node
  | _, _, .file name content => .file name content
  | _, _, .special name => .special name
  | _, _, .directory name h => .directory name h.symm

theorem SameEntries.symm : ∀ {l l' : List Node}, SameEntries l l' → SameEntries l' l
  | _, _, .nil => .nil
  | _, _, .cons hNode hRest => .cons hNode.symm hRest.symm
  | _, _, .swap a b l => .swap b a l
  | _, _, .trans hFirst hSecond => .trans hSecond.symm hFirst.symm
end

theorem SameTop.symm {top top' : Top} (h : SameTop top top') : SameTop top' top := by
  cases h with
  | missing => exact .missing
  | other => exact .other
  | directory hEntries => exact .directory hEntries.symm

/-- What is returned is complete, in order and within the limits. -/
theorem captures_of_eq_ok {pages journals : Subtree} {c : OgTopologyCapture Digest}
    (h : captureOgTopology sha256 pages.top journals.top = .ok c) :
    Captures sha256 pages.top journals.top c := by
  obtain ⟨⟨hOther, hOther'⟩, hAdmitted, hWithin, bytes, -, rfl⟩ := capture_eq_ok.mp h
  have hPerm := perm_sortPages (pagesOf sha256 (allItems pages.top journals.top))
  have hAll : (allItems pages.top journals.top).map (fun item => (item.depth, item.kind)) =
      pages.top.all ++ journals.top.all := by
    rw [allItems, List.forall_mem_append] at hAdmitted
    rw [allItems, List.map_append, map_topItems hOther hAdmitted.1,
      map_topItems hOther' hAdmitted.2]
  have hPage : ∀ page ∈ pagesOf sha256 (allItems pages.top journals.top),
      page.sha256 = sha256 page.content ∧ page.content.length ≤ maxCaptureFileBytes := by
    intro page hMem
    obtain ⟨item, hItem, hEq⟩ := mem_pagesOf.mp hMem
    exact page_of_admitted (hAdmitted item hItem) hEq
  exact
    { exactly := fun path content => by
        have hFiles : (∃ page ∈ pagesOf sha256 (allItems pages.top journals.top),
            page.logicalPath = path ∧ page.content = content) ↔ _ := mem_pages_iff
        simpa only [hPerm.mem_iff] using hFiles
      sorted := sortPages_strict (nodup_allItems pages journals)
      digests := fun page hMem => (hPage page (hPerm.mem_iff.mp hMem)).1
      files := by
        have hFiles := hWithin.files
        rw [State.after, List.length_append] at hFiles
        rw [hPerm.length_eq]
        exact (Nat.le_add_left _ _).trans hFiles
      fileBytes := fun page hMem => (hPage page (hPerm.mem_iff.mp hMem)).2
      bytes := by
        have hSize : sizeOfPages (sortPages (pagesOf sha256 (allItems pages.top journals.top))) =
            sizeOfPages (pagesOf sha256 (allItems pages.top journals.top)) :=
          (hPerm.map _).sum_nat
        rw [hSize]
        exact (Nat.le_add_left _ _).trans hWithin.bytes
      entries := by
        rw [← hAll, List.length_map]
        exact (Nat.le_add_left _ _).trans hWithin.entries
      directories := by
        rw [← hAll, List.countP_map]
        exact hWithin.directories
      depth := by
        rw [← hAll]
        intro entry hEntry hDirectory
        obtain ⟨item, hItem, rfl⟩ := List.mem_map.mp hEntry
        obtain ⟨name, -, -, hKind⟩ := hAdmitted item hItem
        cases hIs : item.kind with
        | directory =>
            rw [hIs] at hKind
            exact hKind
        | file content =>
            rw [isDirectoryEntry, hIs] at hDirectory
            cases hDirectory
        | special =>
            rw [isDirectoryEntry, hIs] at hDirectory
            cases hDirectory }

/-- The digits determine a number that they can hold. -/
theorem bigEndian_injective {width m n : ℕ} (hM : m < 256 ^ width) (hN : n < 256 ^ width)
    (h : bigEndian width m = bigEndian width n) : m = n := by
  induction width generalizing m n with
  | zero =>
      rw [Nat.pow_zero] at hM hN
      omega
  | succ width ih =>
      rw [bigEndian, bigEndian] at h
      obtain ⟨hFront, hLast⟩ := List.append_inj' h rfl
      rw [Nat.pow_succ'] at hM hN
      have hQuotient := ih (Nat.div_lt_of_lt_mul hM) (Nat.div_lt_of_lt_mul hN) hFront
      have hDigit : m % 256 = n % 256 := by
        have hByte := congrArg UInt8.toNat (List.cons.inj hLast).1
        simpa using hByte
      omega

theorem length_bigEndian (width n : ℕ) : (bigEndian width n).length = width := by
  induction width generalizing n with
  | zero => rfl
  | succ width ih => rw [bigEndian, List.length_append, ih, List.length_singleton]

theorem toBytes_eq_ok {width n : ℕ} {bytes : Bytes} :
    toBytes width n = .ok bytes ↔ n < 256 ^ width ∧ bytes = bigEndian width n := by
  rw [toBytes]
  split_ifs with hOver
  · exact ⟨nofun, fun hBoth => absurd hBoth.1 (Nat.not_lt.mpr hOver)⟩
  · rw [Except.ok.injEq, eq_comm]
    exact (and_iff_right (Nat.not_le.mp hOver)).symm

/-- What is hashed of a page, and behind it. -/
theorem revisionBytes_cons {page : CapturedOgPage Digest} {pages : List (CapturedOgPage Digest)}
    {bytes : Bytes} (h : revisionBytes (page :: pages) = .ok bytes) :
    (encode page.logicalPath).length < 256 ^ 4 ∧ page.content.length < 256 ^ 8 ∧
      ∃ rest, revisionBytes pages = .ok rest ∧
        bytes = bigEndian 4 (encode page.logicalPath).length ++ encode page.logicalPath ++
          bigEndian 8 page.content.length ++ page.content ++ rest := by
  rw [revisionBytes] at h
  cases hPath : toBytes 4 (encode page.logicalPath).length with
  | error e =>
      rw [hPath] at h
      cases h
  | ok pathLength =>
      cases hContent : toBytes 8 page.content.length with
      | error e =>
          rw [hPath, hContent] at h
          cases h
      | ok contentLength =>
          cases hRest : revisionBytes pages with
          | error e =>
              rw [hPath, hContent, hRest] at h
              cases h
          | ok rest =>
              rw [hPath, hContent, hRest] at h
              cases h
              obtain ⟨hShort, rfl⟩ := toBytes_eq_ok.mp hPath
              obtain ⟨hShort', rfl⟩ := toBytes_eq_ok.mp hContent
              exact ⟨hShort, hShort', rest, rfl, rfl⟩

/-- A text with its length in front can be told from what is behind it. -/
theorem prefixed_inj {width : ℕ} {a b x y : Bytes} (hA : a.length < 256 ^ width)
    (hB : b.length < 256 ^ width)
    (h : bigEndian width a.length ++ (a ++ x) = bigEndian width b.length ++ (b ++ y)) :
    a = b ∧ x = y := by
  obtain ⟨hLength, hRest⟩ := List.append_inj h (by rw [length_bigEndian, length_bigEndian])
  exact List.append_inj hRest (bigEndian_injective hA hB hLength)

/-- The pages can be read off what is hashed. -/
theorem contents_eq_of_revisionBytes {pages pages' : List (CapturedOgPage Digest)} {bytes : Bytes}
    (h : revisionBytes pages = .ok bytes) (h' : revisionBytes pages' = .ok bytes) :
    pages.map (fun page => (page.logicalPath, page.content)) =
      pages'.map fun page => (page.logicalPath, page.content) := by
  induction pages generalizing pages' bytes with
  | nil =>
      cases h
      cases pages' with
      | nil => rfl
      | cons page pages' =>
          obtain ⟨-, -, rest, -, hEq⟩ := revisionBytes_cons h'
          have hLength := congrArg List.length hEq
          simp only [List.length_nil, List.length_append, length_bigEndian] at hLength
          omega
  | cons page pages ih =>
      obtain ⟨hPath, hContent, rest, hRest, rfl⟩ := revisionBytes_cons h
      cases pages' with
      | nil =>
          cases h'
      | cons page' pages' =>
          obtain ⟨hPath', hContent', rest', hRest', hEq⟩ := revisionBytes_cons h'
          simp only [List.append_assoc] at hEq
          obtain ⟨hEncoded, hBehind⟩ := prefixed_inj hPath hPath' hEq
          obtain ⟨hSame, hRestEq⟩ := prefixed_inj hContent hContent' hBehind
          subst hRestEq
          rw [List.map_cons, List.map_cons, ih hRest hRest', hSame, encode_injective hEncoded]

/-- Only paths and contents are hashed. -/
theorem revisionBytes_congr {pages pages' : List (CapturedOgPage Digest)}
    (h : pages.map (fun page => (page.logicalPath, page.content)) =
      pages'.map fun page => (page.logicalPath, page.content)) :
    revisionBytes pages = revisionBytes pages' := by
  induction pages generalizing pages' with
  | nil =>
      cases pages' with
      | nil => rfl
      | cons page' pages' => cases h
  | cons page pages ih =>
      cases pages' with
      | nil => cases h
      | cons page' pages' =>
          obtain ⟨hPage, hRest⟩ := List.cons.inj h
          obtain ⟨hPath, hContent⟩ := Prod.mk.inj hPage
          rw [revisionBytes, revisionBytes, ih hRest, hPath, hContent]

/-- The revision is that of the list of paths and contents. -/
theorem sourceRevision_eq_iff (hSha : Function.Injective sha256) {pages journals : Top}
    {pages' journals' : Top} {c d : OgTopologyCapture Digest}
    (hC : captureOgTopology sha256 pages journals = .ok c)
    (hD : captureOgTopology sha256 pages' journals' = .ok d) :
    c.sourceRevision = d.sourceRevision ↔ contents c = contents d := by
  obtain ⟨-, -, -, bytes, hBytes, rfl⟩ := capture_eq_ok.mp hC
  obtain ⟨-, -, -, bytes', hBytes', rfl⟩ := capture_eq_ok.mp hD
  constructor
  · intro hEq
    rw [← hSha hEq] at hBytes'
    exact contents_eq_of_revisionBytes hBytes hBytes'
  · intro hEq
    have hSame := revisionBytes_congr hEq
    dsimp only at hSame
    rw [hBytes, hBytes', Except.ok.injEq] at hSame
    exact congrArg sha256 hSame

/-- The capture is the same for all orders of the enumerations, or none of them returns one. It
holds the Markdown files of the two subtrees, sorted, and everything is within the limits; and its
revision stands for the paths and the contents. -/
theorem capture_canonical (sha256 : Bytes → Digest) (hSha : Function.Injective sha256)
    (pages pages' journals journals' : Subtree) (hPages : SameTop pages.top pages'.top)
    (hJournals : SameTop journals.top journals'.top) :
    (∀ c, captureOgTopology sha256 pages.top journals.top = .ok c ↔
      captureOgTopology sha256 pages'.top journals'.top = .ok c) ∧
    ∀ c, captureOgTopology sha256 pages.top journals.top = .ok c →
      Captures sha256 pages.top journals.top c ∧
      ∀ (otherPages otherJournals : Subtree) (d : OgTopologyCapture Digest),
        captureOgTopology sha256 otherPages.top otherJournals.top = .ok d →
        (c.sourceRevision = d.sourceRevision ↔ contents c = contents d) :=
  ⟨fun _ => ⟨capture_of_same hPages hJournals, capture_of_same hPages.symm hJournals.symm⟩,
    fun _ hC => ⟨captures_of_eq_ok hC, fun _ _ _ hD => sourceRevision_eq_iff hSha hC hD⟩⟩

def sampleFile (name : Str) : Node := .file (.text name) []

def sampleTree (entries : List Node) (h : WellFormedAll entries) : Subtree :=
  ⟨.directory entries, fun _ hEq => by cases hEq; exact h⟩

theorem wellFormed_two {first second : Str} (hFirst : '/' ∉ first) (hSecond : '/' ∉ second)
    (hNe : Name.text second ≠ .text first) :
    WellFormedAll [sampleFile first, sampleFile second] :=
  ⟨trivial, hFirst, fun other hMem => by rw [List.mem_singleton.mp hMem]; exact hNe, trivial,
    hSecond, nofun, trivial⟩

def sampleFound : Subtree :=
  sampleTree [sampleFile "b.md".toList, sampleFile "a.md".toList]
    (wellFormed_two (by decide) (by decide) (by decide))

def sampleSwapped : Subtree :=
  sampleTree [sampleFile "a.md".toList, sampleFile "b.md".toList]
    (wellFormed_two (by decide) (by decide) (by decide))

def noJournals : Subtree := ⟨.missing, nofun⟩

theorem exists_sample_capture : ∃ c, captureOgTopology id sampleFound.top noJournals.top = .ok c ∧
    c.pages.map (·.logicalPath) = ["pages/a.md".toList, "pages/b.md".toList] := by
  have hAdmitted : ∀ item ∈ allItems sampleFound.top noJournals.top, item.Admitted := by
    have hFile : ∀ name : Str, '\\' ∉ name → ∀ (parent : Str) (depth : ℕ),
        Item.Admitted ⟨parent, depth, .text name, .file []⟩ :=
      fun name hName parent depth => ⟨name, rfl, hName, fun _ => ⟨Nat.zero_le _, by decide +kernel⟩⟩
    have hItems : allItems sampleFound.top noJournals.top =
        [⟨[], 0, .text "pages".toList, .directory⟩,
          ⟨"pages".toList, 1, .text "b.md".toList, .file []⟩,
          ⟨"pages".toList, 1, .text "a.md".toList, .file []⟩] := rfl
    rw [hItems]
    simp only [List.forall_mem_cons]
    exact ⟨⟨_, rfl, by decide, (by decide : 0 + 1 ≤ maxCaptureDepth)⟩, hFile _ (by decide) _ _,
      hFile _ (by decide) _ _, nofun⟩
  have hWithin : (State.after id initial (allItems sampleFound.top noJournals.top)).Within :=
    ⟨by decide +kernel, by decide +kernel, by decide +kernel, by decide +kernel⟩
  refine ⟨_, capture_eq_ok.mpr ⟨⟨nofun, nofun⟩, hAdmitted, hWithin, _, rfl, rfl⟩, ?_⟩
  decide +kernel

/-- Two files that are enumerated in both orders. -/
theorem capture_canonical_two_files :
    ∃ c, captureOgTopology id sampleSwapped.top noJournals.top = .ok c ∧
      c.pages.map (·.logicalPath) = ["pages/a.md".toList, "pages/b.md".toList] := by
  obtain ⟨c, hC, hPaths⟩ := exists_sample_capture
  have hBoth := capture_canonical id Function.injective_id sampleFound sampleSwapped noJournals
    noJournals (.directory (.swap _ _ _)) .missing
  exact ⟨c, (hBoth.1 c).mp hC, hPaths⟩

end Results

end Plumber.OgTopologySnapshot
