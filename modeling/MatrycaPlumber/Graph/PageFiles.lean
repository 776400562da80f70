import MatrycaPlumber.Text.Basic

/-! Page files with their modification times, which the optimistic writers
compare instead of the contents. -/
namespace Plumber.PageFiles

open PyText

structure FileState where
  text : Str
  mtimeNs : Nat
  deriving DecidableEq

/-- The files of the graph by their paths. -/
abbrev Disk := Str → Option FileState

def setAt {β : Type} (f : Str → β) (path : Str) (b : β) : Str → β :=
  fun p => if p = path then b else f p

theorem setAt_self {β : Type} (f : Str → β) (path : Str) (b : β) : setAt f path b path = b :=
  if_pos rfl

theorem setAt_ne {β : Type} (f : Str → β) {path p : Str} (b : β) (h : p ≠ path) :
    setAt f path b p = f p :=
  if_neg h

/-- The time of an edited file is not the one it had. -/
def changesMtime (old new : Option FileState) : Bool :=
  match old, new with
  | some old, some new => old.mtimeNs != new.mtimeNs
  | _, _ => true

/-- An integer baseline below `10 ^ 12` counts whole seconds. -/
def mtimeDrifted (mtimeNs baselineMtime : Nat) : Bool :=
  if baselineMtime < 10 ^ 12 then mtimeNs / 10 ^ 9 != baselineMtime else mtimeNs != baselineMtime

/-- `file_mtime_drifted`; a file that is not there has drifted. -/
def fileMtimeDrifted (file : Option FileState) (baselineMtime : Nat) : Bool :=
  match file with
  | none => true
  | some file => mtimeDrifted file.mtimeNs baselineMtime

end Plumber.PageFiles
