import MatrycaPlumber.System.Dict
import MatrycaPlumber.Text.Basic

/-! Page files and the signatures that the caches compare: the time of every file. -/
namespace Plumber.Generational

open PyText PyDict

/-- A page file; its text is missing if it cannot be read. -/
structure SourceFile where
  mtimeNs : Int
  text : Option Str
  deriving DecidableEq

abbrev Files (π : Type) := Dict π SourceFile

abbrev Signature (π : Type) := Dict π Int

variable {π : Type} [DecidableEq π]

def mtimeNs (files : Files π) (path : π) : Option Int :=
  (files.lookup path).map SourceFile.mtimeNs

def signature (files : Files π) (paths : List π) : Signature π :=
  readAll (mtimeNs files) paths ∅

def patchSignature (sig : Signature π) (files : Files π) (updatedPaths removedRels : List π) :
    Signature π :=
  readAll (mtimeNs files) updatedPaths (popAll removedRels sig)

/-- The text of a file that is there and can be read. -/
def readText (files : Files π) (path : π) : Option Str :=
  (files.lookup path).bind SourceFile.text

variable (files : Files π) (path : π)

theorem lookup_signature (paths : List π) :
    (signature files paths).lookup path = if path ∈ paths then mtimeNs files path else none := by
  rw [signature, lookup_readAll]
  rfl

theorem lookup_patchSignature (sig : Signature π) (updatedPaths removedRels : List π) :
    (patchSignature sig files updatedPaths removedRels).lookup path =
      if path ∈ updatedPaths then mtimeNs files path
      else if path ∈ removedRels then none else sig.lookup path := by
  rw [patchSignature, lookup_readAll, lookup_popAll]

theorem mtimeNs_eq_none : mtimeNs files path = none ↔ files.lookup path = none := by
  rw [mtimeNs, Option.map_eq_none_iff]

theorem readText_of_missing {files : Files π} {path : π} (h : mtimeNs files path = none) :
    readText files path = none := by
  rw [mtimeNs_eq_none] at h
  rw [readText, h]
  rfl

/-- The signature of all files is that of each of them. -/
theorem lookup_signature_of_mem {paths : List π}
    (hPaths : (files.lookup path).isSome → path ∈ paths) :
    (signature files paths).lookup path = mtimeNs files path := by
  rw [lookup_signature]
  split_ifs with hMem
  · rfl
  · cases hFile : files.lookup path with
    | none => exact ((mtimeNs_eq_none files path).mpr hFile).symm
    | some file => exact absurd (hPaths (by rw [hFile]; rfl)) hMem

end Plumber.Generational
