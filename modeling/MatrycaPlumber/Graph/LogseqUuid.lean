import MatrycaPlumber.Graph.GlobalFenceScanner
import MatrycaPlumber.Graph.MarkdownBlocks

/-! The `((uuid))` block references of a page that are no UUIDs. -/
namespace Plumber.LogseqUuid

open PyText GlobalFenceScanner MarkdownBlocks

/-- `_BLOCK_REF_INNER_RE` at the start of a text. -/
def blockRefInner? : Str → Option Str
  | '(' :: '(' :: rest =>
      let inner := rest.takeWhile (· ≠ ')')
      if inner ≠ [] ∧ startsWith "))".toList (rest.drop inner.length) then some inner else none
  | _ => none

/-- The matches in a line from left to right; `skip` characters of the last one
are still to be passed. -/
def blockRefInners : Nat → Str → List Str
  | _, [] => []
  | skip + 1, _ :: rest => blockRefInners skip rest
  | 0, c :: rest =>
      match blockRefInner? (c :: rest) with
      | some inner => inner :: blockRefInners (inner.length + 3) rest
      | none => blockRefInners 0 rest

def malformedRefsFrom (protectedLine : Nat → Bool) : Nat → List Str → List Str
  | _, [] => []
  | i, line :: lines =>
      (if protectedLine i then []
        else ((blockRefInners 0 line).map strip).filter fun inner => !isUuidText inner) ++
      malformedRefsFrom protectedLine (i + 1) lines

def findMalformedBlockRefs (text : Str) : List Str :=
  malformedRefsFrom (computePageProtectedLineIndices text) 0 (splitlines text)

example : findMalformedBlockRefs "- ((a b)) and (((c))\n```\n((d))\n```\n".toList =
    ["a b".toList, "(c".toList] := by
  decide +kernel

end Plumber.LogseqUuid
