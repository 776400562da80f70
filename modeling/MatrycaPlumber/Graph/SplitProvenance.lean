import MatrycaPlumber.Graph.SplitSentences
import MatrycaPlumber.Text.Pieces

/-! The split loop with the origin of every line written next to it. Erasing the
origins gives the loop of the program. -/
namespace Plumber.SplitLargeBlocks

open PyText MarkdownBlocks

/-- Where a line comes from. A new child remembers the bullet it was cut from. -/
inductive Origin where
  | old (i : Nat)
  | rewritten (i : Nat)
  | child (i : Nat)
  | childId (i : Nat)
  deriving DecidableEq

/-- The old line that a line is or replaces. -/
def Origin.index : Origin → Option Nat
  | .old i => some i
  | .rewritten i => some i
  | _ => none

/-- The bullet that a line belongs to after a split of it. -/
def Origin.block : Origin → Nat
  | .old i => i
  | .rewritten i => i
  | .child i => i
  | .childId i => i

abbrev Piece := Origin × Str

def texts (cur : List Piece) : List Str := cur.map Prod.snd

def tagLines (lines : List Str) : List Piece := lines.zipIdx.map fun p => (.old p.2, p.1)

def childPieces (i : Nat) (childWs : Str) (freshUuid : Nat → Uuid) : Nat → List Str → List Piece
  | _, [] => []
  | k, sent :: sents =>
      (.child i, childWs ++ "- ".toList ++ sent ++ ['\n']) ::
        (.childId i, childWs ++ "  id:: ".toList ++ (freshUuid k).text ++ ['\n']) ::
          childPieces i childWs freshUuid (k + 1) sents

/-- `applyOneSplit` with origins. -/
def tagSplit (freshUuid : Nat → Uuid) (k : Nat) (cur : List Piece) (cand : Candidate) :
    List Piece :=
  match bulletMatch? ((strippedLines (texts cur)).getD cand.bulletIdx []) with
  | none => cur
  | some (ws, mark, _) =>
      let childWs := ws ++ bulletIndentUnit (texts cur) cand.bulletIdx
      let old := cur.getD cand.bulletIdx (.old 0, [])
      let newBullet := rewriteBullet ws mark (cand.sents.headD []) old.2
      cur.take cand.bulletIdx ++ [(.rewritten old.1.block, newBullet)] ++
        slice cur (cand.bulletIdx + 1) (cand.idLineIdx + 1) ++
          childPieces old.1.block childWs freshUuid k cand.sents.tail ++
            cur.drop (cand.idLineIdx + 1)

/-- The pieces of the page after the loop. -/
def tagLoop (tables : CaseTables) (freshUuid : Nat → Uuid) (minChars : Int)
    (isProtected : Nat → Bool) : Nat → Nat → List Piece → List Piece
  | 0, _, cur => cur
  | allowed + 1, k, cur =>
      match collectCandidates tables (strippedLines (texts cur)) minChars isProtected with
      | [] => cur
      | cand :: _ =>
          tagLoop tables freshUuid minChars isProtected allowed (k + cand.sents.tail.length)
            (tagSplit freshUuid k cur cand)

/-- Every split of the loop is made in a state of which `C` holds. -/
def EverySplit (tables : CaseTables) (freshUuid : Nat → Uuid) (minChars : Int)
    (isProtected : Nat → Bool) (C : List Piece → Candidate → Prop) :
    Nat → Nat → List Piece → Prop
  | 0, _, _ => True
  | allowed + 1, k, cur =>
      match collectCandidates tables (strippedLines (texts cur)) minChars isProtected with
      | [] => True
      | cand :: _ =>
          C cur cand ∧ EverySplit tables freshUuid minChars isProtected C allowed
            (k + cand.sents.tail.length) (tagSplit freshUuid k cur cand)

theorem texts_tagLines (lines : List Str) : texts (tagLines lines) = lines := by
  rw [texts, tagLines, List.map_map]
  exact List.zipIdx_map_fst 0 lines

theorem texts_childPieces (i : Nat) (childWs : Str) (freshUuid : Nat → Uuid) (k : Nat)
    (sents : List Str) :
    texts (childPieces i childWs freshUuid k sents) = childLines childWs freshUuid k sents := by
  induction sents generalizing k with
  | nil => rfl
  | cons sent sents ih =>
      have ih := ih (k + 1)
      simp only [texts] at ih
      simp [texts, childPieces, childLines, ih]

theorem texts_tagSplit (freshUuid : Nat → Uuid) (k : Nat) (cur : List Piece) (cand : Candidate) :
    texts (tagSplit freshUuid k cur cand) = applyOneSplit freshUuid k (texts cur) cand := by
  have hOld : (texts cur).getD cand.bulletIdx [] = (cur.getD cand.bulletIdx (.old 0, [])).2 := by
    simp only [texts, List.getD_eq_getElem?_getD, List.getElem?_map]
    cases cur[cand.bulletIdx]? <;> rfl
  cases hMatch : bulletMatch? ((strippedLines (texts cur)).getD cand.bulletIdx []) with
  | none => simp only [tagSplit, applyOneSplit, hMatch]
  | some m =>
      obtain ⟨ws, mark, rest⟩ := m
      have hChildren := texts_childPieces (cur.getD cand.bulletIdx (.old 0, [])).1.block
        (ws ++ bulletIndentUnit (texts cur) cand.bulletIdx) freshUuid k cand.sents.tail
      simp only [tagSplit, applyOneSplit, hMatch, hOld, ← hChildren]
      simp [texts, slice, List.map_take, List.map_drop]

/-- Erasing the origins gives the program's loop. -/
theorem texts_tagLoop (tables : CaseTables) (freshUuid : Nat → Uuid) (pageRef : Str)
    (minChars : Int) (isProtected : Nat → Bool) (allowed k : Nat) (cur : List Piece) :
    texts (tagLoop tables freshUuid minChars isProtected allowed k cur) =
      (splitLoop tables freshUuid pageRef minChars isProtected allowed k (texts cur)).2 := by
  induction allowed generalizing k cur with
  | zero => rfl
  | succ allowed ih =>
      rw [tagLoop, splitLoop]
      cases hCands : collectCandidates tables (strippedLines (texts cur)) minChars isProtected with
      | nil => rfl
      | cons cand cands =>
          simp only
          rw [ih, texts_tagSplit]

/-- The width of a bullet's indentation, for a bullet line. -/
def bulletLevel (line : Str) : Option Nat :=
  (bulletMatch? (rstripChars ['\n'] line)).map fun m => m.1.length

/-- A bullet above lines of the given level; every bullet is above a line that
is no bullet. -/
def isAbove (level : Option Nat) (line : Str) : Bool :=
  match bulletLevel line, level with
  | some w, some v => w < v
  | some _, none => true
  | none, _ => false

/-- The nearest bullet above a line of the given level, named by the old line it
is or replaces; a new child has no such name. -/
def owner (level : Option Nat) (before : List Piece) : Option (Option Nat) :=
  (before.reverse.find? fun p => isAbove level p.2).map fun p => p.1.index

/-- The old line is a line of its own in the joined text. -/
def KeptLine (lines : List Str) (cur : List Piece) (j : Nat) : Prop :=
  ∃ before after, cur = before ++ (.old j, lines.getD j []) :: after ∧
    OwnLine (texts before) (lines.getD j []) (texts after)

/-- The old line stands under the bullet it stood under before. -/
def SameOwner (lines : List Str) (cur : List Piece) (j : Nat) : Prop :=
  ∃ before after, cur = before ++ (.old j, lines.getD j []) :: after ∧
    owner (bulletLevel (lines.getD j [])) before =
      owner (bulletLevel (lines.getD j [])) ((tagLines lines).take j)

/-- The text after a bullet's marker. -/
def bodyOf (line : Str) : Option Str :=
  (bulletMatch? (rstripChars ['\n'] line)).map fun m => m.2.2

/-- The sentences that the old bullet `j` was cut into, in page order. -/
def sentencesOf (cur : List Piece) (j : Nat) : List Str :=
  cur.filterMap fun p => if p.1 = .rewritten j ∨ p.1 = .child j then bodyOf p.2 else none

end Plumber.SplitLargeBlocks
