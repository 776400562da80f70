import MatrycaPlumber.Agent.OutlineWrite
import MatrycaPlumber.Graph.BlockChildren
import MatrycaPlumber.System.DepthShapes
import Mathlib.Data.List.Forall2

/-! The Markdown that an outline is written as, and the bullets that are read from it. -/
namespace Plumber.OutlineEmission

open PyText MarkdownBlocks OutlineModels GraphDispatch DepthShapes

section Tana

variable (freshUuid : ℕ → Uuid) (tabSize : ℕ)

mutual

/-- `_emit_outline_node`: the lines of a node and of what is below it, and the number of
identifiers drawn so far. -/
def emitOutlineNode (indentLevel k : ℕ) : OutlineNode → List Str × ℕ
  | .mk text properties children =>
      let blockUuid := (freshUuid k).text
      let bulletIndent := List.replicate (indentLevel * tabSize) ' '
      let bodyIndent := List.replicate ((indentLevel + 1) * tabSize) ' '
      let (lines, k') := emitOutlineNodes (indentLevel + 1) (k + 1) children
      (blockLines bulletIndent bodyIndent text properties blockUuid ++ lines, k')

def emitOutlineNodes (indentLevel k : ℕ) : List OutlineNode → List Str × ℕ
  | [] => ([], k)
  | node :: nodes =>
      let (lines, k') := emitOutlineNode indentLevel k node
      let (lines', k'') := emitOutlineNodes indentLevel k' nodes
      (lines ++ lines', k'')

end

def outlineToMarkdown (roots : List OutlineNode) : Str :=
  canonicalLines (emitOutlineNodes freshUuid tabSize 0 0 roots).1

end Tana

section Reading

/-- The lines of a text that are bullets. -/
def bulletLines (text : Str) : List Str :=
  (stripLinesForMatch (splitlinesKeep text)).filter fun line => (bulletIndent? line).isSome

def bulletWidths (text : Str) : List ℕ :=
  (bulletLines text).map fun line => ((bulletIndent? line).getD []).length

mutual

/-- The nodes of an outline with their depths, depth first. -/
def preorderAt (level : ℕ) : OutlineNode → List (ℕ × OutlineNode)
  | .mk text properties children =>
      (level, .mk text properties children) :: preorderAllAt (level + 1) children

def preorderAllAt (level : ℕ) : List OutlineNode → List (ℕ × OutlineNode)
  | [] => []
  | node :: nodes => preorderAt level node ++ preorderAllAt level nodes

end

mutual

def shape : OutlineNode → Shape
  | .mk _ _ children => .node (shapes children)

def shapes : List OutlineNode → List Shape
  | [] => []
  | node :: nodes => shape node :: shapes nodes

end

/-- The bullet line of a node at a depth. -/
def nodeBullet (tabSize : ℕ) (entry : ℕ × OutlineNode) : Str :=
  List.replicate (entry.1 * tabSize) ' ' ++ "- ".toList ++ (splitlines entry.2.text).headD []

/-- The text of a property as it stands in `_property_lines`. -/
def propertyLine (entry : Str × Str) : Str :=
  (if endsWith "::".toList entry.1 then entry.1 else entry.1 ++ "::".toList) ++ ' ' :: entry.2

/-- A line as it is written to the page. -/
def written (line : Str) : Str := stripLineEndings line ++ ['\n']

/-- No line of the text but the first, and no line of a property, looks like a bullet. -/
structure PlainBody (node : OutlineNode) : Prop where
  text : ∀ line ∈ (splitlines node.text).tail, bulletIndent? line = none
  properties : ∀ entry ∈ node.properties, bulletLines (written (propertyLine entry)) = []

/-- The block is that of a node at a depth. -/
def BlockAt (tabSize : ℕ) (block : List Str × Uuid) (entry : ℕ × OutlineNode) : Prop :=
  block.1 = blockLines (List.replicate (entry.1 * tabSize) ' ')
    (List.replicate ((entry.1 + 1) * tabSize) ' ') entry.2.text entry.2.properties block.2.text

end Reading

section Blocks

variable (out : Outside) (freshUuid : ℕ → Uuid) (tabSize : ℕ)

mutual

/-- The headless writer writes one block for each node, depth first. -/
theorem emitNode_blocks (level k : ℕ) : ∀ node : OutlineNode, ∃ blocks : List (List Str × Uuid),
    (emitNode out level k node).1 = (blocks.map Prod.fst).flatten ∧
      (emitNode out level k node).2 = blocks.map (fun block => block.2.text) ∧
      List.Forall₂ (BlockAt out.tabSize) blocks (preorderAt level node)
  | .mk text properties children => by
      obtain ⟨blocks, hLines, hIds, hBlocks⟩ := emitAll_blocks (level + 1) (k + 1) children
      rw [emitNode, preorderAt]
      refine ⟨(blockLines (List.replicate (level * out.tabSize) ' ')
        (List.replicate ((level + 1) * out.tabSize) ' ') text properties (out.freshUuid k).text,
          out.freshUuid k) :: blocks, ?_, ?_, .cons rfl hBlocks⟩
      · simp only [hLines, List.map_cons, List.flatten_cons]
      · simp only [hIds, List.map_cons]

theorem emitAll_blocks (level k : ℕ) : ∀ nodes : List OutlineNode,
    ∃ blocks : List (List Str × Uuid),
      (emitAll out level k nodes).1 = (blocks.map Prod.fst).flatten ∧
        (emitAll out level k nodes).2 = blocks.map (fun block => block.2.text) ∧
        List.Forall₂ (BlockAt out.tabSize) blocks (preorderAllAt level nodes)
  | [] => ⟨[], rfl, rfl, .nil⟩
  | node :: nodes => by
      obtain ⟨blocks, hLines, hIds, hBlocks⟩ := emitNode_blocks level k node
      obtain ⟨blocks', hLines', hIds', hBlocks'⟩ :=
        emitAll_blocks level (k + (emitNode out level k node).2.length) nodes
      rw [emitAll, preorderAllAt]
      refine ⟨blocks ++ blocks', ?_, ?_, List.rel_append hBlocks hBlocks'⟩
      · simp only [hLines, hLines', List.map_append, List.flatten_append]
      · simp only [List.map_append, ← hIds, ← hIds']

end

mutual

/-- The Tana writer does so as well. -/
theorem emitOutlineNode_blocks (level k : ℕ) : ∀ node : OutlineNode,
    ∃ blocks : List (List Str × Uuid),
      (emitOutlineNode freshUuid tabSize level k node).1 = (blocks.map Prod.fst).flatten ∧
        List.Forall₂ (BlockAt tabSize) blocks (preorderAt level node)
  | .mk text properties children => by
      obtain ⟨blocks, hLines, hBlocks⟩ := emitOutlineNodes_blocks (level + 1) (k + 1) children
      rw [emitOutlineNode, preorderAt]
      refine ⟨(blockLines (List.replicate (level * tabSize) ' ')
        (List.replicate ((level + 1) * tabSize) ' ') text properties (freshUuid k).text,
          freshUuid k) :: blocks, ?_, .cons rfl hBlocks⟩
      simp only [hLines, List.map_cons, List.flatten_cons]

theorem emitOutlineNodes_blocks (level k : ℕ) : ∀ nodes : List OutlineNode,
    ∃ blocks : List (List Str × Uuid),
      (emitOutlineNodes freshUuid tabSize level k nodes).1 = (blocks.map Prod.fst).flatten ∧
        List.Forall₂ (BlockAt tabSize) blocks (preorderAllAt level nodes)
  | [] => ⟨[], rfl, .nil⟩
  | node :: nodes => by
      obtain ⟨blocks, hLines, hBlocks⟩ := emitOutlineNode_blocks level k node
      obtain ⟨blocks', hLines', hBlocks'⟩ := emitOutlineNodes_blocks level
        (emitOutlineNode freshUuid tabSize level k node).2 nodes
      rw [emitOutlineNodes, preorderAllAt]
      refine ⟨blocks ++ blocks', ?_, List.rel_append hBlocks hBlocks'⟩
      simp only [hLines, hLines', List.map_append, List.flatten_append]

end

end Blocks

section Lines

variable {indent line : Str}

theorem bulletLines_append {s : Str} (h : Terminated s) (t : Str) :
    bulletLines (s ++ t) = bulletLines s ++ bulletLines t := by
  rw [bulletLines, h t, stripLinesForMatch, List.map_append, List.filter_append]
  rfl

theorem terminated_flatten {ls : List Str} (h : ∀ l ∈ ls, Terminated l) : Terminated ls.flatten := by
  induction ls with
  | nil => exact fun t => rfl
  | cons l ls ih =>
      rw [List.forall_mem_cons] at h
      intro t
      rw [List.flatten_cons, List.append_assoc, h.1, h.1, ih h.2, List.append_assoc]

theorem bulletLines_flatten {ls : List Str} (h : ∀ l ∈ ls, Terminated l) :
    bulletLines ls.flatten = ls.flatMap bulletLines := by
  induction ls with
  | nil => rfl
  | cons l ls ih =>
      rw [List.forall_mem_cons] at h
      rw [List.flatten_cons, bulletLines_append h.1, ih h.2, List.flatMap_cons]

theorem terminated_written (line : Str) : Terminated (written line) := terminated_newline _

theorem stripLineEndings_of_free (h : ∀ c ∈ line, isLineBreak c = false) :
    stripLineEndings line = line := by
  rw [stripLineEndings, rstripChars, List.rdropWhile_eq_self_iff]
  intro hNe hLast
  have hFree := h _ (List.getLast_mem hNe)
  generalize line.getLast hNe = c at hLast hFree
  have hEnding : c = '\r' ∨ c = '\n' := by simpa using hLast
  rcases hEnding with rfl | rfl <;> revert hFree <;> decide

theorem stripLineEndings_append (hIndent : ∀ c ∈ indent, isLineBreak c = false) (line : Str) :
    stripLineEndings (indent ++ line) = indent ++ stripLineEndings line := by
  induction line using List.reverseRecOn with
  | nil => rw [List.append_nil, stripLineEndings_of_free hIndent]; exact (List.append_nil _).symm
  | append_singleton line c ih =>
      rw [← List.append_assoc]
      by_cases hc : (['\r', '\n'] : Str).contains c = true
      · rw [stripLineEndings, rstripChars, List.rdropWhile_concat_pos _ _ _ hc, stripLineEndings,
          rstripChars, List.rdropWhile_concat_pos _ _ _ hc]
        exact ih
      · rw [stripLineEndings, rstripChars, List.rdropWhile_concat_neg _ _ _ hc, stripLineEndings,
          rstripChars, List.rdropWhile_concat_neg _ _ _ hc, List.append_assoc]

theorem written_append (hIndent : ∀ c ∈ indent, isLineBreak c = false) (line : Str) :
    written (indent ++ line) = indent ++ written line := by
  rw [written, stripLineEndings_append hIndent, List.append_assoc]
  rfl

/-- A line without a break in it is read as it was written. -/
theorem bulletLines_written (h : ∀ c ∈ line, isLineBreak c = false) :
    bulletLines (written line) = if (bulletIndent? line).isSome then [line] else [] := by
  have hClosed : Closed (line ++ ['\n']) := closed_append_newline h
  have hLines : splitlinesKeep (line ++ ['\n']) = [line ++ ['\n']] := by
    have := splitlinesKeep_closed_append hClosed []
    rwa [List.append_nil] at this
  have hCore : stripLineEndings (line ++ ['\n']) = line := by
    rw [stripLineEndings_append h]
    exact List.append_nil line
  rw [written, stripLineEndings_of_free h, bulletLines, hLines, stripLinesForMatch,
    List.map_singleton, hCore, List.filter_singleton]
  cases (bulletIndent? line).isSome <;> rfl

theorem bulletIndent?_isSome_append (hIndent : isBlank indent = true) (line : Str) :
    (bulletIndent? (indent ++ line)).isSome = (bulletIndent? line).isSome := by
  rw [isBlank, List.all_eq_true] at hIndent
  have hDrop : (indent ++ line).dropWhile isSpace = line.dropWhile isSpace := by
    rw [List.dropWhile_append, List.dropWhile_eq_nil_iff.mpr hIndent]
    rfl
  rw [bulletIndent?, bulletIndent?, hDrop]
  split
  · split_ifs <;> rfl
  · rfl

/-- Indentation in front of a text makes and takes no bullets. -/
theorem bulletLines_indent (hBlank : isBlank indent = true)
    (hIndent : ∀ c ∈ indent, isLineBreak c = false) {t : Str} (ht : t ≠ []) :
    bulletLines (indent ++ t) = [] ↔ bulletLines t = [] := by
  cases hLines : splitlinesKeep t with
  | nil => exact absurd (splitlinesKeep_eq_nil.mp hLines) ht
  | cons m ms =>
      rw [bulletLines, bulletLines, splitlinesKeep_free_append t hIndent hLines, hLines]
      simp only [stripLinesForMatch, List.map_cons, List.filter_eq_nil_iff, List.forall_mem_cons,
        stripLineEndings_append hIndent, bulletIndent?_isSome_append hBlank]

end Lines

section Node

variable {n m tabSize : ℕ} {text blockUuid : Str} {properties : List (Str × Str)}

theorem isBlank_spaces (n : ℕ) : isBlank (List.replicate n ' ') = true := by
  rw [isBlank, List.all_eq_true]
  intro c hc
  rw [List.eq_of_mem_replicate hc]
  decide

theorem spaces_free (n : ℕ) : ∀ c ∈ List.replicate n ' ', isLineBreak c = false := by
  intro c hc
  rw [List.eq_of_mem_replicate hc]
  decide

theorem canonicalLines_append (a b : List Str) :
    canonicalLines (a ++ b) = canonicalLines a ++ canonicalLines b := by
  rw [canonicalLines, List.map_append, List.flatten_append, canonicalLines, canonicalLines]

theorem stripLineEndings_newline (line : Str) :
    stripLineEndings (line ++ ['\n']) = stripLineEndings line :=
  List.rdropWhile_concat_pos _ _ _ (by decide)

theorem canonicalLines_newlines (lines : List Str) :
    canonicalLines (lines.map (· ++ ['\n'])) = (lines.map written).flatten := by
  rw [canonicalLines, List.map_map]
  congr 1
  apply List.map_congr_left
  intro line _
  have hSuffix : canonicalLineSuffix (line ++ ['\n']) = ['\n'] := by
    simp [canonicalLineSuffix]
  show stripLineEndings (line ++ ['\n']) ++ canonicalLineSuffix (line ++ ['\n']) = _
  rw [hSuffix, stripLineEndings_newline]
  rfl

/-- The lines of a block without their newlines. -/
def blockBodies (bulletIndent bodyIndent content : Str) (properties : List (Str × Str))
    (blockUuid : Str) : List Str :=
  (bulletIndent ++ "- ".toList ++ stripLineEndings ((splitlines content).headD [])) ::
    ((splitlines content).tail.map fun line => bodyIndent ++ stripLineEndings line) ++
      (propertyLines properties blockUuid).map fun line => bodyIndent ++ line

theorem blockLines_eq (bulletIndent bodyIndent content : Str) (properties : List (Str × Str))
    (blockUuid : Str) : blockLines bulletIndent bodyIndent content properties blockUuid =
      (blockBodies bulletIndent bodyIndent content properties blockUuid).map (· ++ ['\n']) := by
  simp only [blockLines, blockBodies, List.map_append, List.map_cons, List.map_map]
  rfl

theorem propertyLines_eq (properties : List (Str × Str)) (blockUuid : Str) :
    propertyLines properties blockUuid = properties.map propertyLine ++
      if (properties.map propertyLine).any fun line => startsWith "id::".toList (strip line) then []
      else ["id:: ".toList ++ blockUuid] := by
  rw [propertyLines]
  show (if ((properties.map propertyLine).any fun line => startsWith "id::".toList (strip line)) = true
    then properties.map propertyLine else properties.map propertyLine ++ _) = _
  split_ifs
  · rw [List.append_nil]
  · rfl

theorem free_of_mem_tail {line : Str} (h : line ∈ (splitlines text).tail) :
    ∀ c ∈ line, isLineBreak c = false :=
  fun _ hc => isLineBreak_of_mem_splitlines (List.mem_of_mem_tail h) hc

theorem free_head : ∀ c ∈ (splitlines text).headD [], isLineBreak c = false := by
  cases hLines : splitlines text with
  | nil => exact List.forall_mem_nil _
  | cons first rest =>
      intro c hc
      exact isLineBreak_of_mem_splitlines (hLines ▸ List.mem_cons_self) hc

theorem bulletIndent?_nodeBullet (entry : ℕ × OutlineNode) :
    bulletIndent? (nodeBullet tabSize entry) =
      some (List.replicate (entry.1 * tabSize) ' ') := by
  rw [bulletIndent?_eq_some]
  exact ⟨'-', ' ', (splitlines entry.2.text).headD [], by simp [nodeBullet], isBlank_spaces _,
    by decide, by decide⟩

theorem bulletLines_id (u : Uuid) :
    bulletLines (written (List.replicate m ' ' ++ ("id:: ".toList ++ u.text))) = [] := by
  have hFree : ∀ c ∈ List.replicate m ' ' ++ ("id:: ".toList ++ u.text), isLineBreak c = false := by
    intro c hc
    rcases List.mem_append.mp hc with hSpace | hId
    · exact spaces_free m c hSpace
    · rcases List.mem_append.mp hId with hKey | hUuid
      · have hAll : ∀ c ∈ "id:: ".toList, isLineBreak c = false := by decide
        exact hAll c hKey
      · exact not_isLineBreak_of_not_isSpace (u.not_isSpace hUuid)
  rw [bulletLines_written hFree, bulletIndent?_isSome_append (isBlank_spaces m), if_neg]
  simp [bulletIndent?, isSpace, isListMarker]

theorem bulletLines_first (entry : ℕ × OutlineNode) :
    bulletLines (written (List.replicate (entry.1 * tabSize) ' ' ++ "- ".toList ++
      stripLineEndings ((splitlines entry.2.text).headD []))) = [nodeBullet tabSize entry] := by
  rw [stripLineEndings_of_free free_head]
  have hFree : ∀ c ∈ nodeBullet tabSize entry, isLineBreak c = false := by
    intro c hc
    rcases List.mem_append.mp hc with hMarker | hHead
    · rcases List.mem_append.mp hMarker with hSpace | hDash
      · exact spaces_free _ c hSpace
      · have hAll : ∀ c ∈ "- ".toList, isLineBreak c = false := by decide
        exact hAll c hDash
    · exact free_head c hHead
  have hBullet := bulletLines_written hFree
  rw [bulletIndent?_nodeBullet, Option.isSome_some, if_pos rfl] at hBullet
  exact hBullet

theorem bulletLines_extra {line : Str} (h : ∀ c ∈ line, isLineBreak c = false) :
    bulletLines (written (List.replicate m ' ' ++ stripLineEndings line)) = [] ↔
      bulletIndent? line = none := by
  have hFree : ∀ c ∈ List.replicate m ' ' ++ line, isLineBreak c = false := fun c hc =>
    (List.mem_append.mp hc).elim (spaces_free m c) (h c)
  rw [stripLineEndings_of_free h, bulletLines_written hFree,
    bulletIndent?_isSome_append (isBlank_spaces m)]
  cases bulletIndent? line with
  | none => simp
  | some ws => simp

theorem bulletLines_property {line : Str} :
    bulletLines (written (List.replicate m ' ' ++ line)) = [] ↔ bulletLines (written line) = [] := by
  rw [written_append (spaces_free m)]
  exact bulletLines_indent (isBlank_spaces m) (spaces_free m) (by simp [written])

/-- The bullets of a written block: that of its node, and those of its body. -/
theorem bulletLines_block {entry : ℕ × OutlineNode} {block : List Str × Uuid}
    (h : BlockAt tabSize block entry) :
    ∃ body, bulletLines (canonicalLines block.1) = nodeBullet tabSize entry :: body ∧
      (body = [] ↔ PlainBody entry.2) := by
  rw [h, blockLines_eq, canonicalLines_newlines, bulletLines_flatten, List.flatMap_map]
  · rw [blockBodies, List.cons_append, List.flatMap_cons, bulletLines_first,
      List.singleton_append]
    refine ⟨_, rfl, ?_⟩
    rw [List.flatMap_eq_nil_iff, List.forall_mem_append, propertyLines_eq, List.map_append,
      List.forall_mem_append]
    simp only [List.forall_mem_map]
    constructor
    · rintro ⟨hText, hProps, -⟩
      constructor
      · intro line hLine
        exact (bulletLines_extra (free_of_mem_tail hLine)).mp (hText line hLine)
      · intro entry hEntry
        exact bulletLines_property.mp (hProps entry hEntry)
    · rintro ⟨hText, hProps⟩
      refine ⟨fun line hLine => (bulletLines_extra (free_of_mem_tail hLine)).mpr (hText line hLine),
        fun entry hEntry => bulletLines_property.mpr (hProps entry hEntry), ?_⟩
      intro line hLine
      split_ifs at hLine
      · cases hLine
      · rw [List.mem_singleton.mp hLine]
        exact bulletLines_id block.2
  · intro l hl
    obtain ⟨line, -, rfl⟩ := List.mem_map.mp hl
    exact terminated_written line

end Node

section Outline

variable {tabSize : ℕ} {blocks : List (List Str × Uuid)} {entries : List (ℕ × OutlineNode)}

/-- The bullets of an outline: for each node that of the node, and those of its body. -/
theorem bulletLines_blocks (h : List.Forall₂ (BlockAt tabSize) blocks entries) :
    ∃ bodies : List (List Str),
      bulletLines (canonicalLines (blocks.map Prod.fst).flatten) =
        (List.zipWith (fun entry body => nodeBullet tabSize entry :: body) entries bodies).flatten ∧
      List.Forall₂ (fun entry body => body = [] ↔ PlainBody entry.2) entries bodies := by
  induction h with
  | nil => exact ⟨[], rfl, .nil⟩
  | @cons block entry blocks entries hBlock _ ih =>
      obtain ⟨body, hBullets, hBody⟩ := bulletLines_block hBlock
      obtain ⟨bodies, hRest, hBodies⟩ := ih
      refine ⟨body :: bodies, ?_, .cons hBody hBodies⟩
      have hTerminated : Terminated (canonicalLines block.1) := by
        rw [hBlock, blockLines_eq, canonicalLines_newlines]
        apply terminated_flatten
        exact List.forall_mem_map.mpr fun line _ => terminated_written line
      rw [List.map_cons, List.flatten_cons, canonicalLines_append, bulletLines_append hTerminated,
        hBullets, hRest, List.zipWith_cons_cons, List.flatten_cons]

/-- The bullets are those of the nodes if the bodies have none, and otherwise there are more. -/
theorem bullets_eq_iff (h : List.Forall₂ (BlockAt tabSize) blocks entries) :
    (bulletLines (canonicalLines (blocks.map Prod.fst).flatten) = entries.map (nodeBullet tabSize) ↔
      ∀ entry ∈ entries, PlainBody entry.2) ∧
    ((bulletLines (canonicalLines (blocks.map Prod.fst).flatten)).length = entries.length ↔
      ∀ entry ∈ entries, PlainBody entry.2) := by
  obtain ⟨bodies, hBullets, hBodies⟩ := bulletLines_blocks h
  rw [hBullets]
  clear hBullets h
  have hLe {entries : List (ℕ × OutlineNode)} {bodies : List (List Str)}
      (h : entries.length = bodies.length) : entries.length ≤
        (List.zipWith (fun entry body => nodeBullet tabSize entry :: body) entries
          bodies).flatten.length := by
    induction entries generalizing bodies with
    | nil => exact Nat.zero_le _
    | cons entry entries ih =>
        cases bodies with
        | nil => cases h
        | cons body bodies =>
            have := ih (Nat.succ.inj h)
            simp only [List.zipWith_cons_cons, List.flatten_cons, List.length_append,
              List.length_cons] at this ⊢
            omega
  have hPlain : (∀ entry ∈ entries, PlainBody entry.2) →
      (List.zipWith (fun entry body => nodeBullet tabSize entry :: body) entries bodies).flatten =
        entries.map (nodeBullet tabSize) := by
    intro hAll
    induction hBodies with
    | nil => rfl
    | cons hBody _ ih =>
        rw [List.forall_mem_cons] at hAll
        rw [List.zipWith_cons_cons, List.flatten_cons, ih hAll.2, hBody.mpr hAll.1]
        rfl
  have hLength : (List.zipWith (fun entry body => nodeBullet tabSize entry :: body) entries
      bodies).flatten.length = entries.length → ∀ entry ∈ entries, PlainBody entry.2 := by
    intro hEq
    clear hPlain
    induction hBodies with
    | nil => exact List.forall_mem_nil _
    | cons hBody hRest ih =>
        have := hLe hRest.length_eq
        simp only [List.zipWith_cons_cons, List.flatten_cons, List.length_append,
          List.length_cons] at hEq
        refine List.forall_mem_cons.mpr ⟨hBody.mp (List.length_eq_zero_iff.mp ?_), ih ?_⟩ <;> omega
  refine ⟨⟨fun hEq => hLength ?_, hPlain⟩, hLength, fun hAll => ?_⟩
  · rw [hEq, List.length_map]
  · rw [hPlain hAll, List.length_map]

mutual

theorem widths_shape (level : ℕ) : ∀ node : OutlineNode,
    widths tabSize level (shape node) = (preorderAt level node).map (·.1 * tabSize)
  | .mk text properties children => by
      rw [shape, widths, preorderAt, List.map_cons, widths_shapes (level + 1) children]

theorem widths_shapes (level : ℕ) : ∀ nodes : List OutlineNode,
    widthsAll tabSize level (shapes nodes) = (preorderAllAt level nodes).map (·.1 * tabSize)
  | [] => by rw [shapes, widthsAll, preorderAllAt, List.map_nil]
  | node :: nodes => by
      rw [shapes, widthsAll, preorderAllAt, List.map_append, widths_shape level node,
        widths_shapes level nodes]

end

/-- The tree that is read from the bullets is the outline if no body has a bullet. -/
theorem readShapes_eq_iff {roots : List OutlineNode} (hTab : 0 < tabSize)
    (h : List.Forall₂ (BlockAt tabSize) blocks (preorderAllAt 0 roots)) :
    readShapes (bulletWidths (canonicalLines (blocks.map Prod.fst).flatten)) = shapes roots ↔
      ∀ entry ∈ preorderAllAt 0 roots, PlainBody entry.2 := by
  obtain ⟨hBullets, hLength⟩ := bullets_eq_iff h
  constructor
  · intro hRead
    rw [← hLength]
    have hCount := congrArg countAll hRead
    rw [countAll_readShapes, ← length_widthsAll tabSize 0, widths_shapes,
      List.length_map, bulletWidths, List.length_map] at hCount
    exact hCount
  · intro hPlain
    have hWidths : bulletWidths (canonicalLines (blocks.map Prod.fst).flatten) =
        widthsAll tabSize 0 (shapes roots) := by
      rw [bulletWidths, hBullets.mpr hPlain, widths_shapes, List.map_map]
      apply List.map_congr_left
      intro entry _
      show ((bulletIndent? (nodeBullet tabSize entry)).getD []).length = _
      rw [bulletIndent?_nodeBullet, Option.getD_some, List.length_replicate]
    rw [hWidths, readShapes_widthsAll hTab]

end Outline

section Results

/-- What the bullets of an outline's Markdown say of it. -/
structure Keeps (tabSize : ℕ) (roots : List OutlineNode) (markdown : Str) : Prop where
  bullets : bulletLines markdown = (preorderAllAt 0 roots).map (nodeBullet tabSize)
  shapes : readShapes (bulletWidths markdown) = shapes roots

theorem keeps_iff {tabSize : ℕ} {blocks : List (List Str × Uuid)} {roots : List OutlineNode}
    (hTab : 0 < tabSize) (h : List.Forall₂ (BlockAt tabSize) blocks (preorderAllAt 0 roots)) :
    Keeps tabSize roots (canonicalLines (blocks.map Prod.fst).flatten) ↔
      ∀ entry ∈ preorderAllAt 0 roots, PlainBody entry.2 :=
  ⟨fun hKeeps => (bullets_eq_iff h).1.mp hKeeps.bullets,
    fun hPlain => ⟨(bullets_eq_iff h).1.mpr hPlain, (readShapes_eq_iff hTab h).mpr hPlain⟩⟩

/-- Both writers keep the bullets and the tree of an outline if no line of a body looks like
a bullet. -/
theorem emission_keeps_iff (freshUuid : ℕ → Uuid) (tabSize : ℕ) (roots : List OutlineNode)
    (out : Outside) (k : ℕ) (root : OutlineNode) (hTab : 0 < tabSize) (hOut : 0 < out.tabSize) :
    (Keeps tabSize roots (outlineToMarkdown freshUuid tabSize roots) ↔
      ∀ entry ∈ preorderAllAt 0 roots, PlainBody entry.2) ∧
    (Keeps out.tabSize [root] (canonicalLines (emitNode out 0 k root).1) ↔
      ∀ entry ∈ preorderAllAt 0 [root], PlainBody entry.2) := by
  constructor
  · obtain ⟨blocks, hLines, hBlocks⟩ := emitOutlineNodes_blocks freshUuid tabSize 0 0 roots
    rw [outlineToMarkdown, hLines]
    exact keeps_iff hTab hBlocks
  · obtain ⟨blocks, hLines, -, hBlocks⟩ := emitNode_blocks out 0 k root
    rw [hLines]
    apply keeps_iff hOut
    rw [preorderAllAt, preorderAllAt, List.append_nil]
    exact hBlocks

def sampleChild : OutlineNode := .mk "child".toList [("kind".toList, "leaf".toList)] []

def sampleRoot : OutlineNode := .mk "root\nmore".toList [] [sampleChild]

theorem plainBody_sample : ∀ entry ∈ preorderAllAt 0 [sampleRoot], PlainBody entry.2 := by
  intro entry hEntry
  have hNodes : entry = (0, sampleRoot) ∨ entry = (1, sampleChild) := by
    simpa [preorderAllAt, preorderAt, sampleRoot, sampleChild] using hEntry
  rcases hNodes with rfl | rfl
  · exact ⟨by decide +kernel, by decide +kernel⟩
  · exact ⟨by decide +kernel, by decide +kernel⟩

def sampleGraph : Outside where
  edit _ disk := disk
  mtimeNs k := k
  resolveGraphNode _ _ := none
  nodeByUuid _ _ := none
  nodeByEmbedRef _ _ := none
  pagePath _ := none
  withinGraph _ _ := true
  writable _ _ := true
  validPayload _ _ _ := true
  tabSize := 2
  freshUuid _ := sampleId

theorem emission_keeps_sample :
    Keeps 2 [sampleRoot] (outlineToMarkdown (fun _ => sampleId) 2 [sampleRoot]) ∧
      Keeps 2 [sampleRoot] (canonicalLines (emitNode sampleGraph 0 0 sampleRoot).1) :=
  have hKeeps := emission_keeps_iff (fun _ => sampleId) 2 [sampleRoot] sampleGraph 0 sampleRoot
    (by decide) (by decide)
  ⟨hKeeps.1.mpr plainBody_sample, hKeeps.2.mpr plainBody_sample⟩

/-- The second line of a text is read as a bullet of its own, in both writers. -/
theorem bullet_in_text_line :
    ¬Keeps 2 [.mk "a\n- b".toList [] []]
      (outlineToMarkdown (fun _ => sampleId) 2 [.mk "a\n- b".toList [] []]) ∧
    ¬Keeps 2 [.mk "a\n- b".toList [] []]
      (canonicalLines (emitNode sampleGraph 0 0 (.mk "a\n- b".toList [] [])).1) := by
  constructor
  · intro hKeeps
    exact absurd (congrArg List.length hKeeps.bullets) (by decide +kernel)
  · intro hKeeps
    exact absurd (congrArg List.length hKeeps.bullets) (by decide +kernel)

end Results

end Plumber.OutlineEmission
