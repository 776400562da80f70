import MatrycaPlumber.Text.NonblankLines
import MatrycaPlumber.Text.Sections

/-! Giant pages cut into chunks along their root bullets. -/
namespace Plumber.HierarchicalSummarization

open PyText Sections

section Model

/-- `^[-*+]\s+`. -/
def isRootBullet : Str → Bool
  | mark :: space :: _ => "-*+".toList.contains mark && isSpace space
  | _ => false

/-- The root trees, the first of them with what stands before it. -/
def splitRootTrees (content : Str) : List Str :=
  match (cut isRootBullet (splitlinesKeep content)).2.map (·.all.flatten),
      (cut isRootBullet (splitlinesKeep content)).1 with
  | trees, [] => trees
  | [], preamble => [preamble.flatten]
  | first :: trees, preamble => (preamble.flatten ++ first) :: trees

/-- The loop over the trees, with the chunk that is being filled. -/
def packTrees (maxChunkChars : ℕ) (buffer : Str) : List Str → List Str
  | [] => if buffer = [] then [] else [buffer]
  | tree :: trees =>
      if maxChunkChars < tree.length then
        if buffer = [] then tree :: packTrees maxChunkChars [] trees
        else buffer :: tree :: packTrees maxChunkChars [] trees
      else if buffer ≠ [] ∧ maxChunkChars < (buffer ++ tree).length then
        buffer :: packTrees maxChunkChars tree trees
      else packTrees maxChunkChars (buffer ++ tree) trees

def chunkOutlinerContent (maxChunkChars : ℕ) (content : Str) : List Str :=
  match splitRootTrees content with
  | [] => if content = [] then [] else [content]
  | trees => packTrees maxChunkChars [] trees

end Model

section Packing

variable {β : Type*} {text : β → Str} {maxChunkChars : ℕ}

/-- A chunk of a single tree, or of trees that fit together. -/
structure Run (text : β → Str) (maxChunkChars : ℕ) (run : List β) : Prop where
  ne_nil : run ≠ []
  fits : run.length = 1 ∨ (run.flatMap text).length ≤ maxChunkChars

theorem run_singleton (tree : β) : Run text maxChunkChars [tree] :=
  ⟨List.cons_ne_nil _ _, Or.inl rfl⟩

/-- Only the first run has the first tree in it. -/
theorem mem_of_mem_tail_runs {tree : β} {trees : List β} {runs : List (List β)}
    (hRuns : ∀ run ∈ runs, Run text maxChunkChars run) (hFlat : runs.flatten = tree :: trees)
    {run : List β} (hRun : run ∈ runs.tail) {other : β} (hOther : other ∈ run) : other ∈ trees := by
  cases runs with
  | nil => cases hRun
  | cons first runs =>
      cases first with
      | nil => exact absurd rfl (hRuns [] List.mem_cons_self).ne_nil
      | cons head first =>
          rw [List.flatten_cons, List.cons_append] at hFlat
          rw [← (List.cons.inj hFlat).2]
          exact List.mem_append_right _ (List.mem_flatten.mpr ⟨run, hRun, hOther⟩)

variable (maxChunkChars) in
/-- The trees are packed into runs, the first of which goes on with the trees that are held. -/
theorem packTrees_eq_runs {trees : List β} : ∀ held : List β, (∀ tree ∈ trees, text tree ≠ []) →
    (held.flatMap text).length ≤ maxChunkChars → (held.flatMap text = [] → held = []) →
    ∃ runs : List (List β), packTrees maxChunkChars (held.flatMap text) (trees.map text) =
        runs.map (·.flatMap text) ∧
      runs.flatten = held ++ trees ∧ ∀ run ∈ runs, Run text maxChunkChars run := by
  induction trees with
  | nil =>
      intro held _ hFits hEmpty
      rw [List.map_nil, packTrees]
      split_ifs with hBuffer
      · exact ⟨[], rfl, by simp [hEmpty hBuffer], nofun⟩
      · refine ⟨[held], rfl, by simp, ?_⟩
        intro run hRun
        rw [List.mem_singleton.mp hRun]
        exact ⟨fun hNil => hBuffer (by rw [hNil]; rfl), Or.inr hFits⟩
  | cons tree trees ih =>
      intro held hText hFits hEmpty
      rw [List.forall_mem_cons] at hText
      have hHeld (hBuffer : held.flatMap text ≠ []) : Run text maxChunkChars held :=
        ⟨fun hNil => hBuffer (by rw [hNil]; rfl), Or.inr hFits⟩
      rw [List.map_cons, packTrees]
      split_ifs with hLarge hBuffer hOver
      · obtain ⟨runs, hRuns, hFlat, hAll⟩ := ih [] hText.2 (Nat.zero_le _) fun _ => rfl
        refine ⟨[tree] :: runs, ?_, ?_, List.forall_mem_cons.mpr ⟨run_singleton tree, hAll⟩⟩
        · rw [List.flatMap_nil] at hRuns
          simp [hRuns]
        · rw [hEmpty hBuffer, List.flatten_cons, hFlat]
          rfl
      · obtain ⟨runs, hRuns, hFlat, hAll⟩ := ih [] hText.2 (Nat.zero_le _) fun _ => rfl
        refine ⟨held :: [tree] :: runs, ?_, ?_, List.forall_mem_cons.mpr
          ⟨hHeld hBuffer, List.forall_mem_cons.mpr ⟨run_singleton tree, hAll⟩⟩⟩
        · rw [List.flatMap_nil] at hRuns
          simp [hRuns]
        · simp [hFlat]
      · have hTree : [tree].flatMap text = text tree := by simp
        obtain ⟨runs, hRuns, hFlat, hAll⟩ := ih [tree] hText.2
          (by rw [hTree]; exact not_lt.mp hLarge) (by rw [hTree]; exact fun h => absurd h hText.1)
        rw [hTree] at hRuns
        refine ⟨held :: runs, ?_, ?_, List.forall_mem_cons.mpr ⟨hHeld hOver.1, hAll⟩⟩
        · rw [hRuns, List.map_cons]
        · rw [List.flatten_cons, hFlat]
          rfl
      · have hBoth : (held ++ [tree]).flatMap text = held.flatMap text ++ text tree := by simp
        obtain ⟨runs, hRuns, hFlat, hAll⟩ := ih (held ++ [tree]) hText.2 (by
            rw [hBoth]
            rcases not_and_or.mp hOver with hNil | hShort
            · rw [not_not.mp hNil]
              exact not_lt.mp hLarge
            · exact not_lt.mp hShort)
          (by simp [hText.1])
        rw [hBoth] at hRuns
        exact ⟨runs, hRuns, by rw [hFlat, List.append_assoc]; rfl, hAll⟩

end Packing

section Trees

variable {content : Str}

/-- The lines of the root trees. -/
def treeLines (lines : List Str) : List (List Str) :=
  match (cut isRootBullet lines).2, (cut isRootBullet lines).1 with
  | sections, [] => sections.map Section.all
  | [], preamble => [preamble]
  | first :: sections, preamble => (preamble ++ first.all) :: sections.map Section.all

theorem splitRootTrees_eq (content : Str) :
    splitRootTrees content = (treeLines (splitlinesKeep content)).map List.flatten := by
  rw [splitRootTrees, treeLines]
  generalize cut isRootBullet (splitlinesKeep content) = parts
  obtain ⟨preamble, sections⟩ := parts
  cases preamble <;> cases sections <;> simp

theorem flatten_treeLines (lines : List Str) : (treeLines lines).flatten = lines := by
  have hJoin : (cut isRootBullet lines).1 ++ (cut isRootBullet lines).2.flatMap Section.all =
    lines := cut_join
  conv_rhs => rw [← hJoin]
  rw [treeLines]
  generalize cut isRootBullet lines = parts
  obtain ⟨preamble, sections⟩ := parts
  cases preamble <;> cases sections <;> simp [List.flatMap_def]

theorem countP_of_wellCut {s : Section Str} (h : WellCut isRootBullet s) :
    s.all.countP isRootBullet = 1 := by
  rw [Section.all, List.countP_cons_of_pos h.1, List.countP_eq_zero.mpr (by simpa using h.2)]

/-- What the trees are: each has one root bullet, at its start after the first tree, unless there
is no root bullet. -/
theorem treeLines_spec (lines : List Str) :
    (∀ tree ∈ (treeLines lines).tail, ∃ bullet body, tree = bullet :: body ∧ isRootBullet bullet) ∧
      ∀ tree ∈ treeLines lines, tree ≠ [] ∧
        (tree.countP isRootBullet = 1 ∨ ∀ line ∈ lines, isRootBullet line = false) := by
  have hJoin : (cut isRootBullet lines).1 ++ (cut isRootBullet lines).2.flatMap Section.all =
    lines := cut_join
  have hWell : (∀ line ∈ (cut isRootBullet lines).1, isRootBullet line = false) ∧
    ∀ s ∈ (cut isRootBullet lines).2, WellCut isRootBullet s := wellCut_cut
  rw [treeLines]
  generalize cut isRootBullet lines = parts at hWell hJoin ⊢
  obtain ⟨preamble, sections⟩ := parts
  obtain ⟨hLead, hSections⟩ := hWell
  dsimp only at hLead hSections hJoin ⊢
  have hStart {tree : List Str} {rest : List (Section Str)} (hRest : ∀ s ∈ rest, s ∈ sections)
      (hMem : tree ∈ rest.map Section.all) :
      ∃ bullet body, tree = bullet :: body ∧ isRootBullet bullet := by
    obtain ⟨s, hS, rfl⟩ := List.mem_map.mp hMem
    exact ⟨s.heading, s.body, rfl, (hSections s (hRest s hS)).1⟩
  have hOne {tree : List Str} (hMem : tree ∈ sections.map Section.all) :
      tree ≠ [] ∧ tree.countP isRootBullet = 1 := by
    obtain ⟨s, hS, rfl⟩ := List.mem_map.mp hMem
    exact ⟨List.cons_ne_nil _ _, countP_of_wellCut (hSections s hS)⟩
  cases preamble with
  | nil =>
      refine ⟨fun tree hMem => hStart (fun _ => id) (List.mem_of_mem_tail hMem),
        fun tree hMem => (hOne hMem).imp_right Or.inl⟩
  | cons line preamble =>
      cases sections with
      | nil =>
          refine ⟨nofun, fun tree hMem => ?_⟩
          rw [List.mem_singleton.mp hMem]
          rw [List.flatMap_nil, List.append_nil] at hJoin
          exact ⟨List.cons_ne_nil _ _, Or.inr (hJoin ▸ hLead)⟩
      | cons first sections =>
          refine ⟨fun tree hMem => hStart (fun s => List.mem_cons_of_mem _) hMem, ?_⟩
          intro tree hMem
          rcases List.mem_cons.mp hMem with rfl | hRest
          · refine ⟨by simp, Or.inl ?_⟩
            rw [List.countP_append, countP_of_wellCut (hSections first List.mem_cons_self),
              List.countP_eq_zero.mpr (by simpa using hLead)]
          · exact (hOne (List.mem_cons_of_mem _ hRest)).imp_right Or.inl

end Trees

/-- The chunks are the content again. They are groups of its lines, each group but the first
starts with a root bullet, and one that is too long has no second root bullet. -/
theorem chunkOutlinerContent_lossless (maxChunkChars : ℕ) (content : Str) :
    (chunkOutlinerContent maxChunkChars content).flatten = content ∧
      ∃ groups : List (List Str), groups.flatten = splitlinesKeep content ∧
        chunkOutlinerContent maxChunkChars content = groups.map List.flatten ∧
        (∀ group ∈ groups.tail, ∃ bullet body, group = bullet :: body ∧ isRootBullet bullet) ∧
        ∀ group ∈ groups, maxChunkChars < group.flatten.length →
          group.countP isRootBullet = 1 ∨
            ∀ line ∈ splitlinesKeep content, isRootBullet line = false := by
  suffices hGroups : ∃ groups : List (List Str), groups.flatten = splitlinesKeep content ∧
      chunkOutlinerContent maxChunkChars content = groups.map List.flatten ∧
      (∀ group ∈ groups.tail, ∃ bullet body, group = bullet :: body ∧ isRootBullet bullet) ∧
      ∀ group ∈ groups, maxChunkChars < group.flatten.length →
        group.countP isRootBullet = 1 ∨
          ∀ line ∈ splitlinesKeep content, isRootBullet line = false by
    obtain ⟨groups, hFlat, hChunks, hRest⟩ := hGroups
    refine ⟨?_, groups, hFlat, hChunks, hRest⟩
    rw [hChunks, ← List.flatten_flatten, hFlat, flatten_splitlinesKeep]
  obtain ⟨hStarts, hTrees⟩ := treeLines_spec (splitlinesKeep content)
  have hAll := flatten_treeLines (splitlinesKeep content)
  rw [chunkOutlinerContent, splitRootTrees_eq]
  cases hFirst : treeLines (splitlinesKeep content) with
  | nil =>
      rw [hFirst] at hAll
      rw [List.map_nil, if_pos (splitlinesKeep_eq_nil.mp hAll.symm)]
      exact ⟨[], hAll, rfl, nofun, nofun⟩
  | cons tree trees =>
      have hText : ∀ tree ∈ treeLines (splitlinesKeep content), tree.flatten ≠ [] := by
        intro tree hMem hNil
        obtain ⟨line, hLine⟩ := List.exists_mem_of_ne_nil tree (hTrees tree hMem).1
        have hOf : line ∈ splitlinesKeep content := by
          rw [← hAll]
          exact List.mem_flatten.mpr ⟨tree, hMem, hLine⟩
        exact ne_nil_of_mem_splitlinesKeep hOf (List.flatten_eq_nil_iff.mp hNil line hLine)
      obtain ⟨runs, hRuns, hFlat, hRun⟩ := packTrees_eq_runs maxChunkChars []
        hText (Nat.zero_le _) fun _ => rfl
      rw [hFirst] at hStarts hTrees hRuns hFlat hAll
      rw [List.nil_append] at hFlat
      refine ⟨runs.map List.flatten, ?_, ?_, ?_, ?_⟩
      · rw [← List.flatten_flatten, hFlat, hAll]
      · rw [List.map_map]
        refine hRuns.trans (List.map_congr_left fun run _ => ?_)
        rw [Function.comp_apply, List.flatten_flatten, List.flatMap_def]
      · intro group hGroup
        rw [← List.map_tail] at hGroup
        obtain ⟨run, hMem, rfl⟩ := List.mem_map.mp hGroup
        cases run with
        | nil => exact absurd rfl (hRun [] (List.mem_of_mem_tail hMem)).ne_nil
        | cons start run =>
            have hStart := mem_of_mem_tail_runs hRun hFlat hMem List.mem_cons_self
            obtain ⟨bullet, body, rfl, hBullet⟩ := hStarts start hStart
            exact ⟨bullet, body ++ run.flatten, rfl, hBullet⟩
      · intro group hGroup hLong
        obtain ⟨run, hMem, rfl⟩ := List.mem_map.mp hGroup
        rcases (hRun run hMem).fits with hOne | hShort
        · obtain ⟨one, rfl⟩ := List.length_eq_one_iff.mp hOne
          have hOneMem : one ∈ tree :: trees := by
            rw [← hFlat]
            exact List.mem_flatten.mpr ⟨[one], hMem, List.mem_singleton_self one⟩
          rw [List.flatten_singleton]
          exact (hTrees one hOneMem).2
        · rw [List.flatMap_def, ← List.flatten_flatten] at hShort
          exact absurd hLong (not_lt.mpr hShort)

end Plumber.HierarchicalSummarization
