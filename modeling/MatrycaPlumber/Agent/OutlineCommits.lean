import MatrycaPlumber.Agent.OutlineWrite
import Mathlib.Data.List.Forall2

/-! What a call of the outline writer leaves on the page when it raises: the
blocks of a depth-first prefix of the outline, one commit each. -/
namespace Plumber.GraphDispatch

open PyText MarkdownBlocks OutlineModels EffectLog PageFiles

/-- What the outcome and the commits of a computation have to do with each other,
whatever other writers do meanwhile. -/
def Commits {α : Type} (x : Call α) (P : Except WriteError α → List Commit → Prop) : Prop :=
  Emits World.history x fun r es => P r (ownCommits es)

/-- The commit puts the lines of a block, and nothing else, into the text read. -/
def Splices (commit : Commit) (text : Str) (properties : List (Str × Str)) : Prop :=
  ∃ n m blockUuid,
    commit.newLines = blockLines (List.replicate n ' ') (List.replicate m ' ') text properties
      blockUuid ∧
    commit.after = spliced commit.before commit.insertIndex commit.newLines

/-- The commits are those of the nodes, in their order. -/
def CommitsOf (cs : List Commit) (nodes : List OutlineNode) : Prop :=
  List.Forall₂ (fun commit node => Splices commit node.text node.properties) cs nodes

/-- The commits are those of the first of the nodes; of all of them, when the
computation returns. -/
def WritesPrefix {α : Type} (nodes : List OutlineNode) (r : Except WriteError α)
    (cs : List Commit) : Prop :=
  ∃ done, done <+: nodes ∧ CommitsOf cs done ∧ (r.isOk = true → done = nodes)

section Rules

variable {α β : Type} {x : Call α} {P : Except WriteError α → List Commit → Prop}
  {R : Except WriteError β → List Commit → Prop}

theorem ownCommits_append (es es' : List Event) :
    ownCommits (es ++ es') = ownCommits es ++ ownCommits es' := List.filterMap_append

theorem Commits.mono {Q : Except WriteError α → List Commit → Prop} (hx : Commits x P)
    (hImp : ∀ r cs, P r cs → Q r cs) : Commits x Q :=
  Emits.mono hx fun r es => hImp r (ownCommits es)

theorem Commits.bind {f : α → Call β} {Q : α → Except WriteError β → List Commit → Prop}
    (hx : Commits x P) (hf : ∀ a, Commits (f a) (Q a)) :
    Commits (x >>= f) fun r cs =>
      (∃ e, r = .error e ∧ P (.error e) cs) ∨
        ∃ a cs₁ cs₂, cs = cs₁ ++ cs₂ ∧ P (.ok a) cs₁ ∧ Q a r cs₂ := by
  apply (Emits.bind hx hf).mono
  rintro r es (hRaise | ⟨a, es₁, es₂, rfl, hP, hQ⟩)
  · exact Or.inl hRaise
  · exact Or.inr ⟨a, _, _, ownCommits_append es₁ es₂, hP, hQ⟩

/-- A part that commits nothing, in front of the rest. -/
theorem Commits.bind_quiet {f : α → Call β} (hx : Commits x fun _ cs => cs = [])
    (hRaise : ∀ e, R (.error e) []) (hf : ∀ a, Commits (f a) R) : Commits (x >>= f) R := by
  apply (hx.bind hf).mono
  rintro r cs (⟨e, rfl, rfl⟩ | ⟨a, cs₁, cs₂, rfl, rfl, hR⟩)
  · exact hRaise e
  · exact hR

/-- A part that cannot raise and commits nothing. -/
theorem Commits.bind_total {f : α → Call β}
    (hx : Commits x fun r cs => (∃ a, r = .ok a) ∧ cs = []) (hf : ∀ a, Commits (f a) R) :
    Commits (x >>= f) R := by
  apply (hx.bind hf).mono
  rintro r cs (⟨e, rfl, ⟨a, hOk⟩, _⟩ | ⟨a, cs₁, cs₂, rfl, ⟨_, rfl⟩, hR⟩)
  · cases hOk
  · exact hR

theorem Commits.pure {a : α} (h : P (.ok a) []) : Commits (pure a) P := Emits.pure h

theorem commits_raiseIf (bad : Bool) (err : WriteError) :
    Commits (raiseIf bad err) fun _ cs => cs = [] := by
  rw [raiseIf]
  split_ifs
  · exact Emits.throw rfl
  · exact Emits.pure rfl

theorem commits_raiseIf_false (err : WriteError) :
    Commits (raiseIf false err) fun r cs => (∃ u, r = .ok u) ∧ cs = [] :=
  Emits.pure ⟨⟨_, rfl⟩, rfl⟩

theorem commits_require (found : Option α) (err : WriteError) :
    Commits (require found err) fun _ cs => cs = [] := by
  rw [require.eq_def]
  cases found with
  | none => exact Emits.throw rfl
  | some a => exact Emits.pure rfl

theorem commits_get : Commits get fun r cs => (∃ w, r = .ok w) ∧ cs = [] :=
  Emits.get fun w => ⟨⟨w, rfl⟩, rfl⟩

theorem commits_modify {g : World → World} (hLog : ∀ w, (g w).history = w.history) :
    Commits (modify g) fun r cs => (∃ u, r = .ok u) ∧ cs = [] :=
  Emits.modify hLog ⟨⟨_, rfl⟩, rfl⟩

end Rules

section Steps

variable (out : Outside) (start : Disk)

theorem commits_look : Commits (look out start) fun r cs => (∃ a, r = .ok a) ∧ cs = [] := by
  intro w
  exact ⟨[.external (out.edit w.history.length)], rfl, ⟨_, rfl⟩, rfl⟩

theorem commits_replaceFile (commit : Commit) :
    Commits (replaceFile out start commit) fun r cs =>
      r = .ok ⟨⟩ ∧ ∃ t, cs = [{ commit with mtimeNs := t }] := by
  rw [replaceFile]
  apply (commits_look out start).bind_total
  rintro ⟨now, disk⟩ w
  exact ⟨[.own { commit with mtimeNs := out.mtimeNs now }], rfl, rfl, _, rfl⟩

/-- The write happened exactly when it returns `True`. -/
theorem commits_writeIfUnchanged (commit : Commit) (baselineMtime : Nat) :
    Commits (writeIfUnchanged out start commit baselineMtime) fun r cs =>
      (r = .ok true ∧ ∃ t, cs = [{ commit with mtimeNs := t }]) ∨ (r ≠ .ok true ∧ cs = []) := by
  rw [writeIfUnchanged]
  apply (commits_look out start).bind_total
  rintro ⟨now, disk⟩
  apply (commits_raiseIf _ _).bind_quiet (fun e => Or.inr ⟨by simp, rfl⟩)
  rintro ⟨⟩
  split_ifs
  · exact Commits.pure (Or.inr ⟨by simp, rfl⟩)
  · apply (commits_raiseIf _ _).bind_quiet (fun e => Or.inr ⟨by simp, rfl⟩)
    rintro ⟨⟩
    apply (commits_look out start).bind_total
    rintro ⟨now', disk'⟩
    simp only
    split_ifs
    · exact Commits.pure (Or.inr ⟨by simp, rfl⟩)
    · have hReturn (u : PUnit) : Commits (pure true) fun r cs => r = .ok true ∧ cs = [] :=
        Commits.pure ⟨rfl, rfl⟩
      apply ((commits_replaceFile out start commit).bind hReturn).mono
      rintro r cs (⟨e, rfl, hOk, _⟩ | ⟨a, cs₁, cs₂, rfl, ⟨_, t, rfl⟩, rfl, rfl⟩)
      · cases hOk
      · exact Or.inl ⟨rfl, t, rfl⟩

/-- A node is written whole or not at all. -/
theorem commits_headlessAppendChild (parentUuid content : Str) (properties : List (Str × Str)) :
    Commits (headlessAppendChild out start parentUuid content properties) fun r cs =>
      (∃ u c, r = .ok u ∧ cs = [c] ∧ Splices c content properties) ∨
        (∃ e, r = .error e) ∧ cs = [] := by
  rw [headlessAppendChild]
  apply (commits_look out start).bind_total
  rintro ⟨now, disk⟩
  apply (commits_require _ _).bind_quiet (fun e => Or.inr ⟨⟨e, rfl⟩, rfl⟩)
  intro parent
  apply (commits_require _ _).bind_quiet (fun e => Or.inr ⟨⟨e, rfl⟩, rfl⟩)
  intro sourcePath
  apply commits_get.bind_total
  intro w
  apply (commits_raiseIf _ _).bind_quiet (fun e => Or.inr ⟨⟨e, rfl⟩, rfl⟩)
  rintro ⟨⟩
  apply (commits_look out start).bind_total
  rintro ⟨now₁, disk₁⟩
  apply (commits_raiseIf _ _).bind_quiet (fun e => Or.inr ⟨⟨e, rfl⟩, rfl⟩)
  rintro ⟨⟩
  apply (commits_require _ _).bind_quiet (fun e => Or.inr ⟨⟨e, rfl⟩, rfl⟩)
  intro parent
  apply (commits_require _ _).bind_quiet (fun e => Or.inr ⟨⟨e, rfl⟩, rfl⟩)
  intro target
  apply (commits_look out start).bind_total
  rintro ⟨now₂, disk₂⟩
  apply (commits_raiseIf _ _).bind_quiet (fun e => Or.inr ⟨⟨e, rfl⟩, rfl⟩)
  rintro ⟨⟩
  apply (commits_require _ _).bind_quiet (fun e => Or.inr ⟨⟨e, rfl⟩, rfl⟩)
  intro file
  apply (commits_look out start).bind_total
  rintro ⟨now₃, disk₃⟩
  apply (commits_require _ _).bind_quiet (fun e => Or.inr ⟨⟨e, rfl⟩, rfl⟩)
  intro baselineMtime
  apply ((commits_writeIfUnchanged out start _ baselineMtime).bind (Q := fun written r cs =>
    cs = [] ∧ if written then ∃ u, r = .ok u else ∃ e, r = .error e) ?_).mono
  · rintro r cs (⟨e, rfl, ⟨hOk, _⟩ | ⟨_, rfl⟩⟩ | ⟨written, cs₁, cs₂, rfl, hWrite, rfl, hRest⟩)
    · cases hOk
    · exact Or.inr ⟨⟨e, rfl⟩, rfl⟩
    · rw [List.append_nil]
      cases hWrite with
      | inl hDone =>
          obtain ⟨hOk, t, rfl⟩ := hDone
          obtain rfl := Except.ok.inj hOk
          obtain ⟨u, rfl⟩ := hRest
          exact Or.inl ⟨u, _, rfl, rfl, _, _, _, rfl, rfl⟩
      | inr hNot =>
          cases written with
          | true => exact absurd rfl hNot.1
          | false => exact Or.inr ⟨hRest, hNot.2⟩
  · -- behind the write only a failed one raises
    intro written
    apply (commits_look out start).bind_total
    rintro ⟨now₄, disk₄⟩
    cases written with
    | true =>
        apply (commits_raiseIf_false _).bind_total
        rintro ⟨⟩
        refine Commits.bind_total (commits_modify ?_) ?_
        · exact fun _ => rfl
        · exact fun _ => Commits.pure ⟨rfl, _, rfl⟩
    | false =>
        exact fun w' => ⟨[], (List.append_nil _).symm, rfl, _, rfl⟩

theorem commits_resolveChainParentUuid (parentUuid blockText writtenId : Str) :
    Commits (resolveChainParentUuid out start parentUuid blockText writtenId)
      fun _ cs => cs = [] := by
  rw [resolveChainParentUuid]
  apply (commits_look out start).bind_total
  rintro ⟨first, disk⟩
  apply (commits_look out start).bind_total
  rintro ⟨second, disk'⟩
  simp only
  split_ifs
  · exact Commits.pure rfl
  · apply (commits_require _ _).bind_quiet (fun _ => rfl)
    exact fun _ => Commits.pure rfl

theorem WritesPrefix.nil {α : Type} (nodes : List OutlineNode) (e : WriteError) :
    WritesPrefix (α := α) nodes (.error e) [] :=
  ⟨[], List.nil_prefix, List.Forall₂.nil, fun h => by cases h⟩

/-- A first part that writes all of its nodes, or raises, and the rest. -/
theorem Commits.bind_writes {α β : Type} {x : Call α} {f : α → Call β}
    {first rest : List OutlineNode} (hx : Commits x (WritesPrefix first))
    (hf : ∀ a, Commits (f a) (WritesPrefix rest)) :
    Commits (x >>= f) (WritesPrefix (first ++ rest)) := by
  apply (hx.bind hf).mono
  rintro r cs (⟨e, rfl, done, hPrefix, hSplices, _⟩ |
    ⟨a, cs₁, cs₂, rfl, ⟨done₁, _, hSplices₁, hAll₁⟩, done₂, hPrefix₂, hSplices₂, hAll₂⟩)
  · exact ⟨done, hPrefix.trans (List.prefix_append _ _), hSplices, fun h => by cases h⟩
  · obtain rfl := hAll₁ rfl
    refine ⟨done₁ ++ done₂, (List.prefix_append_right_inj done₁).mpr hPrefix₂,
      List.rel_append hSplices₁ hSplices₂, ?_⟩
    intro hOk
    rw [hAll₂ hOk]

theorem Commits.writesNone {α : Type} {x : Call α} (hx : Commits x fun _ cs => cs = []) :
    Commits x (WritesPrefix []) := by
  apply hx.mono
  rintro r cs rfl
  exact ⟨[], List.nil_prefix, List.Forall₂.nil, fun _ => rfl⟩

theorem writesPrefix_headlessAppendChild (parentUuid text : Str) (properties : List (Str × Str))
    (children : List OutlineNode) :
    Commits (headlessAppendChild out start parentUuid text properties)
      (WritesPrefix [.mk text properties children]) := by
  apply (commits_headlessAppendChild out start parentUuid text properties).mono
  rintro r cs (⟨u, c, rfl, rfl, hSplices⟩ | ⟨⟨e, rfl⟩, rfl⟩)
  · exact ⟨_, List.prefix_rfl, .cons hSplices .nil, fun _ => rfl⟩
  · exact WritesPrefix.nil _ e

mutual

/-- The walk writes a depth-first prefix of its outline. -/
theorem commits_walk : ∀ (node : OutlineNode) (parentUuid : Str),
    Commits (walk out start node parentUuid) (WritesPrefix node.preorder)
  | .mk text properties children, parentUuid => by
      rw [walk, OutlineNode.preorder, ← List.singleton_append]
      apply (writesPrefix_headlessAppendChild out start parentUuid text properties children).bind_writes
      intro newUuid
      refine Commits.bind_total (commits_modify ?_) ?_
      · exact fun _ => rfl
      · intro _
        apply ((commits_resolveChainParentUuid out start parentUuid text newUuid).writesNone).bind_writes
        intro chainParent
        exact commits_walkAll children chainParent

theorem commits_walkAll : ∀ (nodes : List OutlineNode) (parentUuid : Str),
    Commits (walkAll out start nodes parentUuid) (WritesPrefix (preorderAll nodes))
  | [], _ => by
      rw [walkAll, preorderAll]
      exact Commits.pure ⟨[], List.nil_prefix, List.Forall₂.nil, fun _ => rfl⟩
  | node :: nodes, parentUuid => by
      rw [walkAll, preorderAll]
      apply (commits_walk node parentUuid).bind_writes
      intro _
      exact commits_walkAll nodes parentUuid

end

/-- The blocks of the outline, depth first; a rejected outline has none. -/
def outlineBlocks (root : Except Str OutlineNode) : List OutlineNode :=
  match root with
  | .ok root => root.preorder
  | .error _ => []

theorem commits_headlessWriteOutline (root : Except Str OutlineNode) (parentBlockUuid : Str) :
    Commits (headlessWriteOutline out start root parentBlockUuid)
      (WritesPrefix (outlineBlocks root)) := by
  rw [headlessWriteOutline.eq_def]
  cases root with
  | error msg => exact fun w => ⟨[], (List.append_nil _).symm, WritesPrefix.nil _ _⟩
  | ok root =>
      rw [outlineBlocks.eq_def]
      simp only [pure_bind]
      apply (commits_look out start).bind_total
      rintro ⟨now, disk⟩
      refine Commits.bind_total (commits_modify ?_) ?_
      · exact fun _ => rfl
      · intro _
        rw [← List.append_nil root.preorder]
        apply (commits_walk out start root parentBlockUuid).bind_writes
        intro _
        apply commits_get.bind_total
        exact fun w => (Commits.pure rfl).writesNone

/-- The page without blocks gets the whole outline in one commit, after which
nothing raises. -/
theorem commits_headlessWriteOutlineEmptyPage (root : Except Str OutlineNode) (pageTitle : Str) :
    Commits (headlessWriteOutlineEmptyPage out start root pageTitle)
      fun r cs => (∃ e, r = .error e) → cs = [] := by
  rw [headlessWriteOutlineEmptyPage.eq_def]
  cases root with
  | error msg => exact fun w => ⟨[], (List.append_nil _).symm, fun _ => rfl⟩
  | ok root =>
      simp only [pure_bind]
      apply (commits_require _ _).bind_quiet (fun _ _ => rfl)
      intro path
      apply (commits_look out start).bind_total
      rintro ⟨now, disk⟩
      apply (commits_look out start).bind_total
      rintro ⟨now₁, disk₁⟩
      apply (commits_raiseIf _ _).bind_quiet (fun _ _ => rfl)
      rintro ⟨⟩
      apply (commits_look out start).bind_total
      rintro ⟨now₂, disk₂⟩
      apply (commits_look out start).bind_total
      rintro ⟨now₃, disk₃⟩
      simp only
      split_ifs
      · apply (commits_require _ _).bind_quiet (fun _ _ => rfl)
        intro occ
        apply ((commits_writeIfUnchanged out start _ occ.baselineMtime).bind
          (Q := fun written r cs => cs = [] ∧ (written = true → ∃ ids, r = .ok ids)) ?_).mono
        · rintro r cs (⟨e, rfl, ⟨hOk, _⟩ | ⟨_, rfl⟩⟩ |
            ⟨written, cs₁, cs₂, rfl, ⟨hOk, _⟩ | ⟨_, rfl⟩, rfl, hRest⟩) ⟨e', hErr⟩
          · cases hOk
          · rfl
          · obtain ⟨ids, rfl⟩ := hRest (Except.ok.inj hOk)
            cases hErr
          · rfl
        · intro written
          apply (commits_look out start).bind_total
          rintro ⟨now₄, disk₄⟩
          cases written with
          | true =>
              apply (commits_raiseIf_false _).bind_total
              exact fun _ => Commits.pure ⟨rfl, fun _ => ⟨_, rfl⟩⟩
          | false => exact fun w => ⟨[], (List.append_nil _).symm, rfl, fun h => by cases h⟩
      · apply (commits_raiseIf _ _).bind_quiet (fun _ _ => rfl)
        intro _
        have hReturn (u : PUnit) : Commits (pure (emitNode out 0 now root).2) fun r _ =>
            ∃ ids, r = .ok ids := Commits.pure ⟨_, rfl⟩
        apply ((commits_replaceFile out start _).bind hReturn).mono
        rintro r cs (⟨e, rfl, hOk, _⟩ | ⟨a, cs₁, cs₂, rfl, _, ids, rfl⟩) ⟨e', hErr⟩
        · cases hOk
        · cases hErr

end Steps

section Sample

def samplePath : Str := "pages/x.md".toList

def sampleDisk : Disk := fun path =>
  if path = samplePath then some ⟨"- p\n".toList, 10 ^ 18⟩ else none

/-- Another program touches the page before the given event; every block is
found, on the first line of the page. -/
def sampleOutside (k : Nat) : Outside where
  edit n disk := if n = k then
      fun path => (disk path).map fun file => { file with mtimeNs := file.mtimeNs + 1 }
    else disk
  mtimeNs n := 2 * 10 ^ 18 + n
  resolveGraphNode _ uuid := some ⟨uuid, none, some samplePath, 0, 1, 2, []⟩
  nodeByUuid _ uuid := some ⟨uuid, none, some samplePath, 0, 1, 2, []⟩
  nodeByEmbedRef _ uuid := some ⟨uuid, none, some samplePath, 0, 1, 2, []⟩
  pagePath title := some title
  withinGraph _ _ := true
  writable _ _ := true
  validPayload _ _ _ := true
  tabSize := 2
  freshUuid _ := sampleId

/-- A block with one child. -/
def sampleOutline : OutlineNode := .mk "a".toList [] [.mk "b".toList [] []]

/-- The texts that a call has written when it raises. -/
def writtenOnError (r : EStateM.Result WriteError World (List Str)) : Option (List Str) :=
  match r with
  | .error _ world => some ((ownCommits world.history).map Commit.after)
  | .ok _ _ => none

theorem exists_error_of_writtenOnError {r : EStateM.Result WriteError World (List Str)}
    {texts : List Str} (h : writtenOnError r = some texts) :
    ∃ err world, r = .error err world ∧ (ownCommits world.history).map Commit.after = texts := by
  cases r with
  | ok ids world => cases h
  | error err world => exact ⟨err, world, rfl, Option.some.inj h⟩

/-- The page is touched between the two nodes, so that the second is refused. -/
theorem sample_conflict :
    ∃ err world,
      runWriteOutlineSync (sampleOutside 12) sampleDisk (.ok (.parent "p".toList))
        (.ok sampleOutline) initialWorld = .error err world ∧
      (ownCommits world.history).map Commit.after =
        ["- p\n  - a\n    id:: 6ba7b810-9dad-41d1-80b4-00c04fd430c8\n".toList] :=
  exists_error_of_writtenOnError (by decide +kernel)

end Sample

end Plumber.GraphDispatch
