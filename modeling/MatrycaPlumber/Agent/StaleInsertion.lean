import MatrycaPlumber.Agent.OutlineWrite
import MatrycaPlumber.Text.NonblankLines

/-! Where an appended block comes to stand: the line comes from the cached tree, the text
from the file, and the baseline of the write from a third moment. -/
namespace Plumber.GraphDispatch

open PyText MarkdownBlocks PageFiles EffectLog

section Splicing

/-- A line that ends in its only boundary is written back as it was. -/
theorem canonical_of_closed {l : Str} (h : Closed l) :
    stripLineEndings l ++ canonicalLineSuffix l = l := by
  obtain ⟨body, b, rfl, hBreak, hCr, hBody⟩ := h
  have hLast : (body ++ [b]).getLast? = some b := by simp
  rw [canonicalLineSuffix, hLast, stripLineEndings, rstripChars]
  by_cases hNewline : b = '\n'
  · subst hNewline
    have hStop : body.rdropWhile (fun c => ['\r', '\n'].contains c) = body := by
      rw [List.rdropWhile_eq_self_iff]
      intro hNe hIn
      have hFree := hBody _ (List.getLast_mem hNe)
      have hEnd : body.getLast hNe = '\r' ∨ body.getLast hNe = '\n' := by simpa using hIn
      rcases hEnd with hEnd | hEnd
      · rw [hEnd] at hFree
        exact absurd hFree (by decide)
      · rw [hEnd] at hFree
        exact absurd hFree (by decide)
    rw [List.rdropWhile_concat_pos _ _ _ (by decide), hStop]
    rfl
  · rw [List.rdropWhile_concat_neg _ _ _ (by simp [hCr, hNewline])]
    simp [hCr, hNewline]

theorem canonicalLines_of_closed {ls : List Str} (h : ∀ l ∈ ls, Closed l) :
    canonicalLines ls = ls.flatten := by
  rw [canonicalLines]
  congr 1
  rw [List.map_congr_left fun l hl => canonical_of_closed (h l hl), List.map_id']

theorem canonicalLines_append (ls ms : List Str) :
    canonicalLines (ls ++ ms) = canonicalLines ls ++ canonicalLines ms := by
  simp [canonicalLines]

/-- All lines of a text that ends with a newline are closed. -/
theorem closed_of_newline {s : Str} (hCr : '\r' ∉ s) (hEnd : s = [] ∨ s.getLast? = some '\n') :
    ∀ l ∈ splitlinesKeep s, Closed l := by
  have hPage := pageLines_splitlinesKeep hCr
  rcases List.eq_nil_or_concat' (splitlinesKeep s) with hNil | ⟨ls, m, hConcat⟩
  · rw [hNil]
    exact fun _ hl => nomatch hl
  · rw [hConcat] at hPage ⊢
    have hText : (ls ++ [m]).flatten = s := by rw [← hConcat, flatten_splitlinesKeep]
    have hLast : Closed m := by
      rw [closed_last_iff hPage, hText]
      intro c hc
      rcases hEnd with hEmpty | hNewline
      · rw [hEmpty] at hc
        cases hc
      · rw [hNewline] at hc
        obtain rfl := Option.some.inj hc
        rfl
    have hInit := hPage.dropLast_closed
    rw [List.dropLast_concat] at hInit
    intro l hl
    rcases List.mem_append.mp hl with hl | hl
    · exact hInit l hl
    · rw [List.mem_singleton.mp hl]
      exact hLast

/-- No line boundary other than a newline stands at the end. -/
def EndsCleanly (s : Str) : Prop := ∀ c ∈ s.getLast?, c = '\n' ∨ isLineBreak c = false

/-- The text with a newline at its end, as `_headless_append_child` completes it. -/
def completed (rawText : Str) : Str :=
  if rawText ≠ [] ∧ endsWith ['\n'] rawText = false then rawText ++ ['\n'] else rawText

theorem completed_newline (s : Str) : completed s = [] ∨ (completed s).getLast? = some '\n' := by
  rw [completed]
  split_ifs with hOpen
  · exact .inr (by simp)
  · by_cases hNil : s = []
    · exact .inl hNil
    · have hEnds : endsWith ['\n'] s = true := by simpa [hNil] using hOpen
      obtain ⟨t, rfl⟩ := endsWith_iff.mp hEnds
      exact .inr (by simp)

theorem cr_notMem_completed {s : Str} (h : '\r' ∉ s) : '\r' ∉ completed s := by
  rw [completed]
  split_ifs
  · simpa using h
  · exact h

theorem splitlines_completed {s : Str} (hCr : '\r' ∉ s) (hEnd : EndsCleanly s) :
    splitlines (completed s) = splitlines s := by
  rw [completed]
  split_ifs with hOpen
  · have hPage := pageLines_splitlinesKeep hCr
    have hText := flatten_splitlinesKeep s
    rcases List.eq_nil_or_concat' (splitlinesKeep s) with hNil | ⟨ls, m, hConcat⟩
    · exact absurd (splitlinesKeep_eq_nil.mp hNil) hOpen.1
    · rw [hConcat] at hPage hText
      obtain ⟨hInit, hLast⟩ := pageLines_append_iff.mp hPage
      rw [List.flatten_append, List.flatten_singleton] at hText
      have hFree : ∀ c ∈ m, isLineBreak c = false := by
        rcases hLast with hClosed | hUnterminated
        · obtain ⟨body, b, rfl, hBreak, -, -⟩ := hClosed
          have hB : s.getLast? = some b := by rw [← hText]; simp
          rcases hEnd b (by rw [hB]; rfl) with rfl | hFree
          · have hEnds : endsWith ['\n'] s = true :=
              endsWith_iff.mpr ⟨ls.flatten ++ body, by rw [← hText, List.append_assoc]⟩
            rw [hOpen.2] at hEnds
            cases hEnds
          · rw [hBreak] at hFree
            cases hFree
        · exact hUnterminated.2
      have hLines : splitlinesKeep (s ++ ['\n']) = ls ++ [m ++ ['\n']] := by
        have hNewPage : PageLines (ls ++ [m ++ ['\n']]) :=
          pageLines_append_iff.mpr ⟨hInit, .inl (closed_append_newline hFree)⟩
        have hSplit := splitlinesKeep_flatten hNewPage
        rw [List.flatten_append, List.flatten_singleton, ← List.append_assoc, hText] at hSplit
        exact hSplit
      rw [splitlines, splitlines, hLines, hConcat, List.map_append, List.map_append,
        List.map_singleton, List.map_singleton, dropLineBreak_line hFree,
        dropLineBreak_of_free hFree]
  · rfl

theorem terminated_canonicalLines {ls : List Str} (hNe : ls ≠ [])
    (hLines : ∀ l ∈ ls, ∃ body, l = body ++ ['\n']) : Terminated (canonicalLines ls) := by
  obtain ⟨init, last, rfl⟩ := (List.eq_nil_or_concat' ls).resolve_left hNe
  obtain ⟨body, rfl⟩ := hLines last (by simp)
  have hSuffix : canonicalLineSuffix (body ++ ['\n']) = ['\n'] := by
    simp [canonicalLineSuffix]
  have hText : canonicalLines (init ++ [body ++ ['\n']]) =
      canonicalLines init ++ stripLineEndings (body ++ ['\n']) ++ ['\n'] := by
    rw [canonicalLines_append, canonicalLines, canonicalLines, List.map_singleton, hSuffix,
      List.flatten_singleton, List.append_assoc]
  rw [hText]
  exact terminated_newline _

theorem blockLines_newline (bulletIndent bodyIndent content : Str) (properties : List (Str × Str))
    (blockUuid : Str) :
    ∀ l ∈ blockLines bulletIndent bodyIndent content properties blockUuid,
      ∃ body, l = body ++ ['\n'] := by
  intro l hl
  rw [blockLines] at hl
  rcases List.mem_append.mp hl with hBlock | hProperty
  · rcases List.mem_cons.mp hBlock with rfl | hTail
    · exact ⟨_, rfl⟩
    · obtain ⟨line, -, rfl⟩ := List.mem_map.mp hTail
      exact ⟨_, rfl⟩
  · obtain ⟨line, -, rfl⟩ := List.mem_map.mp hProperty
    exact ⟨_, rfl⟩

/-- The new lines stand at the given line, and the other lines are as they were. -/
theorem splitlines_spliced {rawText : Str} (hCr : '\r' ∉ rawText) (hEnd : EndsCleanly rawText)
    (line : ℕ) {newLines : List Str} (hNew : Terminated (canonicalLines newLines)) :
    splitlines (spliced rawText line newLines) =
      (splitlines rawText).take line ++ splitlines (canonicalLines newLines) ++
        (splitlines rawText).drop line := by
  let fileLines := splitlinesKeep (completed rawText)
  have hClosed : ∀ l ∈ fileLines, Closed l :=
    closed_of_newline (cr_notMem_completed hCr) (completed_newline rawText)
  have hBefore : ∀ l ∈ fileLines.take line, Closed l :=
    fun l hl => hClosed l (List.mem_of_mem_take hl)
  have hAfter : ∀ l ∈ fileLines.drop line, Closed l :=
    fun l hl => hClosed l (List.mem_of_mem_drop hl)
  have hText : spliced rawText line newLines =
      (fileLines.take line).flatten ++
        (canonicalLines newLines ++ (fileLines.drop line).flatten) := by
    show canonicalLines (fileLines.take line ++ newLines ++ fileLines.drop line) = _
    rw [canonicalLines_append, canonicalLines_append, canonicalLines_of_closed hBefore,
      canonicalLines_of_closed hAfter, List.append_assoc]
  have hKeep : splitlinesKeep (spliced rawText line newLines) =
      fileLines.take line ++ (splitlinesKeep (canonicalLines newLines) ++ fileLines.drop line) := by
    rw [hText, splitlinesKeep_flatten_append hBefore, hNew,
      splitlinesKeep_flatten (pageLines_of_closed hAfter)]
  have hLines : fileLines.map dropLineBreak = splitlines rawText :=
    splitlines_completed hCr hEnd
  rw [splitlines, hKeep, List.map_append, List.map_append, List.map_take, List.map_drop, hLines,
    ← List.append_assoc]
  rfl

end Splicing

section Running

variable (out : Outside) (start : Disk)

/-- The events after so many looks at the outside world. -/
def looks : ℕ → List Event → List Event
  | 0, history => history
  | n + 1, history =>
      looks n history ++ [.external (out.edit (looks n history).length)]

theorem length_looks (n : ℕ) (history : List Event) :
    (looks out n history).length = history.length + n := by
  induction n with
  | zero => rfl
  | succ n ih => rw [looks, List.length_append, ih, List.length_singleton, Nat.add_assoc]

theorem looks_looks (m n : ℕ) (history : List Event) :
    looks out m (looks out n history) = looks out (n + m) history := by
  induction m with
  | zero => rfl
  | succ m ih => rw [looks, ih, ← Nat.add_assoc, looks]

theorem take_looks (m n : ℕ) (history : List Event) :
    (looks out (n + m) history).take (history.length + n) = looks out n history := by
  induction m with
  | zero => rw [Nat.add_zero, List.take_of_length_le (by rw [length_looks])]
  | succ m ih =>
      rw [← Nat.add_assoc, looks, List.take_append_of_le_length (by rw [length_looks]; omega), ih]

theorem looks_quiet (n : ℕ) (history : List Event) :
    ∃ es, looks out n history = history ++ es ∧ ∀ e ∈ es, e.commit? = none := by
  induction n with
  | zero => exact ⟨[], (List.append_nil _).symm, fun _ he => nomatch he⟩
  | succ n ih =>
      obtain ⟨es, hEvents, hQuiet⟩ := ih
      refine ⟨es ++ [.external (out.edit (looks out n history).length)], ?_, ?_⟩
      · rw [looks, hEvents, List.append_assoc]
      · intro e he
        rcases List.mem_append.mp he with he | he
        · exact hQuiet e he
        · rw [List.mem_singleton.mp he]
          rfl

def World.after (w : World) (history : List Event) : World := { w with history := history }

variable {α β : Type} {Q : EStateM.Result WriteError World β → Prop} {w : World}

theorem run_look {f : Nat × Disk → Call β}
    (h : Q (f ((looks out 1 w.history).length, replay start (looks out 1 w.history))
      (w.after (looks out 1 w.history)))) : Q ((look out start >>= f) w) := h

theorem run_require {found : Option α} {err : WriteError} {f : α → Call β}
    (hNone : Q (.error err w)) (hSome : ∀ a, found = some a → Q (f a w)) :
    Q ((require found err >>= f) w) := by
  cases found with
  | none => exact hNone
  | some a => exact hSome a rfl

theorem run_raiseIf {bad : Bool} {err : WriteError} {f : PUnit → Call β}
    (hBad : Q (.error err w)) (hFine : Q (f ⟨⟩ w)) : Q ((raiseIf bad err >>= f) w) := by
  cases bad with
  | true => exact hBad
  | false => exact hFine

/-- The replacement comes after three looks. -/
theorem run_writeIfUnchanged {commit : Commit} {baselineMtime : Nat} {f : Bool → Call β}
    (hRefused : ∀ n, Q (.error .refused (w.after (looks out n w.history))))
    (hChanged : ∀ n, Q (f false (w.after (looks out n w.history))))
    (hWritten : ∀ t, Q (f true (w.after
      (looks out 3 w.history ++ [.own { commit with mtimeNs := t }])))) :
    Q ((writeIfUnchanged out start commit baselineMtime >>= f) w) := by
  rw [writeIfUnchanged, bind_assoc]
  apply run_look
  dsimp only
  rw [bind_assoc]
  apply run_raiseIf (hRefused 1)
  split_ifs
  · exact hChanged 1
  · rw [bind_assoc]
    apply run_raiseIf (hRefused 1)
    rw [bind_assoc]
    apply run_look
    dsimp only
    split_ifs
    · exact hChanged 2
    · exact hWritten _

/-- A call that begins after `history` writes a block, of which it asked the tree after two
looks and the page after three. -/
structure WritesBlock (parentUuid : Str) (history : List Event) (commit : Commit) : Prop where
  target : ∃ parent target, out.resolveGraphNode (history.length + 2) parentUuid = some parent ∧
    out.nodeByUuid (history.length + 2) parent.uuid = some target ∧
      commit.insertIndex = target.insertionLine
  text : ∃ file, replay start (looks out 3 history) commit.path = some file ∧
    commit.before = universalNewlines file.text
  new_lines : Terminated (canonicalLines commit.newLines)
  spliced : commit.after = spliced commit.before commit.insertIndex commit.newLines

/-- What one call adds to the history: it looks only, or it also writes one block. -/
theorem headlessAppendChild_history (parentUuid content : Str) (properties : List (Str × Str)) :
    let history := (outcome
      (headlessAppendChild out start parentUuid content properties w)).2.history
    (∃ n, history = looks out n w.history) ∨
      ∃ commit, WritesBlock out start parentUuid w.history commit ∧
        history = looks out 1 (looks out 7 w.history ++ [.own commit]) := by
  let Q (r : EStateM.Result WriteError World Str) : Prop :=
    (∃ n, (outcome r).2.history = looks out n w.history) ∨
      ∃ commit, WritesBlock out start parentUuid w.history commit ∧
        (outcome r).2.history = looks out 1 (looks out 7 w.history ++ [.own commit])
  show Q (headlessAppendChild out start parentUuid content properties w)
  rw [headlessAppendChild]
  apply run_look
  dsimp only
  apply run_require (.inl ⟨1, rfl⟩)
  intro first _
  apply run_require (.inl ⟨1, rfl⟩)
  intro sourcePath _
  show Q ((raiseIf _ _ >>= _) (w.after (looks out 1 w.history)))
  apply run_raiseIf (.inl ⟨1, rfl⟩)
  apply run_look
  dsimp only
  apply run_raiseIf (.inl ⟨2, rfl⟩)
  apply run_require (.inl ⟨2, rfl⟩)
  intro parent hParent
  apply run_require (.inl ⟨2, rfl⟩)
  intro target hTarget
  apply run_look
  dsimp only
  apply run_raiseIf (.inl ⟨3, rfl⟩)
  apply run_require (.inl ⟨3, rfl⟩)
  intro file hFile
  apply run_look
  dsimp only
  apply run_require (.inl ⟨4, rfl⟩)
  intro baselineMtime _
  apply run_writeIfUnchanged
  · intro n
    exact .inl ⟨4 + n, looks_looks out n 4 w.history⟩
  · intro n
    apply run_look
    apply Or.inl
    refine ⟨4 + (n + 1), ?_⟩
    rw [← looks_looks]
    rfl
  · intro t
    apply run_look
    apply Or.inr
    refine ⟨_, ?_, rfl⟩
    constructor
    · refine ⟨parent, target, ?_, ?_, rfl⟩
      · rw [← length_looks out 2 w.history]
        exact hParent
      · rw [← length_looks out 2 w.history]
        exact hTarget
    · exact ⟨file, hFile, rfl⟩
    · apply terminated_canonicalLines (List.cons_ne_nil _ _)
      exact blockLines_newline _ _ _ _ _
    · rfl

end Running

section Appends

/-- One call, with the baseline that its caller took before. -/
structure AppendCall where
  occ : Option OCCSnapshot
  parentUuid : Str
  content : Str
  properties : List (Str × Str)

variable (out : Outside) (start : Disk)

def AppendCall.run (call : AppendCall) (w : World) : World :=
  (outcome (headlessAppendChild out start call.parentUuid call.content call.properties
    { w with occ := call.occ })).2

/-- One of the calls commits a write for a parent block, after this history. -/
inductive Committed : List AppendCall → World → Str → List Event → Commit → Prop where
  | here {call : AppendCall} {calls : List AppendCall} {w : World} {before after : List Event}
      {commit : Commit} (hWritten : (call.run out start w).history = before ++ .own commit :: after)
      (hNew : w.history <+: before) : Committed (call :: calls) w call.parentUuid before commit
  | later {call : AppendCall} {calls : List AppendCall} {w : World} {parentUuid : Str}
      {before : List Event} {commit : Commit}
      (h : Committed calls (call.run out start w) parentUuid before commit) :
      Committed (call :: calls) w parentUuid before commit

/-- The text of a page after the events, as it is read. -/
def textAt (history : List Event) (path : Str) : Option Str :=
  (replay start history path).map fun file => universalNewlines file.text

/-- The line behind the subtree of a block in a text. -/
abbrev InsertionLine := Str → Str → Option ℕ

variable (insertionLine : InsertionLine)

/-- The new lines stand behind the subtree of the parent in the text that they replace, and
the other lines of that text are as they were. -/
def PlacedBehindSubtree (parentUuid : Str) (before : List Event) (commit : Commit) : Prop :=
  ∃ content line, textAt start before commit.path = some content ∧
    insertionLine content parentUuid = some line ∧
      splitlines commit.after = (splitlines content).take line ++
        splitlines (canonicalLines commit.newLines) ++ (splitlines content).drop line

/-- The tree that was asked five looks before the replacement has the line of the page, which
is as it was read four looks before. -/
structure UpToDate (cached : ℕ → Str) (parentUuid : Str) (before : List Event) (commit : Commit) :
    Prop where
  same_text : textAt start (before.take (before.length - 4)) commit.path =
    textAt start before commit.path
  same_line : ∀ content, textAt start before commit.path = some content →
    insertionLine (cached (before.length - 5)) parentUuid = insertionLine content parentUuid
  clean_end : ∀ content, textAt start before commit.path = some content → EndsCleanly content

/-- The tree in the cache has the lines of the source text that it was parsed from. -/
def ParsedFrom (cached : ℕ → Str) : Prop :=
  ∀ now uuid parent target, out.resolveGraphNode now uuid = some parent →
    out.nodeByUuid now parent.uuid = some target →
      insertionLine (cached now) uuid = some target.insertionLine

variable {out start}

/-- Between quiet events there is one commit only. -/
theorem own_unique {es es' p post : List Event} {commit other : Commit}
    (hBefore : ∀ e ∈ es, e.commit? = none) (hAfter : ∀ e ∈ es', e.commit? = none)
    (h : es ++ .own commit :: es' = p ++ .own other :: post) : p = es ∧ other = commit := by
  induction es generalizing p with
  | nil =>
      cases p with
      | nil =>
          obtain ⟨hHead, -⟩ := List.cons.inj h
          exact ⟨rfl, (Event.own.inj hHead).symm⟩
      | cons e p =>
          obtain ⟨-, hTail⟩ := List.cons.inj h
          have hQuiet := hAfter (.own other) (by rw [hTail]; simp)
          cases hQuiet
  | cons e es ih =>
      rw [List.forall_mem_cons] at hBefore
      cases p with
      | nil =>
          obtain ⟨rfl, -⟩ := List.cons.inj h
          cases hBefore.1
      | cons e' p =>
          obtain ⟨rfl, hTail⟩ := List.cons.inj h
          obtain ⟨rfl, hSame⟩ := ih hBefore.2 hTail
          exact ⟨rfl, hSame⟩

theorem committed_writesBlock {call : AppendCall} {w : World} {before after : List Event}
    {commit : Commit} (hWritten : (call.run out start w).history = before ++ .own commit :: after)
    (hNew : w.history <+: before) :
    WritesBlock out start call.parentUuid w.history commit ∧ before = looks out 7 w.history := by
  obtain ⟨p, rfl⟩ := hNew
  rw [AppendCall.run] at hWritten
  rcases headlessAppendChild_history out start call.parentUuid call.content call.properties with
    ⟨n, hLooks⟩ | ⟨written, hBlock, hHistory⟩
  · obtain ⟨es, hEvents, hQuiet⟩ := looks_quiet out n w.history
    have hSame := hWritten.symm.trans (hLooks.trans hEvents)
    rw [List.append_assoc, List.append_cancel_left_eq] at hSame
    have hOwn := hQuiet (.own commit) (by rw [← hSame]; simp)
    cases hOwn
  · obtain ⟨es, hEvents, hQuiet⟩ := looks_quiet out 7 w.history
    have hSame : looks out 1 (looks out 7 w.history ++ [.own written]) =
        w.history ++ p ++ .own commit :: after := hHistory.symm.trans hWritten
    rw [looks, looks, hEvents] at hSame
    simp only [List.append_assoc, List.append_cancel_left_eq, List.singleton_append] at hSame
    obtain ⟨rfl, rfl⟩ := own_unique hQuiet (fun e he => by
      rw [List.mem_singleton.mp he]
      rfl) hSame
    exact ⟨hBlock, hEvents.symm⟩

/-- A write of a call is placed well when the tree and the page were as they are. -/
theorem placed_of_upToDate {cached : ℕ → Str} (hParsed : ParsedFrom out insertionLine cached)
    {parentUuid : Str} {history : List Event} {commit : Commit}
    (h : WritesBlock out start parentUuid history commit)
    (hUpToDate : UpToDate start insertionLine cached parentUuid (looks out 7 history) commit) :
    PlacedBehindSubtree start insertionLine parentUuid (looks out 7 history) commit := by
  obtain ⟨file, hFile, hBefore⟩ := h.text
  obtain ⟨parent, target, hParent, hTarget, hLine⟩ := h.target
  have hRead : textAt start ((looks out 7 history).take ((looks out 7 history).length - 4))
      commit.path = some commit.before := by
    rw [length_looks, show history.length + 7 - 4 = history.length + 3 from rfl,
      take_looks out 4 3, textAt, hFile, hBefore]
    rfl
  have hContent : textAt start (looks out 7 history) commit.path = some commit.before := by
    rw [← hUpToDate.same_text, hRead]
  have hCached := hUpToDate.same_line commit.before hContent
  rw [length_looks, show history.length + 7 - 5 = history.length + 2 from rfl,
    hParsed _ _ _ _ hParent hTarget] at hCached
  refine ⟨commit.before, commit.insertIndex, hContent, ?_, ?_⟩
  · rw [hLine, ← hCached]
  · rw [h.spliced]
    apply splitlines_spliced
    · rw [hBefore]
      exact cr_notMem_universalNewlines _
    · exact hUpToDate.clean_end commit.before hContent
    · exact h.new_lines

/-- In every sequence of calls, with any edits of other programs in between, a committed
block stands behind the subtree of its parent if the tree was up to date. -/
theorem appends_placed {cached : ℕ → Str} (hParsed : ParsedFrom out insertionLine cached)
    {calls : List AppendCall} {w : World} {parentUuid : Str} {before : List Event}
    {commit : Commit} (h : Committed out start calls w parentUuid before commit)
    (hUpToDate : UpToDate start insertionLine cached parentUuid before commit) :
    PlacedBehindSubtree start insertionLine parentUuid before commit := by
  induction h with
  | here hWritten hNew =>
      obtain ⟨hBlock, rfl⟩ := committed_writesBlock hWritten hNew
      exact placed_of_upToDate insertionLine hParsed hBlock hUpToDate
  | later h ih => exact ih hUpToDate

end Appends

section Sample

/-- The page was read with one block; another program puts a line in front of it before the
call begins, and no file event is seen. -/
def pageBefore : Str := "- p\n".toList

def pageEdited : Str := "- x\n- p\n".toList

def editedDisk : Disk := fun path =>
  if path = "x.md".toList then some ⟨pageBefore, 10 ^ 18⟩ else none

def unseenEdit (seen : Bool) : Outside where
  edit n disk := if n = 0 then
      fun path => (disk path).map fun _ => ⟨pageEdited, 10 ^ 18 + 1⟩
    else disk
  mtimeNs n := 2 * 10 ^ 18 + n
  resolveGraphNode _ uuid :=
    some ⟨uuid, none, some "x.md".toList, 0, if seen then 2 else 1, 2, []⟩
  nodeByUuid _ uuid := some ⟨uuid, none, some "x.md".toList, 0, if seen then 2 else 1, 2, []⟩
  nodeByEmbedRef _ _ := none
  pagePath title := some title
  withinGraph _ _ := true
  writable _ _ := true
  validPayload _ _ _ := true
  tabSize := 2
  freshUuid _ := sampleId

/-- The line behind the only block `p` of the two texts. -/
def sampleLine : InsertionLine := fun text _ =>
  if text = pageBefore then some 1 else if text = pageEdited then some 2 else none

def appendToP : AppendCall := ⟨none, "p".toList, "n".toList, []⟩

/-- What the call writes when its tree is that of the old page or that of the new one. -/
def writtenText (seen : Bool) : Str :=
  if seen then "- x\n- p\n  - n\n    id:: 6ba7b810-9dad-41d1-80b4-00c04fd430c8\n".toList
  else "- x\n  - n\n    id:: 6ba7b810-9dad-41d1-80b4-00c04fd430c8\n- p\n".toList

def newBlock : List Str :=
  ["  - n\n".toList, "    id:: 6ba7b810-9dad-41d1-80b4-00c04fd430c8\n".toList]

def sampleCommit (seen : Bool) : Commit :=
  ⟨"x.md".toList, pageEdited, writtenText seen, if seen then 2 else 1, newBlock, 2 * 10 ^ 18 + 7⟩

theorem sample_history (seen : Bool) :
    (appendToP.run (unseenEdit seen) editedDisk initialWorld).history =
      looks (unseenEdit seen) 1
        (looks (unseenEdit seen) 7 [] ++ [.own (sampleCommit seen)]) := by
  cases seen <;> rfl

theorem sample_committed (seen : Bool) :
    Committed (unseenEdit seen) editedDisk [appendToP] initialWorld "p".toList
      (looks (unseenEdit seen) 7 []) (sampleCommit seen) := by
  show Committed (unseenEdit seen) editedDisk [appendToP] initialWorld appendToP.parentUuid _ _
  apply Committed.here
  · rw [sample_history, looks, looks, List.append_assoc, List.singleton_append]
  · exact List.nil_prefix

theorem sample_text (seen : Bool) :
    textAt editedDisk (looks (unseenEdit seen) 7 []) "x.md".toList = some pageEdited := rfl

theorem sample_parsedFrom (seen : Bool) :
    ParsedFrom (unseenEdit seen) sampleLine fun _ => if seen then pageEdited else pageBefore := by
  intro now uuid parent target _ hTarget
  obtain rfl := Option.some.inj hTarget
  cases seen with
  | true => rfl
  | false => rfl

/-- Without the file event the block comes to stand under the line of the other program. -/
theorem unseen_edit_misplaces :
    ¬ ∀ (out : Outside) (start : Disk) (insertionLine : InsertionLine) (cached : ℕ → Str),
      ParsedFrom out insertionLine cached →
        ∀ (calls : List AppendCall) (w : World) (parentUuid : Str) (before : List Event)
          (commit : Commit), Committed out start calls w parentUuid before commit →
            PlacedBehindSubtree start insertionLine parentUuid before commit := by
  intro h
  obtain ⟨content, line, hContent, hLine, hLines⟩ :=
    h _ _ sampleLine _ (sample_parsedFrom false) _ _ _ _ _ (sample_committed false)
  obtain rfl : pageEdited = content := Option.some.inj ((sample_text false).symm.trans hContent)
  obtain rfl : 2 = line := Option.some.inj hLine
  exact absurd hLines (by decide)

theorem appends_placed_of_seen_edit :
    PlacedBehindSubtree editedDisk sampleLine "p".toList (looks (unseenEdit true) 7 [])
      (sampleCommit true) := by
  apply appends_placed sampleLine (sample_parsedFrom true) (sample_committed true)
  constructor
  · rfl
  · intro content hContent
    obtain rfl : pageEdited = content := Option.some.inj ((sample_text true).symm.trans hContent)
    rfl
  · intro content hContent
    obtain rfl : pageEdited = content := Option.some.inj ((sample_text true).symm.trans hContent)
    intro c hc
    obtain rfl : '\n' = c := Option.some.inj hc
    exact .inl rfl

end Sample

end Plumber.GraphDispatch
