import MatrycaPlumber.Agent.SplitConservation
import MatrycaPlumber.Text.Stripping

/-! The cutting out of dense blocks while somebody else edits the page: what is left
in the graph when the page is not written in the end. -/
namespace Plumber.AutoSplit

open PyText MarkdownBlocks LogseqUuid PageFiles

/-- An external edit of the page, before the step with this number; a page that
becomes `none` is deleted. -/
structure ExternalEdit where
  moment : ℕ
  file : Option FileState

section Run

variable (g : Graph) (pageTitle pagePath : Str) (clock : ℕ → ℕ) (e : ExternalEdit)

def ExternalEdit.before (k : ℕ) (disk : Disk) : Disk :=
  if e.moment = k then setAt disk pagePath e.file else disk

/-- The files as the editor alone leaves them, up to the step `k`. -/
def ExternalEdit.upTo (k : ℕ) (disk : Disk) : Disk :=
  if e.moment < k then setAt disk pagePath e.file else disk

def texts (disk : Disk) : Str → Option Str := fun path => (disk path).map (·.text)

/-- The files after pages have been created: those that were there stay. -/
def store (now : ℕ) (disk : Disk) (pages : Str → Option Str) : Disk := fun path =>
  match disk path with
  | some file => some file
  | none => (pages path).map fun text => ⟨text, now⟩

/-- The variables of the loop over the candidates. -/
structure Working where
  lines : List Str
  disk : Disk
  extracted : List Extraction

def takeCandidate (now : ℕ) (w : Working) (c : Candidate) : Option Working :=
  (extractCandidate g pageTitle ⟨w.lines, texts w.disk, w.extracted⟩ c).map fun s =>
    ⟨s.lines, store now w.disk s.pages, s.extracted⟩

/-- The loop over the candidates from step `k` on; the files that a raising write
leaves behind are its error. -/
def takeCandidates (k : ℕ) (w : Working) : List Candidate → Except Disk Working
  | [] => .ok w
  | c :: cs =>
      let edited := { w with disk := e.before pagePath k w.disk }
      match takeCandidate g pageTitle (clock k) edited c with
      | none => .error edited.disk
      | some next => takeCandidates (k + 1) next cs

inductive SplitOutcome
  | skipped (disk : Disk)
  | raised (disk : Disk)
  | aborted (k : ℕ) (disk : Disk)
  | committed (disk : Disk)

/-- `atomic_write_bytes_if_unchanged` of the page, from step `k` on. The time is
compared once more right before the page is replaced. -/
def commitPage (k baseline : ℕ) (w : Working) : SplitOutcome :=
  let disk := e.before pagePath k w.disk
  if fileMtimeDrifted (disk pagePath) baseline then .aborted (k + 1) disk
  else if findMalformedBlockRefs w.lines.flatten ≠ [] then .raised disk
  else
    let disk := e.before pagePath (k + 1) disk
    if fileMtimeDrifted (disk pagePath) baseline then .aborted (k + 2) disk
    else .committed (setAt disk pagePath (some ⟨w.lines.flatten, clock (k + 1)⟩))

/-- `run_auto_split` with an external edit. The page must be a file, then its time is
taken, its text is read and the time is compared (or taken, if there was none). -/
def runAutoSplitEdited (threshold : Int) (disk : Disk) : SplitOutcome :=
  let disk₀ := e.before pagePath 0 disk
  if disk₀ pagePath = none then .skipped disk₀
  else
    let disk₁ := e.before pagePath 1 disk₀
    let snapshot := (disk₁ pagePath).map (·.mtimeNs)
    let disk₂ := e.before pagePath 2 disk₁
    match disk₂ pagePath with
    | none => .raised disk₂
    | some file =>
        let text := universalNewlines file.text
        let disk₃ := e.before pagePath 3 disk₂
        if isBlank text then .skipped disk₃
        else if snapshot.any (fileMtimeDrifted (disk₃ pagePath)) then .skipped disk₃
        else
          match snapshot <|> (disk₃ pagePath).map (·.mtimeNs) with
          | none => .skipped disk₃
          | some baseline =>
              let lines := splitlinesKeep text
              let candidates := orderedCandidates g.tables threshold lines
              if candidates.isEmpty then .skipped disk₃
              else
                match takeCandidates g pageTitle pagePath clock e 4 ⟨lines, disk₃, []⟩
                    candidates with
                | .error disk => .raised disk
                | .ok w => commitPage pagePath clock e (4 + candidates.length) baseline w

/-- The candidates of the page as it is read. -/
def candidatesRead (threshold : Int) (disk : Disk) : List Candidate :=
  match e.upTo pagePath 3 disk pagePath with
  | none => []
  | some file => orderedCandidates g.tables threshold (splitlinesKeep (universalNewlines file.text))

/-- Every candidate has its page when its turn comes, so that the run creates none. -/
def EveryChildExists (threshold : Int) (disk : Disk) : Prop :=
  ∀ i c path, (candidatesRead g pagePath e threshold disk)[i]? = some c →
    g.safePagePath (childTitle pageTitle c) = some path → e.upTo pagePath (5 + i) disk path ≠ none

end Run

/-! ## The editor's part -/

section Edit

variable {g : Graph} {pageTitle pagePath : Str} {clock : ℕ → ℕ} {e : ExternalEdit} {disk : Disk}

theorem ExternalEdit.upTo_zero : e.upTo pagePath 0 disk = disk := if_neg (Nat.not_lt_zero _)

theorem ExternalEdit.before_upTo (k : ℕ) :
    e.before pagePath k (e.upTo pagePath k disk) = e.upTo pagePath (k + 1) disk := by
  rcases Nat.lt_trichotomy e.moment k with hLt | hEq | hGt
  · rw [before, if_neg (by omega), upTo, upTo, if_pos hLt, if_pos (by omega)]
  · rw [before, if_pos hEq, upTo, if_neg (by omega), upTo, if_pos (by omega)]
  · rw [before, if_neg (by omega), upTo, upTo, if_neg (by omega), if_neg (by omega)]

theorem ExternalEdit.before_ne {k : ℕ} {path : Str} (h : path ≠ pagePath ∨ e.moment < k) :
    e.before pagePath k disk path = disk path := by
  rw [before]
  split_ifs with hMoment
  · rcases h with hPath | hLt
    · exact setAt_ne _ _ hPath
    · omega
  · rfl

/-- A path that is free after the page has been read stays free in the editor's files. -/
theorem ExternalEdit.free_stays {k : ℕ} {path : Str} (hRead : e.upTo pagePath 4 disk pagePath ≠ none)
    (hK : 4 ≤ k) (hFree : e.upTo pagePath k disk path = none) :
    (path ≠ pagePath ∨ e.moment < k) ∧ ∀ k', k ≤ k' → e.upTo pagePath k' disk path = none := by
  by_cases hPath : path = pagePath
  · rw [hPath] at hFree ⊢
    have hMoment : e.moment < k := by
      by_contra hNot
      rw [upTo, if_neg hNot] at hFree
      rw [upTo, if_neg (by omega)] at hRead
      exact hRead hFree
    refine ⟨Or.inr hMoment, ?_⟩
    intro k' hLe
    rw [upTo, if_pos hMoment] at hFree
    rw [upTo, if_pos (by omega), hFree]
  · have hSame (k : ℕ) : e.upTo pagePath k disk path = disk path := by
      rw [upTo]
      split_ifs
      · exact setAt_ne _ _ hPath
      · rfl
    rw [hSame] at hFree
    refine ⟨Or.inl hPath, ?_⟩
    intro k' _
    rw [hSame, hFree]

/-! ## One candidate -/

theorem store_texts (now : ℕ) (disk : Disk) : store now disk (texts disk) = disk := by
  funext path
  rw [store, texts]
  cases disk path <;> rfl

theorem store_of_some {now : ℕ} {pages : Str → Option Str} {path : Str} (h : disk path ≠ none) :
    store now disk pages path = disk path := by
  rw [store]
  split
  next hSome => exact hSome.symm
  next hNone => exact absurd hNone h

variable (lines : List Str) in
/-- The lines in front of `front` are those of the page, and what starts there is not
blank when it is a stub. -/
structure Untouched (w : Working) (front : ℕ) : Prop where
  same : ∀ i < front, w.lines[i]? = lines[i]?
  not_blank : lines.length ≤ front ∨
    ∃ line, w.lines[front]? = some line ∧ isBlank (stripNewlines line) = false

variable {lines : List Str} {w next : Working} {front now : ℕ} {c : Candidate}

theorem Untouched.line (h : Untouched lines w front) (hOn : c.On lines)
    (hFront : c.bulletIdx ≤ front) :
    ∃ line, w.lines[c.bulletIdx]? = some line ∧ isBlank (stripNewlines line) = false := by
  have hLt := hOn.lt
  have hStop := hOn.stop_le
  rcases Nat.lt_or_eq_of_le hFront with hBefore | hAt
  · refine ⟨lines.getD c.bulletIdx [], ?_, isBlank_eq_false_of_bullet hOn.bullet⟩
    rw [h.same _ hBefore, List.getD, List.getElem?_eq_getElem (by omega), Option.getD_some]
  · rw [hAt]
    rcases h.not_blank with hEnd | hLine
    · omega
    · exact hLine

theorem stub_not_blank (indent title : Str) (blockUuid : Uuid) :
    isBlank (stripNewlines (stub pageTitle indent title blockUuid)) = false := by
  have hStub : '-' ∈ stub pageTitle indent title blockUuid := by
    rw [stub]
    simp
  rw [isBlank, List.all_eq_false]
  exact ⟨'-', mem_rstripChars hStub (by decide), by decide⟩

/-- What a candidate writes to the files. -/
theorem takeCandidate_disk (h : takeCandidate g pageTitle now w c = some next) :
    (isBlank (subtreeText w.lines c.bulletIdx c.stop) = true ∧ next = w) ∨
      (g.safePagePath (childTitle pageTitle c) = none ∧ next = w) ∨
        ∃ path text indent, g.safePagePath (childTitle pageTitle c) = some path ∧
          next.lines = w.lines.take c.bulletIdx ++
            stub pageTitle indent (childTitle pageTitle c) (g.freshUuid w.extracted.length) ::
              w.lines.drop c.stop ∧
          ∀ p, next.disk p = (w.disk p <|> if path = p then some ⟨text, now⟩ else none) := by
  obtain ⟨s, hStep, rfl⟩ := Option.map_eq_some_iff.mp h
  have hSame : (⟨w.lines, store now w.disk (texts w.disk), w.extracted⟩ : Working) = w := by
    rw [store_texts]
  rw [extractCandidate] at hStep
  dsimp only at hStep
  split at hStep
  next hBlank =>
    obtain rfl := Option.some.inj hStep
    exact Or.inl ⟨hBlank, hSame⟩
  next =>
    split at hStep
    next hPath =>
      obtain rfl := Option.some.inj hStep
      exact Or.inr (Or.inl ⟨hPath, hSame⟩)
    next path hPath =>
      obtain ⟨pages, hWritten, rfl⟩ := Option.map_eq_some_iff.mp hStep
      apply Or.inr
      apply Or.inr
      refine ⟨path, childText g pageTitle c.blockCount (subtreeText w.lines c.bulletIdx c.stop), _,
        hPath, rfl, ?_⟩
      intro p
      have hPage := written_page hWritten p
      dsimp only
      rw [store, hPage, texts]
      cases w.disk p with
      | some file => rfl
      | none => split_ifs <;> rfl

/-- A candidate whose page is there, or has no path, changes no file. -/
theorem takeCandidate_of_exists (hExists : ∀ path,
      g.safePagePath (childTitle pageTitle c) = some path → w.disk path ≠ none)
    (h : takeCandidate g pageTitle now w c = some next) : next.disk = w.disk := by
  rcases takeCandidate_disk h with ⟨-, rfl⟩ | ⟨-, rfl⟩ | ⟨path, text, indent, hPath, -, hDisk⟩
  · rfl
  · rfl
  · funext p
    rw [hDisk]
    split_ifs with hEq
    · have hThere := hExists path hPath
      rw [hEq] at hThere
      cases hFile : w.disk p with
      | none => exact absurd hFile hThere
      | some file => rfl
    · cases w.disk p <;> rfl

/-- A candidate whose page is not there leaves it behind. -/
theorem takeCandidate_of_free {path : Str}
    (hPath : g.safePagePath (childTitle pageTitle c) = some path)
    (hBlank : isBlank (subtreeText w.lines c.bulletIdx c.stop) = false)
    (h : takeCandidate g pageTitle now w c = some next) : next.disk path ≠ none := by
  rcases takeCandidate_disk h with ⟨hText, -⟩ | ⟨hNone, -⟩ | ⟨path', text, indent, hPath', -, hDisk⟩
  · rw [hBlank] at hText
    cases hText
  · rw [hPath] at hNone
    cases hNone
  · rw [hPath] at hPath'
    obtain rfl := Option.some.inj hPath'
    rw [hDisk, if_pos rfl]
    cases w.disk path <;> exact Option.some_ne_none _

/-- The files that are there stay. -/
theorem takeCandidate_keeps {path : Str} (h : takeCandidate g pageTitle now w c = some next)
    (hThere : w.disk path ≠ none) : next.disk path = w.disk path := by
  obtain ⟨s, -, rfl⟩ := Option.map_eq_some_iff.mp h
  exact store_of_some hThere

theorem Untouched.take (h : Untouched lines w front) (hOn : c.On lines)
    (hFront : c.bulletIdx ≤ front) (hStep : takeCandidate g pageTitle now w c = some next) :
    ∃ front', c.bulletIdx ≤ front' ∧ Untouched lines next front' := by
  have hLt := hOn.lt
  have hStop := hOn.stop_le
  obtain ⟨line, hLine, -⟩ := h.line hOn hFront
  obtain ⟨hBound, -⟩ := List.getElem?_eq_some_iff.mp hLine
  rcases takeCandidate_disk hStep with ⟨-, rfl⟩ | ⟨-, rfl⟩ | ⟨path, text, indent, -, hLines, -⟩
  · exact ⟨front, hFront, h⟩
  · exact ⟨front, hFront, h⟩
  · have hLength : (w.lines.take c.bulletIdx).length = c.bulletIdx := by
      rw [List.length_take]
      omega
    have hStub : next.lines[c.bulletIdx]? = some
        (stub pageTitle indent (childTitle pageTitle c) (g.freshUuid w.extracted.length)) := by
      rw [hLines, List.getElem?_append_right (by omega), hLength, Nat.sub_self]
      rfl
    refine ⟨c.bulletIdx, Nat.le_refl _, ?_, Or.inr ⟨_, hStub, stub_not_blank _ _ _⟩⟩
    intro i hI
    rw [hLines, List.getElem?_append_left (by omega), List.getElem?_take_of_lt hI]
    exact h.same i (by omega)

/-! ## The loop -/

section Loop

variable {cs : List Candidate} {k : ℕ}

/-- What is there when a candidate is taken is there after the last one, unless the
editor is still to come. -/
theorem takeCandidates_keeps {path : Str} (hPath : path ≠ pagePath ∨ e.moment < k)
    (h : takeCandidates g pageTitle pagePath clock e k w cs = .ok next)
    (hThere : w.disk path ≠ none) : next.disk path ≠ none := by
  induction cs generalizing k w with
  | nil =>
      cases h
      exact hThere
  | cons c cs ih =>
      rw [takeCandidates] at h
      split at h
      next => cases h
      next u hTake =>
        have hEdited : e.before pagePath k w.disk path ≠ none := by
          rwa [ExternalEdit.before_ne hPath]
        apply ih (hPath.imp_right Nat.lt_succ_of_lt) h
        rwa [takeCandidate_keeps hTake hEdited]

variable (g pageTitle pagePath e disk) in
/-- The candidates that are taken from step `k` on have their pages. -/
def ChildrenExist (k : ℕ) (cs : List Candidate) : Prop :=
  ∀ i c path, cs[i]? = some c → g.safePagePath (childTitle pageTitle c) = some path →
    e.upTo pagePath (k + 1 + i) disk path ≠ none

theorem childrenExist_cons : ChildrenExist g pageTitle pagePath e disk k (c :: cs) ↔
    (∀ path, g.safePagePath (childTitle pageTitle c) = some path →
      e.upTo pagePath (k + 1) disk path ≠ none) ∧
      ChildrenExist g pageTitle pagePath e disk (k + 1) cs := by
  constructor
  · intro hAll
    refine ⟨fun path hPath => hAll 0 c path rfl hPath, ?_⟩
    intro i c' path hGet hPath
    rw [Nat.add_right_comm]
    exact hAll (i + 1) c' path hGet hPath
  · rintro ⟨hFirst, hRest⟩ i c' path hGet hPath
    cases i with
    | zero =>
        obtain rfl := Option.some.inj hGet
        exact hFirst path hPath
    | succ i =>
        rw [← Nat.add_assoc, Nat.add_right_comm]
        exact hRest i c' path hGet hPath

variable (pagePath e disk) in
/-- A page is left behind where the editor has none, now and later. -/
def LeftBehind (k : ℕ) (files : Disk) : Prop :=
  ∃ path, (path ≠ pagePath ∨ e.moment < k) ∧ files path ≠ none ∧
    ∀ k', k ≤ k' → e.upTo pagePath k' disk path = none

theorem LeftBehind.before {files : Disk} (h : LeftBehind pagePath e disk k files) :
    LeftBehind pagePath e disk (k + 1) (e.before pagePath k files) := by
  obtain ⟨path, hQuiet, hThere, hGone⟩ := h
  refine ⟨path, hQuiet.imp_right Nat.lt_succ_of_lt, ?_, fun k' hK' => hGone k' (by omega)⟩
  rwa [ExternalEdit.before_ne hQuiet]

theorem LeftBehind.ne {files : Disk} (h : LeftBehind pagePath e disk k files) :
    files ≠ e.upTo pagePath k disk := by
  obtain ⟨path, -, hThere, hGone⟩ := h
  intro hEq
  rw [hEq] at hThere
  exact hThere (hGone k (Nat.le_refl k))

/-- After the loop the files are the editor's, or a page is left behind. -/
theorem takeCandidates_cases (hRead : e.upTo pagePath 4 disk pagePath ≠ none) (hK : 4 ≤ k)
    (hDisk : w.disk = e.upTo pagePath k disk) (hLines : Untouched lines w front)
    (hOn : ∀ c ∈ cs, c.On lines) (hFront : ∀ c ∈ cs, c.bulletIdx ≤ front)
    (hOrder : cs.Pairwise fun c c' => c'.bulletIdx ≤ c.bulletIdx)
    (h : takeCandidates g pageTitle pagePath clock e k w cs = .ok next) :
    (ChildrenExist g pageTitle pagePath e disk k cs ∧
        next.disk = e.upTo pagePath (k + cs.length) disk) ∨
      (¬ ChildrenExist g pageTitle pagePath e disk k cs ∧
        LeftBehind pagePath e disk (k + cs.length) next.disk) := by
  induction cs generalizing k w front with
  | nil =>
      cases h
      refine Or.inl ⟨?_, hDisk⟩
      intro i c path hGet
      cases hGet
  | cons c cs ih =>
      rw [takeCandidates] at h
      split at h
      next => cases h
      next u hTake =>
        rw [List.forall_mem_cons] at hOn hFront
        rw [List.pairwise_cons] at hOrder
        have hEdited : e.before pagePath k w.disk = e.upTo pagePath (k + 1) disk := by
          rw [hDisk, ExternalEdit.before_upTo]
        have hLines' : Untouched lines { w with disk := e.before pagePath k w.disk } front :=
          ⟨hLines.same, hLines.not_blank⟩
        have hCount : k + (cs.length + 1) = k + 1 + cs.length := by omega
        rw [childrenExist_cons, List.length_cons, hCount]
        by_cases hExists : ∀ path, g.safePagePath (childTitle pageTitle c) = some path →
            e.upTo pagePath (k + 1) disk path ≠ none
        · obtain ⟨front', hFront', hNext⟩ := hLines'.take hOn.1 hFront.1 hTake
          have hSame : u.disk = e.upTo pagePath (k + 1) disk := by
            rw [takeCandidate_of_exists _ hTake]
            · exact hEdited
            · dsimp only
              rwa [hEdited]
          have hRest := ih (by omega) hSame hNext hOn.2
            (fun c' hC' => (hOrder.1 c' hC').trans hFront') hOrder.2 h
          rcases hRest with ⟨hAll, hDisk'⟩ | ⟨hNot, hLeft⟩
          · exact Or.inl ⟨⟨hExists, hAll⟩, hDisk'⟩
          · exact Or.inr ⟨fun hBoth => hNot hBoth.2, hLeft⟩
        · obtain ⟨path, hPath, hFree⟩ : ∃ path,
              g.safePagePath (childTitle pageTitle c) = some path ∧
                e.upTo pagePath (k + 1) disk path = none := by
            simpa using hExists
          -- The page of this candidate stays behind, and the editor has none there.
          obtain ⟨hQuiet, hGone⟩ := ExternalEdit.free_stays hRead (by omega) hFree
          obtain ⟨line, hLine, hText⟩ := hLines'.line hOn.1 hFront.1
          have hBlank := subtreeText_not_blank_of_line hLine hOn.1.lt hText
          have hLeft := takeCandidates_keeps hQuiet h (takeCandidate_of_free hPath hBlank hTake)
          refine Or.inr ⟨fun hBoth => hExists hBoth.1, path, ?_, hLeft, ?_⟩
          · exact hQuiet.imp_right fun hLt => by omega
          · exact fun k' hK' => hGone k' (by omega)

/-- What the page's last comparison leaves when it fails. -/
theorem commitPage_aborted {baseline k' : ℕ} {files : Disk}
    (h : commitPage pagePath clock e k baseline w = .aborted k' files) :
    (k' = k + 1 ∧ files = e.before pagePath k w.disk) ∨
      (k' = k + 2 ∧ files = e.before pagePath (k + 1) (e.before pagePath k w.disk)) := by
  rw [commitPage] at h
  dsimp only at h
  split at h
  next =>
    cases h
    exact Or.inl ⟨rfl, rfl⟩
  next =>
    split at h
    next => cases h
    next =>
      split at h
      next =>
        cases h
        exact Or.inr ⟨rfl, rfl⟩
      next => cases h

theorem commitPage_traceless_iff {baseline k' : ℕ} {files : Disk} {allExist : Prop}
    (hCases : (allExist ∧ w.disk = e.upTo pagePath k disk) ∨
      (¬ allExist ∧ LeftBehind pagePath e disk k w.disk))
    (h : commitPage pagePath clock e k baseline w = .aborted k' files) :
    files = e.upTo pagePath k' disk ↔ allExist := by
  rcases hCases with ⟨hAll, hDisk⟩ | ⟨hNot, hLeft⟩
  · rcases commitPage_aborted h with ⟨rfl, rfl⟩ | ⟨rfl, rfl⟩
    · simp [hAll, hDisk, ExternalEdit.before_upTo]
    · simp [hAll, hDisk, ExternalEdit.before_upTo]
  · rcases commitPage_aborted h with ⟨rfl, rfl⟩ | ⟨rfl, rfl⟩
    · simp [hNot, hLeft.before.ne]
    · simp [hNot, hLeft.before.before.ne]

end Loop

/-- A run that fails at the last comparison leaves the files as the editor alone would
exactly if every candidate had its page already. -/
theorem aborted_traceless_iff {threshold : Int} {k : ℕ} {files : Disk}
    (h : runAutoSplitEdited g pageTitle pagePath clock e threshold disk = .aborted k files) :
    files = e.upTo pagePath k disk ↔ EveryChildExists g pageTitle pagePath e threshold disk := by
  have hStart : e.before pagePath 0 disk = e.upTo pagePath 1 disk := by
    rw [← ExternalEdit.before_upTo, ExternalEdit.upTo_zero]
  rw [runAutoSplitEdited] at h
  dsimp only at h
  rw [hStart] at h
  simp only [ExternalEdit.before_upTo, Nat.reduceAdd] at h
  split at h
  next => cases h
  next =>
    split at h
    next => cases h
    next file hFile =>
      split at h
      next => cases h
      next =>
        split at h
        next => cases h
        next hDrift =>
          split at h
          next => cases h
          next baseline hBaseline =>
            split at h
            next => cases h
            next =>
              split at h
              next => cases h
              next w hLoop =>
                have hRead : e.upTo pagePath 4 disk pagePath ≠ none := by
                  intro hNone
                  rw [hNone] at hDrift hBaseline
                  cases hSnapshot : (e.upTo pagePath 2 disk pagePath).map (·.mtimeNs) with
                  | none =>
                      rw [hSnapshot] at hBaseline
                      cases hBaseline
                  | some mtimeNs =>
                      rw [hSnapshot] at hDrift
                      exact hDrift rfl
                obtain ⟨hOn, hOrder⟩ := orderedCandidates_spec g.tables threshold
                  (splitlinesKeep (universalNewlines file.text))
                have hInitial : Untouched (splitlinesKeep (universalNewlines file.text))
                    ⟨splitlinesKeep (universalNewlines file.text), e.upTo pagePath 4 disk, []⟩
                    (splitlinesKeep (universalNewlines file.text)).length :=
                  ⟨fun _ _ => rfl, Or.inl (Nat.le_refl _)⟩
                have hFront (c : Candidate) (hC : c ∈ orderedCandidates g.tables threshold
                    (splitlinesKeep (universalNewlines file.text))) :
                    c.bulletIdx ≤ (splitlinesKeep (universalNewlines file.text)).length := by
                  have hLt := (hOn c hC).lt
                  have hStop := (hOn c hC).stop_le
                  omega
                have hCases := takeCandidates_cases hRead (Nat.le_refl 4) rfl hInitial hOn hFront
                  hOrder hLoop
                rw [commitPage_traceless_iff hCases h, EveryChildExists, candidatesRead, hFile]
                rfl

end Edit

section Sample

/-- The page is saved by its editor after its blocks have been taken. -/
def sampleEdit : ExternalEdit := ⟨5, some ⟨"- other\n".toList, 2 * 10 ^ 12⟩⟩

def sampleDisk (child : Option FileState) : Disk := fun path =>
  if path = "P.md".toList then some ⟨samplePage, 10 ^ 12⟩
  else if path = "P — a.md".toList then child else none

def sampleRun (child : Option FileState) : SplitOutcome :=
  runAutoSplitEdited sampleGraph "P".toList "P.md".toList (fun _ => 10 ^ 12) sampleEdit 1
    (sampleDisk child)

def SplitOutcome.abortedAt? : SplitOutcome → Option (ℕ × Disk)
  | .aborted k disk => some (k, disk)
  | _ => none

/-- The new page of the aborted run stays in the graph. -/
theorem child_page_is_left : ¬ ∀ (g : Graph) (pageTitle pagePath : Str) (clock : ℕ → ℕ)
    (e : ExternalEdit) (threshold : Int) (disk : Disk) (k : ℕ) (files : Disk),
    runAutoSplitEdited g pageTitle pagePath clock e threshold disk = .aborted k files →
      files = e.upTo pagePath k disk := by
  intro hAll
  have hRun : (sampleRun none).abortedAt?.map (fun r => (r.1, (r.2 "P — a.md".toList).isSome)) =
      some (6, true) := by
    decide +kernel
  cases hOutcome : sampleRun none with
  | aborted k files =>
      rw [hOutcome] at hRun
      obtain ⟨rfl, hThere⟩ := Prod.mk.inj (Option.some.inj hRun)
      rw [hAll _ _ _ _ _ _ _ _ _ hOutcome] at hThere
      revert hThere
      decide +kernel
  | _ =>
      rw [hOutcome] at hRun
      cases hRun

/-- The page of the block is there already. -/
theorem aborted_traceless_of_existing_page : ∃ k files,
    sampleRun (some ⟨"- old\n".toList, 10 ^ 12⟩) = .aborted k files ∧
      files = sampleEdit.upTo "P.md".toList k (sampleDisk (some ⟨"- old\n".toList, 10 ^ 12⟩)) := by
  have hAborted : (sampleRun (some ⟨"- old\n".toList, 10 ^ 12⟩)).abortedAt?.isSome = true := by
    decide +kernel
  cases hOutcome : sampleRun (some ⟨"- old\n".toList, 10 ^ 12⟩) with
  | aborted k files =>
      refine ⟨k, files, rfl, (aborted_traceless_iff hOutcome).mpr ?_⟩
      have hCandidates : candidatesRead sampleGraph "P.md".toList sampleEdit 1
          (sampleDisk (some ⟨"- old\n".toList, 10 ^ 12⟩)) = [sampleBlock.block] := by
        decide +kernel
      have hExists (path : Str) (hPath : some "P — a.md".toList = some path) (k : ℕ) :
          sampleEdit.upTo "P.md".toList k
            (sampleDisk (some ⟨"- old\n".toList, 10 ^ 12⟩)) path ≠ none := by
        obtain rfl := Option.some.inj hPath
        rw [ExternalEdit.upTo]
        split_ifs
        · decide
        · decide
      intro i c path hGet hPath
      rw [hCandidates] at hGet
      cases i with
      | zero =>
          obtain rfl := Option.some.inj hGet
          apply hExists path
          rw [← hPath]
          decide +kernel
      | succ i => cases hGet
  | _ =>
      rw [hOutcome] at hAborted
      cases hAborted

end Sample

end Plumber.AutoSplit
