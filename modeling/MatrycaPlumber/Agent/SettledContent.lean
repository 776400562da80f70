import MatrycaPlumber.Agent.DaemonCycle

/-! The content behind a settled record: as long as no edit falls into a window
in which a pass takes the page for what it has read, a record that matches the
page's time stands for the page's text. -/
namespace Plumber.DaemonCycle

open PyText LogseqUuid PageFiles

/-- A further write that was computed from what the page held. -/
theorem leftBy_append {content base : Option Str} {writes : List OwnWrite} (text : Str)
    (h : leftBy content writes = some base) :
    leftBy content (writes ++ [⟨base, text⟩]) = some (some text) := by
  induction writes generalizing content with
  | nil =>
      obtain rfl := Option.some.inj h
      simp [leftBy]
  | cons write writes ih =>
      rw [leftBy.eq_def] at h
      simp only at h
      split_ifs at h with hBase
      rw [List.cons_append, leftBy.eq_def]
      simp only [if_pos hBase]
      exact ih h

/-- What a pass is going to write was computed from what the page holds, or it
was unless the comparison to come fails. -/
def Pass.Based (pass : Pass) (file : Option FileState) : Prop :=
  match pass.phase with
  | .rebased | .compared =>
      pass.malformedRefs = none →
        (∀ f ∈ file, pass.trusts f = true → pass.left = some pass.base) ∧
          (pass.baseline = none → pass.left = some pass.base)
  | .armed | .checked | .committing => pass.left = some pass.base
  | _ => True

/-- A page that a pass trusts is as the pass has read or written it. -/
structure PassInv (pass : Pass) (file : Option FileState) : Prop where
  current : ∀ f ∈ file, pass.trusts f = true → pass.left = some (some f.text)
  based : pass.Based file

theorem PassInv.of_current {pass : Pass} {file : Option FileState}
    (h : ∀ f ∈ file, pass.left = some (some f.text)) (hBased : pass.Based file) :
    PassInv pass file :=
  ⟨fun f hFile _ => h f hFile, hBased⟩

theorem PassInv.of_free {pass : Pass} {file : Option FileState}
    (h : pass.phase = .idle ∨ pass.phase = .opened ∨ pass.phase = .snapshotted ∨
      pass.phase = .modules ∨ pass.phase = .done) : PassInv pass file := by
  obtain h | h | h | h | h := h <;>
    exact ⟨fun f _ hTrusts => by simp [Pass.trusts, h] at hTrusts, by simp [Pass.Based, h]⟩

/-- A comparison that succeeds finds a page that has not drifted, or has no
baseline. -/
theorem compare_cases (pass : Pass) (file : Option FileState) (next : Phase) :
    (pass.compare file next = { pass with phase := next } ∧
      (∀ f ∈ file, pass.passes f = true) ∧ (file = none → pass.baseline = none)) ∨
    pass.compare file next =
      { pass with phase := if pass.malformedRefs.isSome then .written else .done } := by
  unfold Pass.compare Pass.passes
  cases pass.baseline with
  | none => exact Or.inl ⟨rfl, fun _ _ => rfl, fun _ => rfl⟩
  | some baseline =>
      cases file with
      | none => exact Or.inr rfl
      | some f =>
          by_cases hDrift : mtimeDrifted f.mtimeNs baseline = true
          · exact Or.inr (if_pos hDrift)
          · refine Or.inl ⟨if_neg hDrift, ?_, fun h => by cases h⟩
            intro f' hFile
            obtain rfl := Option.some.inj hFile
            simpa using hDrift

/-- A conflict ends the pass, or the annotation of a page in quarantine, which is
then recorded as it is. -/
theorem compare_inv {pass : Pass} {file : Option FileState} {next : Phase}
    (hQuarantined : pass.malformedRefs.isSome = true → ∀ f ∈ file,
      pass.left = some (some f.text))
    (hNext : (∀ f ∈ file, pass.passes f = true) → (file = none → pass.baseline = none) →
      PassInv { pass with phase := next } file) :
    PassInv (pass.compare file next) file := by
  obtain ⟨hEq, hPasses, hNone⟩ | hEq := compare_cases pass file next
  · rw [hEq]
    exact hNext hPasses hNone
  · rw [hEq]
    cases hRefs : pass.malformedRefs.isSome with
    | true => exact PassInv.of_current (hQuarantined hRefs) trivial
    | false => exact PassInv.of_free (by simp)

/-- `append_structural_lint_warning` relies on the page from its first step on. -/
theorem advanceWarning_inv {pass : Pass} {file : Option FileState} {refs : List Str}
    (h : PassInv pass file) (hRefs : pass.malformedRefs = some refs) :
    PassInv (advanceWarning refs pass file) file := by
  have hCurrent (hPhase : pass.phase = .applying ∨ pass.phase = .verifying ∨
      pass.phase = .compared ∨ pass.phase = .locked) :
      ∀ f ∈ file, pass.left = some (some f.text) := by
    intro f hFile
    apply h.current f hFile
    obtain hPhase | hPhase | hPhase | hPhase := hPhase <;> simp [Pass.trusts, hPhase, hRefs]
  rw [advanceWarning.eq_def]
  cases hPhase : pass.phase with
  | applying =>
      have hCurrent := hCurrent (by simp [hPhase])
      cases file with
      | none => exact PassInv.of_current hCurrent trivial
      | some f =>
          simp only
          split_ifs
          · exact PassInv.of_current hCurrent trivial
          · exact PassInv.of_current hCurrent trivial
  | verifying =>
      have hCurrent := hCurrent (by simp [hPhase])
      apply compare_inv (fun _ => hCurrent)
      exact fun _ _ => PassInv.of_current hCurrent (by simp [Pass.Based, hRefs])
  | compared =>
      have hCurrent := hCurrent (by simp [hPhase])
      apply compare_inv (fun _ => hCurrent)
      exact fun _ _ => PassInv.of_current hCurrent trivial
  | locked =>
      have hCurrent := hCurrent (by simp [hPhase])
      cases file with
      | none => exact PassInv.of_current hCurrent trivial
      | some f =>
          simp only
          split_ifs
          · exact PassInv.of_current hCurrent trivial
          · exact PassInv.of_current hCurrent (hCurrent f rfl)
  | _ => exact h

theorem advanceFastTrack_inv {pass : Pass} {file : Option FileState} {bootstrapComplete : Bool}
    (h : PassInv pass file) : PassInv (advanceFastTrack bootstrapComplete pass file) file := by
  rw [advanceFastTrack.eq_def]
  cases hPhase : pass.phase with
  | opened =>
      cases file with
      | none => exact PassInv.of_free (by simp)
      | some f =>
          simp only
          split_ifs
          · apply PassInv.of_current
            · rintro f' ⟨⟩
              rfl
            · trivial
          · apply PassInv.of_current
            · rintro f' ⟨⟩
              rfl
            · trivial
          · exact PassInv.of_free (by simp)
  | _ => exact h

section Semantic

variable {pass : Pass} {file : Option FileState} {cognitive : Bool} {rewrite : Str → Option Str}

/-- The phases in which the LLM pass relies on the page as far as its baseline
goes. -/
theorem PassInv.watched (h : PassInv pass file) (hRoute : pass.route = .semantic cognitive rewrite)
    (hPhase : pass.phase = .inferring ∨ pass.phase = .inferred ∨ pass.phase = .applying ∨
      pass.phase = .verifying ∨ pass.phase = .rebased ∨ pass.phase = .compared) :
    ∀ f ∈ file, pass.passes f = true → pass.left = some (some f.text) := by
  intro f hFile hPasses
  apply h.current f hFile
  obtain hPhase | hPhase | hPhase | hPhase | hPhase | hPhase := hPhase <;>
    simp [Pass.trusts, hPhase, hRoute, hPasses, Route.isJourney]

/-- The baseline that an apply takes if it got none. -/
theorem passes_of_rebased {f : FileState} {next : Phase}
    (h : ({ pass with
      baseline := pass.baseline <|> file.map FileState.mtimeNs
      phase := next } : Pass).passes f = true) :
    pass.passes f = true := by
  unfold Pass.passes at h ⊢
  cases hBaseline : pass.baseline with
  | none => rfl
  | some baseline =>
      rw [hBaseline] at h
      exact h

theorem advanceSemantic_inv (h : PassInv pass file)
    (hRoute : pass.route = .semantic cognitive rewrite) (hRefs : pass.malformedRefs = none) :
    PassInv (advanceSemantic cognitive rewrite pass file) file := by
  have hQuarantined : pass.malformedRefs.isSome = true → ∀ f ∈ file,
      pass.left = some (some f.text) := by
    rw [hRefs]
    exact fun hSome => by cases hSome
  rw [advanceSemantic.eq_def]
  cases hPhase : pass.phase with
  | opened => exact PassInv.of_free (by simp)
  | snapshotted =>
      cases cognitive with
      | true => exact PassInv.of_free (by simp)
      | false =>
          apply PassInv.of_current
          · rintro f rfl
            rfl
          · trivial
  | modules =>
      cases file with
      | none => exact PassInv.of_current (fun f hFile => by cases hFile) trivial
      | some f =>
          apply PassInv.of_current
          · rintro f' ⟨⟩
            rfl
          · trivial
  | reread =>
      apply PassInv.of_current
      · exact fun f hFile => h.current f hFile (by simp [Pass.trusts, hPhase])
      · trivial
  | inferring =>
      have hWatched := h.watched hRoute (by simp [hPhase])
      apply compare_inv hQuarantined
      exact fun hPasses _ =>
        PassInv.of_current (fun f hFile => hWatched f hFile (hPasses f hFile)) trivial
  | inferred =>
      have hWatched := h.watched hRoute (by simp [hPhase])
      apply compare_inv hQuarantined
      exact fun hPasses _ =>
        PassInv.of_current (fun f hFile => hWatched f hFile (hPasses f hFile)) trivial
  | applying =>
      have hWatched := h.watched hRoute (by simp [hPhase])
      refine ⟨?_, trivial⟩
      intro f hFile hTrusts
      apply hWatched f hFile
      apply passes_of_rebased
      simpa [Pass.trusts, hRefs, hRoute, Route.isJourney] using hTrusts
  | verifying =>
      have hWatched := h.watched hRoute (by simp [hPhase])
      apply compare_inv hQuarantined
      exact fun hPasses _ =>
        PassInv.of_current (fun f hFile => hWatched f hFile (hPasses f hFile)) trivial
  | locked =>
      cases file with
      | none => exact PassInv.of_current (fun f hFile => by cases hFile) trivial
      | some f =>
          have hTrusted (hEither : pass.passes f = true ∨ isBlank f.text = true) :
              pass.left = some (some f.text) := by
            apply h.current f rfl
            obtain hEither | hEither := hEither <;> simp [Pass.trusts, hPhase, hEither]
          simp only
          cases hBlank : isBlank f.text with
          | true =>
              apply PassInv.of_current
              · rintro f' ⟨⟩
                exact hTrusted (Or.inr hBlank)
              · trivial
          | false =>
              have hPasses (f' : FileState) (hFile : f' ∈ some f)
                  (hTrusts : ({ pass with base := some f.text, phase := .rebased } : Pass).trusts f'
                    = true) : pass.left = some (some f.text) := by
                obtain rfl := Option.some.inj hFile
                apply hTrusted
                left
                simpa [Pass.trusts, hRefs, hRoute, Route.isJourney, Pass.passes] using hTrusts
              refine ⟨?_, fun _ => ⟨?_, ?_⟩⟩
              · rintro f' ⟨⟩ hTrusts
                exact hPasses f rfl hTrusts
              · exact hPasses
              · intro hBaseline
                exact hTrusted (Or.inl (by simp [Pass.passes, show pass.baseline = none from hBaseline]))
  | rebased =>
      have hBased : (∀ f ∈ file, pass.trusts f = true → pass.left = some pass.base) ∧
          (pass.baseline = none → pass.left = some pass.base) := by
        have hBased := h.based
        rw [Pass.Based, hPhase] at hBased
        exact hBased hRefs
      have hTrusted (f : FileState) (hTrusts : ({ pass with
          baseline := pass.baseline <|> file.map FileState.mtimeNs
          phase := .compared } : Pass).trusts f = true) : pass.trusts f = true := by
        have hPasses : pass.passes f = true := by
          apply passes_of_rebased
          simpa [Pass.trusts, hRefs, hRoute, Route.isJourney] using hTrusts
        simp [Pass.trusts, hPhase, hRoute, Route.isJourney, hPasses]
      refine ⟨?_, fun _ => ⟨?_, ?_⟩⟩
      · exact fun f hFile hTrusts => h.current f hFile (hTrusted f hTrusts)
      · exact fun f hFile hTrusts => hBased.1 f hFile (hTrusted f hTrusts)
      · intro hNone
        apply hBased.2
        cases hBaseline : pass.baseline with
        | none => rfl
        | some baseline =>
            simp only [hBaseline] at hNone
            cases hNone
  | compared =>
      have hBased : (∀ f ∈ file, pass.trusts f = true → pass.left = some pass.base) ∧
          (pass.baseline = none → pass.left = some pass.base) := by
        have hBased := h.based
        rw [Pass.Based, hPhase] at hBased
        exact hBased hRefs
      have hWatched := h.watched hRoute (by simp [hPhase])
      cases pass.base.bind rewrite with
      | none => exact PassInv.of_free (by simp)
      | some newText =>
          have hArmed : PassInv (({ pass with newText := newText } : Pass).compare file .armed)
              file := by
            apply compare_inv
            · exact hQuarantined
            · intro hPasses hNone
              refine PassInv.of_current (fun f hFile => hWatched f hFile (hPasses f hFile)) ?_
              cases hFile : file with
              | none => exact hBased.2 (hNone hFile)
              | some f =>
                  apply hBased.1 f hFile
                  have hPass : pass.passes f = true := hPasses f hFile
                  simp [Pass.trusts, hPhase, hRoute, Route.isJourney, hPass]
          exact hArmed
  | _ => exact h

end Semantic

theorem failed_left (pass : Pass) (failure : Failure) : (pass.failed failure).left = pass.left := by
  unfold Pass.failed
  split_ifs
  · rfl
  · rfl
  · rfl
  · split <;> rfl

theorem failed_based (pass : Pass) (failure : Failure) (file : Option FileState) :
    (pass.failed failure).Based file := by
  unfold Pass.failed
  split_ifs
  · trivial
  · trivial
  · trivial
  · split <;> trivial

/-- An exception leaves the pass with nothing that it did not trust before. -/
theorem PassInv.fail {pass : Pass} {file : Option FileState} {failure : Failure}
    (h : PassInv pass file)
    (hTrusts : ∀ f ∈ file, (pass.failed failure).trusts f = true → pass.trusts f = true) :
    PassInv (pass.failed failure) file := by
  refine ⟨?_, failed_based pass failure file⟩
  intro f hFile hFailed
  rw [failed_left]
  exact h.current f hFile (hTrusts f hFile hFailed)

theorem PassInv.retry {pass : Pass} {file : Option FileState} (h : PassInv pass file)
    (hPhase : pass.phase = .committing)
    (hTrusts : ∀ f ∈ file, pass.retried.trusts f = true → pass.trusts f = true) :
    PassInv pass.retried file := by
  have hBased : pass.left = some pass.base := by
    have hBased := h.based
    rw [Pass.Based, hPhase] at hBased
    exact hBased
  unfold Pass.retried at hTrusts ⊢
  split_ifs at hTrusts ⊢
  · exact ⟨fun f hFile hChecked => h.current f hFile (hTrusts f hFile hChecked), hBased⟩
  · exact h

theorem restat_inv {pass : Pass} {file : Option FileState} (h : PassInv pass file)
    (hPhase : pass.phase = .written) : PassInv (pass.restat file) file := by
  have hCurrent : ∀ f ∈ file, pass.left = some (some f.text) :=
    fun f hFile => h.current f hFile (by simp [Pass.trusts, hPhase])
  unfold Pass.restat
  cases file with
  | some f => exact PassInv.of_current hCurrent trivial
  | none =>
      simp only
      split_ifs
      · exact PassInv.of_current (fun f hFile => by cases hFile) trivial
      · exact ⟨fun f hFile => (by cases hFile), failed_based _ _ _⟩

/-- The steps between the first comparison of a write and its end. -/
theorem armed_inv {pass : Pass} {file : Option FileState} {next : Phase} (h : PassInv pass file)
    (hPhase : pass.phase = .armed ∨ pass.phase = .checked)
    (hNext : next = .checked ∨ next = .committing) : PassInv (pass.compare file next) file := by
  have hBased : pass.left = some pass.base := by
    have hBased := h.based
    obtain hPhase | hPhase := hPhase <;>
    · rw [Pass.Based, hPhase] at hBased
      exact hBased
  have hTrusts (f : FileState) (h : ({ pass with phase := next } : Pass).trusts f = true) :
      pass.trusts f = true := by
    obtain hNext | hNext := hNext <;> obtain hPhase | hPhase := hPhase <;>
      simp [Pass.trusts, hNext, hPhase, Pass.passes] at h ⊢ <;> tauto
  apply compare_inv
  · intro hRefs f hFile
    apply h.current f hFile
    obtain hPhase | hPhase := hPhase <;> simp [Pass.trusts, hPhase, hRefs]
  · intro _ _
    refine ⟨fun f hFile hNew => h.current f hFile (hTrusts f hNew), ?_⟩
    obtain hNext | hNext := hNext <;> rw [hNext] <;> exact hBased

theorem advanceRoute_inv {pass : Pass} {file : Option FileState} (h : PassInv pass file)
    (hRefs : pass.malformedRefs = none) : PassInv (advanceRoute pass file) file := by
  rw [advanceRoute.eq_def]
  cases hRoute : pass.route with
  | fastTrack bootstrapComplete =>
      cases pass.phase with
      | idle => cases file <;> exact PassInv.of_free (by simp)
      | _ => exact advanceFastTrack_inv h
  | journal =>
      cases pass.phase with
      | idle => cases file <;> exact PassInv.of_free (by simp)
      | opened =>
          apply PassInv.of_current
          · rintro f rfl
            rfl
          · trivial
      | _ => exact h
  | journey upsert =>
      cases pass.phase with
      | idle =>
          apply PassInv.of_current
          · rintro f rfl
            rfl
          · rfl
      | _ => exact h
  | semantic cognitive rewrite =>
      cases pass.phase with
      | idle => cases file <;> exact PassInv.of_free (by simp)
      | _ => exact advanceSemantic_inv h hRoute hRefs

/-- The block references are checked after a comparison only. -/
theorem preflight_trusts {pass : Pass} {file : Option FileState} (hPhase : pass.phase = .armed)
    (hRefs : pass.malformedRefs = none)
    (hChecked : (pass.compare file .checked).phase = .checked) :
    ∀ f ∈ file, (pass.failed .malformedRef).trusts f = true → pass.trusts f = true := by
  intro f hFile hFailed
  have hPasses : pass.passes f = true := by
    obtain ⟨_, hPasses, _⟩ | hConflict := compare_cases pass file .checked
    · exact hPasses f hFile
    · rw [hConflict, hRefs] at hChecked
      cases hChecked
  cases hRoute : pass.route with
  | journey upsert => simp [Pass.failed, Pass.trusts, hPhase, hRefs, hRoute] at hFailed
  | _ => simp [Pass.trusts, hPhase, hPasses, hRoute, Route.isJourney]

/-- A step of a pass other than its write. -/
theorem advance_inv {pass : Pass} {file : Option FileState} (h : PassInv pass file)
    (hPhase : pass.phase ≠ .committing) : PassInv (advance pass file).1 file := by
  rw [advance.eq_def]
  cases hCase : pass.phase with
  | committing => exact absurd hCase hPhase
  | armed =>
      simp only
      split_ifs with hMalformed
      · obtain ⟨hRefs, _, hChecked⟩ := hMalformed
        exact h.fail (preflight_trusts hCase hRefs hChecked)
      · exact armed_inv h (Or.inl hCase) (Or.inl rfl)
  | checked => exact armed_inv h (Or.inr hCase) (Or.inr rfl)
  | written => exact restat_inv h hCase
  | stated =>
      simp only
      split
      · refine ⟨fun f hFile hTrusts => ?_, trivial⟩
        apply h.current f hFile
        simpa [Pass.trusts, hCase] using hTrusts
      · exact PassInv.of_free (by simp)
  | recorded => exact PassInv.of_free (by simp)
  | done => exact h
  | _ =>
      cases hRefs : pass.malformedRefs with
      | some malformedRefs => exact advanceWarning_inv h hRefs
      | none => exact advanceRoute_inv h hRefs

section Path

variable (pass : Pass) (file : Option FileState)

@[simp] theorem compare_path (next : Phase) : (pass.compare file next).path = pass.path := by
  unfold Pass.compare
  split
  · rfl
  · split_ifs <;> rfl

@[simp] theorem failed_path (failure : Failure) : (pass.failed failure).path = pass.path := by
  unfold Pass.failed
  split_ifs
  · rfl
  · rfl
  · rfl
  · split <;> rfl

@[simp] theorem restat_path : (pass.restat file).path = pass.path := by
  unfold Pass.restat
  cases file with
  | some f => rfl
  | none =>
      simp only
      split_ifs
      · rfl
      · exact failed_path pass .other

@[simp] theorem retried_path : pass.retried.path = pass.path := by
  unfold Pass.retried
  split_ifs <;> rfl

theorem advanceWarning_path (refs : List Str) :
    (advanceWarning refs pass file).path = pass.path := by
  rw [advanceWarning.eq_def]
  split
  · rfl
  · split_ifs <;> rfl
  · exact compare_path _ _ _
  · exact compare_path _ _ _
  · rfl
  · split_ifs <;> rfl
  · rfl

theorem advanceSemantic_path (cognitive : Bool) (rewrite : Str → Option Str) :
    (advanceSemantic cognitive rewrite pass file).path = pass.path := by
  rw [advanceSemantic.eq_def]
  split
  · rfl
  · rfl
  · rfl
  · rfl
  · rfl
  · exact compare_path _ _ _
  · exact compare_path _ _ _
  · rfl
  · exact compare_path _ _ _
  · rfl
  · rfl
  · rfl
  · split
    · rfl
    · exact compare_path _ _ _
  · rfl

theorem advanceRoute_path : (advanceRoute pass file).path = pass.path := by
  rw [advanceRoute.eq_def]
  split
  · rfl
  · rfl
  · rfl
  · rw [advanceFastTrack.eq_def]
    split
    · rfl
    · simp only
      split_ifs <;> rfl
    · rfl
  · rfl
  · exact advanceSemantic_path _ _ _ _
  · rfl

theorem advance_path : (advance pass file).1.path = pass.path := by
  rw [advance.eq_def]
  split
  · split_ifs
    · exact failed_path _ _
    · exact compare_path _ _ _
  · exact compare_path _ _ _
  · rfl
  · exact restat_path _ _
  · rfl
  · rfl
  · rfl
  · split
    · exact advanceWarning_path _ _ _
    · exact advanceRoute_path _ _

/-- Only two steps do more than move the pass on. -/
theorem advance_quiet (hCommitting : pass.phase ≠ .committing) (hStated : pass.phase ≠ .stated) :
    (advance pass file).2 = .quiet := by
  rw [advance.eq_def]
  cases hPhase : pass.phase with
  | committing => exact absurd hPhase hCommitting
  | stated => exact absurd hPhase hStated
  | armed =>
      simp only
      split_ifs <;> rfl
  | checked => rfl
  | written => rfl
  | recorded => rfl
  | done => rfl
  | _ => cases pass.malformedRefs <;> rfl

end Path

/-- A record that settles its page stands for the page, and so does the pass that
is about to record it. -/
structure Inv (s : Daemon) : Prop where
  pass : ∀ pass ∈ s.pass, PassInv pass (s.files pass.path)
  ledger : ∀ path, ∀ record ∈ s.ledger path, ∀ f ∈ s.files path, record.settles f = true →
    record.left = some (some f.text)

/-- A page in a state that its pass does not trust. -/
theorem PassInv.edit {pass : Pass} {old new : Option FileState} (h : PassInv pass old)
    (hTrusts : ∀ f ∈ new, pass.trusts f = false) : PassInv pass new := by
  refine ⟨fun f hFile hTrust => ?_, ?_⟩
  · rw [hTrusts f hFile] at hTrust
    cases hTrust
  · have hBased := h.based
    rw [Pass.Based.eq_def] at hBased ⊢
    cases hPhase : pass.phase with
    | rebased =>
        rw [hPhase] at hBased
        refine fun hRefs => ⟨fun f hFile hTrust => ?_, (hBased hRefs).2⟩
        rw [hTrusts f hFile] at hTrust
        cases hTrust
    | compared =>
        rw [hPhase] at hBased
        refine fun hRefs => ⟨fun f hFile hTrust => ?_, (hBased hRefs).2⟩
        rw [hTrusts f hFile] at hTrust
        cases hTrust
    | armed => simpa only [hPhase] using hBased
    | checked => simpa only [hPhase] using hBased
    | committing => simpa only [hPhase] using hBased
    | _ => trivial

/-- The write of a pass leaves the page as the pass takes it. -/
theorem PassInv.commit {pass : Pass} {old : Option FileState} (h : PassInv pass old)
    (hPhase : pass.phase = .committing) (mtimeNs : Nat) :
    PassInv { pass with
      writes := pass.writes ++ [⟨pass.base, pass.newText⟩]
      phase := .written } (some ⟨pass.newText, mtimeNs⟩) := by
  have hBased : pass.left = some pass.base := by
    have hBased := h.based
    rw [Pass.Based, hPhase] at hBased
    exact hBased
  apply PassInv.of_current
  · rintro f ⟨⟩
    obtain ⟨content, hContent, hLeft⟩ := Option.bind_eq_some_iff.mp hBased
    rw [Pass.left, hContent]
    exact leftBy_append pass.newText hLeft
  · trivial

section Step

variable {s t : Daemon}

theorem Inv.move {next : Pass} (h : Inv s) (hNext : PassInv next (s.files next.path)) :
    Inv { s with pass := some next } where
  pass other hOther := by
    obtain rfl := Option.some.inj hOther
    exact hNext
  ledger := h.ledger

theorem Inv.edit {path : Str} {file : Option FileState} (h : Inv s)
    (hUndisturbed : Undisturbed s (.edit path file)) :
    Inv { s with files := setAt s.files path file } where
  pass pass hPass := by
    by_cases hPath : pass.path = path
    · simp only [hPath, setAt_self]
      apply (h.pass pass hPass).edit
      exact fun f hFile => (hUndisturbed f hFile).2 pass hPass hPath
    · simp only [setAt_ne _ _ hPath]
      exact h.pass pass hPass
  ledger p record hRecord f hFile hSettles := by
    by_cases hPath : p = path
    · simp only [hPath, setAt_self] at hRecord hFile
      rw [(hUndisturbed f hFile).1 record hRecord] at hSettles
      cases hSettles
    · simp only [setAt_ne _ _ hPath] at hFile
      exact h.ledger p record hRecord f hFile hSettles

theorem Inv.replace {pass : Pass} {mtimeNs : Nat} (h : Inv s) (hPass : s.pass = some pass)
    (hPhase : pass.phase = .committing) (hUndisturbed : Undisturbed s (.run mtimeNs)) :
    Inv { s with
      files := setAt s.files pass.path (some ⟨pass.newText, mtimeNs⟩)
      pass := some { pass with
        writes := pass.writes ++ [⟨pass.base, pass.newText⟩]
        phase := .written } } where
  pass other hOther := by
    obtain rfl := Option.some.inj hOther
    simp only [setAt_self]
    exact (h.pass pass hPass).commit hPhase mtimeNs
  ledger p record hRecord f hFile hSettles := by
    by_cases hPath : p = pass.path
    · simp only [hPath, setAt_self] at hRecord hFile
      obtain rfl := Option.some.inj hFile
      rw [hUndisturbed pass hPass hPhase record hRecord] at hSettles
      cases hSettles
    · simp only [setAt_ne _ _ hPath] at hFile
      exact h.ledger p record hRecord f hFile hSettles

theorem Inv.record {pass next : Pass} (h : Inv s) (hPass : s.pass = some pass)
    (hPhase : pass.phase = .stated) (hNext : PassInv next (s.files next.path)) :
    Inv { s with ledger := recordPass s.ledger pass, pass := some next } where
  pass other hOther := by
    obtain rfl := Option.some.inj hOther
    exact hNext
  ledger p record hRecord f hFile hSettles := by
    simp only [recordPass] at hRecord
    split_ifs at hRecord
    · exact h.ledger p record hRecord f hFile hSettles
    · by_cases hPath : p = pass.path
      · simp only [hPath, setAt_self] at hRecord hFile
        obtain rfl := Option.some.inj hRecord
        apply (h.pass pass hPass).current f hFile
        simpa [Pass.trusts, hPhase, Record.settles] using hSettles
      · simp only [setAt_ne _ _ hPath] at hRecord
        exact h.ledger p record hRecord f hFile hSettles

theorem Inv.prune {path : Str} (h : Inv s) :
    Inv { s with ledger := setAt s.ledger path none } where
  pass := h.pass
  ledger p record hRecord f hFile hSettles := by
    by_cases hPath : p = path
    · simp only [hPath, setAt_self] at hRecord
      cases hRecord
    · simp only [setAt_ne _ _ hPath] at hRecord
      exact h.ledger p record hRecord f hFile hSettles

theorem Inv.step {a : Action} (h : Inv s) (hUndisturbed : Undisturbed s a)
    (hStep : step s a = some t) : Inv t := by
  cases a with
  | edit path file =>
      simp only [DaemonCycle.step] at hStep
      split_ifs at hStep
      obtain rfl := Option.some.inj hStep
      exact h.edit hUndisturbed
  | start route path =>
      simp only [DaemonCycle.step] at hStep
      split_ifs at hStep
      obtain rfl := Option.some.inj hStep
      exact h.move (PassInv.of_free (by simp))
  | run mtimeNs =>
      simp only [DaemonCycle.step] at hStep
      cases hPass : s.pass with
      | none =>
          rw [hPass] at hStep
          cases hStep
      | some pass =>
          simp only [hPass] at hStep
          split_ifs at hStep
          · obtain rfl := Option.some.inj hStep
            exact ⟨fun pass hNone => (by cases hNone), h.ledger⟩
          · by_cases hCommitting : pass.phase = .committing
            · have hAdvance : advance pass (s.files pass.path) =
                  ({ pass with
                    writes := pass.writes ++ [⟨pass.base, pass.newText⟩]
                    phase := .written }, .replace) := by
                rw [advance, hCommitting]
              rw [hAdvance] at hStep
              obtain rfl := Option.some.inj hStep
              exact h.replace hPass hCommitting hUndisturbed
            · have hNext : PassInv (advance pass (s.files pass.path)).1
                  (s.files (advance pass (s.files pass.path)).1.path) := by
                rw [advance_path]
                exact advance_inv (h.pass pass hPass) hCommitting
              by_cases hStated : pass.phase = .stated
              · have hEffect : (advance pass (s.files pass.path)).2 = .record := by
                  rw [advance, hStated]
                rw [hEffect] at hStep
                obtain rfl := Option.some.inj hStep
                exact h.record hPass hStated hNext
              · rw [advance_quiet pass _ hCommitting hStated] at hStep
                obtain rfl := Option.some.inj hStep
                exact h.move hNext
  | fail failure =>
      simp only [DaemonCycle.step] at hStep
      cases hPass : s.pass with
      | none =>
          rw [hPass] at hStep
          cases hStep
      | some pass =>
          simp only [hPass] at hStep
          split_ifs at hStep
          obtain rfl := Option.some.inj hStep
          apply h.move
          rw [failed_path]
          exact (h.pass pass hPass).fail (hUndisturbed pass hPass)
  | retry =>
      simp only [DaemonCycle.step] at hStep
      cases hPass : s.pass with
      | none =>
          rw [hPass] at hStep
          cases hStep
      | some pass =>
          simp only [hPass] at hStep
          split_ifs at hStep with hCommitting
          obtain rfl := Option.some.inj hStep
          apply h.move
          rw [retried_path]
          exact (h.pass pass hPass).retry hCommitting (hUndisturbed pass hPass)
  | prune path =>
      obtain rfl := Option.some.inj hStep
      exact h.prune

end Step

section Run

variable {files : Disk} {s : Daemon} {path : Str} {file : FileState}

theorem run_inv (hRun : Transition.Run step Undisturbed (initialDaemon files) s) : Inv s := by
  apply hRun.invariant
  · exact ⟨fun pass hNone => (by cases hNone), fun path record hNone => (by cases hNone)⟩
  · exact fun t a u hInv hUndisturbed hStep => hInv.step hUndisturbed hStep

/-- In a run without disturbing edits a settled record that matches its page
stands for what the page holds. -/
theorem settled_content_read {record : Record}
    (hRun : Transition.Run step Undisturbed (initialDaemon files) s)
    (hRecord : s.ledger path = some record) (hFile : s.files path = some file)
    (hSettled : record.status.settled = true)
    (hMatches : mtimeMatches record.mtime file.mtimeNs = true) :
    record.left = some (some file.text) := by
  apply (run_inv hRun).ledger path record hRecord file hFile
  rw [Record.settles, hSettled, hMatches]
  rfl

/-- What keeps a page with something to do out of the queue is a record of what it
holds, or one of a failure. -/
theorem unqueued_content_read {journal lockBackoffActive : Bool}
    (hRun : Transition.Run step Undisturbed (initialDaemon files) s)
    (hFile : s.files path = some file) (hText : pageIsTerminalSkip file.text = false)
    (hQueue : pageNeedsPhase2Cognitive journal lockBackoffActive (s.ledger path) file = false) :
    ∃ record, s.ledger path = some record ∧
      (record.status.settled = false ∨ record.left = some (some file.text)) := by
  cases hRecord : s.ledger path with
  | none => simp [pageNeedsPhase2Cognitive, hText, hRecord] at hQueue
  | some record =>
      refine ⟨record, rfl, ?_⟩
      cases hSettled : record.status.settled with
      | false => exact Or.inl rfl
      | true =>
          right
          apply (run_inv hRun).ledger path record hRecord file hFile
          rw [Record.settles, hSettled]
          cases hMatches : mtimeMatches record.mtime file.mtimeNs with
          | true => rfl
          | false => simp [pageNeedsPhase2Cognitive, hText, hRecord, hMatches] at hQueue

end Run

section Sample

def sampleJournal : Str := "journals/2024_01_01.md".toList

def sampleFiles : Disk := fun path =>
  if path = sampleJournal then some ⟨"- a\n".toList, 10 ^ 18⟩ else none

def sampleEdit : FileState := ⟨"- a\n- b\n".toList, 2 * 10 ^ 18⟩

/-- The journal is settled with the edit that falls between the first stat and
the read. -/
theorem settled_content_read_journal :
    ∃ s, Transition.Run step Undisturbed (initialDaemon sampleFiles) s ∧
      s.ledger sampleJournal =
        some ⟨2 * 10 ^ 18, .processed, some (some sampleEdit.text), []⟩ ∧
      s.files sampleJournal = some sampleEdit ∧
      leftBy (some sampleEdit.text) [] = some (some sampleEdit.text) := by
  have hExec : (Transition.exec step Undisturbed (initialDaemon sampleFiles)
      [.start .journal sampleJournal, .run 0, .edit sampleJournal (some sampleEdit), .run 0,
        .run 0, .run 0, .run 0]).map (fun s => (s.ledger sampleJournal, s.files sampleJournal)) =
      some (some ⟨2 * 10 ^ 18, .processed, some (some sampleEdit.text), []⟩,
        some sampleEdit) := by
    decide +kernel
  obtain ⟨s, hRun, hEnd⟩ := Option.map_eq_some_iff.mp hExec
  have hRun := Transition.Run.of_exec hRun
  obtain ⟨hRecord, hFile⟩ := Prod.mk.inj hEnd
  exact ⟨s, hRun, hRecord, hFile, settled_content_read hRun hRecord hFile (by decide) (by decide)⟩

/-- The user writes the journal between the read and the second stat, and the
record has the time of the new text. -/
theorem edit_before_stat_is_settled :
    ¬∀ (files : Disk) (s : Daemon), Transition.Run step (fun _ _ => True) (initialDaemon files) s →
      ∀ (path : Str) (record : Record) (file : FileState), s.ledger path = some record →
        s.files path = some file → record.status.settled = true →
          mtimeMatches record.mtime file.mtimeNs = true →
            record.left = some (some file.text) := by
  intro h
  have hExec : (Transition.exec step (fun _ _ => True) (initialDaemon sampleFiles)
      [.start .journal sampleJournal, .run 0, .run 0, .edit sampleJournal (some sampleEdit),
        .run 0, .run 0]).map (fun s => (s.ledger sampleJournal, s.files sampleJournal)) =
      some (some ⟨2 * 10 ^ 18, .processed, some (some "- a\n".toList), []⟩,
        some sampleEdit) := by
    decide +kernel
  obtain ⟨s, hRun, hEnd⟩ := Option.map_eq_some_iff.mp hExec
  obtain ⟨hRecord, hFile⟩ := Prod.mk.inj hEnd
  have hSeen := h sampleFiles s (Transition.Run.of_exec hRun) _ _ _ hRecord hFile (by decide)
    (by decide)
  revert hSeen
  decide

end Sample

end Plumber.DaemonCycle
