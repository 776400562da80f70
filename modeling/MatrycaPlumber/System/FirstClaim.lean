import Mathlib.Data.Finset.Max
import Mathlib.Data.Set.Finite.Basic

/-! Ownership by the first claim in a linear order: the owner of a set of claimers is the
label of its least element. -/
namespace FirstClaim

variable {π L : Type*} [LinearOrder π]

theorem exists_isLeast {s : Set π} (hFinite : s.Finite) (h : s.Nonempty) : ∃ p, IsLeast s p := by
  have hFinset : hFinite.toFinset.Nonempty := (Set.Finite.toFinset_nonempty hFinite).mpr h
  refine ⟨hFinite.toFinset.min' hFinset, ?_⟩
  have hLeast := hFinite.toFinset.isLeast_min' hFinset
  rwa [hFinite.coe_toFinset] at hLeast

/-- `owner` is the label of the first claimer, or nothing if there is none. -/
def IsOwner (label : π → L) (claimers : Set π) (owner : Option L) : Prop :=
  ∀ l, owner = some l ↔ ∃ p, IsLeast claimers p ∧ label p = l

variable {label : π → L} {claimers : Set π} {owner other : Option L}

theorem IsOwner.unique (h : IsOwner label claimers owner) (h' : IsOwner label claimers other) :
    owner = other := by
  apply Option.ext
  intro l
  rw [h, h']

theorem isOwner_of_isLeast {p : π} (h : IsLeast claimers p) :
    IsOwner label claimers (some (label p)) := by
  intro l
  rw [Option.some.injEq]
  constructor
  · intro hLabel
    exact ⟨p, h, hLabel⟩
  · rintro ⟨q, hLeast, rfl⟩
    rw [h.unique hLeast]

theorem isOwner_of_forall_notMem (h : ∀ p, p ∉ claimers) : IsOwner label claimers none := by
  intro l
  constructor
  · intro hNone
    cases hNone
  · rintro ⟨p, hLeast, -⟩
    exact absurd hLeast.1 (h p)

theorem IsOwner.eq_of_isLeast (h : IsOwner label claimers owner) {p : π}
    (hLeast : IsLeast claimers p) : owner = some (label p) :=
  (h _).mpr ⟨p, hLeast, rfl⟩

theorem IsOwner.eq_none (h : IsOwner label claimers owner) (hNone : ∀ p, p ∉ claimers) :
    owner = none :=
  h.unique (isOwner_of_forall_notMem hNone)

/-- A new last claimer gets what has no owner yet. -/
theorem IsOwner.append {next : Set π} {p : π} {claims : Prop} [Decidable claims]
    (h : IsOwner label claimers owner) (hFinite : claimers.Finite)
    (hBefore : ∀ q ∈ claimers, q < p) (hOthers : ∀ q, q ≠ p → (q ∈ next ↔ q ∈ claimers))
    (hSelf : p ∈ next ↔ claims) :
    IsOwner label next (owner.or (if claims then some (label p) else none)) := by
  by_cases hSome : claimers.Nonempty
  · obtain ⟨first, hFirst⟩ := exists_isLeast hFinite hSome
    have hLt := hBefore first hFirst.1
    rw [h.eq_of_isLeast hFirst]
    apply isOwner_of_isLeast
    refine ⟨(hOthers first hLt.ne).mpr hFirst.1, ?_⟩
    intro q hQ
    by_cases hEq : q = p
    · exact hEq ▸ hLt.le
    · exact hFirst.2 ((hOthers q hEq).mp hQ)
  · have hNone : ∀ q, q ∉ claimers := fun q hQ => hSome ⟨q, hQ⟩
    rw [h.eq_none hNone, Option.none_or]
    split_ifs with hClaims
    · apply isOwner_of_isLeast
      refine ⟨hSelf.mpr hClaims, ?_⟩
      intro q hQ
      by_cases hEq : q = p
      · exact hEq.ge
      · exact absurd ((hOthers q hEq).mp hQ) (hNone q)
    · apply isOwner_of_forall_notMem
      intro q hQ
      by_cases hEq : q = p
      · exact hClaims (hSelf.mp (hEq ▸ hQ))
      · exact hNone q ((hOthers q hEq).mp hQ)

/-- The owner stays if the first claimer does. -/
theorem IsOwner.restrict {next : Set π} (h : IsOwner label claimers owner)
    (hFinite : claimers.Finite) (hNext : ∀ q, q ∈ next → q ∈ claimers)
    (hFirst : ∀ first, IsLeast claimers first → first ∈ next) : IsOwner label next owner := by
  by_cases hSome : claimers.Nonempty
  · obtain ⟨first, hLeast⟩ := exists_isLeast hFinite hSome
    rw [h.eq_of_isLeast hLeast]
    exact isOwner_of_isLeast ⟨hFirst first hLeast, fun q hQ => hLeast.2 (hNext q hQ)⟩
  · have hNone : ∀ q, q ∉ claimers := fun q hQ => hSome ⟨q, hQ⟩
    rw [h.eq_none hNone]
    exact isOwner_of_forall_notMem fun q hQ => hNone q (hNext q hQ)

/-- Some claimers are gone, and owners without a live label are dropped. -/
theorem IsOwner.keep_live {next : Set π} {live : L → Bool} (h : IsOwner label claimers owner)
    (hFinite : claimers.Finite) (hNext : ∀ q, q ∈ next → q ∈ claimers)
    (hLive : ∀ q ∈ claimers, q ∈ next ↔ live (label q) = true)
    (hGone : ∀ q ∈ claimers, q ∉ next → (∃ r ∈ next, r < q) ∨ ∀ r ∈ next, ¬q < r) :
    IsOwner label next (owner.filter live) := by
  by_cases hSome : claimers.Nonempty
  · obtain ⟨first, hFirst⟩ := exists_isLeast hFinite hSome
    rw [h.eq_of_isLeast hFirst, Option.filter_some]
    by_cases hMem : first ∈ next
    · rw [if_pos ((hLive first hFirst.1).mp hMem)]
      exact isOwner_of_isLeast ⟨hMem, fun q hQ => hFirst.2 (hNext q hQ)⟩
    · rw [if_neg fun hLabel => hMem ((hLive first hFirst.1).mpr hLabel)]
      apply isOwner_of_forall_notMem
      intro q hQ
      have hLe := hFirst.2 (hNext q hQ)
      cases hGone first hFirst.1 hMem with
      | inl hEarlier =>
          obtain ⟨r, hR, hLt⟩ := hEarlier
          exact absurd hLt (hFirst.2 (hNext r hR)).not_gt
      | inr hNoLater => exact hNoLater q hQ (hLe.lt_of_ne fun hEq => hMem (hEq ▸ hQ))
  · have hNone : ∀ q, q ∉ claimers := fun q hQ => hSome ⟨q, hQ⟩
    rw [h.eq_none hNone]
    exact isOwner_of_forall_notMem fun q hQ => hNone q (hNext q hQ)

section Touch

variable [DecidableEq L] {next : Set π} {p : π} {claims : Prop} [Decidable claims]

/-- The owner after `p` gives up what it owns and takes what is free. It is the first
claimer again exactly when `p` claims as before, an earlier one claims, or no later one
does. -/
theorem IsOwner.touch_iff (h : IsOwner label claimers owner) (hFinite : claimers.Finite)
    (hLabel : ∀ q ∈ claimers, q ≠ p → label q ≠ label p)
    (hOthers : ∀ q, q ≠ p → (q ∈ next ↔ q ∈ claimers)) (hSelf : p ∈ next ↔ claims) :
    IsOwner label next ((owner.filter (· ≠ label p)).or
        (if claims then some (label p) else none)) ↔
      (p ∈ claimers ↔ claims) ∨ (∃ q ∈ claimers, q < p) ∨ ∀ q ∈ claimers, ¬p < q := by
  -- an owner that is not `p` stays
  have hStays : ∀ first, IsLeast claimers first → first ≠ p →
      (owner.filter (· ≠ label p)).or (if claims then some (label p) else none) =
        some (label first) := by
    intro first hFirst hNe
    rw [h.eq_of_isLeast hFirst, Option.filter_some,
      if_pos (by simpa using hLabel first hFirst.1 hNe)]
    rfl
  have hGiven : IsLeast claimers p → owner.filter (· ≠ label p) = none := by
    intro hLeast
    rw [h.eq_of_isLeast hLeast]
    simp
  by_cases hEarlier : ∃ q ∈ claimers, q < p
  · obtain ⟨q, hQ, hLt⟩ := hEarlier
    obtain ⟨first, hFirst⟩ := exists_isLeast hFinite ⟨q, hQ⟩
    have hBefore : first < p := (hFirst.2 hQ).trans_lt hLt
    refine ⟨fun _ => .inr (.inl ⟨q, hQ, hLt⟩), fun _ => ?_⟩
    rw [hStays first hFirst hBefore.ne]
    apply isOwner_of_isLeast
    refine ⟨(hOthers first hBefore.ne).mpr hFirst.1, ?_⟩
    intro r hR
    by_cases hEq : r = p
    · exact hEq ▸ hBefore.le
    · exact hFirst.2 ((hOthers r hEq).mp hR)
  have hAfter : ∀ q ∈ claimers, p ≤ q := fun q hQ => not_lt.mp fun hLt => hEarlier ⟨q, hQ, hLt⟩
  have hNextAfter : ∀ q ∈ next, p ≤ q := by
    intro q hQ
    by_cases hEq : q = p
    · exact hEq.ge
    · exact hAfter q ((hOthers q hEq).mp hQ)
  by_cases hBefore : p ∈ claimers
  · by_cases hClaims : claims
    · -- `p` is the first claimer before and after
      refine ⟨fun _ => .inl (by simp [hBefore, hClaims]), fun _ => ?_⟩
      rw [hGiven ⟨hBefore, hAfter⟩, if_pos hClaims]
      exact isOwner_of_isLeast ⟨hSelf.mpr hClaims, hNextAfter⟩
    · -- `p` gives up what it owns
      rw [hGiven ⟨hBefore, hAfter⟩, if_neg hClaims, Option.none_or]
      simp only [hBefore, hClaims, iff_false, not_true_eq_false, hEarlier, false_or]
      constructor
      · intro hOwner q hQ hLt
        obtain ⟨first, hFirst⟩ := exists_isLeast
          (hFinite.subset fun r hR => (hOthers r fun hEq => hClaims (hSelf.mp (hEq ▸ hR))).mp hR)
          ⟨q, (hOthers q hLt.ne').mpr hQ⟩
        cases hOwner.eq_of_isLeast hFirst
      · intro hNoLater
        apply isOwner_of_forall_notMem
        intro q hQ
        have hNe : q ≠ p := fun hEq => hClaims (hSelf.mp (hEq ▸ hQ))
        have hMem := (hOthers q hNe).mp hQ
        exact hNoLater q hMem ((hAfter q hMem).lt_of_ne hNe.symm)
  · by_cases hClaims : claims
    · -- `p` takes up what it did not claim
      have hLeast : IsLeast next p := ⟨hSelf.mpr hClaims, hNextAfter⟩
      simp only [hBefore, hClaims, false_iff, not_true_eq_false, hEarlier, false_or]
      constructor
      · intro hOwner q hQ hLt
        obtain ⟨first, hFirst⟩ := exists_isLeast hFinite ⟨q, hQ⟩
        have hNe : first ≠ p := fun hEq => hBefore (hEq ▸ hFirst.1)
        have hFirstOwner := hStays first hFirst hNe
        rw [if_pos hClaims] at hFirstOwner
        rw [if_pos trivial, hFirstOwner] at hOwner
        exact hLabel first hFirst.1 hNe (Option.some.inj (hOwner.eq_of_isLeast hLeast))
      · intro hNoLater
        have hNone : ∀ q, q ∉ claimers := by
          intro q hQ
          have hNe : q ≠ p := fun hEq => hBefore (hEq ▸ hQ)
          exact hNoLater q hQ ((hAfter q hQ).lt_of_ne hNe.symm)
        rw [h.eq_none hNone]
        simpa using isOwner_of_isLeast hLeast
    · -- nothing changes
      refine ⟨fun _ => .inl (by simp [hBefore, hClaims]), fun _ => ?_⟩
      by_cases hSome : claimers.Nonempty
      · obtain ⟨first, hFirst⟩ := exists_isLeast hFinite hSome
        have hNe : first ≠ p := fun hEq => hBefore (hEq ▸ hFirst.1)
        rw [hStays first hFirst hNe]
        apply isOwner_of_isLeast
        refine ⟨(hOthers first hNe).mpr hFirst.1, ?_⟩
        intro q hQ
        exact hFirst.2 ((hOthers q fun hEq => hClaims (hSelf.mp (hEq ▸ hQ))).mp hQ)
      · have hNone : ∀ q, q ∉ claimers := fun q hQ => hSome ⟨q, hQ⟩
        rw [h.eq_none hNone, if_neg hClaims]
        apply isOwner_of_forall_notMem
        intro q hQ
        exact hNone q ((hOthers q fun hEq => hClaims (hSelf.mp (hEq ▸ hQ))).mp hQ)

end Touch

end FirstClaim
