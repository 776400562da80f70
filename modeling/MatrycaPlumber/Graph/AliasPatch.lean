import MatrycaPlumber.Graph.AliasOwnership

/-! Patches of an alias index. The patch of a page gives up all that its title owns and
takes what is free, so it is a rebuild where no later page waits for a key that is given
up, and no key is taken from an earlier one. -/
namespace Plumber.Alias

open PyText PyDict Generational FirstClaim

variable {π : Type} (scan : Scan π)

/-- The maps after the patch of one page. -/
structure Patched (idx next : AliasIndex π) (path : π) (new : Option (List Str)) : Prop where
  aliasToPage : ∀ key, next.aliasToPage.lookup key =
    ((idx.aliasToPage.lookup key).filter (· ≠ scan.pageTitle path)).or
      (if key ∈ keysOf scan (new.getD []) then some (scan.pageTitle path) else none)
  pageToAliases : ∀ title, next.pageToAliases.lookup title =
    if title = scan.pageTitle path then if new.getD [] = [] then none else some (new.getD [])
    else idx.pageToAliases.lookup title
  pageToRelpath : ∀ title, next.pageToRelpath.lookup title =
    if title = scan.pageTitle path then if new.isSome then some path else none
    else idx.pageToRelpath.lookup title

variable {scan}

theorem patched_remove (idx : AliasIndex π) (path : π) :
    Patched scan idx (removePageFromAliasIndex idx (scan.pageTitle path)) path none where
  aliasToPage key := by
    rw [lookup_removed_aliasToPage]
    simp [keysOf]
  pageToAliases title := by simp [lookup_removed_pageToAliases]
  pageToRelpath title := by simp [lookup_removed_pageToRelpath]

/-- Removals of several titles, one after the other. -/
theorem removePages_lookups (titles : List Str) (idx : AliasIndex π) :
    (∀ key, (titles.foldl removePageFromAliasIndex idx).aliasToPage.lookup key =
      (idx.aliasToPage.lookup key).filter (· ∉ titles)) ∧
    (∀ title, (titles.foldl removePageFromAliasIndex idx).pageToAliases.lookup title =
      if title ∈ titles then none else idx.pageToAliases.lookup title) ∧
    ∀ title, (titles.foldl removePageFromAliasIndex idx).pageToRelpath.lookup title =
      if title ∈ titles then none else idx.pageToRelpath.lookup title := by
  induction titles generalizing idx with
  | nil =>
      refine ⟨fun key => ?_, fun title => by simp, fun title => by simp⟩
      rw [List.foldl_nil]
      cases idx.aliasToPage.lookup key with
      | none => rfl
      | some owner => simp [Option.filter]
  | cons first titles ih =>
      have hRest := ih (removePageFromAliasIndex idx first)
      refine ⟨fun key => ?_, fun title => ?_, fun title => ?_⟩
      · rw [List.foldl_cons, hRest.1, lookup_removed_aliasToPage]
        cases idx.aliasToPage.lookup key with
        | none => rfl
        | some owner =>
            by_cases hFirst : owner = first
            · simp [Option.filter, hFirst]
            · simp [Option.filter, hFirst]
      · rw [List.foldl_cons, hRest.2.1, lookup_removed_pageToAliases]
        by_cases hFirst : title = first
        · simp [hFirst]
        · simp [hFirst]
      · rw [List.foldl_cons, hRest.2.2, lookup_removed_pageToRelpath]
        by_cases hFirst : title = first
        · simp [hFirst]
        · simp [hFirst]

theorem mem_staleTitles {idx : AliasIndex π} {liveTitles : List Str} {title : Str} :
    title ∈ idx.pageToRelpath.keys.filter (· ∉ liveTitles) ↔
      (idx.pageToRelpath.lookup title).isSome ∧ title ∉ liveTitles := by
  rw [List.mem_filter, ← AList.mem_keys, AList.lookup_isSome, decide_eq_true_eq]

theorem lookup_purge_aliasToPage (idx : AliasIndex π) (liveTitles : List Str) (key : Str) :
    (purgeStaleAliasEntries idx liveTitles).aliasToPage.lookup key =
      (idx.aliasToPage.lookup key).filter (· ∈ liveTitles) := by
  rw [purgeStaleAliasEntries, lookup_popAll_keysWhere, (removePages_lookups _ idx).1]
  cases idx.aliasToPage.lookup key with
  | none => rfl
  | some owner =>
      by_cases hLive : owner ∈ liveTitles
      · simp [Option.filter, hLive]
      · by_cases hStale : owner ∈ idx.pageToRelpath.keys
        · simp [Option.filter, hLive, hStale]
        · simp [Option.filter, hLive, hStale]

variable [LinearOrder π] (scan)

/-- Where a title is shared, the touched page comes first of its files and the others
have no aliases. -/
def TitleKept (old : Reading π) (path : π) (new : Option (List Str)) : Prop :=
  ∀ other segments, other ≠ path → old other = some segments →
    scan.pageTitle other = scan.pageTitle path → segments = [] ∧ path < other ∧ new ≠ none

/-- A key that a page takes up or gives up is claimed by an earlier page, or by no later
one. -/
def KeyKept (claims : Set π) (path : π) : Prop :=
  (∃ other ∈ claims, other < path) ∨ ∀ other ∈ claims, ¬path < other

/-- Where the patch of one page is a rebuild. -/
structure PathKept (old : Reading π) (path : π) (new : Option (List Str)) : Prop where
  title : TitleKept scan old path new
  keys : ∀ key, ¬(path ∈ claimers scan old key ↔ key ∈ keysOf scan (new.getD [])) →
    KeyKept (claimers scan old key) path

variable {scan}

theorem patched_patchPath (files : Files π) (idx : AliasIndex π) (path : π) :
    Patched scan idx (patchPath scan files idx path) path (reading scan files path) := by
  have hRemoved : Patched scan idx (removePageFromAliasIndex idx (scan.pageTitle path)) path none :=
    patched_remove idx path
  rw [patchPath, indexAliasesFromFile, reading]
  cases hText : readText files path with
  | none =>
      rw [ite_self]
      exact hRemoved
  | some text =>
      have hFile : (files.lookup path).isSome = true := by
        obtain ⟨file, hFile, -⟩ := Option.bind_eq_some_iff.mp hText
        rw [hFile]
        rfl
      rw [if_pos hFile]
      constructor
      · intro key
        show (indexAliases scan _ _ text).aliasToPage.lookup key = _
        rw [indexAliases, lookup_claimSegments, lookup_removed_aliasToPage]
        rfl
      · intro title
        show (indexAliases scan _ _ text).pageToAliases.lookup title = _
        rw [lookup_indexAliases_pageToAliases, lookup_removed_pageToAliases]
        by_cases hTitle : title = scan.pageTitle path
        · by_cases hNil : scan.aliasSegments text = []
          · simp [hTitle, hNil]
          · simp [hTitle, hNil]
        · simp [hTitle]
      · intro title
        show (AList.insert _ _ _ : Dict Str π).lookup title = _
        rw [lookup_insert, lookup_removed_pageToRelpath]
        by_cases hTitle : title = scan.pageTitle path
        · simp [hTitle]
        · simp [hTitle]

section Patch

variable {idx next : AliasIndex π} {old : Reading π} {path : π} {new : Option (List Str)}

/-- A page that shares neither its title nor a key with another one is always kept. -/
theorem pathKept_of_unshared
    (hTitle : ∀ other, other ≠ path → old other ≠ none → scan.pageTitle other ≠ scan.pageTitle path)
    (hKeys : ∀ key other, other ≠ path → other ∈ claimers scan old key →
      path ∉ claimers scan old key ∧ key ∉ keysOf scan (new.getD [])) :
    PathKept scan old path new where
  title other segments hNe hRead hShared :=
    absurd hShared (hTitle other hNe (by simp [hRead]))
  keys key hChange := by
    right
    intro other hClaims hLt
    have hFree := hKeys key other hLt.ne' hClaims
    exact hChange ⟨fun hMem => absurd hMem hFree.1, fun hMem => absurd hMem hFree.2⟩

/-- Another page of the touched title claims nothing. -/
theorem TitleKept.ne_of_claims (h : TitleKept scan old path new) {key : Str} {other : π}
    (hClaims : other ∈ claimers scan old key) (hNe : other ≠ path) :
    scan.pageTitle other ≠ scan.pageTitle path := by
  obtain ⟨segments, hRead, hSegments, -⟩ := reading_of_mem_claimers hClaims
  intro hTitle
  exact hSegments (h other segments hNe hRead hTitle).1

theorem TitleKept.eq_of_listed (h : TitleKept scan old path new) {other : π}
    (hOther : other ∈ listed scan old (scan.pageTitle path)) : other = path := by
  by_contra hNe
  cases hRead : old other with
  | none => simp [listed, segmentsAt, hRead] at hOther
  | some segments =>
      have hNil := (h other segments hNe hRead hOther.2).1
      simp [listed, segmentsAt, hRead, hNil] at hOther

/-- Where the titles are kept, the owner of a key is again the first page that claims it
exactly when the key is kept or the page claims it as before. -/
theorem Patched.owner_iff (hPatched : Patched scan idx next path new)
    (h : Represents scan idx old) (hFinite : {path | old path ≠ none}.Finite)
    (hTitle : TitleKept scan old path new) (key : Str) :
    IsOwner scan.pageTitle (claimers scan (Function.update old path new) key)
        (next.aliasToPage.lookup key) ↔
      (path ∈ claimers scan old key ↔ key ∈ keysOf scan (new.getD [])) ∨
        KeyKept (claimers scan old key) path := by
  rw [hPatched.aliasToPage]
  exact (h.owner key).touch_iff (claimers_finite hFinite key)
    (fun other hClaims hNe => hTitle.ne_of_claims hClaims hNe)
    (fun other hNe => mem_claimers_update_of_ne hNe) mem_claimers_update_self

theorem Represents.patched (h : Represents scan idx old)
    (hFinite : {path | old path ≠ none}.Finite) (hKept : PathKept scan old path new)
    (hPatched : Patched scan idx next path new) :
    Represents scan next (Function.update old path new) where
  owner key := by
    rw [hPatched.owner_iff h hFinite hKept.title]
    by_cases hSame : path ∈ claimers scan old key ↔ key ∈ keysOf scan (new.getD [])
    · exact .inl hSame
    · exact .inr (hKept.keys key hSame)
  aliases := by
    apply aliases_update h.aliases
    · intro segments
      constructor
      · intro hNone
        exact absurd hNone (Option.some_ne_none segments).symm
      · rintro ⟨last, hGreatest, -⟩
        exact absurd (hKept.title.eq_of_listed hGreatest.1.1) hGreatest.1.2
    · intro _ other hOther hNe
      exact absurd (hKept.title.eq_of_listed hOther) hNe
    · exact hPatched.pageToAliases
  relpath title := by
    rw [hPatched.pageToRelpath]
    have hOthers : ∀ other, other ≠ path → (other ∈ titled scan (Function.update old path new) title ↔
        other ∈ titled scan old title) := fun other hNe => mem_titled_update_of_ne hNe
    have hShared : title = scan.pageTitle path → ∀ other ∈ titled scan old title, other ≠ path →
        path < other ∧ new ≠ none := by
      intro hEq other hOther hNe
      obtain ⟨segments, hRead⟩ := Option.isSome_iff_exists.mp hOther.1
      exact (hKept.title other segments hNe hRead (hOther.2.trans hEq)).2
    by_cases hEq : title = scan.pageTitle path
    · rw [if_pos hEq]
      cases hNew : new with
      | none =>
          apply isOwner_of_forall_notMem
          intro other hOther
          rw [← hNew] at hOther
          by_cases hNe : other = path
          · subst hNe
            rw [mem_titled_update_self, hNew] at hOther
            exact absurd hOther.1 Bool.false_ne_true
          · exact (hShared hEq other ((hOthers other hNe).mp hOther) hNe).2 hNew
      | some segments =>
          rw [← hNew]
          have hLeast : IsLeast (titled scan (Function.update old path new) title) path := by
            refine ⟨mem_titled_update_self.mpr ⟨by rw [hNew]; rfl, hEq.symm⟩, ?_⟩
            intro other hOther
            by_cases hNe : other = path
            · exact hNe.ge
            · exact (hShared hEq other ((hOthers other hNe).mp hOther) hNe).1.le
          have hSome : new.isSome = true := by rw [hNew]; rfl
          rw [if_pos hSome]
          exact isOwner_of_isLeast hLeast
    · rw [if_neg hEq]
      have hSet : titled scan (Function.update old path new) title = titled scan old title := by
        ext other
        by_cases hNe : other = path
        · subst hNe
          simp [titled, Ne.symm hEq]
        · exact hOthers other hNe
      rw [hSet]
      exact h.relpath title

end Patch

section Collection

/-- Where a purge is a rebuild: what is there was seen with the same aliases, and a page
that is gone leaves no title and no key behind that a later page has. -/
structure GcKept (scan : Scan π) (old new : Reading π) (liveTitles : List Str) : Prop where
  seen : ∀ path segments, new path = some segments → old path = some segments
  titles : ∀ path segments, old path = some segments → new path = none →
    scan.pageTitle path ∈ liveTitles → segments = [] ∧
      ∃ other, new other ≠ none ∧ other < path ∧ scan.pageTitle other = scan.pageTitle path
  keys : ∀ path key, path ∈ claimers scan old key → path ∉ claimers scan new key →
    KeyKept (claimers scan new key) path

variable {idx : AliasIndex π} {old new : Reading π} {liveTitles : List Str}

/-- A page that is gone and whose title is still there claims nothing. -/
theorem GcKept.mem_claimers (h : GcKept scan old new liveTitles)
    (hLive : ∀ path, new path ≠ none → scan.pageTitle path ∈ liveTitles) {key : Str} {path : π}
    (hClaims : path ∈ claimers scan old key) :
    path ∈ claimers scan new key ↔ scan.pageTitle path ∈ liveTitles := by
  obtain ⟨segments, hRead, hSegments, hKey⟩ := reading_of_mem_claimers hClaims
  constructor
  · intro hMem
    obtain ⟨newSegments, hNew, -⟩ := reading_of_mem_claimers hMem
    exact hLive path (by simp [hNew])
  · intro hTitle
    cases hNew : new path with
    | none => exact absurd (h.titles path segments hRead hNew hTitle).1 hSegments
    | some newSegments =>
        obtain rfl := Option.some.inj (hRead.symm.trans (h.seen path newSegments hNew))
        simpa [claimers, segmentsAt, hNew] using hKey

theorem GcKept.mem_of_new (h : GcKept scan old new liveTitles) {key : Str} {path : π}
    (hClaims : path ∈ claimers scan new key) : path ∈ claimers scan old key := by
  obtain ⟨segments, hNew, -, hKey⟩ := reading_of_mem_claimers hClaims
  simpa [claimers, segmentsAt, h.seen path segments hNew] using hKey

/-- The lists of aliases of a live title are those of its present files. -/
theorem GcKept.listed_eq (h : GcKept scan old new liveTitles) {title : Str}
    (hTitle : title ∈ liveTitles) :
    listed scan new title = listed scan old title ∧
      ∀ path ∈ listed scan old title, segmentsAt new path = segmentsAt old path := by
  have hSame : ∀ path ∈ listed scan old title, segmentsAt new path = segmentsAt old path := by
    rintro path ⟨hSegments, rfl⟩
    cases hRead : old path with
    | none => simp [segmentsAt, hRead] at hSegments
    | some segments =>
        cases hNew : new path with
        | none =>
            have hNil := (h.titles path segments hRead hNew hTitle).1
            simp [segmentsAt, hRead, hNil] at hSegments
        | some newSegments =>
            obtain rfl := Option.some.inj (hRead.symm.trans (h.seen path newSegments hNew))
            simp [segmentsAt, hRead, hNew]
  refine ⟨?_, hSame⟩
  ext path
  constructor
  · rintro ⟨hSegments, hPath⟩
    cases hNew : new path with
    | none => simp [segmentsAt, hNew] at hSegments
    | some segments =>
        refine ⟨?_, hPath⟩
        simpa [segmentsAt, hNew, h.seen path segments hNew] using hSegments
  · intro hPath
    exact ⟨(hSame path hPath).symm ▸ hPath.1, hPath.2⟩

theorem Represents.purge (h : Represents scan idx old) (hFinite : {path | old path ≠ none}.Finite)
    (hLive : ∀ path, new path ≠ none → scan.pageTitle path ∈ liveTitles)
    (hKept : GcKept scan old new liveTitles) :
    Represents scan (purgeStaleAliasEntries idx liveTitles) new where
  owner key := by
    rw [lookup_purge_aliasToPage]
    apply (h.owner key).keep_live (claimers_finite hFinite key)
    · exact fun path hClaims => hKept.mem_of_new hClaims
    · intro path hClaims
      rw [hKept.mem_claimers hLive hClaims, decide_eq_true_eq]
    · exact fun path hClaims hGone => hKept.keys path key hClaims hGone
  aliases title segments := by
    have hLookup : (purgeStaleAliasEntries idx liveTitles).pageToAliases.lookup title =
        if title ∈ liveTitles then idx.pageToAliases.lookup title else none := by
      show ((idx.pageToRelpath.keys.filter (· ∉ liveTitles)).foldl removePageFromAliasIndex
        idx).pageToAliases.lookup title = _
      rw [(removePages_lookups _ idx).2.1]
      by_cases hTitle : title ∈ liveTitles
      · rw [if_pos hTitle, if_neg fun hStale => (mem_staleTitles.mp hStale).2 hTitle]
      · rw [if_neg hTitle]
        split_ifs with hStale
        · rfl
        · -- a title without a path has no list of aliases
          by_contra hSome
          obtain ⟨list, hList⟩ := Option.ne_none_iff_exists'.mp hSome
          obtain ⟨last, hGreatest, -⟩ := (h.aliases title list).mp hList
          have hTitled : last ∈ titled scan old title := by
            refine ⟨?_, hGreatest.1.2⟩
            cases hRead : old last with
            | none =>
                have hSegments := hGreatest.1.1
                simp [segmentsAt, hRead] at hSegments
            | some segments => rfl
          obtain ⟨first, hFirst⟩ := exists_isLeast
            (hFinite.subset fun path (hPath : path ∈ titled scan old title) =>
              Option.isSome_iff_ne_none.mp hPath.1) ⟨last, hTitled⟩
          apply hStale
          rw [mem_staleTitles, (h.relpath title).eq_of_isLeast hFirst]
          exact ⟨rfl, hTitle⟩
    rw [hLookup]
    split_ifs with hTitle
    · have hSame := hKept.listed_eq hTitle
      rw [h.aliases, hSame.1]
      refine exists_congr fun last => and_congr_right fun hGreatest => ?_
      rw [hSame.2 last hGreatest.1]
    · constructor
      · intro hNone
        cases hNone
      · rintro ⟨last, hGreatest, -⟩
        apply absurd (hLive last _) (hGreatest.1.2 ▸ hTitle)
        intro hNone
        have hSegments := hGreatest.1.1
        simp [segmentsAt, hNone] at hSegments
  relpath title := by
    have hTitled : (titled scan old title).Finite :=
      hFinite.subset fun path hPath => Option.isSome_iff_ne_none.mp hPath.1
    show IsOwner _ _ (((idx.pageToRelpath.keys.filter (· ∉ liveTitles)).foldl
      removePageFromAliasIndex idx).pageToRelpath.lookup title)
    rw [(removePages_lookups _ idx).2.2]
    by_cases hTitle : title ∈ liveTitles
    · rw [if_neg fun hStale => (mem_staleTitles.mp hStale).2 hTitle]
      apply (h.relpath title).restrict hTitled
      · rintro path ⟨hSome, hPath⟩
        obtain ⟨segments, hNew⟩ := Option.isSome_iff_exists.mp hSome
        exact ⟨by rw [hKept.seen path segments hNew]; rfl, hPath⟩
      · intro first hFirst
        obtain ⟨segments, hRead⟩ := Option.isSome_iff_exists.mp hFirst.1.1
        refine ⟨?_, hFirst.1.2⟩
        cases hNew : new first with
        | some newSegments => rfl
        | none =>
            have hGone := hKept.titles first segments hRead hNew (hFirst.1.2 ▸ hTitle)
            obtain ⟨-, other, hOther, hLt, hOtherTitle⟩ := hGone
            obtain ⟨otherSegments, hOther⟩ := Option.ne_none_iff_exists'.mp hOther
            have hMem : other ∈ titled scan old title := by
              refine ⟨?_, hOtherTitle.trans hFirst.1.2⟩
              rw [hKept.seen other otherSegments hOther]
              rfl
            exact absurd hLt (hFirst.2 hMem).not_gt
    · have hGone : (if title ∈ idx.pageToRelpath.keys.filter (· ∉ liveTitles) then none
          else idx.pageToRelpath.lookup title) = none := by
        split_ifs with hStale
        · rfl
        · by_contra hSome
          exact hStale (mem_staleTitles.mpr ⟨Option.isSome_iff_ne_none.mpr hSome, hTitle⟩)
      rw [hGone]
      apply isOwner_of_forall_notMem
      rintro path ⟨hSome, rfl⟩
      exact hTitle (hLive path (Option.isSome_iff_ne_none.mp hSome))

end Collection

end Plumber.Alias
