import MatrycaPlumber.Graph.AliasIndex
import MatrycaPlumber.System.FirstClaim

/-! What an alias index says of the pages it was read from. A key belongs to the first
page that claims it, a title to the first file that has it, and its list of aliases is
that of the last file that has any. -/
namespace Plumber.Alias

open PyText PyDict Generational FirstClaim

/-- What is read of every file: its alias segments, or nothing. -/
abbrev Reading (π : Type) := π → Option (List Str)

section Sets

variable {π : Type} (scan : Scan π)

/-- The keys that a page with these alias segments claims. -/
def keysOf (segments : List Str) : List Str :=
  (segments.map scan.normalizeConceptKey).filter (· ≠ [])

def segmentsAt (reading : Reading π) (path : π) : List Str := (reading path).getD []

def claimers (reading : Reading π) (key : Str) : Set π :=
  {path | key ∈ keysOf scan (segmentsAt reading path)}

def titled (reading : Reading π) (title : Str) : Set π :=
  {path | (reading path).isSome ∧ scan.pageTitle path = title}

def listed (reading : Reading π) (title : Str) : Set π :=
  {path | segmentsAt reading path ≠ [] ∧ scan.pageTitle path = title}

variable {scan}

theorem reading_of_mem_claimers {reading : Reading π} {key : Str} {path : π}
    (h : path ∈ claimers scan reading key) : ∃ segments, reading path = some segments ∧
      segments ≠ [] ∧ key ∈ keysOf scan segments := by
  cases hRead : reading path with
  | none => simp [claimers, segmentsAt, hRead, keysOf] at h
  | some segments =>
      simp only [claimers, segmentsAt, hRead, Option.getD_some, Set.mem_ofPred_eq] at h
      refine ⟨segments, rfl, ?_, h⟩
      rintro rfl
      cases h

theorem claimers_finite {reading : Reading π} (hFinite : {path | reading path ≠ none}.Finite)
    (key : Str) : (claimers scan reading key).Finite := by
  apply hFinite.subset
  intro path hPath
  obtain ⟨segments, hRead, -⟩ := reading_of_mem_claimers hPath
  simp [hRead]

end Sets

section Loops

variable {π : Type} {scan : Scan π}

/-- The keys of a page that have no owner yet are its own after the loop. -/
theorem lookup_claimSegments (title : Str) (segments : List Str) (aliasToPage : Dict Str Str)
    (key : Str) : (segments.foldl (claimSegment scan title) aliasToPage).lookup key =
      (aliasToPage.lookup key).or (if key ∈ keysOf scan segments then some title else none) := by
  induction segments generalizing aliasToPage with
  | nil => simp [keysOf]
  | cons segment segments ih =>
      rw [List.foldl_cons, ih, claimSegment]
      by_cases hNil : scan.normalizeConceptKey segment = []
      · simp [hNil, keysOf]
      · have hKeys : key ∈ keysOf scan (segment :: segments) ↔
            key = scan.normalizeConceptKey segment ∨ key ∈ keysOf scan segments := by
          simp only [keysOf, List.map_cons, List.filter_cons, hNil, decide_not, decide_false,
            Bool.not_false, if_true, List.mem_cons]
        simp only [hNil, if_false, hKeys]
        cases hOwner : aliasToPage.lookup (scan.normalizeConceptKey segment) with
        | some owner =>
            by_cases hKey : key = scan.normalizeConceptKey segment
            · subst hKey
              simp [hOwner]
            · simp [hKey]
        | none =>
            simp only [lookup_insert]
            by_cases hKey : key = scan.normalizeConceptKey segment
            · subst hKey
              simp [hOwner]
            · simp [hKey]

variable {idx : AliasIndex π} (title : Str)

theorem lookup_removed_aliasToPage (key : Str) :
    (removePageFromAliasIndex idx title).aliasToPage.lookup key =
      (idx.aliasToPage.lookup key).filter (· ≠ title) := by
  rw [removePageFromAliasIndex, lookup_popAll_keysWhere]
  simp

theorem lookup_removed_pageToAliases (other : Str) :
    (removePageFromAliasIndex idx title).pageToAliases.lookup other =
      if other = title then none else idx.pageToAliases.lookup other :=
  lookup_erase idx.pageToAliases title other

theorem lookup_removed_pageToRelpath (other : Str) :
    (removePageFromAliasIndex idx title).pageToRelpath.lookup other =
      if other = title then none else idx.pageToRelpath.lookup other :=
  lookup_erase idx.pageToRelpath title other

theorem lookup_indexAliases_pageToAliases (text : Str) (other : Str) :
    (indexAliases scan idx title text).pageToAliases.lookup other =
      if other = title ∧ scan.aliasSegments text ≠ [] then some (scan.aliasSegments text)
      else idx.pageToAliases.lookup other := by
  simp only [indexAliases]
  split_ifs with hNil hBoth hBoth
  · exact absurd hNil hBoth.2
  · rfl
  · rw [lookup_insert, if_pos hBoth.1]
  · have hOther : other ≠ title := fun hEq => hBoth ⟨hEq, hNil⟩
    rw [lookup_insert, if_neg hOther]

end Loops

section Representation

variable {π : Type} [LinearOrder π] (scan : Scan π)

/-- The three maps of an index are those of a reading of the files. -/
structure Represents (idx : AliasIndex π) (reading : Reading π) : Prop where
  owner : ∀ key, IsOwner scan.pageTitle (claimers scan reading key) (idx.aliasToPage.lookup key)
  aliases : ∀ title segments, idx.pageToAliases.lookup title = some segments ↔
    ∃ path, IsGreatest (listed scan reading title) path ∧ segmentsAt reading path = segments
  relpath : ∀ title, IsOwner id (titled scan reading title) (idx.pageToRelpath.lookup title)

/-- The comparison of two indexes, map by map. -/
structure SameIndex (idx other : AliasIndex π) : Prop where
  aliasToPage : ∀ key, idx.aliasToPage.lookup key = other.aliasToPage.lookup key
  pageToAliases : ∀ title, idx.pageToAliases.lookup title = other.pageToAliases.lookup title
  pageToRelpath : ∀ title, idx.pageToRelpath.lookup title = other.pageToRelpath.lookup title

variable {scan}

theorem Represents.congr {idx : AliasIndex π} {reading other : Reading π}
    (h : Represents scan idx reading) (hSame : ∀ path, reading path = other path) :
    Represents scan idx other := by
  rwa [← funext hSame]

/-- The maps are determined by the reading. -/
theorem Represents.sameIndex {idx other : AliasIndex π} {reading : Reading π}
    (h : Represents scan idx reading) (h' : Represents scan other reading) :
    SameIndex idx other where
  aliasToPage key := (h.owner key).unique (h'.owner key)
  pageToAliases title := by
    apply Option.ext
    intro segments
    rw [h.aliases, h'.aliases]
  pageToRelpath title := (h.relpath title).unique (h'.relpath title)

section Update

variable {reading : Reading π} {path : π} {new : Option (List Str)}

theorem mem_claimers_update_of_ne {key : Str} {other : π} (hNe : other ≠ path) :
    other ∈ claimers scan (Function.update reading path new) key ↔
      other ∈ claimers scan reading key := by
  simp [claimers, segmentsAt, hNe]

theorem mem_claimers_update_self {key : Str} :
    path ∈ claimers scan (Function.update reading path new) key ↔
      key ∈ keysOf scan (new.getD []) := by
  simp [claimers, segmentsAt]

theorem mem_titled_update_of_ne {title : Str} {other : π} (hNe : other ≠ path) :
    other ∈ titled scan (Function.update reading path new) title ↔
      other ∈ titled scan reading title := by
  simp [titled, hNe]

theorem mem_titled_update_self {title : Str} :
    path ∈ titled scan (Function.update reading path new) title ↔
      new.isSome = true ∧ scan.pageTitle path = title := by
  simp [titled]

theorem mem_listed_update_of_ne {title : Str} {other : π} (hNe : other ≠ path) :
    other ∈ listed scan (Function.update reading path new) title ↔
      other ∈ listed scan reading title := by
  simp [listed, segmentsAt, hNe]

theorem mem_listed_update_self {title : Str} :
    path ∈ listed scan (Function.update reading path new) title ↔
      new.getD [] ≠ [] ∧ scan.pageTitle path = title := by
  simp [listed, segmentsAt]

/-- The lists of aliases after one file is read: its own if it has any, which is then the
last of its title, and else that of the others. -/
theorem aliases_update {lists next : Str → Option (List Str)} {rest : Option (List Str)}
    (h : ∀ title segments, lists title = some segments ↔
      ∃ last, IsGreatest (listed scan reading title) last ∧ segmentsAt reading last = segments)
    (hRest : ∀ segments, rest = some segments ↔
      ∃ last, IsGreatest {other ∈ listed scan reading (scan.pageTitle path) | other ≠ path} last ∧
        segmentsAt reading last = segments)
    (hBefore : new.getD [] ≠ [] →
      ∀ other ∈ listed scan reading (scan.pageTitle path), other ≠ path → other < path)
    (hNext : ∀ title, next title = if title = scan.pageTitle path then
      if new.getD [] = [] then rest else some (new.getD []) else lists title)
    (title : Str) (segments : List Str) : next title = some segments ↔
      ∃ last, IsGreatest (listed scan (Function.update reading path new) title) last ∧
        segmentsAt (Function.update reading path new) last = segments := by
  have hSegments : ∀ other, other ≠ path →
      segmentsAt (Function.update reading path new) other = segmentsAt reading other := by
    intro other hNe
    simp [segmentsAt, hNe]
  have hOwn : segmentsAt (Function.update reading path new) path = new.getD [] := by
    simp [segmentsAt]
  rw [hNext]
  by_cases hEq : title = scan.pageTitle path
  · subst hEq
    rw [if_pos rfl]
    split_ifs with hNil
    · have hSet : listed scan (Function.update reading path new) (scan.pageTitle path) =
          {other ∈ listed scan reading (scan.pageTitle path) | other ≠ path} := by
        ext other
        by_cases hNe : other = path
        · subst hNe
          simp [mem_listed_update_self, hNil]
        · simp [mem_listed_update_of_ne hNe, hNe]
      rw [hSet, hRest]
      refine exists_congr fun last => and_congr_right fun hGreatest => ?_
      rw [hSegments last hGreatest.1.2]
    · have hGreatest : IsGreatest (listed scan (Function.update reading path new)
          (scan.pageTitle path)) path := by
        refine ⟨mem_listed_update_self.mpr ⟨hNil, rfl⟩, ?_⟩
        intro other hOther
        by_cases hNe : other = path
        · exact hNe.le
        · exact (hBefore hNil other ((mem_listed_update_of_ne hNe).mp hOther) hNe).le
      rw [Option.some.injEq]
      constructor
      · intro hList
        exact ⟨path, hGreatest, hOwn.trans hList⟩
      · rintro ⟨last, hLast, hList⟩
        obtain rfl := hGreatest.unique hLast
        exact hOwn.symm.trans hList
  · rw [if_neg hEq, h]
    have hSet : listed scan (Function.update reading path new) title = listed scan reading title := by
      ext other
      by_cases hNe : other = path
      · subst hNe
        simp [listed, Ne.symm hEq]
      · exact mem_listed_update_of_ne hNe
    rw [hSet]
    refine exists_congr fun last => and_congr_right fun hGreatest => ?_
    have hNe : last ≠ path := by
      rintro rfl
      exact hEq hGreatest.1.2.symm
    rw [hSegments last hNe]

end Update

section Files

/-- What is read of the present files. -/
def reading (scan : Scan π) (files : Files π) : Reading π := fun path =>
  (readText files path).map scan.aliasSegments

theorem reading_finite (files : Files π) : {path | reading scan files path ≠ none}.Finite := by
  apply (List.finite_toSet files.keys).subset
  intro path hPath
  simp only [reading, Set.mem_ofPred_eq, ne_eq, Option.map_eq_none_iff, readText] at hPath
  have hFile : files.lookup path ≠ none := by
    intro hNone
    rw [hNone] at hPath
    exact hPath rfl
  rwa [Ne, AList.lookup_eq_none, not_not, AList.mem_keys] at hFile

section Lookups

variable (files : Files π) (idx : AliasIndex π) (path : π)

theorem lookup_scanFile_aliasToPage (key : Str) :
    (scanFile scan files idx path).aliasToPage.lookup key =
      (idx.aliasToPage.lookup key).or (if key ∈ keysOf scan ((reading scan files path).getD []) then
        some (scan.pageTitle path) else none) := by
  rw [scanFile, reading]
  cases readText files path with
  | none => simp [keysOf]
  | some text => exact lookup_claimSegments _ _ _ _

theorem lookup_scanFile_pageToAliases (title : Str) :
    (scanFile scan files idx path).pageToAliases.lookup title =
      if title = scan.pageTitle path then
        if (reading scan files path).getD [] = [] then
          idx.pageToAliases.lookup (scan.pageTitle path)
        else some ((reading scan files path).getD [])
      else idx.pageToAliases.lookup title := by
  rw [scanFile, reading]
  cases readText files path with
  | none =>
      by_cases hTitle : title = scan.pageTitle path
      · subst hTitle
        simp
      · simp [hTitle]
  | some text =>
      show (indexAliases scan _ _ text).pageToAliases.lookup title = _
      rw [lookup_indexAliases_pageToAliases]
      by_cases hTitle : title = scan.pageTitle path
      · subst hTitle
        by_cases hNil : scan.aliasSegments text = []
        · simp [hNil]
        · simp [hNil]
      · simp [hTitle]

theorem lookup_scanFile_pageToRelpath (title : Str) :
    (scanFile scan files idx path).pageToRelpath.lookup title =
      (idx.pageToRelpath.lookup title).or
        (if (reading scan files path).isSome = true ∧ scan.pageTitle path = title then
          some (id path) else none) := by
  rw [scanFile, reading]
  cases readText files path with
  | none => simp
  | some text =>
      simp only [indexAliases, Option.map_some, Option.isSome_some, true_and]
      cases hOld : idx.pageToRelpath.lookup (scan.pageTitle path) with
      | some first =>
          by_cases hTitle : scan.pageTitle path = title
          · subst hTitle
            simp [hOld]
          · simp [hTitle]
      | none =>
          rw [lookup_insert]
          by_cases hTitle : scan.pageTitle path = title
          · subst hTitle
            simp [hOld]
          · simp [hTitle, Ne.symm hTitle]

end Lookups

/-- The step of the scan: the file comes after all files before it. -/
theorem Represents.scanFile {idx : AliasIndex π} {old : Reading π} {path : π}
    (h : Represents scan idx old) (hFinite : {path | old path ≠ none}.Finite)
    (hLast : ∀ other, old other ≠ none → other < path)
    (files : Files π) :
    Represents scan (Alias.scanFile scan files idx path)
      (Function.update old path (reading scan files path)) where
  owner key := by
    rw [lookup_scanFile_aliasToPage]
    apply (h.owner key).append (claimers_finite hFinite key)
    · intro other hOther
      obtain ⟨segments, hRead, -⟩ := reading_of_mem_claimers hOther
      exact hLast other (by simp [hRead])
    · intro other hNe
      exact mem_claimers_update_of_ne hNe
    · exact mem_claimers_update_self
  aliases := by
    have hListed : ∀ other ∈ listed scan old (scan.pageTitle path), other < path := by
      intro other hOther
      apply hLast other
      intro hNone
      simp [listed, segmentsAt, hNone] at hOther
    apply aliases_update h.aliases
    · intro segments
      have hSet : {other ∈ listed scan old (scan.pageTitle path) | other ≠ path} =
          listed scan old (scan.pageTitle path) :=
        Set.ext fun other => ⟨fun hOther => hOther.1,
          fun hOther => ⟨hOther, (hListed other hOther).ne⟩⟩
      rw [hSet]
      exact h.aliases _ segments
    · exact fun _ other hOther _ => hListed other hOther
    · exact lookup_scanFile_pageToAliases files idx path
  relpath title := by
    rw [lookup_scanFile_pageToRelpath]
    have hTitled : (titled scan old title).Finite :=
      hFinite.subset fun other hOther => Option.isSome_iff_ne_none.mp hOther.1
    apply (h.relpath title).append hTitled
    · intro other hOther
      exact hLast other (Option.isSome_iff_ne_none.mp hOther.1)
    · intro other hNe
      exact mem_titled_update_of_ne hNe
    · exact mem_titled_update_self

theorem represents_empty : Represents scan ({} : AliasIndex π) (fun _ => none) where
  owner key := isOwner_of_forall_notMem fun path hPath => by
    simp [claimers, segmentsAt, keysOf] at hPath
  aliases title segments := by
    simp [listed, segmentsAt, IsGreatest]
  relpath title := isOwner_of_forall_notMem fun path hPath => by
    simp [titled] at hPath

/-- A build is a reading of all files, one after the other. -/
theorem represents_build (files : Files π) :
    Represents scan (buildAliasIndex scan files) (reading scan files) := by
  have hPrefix : ∀ paths : List π, paths.Pairwise (· < ·) →
      Represents scan (paths.foldl (Alias.scanFile scan files) {})
        (fun path => if path ∈ paths then reading scan files path else none) := by
    intro paths hSorted
    induction paths using List.reverseRecOn with
    | nil => simpa using represents_empty
    | append_singleton paths last ih =>
        rw [List.pairwise_append] at hSorted
        have hBefore : ∀ path ∈ paths, path < last :=
          fun path hPath => hSorted.2.2 path hPath last (by simp)
        have hNotMem : last ∉ paths := fun hMem => lt_irrefl last (hBefore last hMem)
        have hReads : ∀ other, (if other ∈ paths then reading scan files other else none) ≠ none →
            other ∈ paths := by
          intro other hRead
          by_contra hMem
          exact hRead (if_neg hMem)
        have hStep := (ih hSorted.1).scanFile ((List.finite_toSet paths).subset hReads)
          (fun other hRead => hBefore other (hReads other hRead)) files
        rw [List.foldl_append]
        apply hStep.congr
        intro path
        by_cases hLast : path = last
        · subst hLast
          simp
        · simp [hLast]
  apply (hPrefix _ (pairwise_sorted_keys files)).congr
  intro path
  split_ifs with hMem
  · rfl
  · rw [List.mem_insertionSort, ← AList.mem_keys, ← AList.lookup_eq_none] at hMem
    rw [reading, readText, hMem]
    rfl

end Files

end Representation

end Plumber.Alias
