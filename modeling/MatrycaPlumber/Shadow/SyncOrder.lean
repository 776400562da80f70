import MatrycaPlumber.Shadow.SyncRuns

/-! When the syncs of the changed pages, in the order in which they come, leave the rows
that a rebuild would write. -/
namespace Plumber.Shadow

open PyText PyDict

variable {V : Vault} {files old new : Files} {rel : Str} {tables : Tables} {todo : List Str}

/-- No block is twice on a page or on two pages. -/
structure UniqueUuids (V : Vault) (files : Files) : Prop where
  nodup : ∀ rel page, V.outline files rel = some page → (page.flat.map BlockRow.blockUuid).Nodup
  apart : ∀ rel other page row, V.outline files rel = some page →
    V.row files other = some row → other ≠ rel → ¬row.owns page.flat

/-- The tables have the pages and blocks of a rebuild. -/
def Reflects (V : Vault) (files : Files) (tables : Tables) : Prop :=
  ∃ built indexed, V.rebuild files = .ok (built, indexed) ∧
    ∀ title, tables.pages.lookup title = built.pages.lookup title

/-- A page whose outline cannot be parsed may be parked. -/
def Parkable (V : Vault) (files : Files) : Prop :=
  ∀ rel file failure, files.lookup rel = some file → V.parse rel file = .error failure →
    V.quarantine = true

/-- What the syncs of the changed paths need in their order. A page that takes over a block
comes after the page whose row has it, if that page is still there and its row has not been
replaced by one of the same title. The last of the pages with one title that is synced is
the one that a rebuild scans last, or else none of them is and the shadow has its row. -/
structure InOrder (V : Vault) (new : Files) (tables : Tables) (todo : List Str) : Prop where
  parkable : Parkable V new
  moved : ∀ before rel after, todo = before ++ rel :: after → ∀ page, V.outline new rel = some page →
    ∀ title owner, tables.pages.lookup title = some owner → owner.filePath ∈ after →
      new.lookup owner.filePath ≠ none → V.lastRow new before title = none →
        ¬owner.owns page.flat
  titles : ∀ title row, V.lastRow new (V.sourcePaths new) title = some row →
    V.lastRow new todo title = some row ∨ (V.lastRow new todo title = none ∧
      ∃ shadowed, tables.pages.lookup title = some shadowed ∧ shadowed.filePath = row.filePath)

section Rebuild

theorem outline_eq_some {page : LogseqPage} :
    V.outline files rel = some page ↔
      ∃ file, files.lookup rel = some file ∧ V.parse rel file = .ok page := by
  rw [Vault.outline, Option.bind_eq_some_iff]
  refine exists_congr fun file => and_congr_right fun _ => ?_
  cases V.parse rel file <;> simp [Except.toOption]

theorem exists_of_row {row : PageRow} (h : V.row files rel = some row) :
    files.lookup rel ≠ none := by
  obtain ⟨file, _, hFile, _, _⟩ := row_eq_some h
  rw [hFile]
  exact Option.some_ne_none file

theorem mem_sourcePaths : rel ∈ V.sourcePaths files ↔ files.lookup rel ≠ none := by
  rw [(V.perm files).mem_iff, ← AList.mem_keys, Ne, AList.lookup_eq_none, not_not]

theorem nodup_sourcePaths (V : Vault) (files : Files) : (V.sourcePaths files).Nodup :=
  (V.perm files).nodup_iff.mpr files.keys_nodup

/-- A row that is told of a page that is there cannot have been dropped. -/
theorem Thinned.eq_of_exists {rows told : Option PageRow} (h : Thinned files rows told)
    (hThere : ∀ row, told = some row → files.lookup row.filePath ≠ none) : rows = told := by
  cases h with
  | inl hSame => exact hSame
  | inr hGone =>
      cases told with
      | none => exact hGone.1
      | some row => exact absurd (hGone.2 row rfl) (hThere row rfl)

theorem lookup_rebuild {built : Tables} {indexed : Nat} (h : V.rebuild files = .ok (built, indexed))
    (title : Str) :
    built.pages.lookup title = V.lastRow files (V.sourcePaths files) title := by
  obtain ⟨-, -, hRows⟩ := syncPages_eq_ok (nodup_sourcePaths V files) filed_empty h
  have hAll : V.rowsAfter files (V.sourcePaths files) (∅ : Dict Str PageRow).lookup title =
      V.lastRow files (V.sourcePaths files) title := by
    rw [Vault.rowsAfter, AList.lookup_empty, Option.filter_none, Option.or_none]
  rw [← hAll]
  apply (hRows title).eq_of_exists
  intro row hRow
  rw [hAll] at hRow
  exact exists_of_row (lastRow_eq_some hRow).2.1

theorem parkable_of_rebuild {result : Tables × Nat} (h : V.rebuild files = .ok result) :
    Parkable V files := by
  intro rel file failure hFile hParse
  have hMem : rel ∈ V.sourcePaths files := by
    rw [mem_sourcePaths, hFile]
    exact Option.some_ne_none file
  obtain ⟨before, after, hSplit⟩ := List.append_of_mem hMem
  have hAccepts := (syncPages_isOk (nodup_sourcePaths V files) filed_empty).mp ⟨result, h⟩
    before rel after hSplit file hFile
  rw [hParse] at hAccepts
  exact hAccepts

/-- With unique blocks, only outlines that cannot be parsed stand in the way of a rebuild. -/
theorem rebuild_isOk (hUnique : UniqueUuids V files) (hParkable : Parkable V files) :
    ∃ result, V.rebuild files = .ok result := by
  apply (syncPages_isOk (nodup_sourcePaths V files) filed_empty).mpr
  intro before rel after _ file hFile
  cases hParse : V.parse rel file with
  | error failure => exact hParkable rel file failure hFile hParse
  | ok page =>
      have hOutline := outline_eq_some.mpr ⟨file, hFile, hParse⟩
      refine ⟨hUnique.nodup rel page hOutline, ?_⟩
      intro title row hRow hPath hOwns
      rw [Vault.rowsAfter, AList.lookup_empty, Option.filter_none, Option.or_none] at hRow
      exact absurd hOwns (hUnique.apart rel row.filePath page row hOutline
        (lastRow_eq_some hRow).2.1 hPath)

theorem Reflects.lookup (h : Reflects V files tables) (title : Str) :
    tables.pages.lookup title = V.lastRow files (V.sourcePaths files) title := by
  obtain ⟨built, indexed, hBuilt, hSame⟩ := h
  rw [hSame, lookup_rebuild hBuilt]

theorem Reflects.filed (h : Reflects V files tables) : Filed tables.pages := by
  intro title row hRow
  rw [h.lookup] at hRow
  exact (lastRow_eq_some hRow).2.2

end Rebuild

/-- Where no other path has a page of the title, the row is that of the one which has. -/
theorem lastRow_of_unique {rels : List Str} {row : PageRow} (hRel : rel ∈ rels)
    (hRow : V.row files rel = some row)
    (hUnique : ∀ other ∈ rels, V.pageTitle other = V.pageTitle rel → other = rel) :
    V.lastRow files rels (V.pageTitle rel) = some row := by
  cases hLast : V.lastRow files rels (V.pageTitle rel) with
  | none => exact absurd (filePath_of_row hRow).2 (lastRow_eq_none.mp hLast rel hRel row hRow)
  | some last =>
      obtain ⟨hMem, hLastRow, hTitle⟩ := lastRow_eq_some hLast
      rw [(filePath_of_row hLastRow).2] at hTitle
      rw [hUnique last.filePath hMem hTitle, hRow] at hLastRow
      exact hLastRow.symm

section Changes

/-- An unchanged file has the row that it had. -/
theorem row_congr (h : old.lookup rel = new.lookup rel) : V.row old rel = V.row new rel := by
  rw [Vault.row, Vault.row, h]

variable (hOld : Reflects V old tables) (hTodo : ∀ rel, rel ∈ todo ↔ old.lookup rel ≠ new.lookup rel)

include hOld hTodo

/-- The shadow's row of an unchanged page is that of the new file. -/
theorem row_of_unchanged {title : Str} {row : PageRow} (hRow : tables.pages.lookup title = some row)
    (hSame : row.filePath ∉ todo) : V.row new row.filePath = some row ∧ row.title = title := by
  rw [hOld.lookup] at hRow
  obtain ⟨_, hBefore, hTitle⟩ := lastRow_eq_some hRow
  rw [hTodo, not_not] at hSame
  exact ⟨(row_congr hSame).symm.trans hBefore, hTitle⟩

/-- After the syncs of all changed pages no row is of a page that is gone. -/
theorem lookup_syncPages {after : Tables} {indexed : Nat} (hNodup : todo.Nodup)
    (h : V.syncPages new todo tables = .ok (after, indexed)) (title : Str) :
    after.pages.lookup title = V.rowsAfter new todo tables.pages.lookup title := by
  obtain ⟨-, -, hRows⟩ := syncPages_eq_ok hNodup hOld.filed h
  apply (hRows title).eq_of_exists
  intro row hRow
  cases Option.or_eq_some_iff.mp hRow with
  | inl hLast => exact exists_of_row (lastRow_eq_some hLast).2.1
  | inr hKept =>
      obtain ⟨hRow, hUntouched⟩ := Option.filter_eq_some_iff.mp hKept.2
      exact exists_of_row (row_of_unchanged hOld hTodo hRow (of_decide_eq_true hUntouched)).1

/-- In order, each page is accepted after those before it. -/
theorem accepts_of_inOrder (hUnique : UniqueUuids V new)
    (h : InOrder V new tables todo) {before after : List Str}
    (hSplit : todo = before ++ rel :: after) :
    V.Accepts new rel (V.rowsAfter new before tables.pages.lookup) := by
  intro file hFile
  cases hParse : V.parse rel file with
  | error failure => exact h.parkable rel file failure hFile hParse
  | ok page =>
      have hOutline := outline_eq_some.mpr ⟨file, hFile, hParse⟩
      refine ⟨hUnique.nodup rel page hOutline, ?_⟩
      intro title row hRow hPath hOwns
      by_contra hThere
      have hApart : V.row new row.filePath ≠ some row := fun hNew =>
        hUnique.apart rel row.filePath page row hOutline hNew hPath hOwns
      cases Option.or_eq_some_iff.mp hRow with
      | inl hLast => exact hApart (lastRow_eq_some hLast).2.1
      | inr hKept =>
          obtain ⟨hShadowed, hBefore⟩ := Option.filter_eq_some_iff.mp hKept.2
          by_cases hChanged : row.filePath ∈ todo
          · have hAfter : row.filePath ∈ after := by
              rw [hSplit] at hChanged
              cases List.mem_append.mp hChanged with
              | inl hIn => exact absurd hIn (of_decide_eq_true hBefore)
              | inr hRest => exact (List.mem_cons.mp hRest).resolve_left hPath
            exact h.moved before rel after hSplit page hOutline title row hShadowed hAfter hThere
              hKept.1 hOwns
          · exact hApart (row_of_unchanged hOld hTodo hShadowed hChanged).1

/-- In order, the row of each title is the one that a rebuild would write. -/
theorem rowsAfter_of_inOrder (h : InOrder V new tables todo) (title : Str) :
    V.rowsAfter new todo tables.pages.lookup title =
      V.lastRow new (V.sourcePaths new) title := by
  cases hBuilt : V.lastRow new (V.sourcePaths new) title with
  | some row =>
      obtain ⟨_, hRow, hTitle⟩ := lastRow_eq_some hBuilt
      cases h.titles title row hBuilt with
      | inl hSynced => rw [Vault.rowsAfter, hSynced, Option.some_or]
      | inr hShadowed =>
          obtain ⟨hNone, shadowed, hLookup, hPath⟩ := hShadowed
          have hUntouched : shadowed.filePath ∉ todo := by
            intro hMem
            rw [hPath] at hMem
            exact lastRow_eq_none.mp hNone row.filePath hMem row hRow hTitle
          have hSame := (row_of_unchanged hOld hTodo hLookup hUntouched).1
          rw [hPath, hRow] at hSame
          rw [Vault.rowsAfter, hNone, Option.none_or, hLookup, Option.filter_some,
            if_pos (by simpa using hUntouched)]
          exact hSame.symm
  | none =>
      have hAbsent := lastRow_eq_none.mp hBuilt
      have hThere : ∀ path row, V.row new path = some row → row.title ≠ title := by
        intro path row hRow
        exact hAbsent path (mem_sourcePaths.mpr (exists_of_row hRow)) row hRow
      have hNone : V.lastRow new todo title = none :=
        lastRow_eq_none.mpr fun path _ row hRow => hThere path row hRow
      rw [Vault.rowsAfter, hNone, Option.none_or, Option.filter_eq_none_iff]
      intro row hLookup hUntouched
      obtain ⟨hRow, hTitle⟩ := row_of_unchanged hOld hTodo hLookup (of_decide_eq_true hUntouched)
      exact hThere row.filePath row hRow hTitle

/-- Syncs that succeed and give the rows of a rebuild were in order. -/
theorem inOrder_of_reflects (hNodup : todo.Nodup) {after : Tables} {indexed : Nat}
    (hSync : V.syncPages new todo tables = .ok (after, indexed)) (hNew : Reflects V new after) :
    InOrder V new tables todo where
  parkable := by
    obtain ⟨built, count, hBuilt, -⟩ := hNew
    exact parkable_of_rebuild hBuilt
  moved := by
    intro before rel rest hSplit page hOutline title owner hOwner hAfter hThere hNone hOwns
    obtain ⟨file, hFile, hParse⟩ := outline_eq_some.mp hOutline
    have hAccepts := (syncPages_isOk hNodup hOld.filed).mp ⟨_, hSync⟩ before rel rest hSplit file
      hFile
    rw [hParse] at hAccepts
    rw [hSplit] at hNodup
    have hBefore : owner.filePath ∉ before := fun hIn =>
      List.disjoint_of_nodup_append hNodup hIn (List.mem_cons_of_mem rel hAfter)
    have hPath : owner.filePath ≠ rel := by
      intro hSame
      rw [hSame] at hAfter
      exact (List.nodup_cons.mp (List.Nodup.of_append_right hNodup)).1 hAfter
    apply hThere
    apply hAccepts.2 title owner _ hPath hOwns
    rw [Vault.rowsAfter, hNone, Option.none_or, hOwner, Option.filter_some,
      if_pos (by simpa using hBefore)]
  titles := by
    intro title row hBuilt
    have hRow : V.rowsAfter new todo tables.pages.lookup title = some row := by
      rw [← lookup_syncPages hOld hTodo hNodup hSync, hNew.lookup, hBuilt]
    cases Option.or_eq_some_iff.mp hRow with
    | inl hLast => exact .inl hLast
    | inr hKept =>
        exact .inr ⟨hKept.1, row, (Option.filter_eq_some_iff.mp hKept.2).1, rfl⟩

/-- The syncs of the changed pages succeed and leave the pages and blocks of a rebuild if
and only if they come in order. -/
theorem reflects_iff_inOrder (hUnique : UniqueUuids V new) (hNodup : todo.Nodup) :
    (∃ after indexed, V.syncPages new todo tables = .ok (after, indexed) ∧
      Reflects V new after) ↔ InOrder V new tables todo := by
  constructor
  · rintro ⟨after, indexed, hSync, hNew⟩
    exact inOrder_of_reflects hOld hTodo hNodup hSync hNew
  · intro hOrder
    obtain ⟨⟨after, indexed⟩, hSync⟩ := (syncPages_isOk hNodup hOld.filed).mpr
      fun _ _ _ hSplit => accepts_of_inOrder hOld hTodo hUnique hOrder hSplit
    obtain ⟨⟨built, count⟩, hBuilt⟩ := rebuild_isOk hUnique hOrder.parkable
    refine ⟨after, indexed, hSync, built, count, hBuilt, ?_⟩
    intro title
    rw [lookup_syncPages hOld hTodo hNodup hSync, rowsAfter_of_inOrder hOld hTodo hOrder,
      lookup_rebuild hBuilt]

end Changes

section Samples

def rosesText : Str := "- roses\n  id:: 11111111-1111-4111-8111-111111111111\n".toList

def rosesBlock : LogseqNode :=
  .mk "11111111-1111-4111-8111-111111111111".toList [] [] 0 "roses".toList
    "\x7b\"id\": \"11111111-1111-4111-8111-111111111111\"\x7d".toList []

/-- A graph of pages that have the one block, or none. -/
def garden : Vault where
  pageTitle rel := (rel.drop 6).rdrop 3
  parse _ file := .ok ⟨"\x7b\x7d".toList, if file.content = rosesText then [rosesBlock] else []⟩
  sourcePaths files := files.keys
  perm _ := List.Perm.refl _
  quarantine := true

def bedsPath : Str := "pages/beds.md".toList

def pathsPath : Str := "pages/paths.md".toList

/-- The block on one of the two pages. -/
def rosesOn (rel : Str) : Files :=
  ((∅ : Files).insert bedsPath ⟨if rel = bedsPath then rosesText else [], 1, 0⟩).insert pathsPath
    ⟨if rel = pathsPath then rosesText else [], 1, 0⟩

theorem lookup_rosesOn (on rel : Str) :
    (rosesOn on).lookup rel =
      if rel = pathsPath then some ⟨if on = pathsPath then rosesText else [], 1, 0⟩
      else if rel = bedsPath then some ⟨if on = bedsPath then rosesText else [], 1, 0⟩
      else none := by
  rw [rosesOn, lookup_insert, lookup_insert, AList.lookup_empty]

theorem flat_garden {file : SourceFile} {page : LogseqPage}
    (h : garden.parse rel file = .ok page) :
    page.flat = if file.content = rosesText then walkBlocks none 0 [rosesBlock] else [] := by
  obtain rfl := Except.ok.inj h
  rw [LogseqPage.flat]
  dsimp only
  split_ifs <;> rfl

theorem eq_of_content {on : Str} {file : SourceFile} (hFile : (rosesOn on).lookup rel = some file)
    (hContent : file.content = rosesText) : rel = on := by
  have hSome : ([] : Str) ≠ rosesText := by decide
  rw [lookup_rosesOn] at hFile
  split_ifs at hFile with hPaths hOn hBeds hOn
  · rw [hPaths, hOn]
  · obtain rfl := Option.some.inj hFile
    exact absurd hContent hSome
  · rw [hBeds, hOn]
  · obtain rfl := Option.some.inj hFile
    exact absurd hContent hSome

theorem content_of_flat {file : SourceFile} {page : LogseqPage}
    (h : garden.parse rel file = .ok page) (hFlat : page.flat ≠ []) : file.content = rosesText := by
  by_contra hOther
  rw [flat_garden h, if_neg hOther] at hFlat
  exact hFlat rfl

theorem uniqueUuids_rosesOn (on : Str) : UniqueUuids garden (rosesOn on) where
  nodup rel page hOutline := by
    obtain ⟨file, _, hParse⟩ := outline_eq_some.mp hOutline
    rw [flat_garden hParse]
    split_ifs
    · decide
    · exact List.nodup_nil
  apart rel other page row hOutline hRow hOther hOwns := by
    obtain ⟨file, hFile, hParse⟩ := outline_eq_some.mp hOutline
    obtain ⟨otherFile, otherPage, hOtherFile, hOtherParse, rfl⟩ := row_eq_some hRow
    obtain ⟨block, hBlock, hUuid⟩ := List.any_eq_true.mp hOwns
    have hFlat : page.flat ≠ [] := by
      intro hNone
      rw [hNone] at hUuid
      cases hUuid
    have hOtherFlat : otherPage.flat ≠ [] := by
      intro hNone
      rw [Vault.rowOf, hNone] at hBlock
      cases hBlock
    apply hOther
    rw [eq_of_content hFile (content_of_flat hParse hFlat),
      eq_of_content hOtherFile (content_of_flat hOtherParse hOtherFlat)]

theorem parkable_garden (files : Files) : Parkable garden files := fun _ _ _ _ _ => rfl

/-- The shadow of the graph while the block is on one of the pages. -/
theorem exists_shadow (on : Str) : ∃ tables, Reflects garden (rosesOn on) tables := by
  obtain ⟨⟨tables, indexed⟩, hBuilt⟩ :=
    rebuild_isOk (uniqueUuids_rosesOn on) (parkable_garden (rosesOn on))
  exact ⟨tables, tables, indexed, hBuilt, fun _ => rfl⟩

/-- The pages between which the block moves are those that change. -/
theorem changed_iff (rel : Str) :
    rel ∈ [bedsPath, pathsPath] ↔
      (rosesOn bedsPath).lookup rel ≠ (rosesOn pathsPath).lookup rel := by
  have hApart : bedsPath ≠ pathsPath := by decide
  have hSome : rosesText ≠ [] := by decide
  rw [lookup_rosesOn, lookup_rosesOn]
  by_cases hPaths : rel = pathsPath
  · simp [hPaths, hApart, hSome.symm]
  · by_cases hBeds : rel = bedsPath
    · simp [hBeds, hApart, hApart.symm, hSome]
    · simp [hPaths, hBeds]

theorem title_inj {rel other : Str} (hRel : rel ∈ [bedsPath, pathsPath])
    (hOther : other ∈ [bedsPath, pathsPath])
    (h : garden.pageTitle other = garden.pageTitle rel) : other = rel := by
  have hApart : garden.pageTitle bedsPath ≠ garden.pageTitle pathsPath := by decide
  simp only [List.mem_cons, List.not_mem_nil, or_false] at hRel hOther
  obtain rfl | rfl := hRel <;> obtain rfl | rfl := hOther
  · rfl
  · exact absurd h.symm hApart
  · exact absurd h hApart
  · rfl

theorem mem_of_exists {on rel : Str} (h : (rosesOn on).lookup rel ≠ none) :
    rel ∈ [bedsPath, pathsPath] := by
  rw [lookup_rosesOn] at h
  simp only [List.mem_cons, List.not_mem_nil, or_false]
  by_contra hNot
  rw [not_or] at hNot
  rw [if_neg hNot.2, if_neg hNot.1] at h
  exact h rfl

/-- The page that gives the block away is synced first. -/
theorem inOrder_beds_paths (tables : Tables) :
    InOrder garden (rosesOn pathsPath) tables [bedsPath, pathsPath] where
  parkable := parkable_garden _
  moved before rel after hSplit page hOutline _ owner _ hAfter _ _ hOwns := by
    obtain ⟨file, hFile, hParse⟩ := outline_eq_some.mp hOutline
    have hFlat : page.flat ≠ [] := by
      intro hNone
      rw [hNone] at hOwns
      simp [PageRow.owns] at hOwns
    have hRel : rel = pathsPath := eq_of_content hFile (content_of_flat hParse hFlat)
    cases before with
    | nil =>
        have hFirst : bedsPath = rel := (List.cons.inj hSplit).1
        rw [hRel] at hFirst
        exact absurd hFirst (by decide)
    | cons first before =>
        have hRest : [pathsPath] = before ++ rel :: after := (List.cons.inj hSplit).2
        have hNone : after = [] := by
          have hLength := congrArg List.length hRest
          simp only [List.length_append, List.length_cons, List.length_nil] at hLength
          exact List.eq_nil_of_length_eq_zero (by omega)
        rw [hNone] at hAfter
        cases hAfter
  titles title row hBuilt := by
    obtain ⟨_, hRow, hTitle⟩ := lastRow_eq_some hBuilt
    left
    rw [← hTitle, (filePath_of_row hRow).2]
    have hMem := mem_of_exists (exists_of_row hRow)
    exact lastRow_of_unique hMem hRow fun other hOther => title_inj hMem hOther

theorem reflects_iff_inOrder_roses : ∃ tables after indexed,
    garden.syncPages (rosesOn pathsPath) [bedsPath, pathsPath] tables = .ok (after, indexed) ∧
      Reflects garden (rosesOn pathsPath) after := by
  obtain ⟨tables, hOld⟩ := exists_shadow bedsPath
  exact ⟨tables, (reflects_iff_inOrder hOld changed_iff (uniqueUuids_rosesOn pathsPath)
    (by decide)).mpr (inOrder_beds_paths tables)⟩

/-- The page that takes the block over cannot be synced first. -/
theorem moved_block_is_refused :
    ¬∀ (V : Vault) (old new : Files) (tables : Tables) (todo : List Str), Reflects V old tables →
      UniqueUuids V new → todo.Nodup → (∀ rel, rel ∈ todo ↔ old.lookup rel ≠ new.lookup rel) →
        ∃ after indexed, V.syncPages new todo tables = .ok (after, indexed) ∧
          Reflects V new after := by
  intro h
  obtain ⟨tables, hOld⟩ := exists_shadow bedsPath
  have hTodo : ∀ rel, rel ∈ [pathsPath, bedsPath] ↔
      (rosesOn bedsPath).lookup rel ≠ (rosesOn pathsPath).lookup rel := by
    intro rel
    rw [← changed_iff]
    simp [or_comm]
  obtain ⟨after, indexed, hSync, hNew⟩ := h garden (rosesOn bedsPath) (rosesOn pathsPath) tables
    [pathsPath, bedsPath] hOld (uniqueUuids_rosesOn pathsPath) (by decide) hTodo
  have hOrder := inOrder_of_reflects hOld hTodo (by decide) hSync hNew
  let page : LogseqPage := ⟨"\x7b\x7d".toList, [rosesBlock]⟩
  let owner := garden.rowOf bedsPath ⟨rosesText, 1, 0⟩ page
  have hRow : garden.row (rosesOn bedsPath) bedsPath = some owner :=
    row_of_parse (by rw [lookup_rosesOn]; rfl) rfl
  have hShadowed : tables.pages.lookup (garden.pageTitle bedsPath) = some owner := by
    rw [hOld.lookup]
    apply lastRow_of_unique (mem_sourcePaths.mpr (exists_of_row hRow)) hRow
    intro other hOther
    exact title_inj List.mem_cons_self (mem_of_exists (mem_sourcePaths.mp hOther))
  have hOutline : garden.outline (rosesOn pathsPath) pathsPath = some page :=
    outline_eq_some.mpr ⟨⟨rosesText, 1, 0⟩, by rw [lookup_rosesOn]; rfl, rfl⟩
  apply hOrder.moved [] pathsPath [bedsPath] rfl page hOutline _ owner hShadowed
  · exact List.mem_singleton.mpr rfl
  · rw [lookup_rosesOn]
    decide
  · rfl
  · decide

end Samples

end Plumber.Shadow
