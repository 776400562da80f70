import MatrycaPlumber.Shadow.PageRows

/-! What the rows are after the syncs of several pages, and when all of them succeed. -/
namespace Plumber.Shadow

open PyText PyDict

variable {V : Vault} {files : Files} {rel : Str} {tables after : Tables}

theorem lookup_deleteWhere (p : PageRow → Bool) (pages : Dict Str PageRow) (title : Str) :
    (deleteWhere p pages).lookup title = (pages.lookup title).filter fun row => !p row :=
  lookup_popAll_keysWhere p pages title

theorem mem_otherOwners {flat : List BlockRow} {pages : Dict Str PageRow} {row : PageRow} :
    row ∈ otherOwners flat rel pages ↔
      (∃ title, pages.lookup title = some row) ∧ row.filePath ≠ rel ∧ row.owns flat := by
  simp [otherOwners, ← AList.mem_lookup_iff]

theorem findDuplicate_eq_none {seen uuids : List Str} :
    findDuplicate seen uuids = none ↔ uuids.Nodup ∧ ∀ uuid ∈ uuids, uuid ∉ seen := by
  induction uuids generalizing seen with
  | nil => simp [findDuplicate]
  | cons uuid uuids ih =>
      rw [findDuplicate]
      split_ifs with hSeen
      · simp [hSeen]
      · rw [ih, List.nodup_cons, List.forall_mem_cons]
        simp only [List.mem_cons, not_or]
        grind

/-- The rows of a title are as told, or there are none, and its page is gone. -/
def Thinned (files : Files) (rows told : Option PageRow) : Prop :=
  rows = told ∨ (rows = none ∧ ∀ row, told = some row → files.lookup row.filePath = none)

namespace Thinned

variable {rows told other : Option PageRow}

theorem trans (h : Thinned files rows told) (hTold : Thinned files told other) :
    Thinned files rows other := by
  cases h with
  | inl hSame => rwa [hSame]
  | inr hGone =>
      cases hTold with
      | inl hSame => exact .inr (hSame ▸ hGone)
      | inr hGoneToo => exact .inr ⟨hGone.1, hGoneToo.2⟩

theorem filter (h : Thinned files rows told) (p : PageRow → Bool) :
    Thinned files (rows.filter p) (told.filter p) := by
  cases h with
  | inl hSame => exact .inl (by rw [hSame])
  | inr hGone =>
      refine .inr ⟨by rw [hGone.1]; rfl, ?_⟩
      intro row hRow
      exact hGone.2 row (Option.filter_eq_some_iff.mp hRow).1

theorem or_left (h : Thinned files rows told) (first : Option PageRow) :
    Thinned files (first.or rows) (first.or told) := by
  cases first with
  | none => exact h
  | some row => exact .inl rfl

/-- The row of a page that is there is as told. -/
theorem eq_some_iff (h : Thinned files rows told) {row : PageRow}
    (hThere : files.lookup row.filePath ≠ none) : rows = some row ↔ told = some row := by
  cases h with
  | inl hSame => rw [hSame]
  | inr hGone =>
      rw [hGone.1]
      constructor
      · intro hNone
        cases hNone
      · intro hTold
        exact absurd (hGone.2 row hTold) hThere

end Thinned

namespace Vault

/-- The row that a sync writes for a file that is there and can be parsed. -/
def row (V : Vault) (files : Files) (rel : Str) : Option PageRow :=
  (files.lookup rel).bind fun file => (V.parse rel file).toOption.map (V.rowOf rel file)

/-- The row of the last path whose page has the title. -/
def lastRow (V : Vault) (files : Files) (rels : List Str) (title : Str) : Option PageRow :=
  rels.reverse.findSome? fun rel => (V.row files rel).filter fun row => row.title = title

/-- The rows after the syncs of some paths: those of the paths, and the rows of others. -/
def rowsAfter (V : Vault) (files : Files) (rels : List Str) (rows : Str → Option PageRow)
    (title : Str) : Option PageRow :=
  (V.lastRow files rels title).or ((rows title).filter fun row => row.filePath ∉ rels)

/-- A page can be synced: its file is gone, or its outline can be parked, or its blocks are
neither twice on it nor on another page that is there. -/
def Accepts (V : Vault) (files : Files) (rel : Str) (rows : Str → Option PageRow) : Prop :=
  ∀ file, files.lookup rel = some file →
    match V.parse rel file with
    | .error _ => V.quarantine = true
    | .ok page => (page.flat.map BlockRow.blockUuid).Nodup ∧
        ∀ title row, rows title = some row → row.filePath ≠ rel → row.owns page.flat →
          files.lookup row.filePath = none

end Vault

theorem row_eq_some {row : PageRow} (h : V.row files rel = some row) :
    ∃ file page, files.lookup rel = some file ∧ V.parse rel file = .ok page ∧
      row = V.rowOf rel file page := by
  obtain ⟨file, hFile, hRow⟩ := Option.bind_eq_some_iff.mp h
  obtain ⟨page, hPage, rfl⟩ := Option.map_eq_some_iff.mp hRow
  refine ⟨file, page, hFile, ?_, rfl⟩
  cases hParse : V.parse rel file with
  | error failure =>
      rw [hParse] at hPage
      cases hPage
  | ok other =>
      rw [hParse] at hPage
      obtain rfl := Option.some.inj hPage
      rfl

theorem row_of_parse {file : SourceFile} {page : LogseqPage} (hFile : files.lookup rel = some file)
    (hParse : V.parse rel file = .ok page) : V.row files rel = some (V.rowOf rel file page) := by
  rw [Vault.row, hFile, Option.bind_some, hParse]
  rfl

theorem filePath_of_row {row : PageRow} (h : V.row files rel = some row) :
    row.filePath = rel ∧ row.title = V.pageTitle rel := by
  obtain ⟨file, page, _, _, rfl⟩ := row_eq_some h
  exact ⟨rfl, rfl⟩

theorem lastRow_cons (rels : List Str) (title : Str) :
    V.lastRow files (rel :: rels) title = (V.lastRow files rels title).or
      ((V.row files rel).filter fun row => row.title = title) := by
  rw [Vault.lastRow, List.reverse_cons, List.findSome?_append]
  congr 1
  rw [List.findSome?_singleton]

theorem lastRow_eq_some {rels : List Str} {title : Str} {row : PageRow}
    (h : V.lastRow files rels title = some row) :
    row.filePath ∈ rels ∧ V.row files row.filePath = some row ∧ row.title = title := by
  obtain ⟨rel, hRel, hRow⟩ := List.exists_of_findSome?_eq_some h
  obtain ⟨hRow, hTitle⟩ := Option.filter_eq_some_iff.mp hRow
  obtain ⟨hPath, _⟩ := filePath_of_row hRow
  rw [hPath]
  exact ⟨List.mem_reverse.mp hRel, hRow, of_decide_eq_true hTitle⟩

theorem lastRow_eq_none {rels : List Str} {title : Str} :
    V.lastRow files rels title = none ↔
      ∀ rel ∈ rels, ∀ row, V.row files rel = some row → row.title ≠ title := by
  simp [Vault.lastRow, List.findSome?_eq_none_iff, Option.filter_eq_none_iff]

section OneSync

variable {flat : List BlockRow} {pages kept : Dict Str PageRow}

/-- Where the check of the block identifiers passes, it drops rows of pages that are gone. -/
theorem preflight_eq_ok (h : preflightBlockUuids files flat rel pages = .ok kept) (title : Str) :
    Thinned files (kept.lookup title) (pages.lookup title) := by
  rw [preflightBlockUuids] at h
  split at h
  · cases h
  · split at h
    · cases h
    · next hAbsent =>
        obtain rfl := Except.ok.inj h
        rw [lookup_deleteWhere]
        cases hRow : pages.lookup title with
        | none => exact .inl rfl
        | some row =>
            by_cases hStale : row.filePath ∈ (otherOwners flat rel pages).map PageRow.filePath
            · obtain ⟨owner, hOwner, hPath⟩ := List.mem_map.mp hStale
              have hGone := List.find?_eq_none.mp hAbsent owner hOwner
              refine .inr ⟨?_, ?_⟩
              · rw [Option.filter_some, if_neg (by simpa using hStale)]
              · intro other hOther
                rw [← Option.some.inj hOther, ← hPath]
                simpa using hGone
            · left
              rw [Option.filter_some, if_pos (by simpa using hStale)]

theorem preflight_isOk :
    (∃ kept, preflightBlockUuids files flat rel pages = .ok kept) ↔
      (flat.map BlockRow.blockUuid).Nodup ∧ ∀ title row, pages.lookup title = some row →
        row.filePath ≠ rel → row.owns flat → files.lookup row.filePath = none := by
  rw [preflightBlockUuids]
  cases hDuplicate : findDuplicate [] (flat.map BlockRow.blockUuid) with
  | some uuid =>
      have hNot : ¬(flat.map BlockRow.blockUuid).Nodup := by
        intro hNodup
        rw [findDuplicate_eq_none.mpr ⟨hNodup, fun _ _ => List.not_mem_nil⟩] at hDuplicate
        cases hDuplicate
      simp only [reduceCtorEq, exists_const, false_iff, not_and]
      exact fun hNodup => absurd hNodup hNot
  | none =>
      have hNodup := (findDuplicate_eq_none.mp hDuplicate).1
      cases hFound : (otherOwners flat rel pages).find? fun row =>
          (files.lookup row.filePath).isSome with
      | some row =>
          obtain ⟨⟨title, hRow⟩, hPath, hOwns⟩ :=
            mem_otherOwners.mp (List.mem_of_find?_eq_some hFound)
          have hThere := List.find?_some hFound
          have hNot : ¬∀ title row, pages.lookup title = some row → row.filePath ≠ rel →
              row.owns flat → files.lookup row.filePath = none := by
            intro hAll
            rw [hAll title row hRow hPath hOwns] at hThere
            cases hThere
          simp only [reduceCtorEq, exists_const, false_iff, not_and]
          exact fun _ => hNot
      | none =>
          have hAll : ∀ title row, pages.lookup title = some row → row.filePath ≠ rel →
              row.owns flat → files.lookup row.filePath = none := by
            intro title row hRow hPath hOwns
            have hGone := List.find?_eq_none.mp hFound row
              (mem_otherOwners.mpr ⟨⟨title, hRow⟩, hPath, hOwns⟩)
            simpa using hGone
          simp only [Except.ok.injEq, exists_eq', true_iff]
          exact ⟨hNodup, hAll⟩

/-- The key of a row is its title. -/
def Filed (pages : Dict Str PageRow) : Prop :=
  ∀ title row, pages.lookup title = some row → row.title = title

theorem filed_empty : Filed ∅ := by
  intro title row h
  rw [AList.lookup_empty] at h
  cases h

theorem Filed.deleteWhere (h : Filed pages) (p : PageRow → Bool) :
    Filed (Shadow.deleteWhere p pages) := by
  intro title row hRow
  rw [lookup_deleteWhere] at hRow
  exact h title row (Option.filter_eq_some_iff.mp hRow).1

theorem syncPage_isOk :
    (∃ after, V.syncPage files rel tables = .ok after) ↔
      V.Accepts files rel tables.pages.lookup := by
  rw [Vault.syncPage, Vault.Accepts]
  cases hFile : files.lookup rel with
  | none => simp
  | some file =>
      cases hParse : V.parse rel file with
      | error failure =>
          cases hQuarantine : V.quarantine <;> simp [hParse]
      | ok page =>
          have hPreflight : (∃ kept, preflightBlockUuids files page.flat rel tables.pages = .ok kept) ↔
              _ := preflight_isOk
          simp only [hParse, Option.some.injEq, forall_eq']
          rw [← hPreflight]
          cases preflightBlockUuids files page.flat rel tables.pages with
          | error error => simp
          | ok kept => simp

/-- The rows after one sync are those of `rowsAfter`, less rows of pages that are gone. -/
theorem syncPage_eq_ok (hFiled : Filed tables.pages) {present : Bool}
    (h : V.syncPage files rel tables = .ok (after, present)) :
    Filed after.pages ∧ present = (V.row files rel).isSome ∧
      ∀ title, Thinned files (after.pages.lookup title)
        (V.rowsAfter files [rel] tables.pages.lookup title) := by
  have hLast : ∀ title, V.lastRow files [rel] title =
      (V.row files rel).filter fun row => row.title = title := by
    intro title
    rw [lastRow_cons]
    rfl
  rw [Vault.syncPage] at h
  cases hFile : files.lookup rel with
  | none =>
      have hRow : V.row files rel = none := by rw [Vault.row, hFile, Option.bind_none]
      simp only [hFile, Except.ok.injEq, Prod.mk.injEq] at h
      obtain ⟨rfl, rfl⟩ := h
      refine ⟨?_, by rw [hRow]; rfl, ?_⟩
      · exact hFiled.deleteWhere _
      · intro title
        left
        rw [lookup_deleteWhere, Vault.rowsAfter, hLast, hRow]
        simp
  | some file =>
      cases hParse : V.parse rel file with
      | error failure =>
          have hRow : V.row files rel = none := by
            rw [Vault.row, hFile, Option.bind_some, hParse]
            rfl
          simp only [hFile, hParse] at h
          split_ifs at h with hQuarantine
          obtain ⟨rfl, rfl⟩ := Prod.mk.inj (Except.ok.inj h)
          refine ⟨?_, by rw [hRow]; rfl, ?_⟩
          · exact hFiled.deleteWhere _
          · intro title
            left
            rw [lookup_deleteWhere, Vault.rowsAfter, hLast, hRow]
            simp
      | ok page =>
          have hRow := row_of_parse hFile hParse
          simp only [hFile, hParse] at h
          split at h
          · cases h
          · next kept hKept =>
              obtain ⟨rfl, rfl⟩ := Prod.mk.inj (Except.ok.inj h)
              have hLookup := preflight_eq_ok hKept
              have hNew : ∀ title, (((Shadow.deleteWhere (fun row => row.filePath = rel ∨
                  row.title = V.pageTitle rel) kept).insert (V.pageTitle rel)
                    (V.rowOf rel file page)).lookup title) =
                  if title = V.pageTitle rel then some (V.rowOf rel file page)
                  else (kept.lookup title).filter fun row =>
                    !decide (row.filePath = rel ∨ row.title = V.pageTitle rel) := by
                intro title
                rw [lookup_insert, lookup_deleteWhere]
              have hFiledKept : Filed kept := by
                intro title row hRow
                cases hLookup title with
                | inl hSame => exact hFiled title row (hSame ▸ hRow)
                | inr hGone =>
                    rw [hGone.1] at hRow
                    cases hRow
              refine ⟨?_, by rw [hRow]; rfl, ?_⟩
              · intro title row hNow
                rw [hNew] at hNow
                split_ifs at hNow with hTitle
                · rw [← Option.some.inj hNow, hTitle]
                  rfl
                · exact hFiledKept title row (Option.filter_eq_some_iff.mp hNow).1
              · intro title
                rw [hNew, Vault.rowsAfter, hLast, hRow, Option.filter_some]
                by_cases hTitle : title = V.pageTitle rel
                · left
                  rw [if_pos hTitle, if_pos (by simp [Vault.rowOf, hTitle]), Option.some_or]
                · rw [if_neg hTitle, if_neg (by simp [Vault.rowOf, Ne.symm hTitle]),
                    Option.none_or]
                  cases hLookup title with
                  | inl hSame =>
                      left
                      rw [hSame]
                      cases hOld : tables.pages.lookup title with
                      | none => rfl
                      | some row =>
                          have hRowTitle : row.title ≠ V.pageTitle rel := by
                            rwa [hFiled title row hOld]
                          simp [Option.filter_some, hRowTitle]
                  | inr hGone =>
                      refine .inr ⟨by rw [hGone.1]; rfl, ?_⟩
                      intro row hOld
                      exact hGone.2 row (Option.filter_eq_some_iff.mp hOld).1

end OneSync

section Runs

variable {rels : List Str} {indexed : Nat}

theorem rowsAfter_nil (rows : Str → Option PageRow) (title : Str) :
    V.rowsAfter files [] rows title = rows title := by
  have hLast : V.lastRow files [] title = none := rfl
  rw [Vault.rowsAfter, hLast, Option.none_or]
  cases rows title <;> rfl

/-- Syncs in a row add up, as long as no page is synced twice. -/
theorem rowsAfter_cons (hNew : rel ∉ rels) (rows : Str → Option PageRow) (title : Str) :
    (V.lastRow files rels title).or
        ((V.rowsAfter files [rel] rows title).filter fun row => row.filePath ∉ rels) =
      V.rowsAfter files (rel :: rels) rows title := by
  have hOne : V.lastRow files [rel] title =
      (V.row files rel).filter fun row => row.title = title := lastRow_cons [] title
  rw [Vault.rowsAfter, Vault.rowsAfter, hOne, lastRow_cons rels, Option.or_assoc]
  congr 1
  cases hRow : (V.row files rel).filter fun row => row.title = title with
  | some row =>
      have hPath : row.filePath = rel :=
        (filePath_of_row (Option.filter_eq_some_iff.mp hRow).1).1
      rw [Option.some_or, Option.some_or, Option.filter_some, if_pos (by simpa [hPath] using hNew)]
  | none =>
      rw [Option.none_or, Option.none_or, Option.filter_filter]
      congr 1
      funext row
      simp

/-- The rows after a run of syncs are those of `rowsAfter`, less rows of pages that are
gone, and as many pages are counted as have an outline. -/
theorem syncPages_eq_ok (hNodup : rels.Nodup) (hFiled : Filed tables.pages)
    (h : V.syncPages files rels tables = .ok (after, indexed)) :
    Filed after.pages ∧ indexed = rels.countP (fun rel => (V.row files rel).isSome) ∧
      ∀ title, Thinned files (after.pages.lookup title)
        (V.rowsAfter files rels tables.pages.lookup title) := by
  induction rels generalizing tables indexed with
  | nil =>
      obtain ⟨rfl, rfl⟩ := Prod.mk.inj (Except.ok.inj h)
      refine ⟨hFiled, rfl, ?_⟩
      intro title
      left
      exact (rowsAfter_nil tables.pages.lookup title).symm
  | cons rel rels ih =>
      rw [Vault.syncPages] at h
      cases hFirst : V.syncPage files rel tables with
      | error error =>
          rw [hFirst] at h
          cases h
      | ok first =>
          obtain ⟨middle, present⟩ := first
          rw [hFirst] at h
          dsimp only at h
          cases hRest : V.syncPages files rels middle with
          | error error =>
              rw [hRest] at h
              cases h
          | ok last =>
              obtain ⟨final, counted⟩ := last
              rw [hRest] at h
              obtain ⟨rfl, rfl⟩ := Prod.mk.inj (Except.ok.inj h)
              have hNew := List.nodup_cons.mp hNodup
              obtain ⟨hMiddle, hPresent, hFirstRows⟩ := syncPage_eq_ok hFiled hFirst
              obtain ⟨hFinal, hCounted, hRestRows⟩ := ih hNew.2 hMiddle hRest
              refine ⟨hFinal, ?_, ?_⟩
              · rw [List.countP_cons, hCounted, hPresent]
                cases (V.row files rel).isSome <;> rfl
              · intro title
                rw [← rowsAfter_cons hNew.1]
                exact (hRestRows title).trans
                  (((hFirstRows title).filter fun row => row.filePath ∉ rels).or_left _)

/-- Rows of pages that are gone do not stand in the way of a sync. -/
theorem accepts_of_thinned {rows told : Str → Option PageRow}
    (h : ∀ title, Thinned files (rows title) (told title)) :
    V.Accepts files rel rows ↔ V.Accepts files rel told := by
  have hRows : ∀ flat : List BlockRow,
      (∀ title row, rows title = some row → row.filePath ≠ rel → row.owns flat →
        files.lookup row.filePath = none) ↔
      ∀ title row, told title = some row → row.filePath ≠ rel → row.owns flat →
        files.lookup row.filePath = none := by
    intro flat
    constructor
    · intro hAll title row hTold hPath hOwns
      by_contra hThere
      exact hThere (hAll title row (((h title).eq_some_iff hThere).mpr hTold) hPath hOwns)
    · intro hAll title row hRow hPath hOwns
      by_contra hThere
      exact hThere (hAll title row (((h title).eq_some_iff hThere).mp hRow) hPath hOwns)
  simp only [Vault.Accepts, hRows]

/-- A run of syncs succeeds if each page is accepted after those before it. -/
theorem syncPages_isOk (hNodup : rels.Nodup) (hFiled : Filed tables.pages) :
    (∃ result, V.syncPages files rels tables = .ok result) ↔
      ∀ before rel after, rels = before ++ rel :: after →
        V.Accepts files rel (V.rowsAfter files before tables.pages.lookup) := by
  induction rels generalizing tables with
  | nil => simp [Vault.syncPages]
  | cons first rels ih =>
      have hNew := List.nodup_cons.mp hNodup
      have hFirst : (∃ after, V.syncPage files first tables = .ok after) ↔
          V.Accepts files first tables.pages.lookup := syncPage_isOk
      have hStart : V.Accepts files first (V.rowsAfter files [] tables.pages.lookup) ↔
          V.Accepts files first tables.pages.lookup := by
        rw [show V.rowsAfter files [] tables.pages.lookup = tables.pages.lookup from
          funext (rowsAfter_nil _)]
      rw [Vault.syncPages]
      cases hSync : V.syncPage files first tables with
      | error error =>
          have hRefused : ¬V.Accepts files first tables.pages.lookup := by
            rw [← hFirst, hSync]
            rintro ⟨_, hOk⟩
            cases hOk
          simp only [reduceCtorEq, exists_false, false_iff]
          intro hAll
          exact hRefused (hStart.mp (hAll [] first rels rfl))
      | ok result =>
          obtain ⟨middle, present⟩ := result
          obtain ⟨hMiddle, -, hRows⟩ := syncPage_eq_ok hFiled hSync
          have hRest : (∃ result, V.syncPages files rels middle = .ok result) ↔
              ∀ before rel after, rels = before ++ rel :: after →
                V.Accepts files rel (V.rowsAfter files (first :: before) tables.pages.lookup) := by
            rw [ih hNew.2 hMiddle]
            refine forall₄_congr fun before rel after hSplit => ?_
            have hBefore : first ∉ before := by
              intro hMem
              apply hNew.1
              rw [hSplit]
              exact List.mem_append_left _ hMem
            apply accepts_of_thinned
            intro title
            rw [← rowsAfter_cons hBefore]
            exact ((hRows title).filter fun row => row.filePath ∉ before).or_left _
          have hOk : (∃ result, (V.syncPages files rels middle).map
              (fun result => (result.1, result.2 + present.toNat)) = .ok result) ↔
              ∃ result, V.syncPages files rels middle = .ok result := by
            cases V.syncPages files rels middle <;> simp [Except.map]
          dsimp only
          rw [hOk, hRest]
          constructor
          · intro hAll before rel after hSplit
            cases before with
            | nil =>
                obtain ⟨rfl, rfl⟩ := List.cons.inj hSplit
                exact hStart.mpr (hFirst.mp ⟨_, hSync⟩)
            | cons other before =>
                obtain ⟨rfl, hTail⟩ := List.cons.inj hSplit
                exact hAll before rel after hTail
          · intro hAll before rel after hSplit
            exact hAll (first :: before) rel after (by rw [hSplit]; rfl)

/-- A sync parks the page if its file is there and has no outline. -/
theorem quarantined_syncPage {present : Bool}
    (h : V.syncPage files rel tables = .ok (after, present)) (other : Str) :
    (after.quarantined.lookup other).isSome =
      if other = rel then (files.lookup rel).isSome && (V.row files rel).isNone
      else (tables.quarantined.lookup other).isSome := by
  rw [Vault.syncPage] at h
  cases hFile : files.lookup rel with
  | none =>
      simp only [hFile, Except.ok.injEq, Prod.mk.injEq] at h
      obtain ⟨rfl, -⟩ := h
      rw [lookup_erase]
      split_ifs <;> rfl
  | some file =>
      cases hParse : V.parse rel file with
      | error failure =>
          have hRow : V.row files rel = none := by
            rw [Vault.row, hFile, Option.bind_some, hParse]
            rfl
          simp only [hFile, hParse] at h
          split_ifs at h with hQuarantine
          obtain ⟨rfl, -⟩ := Prod.mk.inj (Except.ok.inj h)
          rw [recordQuarantined, lookup_insert, hRow]
          split_ifs <;> rfl
      | ok page =>
          have hRow := row_of_parse hFile hParse
          simp only [hFile, hParse] at h
          split at h
          · cases h
          · obtain ⟨rfl, -⟩ := Prod.mk.inj (Except.ok.inj h)
            rw [lookup_erase, hRow]
            split_ifs <;> rfl

theorem quarantined_syncPages (hNodup : rels.Nodup)
    (h : V.syncPages files rels tables = .ok (after, indexed)) (other : Str) :
    (after.quarantined.lookup other).isSome =
      if other ∈ rels then (files.lookup other).isSome && (V.row files other).isNone
      else (tables.quarantined.lookup other).isSome := by
  induction rels generalizing tables indexed with
  | nil =>
      obtain ⟨rfl, rfl⟩ := Prod.mk.inj (Except.ok.inj h)
      rfl
  | cons rel rels ih =>
      rw [Vault.syncPages] at h
      cases hFirst : V.syncPage files rel tables with
      | error error =>
          rw [hFirst] at h
          cases h
      | ok first =>
          obtain ⟨middle, present⟩ := first
          rw [hFirst] at h
          dsimp only at h
          cases hRest : V.syncPages files rels middle with
          | error error =>
              rw [hRest] at h
              cases h
          | ok last =>
              obtain ⟨final, counted⟩ := last
              rw [hRest] at h
              obtain ⟨rfl, rfl⟩ := Prod.mk.inj (Except.ok.inj h)
              have hNew := List.nodup_cons.mp hNodup
              rw [ih hNew.2 hRest, quarantined_syncPage hFirst]
              by_cases hSame : other = rel
              · rw [hSame, if_neg hNew.1, if_pos rfl, if_pos List.mem_cons_self]
              · simp only [List.mem_cons, hSame, false_or, if_false]

end Runs

end Plumber.Shadow
