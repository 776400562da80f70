import MatrycaPlumber.Graph.Bm25Corpus

/-! The documents of a corpus. Its counters are those of its documents, also after pages
are added and removed, and the rows of a query do not depend on their order. -/
namespace Plumber.Bm25

open PyText PyDict

/-- A page with its tokens. -/
abbrev Doc := Str × List Str

def documentFrequency (docs : List Doc) (token : Str) : Nat :=
  docs.countP fun doc => token ∈ doc.2

/-- A dictionary of counts has no entry for zero. -/
def positive (count : Nat) : Option Nat := if count = 0 then none else some count

theorem increment_positive (count : Nat) : increment (positive count) = positive (count + 1) := by
  cases count with
  | zero => rfl
  | succ count => rfl

theorem decrement_positive (count : Nat) : decrement (positive (count + 1)) = positive count := by
  cases count with
  | zero => rfl
  | succ count => rfl

theorem lookup_foldl_termFreqs (tokens : List Str) (tf : Dict Str Nat) (token : Str) :
    ((tokens.foldl (fun tf token => update tf token (increment (tf.lookup token))) tf).lookup
      token).isSome = true ↔ token ∈ tokens ∨ (tf.lookup token).isSome = true := by
  induction tokens generalizing tf with
  | nil => simp
  | cons first tokens ih =>
      rw [List.foldl_cons, ih, lookup_update]
      by_cases hFirst : token = first
      · simp [hFirst, increment]
      · simp [hFirst]

theorem mem_keys_tokensToTermFreqs (tokens : List Str) (token : Str) :
    token ∈ (tokensToTermFreqs tokens).keys ↔ token ∈ tokens := by
  rw [← AList.mem_keys, ← AList.lookup_isSome, tokensToTermFreqs, lookup_foldl_termFreqs]
  simp

variable {S : Type} (M : Scoring S)

/-- Every counter of the corpus is that of the documents. -/
structure Matches (corpus : Bm25Corpus S) (docs : List Doc) : Prop where
  nodup : (docs.map Prod.fst).Nodup
  rels : corpus.rels = docs.map Prod.fst
  docTermFreqs : corpus.docTermFreqs = docs.map fun doc => tokensToTermFreqs doc.2
  docLens : corpus.docLens = docs.map fun doc => doc.2.length
  df : ∀ token, corpus.df.lookup token = positive (documentFrequency docs token)
  nDocs : corpus.nDocs = docs.length
  avgdl : corpus.avgdl = averageLength M (docs.map fun doc => doc.2.length) docs.length

/-- The query cache is no part of the documents. -/
theorem Matches.clearQueryCache {corpus : Bm25Corpus S} {docs : List Doc}
    (h : Matches M corpus docs) : Matches M (Bm25.clearQueryCache corpus) docs :=
  ⟨h.nodup, h.rels, h.docTermFreqs, h.docLens, h.df, h.nDocs, h.avgdl⟩

variable {M}

theorem Matches.removeBm25Doc {corpus : Bm25Corpus S} {before after : List Doc} {rel : Str}
    {tokens : List Str} (h : Matches M corpus (before ++ (rel, tokens) :: after)) :
    Matches M (Bm25.removeBm25Doc M corpus rel) (before ++ after) := by
  have hRels := h.rels
  have hNodup := h.nodup
  simp only [List.map_append, List.map_cons] at hRels hNodup
  rw [List.nodup_middle, List.nodup_cons, ← List.map_append] at hNodup
  have hNotMem : rel ∉ before.map Prod.fst := by
    intro hMem
    apply hNodup.1
    rw [List.map_append]
    exact List.mem_append_left _ hMem
  have hIdx : corpus.rels.idxOf rel = before.length := by
    rw [hRels, List.idxOf_append_of_notMem hNotMem, List.idxOf_cons_self, List.length_map]
    rfl
  have hMem : rel ∈ corpus.rels := by
    rw [hRels]
    simp
  have hLength : corpus.nDocs - 1 = (before ++ after).length := by
    rw [h.nDocs]
    simp
  have hErase : ∀ {α : Type} (f : Doc → α),
      ((before ++ (rel, tokens) :: after).map f).eraseIdx before.length =
        (before ++ after).map f := by
    intro α f
    rw [List.map_append, List.eraseIdx_append_of_length_le (by simp)]
    simp
  have hTf : corpus.docTermFreqs.getD before.length ∅ = tokensToTermFreqs tokens := by
    rw [h.docTermFreqs]
    simp
  simp only [Bm25.removeBm25Doc, if_pos hMem, hIdx, hTf, hLength]
  refine ⟨hNodup.2, ?_, ?_, ?_, ?_, rfl, ?_⟩
  · rw [h.rels, hErase]
  · rw [h.docTermFreqs, hErase]
  · rw [h.docLens, hErase]
  · intro token
    rw [lookup_alterAll (AList.keys_nodup _), h.df]
    simp only [mem_keys_tokensToTermFreqs, documentFrequency, List.countP_append,
      List.countP_cons, decide_eq_true_eq]
    split_ifs with hToken
    · rw [← Nat.add_assoc, decrement_positive]
    · rfl
  · rw [h.docLens, hErase]

theorem Matches.append {corpus : Bm25Corpus S} {docs : List Doc} (h : Matches M corpus docs)
    {rel : Str} {tokens : List Str} (hNew : rel ∉ docs.map Prod.fst) {next : Bm25Corpus S}
    (hRels : next.rels = corpus.rels ++ [rel])
    (hTermFreqs : next.docTermFreqs = corpus.docTermFreqs ++ [tokensToTermFreqs tokens])
    (hLens : next.docLens = corpus.docLens ++ [tokens.length])
    (hDf : next.df = alterAll (fun _ => increment) (tokensToTermFreqs tokens).keys corpus.df)
    (hDocs : next.nDocs = corpus.nDocs + 1)
    (hAvgdl : next.avgdl = averageLength M next.docLens next.nDocs) :
    Matches M next (docs ++ [(rel, tokens)]) := by
  have hLength : next.nDocs = (docs ++ [(rel, tokens)]).length := by
    rw [hDocs, h.nDocs]
    simp
  have hDocLens : next.docLens = (docs ++ [(rel, tokens)]).map fun doc => doc.2.length := by
    rw [hLens, h.docLens]
    simp
  refine ⟨?_, ?_, ?_, hDocLens, ?_, hLength, ?_⟩
  · rw [List.map_append, List.nodup_append]
    refine ⟨h.nodup, by simp, ?_⟩
    intro a hA b hB hEq
    obtain rfl : b = rel := by simpa using hB
    exact hNew (hEq ▸ hA)
  · rw [hRels, h.rels]
    simp
  · rw [hTermFreqs, h.docTermFreqs]
    simp
  · intro token
    rw [hDf, lookup_alterAll (AList.keys_nodup _), h.df]
    simp only [mem_keys_tokensToTermFreqs, documentFrequency, List.countP_append,
      List.countP_singleton, decide_eq_true_eq]
    split_ifs with hToken
    · rw [increment_positive]
    · rfl
  · rw [hAvgdl, hDocLens, hLength]

/-- The documents of a corpus, as a function of the page. -/
def Holds (M : Scoring S) (corpus : Bm25Corpus S) (table : Str → Option (List Str)) : Prop :=
  ∃ docs, Matches M corpus docs ∧ ∀ rel tokens, (rel, tokens) ∈ docs ↔ table rel = some tokens

theorem Holds.congr {corpus : Bm25Corpus S} {table other : Str → Option (List Str)}
    (h : Holds M corpus table) (hSame : ∀ rel, table rel = other rel) : Holds M corpus other := by
  rwa [← funext hSame]

theorem Holds.clearQueryCache {corpus : Bm25Corpus S} {table : Str → Option (List Str)}
    (h : Holds M corpus table) : Holds M (Bm25.clearQueryCache corpus) table := by
  obtain ⟨docs, hMatches, hDocs⟩ := h
  exact ⟨docs, hMatches.clearQueryCache, hDocs⟩

theorem Holds.removeBm25Doc {corpus : Bm25Corpus S} {table : Str → Option (List Str)}
    (h : Holds M corpus table) (rel : Str) :
    Holds M (Bm25.removeBm25Doc M corpus rel)
      (fun other => if other = rel then none else table other) := by
  obtain ⟨docs, hMatches, hDocs⟩ := h
  by_cases hMem : rel ∈ docs.map Prod.fst
  · obtain ⟨⟨doc, tokens⟩, hDoc, hFst⟩ := List.mem_map.mp hMem
    simp only at hFst
    subst hFst
    obtain ⟨before, after, rfl⟩ := List.append_of_mem hDoc
    refine ⟨before ++ after, hMatches.removeBm25Doc, ?_⟩
    have hNodup := hMatches.nodup
    simp only [List.map_append, List.map_cons] at hNodup
    rw [List.nodup_middle, List.nodup_cons, ← List.map_append] at hNodup
    intro other otherTokens
    show _ ↔ (if other = _ then none else table other) = some otherTokens
    split_ifs with hOther
    · subst hOther
      simp only [iff_false]
      intro hIn
      exact hNodup.1 (List.mem_map_of_mem hIn)
    · rw [← hDocs]
      simp [hOther]
  · have hSame : Bm25.removeBm25Doc M corpus rel = corpus := by
      rw [Bm25.removeBm25Doc, if_neg (by rwa [hMatches.rels])]
    rw [hSame]
    refine ⟨docs, hMatches, ?_⟩
    intro other otherTokens
    show _ ↔ (if other = _ then none else table other) = some otherTokens
    split_ifs with hOther
    · subst hOther
      simp only [iff_false]
      intro hIn
      exact hMem (List.mem_map_of_mem hIn)
    · exact hDocs other otherTokens

/-- A page without tokens is no document. -/
def document (tokens : List Str) : Option (List Str) := if tokens = [] then none else some tokens

theorem Holds.replaceBm25Doc {corpus : Bm25Corpus S} {table : Str → Option (List Str)}
    (h : Holds M corpus table) (rel : Str) (tokens : List Str) :
    Holds M (Bm25.replaceBm25Doc M corpus rel tokens)
      (fun other => if other = rel then document tokens else table other) := by
  have hRemoved := h.removeBm25Doc rel
  rw [Bm25.replaceBm25Doc, document]
  by_cases hTokens : tokens = []
  · simpa only [hTokens, if_true] using hRemoved
  · simp only [if_neg hTokens]
    obtain ⟨docs, hMatches, hDocs⟩ := hRemoved
    have hNew : rel ∉ docs.map Prod.fst := by
      intro hMem
      obtain ⟨⟨doc, docTokens⟩, hDoc, rfl⟩ := List.mem_map.mp hMem
      rw [hDocs] at hDoc
      simp at hDoc
    refine ⟨docs ++ [(rel, tokens)], hMatches.append hNew rfl rfl rfl rfl rfl rfl, ?_⟩
    intro other otherTokens
    rw [List.mem_append, hDocs, List.mem_singleton, Prod.mk.injEq]
    by_cases hOther : other = rel
    · simp [hOther, eq_comm]
    · simp [hOther]

section Build

theorem lookup_countDocuments (docs : List Doc) (token : Str) :
    (countDocuments (docs.map fun doc => tokensToTermFreqs doc.2)).lookup token =
      positive (documentFrequency docs token) := by
  induction docs using List.reverseRecOn with
  | nil => rfl
  | append_singleton docs doc ih =>
      rw [countDocuments] at ih ⊢
      rw [List.map_append, List.foldl_append, List.map_singleton, List.foldl_cons, List.foldl_nil,
        lookup_alterAll (AList.keys_nodup _), ih]
      simp only [mem_keys_tokensToTermFreqs, documentFrequency, List.countP_append,
        List.countP_singleton, decide_eq_true_eq]
      split_ifs with hToken
      · rw [increment_positive]
      · rfl

theorem matches_build {pages : List Doc} (hNodup : (pages.map Prod.fst).Nodup) :
    Matches M (buildBm25Corpus M pages) (pages.filter fun doc => doc.2 ≠ []) where
  nodup := hNodup.sublist (List.filter_sublist.map Prod.fst)
  rels := rfl
  docTermFreqs := rfl
  docLens := rfl
  df token := lookup_countDocuments _ token
  nDocs := rfl
  avgdl := rfl

theorem holds_build {pages : List Doc} (hNodup : (pages.map Prod.fst).Nodup)
    {table : Str → Option (List Str)}
    (hTable : ∀ rel tokens, (rel, tokens) ∈ pages ↔ table rel = some tokens) :
    Holds M (buildBm25Corpus M pages) (fun rel => (table rel).bind document) := by
  refine ⟨_, matches_build hNodup, ?_⟩
  intro rel tokens
  simp only [List.mem_filter, hTable, decide_eq_true_eq, Option.bind_eq_some_iff, document]
  constructor
  · rintro ⟨hLookup, hNe⟩
    exact ⟨tokens, hLookup, if_neg hNe⟩
  · rintro ⟨pageTokens, hLookup, hDocument⟩
    split_ifs at hDocument with hNil
    obtain rfl := Option.some.inj hDocument
    exact ⟨hLookup, hNil⟩

end Build

/-- The documents are determined by the table, up to their order. -/
theorem Matches.perm {corpus other : Bm25Corpus S} {docs otherDocs : List Doc}
    {table : Str → Option (List Str)} (h : Matches M corpus docs)
    (hDocs : ∀ rel tokens, (rel, tokens) ∈ docs ↔ table rel = some tokens)
    (h' : Matches M other otherDocs)
    (hDocs' : ∀ rel tokens, (rel, tokens) ∈ otherDocs ↔ table rel = some tokens) :
    docs.Perm otherDocs := by
  rw [List.perm_ext_iff_of_nodup h.nodup.of_map h'.nodup.of_map]
  intro doc
  rw [hDocs, hDocs']

theorem Holds.nDocs {corpus other : Bm25Corpus S} {table : Str → Option (List Str)}
    (h : Holds M corpus table) (hOther : Holds M other table) : corpus.nDocs = other.nDocs := by
  obtain ⟨docs, hMatches, hDocs⟩ := h
  obtain ⟨otherDocs, hMatches', hDocs'⟩ := hOther
  rw [hMatches.nDocs, hMatches'.nDocs, (hMatches.perm hDocs hMatches' hDocs').length_eq]

/-- The score of a document depends on the counters only. -/
theorem docScore_congr {corpus other : Bm25Corpus S} (hDocs : corpus.nDocs = other.nDocs)
    (hDf : ∀ token, corpus.df.lookup token = other.df.lookup token)
    (hAvgdl : corpus.avgdl = other.avgdl) (key : QueryKey S) :
    docScore M corpus key = docScore M other key := by
  funext tf docLen
  simp only [docScore, hDocs, hDf, hAvgdl]

section Ranking

variable [LinearOrder S]

theorem rowBefore_antisymm {a b : Str × S} (h : rowBefore a b) (h' : rowBefore b a) : a = b := by
  cases h with
  | inl hLt =>
      cases h' with
      | inl hLt' => exact absurd hLt' hLt.not_gt
      | inr hEq => exact absurd hEq.1.symm hLt.ne
  | inr hEq =>
      cases h' with
      | inl hLt => exact absurd hEq.1.symm hLt.ne
      | inr hEq' => exact Prod.ext (le_antisymm hEq.2 hEq'.2) hEq'.1

instance : Std.Total (rowBefore (S := S)) where
  total a b := by
    rcases lt_trichotomy a.2 b.2 with hLt | hEq | hLt
    · exact .inr (.inl hLt)
    · rcases le_total a.1 b.1 with hLe | hLe
      · exact .inl (.inr ⟨hEq.symm, hLe⟩)
      · exact .inr (.inr ⟨hEq, hLe⟩)
    · exact .inl (.inl hLt)

instance : IsTrans (Str × S) rowBefore where
  trans a b c := by
    rintro (hLt | ⟨hEq, hLe⟩) (hLt' | ⟨hEq', hLe'⟩)
    · exact .inl (hLt'.trans hLt)
    · exact .inl (hEq' ▸ hLt)
    · exact .inl (hEq ▸ hLt')
    · exact .inr ⟨hEq'.trans hEq, hLe.trans hLe'⟩

/-- The sorted rows are the same for every order of the rows before. -/
theorem insertionSort_rowBefore {rows other : Rows S} (h : rows.Perm other) :
    rows.insertionSort rowBefore = other.insertionSort rowBefore := by
  apply List.Perm.eq_of_pairwise fun a b _ _ => rowBefore_antisymm
  · exact List.pairwise_insertionSort rowBefore rows
  · exact List.pairwise_insertionSort rowBefore other
  · exact (List.perm_insertionSort rowBefore rows).trans
      (h.trans (List.perm_insertionSort rowBefore other).symm)

theorem Matches.scoredRows {corpus : Bm25Corpus S} {docs : List Doc} (h : Matches M corpus docs)
    (key : QueryKey S) :
    Bm25.scoredRows M corpus key = docs.filterMap fun doc =>
      let score := docScore M corpus key (tokensToTermFreqs doc.2) doc.2.length
      if M.zero < score then some (doc.1, score) else none := by
  rw [Bm25.scoredRows, h.rels, h.docTermFreqs, h.docLens, List.zip_map', List.zip_map',
    List.filterMap_map]
  rfl

/-- Corpora with the same documents have the same rows. -/
theorem Holds.rankedRows {corpus other : Bm25Corpus S} {table : Str → Option (List Str)}
    (h : Holds M corpus table) (hOther : Holds M other table) (key : QueryKey S) :
    Bm25.rankedRows M corpus key = Bm25.rankedRows M other key := by
  obtain ⟨docs, hMatches, hDocs⟩ := h
  obtain ⟨otherDocs, hMatches', hDocs'⟩ := hOther
  have hPerm := hMatches.perm hDocs hMatches' hDocs'
  have hScore : docScore M corpus key = docScore M other key := by
    apply docScore_congr
    · rw [hMatches.nDocs, hMatches'.nDocs, hPerm.length_eq]
    · intro token
      rw [hMatches.df, hMatches'.df, documentFrequency, documentFrequency, hPerm.countP_eq]
    · rw [hMatches.avgdl, hMatches'.avgdl, hPerm.length_eq, averageLength, averageLength,
        (hPerm.map _).sum_eq]
  rw [Bm25.rankedRows, Bm25.rankedRows, hMatches.scoredRows, hMatches'.scoredRows, hScore,
    insertionSort_rowBefore (hPerm.filterMap _)]

end Ranking

end Plumber.Bm25
