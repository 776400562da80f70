import Mathlib.Data.Char
import Mathlib.Data.List.Lex
import Mathlib.Data.List.Sort
import MatrycaPlumber.System.Dict
import MatrycaPlumber.System.OrderedCache
import MatrycaPlumber.Text.Basic

/-! The BM25 corpus: one bag of terms per page, the document frequencies, and the
results of the last queries. A page is added or removed without a rebuild. -/
namespace Plumber.Bm25

open PyText PyDict

/-- The arithmetic of the scores is left open. `mean` is the quotient of the summed
lengths and their number, and `term` what one term of the query adds. -/
structure Scoring (S : Type) where
  zero : S
  one : S
  add : S → S → S
  mean : Nat → Nat → S
  term : (nDocs documentFrequency freq docLen : Nat) → (avgdl k1 b : S) → S

abbrev Rows (S : Type) := List (Str × S)

structure QueryKey (S : Type) where
  tokens : List Str
  capped : Nat
  k1 : S
  b : S
  deriving DecidableEq

/-- `query_cache_result_rows` and `query_cache_evictions` are kept in the cache. -/
structure Bm25Corpus (S : Type) where
  rels : List Str
  docTermFreqs : List (Dict Str Nat)
  docLens : List Nat
  df : Dict Str Nat
  nDocs : Nat
  avgdl : S
  queryCache : OrderedCache (QueryKey S) (Rows S) := {}
  queryCacheHits : Nat := 0
  queryCacheMisses : Nat := 0
  queryCacheInvalidations : Nat := 0

def queryCacheMaxEntries : Nat := 8192

def queryCacheMaxResultRows : Nat := 65536

/-- `d[token] = d.get(token, 0) + 1`. -/
def increment (count : Option Nat) : Option Nat := some (count.getD 0 + 1)

/-- A count that falls to zero is taken out. -/
def decrement (count : Option Nat) : Option Nat :=
  if count.getD 0 - 1 = 0 then none else some (count.getD 0 - 1)

def tokensToTermFreqs (tokens : List Str) : Dict Str Nat :=
  tokens.foldl (fun tf token => update tf token (increment (tf.lookup token))) ∅

variable {S : Type} (M : Scoring S)

def averageLength (docLens : List Nat) (nDocs : Nat) : S :=
  if nDocs = 0 then M.one else M.mean docLens.sum nDocs

def removeBm25Doc (corpus : Bm25Corpus S) (rel : Str) : Bm25Corpus S :=
  if rel ∈ corpus.rels then
    let idx := corpus.rels.idxOf rel
    let oldTf := corpus.docTermFreqs.getD idx ∅
    let docLens := corpus.docLens.eraseIdx idx
    { corpus with
      df := alterAll (fun _ => decrement) oldTf.keys corpus.df
      rels := corpus.rels.eraseIdx idx
      docTermFreqs := corpus.docTermFreqs.eraseIdx idx
      docLens := docLens
      nDocs := corpus.nDocs - 1
      avgdl := averageLength M docLens (corpus.nDocs - 1) }
  else corpus

def replaceBm25Doc (corpus : Bm25Corpus S) (rel : Str) (tokens : List Str) : Bm25Corpus S :=
  let corpus := removeBm25Doc M corpus rel
  if tokens = [] then corpus
  else
    let tf := tokensToTermFreqs tokens
    let docLens := corpus.docLens ++ [tokens.length]
    { corpus with
      rels := corpus.rels ++ [rel]
      docTermFreqs := corpus.docTermFreqs ++ [tf]
      docLens := docLens
      df := alterAll (fun _ => increment) tf.keys corpus.df
      nDocs := corpus.nDocs + 1
      avgdl := averageLength M docLens (corpus.nDocs + 1) }

def countDocuments (docTermFreqs : List (Dict Str Nat)) : Dict Str Nat :=
  docTermFreqs.foldl (fun df tf => alterAll (fun _ => increment) tf.keys df) ∅

/-- `_build_bm25_corpus` on the pages that can be read, with their tokens. -/
def buildBm25Corpus (pages : List (Str × List Str)) : Bm25Corpus S :=
  let docs := pages.filter fun doc => doc.2 ≠ []
  let docTermFreqs := docs.map fun doc => tokensToTermFreqs doc.2
  let docLens := docs.map fun doc => doc.2.length
  { rels := docs.map Prod.fst
    docTermFreqs := docTermFreqs
    docLens := docLens
    df := countDocuments docTermFreqs
    nDocs := docs.length
    avgdl := averageLength M docLens docs.length }

def clearQueryCache (corpus : Bm25Corpus S) : Bm25Corpus S :=
  { corpus with
    queryCache := { corpus.queryCache with entries := [], total := 0 }
    queryCacheInvalidations := corpus.queryCacheInvalidations + 1 }

section Scores

variable [LinearOrder S]

def docScore (corpus : Bm25Corpus S) (key : QueryKey S) (tf : Dict Str Nat) (docLen : Nat) : S :=
  key.tokens.foldl (fun score token =>
    let freq := (tf.lookup token).getD 0
    if freq = 0 then score
    else
      let documentFrequency := (corpus.df.lookup token).getD 0
      M.add score
        (M.term corpus.nDocs documentFrequency freq docLen corpus.avgdl key.k1 key.b)) M.zero

/-- The rows in the order of the sort key `(-score, rel)`. A score that is not a number
is not above zero, so it has no row and needs no place in the order. -/
def rowBefore (a b : Str × S) : Prop := b.2 < a.2 ∨ b.2 = a.2 ∧ a.1 ≤ b.1

instance (a b : Str × S) : Decidable (rowBefore a b) := inferInstanceAs (Decidable (_ ∨ _))

def scoredRows (corpus : Bm25Corpus S) (key : QueryKey S) : Rows S :=
  (corpus.rels.zip (corpus.docTermFreqs.zip corpus.docLens)).filterMap fun doc =>
    let score := docScore M corpus key doc.2.1 doc.2.2
    if M.zero < score then some (doc.1, score) else none

def rankedRows (corpus : Bm25Corpus S) (key : QueryKey S) : Rows S :=
  ((scoredRows M corpus key).insertionSort rowBefore).take key.capped

def queryKey (tokens : List Str) (limit : Int) (k1 b : S) : QueryKey S where
  tokens := tokens
  capped := (max 1 (min limit 100)).toNat
  k1 := k1
  b := b

/-- `score_bm25_query` on the tokens of the query: the rows and the corpus after it. -/
def scoreBm25Query (corpus : Bm25Corpus S) (tokens : List Str) (limit : Int) (k1 b : S) :
    Rows S × Bm25Corpus S :=
  if tokens = [] ∨ corpus.nDocs = 0 then ([], corpus)
  else
    let key := queryKey tokens limit k1 b
    match corpus.queryCache.get key with
    | some rows =>
        (rows, { corpus with
          queryCache := corpus.queryCache.moveToEnd key
          queryCacheHits := corpus.queryCacheHits + 1 })
    | none =>
        let rows := rankedRows M corpus key
        (rows, { corpus with
          queryCache := corpus.queryCache.store List.length queryCacheMaxEntries
            queryCacheMaxResultRows key rows
          queryCacheMisses := corpus.queryCacheMisses + 1 })

end Scores

end Plumber.Bm25
