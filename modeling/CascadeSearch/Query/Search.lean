import CascadeSearch.Index.Analyzer
import CascadeSearch.Query.Evaluate

/-!
# Searching an index (`Index::search`)

The query goes through the analyzer the builder used; its distinct terms are
looked up in order and a cursor is opened on each that the index has.
-/
namespace CascadeSearch.Query.Search

open Lib.Loop
open Index.Format Index.Analyzer
open Cursor Heap Reader Evaluate

inductive Algorithm where
  | daatOr
  | wand
  | blockMaxWand
deriving DecidableEq

/-- `std::unique`: of equal neighbours only the first stays. -/
def unique : List Str → List Str
  | [] => []
  | [term] => [term]
  | term :: next :: terms =>
      if term = next then unique (next :: terms) else term :: unique (next :: terms)

/-- The terms of a query, sorted, each once. -/
def queryTerms (query : Str) : List Str := unique ((analyze query).insertionSort (· ≤ ·))

variable {S : Type}

/-- The arguments `open_cursors` passes to the cursor at `addr`. -/
def sourceFor (ix : Index S) (record : TermRecord S) (addr : Nat) [Zero S] : PostingSource S where
  blocks := ix.blocksFor record
  numBlocks := record.numBlocks
  payload := ix.payloadFor record
  idf := ix.bm25.bm25Idf ix.docCount record.df
  maxImpact := record.maxImpact
  addr := addr

def sourcesFor [Zero S] (ix : Index S) (query : Str) : List (PostingSource S) :=
  ((queryTerms query).filterMap ix.findTerm).mapIdx (fun i record => sourceFor ix record i)

def openCursors [Zero S] (ix : Index S) (query : Str) : List (PostingCursor S) :=
  (sourcesFor ix query).map PostingCursor.open

theorem openCursors_congr [Zero S] {ix : Index S} {query query' : Str}
    (h : analyze query = analyze query') :
    openCursors ix query = openCursors ix query' := by
  unfold openCursors sourcesFor queryTerms
  rw [h]

variable [LinearOrder S] [Zero S] [One S] [Neg S] [Add S]

def search (ix : Index S) (query : Str) (k : Nat) (algorithm : Algorithm) (fuel : Nat) :
    Option (Outcome S) :=
  let cursors := openCursors ix query
  if cursors = [] then some (.ok ([], {}))
  else
    match algorithm with
    | .daatOr => daatOr ix cursors k fuel
    | .wand => wand ix cursors k fuel
    | .blockMaxWand => blockMaxWand ix cursors k fuel

/-- The call returns these results. -/
def SearchReturns (ix : Index S) (query : Str) (k : Nat) (algorithm : Algorithm)
    (results : List (Result S)) : Prop :=
  ∃ fuel stats, search ix query k algorithm fuel = some (.ok (results, stats))

variable {ix : Index S} {query query' : Str} {k : Nat} {algorithm : Algorithm}

/-- A search sees its query only through the analyzed terms. -/
theorem searchReturns_congr (h : analyze query = analyze query') {results : List (Result S)} :
    SearchReturns ix query k algorithm results ↔ SearchReturns ix query' k algorithm results := by
  unfold SearchReturns search
  rw [openCursors_congr h]

/-- More fuel never changes what a search returns. -/
theorem search_stable {outcome : Outcome S} {fuel more : Nat} (hle : fuel ≤ more)
    (h : search ix query k algorithm fuel = some outcome) :
    search ix query k algorithm more = some outcome := by
  unfold search at h ⊢
  dsimp only at h ⊢
  by_cases hnil : openCursors ix query = []
  · rw [if_pos hnil] at h ⊢
    exact h
  · rw [if_neg hnil] at h ⊢
    cases algorithm with
    | daatOr => exact run_stable h hle
    | wand => exact run_stable h hle
    | blockMaxWand => exact run_stable h hle

theorem SearchReturns.unique {results results' : List (Result S)}
    (h : SearchReturns ix query k algorithm results)
    (h' : SearchReturns ix query k algorithm results') : results = results' := by
  obtain ⟨fuel, stats, h⟩ := h
  obtain ⟨fuel', stats', h'⟩ := h'
  have hmax := search_stable (Nat.le_max_left fuel fuel') h
  have hmax' := search_stable (Nat.le_max_right fuel fuel') h'
  rw [hmax] at hmax'
  cases hmax'
  rfl

end CascadeSearch.Query.Search
