import CascadeSearch.Lib.Decimal
import CascadeSearch.Lib.Transition
import CascadeSearch.Query.ResultCount
import CascadeSearch.Server.Cache
import Mathlib.Data.List.DropRight

/-!
# Serving queries through the cache (`search_service.cc`)

`handle_query` looks its key up, searches on a miss and stores the results. The
cache's mutex makes the lookup and the store one step each; the search touches
no shared state, so any number of calls interleave at these three points.
-/
namespace CascadeSearch.Server.SearchService

open Lib.Decimal Lib.Memory Lib.Transition
open Index.Format Index.Porter Index.Analyzer
open Query.Heap Query.Reader Query.Search
open Cache

structure SearchRequest where
  query : Str
  k : Nat

structure SearchResponse (S : Type) where
  results : List (Result S) := []
  cacheHit : Bool := false

/-- The loop of `normalize`. -/
def normalizeFrom : (lastWasSpace : Bool) → (query : Str) → Str
  | _, [] => []
  | lastWasSpace, c :: query =>
      let lower := toLower c
      if isSpace lower then
        if lastWasSpace then normalizeFrom true query else 0x20 :: normalizeFrom true query
      else lower :: normalizeFrom false query

def normalize (query : Str) : Str := (normalizeFrom true query).rdropWhile (· == 0x20)

/-- The separator `'|'`. -/
def bar : Byte := 0x7C

def cacheKey (request : SearchRequest) : Str := normalize request.query ++ bar :: decimal request.k

theorem continues_toLower (prev ch : Byte) (next : Option Byte) :
    continues (toLower prev) (toLower ch) (next.map toLower) = continues prev ch next := by
  have hq := (toLower_marks ch).1
  have hp := (toLower_marks ch).2.1
  have hc := (toLower_marks ch).2.2.1
  cases next with
  | none => rfl
  | some next =>
    rw [Option.map_some, Bool.eq_iff_iff]
    simp only [continues, (toLower_classes prev).1, (toLower_classes prev).2.1,
      (toLower_classes next).1, (toLower_classes next).2.1, Bool.or_eq_true, Bool.and_eq_true,
      beq_iff_eq, hq, hp, hc]

theorem scanToken_map_toLower (text : Str) :
    ∀ prev, scanToken (toLower prev) (text.map toLower) =
      ((scanToken prev text).1.map toLower, (scanToken prev text).2.map toLower) := by
  induction text with
  | nil => intro prev; rfl
  | cons ch text ih =>
    intro prev
    rw [List.map_cons, scanToken, scanToken, List.head?_map, continues_toLower,
      (toLower_classes ch).2.2.1]
    split
    · rw [ih ch]
      rfl
    · rfl

theorem tokenize_map_toLower (text : Str) :
    tokenize (text.map toLower) = (tokenize text).map (List.map toLower) := by
  induction text using tokenize_induction with
  | nil => rfl
  | separator c text hc ih =>
    have hc' : isWord (toLower c) = false := (toLower_classes c).2.2.1.trans hc
    rw [List.map_cons, tokenize_separator hc', tokenize_separator hc, ih]
  | word c text hc ih =>
    have hc' : isWord (toLower c) = true := (toLower_classes c).2.2.1.trans hc
    rw [List.map_cons, tokenize_word hc', tokenize_word hc, scanToken_map_toLower, ih, List.map_cons,
      List.map_take, List.map_cons]

theorem analyze_map_toLower (text : Str) : analyze (text.map toLower) = analyze text := by
  rw [analyze, tokenize_map_toLower, List.filterMap_map, analyze]
  exact List.filterMap_congr fun token _ => analyzeToken_map_toLower token

theorem splits_blank : Splits 0x20 := isSpace_splits 0x20 (by decide)

/-- Collapsing runs of blanks moves no token boundary, whatever was read before. -/
theorem tokenize_normalizeFrom (query : Str) :
    tokenize (normalizeFrom true query) = tokenize (query.map toLower) ∧
      ∀ front, tokenize (front ++ normalizeFrom false query) =
        tokenize (front ++ query.map toLower) := by
  induction query with
  | nil => exact ⟨rfl, fun front => rfl⟩
  | cons c query ih =>
    obtain ⟨ihTrue, ihFalse⟩ := ih
    rw [normalizeFrom, normalizeFrom, List.map_cons]
    cases hc : isSpace (toLower c) with
    | true =>
      have hsplit := isSpace_splits _ hc
      constructor
      · rw [tokenize_separator hsplit.1, ← ihTrue]
        rfl
      · intro front
        rw [tokenize_split hsplit, ← ihTrue]
        exact tokenize_split splits_blank front _
    | false =>
      constructor
      · exact ihFalse [toLower c]
      · intro front
        have h := ihFalse (front ++ [toLower c])
        rw [List.append_assoc, List.append_assoc] at h
        exact h

theorem tokenize_trim (text : Str) : tokenize (text.rdropWhile (· == 0x20)) = tokenize text := by
  induction text using List.reverseRecOn with
  | nil => rfl
  | append_singleton text c ih =>
    rw [List.rdropWhile_concat]
    split
    · rename_i hc
      rw [beq_iff_eq] at hc
      rw [ih, hc, tokenize_split splits_blank]
      exact (List.append_nil _).symm
    · rfl

theorem analyze_normalize (query : Str) : analyze (normalize query) = analyze query := by
  rw [← analyze_map_toLower query, analyze, normalize, tokenize_trim, (tokenize_normalizeFrom query).1,
    ← analyze]

theorem analyze_of_normalize {query query' : Str} (h : normalize query = normalize query') :
    analyze query = analyze query' := by
  rw [← analyze_normalize query, h, analyze_normalize]

theorem bar_notMem_decimal (k : Nat) : bar ∉ decimal k := fun h => by
  have hdigit := decimal_digits k bar h
  exact absurd hdigit.2 (by decide)

/-- The last occurrence of a separator splits a list in one way only. -/
theorem append_cons_inj {α : Type} {x : α} {a a' b b' : List α} (hb : x ∉ b) (hb' : x ∉ b')
    (h : a ++ x :: b = a' ++ x :: b') : a = a' ∧ b = b' := by
  rcases List.append_eq_append_iff.mp h with ⟨c, rfl, hc⟩ | ⟨c, rfl, hc⟩
  · cases c with
    | nil => exact ⟨(List.append_nil _).symm, List.tail_eq_of_cons_eq hc⟩
    | cons y c =>
      refine absurd ?_ hb
      rw [List.tail_eq_of_cons_eq hc]
      simp
  · cases c with
    | nil => exact ⟨List.append_nil _, (List.tail_eq_of_cons_eq hc).symm⟩
    | cons y c =>
      refine absurd ?_ hb'
      rw [List.tail_eq_of_cons_eq hc]
      simp

theorem cacheKey_inj {request request' : SearchRequest} (h : cacheKey request = cacheKey request') :
    normalize request.query = normalize request'.query ∧ request.k = request'.k := by
  obtain ⟨hquery, hk⟩ := append_cons_inj (bar_notMem_decimal _) (bar_notMem_decimal _) h
  exact ⟨hquery, decimal_injective hk⟩

/-- Where a call stands: before `get`, before the search, before `put`, or done. -/
inductive Phase (S : Type) where
  | arrived
  | missed
  | searched (results : List (Result S))
  | finished

structure Call (S : Type) where
  phase : Phase S := .arrived
  response : SearchResponse S := {}

structure Service (S ι : Type) where
  cache : LruCache (List (Result S))
  calls : ι → Call S

inductive Action (ι : Type) where
  | get (call : ι)
  | search (call : ι)
  | put (call : ι)

variable {S ι : Type}

/-- `cache_.get`; a hit fills the response and ends the call. -/
def lookup (request : SearchRequest) (cache : LruCache (List (Result S))) :
    Option (Call S × LruCache (List (Result S))) :=
  (cache.get (cacheKey request)).map fun
    | (some cached, cache) => ({ phase := .finished, response := ⟨cached, true⟩ }, cache)
    | (none, cache) => ({ phase := .missed }, cache)

/-- The response is filled before `cache_.put`. -/
def fill (results : List (Result S)) : Call S :=
  { phase := .searched results, response := ⟨results, false⟩ }

variable [LinearOrder S] [Zero S] [One S] [Neg S] [Add S]

inductive HandleQuery [DecidableEq ι] (ix : Index S) (algorithm : Algorithm) (requests : ι → SearchRequest) :
    Service S ι → Action ι → Service S ι → Prop where
  | get {s : Service S ι} {i : ι} {call : Call S} {cache : LruCache (List (Result S))}
      (phase : (s.calls i).phase = .arrived)
      (lookup : lookup (requests i) s.cache = some (call, cache)) :
      HandleQuery ix algorithm requests s (.get i)
        { cache := cache, calls := Function.update s.calls i call }
  | search {s : Service S ι} {i : ι} {results : List (Result S)}
      (phase : (s.calls i).phase = .missed)
      (search : SearchReturns ix (requests i).query (requests i).k algorithm results) :
      HandleQuery ix algorithm requests s (.search i)
        { s with calls := Function.update s.calls i (fill results) }
  | put {s : Service S ι} {i : ι} {results : List (Result S)} {cache : LruCache (List (Result S))}
      (phase : (s.calls i).phase = .searched results)
      (put : s.cache.put (cacheKey (requests i)) results = some cache) :
      HandleQuery ix algorithm requests s (.put i)
        { cache := cache, calls := Function.update s.calls i { s.calls i with phase := .finished } }

/-- The service with an empty cache and every call yet to come. -/
def service [DecidableEq ι] (ix : Index S) (algorithm : Algorithm) (capacity : Nat) (requests : ι → SearchRequest) :
    System (Service S ι) (Action ι) where
  init s := s = { cache := { capacity := capacity }, calls := fun _ => {} }
  step := HandleQuery ix algorithm requests

/-- A results list has been put into the response. -/
def Phase.Responded : Phase S → Prop
  | .arrived | .missed => False
  | .searched _ | .finished => True

/-- What is cached under a key answers every request with that key. -/
structure Transparent (ix : Index S) (algorithm : Algorithm) (requests : ι → SearchRequest)
    (s : Service S ι) : Prop where
  consistent : s.cache.Consistent
  cached : ∀ request results, (cacheKey request, results) ∈ s.cache.contents →
    SearchReturns ix request.query request.k algorithm results
  searched : ∀ i results, (s.calls i).phase = .searched results →
    (s.calls i).response.results = results
  answered : ∀ i, (s.calls i).phase.Responded →
    SearchReturns ix (requests i).query (requests i).k algorithm (s.calls i).response.results

variable {ix : Index S} {algorithm : Algorithm} {requests : ι → SearchRequest} {s s' : Service S ι}

theorem transparent_init (capacity : Nat) : Transparent ix algorithm requests
    { cache := { capacity := capacity }, calls := fun _ => {} } := by
  constructor
  · exact LruCache.consistent_empty capacity
  · intro request results h
    cases h
  · intro i results h
    cases h
  · intro i h
    cases h

variable [DecidableEq ι]

/-- Results of one request answer every request with the same key. -/
theorem searchReturns_of_key {request request' : SearchRequest} {results : List (Result S)}
    (hkey : cacheKey request' = cacheKey request)
    (h : SearchReturns ix request.query request.k algorithm results) :
    SearchReturns ix request'.query request'.k algorithm results := by
  obtain ⟨hquery, hk⟩ := cacheKey_inj hkey
  rw [searchReturns_congr (analyze_of_normalize hquery), hk]
  exact h

namespace Transparent

/-- One call moves on; the others keep their responses. -/
theorem update (h : Transparent ix algorithm requests s) {i : ι} {call : Call S}
    {cache : LruCache (List (Result S))} (hcons : cache.Consistent)
    (hcached : ∀ request results, (cacheKey request, results) ∈ cache.contents →
      SearchReturns ix request.query request.k algorithm results)
    (hsearched : ∀ results, call.phase = .searched results → call.response.results = results)
    (hanswered : call.phase.Responded →
      SearchReturns ix (requests i).query (requests i).k algorithm call.response.results) :
    Transparent ix algorithm requests { cache := cache, calls := Function.update s.calls i call } := by
  constructor
  · exact hcons
  · exact hcached
  · intro j results hj
    dsimp only at hj ⊢
    by_cases hij : j = i
    · cases hij
      rw [Function.update_self] at hj ⊢
      exact hsearched results hj
    · rw [Function.update_of_ne hij] at hj ⊢
      exact h.searched j results hj
  · intro j hj
    dsimp only at hj ⊢
    by_cases hij : j = i
    · cases hij
      rw [Function.update_self] at hj ⊢
      exact hanswered hj
    · rw [Function.update_of_ne hij] at hj ⊢
      exact h.answered j hj

theorem get (h : Transparent ix algorithm requests s) {i : ι} {call : Call S}
    {cache : LruCache (List (Result S))} (hlookup : lookup (requests i) s.cache = some (call, cache)) :
    Transparent ix algorithm requests { cache := cache, calls := Function.update s.calls i call } := by
  obtain ⟨cache', hget, hcons, -, hcontents⟩ := h.consistent.get_spec (cacheKey (requests i))
  rw [lookup, hget, Option.map_some, Option.some.injEq] at hlookup
  cases hhit : s.cache.contents.lookup (cacheKey (requests i)) with
  | none =>
    rw [hhit] at hlookup hcontents
    cases hlookup
    apply h.update hcons
    · intro request results hmem
      rw [hcontents] at hmem
      exact h.cached request results hmem
    · intro results hphase
      cases hphase
    · intro hphase
      cases hphase
  | some cached =>
    rw [hhit] at hlookup hcontents
    cases hlookup
    have hown := h.cached (requests i) cached (mem_of_lookup hhit)
    apply h.update hcons
    · intro request results hmem
      rw [hcontents] at hmem
      rcases mem_touch hmem with ⟨hkey, rfl⟩ | hmem
      · exact searchReturns_of_key hkey hown
      · exact h.cached request results hmem
    · intro results hphase
      cases hphase
    · intro _
      exact hown

theorem search (h : Transparent ix algorithm requests s) {i : ι} {results : List (Result S)}
    (hsearch : SearchReturns ix (requests i).query (requests i).k algorithm results) :
    Transparent ix algorithm requests { s with calls := Function.update s.calls i (fill results) } := by
  apply h.update h.consistent h.cached
  · intro results' hphase
    cases hphase
    rfl
  · intro _
    exact hsearch

theorem put (h : Transparent ix algorithm requests s) {i : ι} {results : List (Result S)}
    {cache : LruCache (List (Result S))} (hphase : (s.calls i).phase = .searched results)
    (hput : s.cache.put (cacheKey (requests i)) results = some cache) :
    Transparent ix algorithm requests
      { cache := cache, calls := Function.update s.calls i { s.calls i with phase := .finished } } := by
  obtain ⟨cache', hput', hcons, -, hcontents⟩ := h.consistent.put_spec (cacheKey (requests i)) results
  rw [hput'] at hput
  cases hput
  have hown := h.answered i (by rw [hphase]; trivial)
  apply h.update hcons
  · intro request results' hmem
    rw [hcontents] at hmem
    rcases mem_touch hmem with ⟨hkey, rfl⟩ | hmem
    · rw [h.searched i _ hphase] at hown
      exact searchReturns_of_key hkey hown
    · exact h.cached request results' hmem
  · intro results' hphase'
    cases hphase'
  · intro _
    exact hown

theorem step (h : Transparent ix algorithm requests s) {action : Action ι}
    (hstep : HandleQuery ix algorithm requests s action s') : Transparent ix algorithm requests s' := by
  cases hstep with
  | get hphase hlookup => exact h.get hlookup
  | search hphase hsearch => exact h.search hsearch
  | put hphase hput => exact h.put hphase hput

end Transparent

theorem transparent_of_reachable {capacity : Nat}
    (h : (service ix algorithm capacity requests).Reachable s) : Transparent ix algorithm requests s := by
  apply h.invariant
  · intro s hinit
    cases hinit
    exact transparent_init capacity
  · intro s action s' hs hstep
    exact hs.step hstep

/-- Every response holds what the index answers to that very request. -/
theorem response_eq_search (ix : Index S) (algorithm : Algorithm) (capacity : Nat)
    (requests : ι → SearchRequest) :
    (∀ s, (service ix algorithm capacity requests).Reachable s →
      ∀ i, (s.calls i).phase.Responded →
        SearchReturns ix (requests i).query (requests i).k algorithm (s.calls i).response.results) ∧
    (∀ query query', normalize query = normalize query' → analyze query = analyze query') ∧
    (∀ request request', cacheKey request = cacheKey request' →
      normalize request.query = normalize request'.query ∧ request.k = request'.k) :=
  ⟨fun _ h => (transparent_of_reachable h).answered, fun _ _ => analyze_of_normalize,
    fun _ _ => cacheKey_inj⟩

/-- One document, `fox`. -/
def foxIndex : Index ℚ where
  bm25 := Bm25.exact (fun _ => 1) BM25Params.default
  docCount := 1
  avgDl := 1
  docLengths _ := 1
  termCount := 1
  termRecords _ := ⟨0, 0, 3, 1, 1, 1⟩
  termStrings := putBytes (lit "fox")
  postings := putInt 4 0 ++ putInt 4 1 ++ putInt 4 0 ++ putFloat 1 ++ putBytes [0, 1]
  docidOffsets _ := 0
  docidBlob := []

def foxRequests : Bool → SearchRequest
  | false => ⟨lit "Fox", 1⟩
  | true => ⟨lit " fox\t", 1⟩

theorem foxIndex_answers : SearchReturns foxIndex (lit "Fox") 1 .wand [⟨0, 1⟩] :=
  ⟨5, ⟨1, 1, 1, 1⟩, by decide +kernel⟩

def foxService : System (Service ℚ Bool) (Action Bool) := service foxIndex .wand 1 foxRequests

/-- The first call has missed; it has searched; it has stored; the second call has hit. -/
def foxMissed : Bool → Call ℚ := Function.update (fun _ => {}) false { phase := .missed }
def foxSearched : Bool → Call ℚ := Function.update foxMissed false (fill [⟨0, 1⟩])
def foxStored : Bool → Call ℚ :=
  Function.update foxSearched false { phase := .finished, response := ⟨[⟨0, 1⟩], false⟩ }
def foxShared : Bool → Call ℚ :=
  Function.update foxStored true { phase := .finished, response := ⟨[⟨0, 1⟩], true⟩ }

def foxCache : LruCache (List (Result ℚ)) where
  capacity := 1
  entries := [⟨0, lit "fox|1", [⟨0, 1⟩]⟩]
  index := AList.singleton (lit "fox|1") 0
  nextAddr := 1

theorem shared_reachable : foxService.Reachable ⟨foxCache, foxShared⟩ := by
  have hempty : foxService.Reachable ⟨{ capacity := 1 }, fun _ => {}⟩ := .init rfl
  have hmissed : foxService.Reachable ⟨{ capacity := 1 }, foxMissed⟩ :=
    hempty.step (HandleQuery.get rfl rfl)
  have hsearched : foxService.Reachable ⟨{ capacity := 1 }, foxSearched⟩ :=
    hmissed.step (HandleQuery.search rfl foxIndex_answers)
  have hstored : foxService.Reachable ⟨foxCache, foxStored⟩ := hsearched.step (HandleQuery.put rfl rfl)
  exact hstored.step (HandleQuery.get rfl rfl)

theorem response_eq_search_shared :
    (foxShared true).response.cacheHit = true ∧
    SearchReturns foxIndex (lit " fox\t") 1 .wand (foxShared true).response.results :=
  ⟨rfl, (response_eq_search foxIndex .wand 1 foxRequests).1 _ shared_reachable true trivial⟩

section Requested

open Query.Cursor Query.Pruning Query.Passes Query.ResultCount Lib.RoundedSum

/-- `handle_query` passes the `k` of the request on as it is: the search answers
in full exactly when that is at least one, or no document matches. -/
theorem request_answered_iff {S : Type} [LinearOrder S] [Zero S] [One S] [Neg S] [Add S] [RoundedAdd S]
    (ix : Index S) (algorithm : Algorithm) (request : SearchRequest)
    (hs : WellFormed (sourcesFor ix request.query))
    (hb : NonNegativeBounds (sourcesFor ix request.query)) :
    AnswersInFull ix request.query request.k algorithm ↔
      1 ≤ request.k ∨ matching (sourcesFor ix request.query) = [] :=
  answersInFull_iff ix request.query hs hb request.k algorithm

theorem sourcesFor_fox : sourcesFor foxIndex (lit "Fox") = [sourceFor foxIndex ⟨0, 0, 3, 1, 1, 1⟩ 0] := by
  have hterms : queryTerms (lit "Fox") = [lit "fox"] := by decide +kernel
  have hstring : lit "fox" = foxIndex.termAt ⟨0, 0, 3, 1, 1, 1⟩ := by decide +kernel
  have hfind : foxIndex.findTerm (lit "fox") = some ⟨0, 0, 3, 1, 1, 1⟩ := by
    rw [Index.findTerm]
    change Index.findTermFrom foxIndex (lit "fox") 1 0 1 = _
    rw [Index.findTermFrom, if_pos Nat.one_pos]
    exact if_pos hstring
  rw [sourcesFor, hterms]
  simp [hfind]

theorem fox_postings : (sourceFor foxIndex ⟨0, 0, 3, 1, 1, 1⟩ 0).blockPostings 0 = [⟨0, 1⟩] := by
  decide +kernel

theorem fox_wellFormed : WellFormed (sourcesFor foxIndex (lit "Fox")) := by
  rw [sourcesFor_fox]
  refine ⟨fun t ht => ?_, List.pairwise_singleton _ _⟩
  obtain rfl := List.mem_singleton.mp ht
  have hall : (sourceFor foxIndex ⟨0, 0, 3, 1, 1, 1⟩ 0).all = [⟨0, 1⟩] := by decide +kernel
  constructor
  · decide +kernel
  · decide +kernel
  · rw [hall]
    exact List.pairwise_singleton _ _
  · intro i hi p hp
    obtain rfl : i = 0 := Nat.lt_one_iff.mp hi
    rw [fox_postings] at hp
    cases hp
    decide +kernel
  · rw [hall]
    decide

theorem fox_nonNegativeBounds : NonNegativeBounds (sourcesFor foxIndex (lit "Fox")) := by
  rw [sourcesFor_fox]
  constructor
  · intro t ht i hi
    obtain rfl := List.mem_singleton.mp ht
    obtain rfl : i = 0 := Nat.lt_one_iff.mp hi
    decide +kernel
  · intro t ht _
    obtain rfl := List.mem_singleton.mp ht
    decide +kernel

theorem request_answered_fox : AnswersInFull foxIndex (lit "Fox") 1 .blockMaxWand :=
  (request_answered_iff foxIndex .blockMaxWand ⟨lit "Fox", 1⟩ fox_wellFormed fox_nonNegativeBounds).mpr
    (Or.inl le_rfl)

/-- An unset `k` is zero: every algorithm reads the top of an empty heap. -/
theorem unset_k_faults :
    search foxIndex (lit "Fox") 0 .daatOr 1 = some (.error .emptyHeap) ∧
      search foxIndex (lit "Fox") 0 .wand 1 = some (.error .emptyHeap) ∧
      search foxIndex (lit "Fox") 0 .blockMaxWand 1 = some (.error .emptyHeap) ∧
      ¬ AnswersInFull foxIndex (lit "Fox") 0 .daatOr := by
  have hfault : search foxIndex (lit "Fox") 0 .daatOr 1 = some (.error .emptyHeap) := by decide +kernel
  exact ⟨hfault, by decide +kernel, by decide +kernel, fun h => h.noFault 1 hfault⟩

end Requested

end CascadeSearch.Server.SearchService
