import CascadeSearch.Dense.Encode
import CascadeSearch.Lib.Ranking

/-!
# The exact dense channel (`ground_truth.py`, `fusion.py`)

The brute-force search of each query over the encoded subset, and the run that
fusion makes of it. A hit is a position; the docids next to the embeddings say
which passage it is.
-/
namespace CascadeSearch.Dense.GroundTruth

open Lib.Mapping Lib.TextFile Lib.Sorted Lib.LastWriter Lib.Ranking
open Lib.Fallible (mapM_eq_map)
open Harness.Metrics (Qrels Run)
open Harness.RunFile (decimalText decimalText_injective)
open Subset Encode

variable {V S : Type}

def queryPrefix : Text := "Represent this sentence for searching relevant passages: ".toList

def applyQueryPrefix (text : Text) : Text := queryPrefix ++ text

/-- `encode_queries`. -/
def encodeQueries (embed : Text → V) (queries : Dict Text Text) : List V × List Text :=
  let qids := sorted (· < ·) queries.keys
  (qids.map fun qid => embed (applyQueryPrefix (queries.getD qid [])), qids)

/-- `docids[position]`. -/
def itemAt (docids : List Nat) (position : Int) : Option Nat :=
  if 0 ≤ position then docids[position.toNat]?
  else if 0 ≤ position + docids.length then docids[(position + docids.length).toNat]?
  else none

/-- `IndexFlatIP.search` for one query, and `round(float(score), 6)`. -/
structure Flat (V S : Type) where
  search : List V → V → Nat → List (S × Int)
  round6 : S → S

variable (flat : Flat V S)

/-- The row of one query in `exact_search`. -/
def Flat.found (index : List V) (docids : List Nat) (k : Nat) (query : V) : Option (List (Nat × S)) :=
  (flat.search index query k).mapM fun hit => (itemAt docids hit.2).map fun docid => (docid, flat.round6 hit.1)

/-- `exact_search`. -/
def Flat.exactSearch (index : List V) (queryEmbeddings : List V) (queryIds : List Text) (docids : List Nat) (k : Nat) :
    Option (Dict Text (List (Nat × S))) :=
  ((queryIds.zip queryEmbeddings).mapM fun query =>
    (flat.found index docids k query.2).map fun hits => (query.1, hits)).map Dict.ofList

/-- `run_query_set`, with what `encode.py` saved of the queries. -/
def Flat.runQuerySet (embed : Text → V) (index : List V) (docids : List Nat) (k : Nat) (queries : Dict Text Text) :
    Option (Dict Text (List (Nat × S))) :=
  flat.exactSearch index (encodeQueries embed queries).1 (encodeQueries embed queries).2 docids k

/-- `{**dl19_results, **dl20_results}`. -/
def Flat.groundTruth (embed : Text → V) (index : List V) (docids : List Nat) (k : Nat) (querySets : List (Dict Text Text)) :
    Option (Dict Text (List (Nat × S))) :=
  (querySets.mapM (flat.runQuerySet embed index docids k)).map fun results => results.foldl Dict.merged Dict.empty

/-- `{str(docid): score for docid, score in ground_truth[qid]}`. -/
def channelOf (hits : List (Nat × S)) : Dict Text S := Dict.ofList (hits.map fun hit => (decimalText hit.1, hit.2))

/-- `load_dense_run`. -/
def loadDenseRun (groundTruth : Dict Text (List (Nat × S))) (qrels : Qrels Text Text) : Run Text Text S :=
  Dict.ofList (qrels.keys.filterMap fun qid => (groundTruth.get? qid).map fun hits => (qid, channelOf hits))

/-- `dense_run` in `fusion.main`. -/
def denseRun (groundTruth : Dict Text (List (Nat × S))) (qrelsSets : List (Qrels Text Text)) : Run Text Text S :=
  qrelsSets.foldl (fun run qrels => run.merged (loadDenseRun groundTruth qrels)) Dict.empty

/-- The passages at their positions, with their inner products. -/
def products (ip : V → V → S) (index : List V) (query : V) : List (S × Int) :=
  index.zipIdx.map fun row => (ip query row.1, (row.2 : Int))

/-- With enough passages a search gives `k` of them, and none left out is nearer. -/
def Flat.Exact [LE S] (ip : V → V → S) : Prop :=
  ∀ index query k, k ≤ index.length → Keeps (fun a b => b.1 ≤ a.1) k (products ip index query) (flat.search index query k)

/-- A passage as the channel has it. -/
def scored (ip : V → V → S) (embedding : Nat → V) (query : V) (docid : Nat) : Text × S :=
  (decimalText docid, flat.round6 (ip query (embedding docid)))

/-- A best selection of `k` passages. -/
def Nearest [LE S] (ip : V → V → S) (embedding : Nat → V) (docids : List Nat) (k : Nat) (query : V) (channel : Dict Text S) :
    Prop :=
  Keeps (fun a b => b.2 ≤ a.2) k (docids.map (scored flat ip embedding query)) channel.items

section Query

variable [Preorder S] {ip : V → V → S} {docids : List Nat} {embedding : Nat → V} {k : Nat}

/-- The hits of one query. -/
def hitsOf (flat : Flat V S) (docids : List Nat) (embedding : Nat → V) (k : Nat) (query : V) : List (Nat × S) :=
  (flat.search (docids.map embedding) query k).map fun hit => (docids.getD hit.2.toNat 0, flat.round6 hit.1)

/-- A hit as the channel has it. -/
def named (flat : Flat V S) (docids : List Nat) (hit : S × Int) : Text × S :=
  (decimalText (docids.getD hit.2.toNat 0), flat.round6 hit.1)

variable {flat}

theorem found_eq (hexact : flat.Exact ip) (hk : k ≤ docids.length) (query : V) :
    flat.found (docids.map embedding) docids k query = some (hitsOf flat docids embedding k query) := by
  refine mapM_eq_map fun hit hhit => ?_
  have hmem := (hexact (docids.map embedding) query k (by rwa [List.length_map])).subset hit hhit
  obtain ⟨row, hrow, rfl⟩ := List.mem_map.mp hmem
  obtain ⟨hlt, -⟩ := List.getElem?_eq_some_iff.mp (List.mem_zipIdx_iff_getElem?.mp hrow)
  rw [List.length_map] at hlt
  dsimp only
  rw [itemAt, if_pos (Int.natCast_nonneg _), Int.toNat_natCast, List.getD_eq_getElem?_getD, List.getElem?_eq_getElem hlt,
    Option.map_some, Option.getD_some]

theorem nearest_channelOf (hexact : flat.Exact ip) (hround : Monotone flat.round6) (hnodup : docids.Nodup)
    (hk : k ≤ docids.length) (query : V) :
    Nearest flat ip embedding docids k query (channelOf (hitsOf flat docids embedding k query)) := by
  have hkeeps : Keeps (fun a b : Text × S => b.2 ≤ a.2) k ((products ip (docids.map embedding) query).map (named flat docids))
      ((flat.search (docids.map embedding) query k).map (named flat docids)) :=
    (hexact (docids.map embedding) query k (by rwa [List.length_map])).map fun _ _ h => hround h
  have hproducts : (products ip (docids.map embedding) query).map (named flat docids) =
      docids.map (scored flat ip embedding query) := by
    rw [products, List.map_map]
    refine List.ext_getElem (by simp) fun i hi hi' => ?_
    have hlt : i < docids.length := by simpa using hi'
    simp [named, scored, List.getElem?_eq_getElem hlt]
  rw [hproducts] at hkeeps
  have hchannel : channelOf (hitsOf flat docids embedding k query) =
      Dict.ofList ((flat.search (docids.map embedding) query k).map (named flat docids)) :=
    congrArg Dict.ofList List.map_map
  have hdistinct : ((docids.map (scored flat ip embedding query)).map Prod.fst).Nodup := by
    rw [List.map_map]
    exact hnodup.map decimalText_injective
  obtain ⟨-, rest, hperm, -⟩ := id hkeeps
  have hkeys := ((hperm.map Prod.fst).nodup_iff.mp hdistinct)
  rw [List.map_append] at hkeys
  rw [Nearest, hchannel, Dict.items_ofList hkeys.of_append_left]
  exact hkeeps

/-- The embedding of a query, as `encode.py` saved it. -/
def queryVector (embed : Text → V) (qid : Text) (queries : Dict Text Text) : V :=
  embed (applyQueryPrefix (queries.getD qid []))

/-- The answers to one set of queries. -/
def answers (flat : Flat V S) (embed : Text → V) (docids : List Nat) (embedding : Nat → V) (k : Nat) (queries : Dict Text Text) :
    Dict Text (List (Nat × S)) :=
  Dict.ofList ((sorted (· < ·) queries.keys).map fun qid =>
    (qid, hitsOf flat docids embedding k (queryVector embed qid queries)))

theorem runQuerySet_eq (embed : Text → V) (hexact : flat.Exact ip) (hk : k ≤ docids.length) (queries : Dict Text Text) :
    flat.runQuerySet embed (docids.map embedding) docids k queries =
      some (answers flat embed docids embedding k queries) := by
  have hzip : ∀ qids : List Text, qids.zip (qids.map fun qid => queryVector embed qid queries) =
      qids.map fun qid => (qid, queryVector embed qid queries) := by
    intro qids
    induction qids with
    | nil => rfl
    | cons qid qids ih => exact congrArg ((qid, queryVector embed qid queries) :: ·) ih
  rw [Flat.runQuerySet, Flat.exactSearch, encodeQueries]
  change Option.map _ (((sorted (· < ·) queries.keys).zip
    ((sorted (· < ·) queries.keys).map fun qid => queryVector embed qid queries)).mapM _) = _
  rw [hzip, List.mapM_map]
  have hfound : ∀ qid ∈ sorted (· < ·) queries.keys,
      ((fun query : Text × V => (flat.found (docids.map embedding) docids k query.2).map fun hits => (query.1, hits)) ∘
        fun qid => (qid, queryVector embed qid queries)) qid =
          some (qid, hitsOf flat docids embedding k (queryVector embed qid queries)) := by
    intro qid _
    rw [Function.comp_apply, found_eq hexact hk, Option.map_some]
  rw [mapM_eq_map hfound]
  rfl

omit [Preorder S] in
theorem get?_answers (embed : Text → V) (queries : Dict Text Text) (qid : Text) :
    (answers flat embed docids embedding k queries).get? qid =
      if qid ∈ queries then some (hitsOf flat docids embedding k (queryVector embed qid queries)) else none := by
  have hperm : (sorted (· < ·) queries.keys).Perm queries.keys := sorted_perm
  have hmem : qid ∈ sorted (· < ·) queries.keys ↔ qid ∈ queries := hperm.mem_iff
  rw [answers, Dict.get?_ofList_map (hperm.nodup_iff.mpr queries.nodup)]
  simp only [hmem]

/-- The last set of queries that has this one decides. -/
theorem groundTruth_spec (embedding : Nat → V) (embed : Text → V) (hexact : flat.Exact ip) (hk : k ≤ docids.length)
    (querySets : List (Dict Text Text)) :
    ∃ results, flat.groundTruth embed (docids.map embedding) docids k querySets = some results ∧
      ∀ qid hits, results.get? qid = some hits ↔
        ∃ before queries, LastOf (fun queries : Dict Text Text => qid ∈ queries) (qid ∉ ·) querySets before queries ∧
          hits = hitsOf flat docids embedding k (queryVector embed qid queries) := by
  refine ⟨(querySets.map (answers flat embed docids embedding k)).foldl Dict.merged Dict.empty, ?_, fun qid hits => ?_⟩
  · rw [Flat.groundTruth, mapM_eq_map fun queries _ => runQuerySet_eq embed hexact hk queries]
    rfl
  rw [List.foldl_map]
  refine read_foldl (fun d : Dict Text (List (Nat × S)) => d.get? qid) (fun _ => not_not_intro) ?_ ?_ ?_ rfl querySets hits
  · intro d queries hqid
    rw [Dict.get?_merged, get?_answers, if_pos hqid, Option.some_or]
  · intro d queries hqid
    rw [Dict.get?_merged, get?_answers, if_neg hqid, Option.none_or]
  · exact fun _ _ hqid hnot => absurd hqid hnot

end Query

theorem get?_loadDenseRun (groundTruth : Dict Text (List (Nat × S))) (qrels : Qrels Text Text) (qid : Text) :
    (loadDenseRun groundTruth qrels).get? qid = if qid ∈ qrels then (groundTruth.get? qid).map channelOf else none := by
  have hlisted : (qrels.keys.filterMap fun qid => (groundTruth.get? qid).map fun hits => (qid, channelOf hits)) =
      (qrels.keys.filter (· ∈ groundTruth)).map fun qid => (qid, channelOf (groundTruth.getD qid [])) := by
    induction qrels.keys with
    | nil => rfl
    | cons key keys ih =>
      by_cases hkey : key ∈ groundTruth
      · rw [List.filterMap_cons, Dict.get?_eq_some_getD hkey [], List.filter_cons_of_pos (by simpa using hkey), List.map_cons]
        exact congrArg _ ih
      · rw [List.filterMap_cons, Dict.get?_eq_none_iff.mpr hkey, List.filter_cons_of_neg (by simpa using hkey)]
        exact ih
  have hnodup : (qrels.keys.filter (· ∈ groundTruth)).Nodup := qrels.nodup.filter _
  rw [loadDenseRun, hlisted, Dict.get?_ofList_map hnodup fun qid => channelOf (groundTruth.getD qid [])]
  by_cases hqid : qid ∈ groundTruth
  · have hmem : qid ∈ qrels.keys.filter (· ∈ groundTruth) ↔ qid ∈ qrels := by
      rw [List.mem_filter, decide_eq_true_iff, and_iff_left hqid]
      rfl
    simp only [hmem, Dict.get?_eq_some_getD hqid [], Option.map_some]
  · have hmem : ¬ qid ∈ qrels.keys.filter (· ∈ groundTruth) := fun h => hqid (of_decide_eq_true (List.mem_filter.mp h).2)
    rw [if_neg hmem, Dict.get?_eq_none_iff.mpr hqid, Option.map_none, ite_self]

theorem get?_denseRun (groundTruth : Dict Text (List (Nat × S))) (qrelsSets : List (Qrels Text Text)) (qid : Text) :
    (denseRun groundTruth qrelsSets).get? qid =
      if ∃ qrels ∈ qrelsSets, qid ∈ qrels then (groundTruth.get? qid).map channelOf else none := by
  induction qrelsSets using List.reverseRecOn with
  | nil => exact (if_neg (by simp)).symm
  | append_singleton sets qrels ih =>
    rw [denseRun, List.foldl_append, List.foldl_cons, List.foldl_nil, ← denseRun, Dict.get?_merged, get?_loadDenseRun, ih]
    by_cases hqid : qid ∈ qrels
    · have hsome : ∃ q ∈ sets ++ [qrels], qid ∈ q := ⟨qrels, List.mem_append_right _ List.mem_cons_self, hqid⟩
      rw [if_pos hqid, if_pos hsome]
      cases groundTruth.get? qid with
      | none => exact ite_self _
      | some hits => rfl
    · have hsame : (∃ q ∈ sets ++ [qrels], qid ∈ q) ↔ ∃ q ∈ sets, qid ∈ q := by
        simp [List.mem_append, or_and_right, exists_or, hqid]
      rw [if_neg hqid, Option.none_or]
      simp only [hsame]

theorem mem_denseRun {groundTruth : Dict Text (List (Nat × S))} {qrelsSets : List (Qrels Text Text)} {qid : Text} :
    qid ∈ denseRun groundTruth qrelsSets ↔ (∃ qrels ∈ qrelsSets, qid ∈ qrels) ∧ qid ∈ groundTruth := by
  rw [← Dict.get?_isSome_iff, ← Dict.get?_isSome_iff, get?_denseRun]
  split
  · rename_i h
    rw [Option.isSome_map, and_iff_right h]
  · rename_i h
    exact iff_of_false Bool.noConfusion fun hboth => h hboth.1

/-- What a finished attempt leaves of a whole subset. -/
theorem loadPair_finished {rows : List (Text × Text)} (hrows : Sequential rows) {ids : Finset Nat} {w : Written}
    (hwrite : writeSubset ids rows = .ok w) (embed : Text → V) (zero : V) {chunkSize : Nat} (hchunk : 0 < chunkSize)
    (disk : Disk V) {a : Attempt} (hload : loadSubsetTexts (writeText w.jsonl) = some (a.loadedTexts, a.loadedDocids))
    (hlimit : a.limit = none) (hfinished : a.Finished chunkSize) :
    ids ⊆ Finset.range rows.length ∧
    loadPair ids.card (attempt embed zero chunkSize disk a) =
      some ((keptDocids ids rows.length).map fun docid => embed (rowAt rows docid).2, keptDocids ids rows.length) := by
  rw [writeSubset_eq ids hrows] at hwrite
  split at hwrite
  · rename_i hknown
    obtain rfl := Except.ok.inj hwrite
    rw [loadSubsetTexts_streamed ids hrows, Option.some.injEq, Prod.mk.injEq] at hload
    have htexts : a.texts = a.loadedTexts := by rw [Attempt.texts, hlimit]; rfl
    have hdocids : a.docids = a.loadedDocids := by rw [Attempt.docids, hlimit]; rfl
    have hpair := attempt_finished embed zero disk hchunk hfinished
    rw [htexts, hdocids, ← hload.1, ← hload.2, List.map_map] at hpair
    have hlength : (keptDocids ids rows.length).length = ids.card := by
      rw [length_keptDocids, Finset.inter_eq_left.mpr hknown]
    refine ⟨hknown, loadPair_eq_some_iff.mpr ⟨⟨congrArg Prod.fst hpair, ?_⟩, ?_, hlength⟩⟩
    · rw [savedDocids, show (attempt embed zero chunkSize disk a).docids = _ from congrArg Prod.snd hpair]
    · rw [List.length_map, hlength]
  · cases hwrite

/-- From the corpus to the dense run: each query with judgments is answered with a
best selection of the whole subset, in which every judged passage takes part. -/
theorem dense_channel_exact [Preorder S] {choice : List Nat → Nat → Option (List Nat)} (hchoice : Draws choice)
    {rows : List (Text × Text)} (hrows : Sequential rows) {qrelsSets : List (Qrels Text Text)} {qrelsIds ids : Finset Nat}
    (hunion : qrelsDocidUnion qrelsSets = some qrelsIds) {subsetSize : Nat}
    (hselect : selectSubsetIds choice qrelsIds rows.length subsetSize = .ok ids) {w : Written}
    (hwrite : writeSubset ids rows = .ok w) (embed : Text → V) (zero : V) {chunkSize : Nat} (hchunk : 0 < chunkSize)
    (disk : Disk V) {a : Attempt} (hload : loadSubsetTexts (writeText w.jsonl) = some (a.loadedTexts, a.loadedDocids))
    (hlimit : a.limit = none) (hfinished : a.Finished chunkSize) {ip : V → V → S} (hexact : flat.Exact ip)
    (hround : Monotone flat.round6) {k : Nat} (hk : k ≤ subsetSize) (querySets : List (Dict Text Text)) :
    ∃ index docids results,
      loadPair subsetSize (attempt embed zero chunkSize disk a) = some (index, docids) ∧
      flat.groundTruth embed index docids k querySets = some results ∧
      docids.toFinset = ids ∧
      (∀ qrels ∈ qrelsSets, ∀ judgments ∈ qrels.values, ∀ docid ∈ judgments, ∃ id ∈ docids, parseInt docid = some id) ∧
      ∀ qid,
        (qid ∈ denseRun results qrelsSets ↔
          (∃ qrels ∈ qrelsSets, qid ∈ qrels) ∧ ∃ queries ∈ querySets, qid ∈ queries) ∧
        ∀ channel, (denseRun results qrelsSets).get? qid = some channel →
          ∃ before queries, LastOf (fun queries : Dict Text Text => qid ∈ queries) (qid ∉ ·) querySets before queries ∧
            Nearest flat ip (fun docid => embed (rowAt rows docid).2) docids k (queryVector embed qid queries) channel := by
  have hselected : Selected qrelsIds rows.length subsetSize ids := by
    rcases selectSubsetIds_cases hchoice qrelsIds rows.length subsetSize with
      ⟨-, herror⟩ | ⟨-, -, herror⟩ | ⟨-, -, ids', hids', hselected⟩
    · rw [herror] at hselect
      cases hselect
    · rw [herror] at hselect
      cases hselect
    · rwa [Except.ok.inj (hselect.symm.trans hids')]
  obtain ⟨hknown, hpair⟩ := loadPair_finished hrows hwrite embed zero hchunk disk hload hlimit hfinished
  have hwhole : (keptDocids ids rows.length).toFinset = ids :=
    (toFinset_keptDocids ids rows.length).trans (Finset.inter_eq_left.mpr hknown)
  have hnodup : (keptDocids ids rows.length).Nodup := List.nodup_range.filter _
  have hlength : k ≤ (keptDocids ids rows.length).length := by
    rwa [← List.toFinset_card_of_nodup hnodup, hwhole, hselected.size]
  rw [hselected.size] at hpair
  obtain ⟨results, hresults, hspec⟩ := groundTruth_spec (fun docid => embed (rowAt rows docid).2) embed hexact hlength
    querySets
  refine ⟨_, _, results, hpair, hresults, hwhole, ?_, fun qid => ⟨?_, fun channel hchannel => ?_⟩⟩
  · intro qrels hqrels judgments hjudgments docid hdocid
    obtain ⟨id, hid, hparse⟩ := mem_qrelsDocidUnion hunion hqrels hjudgments hdocid
    refine ⟨id, ?_, hparse⟩
    rw [← List.mem_toFinset, hwhole]
    exact hselected.judged hid
  · have hasked : (∃ before queries, LastOf (fun queries : Dict Text Text => qid ∈ queries) (qid ∉ ·) querySets before queries) ↔
        ∃ queries ∈ querySets, qid ∈ queries := exists_lastOf
    rw [mem_denseRun, ← hasked, ← Dict.get?_isSome_iff, Option.isSome_iff_exists]
    refine and_congr_right fun _ => ⟨?_, ?_⟩
    · rintro ⟨hits, hhits⟩
      obtain ⟨before, queries, hlast, -⟩ := (hspec qid hits).mp hhits
      exact ⟨before, queries, hlast⟩
    · rintro ⟨before, queries, hlast⟩
      exact ⟨_, (hspec qid _).mpr ⟨before, queries, hlast, rfl⟩⟩
  · rw [get?_denseRun, Option.ite_none_right_eq_some, Option.map_eq_some_iff] at hchannel
    obtain ⟨-, hits, hhits, rfl⟩ := hchannel
    obtain ⟨before, queries, hlast, rfl⟩ := (hspec qid hits).mp hhits
    exact ⟨before, queries, hlast, nearest_channelOf hexact hround hnodup hlength _⟩

/-- Inner products of numbers, the largest first. -/
def largestFirst : Flat Nat Nat where
  search index query k := ((products (· * ·) index query).insertionSort fun a b => b.1 ≤ a.1).take k
  round6 score := score

theorem largestFirst_exact : largestFirst.Exact (· * ·) := by
  intro index query k hk
  have hperm := List.perm_insertionSort (fun a b : Nat × Int => b.1 ≤ a.1) (products (· * ·) index query)
  have hlength : (products (· * ·) index query).length = index.length := by simp [products]
  have hsorted : ((products (· * ·) index query).insertionSort fun a b => b.1 ≤ a.1).Pairwise fun a b => b.1 ≤ a.1 := by
    have htotal : Std.Total fun a b : Nat × Int => b.1 ≤ a.1 := ⟨fun a b => Nat.le_total b.1 a.1⟩
    have htrans : IsTrans (Nat × Int) fun a b => b.1 ≤ a.1 := ⟨fun _ _ _ hab hbc => Nat.le_trans hbc hab⟩
    exact List.pairwise_insertionSort _ _
  refine ⟨?_, _, hperm.symm.trans (List.Perm.of_eq (List.take_append_drop k _).symm), ?_⟩
  · exact List.length_take.trans (congrArg (min k) hperm.length_eq)
  · rw [← List.take_append_drop k ((products (· * ·) index query).insertionSort fun a b => b.1 ≤ a.1)] at hsorted
    exact (List.pairwise_append.mp hsorted).2.2

/-- One query, for which the last of three passages is judged. -/
def oneJudged : Qrels Text Text := ⟨[(['q'], ⟨[(['2'], 1)], by decide⟩)], by decide⟩

def oneQuery : Dict Text Text := ⟨[(['q'], ['x'])], by decide⟩

/-- The judged passage and the first one. -/
def twoSelected : Finset Nat := {2, 0}

def twoAttempt : Attempt := ⟨[['a', '"'], ['é']], [0, 2], rfl, none, 9⟩

theorem dense_channel_exact_two :
    ∃ index docids results,
      loadPair 2 (attempt List.length 0 1 emptyDisk twoAttempt) = some (index, docids) ∧
      largestFirst.groundTruth List.length index docids 1 [oneQuery] = some results ∧
      docids.toFinset = twoSelected ∧ ['q'] ∈ denseRun results [oneJudged] := by
  have hunion : qrelsDocidUnion [oneJudged] = some {2} := by decide
  have hselect : selectSubsetIds firstOnes {2} threePassages.length 2 = .ok twoSelected := rfl
  have hwrite : writeSubset twoSelected threePassages = .ok (streamed twoSelected threePassages) := by
    rw [writeSubset_eq _ sequential_threePassages, if_pos (by decide)]
  have hload : loadSubsetTexts (writeText (streamed twoSelected threePassages).jsonl) =
      some (twoAttempt.loadedTexts, twoAttempt.loadedDocids) := by
    rw [loadSubsetTexts_streamed _ sequential_threePassages]
    rfl
  obtain ⟨index, docids, results, hpair, hresults, hwhole, -, hrun⟩ := dense_channel_exact largestFirst draws_firstOnes
    sequential_threePassages hunion hselect hwrite List.length 0 Nat.one_pos emptyDisk hload rfl
    (by unfold Attempt.Finished; decide) largestFirst_exact monotone_id (show 1 ≤ 2 by decide)
    [oneQuery]
  refine ⟨index, docids, results, hpair, hresults, hwhole, ((hrun ['q']).1).mpr ?_⟩
  exact ⟨⟨oneJudged, List.mem_cons_self, by decide⟩, oneQuery, List.mem_cons_self, by decide⟩

end CascadeSearch.Dense.GroundTruth
