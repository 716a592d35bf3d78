import CascadeSearch.Query.Dictionary
import CascadeSearch.Query.PruningSafety

/-!
# Retrieval against the text of the corpus

The answer to a query is stated from the analyzed text alone, and a search on
an index that represents the corpus returns it.
-/
namespace CascadeSearch.Query.Retrieval

open Lib.RoundedSum Lib.Ranking
open Index.Format Index.Analyzer Index.Corpus Index.Inverted Index.Blocks
open Index.Builder Index.MergePass
open Lib.Loop
open Cursor Heap Reader Evaluate Pruning PruningSafety Search Opened Dictionary

def documentFrequency (docs : List Document) (term : Str) : Nat := docs.countP fun d => term ∈ termsOf d

def totalLength (docs : List Document) : Nat := (docs.map fun d => (termsOf d).length).sum

/-- The document has a term of the query. -/
def shares (query : Str) (d : Document) : Bool := (analyze query).any fun term => term ∈ termsOf d

section Answer

variable {S : Type}

/-- What one term adds to the score of a document that contains it. -/
def contribution (bm25 : Bm25 S) (docs : List Document) (d : Document) (term : Str) : S :=
  bm25.bm25TermScore (bm25.bm25Idf docs.length (documentFrequency docs term)) ((termsOf d).count term)
    (termsOf d).length (bm25.avgDl (totalLength docs) docs.length)

/-- The first `k` of all documents that share a term with the query: the best
score first, then the smallest docid. -/
def answer [LinearOrder S] (score : Document → S) (docs : List Document) (query : Str) (k : Nat) : List (Result S) :=
  (((docs.zipIdx.filter fun (d, _) => shares query d).map fun (d, docid) =>
    (⟨docid, score d⟩ : Result S)).insertionSort Result.Ranks).take k

end Answer

/-- The score in exact arithmetic, where the order of the terms is no matter. -/
def exactScore (bm25 : Bm25 ℚ) (docs : List Document) (query : Str) (d : Document) : ℚ :=
  ∑ term ∈ (analyze query).toFinset with term ∈ termsOf d, contribution bm25 docs d term

theorem unique_sorted {terms : List Str} (h : terms.Pairwise (· ≤ ·)) :
    (unique terms).Pairwise (· < ·) ∧ ∀ term, term ∈ unique terms ↔ term ∈ terms := by
  induction terms using unique.induct with
  | case1 => exact ⟨List.Pairwise.nil, fun term => Iff.rfl⟩
  | case2 term => exact ⟨List.pairwise_singleton _ _, fun t => Iff.rfl⟩
  | case3 next terms ih =>
    obtain ⟨hlt, hmem⟩ := ih (List.pairwise_cons.mp h).2
    rw [unique, if_pos rfl]
    refine ⟨hlt, fun term => ?_⟩
    rw [hmem, List.mem_cons (a := term) (b := next) (l := next :: terms)]
    exact ⟨Or.inr, fun h => h.elim (fun heq => heq ▸ List.mem_cons_self) id⟩
  | case4 term next terms hne ih =>
    obtain ⟨hle, hrest⟩ := List.pairwise_cons.mp h
    obtain ⟨hlt, hmem⟩ := ih hrest
    rw [unique, if_neg hne]
    refine ⟨List.pairwise_cons.mpr ⟨fun t ht => ?_, hlt⟩, fun t => ?_⟩
    · have hnext : term < next := lt_of_le_of_ne (hle next List.mem_cons_self) hne
      rcases List.mem_cons.mp ((hmem t).mp ht) with rfl | ht
      · exact hnext
      · exact hnext.trans_le ((List.pairwise_cons.mp hrest).1 t ht)
    · rw [List.mem_cons, hmem, List.mem_cons (b := term)]

theorem queryTerms_ascending (query : Str) : (queryTerms query).Pairwise (· < ·) :=
  (unique_sorted (List.pairwise_insertionSort _ _)).1

theorem mem_queryTerms {query term : Str} : term ∈ queryTerms query ↔ term ∈ analyze query := by
  rw [queryTerms, (unique_sorted (List.pairwise_insertionSort _ _)).2]
  exact (List.perm_insertionSort _ _).mem_iff

/-- The query terms that the corpus has, in the order of the cursors. -/
def knownTerms (docs : List Document) (query : Str) : List Str :=
  (queryTerms query).filter (· ∈ vocabulary docs)

section Sources

variable {S : Type} [LinearOrder S] {bm25 : Bm25 S} {docs : List Document} {ix : Index S}

/-- A source delivers the postings of its term, under bounds that hold. -/
structure SourceOf (bm25 : Bm25 S) (docs : List Document) (t : PostingSource S) (term : Str) : Prop where
  all : t.all = postings docs term
  wellFormed : t.WellFormed
  idf : t.idf = bm25.bm25Idf docs.length (postings docs term).length
  block : ∀ i < t.numBlocks, ∀ p ∈ t.blockPostings i,
    impact (statsOf bm25 docs) (postings docs term).length p ≤ (t.blocks i).maxImpact
  term : ∀ i < t.numBlocks, (t.blocks i).maxImpact ≤ t.maxImpact

theorem exists_term {sources : List (PostingSource S)} {terms : List Str}
    (h : List.Forall₂ (SourceOf bm25 docs) sources terms) {t : PostingSource S} (ht : t ∈ sources) :
    ∃ term ∈ terms, SourceOf bm25 docs t term := by
  obtain ⟨i, hi, rfl⟩ := List.mem_iff_getElem.mp ht
  exact ⟨_, List.getElem_mem (h.length_eq ▸ hi), List.Forall₂.get h hi (h.length_eq ▸ hi)⟩

theorem exists_source {sources : List (PostingSource S)} {terms : List Str}
    (h : List.Forall₂ (SourceOf bm25 docs) sources terms) {term : Str} (hterm : term ∈ terms) :
    ∃ t ∈ sources, SourceOf bm25 docs t term := by
  obtain ⟨i, hi, rfl⟩ := List.mem_iff_getElem.mp hterm
  exact ⟨_, List.getElem_mem (h.length_eq ▸ hi), List.Forall₂.get h (h.length_eq ▸ hi) hi⟩

theorem containing_iff {t : PostingSource S} {term : Str} (hsource : SourceOf bm25 docs t term) {docid : Nat}
    {d : Document} (hd : docs[docid]? = some d) : (entry t docid).isSome = true ↔ term ∈ termsOf d := by
  rw [entry_isSome, hsource.all]
  constructor
  · rintro ⟨p, hp, rfl⟩
    obtain ⟨d', hd', hterm, -⟩ := mem_postings.mp hp
    rw [hd] at hd'
    cases hd'
    exact hterm
  · intro hterm
    exact ⟨⟨docid, (termsOf d).count term⟩, mem_postings.mpr ⟨d, hd, hterm, rfl⟩, rfl⟩

variable [Zero S]

theorem sourceOf_pointsAt (hfits : FitsFormat docs) (hix : Represents bm25 docs ix) {record : TermRecord S}
    {term : Str} (hterm : term ∈ vocabulary docs) (h : PointsAt bm25 docs ix record term) (addr : Nat) :
    SourceOf bm25 docs (sourceFor ix record addr) term := by
  have hpayload : (encode (impact (statsOf bm25 docs) (postings docs term).length) (postings docs term)).2.length
      ≤ 2 ^ 32 := by
    rw [(encode_shape _ (fun _ => (0 : Nat)) _).2]
    exact hfits.payload term hterm
  have hdocid : ∀ p ∈ postings docs term, p.docid < kNoDocid := by
    intro p hp
    have hlt := (hfits.posting_lt hp).1
    have hcount := hfits.docCount
    unfold kNoDocid
    omega
  obtain ⟨hall, hwf, hblock, hmax⟩ := (h.reads addr).spec hdocid (fun p hp => (hfits.posting_lt hp).2) hpayload
    postings_ascending
  refine ⟨hall, hwf, ?_, hblock, fun i hi => ?_⟩
  · change ix.bm25.bm25Idf ix.docCount record.df = _
    rw [hix.scoring, hix.docCount, h.df]
  · change _ ≤ record.maxImpact
    rw [h.maxImpact]
    exact hmax i hi

theorem found_records (hix : Represents bm25 docs ix) (terms : List Str) :
    List.Forall₂ (PointsAt bm25 docs ix) (terms.filterMap ix.findTerm) (terms.filter (· ∈ vocabulary docs)) := by
  induction terms with
  | nil => exact List.Forall₂.nil
  | cons term terms ih =>
    rw [List.filterMap_cons, List.filter_cons]
    by_cases hterm : term ∈ vocabulary docs
    · obtain ⟨record, hfound, hpoints⟩ := findTerm_of_mem hix hterm
      rw [hfound, if_pos (decide_eq_true hterm)]
      exact List.Forall₂.cons hpoints ih
    · rw [findTerm_of_notMem hix hterm, if_neg (by simpa using hterm)]
      exact ih

theorem sourcesFor_of (hfits : FitsFormat docs) (hix : Represents bm25 docs ix) (query : Str) :
    List.Forall₂ (SourceOf bm25 docs) (sourcesFor ix query) (knownTerms docs query) := by
  have hrecords := found_records hix (queryTerms query)
  have hlen := hrecords.length_eq
  apply List.forall₂_iff_get.mpr
  refine ⟨by rw [sourcesFor, List.length_mapIdx]; exact hlen, fun i hi hi' => ?_⟩
  have hrec : i < ((queryTerms query).filterMap ix.findTerm).length := by rwa [hlen]
  have hpoints := List.Forall₂.get hrecords hrec hi'
  have hmem : (knownTerms docs query).get ⟨i, hi'⟩ ∈ vocabulary docs := by
    have hknown := (List.mem_filter.mp (List.get_mem (knownTerms docs query) ⟨i, hi'⟩)).2
    exact of_decide_eq_true hknown
  have hget : (sourcesFor ix query).get ⟨i, hi⟩ =
      sourceFor ix (((queryTerms query).filterMap ix.findTerm).get ⟨i, hrec⟩) i := List.getElem_mapIdx
  rw [hget]
  exact sourceOf_pointsAt hfits hix hmem hpoints i

theorem sources_wellFormed (hfits : FitsFormat docs) (hix : Represents bm25 docs ix) (query : Str) :
    WellFormed (sourcesFor ix query) where
  source t ht := by
    obtain ⟨term, -, hsource⟩ := exists_term (sourcesFor_of hfits hix query) ht
    exact hsource.wellFormed
  addrs := by
    apply List.pairwise_iff_getElem.mpr
    intro i j hi hj hlt
    simp only [sourcesFor, List.getElem_mapIdx]
    exact hlt

/-- The matching documents are those that share a term with the query. -/
theorem mem_matching_iff (hfits : FitsFormat docs) (hix : Represents bm25 docs ix) {query : Str} {docid : Nat} :
    docid ∈ matching (sourcesFor ix query) ↔ ∃ d, docs[docid]? = some d ∧ shares query d = true := by
  have hsources := sourcesFor_of hfits hix query
  rw [mem_matching]
  constructor
  · rintro ⟨t, ht, p, hp, rfl⟩
    obtain ⟨term, hterm, hsource⟩ := exists_term hsources ht
    rw [hsource.all] at hp
    obtain ⟨d, hd, hmem, -⟩ := mem_postings.mp hp
    refine ⟨d, hd, List.any_eq_true.mpr ⟨term, ?_, decide_eq_true hmem⟩⟩
    exact mem_queryTerms.mp (List.mem_filter.mp hterm).1
  · rintro ⟨d, hd, hshares⟩
    obtain ⟨term, hterm, hmem⟩ := List.any_eq_true.mp hshares
    have hin := of_decide_eq_true hmem
    have hvoc : term ∈ vocabulary docs := mem_vocabulary.mpr ⟨d, List.mem_of_getElem? hd, hin⟩
    have hknown : term ∈ knownTerms docs query :=
      List.mem_filter.mpr ⟨mem_queryTerms.mpr hterm, decide_eq_true hvoc⟩
    obtain ⟨t, ht, hsource⟩ := exists_source hsources hknown
    refine ⟨t, ht, ⟨docid, (termsOf d).count term⟩, ?_, rfl⟩
    rw [hsource.all]
    exact mem_postings.mpr ⟨d, hd, hin, rfl⟩

theorem length_postings (docs : List Document) (term : Str) :
    (postings docs term).length = documentFrequency docs term := by
  induction docs using List.reverseRecOn with
  | nil => rfl
  | append_singleton docs d ih =>
    rw [postings_concat, List.length_append, ih, documentFrequency, documentFrequency, List.countP_append, occurrence]
    congr 1
    by_cases hterm : term ∈ termsOf d
    · rw [if_pos hterm, List.countP_singleton, if_pos (decide_eq_true hterm), Option.toList_some, List.length_singleton]
    · rw [if_neg hterm, List.countP_singleton, if_neg (by simpa using hterm)]
      rfl

/-- What a source gives a document is what the text says of its term. -/
theorem sourceScore_eq (hix : Represents bm25 docs ix) {t : PostingSource S} {term : Str}
    (hsource : SourceOf bm25 docs t term) {docid : Nat} {d : Document} (hd : docs[docid]? = some d)
    (hterm : term ∈ termsOf d) : sourceScore ix docid t = contribution bm25 docs d term := by
  have hp : (⟨docid, (termsOf d).count term⟩ : Posting) ∈ t.all := by
    rw [hsource.all]
    exact mem_postings.mpr ⟨d, hd, hterm, rfl⟩
  rw [sourceScore, entry_eq hsource.wellFormed hp rfl]
  change ix.bm25.bm25TermScore t.idf ((termsOf d).count term) (ix.docLengths docid) ix.avgDl = _
  rw [hix.scoring, hix.docLengths docid d hd, hix.avgDl, hsource.idf, length_postings]
  rfl

/-- The scores the cursors contribute, in the order of the query terms. -/
theorem map_sourceScore (hix : Represents bm25 docs ix) {docid : Nat} {d : Document} (hd : docs[docid]? = some d)
    {sources : List (PostingSource S)} {terms : List Str} (h : List.Forall₂ (SourceOf bm25 docs) sources terms) :
    (containing sources docid).map (sourceScore ix docid) =
      (terms.filter (· ∈ termsOf d)).map (contribution bm25 docs d) := by
  induction h with
  | nil => rfl
  | @cons t term sources terms hsource _ ih =>
    rw [containing, List.filter_cons, List.filter_cons]
    change (if _ then _ :: containing sources docid else containing sources docid).map _ = _
    by_cases hterm : term ∈ termsOf d
    · rw [if_pos ((containing_iff hsource hd).mpr hterm), if_pos (decide_eq_true hterm), List.map_cons, List.map_cons,
        ih, sourceScore_eq hix hsource hd hterm]
    · rw [if_neg (mt (containing_iff hsource hd).mp hterm), if_neg (by simpa using hterm), ih]

variable [Add S]

/-- The score in the order in which the cursors add it up. -/
def accumulated (bm25 : Bm25 S) (docs : List Document) (query : Str) (d : Document) : S :=
  sum (((queryTerms query).filter (· ∈ termsOf d)).map (contribution bm25 docs d))

theorem docScore_eq (hfits : FitsFormat docs) (hix : Represents bm25 docs ix) (query : Str) {docid : Nat}
    {d : Document} (hd : docs[docid]? = some d) :
    docScore ix (sourcesFor ix query) docid = accumulated bm25 docs query d := by
  have hknown : (knownTerms docs query).filter (· ∈ termsOf d) = (queryTerms query).filter (· ∈ termsOf d) := by
    rw [knownTerms, List.filter_filter]
    apply List.filter_congr
    intro term _
    by_cases hterm : term ∈ termsOf d
    · have hvoc : term ∈ vocabulary docs := mem_vocabulary.mpr ⟨d, List.mem_of_getElem? hd, hterm⟩
      simp [hterm, hvoc]
    · simp [hterm]
  rw [docScore, map_sourceScore hix hd (sourcesFor_of hfits hix query), hknown, accumulated]

/-- The reference answer on the cursors is the answer on the text. -/
theorem ranked_eq_answer (hfits : FitsFormat docs) (hix : Represents bm25 docs ix) (query : Str) (k : Nat) :
    ranked ix (sourcesFor ix query) k = answer (accumulated bm25 docs query) docs query k := by
  rw [ranked, answer]
  congr 1
  apply insertionSort_eq_of_perm
  have hdocs : ∀ e ∈ docs.zipIdx.filter (fun (d, _) => shares query d), docs[e.2]? = some e.1 := by
    intro e he
    exact List.mem_zipIdx_iff_getElem?.mp (List.mem_filter.mp he).1
  have hperm : (matching (sourcesFor ix query)).Perm
      ((docs.zipIdx.filter fun (d, _) => shares query d).map Prod.snd) := by
    apply (List.perm_ext_iff_of_nodup (List.nodup_dedup _) ?_).mpr
    · intro docid
      refine (mem_matching_iff hfits hix).trans (Iff.trans ?_ List.mem_map.symm)
      constructor
      · rintro ⟨d, hd, hshares⟩
        exact ⟨(d, docid), List.mem_filter.mpr ⟨List.mem_zipIdx_iff_getElem?.mpr hd, hshares⟩, rfl⟩
      · rintro ⟨⟨d, docid⟩, he, rfl⟩
        exact ⟨d, hdocs _ he, (List.mem_filter.mp he).2⟩
    · have hnodup : (docs.zipIdx.map Prod.snd).Nodup := by
        rw [List.zipIdx_map_snd]
        exact List.nodup_range'
      exact hnodup.sublist (List.filter_sublist.map Prod.snd)
  have hmap := hperm.map (scored ix (sourcesFor ix query))
  rw [List.map_map] at hmap
  refine hmap.trans (List.Perm.of_eq (List.map_congr_left fun e he => ?_))
  change (⟨e.2, docScore ix (sourcesFor ix query) e.2⟩ : Result S) = ⟨e.2, _⟩
  rw [docScore_eq hfits hix query (hdocs e he)]

end Sources

end CascadeSearch.Query.Retrieval
