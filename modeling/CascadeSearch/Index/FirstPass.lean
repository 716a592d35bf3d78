import CascadeSearch.Index.Builder

/-!
# What pass 1 leaves behind

Whatever the capacity, the flushed segments and the one in memory hold, taken
in order, the postings of every term. Counters are followed through their
wraps, so nothing is assumed about the size of the corpus.
-/
namespace CascadeSearch.Index.FirstPass

open Lib.KWayMerge
open Format Analyzer Corpus Inverted Segment Builder

theorem countTerms_concat (terms : List Str) (term : Str) :
    countTerms (terms ++ [term]) =
      (countTerms terms).insert term (u32 ((countTerms terms).getD term 0 + 1)) := by
  rw [countTerms, List.foldl_append]
  rfl

theorem u32_succ (n : Nat) : u32 (u32 n + 1) = u32 (n + 1) := Nat.mod_add_mod n _ 1

theorem getElem?_countTerms (terms : List Str) (term : Str) :
    (countTerms terms)[term]? = if term ∈ terms then some (u32 (terms.count term)) else none := by
  induction terms using List.reverseRecOn with
  | nil => exact Std.HashMap.getElem?_empty
  | append_singleton terms last ih =>
    rw [countTerms_concat, Std.HashMap.getElem?_insert]
    by_cases h : last = term
    · have hold : (countTerms terms).getD last 0 = u32 (terms.count last) := by
        rw [h, Std.HashMap.getD_eq_getD_getElem?, ih]
        split
        · rfl
        · rename_i hmem
          rw [List.count_eq_zero_of_not_mem hmem]
          rfl
      rw [if_pos (beq_iff_eq.mpr h), hold, u32_succ, h, List.count_append, List.count_singleton_self]
      rw [if_pos (List.mem_append_right _ List.mem_cons_self)]
    · have hmem : term ∈ terms ++ [last] ↔ term ∈ terms := by
        rw [List.mem_append, List.mem_singleton]
        exact or_iff_left (Ne.symm h)
      have hcount : (terms ++ [last]).count term = terms.count term := by
        rw [List.count_append, List.count_singleton, if_neg (by simpa using h), Nat.add_zero]
      rw [if_neg (by simpa using h), ih, hcount]
      exact if_congr hmem.symm rfl rfl

/-- The order in which a hash table delivers its entries does not show. -/
theorem getD_addPostings (docid : Nat) (term : Str) (termFreqs : List (Str × Nat)) :
    ∀ segment : SortedMap Str Posting, (addPostings docid termFreqs segment).getD term [] =
      segment.getD term [] ++ (termFreqs.filter (·.1 = term)).map fun e => ⟨docid, e.2⟩ := by
  induction termFreqs with
  | nil =>
    intro segment
    rw [List.filter_nil, List.map_nil, List.append_nil]
    rfl
  | cons e termFreqs ih =>
    intro segment
    rw [addPostings, List.foldl_cons]
    change (addPostings docid termFreqs _).getD term [] = _
    rw [ih, SortedMap.getD_pushBack, List.append_assoc, List.filter_cons]
    by_cases h : e.1 = term
    · rw [if_pos h, if_pos (decide_eq_true h)]
      rfl
    · rw [if_neg h, if_neg (by simpa using h)]
      rfl

theorem mem_addPostings {docid : Nat} {term : Str} {termFreqs : List (Str × Nat)} :
    ∀ {segment : SortedMap Str Posting},
      term ∈ addPostings docid termFreqs segment ↔ (∃ tf, (term, tf) ∈ termFreqs) ∨ term ∈ segment := by
  induction termFreqs with
  | nil =>
    intro segment
    simp [addPostings]
  | cons e termFreqs ih =>
    intro segment
    rw [addPostings, List.foldl_cons]
    change term ∈ addPostings docid termFreqs _ ↔ _
    rw [ih, SortedMap.mem_pushBack]
    constructor
    · rintro (⟨tf, h⟩ | rfl | h)
      · exact Or.inl ⟨tf, List.mem_cons_of_mem _ h⟩
      · exact Or.inl ⟨_, List.mem_cons_self⟩
      · exact Or.inr h
    · rintro (⟨tf, h⟩ | h)
      · rcases List.mem_cons.mp h with rfl | h
        · exact Or.inr (Or.inl rfl)
        · exact Or.inl ⟨tf, h⟩
      · exact Or.inr (Or.inr h)

/-- A posting after its numbers have passed through `uint32_t`. -/
def wrap (p : Posting) : Posting := ⟨u32 p.docid, u32 p.tf⟩

theorem wrap_of_lt {p : Posting} (hd : p.docid < 2 ^ 32) (ht : p.tf < 2 ^ 32) : wrap p = p := by
  rw [wrap, u32_of_lt hd, u32_of_lt ht]

theorem filter_key_eq {α : Type} {entries : List (Str × α)} {e : Str × α}
    (hdistinct : entries.Pairwise fun a b => (a.1 == b.1) = false) (he : e ∈ entries) :
    entries.filter (·.1 = e.1) = [e] := by
  induction entries with
  | nil => cases he
  | cons first entries ih =>
    obtain ⟨hfirst, hrest⟩ := List.pairwise_cons.mp hdistinct
    rw [List.filter_cons]
    rcases List.mem_cons.mp he with rfl | he
    · have hnone : entries.filter (·.1 = e.1) = [] := by
        rw [List.filter_eq_nil_iff]
        intro a ha heq
        have hne := hfirst a ha
        rw [beq_eq_false_iff_ne] at hne
        exact hne (of_decide_eq_true heq).symm
      rw [if_pos (decide_eq_true rfl), hnone]
    · have hne := hfirst e he
      rw [beq_eq_false_iff_ne] at hne
      rw [if_neg (by simpa using hne), ih hrest he]

/-- The entries for one term among the counted terms of a document. -/
theorem filter_countTerms (d : Document) (docid : Nat) (term : Str) :
    ((countTerms (termsOf d)).toList.filter (·.1 = term)).map (fun e => (⟨u32 docid, e.2⟩ : Posting)) =
      (occurrence term (d, docid)).toList.map wrap := by
  have hget := getElem?_countTerms (termsOf d) term
  rw [occurrence]
  split at hget
  · rename_i hmem
    rw [if_pos hmem]
    have he := Std.HashMap.mem_toList_iff_getElem?_eq_some.mpr hget
    have honly : (countTerms (termsOf d)).toList.filter (·.1 = term) = [(term, u32 ((termsOf d).count term))] :=
      filter_key_eq Std.HashMap.distinct_keys_toList he
    rw [honly]
    rfl
  · rename_i hmem
    rw [if_neg hmem]
    have hnone : (countTerms (termsOf d)).toList.filter (·.1 = term) = [] := by
      rw [List.filter_eq_nil_iff]
      rintro ⟨t, tf⟩ he heq
      rw [Std.HashMap.mem_toList_iff_getElem?_eq_some, show t = term from of_decide_eq_true heq, hget] at he
      cases he
    rw [hnone]
    rfl

/-- Where the external id of document `i` starts, and that of `i - 1` ends. -/
def idOffset (docs : List Document) (i : Nat) : Nat := ((docs.take i).flatMap Document.externalId).length

/-- What does not depend on the segments. -/
structure Counts (docs : List Document) (s : Pass1) : Prop where
  docid : s.docid = u32 docs.length
  docLengths : s.docLengths = docs.map fun d => u32 (termsOf d).length
  docidsBlob : s.docidsBlob = docs.flatMap Document.externalId
  docidOffsets : s.docidOffsets = (List.range (docs.length + 1)).map (idOffset docs)

/-- Flushed tables and the segment in memory, in order, hold the postings. -/
structure Holds (docs : List Document) (tables : List (Table Str Posting))
    (segment : SortedMap Str Posting) : Prop where
  ascending : ∀ table ∈ tables, Ascending table
  nonempty : ∀ table ∈ tables, ∀ e ∈ table, e.2 ≠ []
  live : ∀ term ∈ segment, segment.getD term [] ≠ []
  concat : ∀ term, tables.flatMap (valuesAt term) ++ segment.getD term [] = (postings docs term).map wrap

/-- No segment has a term in more documents than a segment takes. -/
structure Bounded (capacity docsInSegment : Nat) (tables : List (Table Str Posting))
    (segment : SortedMap Str Posting) : Prop where
  flushed : ∀ table ∈ tables, ∀ e ∈ table, e.2.length ≤ capacity
  live : ∀ term, (segment.getD term []).length ≤ docsInSegment

def Inv (capacity : Nat) (docs : List Document) (s : Pass1) : Prop :=
  Counts docs s ∧ s.docsInSegment < capacity ∧ ∃ tables, s.segments = tables.map flushSegment ∧
    Holds docs tables s.segment ∧ Bounded capacity s.docsInSegment tables s.segment

variable {capacity docsInSegment : Nat} {docs : List Document} {s : Pass1} {d : Document} {tables : List (Table Str Posting)}
  {segment : SortedMap Str Posting}

theorem Holds.flushed (h : Holds docs tables segment) : Holds docs (tables ++ [segment.toList]) ∅ where
  ascending table htable := by
    rcases List.mem_append.mp htable with htable | htable
    · exact h.ascending table htable
    · rw [List.mem_singleton.mp htable]
      exact segment.toList_ascending
  nonempty table htable e he := by
    rcases List.mem_append.mp htable with htable | htable
    · exact h.nonempty table htable e he
    · rw [List.mem_singleton.mp htable] at he
      obtain ⟨hmem, hvalues⟩ := SortedMap.mem_toList.mp he
      rw [← hvalues]
      exact h.live e.1 hmem
  live term hterm := absurd hterm Std.TreeMap.not_mem_emptyc
  concat term := by
    rw [List.flatMap_append, List.flatMap_singleton, SortedMap.valuesAt_toList, h.concat,
      Std.TreeMap.getD_emptyc, List.append_nil]

theorem Holds.added (h : Holds docs tables segment) :
    Holds (docs ++ [d]) tables (addPostings (u32 docs.length) (countTerms (analyze d.text)).toList segment) where
  ascending := h.ascending
  nonempty := h.nonempty
  live term hterm := by
    rw [getD_addPostings]
    rcases mem_addPostings.mp hterm with ⟨tf, htf⟩ | hold
    · intro hnil
      have hmap := (List.append_eq_nil_iff.mp hnil).2
      have hnone := List.filter_eq_nil_iff.mp (List.map_eq_nil_iff.mp hmap) _ htf
      exact hnone (decide_eq_true rfl)
    · exact fun hnil => h.live term hold (List.append_eq_nil_iff.mp hnil).1
  concat term := by
    rw [getD_addPostings, ← List.append_assoc, h.concat, postings_concat, List.map_append]
    exact congrArg _ (filter_countTerms d docs.length term)

theorem Counts.added (h : Counts docs s) :
    Counts (docs ++ [d]) { s with
      docidsBlob := s.docidsBlob ++ d.externalId
      docidOffsets := s.docidOffsets ++ [(s.docidsBlob ++ d.externalId).length]
      docLengths := s.docLengths ++ [u32 (analyze d.text).length]
      docid := u32 (s.docid + 1) } where
  docid := by
    dsimp only
    rw [h.docid, u32_succ, List.length_append]
    rfl
  docLengths := by
    dsimp only
    rw [h.docLengths, List.map_append]
    rfl
  docidsBlob := by
    dsimp only
    rw [h.docidsBlob, List.flatMap_append, List.flatMap_singleton]
  docidOffsets := by
    dsimp only
    have hrange : List.range ((docs ++ [d]).length + 1) = List.range (docs.length + 1) ++ [docs.length + 1] := by
      rw [List.length_append, List.length_singleton, List.range_succ]
    rw [h.docidOffsets, h.docidsBlob, hrange, List.map_append]
    congr 1
    · apply List.map_congr_left
      intro i hi
      rw [idOffset, idOffset, List.take_append_of_le_length (Nat.lt_succ_iff.mp (List.mem_range.mp hi))]
    · rw [List.map_singleton, idOffset, List.take_of_length_le (by simp), List.flatMap_append,
        List.flatMap_singleton]

theorem Bounded.flush (h : Bounded capacity docsInSegment tables segment) (hle : docsInSegment ≤ capacity) :
    Bounded capacity 0 (tables ++ [segment.toList]) ∅ where
  flushed table htable e he := by
    rcases List.mem_append.mp htable with htable | htable
    · exact h.flushed table htable e he
    · rw [List.mem_singleton.mp htable] at he
      obtain ⟨-, hvalues⟩ := SortedMap.mem_toList.mp he
      rw [← hvalues]
      exact (h.live e.1).trans hle
  live term := by
    rw [Std.TreeMap.getD_emptyc]
    exact le_rfl

theorem Bounded.add (h : Bounded capacity docsInSegment tables segment) (docid : Nat) (d : Document) :
    Bounded capacity (docsInSegment + 1) tables
      (addPostings (u32 docid) (countTerms (analyze d.text)).toList segment) where
  flushed := h.flushed
  live term := by
    have hone : ((occurrence term (d, docid)).toList.map wrap).length ≤ 1 := by
      rw [List.length_map]
      exact Option.length_toList_le
    rw [← filter_countTerms] at hone
    rw [getD_addPostings, List.length_append]
    exact Nat.add_le_add (h.live term) hone

/-- One accepted line. -/
theorem inv_addDocument (h : Inv capacity docs s) : Inv capacity (docs ++ [d]) (addDocument capacity s d) := by
  obtain ⟨hcounts, hlt, tables, hsegments, hholds, hbounded⟩ := h
  have hadded := hholds.added (d := d)
  have hmore := hbounded.add docs.length d
  rw [← hcounts.docid] at hadded hmore
  rw [addDocument]
  dsimp only
  split
  · refine ⟨{ hcounts.added with }, Nat.zero_lt_of_lt hlt, tables ++ [_], ?_, hadded.flushed, hmore.flush hlt⟩
    rw [Builder.flush, List.map_append, hsegments]
    rfl
  · rename_i hroom
    exact ⟨{ hcounts.added with }, not_le.mp hroom, tables, hsegments, hadded, hmore⟩

theorem inv_readCorpus (rest : List Document) :
    ∀ {docs s}, Inv capacity docs s → Inv capacity (docs ++ rest) (readCorpus capacity 0 s rest) := by
  induction rest with
  | nil =>
    intro docs s h
    rwa [List.append_nil]
  | cons d rest ih =>
    intro docs s h
    rw [readCorpus, if_neg fun hmax => hmax.1 rfl, List.append_cons]
    exact ih (inv_addDocument h)

theorem inv_init (hcapacity : 0 < capacity) : Inv capacity [] {} := by
  refine ⟨⟨rfl, rfl, rfl, rfl⟩, hcapacity, [], rfl, ?_, ?_⟩
  · constructor
    · exact fun table htable => absurd htable List.not_mem_nil
    · exact fun table htable => absurd htable List.not_mem_nil
    · exact fun term hterm => absurd hterm Std.TreeMap.not_mem_emptyc
    · intro term
      rw [List.flatMap_nil, List.nil_append]
      exact Std.TreeMap.getD_emptyc
  · constructor
    · exact fun table htable => absurd htable List.not_mem_nil
    · intro term
      rw [Std.TreeMap.getD_emptyc]
      exact le_rfl

/-- Pass 1 as a whole: tables that hold the postings of all documents. -/
theorem pass1_spec (hcapacity : 0 < capacity) (docs : List Document) :
    Counts docs (pass1 capacity 0 docs) ∧
      ∃ tables, (pass1 capacity 0 docs).segments = tables.map flushSegment ∧ Holds docs tables ∅ ∧
        ∀ table ∈ tables, ∀ e ∈ table, e.2.length ≤ capacity := by
  obtain ⟨hcounts, hlt, tables, hsegments, hholds, hbounded⟩ := inv_readCorpus docs (inv_init hcapacity)
  rw [List.nil_append] at hcounts hholds
  rw [pass1]
  split
  · rename_i hempty
    have hnone := Std.TreeMap.isEmpty_iff_forall_not_mem.mp hempty
    refine ⟨hcounts, tables, hsegments, { hholds with live := ?_, concat := ?_ }, hbounded.flushed⟩
    · exact fun term hterm => absurd hterm Std.TreeMap.not_mem_emptyc
    · intro term
      have hconcat := hholds.concat term
      rw [Std.TreeMap.getD_eq_fallback (hnone term)] at hconcat
      rwa [Std.TreeMap.getD_emptyc]
  · refine ⟨{ hcounts with }, tables ++ [_], ?_, hholds.flushed, (hbounded.flush hlt.le).flushed⟩
    rw [Builder.flush, List.map_append, hsegments]
    rfl

theorem Holds.values_eq (h : Holds docs tables ∅) (term : Str) :
    tables.flatMap (valuesAt term) = (postings docs term).map wrap := by
  have hconcat := h.concat term
  rwa [Std.TreeMap.getD_emptyc, List.append_nil] at hconcat

theorem Holds.sublist (h : Holds docs tables ∅) {table : Table Str Posting} (htable : table ∈ tables)
    {e : Str × List Posting} (he : e ∈ table) : e.2.Sublist ((postings docs e.1).map wrap) := by
  rw [← h.values_eq, ← (h.ascending table htable).valuesAt_eq he]
  rw [List.flatMap_def]
  exact List.sublist_flatten_of_mem (List.mem_map_of_mem htable)

theorem Holds.mem_vocabulary (h : Holds docs tables ∅) {table : Table Str Posting} (htable : table ∈ tables)
    {e : Str × List Posting} (he : e ∈ table) : e.1 ∈ vocabulary docs := by
  apply postings_ne_nil_iff.mp
  intro hnil
  have hsub := h.sublist htable he
  rw [hnil] at hsub
  exact h.nonempty table htable e he (List.sublist_nil.mp hsub)

theorem Holds.length_le (h : Holds docs tables ∅) {table : Table Str Posting} (htable : table ∈ tables)
    {e : Str × List Posting} (he : e ∈ table) : e.2.length ≤ docs.length := by
  have hlen := (h.sublist htable he).length_le
  rw [List.length_map] at hlen
  exact hlen.trans (length_postings_le docs e.1)

theorem Holds.entryFits (h : Holds docs tables ∅) (hdf : ∀ table ∈ tables, ∀ e ∈ table, e.2.length < 2 ^ 32)
    {table : Table Str Posting} (htable : table ∈ tables) {e : Str × List Posting} (he : e ∈ table) :
    EntryFits e where
  termLen := by
    obtain ⟨d, -, hterm⟩ := Inverted.mem_vocabulary.mp (h.mem_vocabulary htable he)
    have hlen := length_term_le hterm
    unfold kMaxTokenLength at hlen
    omega
  df := hdf table htable e he
  posting p hp := by
    obtain ⟨q, -, rfl⟩ := List.mem_map.mp ((h.sublist htable he).mem hp)
    exact ⟨u32_lt _, u32_lt _⟩

end CascadeSearch.Index.FirstPass
