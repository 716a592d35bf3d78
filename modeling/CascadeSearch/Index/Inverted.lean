import CascadeSearch.Index.Analyzer
import CascadeSearch.Index.Corpus
import CascadeSearch.Lib.KWayMerge

/-!
# The inverted index of a list of documents

What an index is for: the terms that occur, in order, and for each the
documents it occurs in, with how often. Documents are numbered by their place
in the list. Nothing here is bounded, encoded or split.
-/
namespace CascadeSearch.Index.Inverted

open Lib.KWayMerge
open Format Analyzer Corpus

def termsOf (d : Document) : List Str := analyze d.text

def occurrence (term : Str) (d : Document × Nat) : Option Posting :=
  if term ∈ termsOf d.1 then some ⟨d.2, (termsOf d.1).count term⟩ else none

def postings (docs : List Document) (term : Str) : List Posting := docs.zipIdx.filterMap (occurrence term)

def vocabulary (docs : List Document) : List Str := (docs.flatMap termsOf).toFinset.sort (· ≤ ·)

def invertedIndex (docs : List Document) : Table Str Posting :=
  (vocabulary docs).map fun term => (term, postings docs term)

variable {docs : List Document} {term : Str}

theorem occurrence_eq_some {d : Document × Nat} {p : Posting} :
    occurrence term d = some p ↔ term ∈ termsOf d.1 ∧ p = ⟨d.2, (termsOf d.1).count term⟩ := by
  rw [occurrence]
  split
  · rename_i hmem
    rw [Option.some.injEq, eq_comm]
    exact (and_iff_right hmem).symm
  · rename_i hmem
    simp [hmem]

theorem mem_postings {p : Posting} :
    p ∈ postings docs term ↔
      ∃ d, docs[p.docid]? = some d ∧ term ∈ termsOf d ∧ p.tf = (termsOf d).count term := by
  rw [postings, List.mem_filterMap]
  constructor
  · rintro ⟨⟨d, docid⟩, hd, hp⟩
    obtain ⟨hterm, rfl⟩ := occurrence_eq_some.mp hp
    exact ⟨d, List.mem_zipIdx_iff_getElem?.mp hd, hterm, rfl⟩
  · rintro ⟨d, hd, hterm, htf⟩
    refine ⟨(d, p.docid), List.mem_zipIdx_iff_getElem?.mpr hd, occurrence_eq_some.mpr ⟨hterm, ?_⟩⟩
    rw [← htf]

theorem postings_concat (docs : List Document) (d : Document) (term : Str) :
    postings (docs ++ [d]) term = postings docs term ++ (occurrence term (d, docs.length)).toList := by
  rw [postings, List.zipIdx_append, List.filterMap_append, Nat.zero_add, List.zipIdx_singleton]
  change postings docs term ++ _ = _
  rw [List.filterMap_cons]
  cases occurrence term (d, docs.length) with
  | none => rfl
  | some p => rfl

theorem postings_ascending : (postings docs term).Pairwise fun p q => p.docid < q.docid := by
  rw [postings, List.pairwise_filterMap]
  have hidx : docs.zipIdx.Pairwise fun a b => a.2 < b.2 := by
    apply List.pairwise_map.mp
    rw [List.zipIdx_map_snd]
    exact List.pairwise_lt_range'
  apply hidx.imp
  intro a b hlt p hp q hq
  obtain ⟨-, rfl⟩ := occurrence_eq_some.mp hp
  obtain ⟨-, rfl⟩ := occurrence_eq_some.mp hq
  exact hlt

theorem length_postings_le (docs : List Document) (term : Str) : (postings docs term).length ≤ docs.length :=
  (List.length_filterMap_le _ _).trans_eq List.length_zipIdx

theorem docid_lt {p : Posting} (hp : p ∈ postings docs term) : p.docid < docs.length := by
  obtain ⟨d, hd, -⟩ := mem_postings.mp hp
  exact (List.getElem?_eq_some_iff.mp hd).1

theorem mem_vocabulary : term ∈ vocabulary docs ↔ ∃ d ∈ docs, term ∈ termsOf d := by
  rw [vocabulary, Finset.mem_sort, List.mem_toFinset, List.mem_flatMap]

theorem vocabulary_ne_nil_iff : vocabulary docs ≠ [] ↔ ∃ d ∈ docs, termsOf d ≠ [] := by
  constructor
  · intro hne
    obtain ⟨term, hterm⟩ := List.exists_mem_of_ne_nil _ hne
    obtain ⟨d, hd, hmem⟩ := mem_vocabulary.mp hterm
    exact ⟨d, hd, List.ne_nil_of_mem hmem⟩
  · rintro ⟨d, hd, hne⟩
    obtain ⟨term, hterm⟩ := List.exists_mem_of_ne_nil _ hne
    exact List.ne_nil_of_mem (mem_vocabulary.mpr ⟨d, hd, hterm⟩)

theorem postings_ne_nil_iff : postings docs term ≠ [] ↔ term ∈ vocabulary docs := by
  rw [mem_vocabulary]
  constructor
  · intro hne
    obtain ⟨p, hp⟩ := List.exists_mem_of_ne_nil _ hne
    obtain ⟨d, hd, hterm, -⟩ := mem_postings.mp hp
    exact ⟨d, List.mem_of_getElem? hd, hterm⟩
  · rintro ⟨d, hd, hterm⟩
    obtain ⟨docid, hdocid⟩ := List.mem_iff_getElem?.mp hd
    exact List.ne_nil_of_mem (mem_postings.mpr ⟨d, hdocid, hterm, rfl⟩ : ⟨docid, _⟩ ∈ _)

theorem vocabulary_ascending (docs : List Document) : (vocabulary docs).Pairwise (· < ·) :=
  (Finset.sortedLT_sort _).pairwise

theorem mem_invertedIndex {ps : List Posting} :
    (term, ps) ∈ invertedIndex docs ↔ term ∈ vocabulary docs ∧ ps = postings docs term := by
  rw [invertedIndex, List.mem_map]
  constructor
  · rintro ⟨t, ht, heq⟩
    cases heq
    exact ⟨ht, rfl⟩
  · rintro ⟨ht, rfl⟩
    exact ⟨term, ht, rfl⟩

end CascadeSearch.Index.Inverted
