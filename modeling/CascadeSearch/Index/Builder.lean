import CascadeSearch.Index.Blocks
import CascadeSearch.Index.Inverted
import CascadeSearch.Index.Segment

/-!
# The index builder (`builder.cc`)

Pass 1 reads the corpus and flushes a segment every `capacity` documents
(`kSegmentDocs` in the source); pass 2 merges the segments into blocked
postings. `uint32_t` counters wrap. The directories and the corpus file are
taken to be there, and the segments directory to be empty before the build.
-/
namespace CascadeSearch.Index.Builder

open Lib.Memory Lib.KWayMerge
open Format Analyzer Corpus Segment Blocks

def kSegmentDocs : Nat := 500000

structure Pass1 where
  docLengths : List Nat := []
  docidsBlob : Str := []
  docidOffsets : List Nat := [0]
  segment : SortedMap Str Posting := ∅
  /-- The files at `segment_paths`. -/
  segments : List SegmentFile := []
  docsInSegment : Nat := 0
  docid : Nat := 0

/-- `term_freqs`. -/
def countTerms (terms : List Str) : Std.HashMap Str Nat :=
  terms.foldl (fun termFreqs term => termFreqs.insert term (u32 (termFreqs.getD term 0 + 1))) ∅

/-- `segment[term].push_back({docid, tf})`, in the order the hash table iterates. -/
def addPostings (docid : Nat) (termFreqs : List (Str × Nat)) (segment : SortedMap Str Posting) :
    SortedMap Str Posting :=
  termFreqs.foldl (fun segment (term, tf) => segment.pushBack term ⟨docid, tf⟩) segment

def flush (s : Pass1) : Pass1 :=
  { s with segments := s.segments ++ [flushSegment s.segment.toList], segment := ∅ }

/-- The body of the loop for an accepted line. -/
def addDocument (capacity : Nat) (s : Pass1) (d : Document) : Pass1 :=
  let docidsBlob := s.docidsBlob ++ d.externalId
  let terms := analyze d.text
  let s := { s with
    docidsBlob := docidsBlob
    docidOffsets := s.docidOffsets ++ [docidsBlob.length]
    docLengths := s.docLengths ++ [u32 terms.length]
    segment := addPostings s.docid (countTerms terms).toList s.segment
    docid := u32 (s.docid + 1)
    docsInSegment := s.docsInSegment + 1 }
  if capacity ≤ s.docsInSegment then { flush s with docsInSegment := 0 } else s

/-- The loop over the accepted lines; `max_docs` 0 is no limit. -/
def readCorpus (capacity maxDocs : Nat) : Pass1 → List Document → Pass1
  | s, [] => s
  | s, d :: docs =>
      let s := addDocument capacity s d
      if maxDocs ≠ 0 ∧ maxDocs ≤ s.docid then s else readCorpus capacity maxDocs s docs

def pass1 (capacity maxDocs : Nat) (docs : List Document) : Pass1 :=
  let s := readCorpus capacity maxDocs {} docs
  if s.segment.isEmpty then s else flush s

variable {S : Type} [LinearOrder S] [Zero S]

/-- What the merge knows about the corpus. -/
structure CorpusStats (S : Type) where
  bm25 : Bm25 S
  docLengths : List Nat
  docCount : Nat
  avgDl : S

structure Output (S : Type) where
  records : List (TermRecord S) := []
  stringsBlob : Str := []
  postOut : List (Cell S) := []
  postOffset : Nat := 0

def putBlockMeta (blk : BlockMeta S) : List (Cell S) :=
  putInt 4 blk.maxDocid ++ (putInt 4 blk.count ++ (putInt 4 blk.payloadOffset ++ putFloat blk.maxImpact))

def putTermRecord (record : TermRecord S) : List (Cell S) :=
  putInt 8 record.strOffset ++ (putInt 8 record.postOffset ++ (putInt 4 record.strLen ++
    (putInt 4 record.df ++ (putInt 4 record.numBlocks ++ putFloat record.maxImpact))))

def impact (st : CorpusStats S) (df : Nat) (p : Posting) : S :=
  st.bm25.bm25TermScore (st.bm25.bm25Idf st.docCount df) p.tf (st.docLengths.getD p.docid 0) st.avgDl

/-- From the merged postings of a term to its record and its blocks. -/
def writeTerm (st : CorpusStats S) (out : Output S) (term : Str) (merged : List Posting) : Output S :=
  let df := u32 merged.length
  let (blockMeta, payload) := encode (impact st df) merged
  let record : TermRecord S := {
    strOffset := out.stringsBlob.length
    postOffset := out.postOffset
    strLen := u32 term.length
    df := df
    numBlocks := u32 blockMeta.length
    maxImpact := termMax blockMeta }
  { records := out.records ++ [record]
    stringsBlob := out.stringsBlob ++ term
    postOut := out.postOut ++ (blockMeta.flatMap putBlockMeta ++ putBytes payload)
    postOffset := out.postOffset + (16 * blockMeta.length + payload.length) }

/-- Smallest term across all live segments. -/
def smallestTerm (readers : List SegmentReader) : Option Str :=
  readers.foldl (fun smallest reader =>
    if reader.exhausted then smallest
    else match smallest with
      | none => some reader.term
      | some term => if reader.term < term then some reader.term else some term) none

/-- The reader takes part in this round. -/
def standsOn (term : Str) (reader : SegmentReader) : Bool := !reader.exhausted && reader.term == term

/-- The `while (true)` loop. Every round reads at least one entry of a segment. -/
def mergeSegments (st : CorpusStats S) : (rounds : Nat) → List SegmentReader → Output S → Output S
  | 0, _, out => out
  | rounds + 1, readers, out =>
      match smallestTerm readers with
      | none => out
      | some term =>
          let merged := (readers.filter (standsOn term)).flatMap (·.postings)
          let readers := readers.map fun reader => if standsOn term reader then reader.advance else reader
          mergeSegments st rounds readers (writeTerm st out term merged)

inductive BuildError where
  | noDocumentsRead
deriving DecidableEq

def writeFiles (st : CorpusStats S) (docidOffsets : List Nat) (docidsBlob : Str) (out : Output S) :
    IndexFiles S where
  docs := putInt 4 st.docCount ++ (putFloat st.avgDl ++ (st.docLengths.take st.docCount).flatMap (putInt 4))
  docids := putInt 4 st.docCount ++ (docidOffsets.flatMap (putInt 8) ++ putBytes docidsBlob)
  post := out.postOut
  terms := putInt 4 (u32 out.records.length) ++ (out.records.flatMap putTermRecord ++ putBytes out.stringsBlob)

/-- `main`, on the bytes of the corpus file. -/
def buildIndex (bm25 : Bm25 S) (capacity maxDocs : Nat) (corpus : Str) :
    Except BuildError (IndexFiles S) :=
  let s := pass1 capacity maxDocs (documents corpus)
  let docCount := s.docid
  if docCount = 0 then .error .noDocumentsRead
  else
    let st : CorpusStats S := {
      bm25 := bm25
      docLengths := s.docLengths
      docCount := docCount
      avgDl := bm25.avgDl s.docLengths.sum docCount }
    let rounds := (s.segments.map List.length).sum
    let out := mergeSegments st rounds (s.segments.map SegmentReader.open) {}
    .ok (writeFiles st s.docidOffsets s.docidsBlob out)

end CascadeSearch.Index.Builder
