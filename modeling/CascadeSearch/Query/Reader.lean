import CascadeSearch.Index.Format

/-!
# The opened index (`Index`)

`open` maps the four files and takes typed pointers into them. A mapping of
length zero is refused, as `mmap` refuses it. A read past the end of a mapping
yields zero cells here; nothing below relies on such a read.
-/
namespace CascadeSearch.Query.Reader

open Lib.Memory
open Index.Format

/-- The messages of the `std::runtime_error`s that `map_file` throws. -/
inductive OpenError where
  | cannotMmap (path : String)
deriving DecidableEq

structure Index (S : Type) where
  bm25 : Bm25 S
  docCount : Nat
  avgDl : S
  docLengths : Nat → Nat
  termCount : Nat
  termRecords : Nat → TermRecord S
  termStrings : List (Cell S)
  postings : List (Cell S)
  docidOffsets : Nat → Nat
  docidBlob : List (Cell S)

variable {S : Type} [Zero S]

/-- `reinterpret_cast<const TermRecord*>`, one packed record. -/
def readTermRecord (p : List (Cell S)) : TermRecord S where
  strOffset := readInt 8 p
  postOffset := readInt 8 (p.drop 8)
  strLen := readInt 4 (p.drop 16)
  df := readInt 4 (p.drop 20)
  numBlocks := readInt 4 (p.drop 24)
  maxImpact := readFloat (p.drop 28)

/-- `reinterpret_cast<const BlockMeta*>`, one packed record. -/
def readBlockMeta (p : List (Cell S)) : BlockMeta S where
  maxDocid := readInt 4 p
  count := readInt 4 (p.drop 4)
  payloadOffset := readInt 4 (p.drop 8)
  maxImpact := readFloat (p.drop 12)

/-- The existing file at `path`, mapped. -/
def mapFile (path : String) (file : List (Cell S)) : Except OpenError (List (Cell S)) :=
  if file.length = 0 then .error (.cannotMmap path) else .ok file

/-- The constructor, on a directory that holds the four files. -/
def «open» (bm25 : Bm25 S) (files : IndexFiles S) : Except OpenError (Index S) := do
  let docs ← mapFile "/index.docs" files.docs
  let terms ← mapFile "/index.terms" files.terms
  let post ← mapFile "/index.post" files.post
  let ids ← mapFile "/index.docids" files.docids
  let termCount := readInt 4 terms
  let idCount := readInt 4 ids
  return {
    bm25 := bm25
    docCount := readInt 4 docs
    avgDl := readFloat (docs.drop 4)
    docLengths := fun i => readInt 4 ((docs.drop 8).drop (4 * i))
    termCount := termCount
    termRecords := fun i => readTermRecord ((terms.drop 4).drop (32 * i))
    termStrings := terms.drop (4 + 32 * termCount)
    postings := post
    docidOffsets := fun i => readInt 8 ((ids.drop 4).drop (8 * i))
    docidBlob := ids.drop (4 + 8 * (idCount + 1)) }

/-- Four files that are not empty open. -/
theorem open_of_pos {bm25 : Bm25 S} {files : IndexFiles S} (hdocs : 0 < files.docs.length)
    (hterms : 0 < files.terms.length) (hpost : 0 < files.post.length) (hids : 0 < files.docids.length) :
    «open» bm25 files = .ok {
      bm25 := bm25
      docCount := readInt 4 files.docs
      avgDl := readFloat (files.docs.drop 4)
      docLengths := fun i => readInt 4 ((files.docs.drop 8).drop (4 * i))
      termCount := readInt 4 files.terms
      termRecords := fun i => readTermRecord ((files.terms.drop 4).drop (32 * i))
      termStrings := files.terms.drop (4 + 32 * readInt 4 files.terms)
      postings := files.post
      docidOffsets := fun i => readInt 8 ((files.docids.drop 4).drop (8 * i))
      docidBlob := files.docids.drop (4 + 8 * (readInt 4 files.docids + 1)) } := by
  rw [«open», mapFile, mapFile, mapFile, mapFile, if_neg hdocs.ne', if_neg hterms.ne', if_neg hpost.ne',
    if_neg hids.ne']
  rfl

/-- An empty `index.post` cannot be mapped. -/
theorem open_of_empty_post {bm25 : Bm25 S} {files : IndexFiles S} (hdocs : 0 < files.docs.length)
    (hterms : 0 < files.terms.length) (hpost : files.post = []) :
    «open» bm25 files = .error (.cannotMmap "/index.post") := by
  rw [«open», mapFile, mapFile, mapFile, if_neg hdocs.ne', if_neg hterms.ne', hpost]
  rfl

namespace Index

/-- `std::string` of the bytes between two offsets; the length wraps as `size_t`. -/
def externalId (ix : Index S) (docid : Nat) : Str :=
  let start := ix.docidOffsets docid
  let «end» := ix.docidOffsets (docid + 1)
  readBytes ((«end» + 2 ^ 64 - start) % 2 ^ 64) (ix.docidBlob.drop start)

def termAt (ix : Index S) (record : TermRecord S) : Str :=
  readBytes record.strLen (ix.termStrings.drop record.strOffset)

/-- The binary search of `find_term` on `[low, high)`; every round at least
halves it, so `high - low` rounds suffice. -/
def findTermFrom (ix : Index S) (term : Str) : (rounds low high : Nat) → Option (TermRecord S)
  | 0, _, _ => none
  | rounds + 1, low, high =>
      if low < high then
        let mid := low + (high - low) / 2
        let record := ix.termRecords mid
        if term = ix.termAt record then some record
        else if term < ix.termAt record then findTermFrom ix term rounds low mid
        else findTermFrom ix term rounds (mid + 1) high
      else none

def findTerm (ix : Index S) (term : Str) : Option (TermRecord S) :=
  findTermFrom ix term ix.termCount 0 ix.termCount

def blocksFor (ix : Index S) (record : TermRecord S) (i : Nat) : BlockMeta S :=
  readBlockMeta ((ix.postings.drop record.postOffset).drop (16 * i))

def payloadFor (ix : Index S) (record : TermRecord S) (i : Nat) : Byte :=
  byteAt (ix.postings.drop (record.postOffset + 16 * record.numBlocks)) i

end Index
end CascadeSearch.Query.Reader
