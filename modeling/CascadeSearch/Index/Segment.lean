import CascadeSearch.Index.Format
import CascadeSearch.Lib.KWayMerge

/-!
# Segment files (`flush_segment`, `SegmentReader`)

A segment is written term by term and read back one term at a time. A file ends
between two terms, so only the first read of `advance` ever comes up short.
-/
namespace CascadeSearch.Index.Segment

open Lib.Memory Lib.KWayMerge
open Format

/-- A segment file holds no floats. -/
abbrev SegmentFile := List (Cell Empty)

def putPosting (p : Posting) : SegmentFile := putInt 4 p.docid ++ putInt 4 p.tf

/-- One round of the loop of `flush_segment`. -/
def putEntry (e : Str × List Posting) : SegmentFile :=
  let termLen := u32 e.1.length
  let df := u32 e.2.length
  putInt 4 termLen ++ (putBytes (e.1.take termLen) ++ (putInt 4 df ++ (e.2.take df).flatMap putPosting))

def flushSegment (terms : Table Str Posting) : SegmentFile := terms.flatMap putEntry

structure SegmentReader where
  input : SegmentFile
  term : Str := []
  postings : List Posting := []
  exhausted : Bool := false

def readPosting (p : SegmentFile) : Posting := ⟨readInt 4 p, readInt 4 (p.drop 4)⟩

def readPostings (df : Nat) (p : SegmentFile) : List Posting :=
  (List.range df).map fun i => readPosting (p.drop (8 * i))

namespace SegmentReader

def advance (reader : SegmentReader) : SegmentReader :=
  if reader.input.length < 4 then { reader with input := [], exhausted := true }
  else
    let termLen := readInt 4 reader.input
    let input := reader.input.drop 4
    let df := readInt 4 (input.drop termLen)
    let data := (input.drop termLen).drop 4
    { reader with
      input := data.drop (8 * df)
      term := readBytes termLen input
      postings := readPostings df data }

/-- The constructor. -/
def «open» (file : SegmentFile) : SegmentReader := advance { input := file }

/-- The reader stands on the first entry of the table, or at the end. -/
def Holds (reader : SegmentReader) : Table Str Posting → Prop
  | [] => reader.exhausted = true
  | e :: table =>
      reader.exhausted = false ∧ reader.term = e.1 ∧ reader.postings = e.2 ∧
        reader.input = flushSegment table

end SegmentReader

/-- Every count and number of the entry fits its field. -/
structure EntryFits (e : Str × List Posting) : Prop where
  termLen : e.1.length < 2 ^ 32
  df : e.2.length < 2 ^ 32
  posting : ∀ p ∈ e.2, p.docid < 2 ^ 32 ∧ p.tf < 2 ^ 32

theorem length_putPosting (p : Posting) : (putPosting p).length = 8 := by
  rw [putPosting, List.length_append, length_putInt, length_putInt]

theorem readPosting_putPosting {p : Posting} (h : p.docid < 2 ^ 32 ∧ p.tf < 2 ^ 32) (rest : SegmentFile) :
    readPosting (putPosting p ++ rest) = p := by
  rw [readPosting, putPosting, List.append_assoc, readInt_putInt_of_lt h.1,
    List.drop_left' (length_putInt _ _), readInt_putInt_of_lt h.2]

theorem readPostings_flatMap {ps : List Posting} (h : ∀ p ∈ ps, p.docid < 2 ^ 32 ∧ p.tf < 2 ^ 32)
    (rest : SegmentFile) : readPostings ps.length (ps.flatMap putPosting ++ rest) = ps := by
  apply List.ext_getElem
  · rw [readPostings, List.length_map, List.length_range]
  · intro i hi hi'
    simp only [readPostings, List.getElem_map, List.getElem_range]
    rw [drop_flatMap length_putPosting ps rest hi'.le, List.drop_eq_getElem_cons hi', List.flatMap_cons,
      List.append_assoc]
    exact readPosting_putPosting (h _ (List.getElem_mem hi')) _

theorem putEntry_of_fits {e : Str × List Posting} (h : EntryFits e) :
    putEntry e = putInt 4 e.1.length ++ (putBytes e.1 ++ (putInt 4 e.2.length ++ e.2.flatMap putPosting)) := by
  rw [putEntry, u32_of_lt h.termLen, u32_of_lt h.df, List.take_length, List.take_length]

/-- What `flush_segment` wrote is read back, entry by entry. -/
theorem SegmentReader.advance_holds {reader : SegmentReader} {table : Table Str Posting}
    (hlive : reader.exhausted = false) (hinput : reader.input = flushSegment table)
    (hfits : ∀ e ∈ table, EntryFits e) : reader.advance.Holds table := by
  cases table with
  | nil =>
    have hshort : reader.input.length < 4 := by
      rw [hinput]
      exact Nat.succ_pos 3
    rw [advance, if_pos hshort]
    rfl
  | cons e table =>
    have he := hfits e List.mem_cons_self
    have hbytes : reader.input = putInt 4 e.1.length ++ (putBytes e.1 ++ (putInt 4 e.2.length ++
        (e.2.flatMap putPosting ++ flushSegment table))) := by
      rw [hinput, flushSegment, List.flatMap_cons, putEntry_of_fits he]
      simp only [List.append_assoc]
      rfl
    have hlong : ¬reader.input.length < 4 := by
      rw [hbytes, List.length_append, length_putInt]
      omega
    have hdata : (e.2.flatMap putPosting).length = 8 * e.2.length := length_flatMap length_putPosting e.2
    rw [advance, if_neg hlong]
    dsimp only
    rw [hbytes, readInt_putInt_of_lt he.termLen, List.drop_left' (length_putInt _ _),
      List.drop_left' (length_putBytes _), readInt_putInt_of_lt he.df, List.drop_left' (length_putInt _ _)]
    refine ⟨hlive, readBytes_putBytes _ _, readPostings_flatMap he.posting _, ?_⟩
    exact List.drop_left' hdata

end CascadeSearch.Index.Segment
