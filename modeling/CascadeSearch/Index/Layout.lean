import CascadeSearch.Index.MergePass
import CascadeSearch.Query.Reader

/-!
# Where the written bytes stand

Records and block metadata are read back as they were written, and each term's
record points at the bytes of its string and of its blocks.
-/
namespace CascadeSearch.Index.Layout

open Lib.Memory Lib.KWayMerge
open Format Corpus Inverted Blocks Builder MergePass
open Query.Reader

variable {S : Type}

theorem length_putBlockMeta (blk : BlockMeta S) : (putBlockMeta blk).length = 16 := by
  simp only [putBlockMeta, List.length_append, length_putInt, length_putFloat]

theorem length_putTermRecord (record : TermRecord S) : (putTermRecord record).length = 32 := by
  simp only [putTermRecord, List.length_append, length_putInt, length_putFloat]

structure BlockFits (blk : BlockMeta S) : Prop where
  maxDocid : blk.maxDocid < 2 ^ 32
  count : blk.count < 2 ^ 32
  payloadOffset : blk.payloadOffset < 2 ^ 32

structure RecordFits (record : TermRecord S) : Prop where
  strOffset : record.strOffset < 2 ^ 64
  postOffset : record.postOffset < 2 ^ 64
  strLen : record.strLen < 2 ^ 32
  df : record.df < 2 ^ 32
  numBlocks : record.numBlocks < 2 ^ 32

variable [Zero S]

theorem readBlockMeta_putBlockMeta {blk : BlockMeta S} (h : BlockFits blk) (rest : List (Cell S)) :
    readBlockMeta (putBlockMeta blk ++ rest) = blk := by
  have hdrop8 : ∀ p : List (Cell S), p.drop 8 = (p.drop 4).drop 4 := fun p => by
    rw [List.drop_drop]
  have hdrop12 : ∀ p : List (Cell S), p.drop 12 = ((p.drop 4).drop 4).drop 4 := fun p => by
    rw [List.drop_drop, List.drop_drop]
  rw [readBlockMeta, putBlockMeta, hdrop12, hdrop8]
  simp only [List.append_assoc]
  rw [readInt_putInt_of_lt h.maxDocid, List.drop_left' (length_putInt _ _), readInt_putInt_of_lt h.count,
    List.drop_left' (length_putInt _ _), readInt_putInt_of_lt h.payloadOffset, List.drop_left' (length_putInt _ _),
    readFloat_putFloat]

theorem readTermRecord_putTermRecord {record : TermRecord S} (h : RecordFits record) (rest : List (Cell S)) :
    readTermRecord (putTermRecord record ++ rest) = record := by
  have hdrop16 : ∀ p : List (Cell S), p.drop 16 = (p.drop 8).drop 8 := fun p => by
    rw [List.drop_drop]
  have hdrop20 : ∀ p : List (Cell S), p.drop 20 = ((p.drop 8).drop 8).drop 4 := fun p => by
    rw [List.drop_drop, List.drop_drop]
  have hdrop24 : ∀ p : List (Cell S), p.drop 24 = (((p.drop 8).drop 8).drop 4).drop 4 := fun p => by
    rw [List.drop_drop, List.drop_drop, List.drop_drop]
  have hdrop28 : ∀ p : List (Cell S), p.drop 28 = ((((p.drop 8).drop 8).drop 4).drop 4).drop 4 := fun p => by
    rw [List.drop_drop, List.drop_drop, List.drop_drop, List.drop_drop]
  rw [readTermRecord, putTermRecord, hdrop28, hdrop24, hdrop20, hdrop16]
  simp only [List.append_assoc]
  rw [readInt_putInt_of_lt h.strOffset, List.drop_left' (length_putInt _ _), readInt_putInt_of_lt h.postOffset,
    List.drop_left' (length_putInt _ _), readInt_putInt_of_lt h.strLen, List.drop_left' (length_putInt _ _),
    readInt_putInt_of_lt h.df, List.drop_left' (length_putInt _ _), readInt_putInt_of_lt h.numBlocks,
    List.drop_left' (length_putInt _ _), readFloat_putFloat]

/-- Of the four files only `index.post` can be empty. -/
theorem open_writeFiles_iff (bm25 : Bm25 S) (st : CorpusStats S) (offsets : List Nat) (blob : Str) (out : Output S) :
    (∃ ix, Query.Reader.open bm25 (writeFiles st offsets blob out) = .ok ix) ↔ out.postOut ≠ [] := by
  have hdocs : 0 < (writeFiles st offsets blob out).docs.length := Nat.succ_pos _
  have hterms : 0 < (writeFiles st offsets blob out).terms.length := Nat.succ_pos _
  constructor
  · rintro ⟨ix, hopen⟩ hnil
    rw [open_of_empty_post hdocs hterms hnil] at hopen
    cases hopen
  · intro hne
    exact ⟨_, open_of_pos hdocs hterms (List.length_pos_of_ne_nil hne) (Nat.succ_pos _)⟩

/-- Skipping the pieces before the `i`-th leads to it. -/
theorem drop_flatten {α : Type} (pieces : List (List α)) (i : Nat) :
    pieces.flatten.drop (pieces.take i).flatten.length = (pieces.drop i).flatten := by
  have hsplit : pieces.flatten = (pieces.take i).flatten ++ (pieces.drop i).flatten := by
    rw [← List.flatten_append, List.take_append_drop]
  rw [hsplit, List.drop_left]

variable [LinearOrder S]

def termBytes (st : CorpusStats S) (e : Str × List Posting) : List (Cell S) :=
  let blocks := encode (impact st (u32 e.2.length)) e.2
  blocks.1.flatMap putBlockMeta ++ putBytes blocks.2

/-- The record of the `i`-th term. -/
def recordAt (st : CorpusStats S) (entries : Table Str Posting) (i : Nat) (e : Str × List Posting) : TermRecord S where
  strOffset := ((entries.map Prod.fst).take i).flatten.length
  postOffset := ((entries.map (termBytes st)).take i).flatten.length
  strLen := u32 e.1.length
  df := u32 e.2.length
  numBlocks := u32 (encode (impact st (u32 e.2.length)) e.2).1.length
  maxImpact := termMax (encode (impact st (u32 e.2.length)) e.2).1

theorem length_termBytes (st : CorpusStats S) (e : Str × List Posting) :
    (termBytes st e).length = 16 * (encode (impact st (u32 e.2.length)) e.2).1.length +
      (encode (impact st (u32 e.2.length)) e.2).2.length := by
  rw [termBytes, List.length_append, length_putBytes, length_flatMap length_putBlockMeta]

theorem writeTerms_concat (st : CorpusStats S) (out : Output S) (entries : Table Str Posting)
    (e : Str × List Posting) : writeTerms st out (entries ++ [e]) = writeTerm st (writeTerms st out entries) e.1 e.2 := by
  rw [writeTerms, List.foldl_append]
  rfl

/-- What the loop over the terms has written. -/
structure Written (st : CorpusStats S) (entries : Table Str Posting) (out : Output S) : Prop where
  count : out.records.length = entries.length
  record : ∀ i e, entries[i]? = some e → out.records[i]? = some (recordAt st entries i e)
  stringsBlob : out.stringsBlob = (entries.map Prod.fst).flatten
  postOut : out.postOut = (entries.map (termBytes st)).flatten
  postOffset : out.postOffset = out.postOut.length

theorem writeTerms_written (st : CorpusStats S) (entries : Table Str Posting) :
    Written st entries (writeTerms st {} entries) := by
  induction entries using List.reverseRecOn with
  | nil => exact ⟨rfl, (fun i e h => by cases h), rfl, rfl, rfl⟩
  | append_singleton entries e ih =>
    rw [writeTerms_concat]
    have hstrings := ih.stringsBlob
    have hpost := ih.postOut
    have hoffset := ih.postOffset
    constructor
    · change ((writeTerms st {} entries).records ++ [_]).length = _
      rw [List.length_append, List.length_append, ih.count]
      rfl
    · intro i e' hi
      change ((writeTerms st {} entries).records ++ [_])[i]? = _
      rcases Nat.lt_or_ge i entries.length with hlt | hge
      · rw [List.getElem?_append_left hlt] at hi
        rw [List.getElem?_append_left (ih.count ▸ hlt), ih.record i e' hi]
        rw [recordAt, recordAt, List.map_append, List.map_append,
          List.take_append_of_le_length (by rw [List.length_map]; exact hlt.le),
          List.take_append_of_le_length (by rw [List.length_map]; exact hlt.le)]
      · have hlast : i = entries.length := by
          have hlen := (List.getElem?_eq_some_iff.mp hi).1
          rw [List.length_append, List.length_singleton] at hlen
          omega
        subst hlast
        rw [List.getElem?_concat_length] at hi
        cases hi
        rw [← ih.count, List.getElem?_concat_length, hstrings, hoffset, hpost, recordAt, ih.count, List.map_append,
          List.map_append, List.take_left' (by rw [List.length_map]), List.take_left' (by rw [List.length_map])]
        rfl
    · change (writeTerms st {} entries).stringsBlob ++ e.1 = _
      rw [hstrings, List.map_append, List.flatten_append, List.map_singleton, List.flatten_singleton]
    · change (writeTerms st {} entries).postOut ++ _ = _
      rw [hpost, List.map_append, List.flatten_append, List.map_singleton, List.flatten_singleton]
      rfl
    · change (writeTerms st {} entries).postOffset + _ = ((writeTerms st {} entries).postOut ++ termBytes st e).length
      rw [List.length_append, length_termBytes, hoffset]
      rfl

/-- Every term with a posting leaves bytes in `index.post`. -/
theorem postOut_eq_nil_iff (st : CorpusStats S) {entries : Table Str Posting} (h : ∀ e ∈ entries, e.2 ≠ []) :
    (writeTerms st {} entries).postOut = [] ↔ entries = [] := by
  rw [(writeTerms_written st entries).postOut]
  cases entries with
  | nil => exact iff_of_true rfl rfl
  | cons e entries =>
    refine iff_of_false (fun hnil => ?_) (List.cons_ne_nil e entries)
    rw [List.map_cons, List.flatten_cons] at hnil
    have hlen := congrArg List.length (List.append_eq_nil_iff.mp hnil).1
    have hblocks := List.length_pos_of_ne_nil (encode_ne_nil (impact st (u32 e.2.length)) (h e List.mem_cons_self))
    rw [length_termBytes, List.length_nil] at hlen
    omega

end CascadeSearch.Index.Layout
