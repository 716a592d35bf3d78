import CascadeSearch.Index.Layout
import CascadeSearch.Query.Search

/-!
# Opening what the builder wrote

On the files of a corpus that fits the format and has a term, every pointer the
reader takes leads to what the builder put there. Without a term `index.post`
is empty and cannot be mapped.
-/
namespace CascadeSearch.Query.Opened

open Lib.Memory Lib.KWayMerge
open Index.Format Index.Analyzer Index.Corpus Index.Inverted Index.Blocks
open Index.Builder Index.FirstPass Index.MergePass Index.Layout
open Reader Search

variable {S : Type} [LinearOrder S] [Zero S]

/-- A record leads to the postings of its term. -/
structure PointsAt (bm25 : Bm25 S) (docs : List Document) (ix : Index S) (record : TermRecord S)
    (term : Str) : Prop where
  df : record.df = (postings docs term).length
  maxImpact : record.maxImpact =
    termMax (encode (impact (statsOf bm25 docs) (postings docs term).length) (postings docs term)).1
  reads : ∀ addr, Reads (sourceFor ix record addr)
    (impact (statsOf bm25 docs) (postings docs term).length) (postings docs term)

/-- An opened index that says of a corpus what there is to say. -/
structure Represents (bm25 : Bm25 S) (docs : List Document) (ix : Index S) : Prop where
  scoring : ix.bm25 = bm25
  docCount : ix.docCount = docs.length
  avgDl : ix.avgDl = (statsOf bm25 docs).avgDl
  docLengths : ∀ i d, docs[i]? = some d → ix.docLengths i = (termsOf d).length
  termCount : ix.termCount = (vocabulary docs).length
  termAt : ∀ i term, (vocabulary docs)[i]? = some term → ix.termAt (ix.termRecords i) = term
  pointsAt : ∀ i term, (vocabulary docs)[i]? = some term → PointsAt bm25 docs ix (ix.termRecords i) term
  externalId : ∀ i d, docs[i]? = some d → ix.externalId i = d.externalId

variable {bm25 : Bm25 S} {docs : List Document} {term : Str}

theorem drop_flatten_get {α : Type} {pieces : List (List α)} {i : Nat} {piece : List α}
    (h : pieces[i]? = some piece) :
    pieces.flatten.drop (pieces.take i).flatten.length = piece ++ (pieces.drop (i + 1)).flatten := by
  obtain ⟨hlt, hget⟩ := List.getElem?_eq_some_iff.mp h
  rw [drop_flatten, List.drop_eq_getElem_cons hlt, hget, List.flatten_cons]

theorem length_take_flatten_le {α : Type} (pieces : List (List α)) (i : Nat) :
    (pieces.take i).flatten.length ≤ pieces.flatten.length := by
  have hsplit := congrArg List.length (congrArg List.flatten (List.take_append_drop i pieces))
  rw [List.flatten_append, List.length_append] at hsplit
  omega

theorem map_fst_invertedIndex (docs : List Document) : (invertedIndex docs).map Prod.fst = vocabulary docs := by
  rw [invertedIndex, List.map_map]
  exact List.map_id _

theorem length_strings_lt (h : FitsFormat docs) : (vocabulary docs).flatten.length < 2 ^ 64 := by
  have hterm : ∀ term ∈ vocabulary docs, term.length ≤ kMaxTokenLength := by
    intro term hterm
    obtain ⟨d, -, hd⟩ := mem_vocabulary.mp hterm
    exact length_term_le hd
  have hle : (vocabulary docs).flatten.length ≤ (vocabulary docs).length * kMaxTokenLength := by
    rw [List.length_flatten]
    have hsum := List.sum_le_card_nsmul ((vocabulary docs).map List.length) kMaxTokenLength (by
      intro n hn
      obtain ⟨term, ht, rfl⟩ := List.mem_map.mp hn
      exact hterm term ht)
    rwa [List.length_map] at hsum
  have hcount := h.termCount
  unfold kMaxTokenLength at hle
  omega

theorem length_postings_lt (h : FitsFormat docs) (term : Str) : (postings docs term).length < 2 ^ 32 :=
  (length_postings_le docs term).trans_lt h.docCount

theorem length_termBytes_eq (docs : List Document) (term : Str) :
    (termBytes (statsOf bm25 docs) (term, postings docs term)).length = termSize (postings docs term) := by
  obtain ⟨hblocks, hpayload⟩ := encode_shape
    (impact (statsOf bm25 docs) (u32 (postings docs term).length)) (fun _ => (0 : Nat)) (postings docs term)
  rw [length_termBytes, hblocks, hpayload]
  rfl

theorem length_post_lt (h : FitsFormat docs) :
    ((invertedIndex docs).map (termBytes (statsOf bm25 docs))).flatten.length < 2 ^ 64 := by
  have hsizes : (((invertedIndex docs).map (termBytes (statsOf bm25 docs))).map List.length) =
      (vocabulary docs).map fun term => termSize (postings docs term) := by
    rw [invertedIndex, List.map_map, List.map_map]
    exact List.map_congr_left fun term _ => length_termBytes_eq docs term
  rw [List.length_flatten, hsizes]
  exact h.postOffset

theorem length_blocks_lt (h : FitsFormat docs) (impact : Posting → S) (term : Str) :
    (encode impact (postings docs term)).1.length < 2 ^ 32 :=
  (length_blocks_le impact _).trans_lt (length_postings_lt h term)

theorem getElem?_invertedIndex {i : Nat} (hi : (vocabulary docs)[i]? = some term) :
    (invertedIndex docs)[i]? = some (term, postings docs term) := by
  rw [invertedIndex, List.getElem?_map, hi]
  rfl

theorem recordFits (h : FitsFormat docs) (i : Nat) (term : Str) :
    RecordFits (recordAt (statsOf bm25 docs) (invertedIndex docs) i (term, postings docs term)) where
  strOffset := by
    rw [recordAt, map_fst_invertedIndex]
    exact (length_take_flatten_le _ i).trans_lt (length_strings_lt h)
  postOffset := (length_take_flatten_le _ i).trans_lt (length_post_lt h)
  strLen := u32_lt _
  df := u32_lt _
  numBlocks := u32_lt _

/-- The output of the merge on the inverted index of a corpus. -/
def outputOf (bm25 : Bm25 S) (docs : List Document) : Output S :=
  writeTerms (statsOf bm25 docs) {} (invertedIndex docs)

theorem outputOf_written (bm25 : Bm25 S) (docs : List Document) :
    Written (statsOf bm25 docs) (invertedIndex docs) (outputOf bm25 docs) := writeTerms_written _ _

/-- The index `open` builds, with its pointers into the four files. -/
def openedOn (bm25 : Bm25 S) (docs : List Document) : Index S where
  bm25 := bm25
  docCount := docs.length
  avgDl := (statsOf bm25 docs).avgDl
  docLengths i := readInt 4 (((docs.map fun d => (termsOf d).length).flatMap (putInt 4)).drop (4 * i) : List (Cell S))
  termCount := (vocabulary docs).length
  termRecords i := readTermRecord (((outputOf bm25 docs).records.flatMap putTermRecord ++
    putBytes (vocabulary docs).flatten).drop (32 * i))
  termStrings := putBytes (vocabulary docs).flatten
  postings := (outputOf bm25 docs).postOut
  docidOffsets i := readInt 8 ((((List.range (docs.length + 1)).map (idOffset docs)).flatMap (putInt 8) ++
    putBytes (docs.flatMap Document.externalId)).drop (8 * i) : List (Cell S))
  docidBlob := putBytes (docs.flatMap Document.externalId)

theorem post_pos (hne : vocabulary docs ≠ []) : 0 < (outputOf bm25 docs).postOut.length := by
  apply List.length_pos_of_ne_nil
  apply mt (postOut_eq_nil_iff (statsOf bm25 docs) ?_).mp
  · exact mt List.map_eq_nil_iff.mp hne
  · rintro ⟨term, ps⟩ he
    obtain ⟨hterm, rfl⟩ := mem_invertedIndex.mp he
    exact postings_ne_nil_iff.mpr hterm

theorem open_indexOf (h : FitsFormat docs) (hne : vocabulary docs ≠ []) :
    Reader.open bm25 (indexOf bm25 docs) = .ok (openedOn bm25 docs) := by
  have hw := outputOf_written bm25 docs
  have hcount : (outputOf bm25 docs).records.length = (vocabulary docs).length := by
    rw [hw.count, invertedIndex, List.length_map]
  have hstrings : (outputOf bm25 docs).stringsBlob = (vocabulary docs).flatten := by
    rw [hw.stringsBlob, map_fst_invertedIndex]
  have hdocs : (indexOf bm25 docs).docs = putInt 4 docs.length ++ (putFloat (statsOf bm25 docs).avgDl ++
      (docs.map fun d => (termsOf d).length).flatMap (putInt 4)) := by
    change _ ++ (_ ++ (List.take docs.length (docs.map _)).flatMap _) = _
    rw [List.take_of_length_le (by rw [List.length_map])]
    rfl
  have hterms : (indexOf bm25 docs).terms = putInt 4 (vocabulary docs).length ++
      ((outputOf bm25 docs).records.flatMap putTermRecord ++ putBytes (vocabulary docs).flatten) := by
    rw [← hstrings, ← u32_of_lt h.termCount, ← hcount]
    rfl
  have hids : (indexOf bm25 docs).docids = putInt 4 docs.length ++
      (((List.range (docs.length + 1)).map (idOffset docs)).flatMap (putInt 8) ++
        putBytes (docs.flatMap Document.externalId)) := rfl
  have hpost : (indexOf bm25 docs).post = (outputOf bm25 docs).postOut := rfl
  rw [open_of_pos (by rw [hdocs]; exact Nat.succ_pos _) (by rw [hterms]; exact Nat.succ_pos _)
    (hpost ▸ post_pos hne) (by rw [hids]; exact Nat.succ_pos _), hdocs, hterms, hids, hpost]
  have hrecords : ((outputOf bm25 docs).records.flatMap putTermRecord).length = 32 * (vocabulary docs).length := by
    rw [length_flatMap length_putTermRecord, hcount]
  have hoffsets : (((List.range (docs.length + 1)).map (idOffset docs)).flatMap (putInt 8) : List (Cell S)).length =
      8 * (docs.length + 1) := by
    rw [length_flatMap (length_putInt 8), List.length_map, List.length_range]
  have hdrop8 : ∀ p : List (Cell S), p.drop 8 = (p.drop 4).drop 4 := fun p => by
    rw [List.drop_drop]
  have hdrop : ∀ (n : Nat) (p : List (Cell S)), p.drop (4 + n) = (p.drop 4).drop n := fun n p => by
    rw [List.drop_drop]
  have hread : ∀ (n : Nat), n < 2 ^ 32 → ∀ p : List (Cell S), readInt 4 (putInt 4 n ++ p) = n :=
    fun n hn p => readInt_putInt_of_lt hn p
  simp only [hdrop8, hdrop, hread _ h.docCount, hread _ h.termCount, List.drop_left' (length_putInt _ _),
    List.drop_left' (length_putFloat _), readFloat_putFloat, List.drop_left' hrecords, List.drop_left' hoffsets]
  rfl

theorem termRecords_eq (h : FitsFormat docs) {i : Nat} (hi : (vocabulary docs)[i]? = some term) :
    (openedOn bm25 docs).termRecords i =
      recordAt (statsOf bm25 docs) (invertedIndex docs) i (term, postings docs term) := by
  have hrecord := (outputOf_written bm25 docs).record i _ (getElem?_invertedIndex hi)
  change readTermRecord (List.drop (32 * i) (_ ++ _)) = _
  rw [drop_flatMap_get length_putTermRecord hrecord]
  exact readTermRecord_putTermRecord (recordFits h i term) _

theorem termAt_eq (h : FitsFormat docs) {i : Nat} (hi : (vocabulary docs)[i]? = some term) :
    (openedOn bm25 docs).termAt ((openedOn bm25 docs).termRecords i) = term := by
  have hlen : u32 term.length = term.length := by
    obtain ⟨d, -, hd⟩ := mem_vocabulary.mp (List.mem_of_getElem? hi)
    have hle := length_term_le hd
    unfold kMaxTokenLength at hle
    exact u32_of_lt (by omega)
  rw [Index.termAt, termRecords_eq h hi]
  change readBytes (u32 term.length)
    ((putBytes (vocabulary docs).flatten).drop (((invertedIndex docs).map Prod.fst).take i).flatten.length) = term
  rw [map_fst_invertedIndex, hlen, drop_putBytes, drop_flatten_get hi, putBytes_append]
  exact readBytes_putBytes _ _

theorem postings_drop {i : Nat} (hi : (vocabulary docs)[i]? = some term) :
    ∃ rest, (openedOn bm25 docs).postings.drop
      (recordAt (statsOf bm25 docs) (invertedIndex docs) i (term, postings docs term)).postOffset =
        termBytes (statsOf bm25 docs) (term, postings docs term) ++ rest := by
  have hpiece : ((invertedIndex docs).map (termBytes (statsOf bm25 docs)))[i]? =
      some (termBytes (statsOf bm25 docs) (term, postings docs term)) := by
    rw [List.getElem?_map, getElem?_invertedIndex hi]
    rfl
  have hpost : (openedOn bm25 docs).postings = _ := (outputOf_written bm25 docs).postOut
  rw [hpost]
  exact ⟨_, drop_flatten_get hpiece⟩

theorem pointsAt (h : FitsFormat docs) {i : Nat} (hi : (vocabulary docs)[i]? = some term) :
    PointsAt bm25 docs (openedOn bm25 docs) ((openedOn bm25 docs).termRecords i) term := by
  have hdf : u32 (postings docs term).length = (postings docs term).length := u32_of_lt (length_postings_lt h term)
  have hnumBlocks := u32_of_lt (length_blocks_lt h
    (impact (statsOf bm25 docs) (postings docs term).length) term)
  obtain ⟨rest, hdrop⟩ := @postings_drop _ _ _ bm25 _ _ _ hi
  rw [termBytes, hdf, List.append_assoc] at hdrop
  rw [termRecords_eq h hi]
  refine ⟨hdf, ?_, fun addr => ?_⟩
  · rw [recordAt, hdf]
  · constructor
    · change u32 (encode (impact _ (u32 (postings docs term).length)) _).1.length = _
      rw [hdf, hnumBlocks]
    · intro j hj
      change readBlockMeta (((openedOn bm25 docs).postings.drop _).drop (16 * j)) = _
      rw [hdrop, drop_flatMap_get length_putBlockMeta (List.getElem?_eq_getElem hj)]
      apply readBlockMeta_putBlockMeta
      obtain ⟨hmax, hcount, hoffset⟩ := block_fits (fun p hp => (docid_lt hp).trans h.docCount)
        (List.getElem_mem hj)
      exact ⟨hmax, hcount, hoffset⟩
    · intro j hj
      change byteAt ((openedOn bm25 docs).postings.drop (_ + 16 * u32 (encode (impact _ (u32 (postings docs term).length)) _).1.length)) _ = _
      rw [hdf, hnumBlocks, ← List.drop_drop, hdrop, List.drop_left' (length_flatMap length_putBlockMeta _), Nat.zero_add]
      exact byteAt_putBytes _ _ hj

theorem externalId_eq (h : FitsFormat docs) {i : Nat} {d : Document} (hi : docs[i]? = some d) :
    (openedOn bm25 docs).externalId i = d.externalId := by
  have hlt := (List.getElem?_eq_some_iff.mp hi).1
  have hmap : ∀ j, idOffset docs j = ((docs.map Document.externalId).take j).flatten.length := by
    intro j
    rw [idOffset, List.flatMap_def, List.map_take]
  have hbound : ∀ j, idOffset docs j < 2 ^ 64 := by
    intro j
    have hle := length_take_flatten_le (docs.map Document.externalId) j
    rw [← hmap, ← List.flatMap_def] at hle
    exact hle.trans_lt h.docidOffset
  have hoffset : ∀ j ≤ docs.length, (openedOn bm25 docs).docidOffsets j = idOffset docs j := by
    intro j hj
    have hget : ((List.range (docs.length + 1)).map (idOffset docs))[j]? = some (idOffset docs j) := by
      rw [List.getElem?_map, List.getElem?_range (Nat.lt_succ_of_le hj)]
      rfl
    exact readInt_flatMap hget (hbound j) _
  have hpiece : (docs.map Document.externalId)[i]? = some d.externalId := by
    rw [List.getElem?_map, hi]
    rfl
  have hnext : idOffset docs (i + 1) = idOffset docs i + d.externalId.length := by
    rw [hmap, hmap, List.take_add_one, hpiece, List.flatten_append, List.length_append]
    simp
  have hlast := hbound (i + 1)
  have hlen : (idOffset docs (i + 1) + 2 ^ 64 - idOffset docs i) % 2 ^ 64 = d.externalId.length := by
    omega
  rw [Index.externalId, hoffset i hlt.le, hoffset (i + 1) hlt, hlen]
  change readBytes _ ((putBytes (docs.flatMap Document.externalId)).drop _) = _
  rw [drop_putBytes, List.flatMap_def, hmap, drop_flatten_get hpiece, putBytes_append]
  exact readBytes_putBytes _ _

/-- The opened index represents its corpus. -/
theorem openedOn_represents (bm25 : Bm25 S) (h : FitsFormat docs) : Represents bm25 docs (openedOn bm25 docs) where
  scoring := rfl
  docCount := rfl
  avgDl := rfl
  docLengths i d hi := by
    have hlen : (docs.map fun d => (termsOf d).length)[i]? = some (termsOf d).length := by
      rw [List.getElem?_map, hi]
      rfl
    have hread := @readInt_flatMap S 4 _ _ _ hlen (h.docLength d (List.mem_of_getElem? hi)) []
    rwa [List.append_nil] at hread
  termCount := rfl
  termAt _ _ hi := termAt_eq h hi
  pointsAt _ _ hi := pointsAt h hi
  externalId _ _ hi := externalId_eq h hi

end CascadeSearch.Query.Opened
