import CascadeSearch.Index.MergePass

/-!
# Corpora that fit the format

Every corpus file below 256 MiB fits, whatever it says: nothing the format
counts can outgrow the bytes it was read from.
-/
namespace CascadeSearch.Index.Fits

open Format Analyzer Corpus Inverted Blocks MergePass

theorem length_tokenize_le (text : Str) : (tokenize text).length ≤ text.length := by
  induction text using tokenize_induction with
  | nil => exact le_rfl
  | separator c text hc ih =>
    rw [tokenize_separator hc]
    exact ih.trans (Nat.le_succ _)
  | word c text hc ih =>
    rw [tokenize_word hc]
    exact Nat.succ_le_succ (ih.trans (scanToken_length c text))

theorem length_termsOf_le (d : Document) : (termsOf d).length ≤ d.text.length :=
  (List.length_filterMap_le _ _).trans (length_tokenize_le d.text)

theorem sum_getlinesFrom_le (file : Str) :
    ∀ line, ((getlinesFrom line file).map List.length).sum ≤ line.length + file.length := by
  induction file with
  | nil =>
    intro line
    rw [getlinesFrom]
    split
    · exact Nat.zero_le _
    · exact le_rfl
  | cons c file ih =>
    intro line
    rw [getlinesFrom]
    split
    · have hrest := ih []
      rw [List.length_nil] at hrest
      rw [List.map_cons, List.sum_cons, List.length_cons]
      omega
    · have hrest := ih (line ++ [c])
      rw [List.length_append, List.length_singleton] at hrest
      rw [List.length_cons]
      omega

/-- A document and its tab. -/
def lineLength (d : Document) : Nat := d.externalId.length + (1 + d.text.length)

theorem sum_lineLength_le (file : Str) : ((documents file).map lineLength).sum ≤ file.length := by
  have hlines : ∀ lines : List Str,
      ((lines.filterMap parseLine).map lineLength).sum ≤ (lines.map List.length).sum := by
    intro lines
    induction lines with
    | nil => exact le_rfl
    | cons line lines ih =>
      rw [List.map_cons, List.sum_cons]
      cases hline : parseLine line with
      | none =>
        rw [List.filterMap_cons_none hline]
        omega
      | some d =>
        have hlen := congrArg List.length (parseLine_eq_some hline).1
        rw [List.length_append, List.length_cons] at hlen
        rw [List.filterMap_cons_some hline, List.map_cons, List.sum_cons, lineLength]
        omega
  have hfile := sum_getlinesFrom_le file []
  rw [List.length_nil, Nat.zero_add] at hfile
  exact (hlines (getlines file)).trans hfile

variable {docs : List Document} {bound : Nat}

theorem length_docs_le (h : (docs.map lineLength).sum ≤ bound) : docs.length ≤ bound := by
  have hle : (docs.map fun _ => 1).sum ≤ (docs.map lineLength).sum := by
    apply List.sum_le_sum
    intro d _
    unfold lineLength
    omega
  rw [List.map_const', List.sum_replicate, smul_eq_mul, Nat.mul_one] at hle
  exact hle.trans h

theorem length_doc_le (h : (docs.map lineLength).sum ≤ bound) {d : Document} (hd : d ∈ docs) :
    lineLength d ≤ bound :=
  (List.single_le_sum (fun _ _ => Nat.zero_le _) _ (List.mem_map_of_mem hd)).trans h

theorem length_vocabulary_le (h : (docs.map lineLength).sum ≤ bound) : (vocabulary docs).length ≤ bound := by
  have hterms : (docs.flatMap termsOf).length ≤ (docs.map lineLength).sum := by
    rw [List.length_flatMap]
    apply List.sum_le_sum
    intro d _
    have hlen := length_termsOf_le d
    unfold lineLength
    omega
  rw [vocabulary, Finset.length_sort]
  exact (List.toFinset_card_le _).trans (hterms.trans h)

theorem length_externalIds_le (h : (docs.map lineLength).sum ≤ bound) :
    (docs.flatMap Document.externalId).length ≤ bound := by
  rw [List.length_flatMap]
  refine (List.sum_le_sum fun d _ => ?_).trans h
  exact Nat.le_add_right _ _

theorem termSize_le (ps : List Posting) : termSize ps ≤ 26 * ps.length := by
  have hblocks := length_blocks_le (fun _ => (0 : Nat)) ps
  have hpayload := length_encode_le (fun _ => (0 : Nat)) ps
  unfold termSize payloadSize
  omega

theorem fitsFormat_of_length_lt {corpus : Str} (h : corpus.length < 2 ^ 28) : FitsFormat (documents corpus) := by
  have hsum := (sum_lineLength_le corpus).trans (Nat.le_of_lt_succ h)
  have hdocs := length_docs_le hsum
  have hpostings : ∀ term, (postings (documents corpus) term).length ≤ 2 ^ 28 - 1 := fun term =>
    (length_postings_le _ term).trans hdocs
  constructor
  · omega
  · intro d hd
    have hlen := length_doc_le hsum hd
    have hterms := length_termsOf_le d
    unfold lineLength at hlen
    omega
  · have hvocabulary := length_vocabulary_le hsum
    omega
  · intro term _
    have hpayload := length_encode_le (fun _ => (0 : Nat)) (postings (documents corpus) term)
    have hlen := hpostings term
    unfold payloadSize
    omega
  · have hterm : ∀ n ∈ (vocabulary (documents corpus)).map fun term => termSize (postings (documents corpus) term),
        n ≤ 26 * (2 ^ 28 - 1) := by
      intro n hn
      obtain ⟨term, -, rfl⟩ := List.mem_map.mp hn
      exact (termSize_le _).trans (Nat.mul_le_mul_left 26 (hpostings term))
    have htotal := List.sum_le_card_nsmul _ _ hterm
    have hvocabulary := length_vocabulary_le hsum
    rw [List.length_map, smul_eq_mul] at htotal
    have hmul := Nat.mul_le_mul_right (26 * (2 ^ 28 - 1)) hvocabulary
    omega
  · have hids := length_externalIds_le hsum
    omega

end CascadeSearch.Index.Fits
