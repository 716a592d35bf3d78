import CascadeSearch.Index.Builder

/-!
# The block codec as a whole

What the builder writes for a term and what `decode_block` makes of it, for every
posting list whose payload offsets fit their field; and the stored bounds as
maxima of the scores they stand for.
-/
namespace CascadeSearch.Index.Codec

open Format Blocks Builder

variable {S : Type} [LinearOrder S] [Zero S]

/-- A maximum taken from zero is one of the values, if there are any and none is negative. -/
theorem isGreatest_foldl_max {α : Type} {f : α → S} {l : List α} (hne : l ≠ []) (h : ∀ x ∈ l, 0 ≤ f x) :
    IsGreatest {y | ∃ x ∈ l, f x = y} (l.foldl (fun m x => max m (f x)) 0) := by
  have hmem : ∀ (l : List α) (m : S), l.foldl (fun m x => max m (f x)) m = m ∨
      ∃ x ∈ l, f x = l.foldl (fun m x => max m (f x)) m := by
    intro l
    induction l with
    | nil => exact fun m => .inl rfl
    | cons x l ih =>
      intro m
      rcases ih (max m (f x)) with heq | ⟨y, hy, heq⟩
      · rw [List.foldl_cons, heq]
        rcases max_choice m (f x) with hmax | hmax
        · exact .inl hmax
        · exact .inr ⟨x, List.mem_cons_self, hmax.symm⟩
      · exact .inr ⟨y, List.mem_cons_of_mem _ hy, heq⟩
  refine ⟨?_, fun y ⟨x, hx, heq⟩ => heq ▸ (foldl_max f l 0).2 x hx⟩
  rcases hmem l 0 with hzero | hattained
  · obtain ⟨x, hx⟩ := List.exists_mem_of_ne_nil l hne
    have hle := (foldl_max f l 0).2 x hx
    rw [hzero] at hle
    exact ⟨x, hx, (le_antisymm hle (h x hx)).trans hzero.symm⟩
  · exact hattained

/-- Scores of terms that no more than all documents have are not negative. -/
def NonNegative (st : CorpusStats S) : Prop :=
  ∀ df ≤ st.docCount, ∀ tf docLen,
    0 ≤ st.bm25.bm25TermScore (st.bm25.bm25Idf st.docCount df) tf docLen st.avgDl

section Exact

variable {log : ℚ → ℚ}

theorem bm25Idf_nonneg (hlog : ∀ x, 1 ≤ x → 0 ≤ log x) {docCount df : Nat} (hdf : df ≤ docCount) :
    0 ≤ (Bm25.exact log BM25Params.default).bm25Idf docCount df := by
  have hle : (df : ℚ) ≤ docCount := by exact_mod_cast hdf
  have hnum : (0 : ℚ) ≤ (docCount : ℚ) - df + 1 / 2 := by linarith
  have hden : (0 : ℚ) ≤ (df : ℚ) + 1 / 2 := by positivity
  have hquot := div_nonneg hnum hden
  exact hlog _ (by linarith)

theorem bm25TermScore_nonneg {idf avgDl : ℚ} (hidf : 0 ≤ idf) (havg : 0 ≤ avgDl) (tf docLen : Nat) :
    0 ≤ (Bm25.exact log BM25Params.default).bm25TermScore idf tf docLen avgDl := by
  have hnorm : (0 : ℚ) ≤ 9 / 10 * (1 - 4 / 10 + 4 / 10 * docLen / avgDl) := by
    have hratio : (0 : ℚ) ≤ 4 / 10 * docLen / avgDl := by positivity
    linarith
  change 0 ≤ idf * (tf * (9 / 10 + 1)) / (tf + 9 / 10 * (1 - 4 / 10 + 4 / 10 * docLen / avgDl))
  positivity

/-- In exact arithmetic all of them are, as `log` is not negative from 1 on. -/
theorem nonNegative_exact (hlog : ∀ x, 1 ≤ x → 0 ≤ log x) {st : CorpusStats ℚ}
    (hbm25 : st.bm25 = Bm25.exact log BM25Params.default) (havg : 0 ≤ st.avgDl) : NonNegative st := by
  intro df hdf tf docLen
  rw [hbm25]
  exact bm25TermScore_nonneg (bm25Idf_nonneg hlog hdf) havg tf docLen

end Exact

theorem length_le_length_putFreqs (chunk : List Posting) : chunk.length ≤ (putFreqs chunk).length := by
  induction chunk with
  | nil => exact le_rfl
  | cons p ps ih =>
    have hvarint : 1 ≤ (putVarint p.tf).length := by
      unfold putVarint putVarintFrom
      split <;> simp
    simp only [putFreqs, List.flatMap_cons, List.length_append, List.length_cons] at ih ⊢
    omega

/-- Every posting takes at least a byte. -/
theorem length_le_payload (impact : Posting → S) (merged : List Posting) :
    merged.length ≤ (encode impact merged).2.length := by
  have hfrom : ∀ rounds size (merged : List Posting), merged.length ≤ rounds →
      merged.length ≤ (encodeFrom impact rounds size merged).2.length := by
    intro rounds
    induction rounds with
    | zero => exact fun size merged hlen => hlen.trans (Nat.zero_le _)
    | succ rounds ih =>
      intro size merged hlen
      cases hlast : (merged.take kBlockSize).getLast? with
      | none =>
        obtain rfl : merged = [] := by simpa [kBlockSize] using List.getLast?_eq_none_iff.mp hlast
        exact Nat.zero_le _
      | some last =>
        have hrest := ih (size + (blockPayload (merged.take kBlockSize)).length) (merged.drop kBlockSize)
          (by rw [List.length_drop]; unfold kBlockSize; omega)
        have hfreqs := length_le_length_putFreqs (merged.take kBlockSize)
        have hsplit := congrArg List.length (List.take_append_drop kBlockSize merged)
        rw [List.length_append] at hsplit
        have hbytes : (blockPayload (merged.take kBlockSize)).length =
            (putGaps true 0 (merged.take kBlockSize)).length + (putFreqs (merged.take kBlockSize)).length :=
          List.length_append
        rw [encodeFrom_some impact hlast]
        dsimp only
        rw [List.length_append]
        omega
  exact hfrom merged.length 0 merged le_rfl

/-- What a block of `payload` says of its chunk. A varint of a sixth byte, which
`decode_block` would shift by 35 bits, makes it `none`. -/
structure RoundTrips (impact : Posting → S) (payload : List Byte) (blk : BlockMeta S)
    (chunk : List Posting) : Prop where
  count : blk.count = chunk.length
  positive : 1 ≤ blk.count
  bounded : blk.count ≤ 128
  maxDocid : ∃ last, chunk.getLast? = some last ∧ blk.maxDocid = last.docid
  stored : blockPayload chunk <+: payload.drop blk.payloadOffset
  decodes : ∀ data : Nat → Byte, ReadsAt data blk.payloadOffset (blockPayload chunk) →
    decodeBlock data blk = some (chunk.map Posting.docid, chunk.map Posting.tf)
  maxImpact : IsGreatest {y | ∃ p ∈ chunk, impact p = y} blk.maxImpact

theorem roundTrips_of_encodes {impact : Posting → S} {payload : List Byte} {blk : BlockMeta S}
    {chunk : List Posting} (h : Encodes impact 0 payload blk chunk) (hd : ∀ p ∈ chunk, p.docid < 2 ^ 32)
    (ht : ∀ p ∈ chunk, p.tf < 2 ^ 32) (hscore : ∀ p ∈ chunk, 0 ≤ impact p) :
    RoundTrips impact payload blk chunk where
  count := h.count
  positive := h.count ▸ List.length_pos_iff.mpr h.nonempty
  bounded := h.count ▸ h.length_le
  maxDocid := ⟨_, List.getLast?_eq_some_getLast h.nonempty,
    h.maxDocid _ (List.getLast?_eq_some_getLast h.nonempty)⟩
  stored := by
    obtain ⟨pre, post, rfl, hoffset⟩ := h.bytes
    rw [hoffset, Nat.zero_add, List.append_assoc, List.drop_left]
    exact List.prefix_append _ _
  decodes data := h.decodes hd ht
  maxImpact := h.maxImpact ▸ isGreatest_foldl_max h.nonempty hscore

theorem exists_of_mem_left {α β : Type} {R : α → β → Prop} {l : List α} {l' : List β}
    (h : List.Forall₂ R l l') {a : α} (ha : a ∈ l) : ∃ b, R a b := by
  induction h with
  | nil => cases ha
  | cons hab _ ih =>
    rcases List.mem_cons.mp ha with rfl | ha
    · exact ⟨_, hab⟩
    · exact ih ha

/-- The blocks of a term partition its postings in order, and its bound is the
maximum of theirs. -/
def TermRoundTrips (impact : Posting → S) (merged : List Posting) : Prop :=
  ∃ chunks : List (List Posting), chunks.flatten = merged ∧
    List.Forall₂ (RoundTrips impact (encode impact merged).2) (encode impact merged).1 chunks ∧
    (merged ≠ [] → IsGreatest {y | ∃ blk ∈ (encode impact merged).1, blk.maxImpact = y}
      (termMax (encode impact merged).1))

/-- Ascending or not, 32-bit postings round-trip: gaps and their sums wrap alike. -/
theorem codec_round_trip {st : CorpusStats S} (hst : NonNegative st) {merged : List Posting}
    (hd : ∀ p ∈ merged, p.docid < 2 ^ 32) (ht : ∀ p ∈ merged, p.tf < 2 ^ 32)
    (hdf : merged.length ≤ st.docCount)
    (hfit : (encode (impact st (u32 merged.length)) merged).2.length < 2 ^ 32) :
    TermRoundTrips (impact st (u32 merged.length)) merged := by
  have hlen := length_le_payload (impact st (u32 merged.length)) merged
  have hscore : ∀ p, 0 ≤ impact st (u32 merged.length) p := by
    rw [u32_of_lt (by omega)]
    exact fun p => hst _ hdf _ _
  obtain ⟨chunks, hflat, hall⟩ := encodeFrom_encodes (impact st (u32 merged.length)) (le_refl merged.length)
    (by rw [Nat.zero_add]; exact hfit.le)
  refine ⟨chunks, hflat, forall₂_of_mem hall fun blk chunk hmem h => ?_, fun hne => ?_⟩
  · have hsub : ∀ p ∈ chunk, p ∈ merged := fun p hp => hflat ▸ List.mem_flatten.mpr ⟨chunk, hmem, hp⟩
    exact roundTrips_of_encodes h (fun p hp => hd p (hsub p hp)) (fun p hp => ht p (hsub p hp))
      (fun p _ => hscore p)
  · refine isGreatest_foldl_max (encode_ne_nil _ hne) fun blk hblk => ?_
    obtain ⟨chunk, h⟩ := exists_of_mem_left hall hblk
    rw [h.maxImpact]
    exact (foldl_max _ chunk 0).1

def sampleStats : CorpusStats ℚ where
  bm25 := Bm25.exact id BM25Params.default
  docLengths := [5, 1, 2]
  docCount := 400
  avgDl := 2

theorem codec_round_trip_sample :
    TermRoundTrips (impact sampleStats (u32 2)) [⟨3, 1⟩, ⟨300, 129⟩] :=
  codec_round_trip
    (nonNegative_exact (fun x hx => zero_le_one.trans hx) rfl (by norm_num [sampleStats]))
    (by decide) (by decide) (by decide) ((length_encode_le _ _).trans_lt (by decide))

end CascadeSearch.Index.Codec
