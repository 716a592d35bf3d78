import CascadeSearch.Query.Cursor

/-!
# Encoding one term's postings into blocks

The inner loop of the builder's merge: chunks of `kBlockSize` postings, each
encoded as docid gaps and then frequencies, with the metadata a cursor reads.
What a cursor decodes from them is the list that was encoded.
-/
namespace CascadeSearch.Index.Blocks

open Index.Format

/-- The gaps of one block; the first docid is absolute. -/
def putGaps : (first : Bool) → (previous : Nat) → List Posting → List Byte
  | _, _, [] => []
  | first, previous, p :: ps =>
      let gap := if first then p.docid else u32 (p.docid + 2 ^ 32 - previous)
      putVarint gap ++ putGaps false p.docid ps

def putFreqs (chunk : List Posting) : List Byte := chunk.flatMap (fun p => putVarint p.tf)

def blockPayload (chunk : List Posting) : List Byte := putGaps true 0 chunk ++ putFreqs chunk

theorem foldl_max {α S : Type} [LinearOrder S] (f : α → S) (l : List α) :
    ∀ m, m ≤ l.foldl (fun m x => max m (f x)) m ∧
      ∀ x ∈ l, f x ≤ l.foldl (fun m x => max m (f x)) m := by
  induction l with
  | nil => intro m; exact ⟨le_rfl, by simp⟩
  | cons x l ih =>
    intro m
    obtain ⟨hle, hall⟩ := ih (max m (f x))
    refine ⟨(le_max_left _ _).trans hle, fun y hy => ?_⟩
    rcases List.mem_cons.mp hy with rfl | hy
    · exact (le_max_right _ _).trans hle
    · exact hall y hy

variable {S : Type} [LinearOrder S] [Zero S]

/-- `max` over the chunk, from `0.0f`. -/
def blockMax (impact : Posting → S) (chunk : List Posting) : S :=
  chunk.foldl (fun blockMax p => max blockMax (impact p)) 0

/-- The loop over `start`, with the bytes already in `payload`. Every round
takes at least one posting. -/
def encodeFrom (impact : Posting → S) :
    (rounds payloadSize : Nat) → (rest : List Posting) → List (BlockMeta S) × List Byte
  | 0, _, _ => ([], [])
  | rounds + 1, payloadSize, rest =>
      match (rest.take kBlockSize).getLast? with
      | none => ([], [])
      | some last =>
          let chunk := rest.take kBlockSize
          let bytes := blockPayload chunk
          let blk : BlockMeta S := {
            maxDocid := last.docid
            count := u32 chunk.length
            payloadOffset := u32 payloadSize
            maxImpact := blockMax impact chunk }
          let (blks, payload) :=
            encodeFrom impact rounds (payloadSize + bytes.length) (rest.drop kBlockSize)
          (blk :: blks, bytes ++ payload)

/-- `block_meta` and `payload` for the postings of one term. -/
def encode (impact : Posting → S) (merged : List Posting) : List (BlockMeta S) × List Byte :=
  encodeFrom impact merged.length 0 merged

/-- `term_max_impact`. -/
def termMax (blks : List (BlockMeta S)) : S :=
  blks.foldl (fun termMaxImpact blk => max termMaxImpact blk.maxImpact) 0

theorem le_blockMax (impact : Posting → S) {chunk : List Posting} {p : Posting} (hp : p ∈ chunk) :
    impact p ≤ blockMax impact chunk := (foldl_max impact chunk 0).2 p hp

theorem le_termMax {blks : List (BlockMeta S)} {blk : BlockMeta S} (h : blk ∈ blks) :
    blk.maxImpact ≤ termMax blks := (foldl_max (fun blk => blk.maxImpact) blks 0).2 blk h

section Decode

variable {data : Nat → Byte}

/-- Gaps that the encoder took modulo `2^32` add up to the docids again. -/
theorem decodeDocids_putGaps (chunk : List Posting) (hc : ∀ p ∈ chunk, p.docid < 2 ^ 32) :
    ∀ {i previous pos : Nat}, previous < 2 ^ 32 →
      ReadsAt data pos (putGaps (decide (i = 0)) previous chunk) →
      decodeDocids data i chunk.length previous pos =
        some (chunk.map Posting.docid,
          pos + (putGaps (decide (i = 0)) previous chunk).length) := by
  induction chunk with
  | nil => intro i previous pos _ _; rfl
  | cons p ps ih =>
    intro i previous pos hprev hreads
    have hp : p.docid < 2 ^ 32 := hc p List.mem_cons_self
    simp only [putGaps] at hreads ⊢
    obtain ⟨hgap, hrest⟩ := readsAt_append.mp hreads
    have hsum : (if i = 0 then (if decide (i = 0) = true then p.docid
          else u32 (p.docid + 2 ^ 32 - previous))
        else u32 (previous + if decide (i = 0) = true then p.docid
          else u32 (p.docid + 2 ^ 32 - previous))) = p.docid := by
      by_cases hi : i = 0
      · simp [hi]
      · simp only [hi, decide_false, Bool.false_eq_true, if_false]
        unfold u32
        omega
    have hfit : (if decide (i = 0) = true then p.docid
        else u32 (p.docid + 2 ^ 32 - previous)) < 2 ^ 32 := by
      split
      · exact hp
      · exact u32_lt _
    have htail := @ih (fun q hq => hc q (List.mem_cons_of_mem _ hq)) (i + 1) p.docid
      (pos + (putVarint (if decide (i = 0) = true then p.docid
        else u32 (p.docid + 2 ^ 32 - previous))).length) hp (by simpa using hrest)
    rw [List.length_cons, decodeDocids, getVarint_putVarint hfit hgap]
    simp only [Option.bind_eq_bind, Option.bind_some]
    rw [hsum, htail]
    simp [Nat.add_assoc]

theorem decodeFreqs_putFreqs (chunk : List Posting) (hc : ∀ p ∈ chunk, p.tf < 2 ^ 32) :
    ∀ {pos : Nat}, ReadsAt data pos (putFreqs chunk) →
      ∃ pos', decodeFreqs data chunk.length pos = some (chunk.map Posting.tf, pos') := by
  induction chunk with
  | nil => intro pos _; exact ⟨pos, rfl⟩
  | cons p ps ih =>
    intro pos hreads
    simp only [putFreqs, List.flatMap_cons] at hreads
    obtain ⟨hfreq, hrest⟩ := readsAt_append.mp hreads
    obtain ⟨pos', htail⟩ := ih (fun q hq => hc q (List.mem_cons_of_mem _ hq)) hrest
    rw [List.length_cons, decodeFreqs, getVarint_putVarint (hc p List.mem_cons_self) hfreq]
    simp only [Option.bind_eq_bind, Option.bind_some]
    exact ⟨pos', by rw [htail]; rfl⟩

/-- Started at its payload offset, a block decodes to what was encoded,
whatever precedes or follows it. -/
theorem decodeBlock_blockPayload {S : Type} {chunk : List Posting} {blk : BlockMeta S}
    (hd : ∀ p ∈ chunk, p.docid < 2 ^ 32) (ht : ∀ p ∈ chunk, p.tf < 2 ^ 32)
    (hsize : chunk.length ≤ kBlockSize) (hcount : blk.count = chunk.length)
    (hreads : ReadsAt data blk.payloadOffset (blockPayload chunk)) :
    decodeBlock data blk = some (chunk.map Posting.docid, chunk.map Posting.tf) := by
  obtain ⟨hgaps, hfreqs⟩ := readsAt_append.mp hreads
  have hshift : ∀ {pos : Nat} {bytes : List Byte}, ReadsAt data (blk.payloadOffset + pos) bytes →
      ReadsAt (fun i => data (blk.payloadOffset + i)) pos bytes := by
    intro pos bytes h i hi
    show data (blk.payloadOffset + (pos + i)) = _
    rw [← Nat.add_assoc]
    exact h i hi
  have hdocids := @decodeDocids_putGaps (fun i => data (blk.payloadOffset + i)) chunk hd 0 0 0
    (by decide) (hshift (by simpa using hgaps))
  obtain ⟨pos', hfreqs'⟩ := decodeFreqs_putFreqs chunk ht (hshift hfreqs)
  unfold decodeBlock
  rw [if_neg (by omega), hcount]
  simp only [Option.bind_eq_bind]
  rw [hdocids]
  simp only [decide_true, Nat.zero_add, Option.bind_some]
  rw [hfreqs']
  rfl

end Decode

theorem length_putVarint_le (value : Nat) : (putVarint value).length ≤ 5 := by
  have hfrom : ∀ rounds value, (putVarintFrom rounds value).length ≤ rounds + 1 := by
    intro rounds
    induction rounds with
    | zero => intro value; exact le_rfl
    | succ rounds ih =>
      intro value
      unfold putVarintFrom
      split
      · exact Nat.succ_le_succ (ih _)
      · simp
  exact hfrom 4 value

theorem length_putGaps_le (chunk : List Posting) :
    ∀ first previous, (putGaps first previous chunk).length ≤ 5 * chunk.length := by
  induction chunk with
  | nil => intro first previous; exact le_rfl
  | cons p ps ih =>
    intro first previous
    simp only [putGaps, List.length_append, List.length_cons]
    have := length_putVarint_le (if first = true then p.docid else u32 (p.docid + 2 ^ 32 - previous))
    have := ih false p.docid
    omega

theorem length_putFreqs_le (chunk : List Posting) : (putFreqs chunk).length ≤ 5 * chunk.length := by
  induction chunk with
  | nil => exact le_rfl
  | cons p ps ih =>
    simp only [putFreqs, List.flatMap_cons, List.length_append, List.length_cons] at ih ⊢
    have := length_putVarint_le p.tf
    omega

theorem length_encode_le (impact : Posting → S) (merged : List Posting) :
    (encode impact merged).2.length ≤ 10 * merged.length := by
  have hfrom : ∀ rounds size (merged : List Posting),
      (encodeFrom impact rounds size merged).2.length ≤ 10 * merged.length := by
    intro rounds
    induction rounds with
    | zero => intro size merged; exact Nat.zero_le _
    | succ rounds ih =>
      intro size merged
      rw [encodeFrom]
      cases (merged.take kBlockSize).getLast? with
      | none => exact Nat.zero_le _
      | some last =>
        have hrest := ih (size + (blockPayload (merged.take kBlockSize)).length)
          (merged.drop kBlockSize)
        have hgaps := length_putGaps_le (merged.take kBlockSize) true 0
        have hfreqs := length_putFreqs_le (merged.take kBlockSize)
        have hsplit := congrArg List.length (List.take_append_drop kBlockSize merged)
        simp only [List.length_append] at hsplit
        simp only [List.length_append, blockPayload] at hrest ⊢
        omega
  exact hfrom merged.length 0 merged

theorem encodeFrom_none (impact : Posting → S) {rounds size : Nat} {merged : List Posting}
    (h : (merged.take kBlockSize).getLast? = none) : encodeFrom impact (rounds + 1) size merged = ([], []) := by
  rw [encodeFrom, h]

theorem encodeFrom_some (impact : Posting → S) {rounds size : Nat} {merged : List Posting} {last : Posting}
    (h : (merged.take kBlockSize).getLast? = some last) :
    encodeFrom impact (rounds + 1) size merged =
      let bytes := blockPayload (merged.take kBlockSize)
      let rest := encodeFrom impact rounds (size + bytes.length) (merged.drop kBlockSize)
      ({ maxDocid := last.docid
         count := u32 (merged.take kBlockSize).length
         payloadOffset := u32 size
         maxImpact := blockMax impact (merged.take kBlockSize) } :: rest.1, bytes ++ rest.2) := by
  rw [encodeFrom, h]

/-- The impacts do not show in the number of blocks, nor in the payload. -/
theorem encode_shape {S' : Type} [LinearOrder S'] [Zero S'] (impact : Posting → S) (impact' : Posting → S')
    (merged : List Posting) :
    (encode impact merged).1.length = (encode impact' merged).1.length ∧
      (encode impact merged).2 = (encode impact' merged).2 := by
  have hfrom : ∀ rounds size (merged : List Posting),
      (encodeFrom impact rounds size merged).1.length = (encodeFrom impact' rounds size merged).1.length ∧
        (encodeFrom impact rounds size merged).2 = (encodeFrom impact' rounds size merged).2 := by
    intro rounds
    induction rounds with
    | zero => exact fun _ _ => ⟨rfl, rfl⟩
    | succ rounds ih =>
      intro size merged
      cases hlast : (merged.take kBlockSize).getLast? with
      | none =>
        rw [encodeFrom_none impact hlast, encodeFrom_none impact' hlast]
        exact ⟨rfl, rfl⟩
      | some last =>
        rw [encodeFrom_some impact hlast, encodeFrom_some impact' hlast]
        obtain ⟨hlen, hpayload⟩ := ih (size + (blockPayload (merged.take kBlockSize)).length)
          (merged.drop kBlockSize)
        dsimp only
        rw [List.length_cons, List.length_cons, hlen, hpayload]
        exact ⟨rfl, rfl⟩
  exact hfrom merged.length 0 merged

theorem length_blocks_le (impact : Posting → S) (merged : List Posting) :
    (encode impact merged).1.length ≤ merged.length := by
  have hfrom : ∀ rounds size (merged : List Posting),
      (encodeFrom impact rounds size merged).1.length ≤ rounds := by
    intro rounds
    induction rounds with
    | zero => exact fun _ _ => le_rfl
    | succ rounds ih =>
      intro size merged
      cases hlast : (merged.take kBlockSize).getLast? with
      | none =>
        rw [encodeFrom_none impact hlast]
        exact Nat.zero_le _
      | some last =>
        rw [encodeFrom_some impact hlast]
        exact Nat.succ_le_succ (ih _ _)
  exact hfrom merged.length 0 merged

theorem encode_ne_nil (impact : Posting → S) {merged : List Posting} (h : merged ≠ []) :
    (encode impact merged).1 ≠ [] := by
  obtain ⟨p, ps, rfl⟩ := List.exists_cons_of_ne_nil h
  obtain ⟨last, hlast⟩ : ∃ last, ((p :: ps).take kBlockSize).getLast? = some last :=
    ⟨_, List.getLast?_eq_some_getLast (List.cons_ne_nil p (ps.take (kBlockSize - 1)))⟩
  rw [encode, List.length_cons, encodeFrom_some impact hlast]
  exact List.cons_ne_nil _ _

/-- The three integers of every block fit their fields. -/
theorem block_fits {impact : Posting → S} {merged : List Posting} (hd : ∀ p ∈ merged, p.docid < 2 ^ 32)
    {blk : BlockMeta S} (hblk : blk ∈ (encode impact merged).1) :
    blk.maxDocid < 2 ^ 32 ∧ blk.count < 2 ^ 32 ∧ blk.payloadOffset < 2 ^ 32 := by
  have hfrom : ∀ rounds size (merged : List Posting), (∀ p ∈ merged, p.docid < 2 ^ 32) →
      ∀ blk ∈ (encodeFrom impact rounds size merged).1,
        blk.maxDocid < 2 ^ 32 ∧ blk.count < 2 ^ 32 ∧ blk.payloadOffset < 2 ^ 32 := by
    intro rounds
    induction rounds with
    | zero => exact fun _ _ _ _ h => absurd h List.not_mem_nil
    | succ rounds ih =>
      intro size merged hd blk hblk
      cases hlast : (merged.take kBlockSize).getLast? with
      | none =>
        rw [encodeFrom_none impact hlast] at hblk
        cases hblk
      | some last =>
        rw [encodeFrom_some impact hlast] at hblk
        rcases List.mem_cons.mp hblk with rfl | hblk
        · exact ⟨hd last (List.mem_of_mem_take (List.mem_of_getLast? hlast)), u32_lt _, u32_lt _⟩
        · exact ih _ _ (fun p hp => hd p (List.mem_of_mem_drop hp)) blk hblk
  exact hfrom merged.length 0 merged hd blk hblk

section Term

open Query.Cursor

variable {impact : Posting → S} {data : Nat → Byte} {merged : List Posting}

/-- A block was written for one chunk, into a payload that starts at `size`. -/
structure Encodes (impact : Posting → S) (size : Nat) (payload : List Byte) (blk : BlockMeta S)
    (chunk : List Posting) : Prop where
  count : blk.count = chunk.length
  nonempty : chunk ≠ []
  length_le : chunk.length ≤ kBlockSize
  maxDocid : ∀ p, chunk.getLast? = some p → blk.maxDocid = p.docid
  maxImpact : blk.maxImpact = blockMax impact chunk
  bytes : ∃ pre post, payload = pre ++ blockPayload chunk ++ post ∧ blk.payloadOffset = size + pre.length

theorem Encodes.behind {size : Nat} {bytes payload : List Byte} {blk : BlockMeta S} {chunk : List Posting}
    (h : Encodes impact (size + bytes.length) payload blk chunk) :
    Encodes impact size (bytes ++ payload) blk chunk := by
  obtain ⟨pre, post, rfl, hoffset⟩ := h.bytes
  exact { h with bytes := ⟨bytes ++ pre, post, by simp, by rw [hoffset, List.length_append, Nat.add_assoc]⟩ }

/-- The blocks are those of successive chunks of the list. -/
theorem encodeFrom_encodes (impact : Posting → S) :
    ∀ {rounds size : Nat} {merged : List Posting}, merged.length ≤ rounds →
      size + (encodeFrom impact rounds size merged).2.length ≤ 2 ^ 32 →
      ∃ chunks : List (List Posting), chunks.flatten = merged ∧
        List.Forall₂ (Encodes impact size (encodeFrom impact rounds size merged).2)
          (encodeFrom impact rounds size merged).1 chunks := by
  intro rounds
  induction rounds with
  | zero =>
    intro size merged hlen _
    obtain rfl : merged = [] := List.length_eq_zero_iff.mp (by omega)
    exact ⟨[], rfl, List.Forall₂.nil⟩
  | succ rounds ih =>
    intro size merged hlen hfit
    cases hlast : (merged.take kBlockSize).getLast? with
    | none =>
      obtain rfl : merged = [] := by simpa [kBlockSize] using List.getLast?_eq_none_iff.mp hlast
      exact ⟨[], rfl, List.Forall₂.nil⟩
    | some last =>
      rw [encodeFrom_some impact hlast] at hfit ⊢
      dsimp only at hfit ⊢
      have hne : merged.take kBlockSize ≠ [] := by
        intro h
        rw [h] at hlast
        cases hlast
      have hsize : (merged.take kBlockSize).length ≤ kBlockSize := List.length_take_le _ _
      have hbytes : 0 < (blockPayload (merged.take kBlockSize)).length := by
        obtain ⟨p, ps, hcons⟩ := List.exists_cons_of_ne_nil hne
        rw [hcons]
        have : 0 < (putVarint p.docid).length := by
          unfold putVarint putVarintFrom
          split <;> simp
        simp only [blockPayload, putGaps, if_true, List.length_append]
        omega
      rw [List.length_append] at hfit
      have hrest : (merged.drop kBlockSize).length ≤ rounds := by
        rw [List.length_drop]
        unfold kBlockSize
        omega
      obtain ⟨chunks, hflat, hall⟩ :=
        @ih (size + (blockPayload (merged.take kBlockSize)).length) _ hrest (by omega)
      refine ⟨merged.take kBlockSize :: chunks, ?_, List.Forall₂.cons ?_ (hall.imp fun _ _ h => h.behind)⟩
      · rw [List.flatten_cons, hflat, List.take_append_drop]
      · refine ⟨u32_of_lt (by unfold kBlockSize at *; omega), hne, hsize, fun p hp => ?_, rfl, [], _, rfl, ?_⟩
        · rw [hlast] at hp
          cases hp
          rfl
        · dsimp only
          rw [u32_of_lt (by omega), List.length_nil, Nat.add_zero]

/-- Decoding started at the block's offset reads its chunk, whatever the other
bytes of `data` are. -/
theorem Encodes.decodes {size : Nat} {payload : List Byte} {blk : BlockMeta S} {chunk : List Posting}
    (h : Encodes impact size payload blk chunk) (hd : ∀ p ∈ chunk, p.docid < 2 ^ 32)
    (ht : ∀ p ∈ chunk, p.tf < 2 ^ 32) (hreads : ReadsAt data blk.payloadOffset (blockPayload chunk)) :
    decodeBlock data blk = some (chunk.map Posting.docid, chunk.map Posting.tf) :=
  decodeBlock_blockPayload hd ht h.length_le h.count hreads

theorem Encodes.readsAt {size : Nat} {payload : List Byte} {blk : BlockMeta S} {chunk : List Posting}
    (h : Encodes impact size payload blk chunk) (hreads : ReadsAt data size payload) :
    ReadsAt data blk.payloadOffset (blockPayload chunk) := by
  obtain ⟨pre, post, rfl, hoffset⟩ := h.bytes
  rw [hoffset]
  exact (readsAt_append.mp (readsAt_append.mp hreads).1).2

/-- A block holds one chunk. -/
structure Holds (impact : Posting → S) (data : Nat → Byte) (blk : BlockMeta S)
    (chunk : List Posting) : Prop where
  decodes : decodeBlock data blk = some (chunk.map Posting.docid, chunk.map Posting.tf)
  count : blk.count = chunk.length
  nonempty : chunk ≠ []
  size : chunk.length ≤ kBlockSize
  maxDocid : ∀ p, chunk.getLast? = some p → blk.maxDocid = p.docid
  maxImpact : blk.maxImpact = blockMax impact chunk

theorem forall₂_of_mem {α β : Type} {R R' : α → β → Prop} {l : List α} {l' : List β}
    (h : List.Forall₂ R l l') (himp : ∀ a, ∀ b ∈ l', R a b → R' a b) : List.Forall₂ R' l l' := by
  induction h with
  | nil => exact List.Forall₂.nil
  | cons hab _ ih =>
    exact List.Forall₂.cons (himp _ _ List.mem_cons_self hab)
      (ih fun a b hb => himp a b (List.mem_cons_of_mem _ hb))

theorem encodeFrom_spec (hd : ∀ p ∈ merged, p.docid < 2 ^ 32) (ht : ∀ p ∈ merged, p.tf < 2 ^ 32)
    {rounds size : Nat} (hlen : merged.length ≤ rounds)
    (hfit : size + (encodeFrom impact rounds size merged).2.length ≤ 2 ^ 32)
    (hreads : ReadsAt data size (encodeFrom impact rounds size merged).2) :
    ∃ chunks : List (List Posting), chunks.flatten = merged ∧
      List.Forall₂ (Holds impact data) (encodeFrom impact rounds size merged).1 chunks := by
  obtain ⟨chunks, rfl, hall⟩ := encodeFrom_encodes impact hlen hfit
  refine ⟨chunks, rfl, forall₂_of_mem hall fun blk chunk hmem h => ?_⟩
  have hsub : ∀ p ∈ chunk, p ∈ chunks.flatten := fun p hp => List.mem_flatten.mpr ⟨chunk, hmem, hp⟩
  exact {
    decodes := h.decodes (fun p hp => hd p (hsub p hp)) (fun p hp => ht p (hsub p hp)) (h.readsAt hreads)
    count := h.count
    nonempty := h.nonempty
    size := h.length_le
    maxDocid := h.maxDocid
    maxImpact := h.maxImpact }

/-- A source laid over the encoded blocks of a term. -/
structure Reads (t : PostingSource S) (impact : Posting → S) (merged : List Posting) : Prop where
  numBlocks : t.numBlocks = (encode impact merged).1.length
  blocks : ∀ (i : Nat) (hi : i < (encode impact merged).1.length),
    t.blocks i = (encode impact merged).1[i]
  payload : ReadsAt t.payload 0 (encode impact merged).2

/-- The source a term's own bytes make. -/
def layOut (impact : Posting → S) (idf : S) (addr : Nat) (merged : List Posting) :
    PostingSource S where
  blocks i := (encode impact merged).1.getD i ⟨0, 0, 0, 0⟩
  numBlocks := (encode impact merged).1.length
  payload i := (encode impact merged).2.getD i 0
  idf := idf
  maxImpact := termMax (encode impact merged).1
  addr := addr

theorem layOut_reads (impact : Posting → S) (idf : S) (addr : Nat) (merged : List Posting) :
    Reads (layOut impact idf addr merged) impact merged where
  numBlocks := rfl
  blocks i hi := List.getD_eq_getElem _ _ hi
  payload i hi := by
    rw [Nat.zero_add]
    exact List.getD_eq_getElem _ _ hi

variable {t : PostingSource S}

theorem blockPostings_of_holds {i : Nat} {chunk : List Posting}
    (h : Holds impact t.payload (t.blocks i) chunk) : t.blockPostings i = chunk := by
  rw [PostingSource.blockPostings_of_decode h.decodes, List.zipWith_map_left,
    List.zipWith_map_right, List.zipWith_self]
  exact List.map_id chunk

/-- What a cursor is opened on decodes to the postings that were encoded, in
well-formed blocks whose bounds hold. -/
theorem Reads.spec (h : Reads t impact merged)
    (hd : ∀ p ∈ merged, p.docid < kNoDocid) (ht : ∀ p ∈ merged, p.tf < 2 ^ 32)
    (hfit : (encode impact merged).2.length ≤ 2 ^ 32)
    (hasc : merged.Pairwise (fun p q => p.docid < q.docid)) :
    t.all = merged ∧ t.WellFormed ∧
      (∀ i < t.numBlocks, ∀ p ∈ t.blockPostings i, impact p ≤ (t.blocks i).maxImpact) ∧
      ∀ i < t.numBlocks, (t.blocks i).maxImpact ≤ termMax (encode impact merged).1 := by
  obtain ⟨chunks, hflat, hall⟩ := @encodeFrom_spec _ _ _ impact t.payload merged
    (fun p hp => by have := hd p hp; unfold kNoDocid at this; omega) ht _ _ le_rfl
    (by rw [Nat.zero_add]; exact hfit) h.payload
  change List.Forall₂ (Holds impact t.payload) (encode impact merged).1 chunks at hall
  have hlen := hall.length_eq
  have hblock : ∀ (i : Nat) (hi : i < chunks.length),
      Holds impact t.payload (t.blocks i) chunks[i] := by
    intro i hi
    rw [h.blocks i (by omega)]
    exact List.Forall₂.get hall (by omega) hi
  have hpost : ∀ (i : Nat) (hi : i < chunks.length), t.blockPostings i = chunks[i] :=
    fun i hi => blockPostings_of_holds (hblock i hi)
  have hblocks : t.numBlocks = chunks.length := by rw [h.numBlocks, hlen]
  have hevery : t.all = merged := by
    rw [← hflat, PostingSource.all, PostingSource.postingsFrom, hblocks, Nat.sub_zero,
      List.flatMap_def]
    congr 1
    refine List.ext_getElem (by simp) fun i hi hi' => ?_
    rw [List.getElem_map, List.getElem_range', Nat.zero_add, Nat.one_mul]
    exact hpost i hi'
  refine ⟨hevery, ⟨fun i hi => ?_, fun i hi => ?_, hevery ▸ hasc, fun i hi p hp => ?_,
    hevery ▸ hd⟩, fun i hi p hp => ?_, fun i hi => ?_⟩
  · rw [(hblock i (by omega)).decodes]
    rfl
  · have hb := hblock i (by omega)
    rw [hb.count]
    exact List.length_pos_of_ne_nil hb.nonempty
  · rw [hpost i (by omega)] at hp
    exact (hblock i (by omega)).maxDocid p hp
  · rw [hpost i (by omega)] at hp
    rw [(hblock i (by omega)).maxImpact]
    exact le_blockMax impact hp
  · rw [h.blocks i (by omega)]
    exact le_termMax (List.getElem_mem _)

end Term

end CascadeSearch.Index.Blocks
