import CascadeSearch.Index.Format

/-!
# Cursors over blocked postings (`PostingCursor`)

A cursor reads block metadata and payload bytes through typed pointers and
keeps one decoded block. `remaining` is the flat list of postings it has still
to deliver, its current one first. Every operation has one lemma that says what
it does to `remaining`; nothing above this module looks at blocks again except
through the bounds of the block a cursor stands in.
-/
namespace CascadeSearch.Query.Cursor

open Index.Format

def kNoDocid : Nat := 2 ^ 32 - 1

/-- What a cursor is opened on: the constructor's arguments and the cursor's
place in the vector that owns it, which stands for its address. -/
structure PostingSource (S : Type) where
  blocks : Nat → BlockMeta S
  numBlocks : Nat
  payload : Nat → Byte
  idf : S
  maxImpact : S
  addr : Nat

structure PostingCursor (S : Type) extends PostingSource S where
  blockIndex : Nat
  position : Nat
  docid : Nat
  freq : Nat
  exhausted : Bool
  docids : List Nat
  freqs : List Nat
  /-- This cursor's share of `stats_->blocks_decoded`. -/
  blocksDecoded : Nat
  /-- Ghost: which blocks those were, the latest first. -/
  decodedBlocks : List Nat

variable {S : Type}

namespace PostingCursor

def blockMaxImpact (c : PostingCursor S) : S := (c.blocks c.blockIndex).maxImpact

def blockMaxDocid (c : PostingCursor S) : Nat := (c.blocks c.blockIndex).maxDocid

def decodeBlock (c : PostingCursor S) : PostingCursor S :=
  let arrays := (Index.Format.decodeBlock c.payload (c.blocks c.blockIndex)).getD ([], [])
  { c with docids := arrays.1, freqs := arrays.2, position := 0,
           blocksDecoded := c.blocksDecoded + 1,
           decodedBlocks := c.blockIndex :: c.decodedBlocks }

/-- `docid_ = docids_[position_]; freq_ = freqs_[position_];` -/
def load (c : PostingCursor S) : PostingCursor S :=
  { c with docid := c.docids.getD c.position 0, freq := c.freqs.getD c.position 0 }

def exhaust (c : PostingCursor S) : PostingCursor S :=
  { c with exhausted := true, docid := kNoDocid }

/-- The constructor. -/
def «open» (t : PostingSource S) : PostingCursor S :=
  let c : PostingCursor S :=
    { t with blockIndex := 0, position := 0, docid := 0, freq := 0, exhausted := false,
             docids := [], freqs := [], blocksDecoded := 0, decodedBlocks := [] }
  if t.numBlocks = 0 then c.exhaust else c.decodeBlock.load

/-- `block_index_++`, then decode the block arrived at or give up. -/
def enterNextBlock (c : PostingCursor S) : PostingCursor S :=
  let c := { c with blockIndex := c.blockIndex + 1 }
  if c.numBlocks ≤ c.blockIndex then c.exhaust else c.decodeBlock.load

def next (c : PostingCursor S) : PostingCursor S :=
  if c.exhausted then c
  else
    let c := { c with position := c.position + 1 }
    if (c.blocks c.blockIndex).count ≤ c.position then c.enterNextBlock else c.load

/-- The first block from `i` on, among `left` blocks, that may hold `target`. -/
def firstBlock (blocks : Nat → BlockMeta S) (target : Nat) : (left i : Nat) → Nat
  | 0, i => i
  | left + 1, i =>
      if (blocks i).maxDocid < target then firstBlock blocks target left (i + 1) else i

def skipToBlock (target : Nat) (c : PostingCursor S) : PostingCursor S :=
  if c.exhausted then c
  else
    let entryBlock := c.blockIndex
    let c := { c with
      blockIndex := firstBlock c.blocks target (c.numBlocks - c.blockIndex) c.blockIndex }
    if c.numBlocks ≤ c.blockIndex then c.exhaust
    else if c.blockIndex ≠ entryBlock then c.decodeBlock.load
    else c

/-- `while (position_ < count && docids_[position_] < target) position_++` with
`left` entries of the block still to look at. -/
def firstGeq (docids : List Nat) (target : Nat) : (left position : Nat) → Nat
  | 0, position => position
  | left + 1, position =>
      if docids.getD position 0 < target then firstGeq docids target left (position + 1)
      else position

def nextGeq (target : Nat) (c : PostingCursor S) : PostingCursor S :=
  if c.exhausted ∨ target ≤ c.docid then c
  else
    let c := c.skipToBlock target
    if c.exhausted then c
    else
      let count := (c.blocks c.blockIndex).count
      let c := { c with position := firstGeq c.docids target (count - c.position) c.position }
      if count ≤ c.position then c.enterNextBlock else c.load

end PostingCursor

namespace PostingSource

/-- What decoding block `i` yields. -/
def blockPostings (t : PostingSource S) (i : Nat) : List Posting :=
  match Index.Format.decodeBlock t.payload (t.blocks i) with
  | some (docids, freqs) => List.zipWith Posting.mk docids freqs
  | none => []

/-- The postings of the blocks from `i` on. -/
def postingsFrom (t : PostingSource S) (i : Nat) : List Posting :=
  (List.range' i (t.numBlocks - i)).flatMap t.blockPostings

def all (t : PostingSource S) : List Posting := t.postingsFrom 0

/-- Blocks that decode, are not empty, ascend strictly across the whole list
and name their last docid; no docid is the end marker. -/
structure WellFormed (t : PostingSource S) : Prop where
  decodes : ∀ i < t.numBlocks, (Index.Format.decodeBlock t.payload (t.blocks i)).isSome
  nonempty : ∀ i < t.numBlocks, 0 < (t.blocks i).count
  ascending : t.all.Pairwise (fun p q => p.docid < q.docid)
  maxDocid : ∀ i < t.numBlocks, ∀ p, (t.blockPostings i).getLast? = some p →
    (t.blocks i).maxDocid = p.docid
  below : ∀ p ∈ t.all, p.docid < kNoDocid

variable {t : PostingSource S} {i j : Nat}

theorem blockPostings_of_decode {docids freqs : List Nat}
    (h : Index.Format.decodeBlock t.payload (t.blocks i) = some (docids, freqs)) :
    t.blockPostings i = List.zipWith Posting.mk docids freqs := by
  simp [blockPostings, h]

theorem postingsFrom_end (h : t.numBlocks ≤ i) : t.postingsFrom i = [] := by
  simp [postingsFrom, Nat.sub_eq_zero_of_le h]

theorem postingsFrom_step (h : i < t.numBlocks) :
    t.postingsFrom i = t.blockPostings i ++ t.postingsFrom (i + 1) := by
  unfold postingsFrom
  rw [show t.numBlocks - i = t.numBlocks - (i + 1) + 1 from by omega, List.range'_succ,
    List.flatMap_cons]

/-- The blocks skipped between `i` and `j` and what follows them. -/
theorem postingsFrom_split (hij : i ≤ j) (hj : j ≤ t.numBlocks) :
    t.postingsFrom i =
      (List.range' i (j - i)).flatMap t.blockPostings ++ t.postingsFrom j := by
  unfold postingsFrom
  have hlen : t.numBlocks - i = (j - i) + (t.numBlocks - j) := by omega
  rw [hlen, ← List.range'_append_1, List.flatMap_append, show i + (j - i) = j from by omega]

theorem postingsFrom_suffix (hi : i ≤ t.numBlocks) : t.postingsFrom i <:+ t.all :=
  ⟨_, (postingsFrom_split (Nat.zero_le i) hi).symm⟩

namespace WellFormed

theorem length_blockPostings (h : t.WellFormed) (hi : i < t.numBlocks) :
    (t.blockPostings i).length = (t.blocks i).count := by
  obtain ⟨⟨docids, freqs⟩, hd⟩ := Option.isSome_iff_exists.mp (h.decodes i hi)
  obtain ⟨hdl, hfl⟩ := decodeBlock_length hd
  rw [blockPostings_of_decode hd, List.length_zipWith, hdl, hfl, Nat.min_self]

theorem docid_inj (h : t.WellFormed) {p q : Posting} (hp : p ∈ t.all) (hq : q ∈ t.all)
    (hd : p.docid = q.docid) : p = q := by
  have hlt : (t.all.map Posting.docid).Pairwise (· < ·) := List.pairwise_map.mpr h.ascending
  exact List.inj_on_of_nodup_map (hlt.imp fun hab => hab.ne) hp hq hd

theorem ascending_from (h : t.WellFormed) (hi : i ≤ t.numBlocks) :
    (t.postingsFrom i).Pairwise (fun p q => p.docid < q.docid) :=
  h.ascending.sublist (postingsFrom_suffix hi).sublist

/-- No posting of a block lies beyond its `max_docid`. -/
theorem docid_le_maxDocid (h : t.WellFormed) (hi : i < t.numBlocks) {p : Posting}
    (hp : p ∈ t.blockPostings i) : p.docid ≤ (t.blocks i).maxDocid := by
  obtain ⟨q, hq⟩ : ∃ q, (t.blockPostings i).getLast? = some q :=
    ⟨_, List.getLast?_eq_some_getLast (List.ne_nil_of_mem hp)⟩
  rw [h.maxDocid i hi q hq]
  obtain ⟨l, hl⟩ := List.getLast?_eq_some_iff.mp hq
  have hasc : (t.blockPostings i).Pairwise (fun p q => p.docid < q.docid) := by
    have := h.ascending_from hi.le
    rw [postingsFrom_step hi] at this
    exact (List.pairwise_append.mp this).1
  rw [hl] at hp hasc
  rcases List.mem_append.mp hp with hp | hp
  · exact ((List.pairwise_append.mp hasc).2.2 p hp q (by simp)).le
  · rw [List.mem_singleton.mp hp]

theorem maxDocid_lt_later (h : t.WellFormed) (hi : i < t.numBlocks) {p : Posting}
    (hp : p ∈ t.postingsFrom (i + 1)) : (t.blocks i).maxDocid < p.docid := by
  have hne : t.blockPostings i ≠ [] := by
    have := h.nonempty i hi
    rw [← h.length_blockPostings hi] at this
    exact List.ne_nil_of_length_pos this
  have hq := List.getLast?_eq_some_getLast hne
  rw [h.maxDocid i hi _ hq]
  have hasc := h.ascending_from hi.le
  rw [postingsFrom_step hi] at hasc
  exact (List.pairwise_append.mp hasc).2.2 _ (List.getLast_mem hne) p hp

end WellFormed
end PostingSource

namespace PostingCursor

variable {c : PostingCursor S} {target : Nat}

/-- The postings the cursor has still to deliver, the current one first. -/
def remaining (c : PostingCursor S) : List Posting :=
  if c.exhausted then [] else (c.postingsFrom c.blockIndex).drop c.position

/-- The decoded arrays are those of the current block, the cached entry is the
one at the position, and the position lies inside the block. -/
structure Live (c : PostingCursor S) : Prop where
  inBlocks : c.blockIndex < c.numBlocks
  inBlock : c.position < (c.blocks c.blockIndex).count
  arrays : Index.Format.decodeBlock c.payload (c.blocks c.blockIndex) = some (c.docids, c.freqs)
  docid : c.docid = c.docids.getD c.position 0
  freq : c.freq = c.freqs.getD c.position 0

structure Consistent (c : PostingCursor S) : Prop where
  wf : c.toPostingSource.WellFormed
  ended : c.exhausted = true → c.docid = kNoDocid
  live : c.exhausted = false → c.Live

theorem remaining_of_exhausted (h : c.exhausted = true) : c.remaining = [] := by
  simp [remaining, h]

theorem remaining_of_live (h : c.exhausted = false) :
    c.remaining = (c.postingsFrom c.blockIndex).drop c.position := by
  simp [remaining, h]

theorem Consistent.remaining_split (hc : c.Consistent) (h : c.exhausted = false) :
    c.remaining = (c.blockPostings c.blockIndex).drop c.position ++
      c.postingsFrom (c.blockIndex + 1) := by
  have hl := hc.live h
  rw [remaining_of_live h, PostingSource.postingsFrom_step hl.inBlocks,
    List.drop_append_of_le_length]
  rw [hc.wf.length_blockPostings hl.inBlocks]
  exact hl.inBlock.le

/-- While live, the cached entry is the head of what remains. -/
theorem Consistent.remaining_cons (hc : c.Consistent) (h : c.exhausted = false) :
    c.remaining = ⟨c.docid, c.freq⟩ :: c.remaining.tail := by
  have hl := hc.live h
  obtain ⟨hdl, hfl⟩ := decodeBlock_length hl.arrays
  have hin := hl.inBlock
  have hlt : c.position < (c.blockPostings c.blockIndex).length := by
    rw [hc.wf.length_blockPostings hl.inBlocks]; exact hin
  have hget : (c.blockPostings c.blockIndex)[c.position] = ⟨c.docid, c.freq⟩ := by
    have hz := PostingSource.blockPostings_of_decode hl.arrays
    simp only [hz, List.getElem_zipWith, hl.docid, hl.freq]
    rw [List.getD_eq_getElem _ _ (by omega), List.getD_eq_getElem _ _ (by omega)]
  rw [hc.remaining_split h, List.drop_eq_getElem_cons hlt, hget]
  rfl

/-- A cursor with something left stands on the first of it. -/
theorem Consistent.head (hc : c.Consistent) {p : Posting} {ps : List Posting}
    (hrem : c.remaining = p :: ps) : c.exhausted = false ∧ c.docid = p.docid ∧ c.freq = p.tf := by
  have hx : c.exhausted = false := by
    cases hx : c.exhausted with
    | true =>
      rw [remaining_of_exhausted hx] at hrem
      cases hrem
    | false => rfl
  have hhead := hc.remaining_cons hx
  rw [hrem] at hhead
  obtain ⟨rfl, -⟩ := List.cons.inj hhead
  exact ⟨hx, rfl, rfl⟩

theorem Consistent.remaining_eq_nil_iff (hc : c.Consistent) :
    c.remaining = [] ↔ c.exhausted = true := by
  constructor
  · intro hr
    by_contra h
    have := hc.remaining_cons (by simpa using h)
    rw [hr] at this
    cases this
  · exact remaining_of_exhausted

theorem Consistent.ascending (hc : c.Consistent) :
    c.remaining.Pairwise (fun p q => p.docid < q.docid) := by
  cases h : c.exhausted with
  | true => rw [remaining_of_exhausted h]; exact List.Pairwise.nil
  | false =>
    rw [remaining_of_live h]
    exact (hc.wf.ascending_from (hc.live h).inBlocks.le).sublist (List.drop_sublist _ _)

theorem Consistent.suffix (hc : c.Consistent) : c.remaining <:+ c.all := by
  cases h : c.exhausted with
  | true => rw [remaining_of_exhausted h]; exact List.nil_suffix
  | false =>
    rw [remaining_of_live h]
    exact (List.drop_suffix _ _).trans
      (PostingSource.postingsFrom_suffix (hc.live h).inBlocks.le)

theorem Consistent.docid_le (hc : c.Consistent) (h : c.exhausted = false) {p : Posting}
    (hp : p ∈ c.remaining) : c.docid ≤ p.docid := by
  have hcons := hc.remaining_cons h
  have hasc := hc.ascending
  rw [hcons] at hp hasc
  rcases List.mem_cons.mp hp with rfl | hp
  · exact le_rfl
  · exact (List.rel_of_pairwise_cons hasc hp).le

theorem Consistent.docid_lt (hc : c.Consistent) (h : c.exhausted = false) :
    c.docid < kNoDocid := by
  have hmem : (⟨c.docid, c.freq⟩ : Posting) ∈ c.remaining := by
    rw [hc.remaining_cons h]; exact List.mem_cons_self
  exact hc.wf.below _ (hc.suffix.mem hmem)

theorem Consistent.docid_le_blockMaxDocid (hc : c.Consistent) (h : c.exhausted = false) :
    c.docid ≤ c.blockMaxDocid := by
  have hl := hc.live h
  have hlen := hc.wf.length_blockPostings hl.inBlocks
  have hcons := hc.remaining_cons h
  rw [hc.remaining_split h] at hcons
  have hne : (c.blockPostings c.blockIndex).drop c.position ≠ [] := by
    intro hnil
    have := List.drop_eq_nil_iff.mp hnil
    have := hl.inBlock
    omega
  obtain ⟨q, qs, hq⟩ := List.exists_cons_of_ne_nil hne
  rw [hq, List.cons_append] at hcons
  obtain ⟨rfl, -⟩ := List.cons.inj hcons
  have hmem : (⟨c.docid, c.freq⟩ : Posting) ∈ c.blockPostings c.blockIndex := by
    apply List.mem_of_mem_drop
    rw [hq]
    exact List.mem_cons_self
  exact hc.wf.docid_le_maxDocid hl.inBlocks hmem

/-- The end of the current block is one of the cursor's documents. -/
theorem Consistent.exists_blockMaxDocid (hc : c.Consistent) (h : c.exhausted = false) :
    ∃ p ∈ c.all, c.blockMaxDocid = p.docid := by
  have hin := (hc.live h).inBlocks
  have hne : c.blockPostings c.blockIndex ≠ [] := by
    have := hc.wf.nonempty _ hin
    rw [← hc.wf.length_blockPostings hin] at this
    exact List.ne_nil_of_length_pos this
  refine ⟨_, ?_, hc.wf.maxDocid _ hin _ (List.getLast?_eq_some_getLast hne)⟩
  refine (PostingSource.postingsFrom_suffix hin.le).mem ?_
  rw [PostingSource.postingsFrom_step hin]
  exact List.mem_append_left _ (List.getLast_mem hne)

/-- What remains up to the block's last docid lies in the current block. -/
theorem Consistent.mem_block (hc : c.Consistent) (h : c.exhausted = false) {p : Posting}
    (hp : p ∈ c.remaining) (hle : p.docid ≤ c.blockMaxDocid) :
    p ∈ c.blockPostings c.blockIndex := by
  rw [hc.remaining_split h] at hp
  rcases List.mem_append.mp hp with hp | hp
  · exact List.mem_of_mem_drop hp
  · have := hc.wf.maxDocid_lt_later (hc.live h).inBlocks hp
    unfold blockMaxDocid at hle
    omega

@[simp] theorem decodeBlock_source : c.decodeBlock.toPostingSource = c.toPostingSource := rfl
@[simp] theorem load_source : c.load.toPostingSource = c.toPostingSource := rfl
@[simp] theorem exhaust_source : c.exhaust.toPostingSource = c.toPostingSource := rfl

theorem exhaust_consistent (hwf : c.toPostingSource.WellFormed) : c.exhaust.Consistent where
  wf := hwf
  ended _ := rfl
  live h := by simp [exhaust] at h

/-- Entering a block by decoding it: all of it and what follows remain. -/
theorem decodeBlock_load_spec (hwf : c.toPostingSource.WellFormed)
    (hx : c.exhausted = false) (hb : c.blockIndex < c.numBlocks) :
    c.decodeBlock.load.Consistent ∧ c.decodeBlock.load.exhausted = false ∧
      c.decodeBlock.load.remaining = c.postingsFrom c.blockIndex := by
  obtain ⟨⟨docids, freqs⟩, hd⟩ := Option.isSome_iff_exists.mp (hwf.decodes _ hb)
  have hcount := hwf.nonempty _ hb
  refine ⟨⟨hwf, fun h => ?_, fun _ => ⟨hb, hcount, ?_, rfl, rfl⟩⟩, hx, ?_⟩
  · rw [show c.decodeBlock.load.exhausted = c.exhausted from rfl, hx] at h
    cases h
  · simp [load, decodeBlock, hd]
  · rw [remaining_of_live (by exact hx)]
    simp [load, decodeBlock]

theorem enterNextBlock_source : c.enterNextBlock.toPostingSource = c.toPostingSource := by
  unfold enterNextBlock
  dsimp only
  split <;> rfl

theorem enterNextBlock_spec (hwf : c.toPostingSource.WellFormed) (hx : c.exhausted = false) :
    c.enterNextBlock.Consistent ∧
      c.enterNextBlock.remaining = c.postingsFrom (c.blockIndex + 1) := by
  unfold enterNextBlock
  dsimp only
  by_cases hend : c.numBlocks ≤ c.blockIndex + 1
  · rw [if_pos hend]
    refine ⟨exhaust_consistent hwf, ?_⟩
    rw [PostingSource.postingsFrom_end hend]
    exact remaining_of_exhausted rfl
  · rw [if_neg hend]
    obtain ⟨hcons, -, hrem⟩ := decodeBlock_load_spec
      (c := { c with blockIndex := c.blockIndex + 1 }) hwf hx (Nat.not_le.mp hend)
    exact ⟨hcons, hrem⟩

theorem open_source (t : PostingSource S) : («open» t).toPostingSource = t := by
  unfold «open»
  dsimp only
  split <;> rfl

theorem open_blockIndex (t : PostingSource S) : («open» t).blockIndex = 0 := by
  unfold «open»
  dsimp only
  split <;> rfl

theorem open_spec {t : PostingSource S} (hwf : t.WellFormed) :
    («open» t).Consistent ∧ («open» t).remaining = t.all := by
  unfold «open»
  dsimp only
  by_cases hz : t.numBlocks = 0
  · rw [if_pos hz]
    refine ⟨exhaust_consistent hwf, ?_⟩
    rw [remaining_of_exhausted rfl, PostingSource.all, PostingSource.postingsFrom_end (by omega)]
  · rw [if_neg hz]
    obtain ⟨hcons, -, hrem⟩ := decodeBlock_load_spec
      (c := { t with blockIndex := 0, position := 0, docid := 0, freq := 0, exhausted := false,
                     docids := [], freqs := [], blocksDecoded := 0, decodedBlocks := [] })
      hwf rfl (Nat.pos_of_ne_zero hz)
    exact ⟨hcons, hrem⟩

theorem open_head {t : PostingSource S} (hwf : t.WellFormed) {p : Posting} {ps : List Posting}
    (hall : t.all = p :: ps) :
    («open» t).exhausted = false ∧ («open» t).docid = p.docid ∧ («open» t).freq = p.tf := by
  obtain ⟨hcons, hrem⟩ := open_spec hwf
  exact hcons.head (hrem.trans hall)

theorem next_source : c.next.toPostingSource = c.toPostingSource := by
  unfold next
  split
  · rfl
  · dsimp only
    split
    · rw [enterNextBlock_source]
    · rfl

/-- A position inside the current block is a consistent place to move to. -/
theorem Consistent.seek (hc : c.Consistent) (hx : c.exhausted = false) {j : Nat}
    (hj : j < (c.blocks c.blockIndex).count) :
    (load { c with position := j }).Consistent ∧
      (load { c with position := j }).remaining = (c.postingsFrom c.blockIndex).drop j := by
  have hl := hc.live hx
  refine ⟨⟨hc.wf, fun h => ?_, fun _ => ⟨hl.inBlocks, hj, hl.arrays, rfl, rfl⟩⟩, remaining_of_live hx⟩
  cases hx.symm.trans h

theorem Consistent.remaining_seek (hc : c.Consistent) (hx : c.exhausted = false) {j : Nat} (hle : c.position ≤ j)
    (hj : j < (c.blocks c.blockIndex).count) :
    c.remaining = ((c.blockPostings c.blockIndex).take j).drop c.position ++ (c.postingsFrom c.blockIndex).drop j := by
  have hl := hc.live hx
  have hlen := hc.wf.length_blockPostings hl.inBlocks
  have hblock : (c.blockPostings c.blockIndex).drop c.position =
      ((c.blockPostings c.blockIndex).take j).drop c.position ++ (c.blockPostings c.blockIndex).drop j := by
    conv_lhs => rw [← List.take_append_drop j (c.blockPostings c.blockIndex)]
    exact List.drop_append_of_le_length (by rw [List.length_take]; omega)
  rw [remaining_of_live hx, PostingSource.postingsFrom_step hl.inBlocks, List.drop_append_of_le_length (by omega),
    List.drop_append_of_le_length (by omega), hblock, List.append_assoc]

/-- `next` drops the current posting. -/
theorem next_spec (hc : c.Consistent) : c.next.Consistent ∧ c.next.remaining = c.remaining.tail := by
  unfold next
  by_cases hx : c.exhausted = true
  · rw [if_pos hx]
    exact ⟨hc, by rw [remaining_of_exhausted hx]; rfl⟩
  · have hx' : c.exhausted = false := by simpa using hx
    have hl := hc.live hx'
    have hin := hl.inBlock
    rw [if_neg hx]
    dsimp only
    have htail : c.remaining.tail = (c.postingsFrom c.blockIndex).drop (c.position + 1) := by
      rw [remaining_of_live hx', List.tail_drop]
    by_cases hend : (c.blocks c.blockIndex).count ≤ c.position + 1
    · rw [if_pos hend]
      obtain ⟨hcons, hrem⟩ :=
        enterNextBlock_spec (c := { c with position := c.position + 1 }) hc.wf hx'
      refine ⟨hcons, hrem.trans ?_⟩
      rw [htail, PostingSource.postingsFrom_step hl.inBlocks, List.drop_left']
      rw [hc.wf.length_blockPostings hl.inBlocks]
      omega
    · rw [if_neg hend]
      rw [htail]
      exact hc.seek hx' (Nat.not_le.mp hend)

theorem firstBlock_spec (blocks : Nat → BlockMeta S) (target : Nat) :
    ∀ left i, i ≤ firstBlock blocks target left i ∧ firstBlock blocks target left i ≤ i + left ∧
      (∀ m, i ≤ m → m < firstBlock blocks target left i → (blocks m).maxDocid < target) ∧
      (firstBlock blocks target left i < i + left →
        target ≤ (blocks (firstBlock blocks target left i)).maxDocid) := by
  intro left
  induction left with
  | zero => intro i; simp [firstBlock]; omega
  | succ left ih =>
    intro i
    unfold firstBlock
    split
    · rename_i hlt
      obtain ⟨h1, h2, h3, h4⟩ := ih (i + 1)
      refine ⟨by omega, by omega, fun m hm hmlt => ?_, fun h => h4 (by omega)⟩
      rcases Nat.eq_or_lt_of_le hm with rfl | hm
      · exact hlt
      · exact h3 m hm hmlt
    · rename_i hge
      exact ⟨le_rfl, by omega, fun m hm hmlt => by omega, fun _ => by omega⟩

theorem skipToBlock_source : (c.skipToBlock target).toPostingSource = c.toPostingSource := by
  unfold skipToBlock
  split
  · rfl
  · dsimp only
    split
    · rfl
    · split <;> rfl

/-- Where `skip_to_block` lands: on the current block, on the first later one
that may hold the target, or past the last. -/
theorem skipToBlock_cases (hc : c.Consistent) (hx : c.exhausted = false) :
    (target ≤ c.blockMaxDocid ∧ c.skipToBlock target = c) ∨
      ∃ j, c.blockIndex < j ∧ j ≤ c.numBlocks ∧
        (∀ m, c.blockIndex ≤ m → m < j → (c.blocks m).maxDocid < target) ∧
        ((j = c.numBlocks ∧ c.skipToBlock target = exhaust { c with blockIndex := j }) ∨
          (j < c.numBlocks ∧ target ≤ (c.blocks j).maxDocid ∧
            c.skipToBlock target = load (decodeBlock { c with blockIndex := j }))) := by
  have hin := (hc.live hx).inBlocks
  obtain ⟨hge, hle, hbelow, hat⟩ :=
    firstBlock_spec c.blocks target (c.numBlocks - c.blockIndex) c.blockIndex
  rw [show c.blockIndex + (c.numBlocks - c.blockIndex) = c.numBlocks from by omega] at hle hat
  unfold skipToBlock
  rw [if_neg (by simp [hx])]
  dsimp only
  generalize firstBlock c.blocks target (c.numBlocks - c.blockIndex) c.blockIndex = j at *
  by_cases hsame : j = c.blockIndex
  · subst hsame
    rw [if_neg (Nat.not_le.mpr hin), if_neg (not_not.mpr rfl)]
    exact .inl ⟨hat hin, rfl⟩
  · refine .inr ⟨j, by omega, hle, hbelow, ?_⟩
    by_cases hend : c.numBlocks ≤ j
    · rw [if_pos hend]
      exact .inl ⟨by omega, rfl⟩
    · rw [if_neg hend, if_pos hsame]
      exact .inr ⟨by omega, hat (by omega), rfl⟩

/-- `skip_to_block` discards whole blocks below the target, and nothing when
the current block may hold it. -/
theorem skipToBlock_spec (hc : c.Consistent) :
    (c.skipToBlock target).Consistent ∧
      (∃ skipped, c.remaining = skipped ++ (c.skipToBlock target).remaining ∧
        ∀ p ∈ skipped, p.docid < target) ∧
      ((c.skipToBlock target).exhausted = false → target ≤ (c.skipToBlock target).blockMaxDocid) := by
  by_cases hx : c.exhausted = true
  · have hs : c.skipToBlock target = c := by simp [skipToBlock, hx]
    rw [hs]
    exact ⟨hc, ⟨[], rfl, by simp⟩, fun h => by rw [hx] at h; cases h⟩
  · have hx' : c.exhausted = false := by simpa using hx
    have hl := hc.live hx'
    have hin := hl.inBlocks
    rcases @skipToBlock_cases _ c target hc hx' with ⟨hle, hself⟩ | ⟨j, hlt, hle, hbelow, hland⟩
    · rw [hself]
      exact ⟨hc, ⟨[], rfl, by simp⟩, fun _ => hle⟩
    · have hskip : c.remaining =
          ((List.range' c.blockIndex (j - c.blockIndex)).flatMap c.blockPostings).drop c.position ++
            c.postingsFrom j := by
        rw [remaining_of_live hx', PostingSource.postingsFrom_split hlt.le hle,
          List.drop_append_of_le_length]
        rw [show j - c.blockIndex = j - (c.blockIndex + 1) + 1 from by omega, List.range'_succ,
          List.flatMap_cons, List.length_append, hc.wf.length_blockPostings hin]
        have := hl.inBlock
        omega
      have hsmall : ∀ p ∈ ((List.range' c.blockIndex (j - c.blockIndex)).flatMap
          c.blockPostings).drop c.position, p.docid < target := by
        intro p hp
        obtain ⟨m, hm, hpm⟩ := List.mem_flatMap.mp (List.mem_of_mem_drop hp)
        obtain ⟨hm1, hm2⟩ := List.mem_range'_1.mp hm
        have hle' := hc.wf.docid_le_maxDocid (show m < c.numBlocks by omega) hpm
        have := hbelow m hm1 (by omega)
        omega
      rcases hland with ⟨hend, heq⟩ | ⟨hend, hmax, heq⟩
      · rw [heq]
        refine ⟨exhaust_consistent hc.wf, ⟨_, ?_, hsmall⟩, fun h => by simp [exhaust] at h⟩
        rw [remaining_of_exhausted (c := exhaust _) rfl, List.append_nil, hskip,
          PostingSource.postingsFrom_end hend.ge, List.append_nil]
      · obtain ⟨hcons, -, hrem⟩ := decodeBlock_load_spec (c := { c with blockIndex := j }) hc.wf hx' hend
        rw [heq]
        exact ⟨hcons, ⟨_, hskip.trans (by rw [hrem]), hsmall⟩, fun _ => hmax⟩

/-- A cursor whose block may hold the target stays where it is. -/
theorem skipToBlock_eq_self (hc : c.Consistent) (h : c.exhausted = false)
    (hle : target ≤ c.blockMaxDocid) : c.skipToBlock target = c := by
  have hin := (hc.live h).inBlocks
  have hj : firstBlock c.blocks target (c.numBlocks - c.blockIndex) c.blockIndex = c.blockIndex := by
    obtain ⟨left, hleft⟩ : ∃ m, c.numBlocks - c.blockIndex = m + 1 :=
      ⟨c.numBlocks - c.blockIndex - 1, by omega⟩
    rw [hleft, firstBlock, if_neg (by unfold blockMaxDocid at hle; omega)]
  unfold skipToBlock
  rw [if_neg (by simp [h])]
  dsimp only
  rw [hj, if_neg (Nat.not_le.mpr hin), if_neg (not_not.mpr rfl)]

theorem firstGeq_spec (docids : List Nat) (target : Nat) :
    ∀ left i, i ≤ firstGeq docids target left i ∧ firstGeq docids target left i ≤ i + left ∧
      (∀ m, i ≤ m → m < firstGeq docids target left i → docids.getD m 0 < target) ∧
      (firstGeq docids target left i < i + left →
        target ≤ docids.getD (firstGeq docids target left i) 0) := by
  intro left
  induction left with
  | zero => intro i; simp [firstGeq]; omega
  | succ left ih =>
    intro i
    unfold firstGeq
    split
    · rename_i hlt
      obtain ⟨h1, h2, h3, h4⟩ := ih (i + 1)
      refine ⟨by omega, by omega, fun m hm hmlt => ?_, fun h => h4 (by omega)⟩
      rcases Nat.eq_or_lt_of_le hm with rfl | hm
      · exact hlt
      · exact h3 m hm hmlt
    · rename_i hge
      exact ⟨le_rfl, by omega, fun m hm hmlt => by omega, fun _ => by omega⟩

theorem dropWhile_append_of_lt {pre rest : List Posting} (hpre : ∀ p ∈ pre, p.docid < target)
    (hrest : ∀ p ∈ rest.head?, target ≤ p.docid) :
    (pre ++ rest).dropWhile (fun p => p.docid < target) = rest := by
  rw [List.dropWhile_append_of_pos (by simpa using hpre)]
  cases rest with
  | nil => rfl
  | cons p rest =>
    have := hrest p (by simp)
    rw [List.dropWhile_cons_of_neg (by simpa using this)]

theorem nextGeq_source : (c.nextGeq target).toPostingSource = c.toPostingSource := by
  unfold nextGeq
  split
  · rfl
  · dsimp only
    split
    · exact skipToBlock_source
    · split
      · rw [enterNextBlock_source]
        exact skipToBlock_source
      · exact skipToBlock_source

theorem Consistent.docid_at (hc : c.Consistent) (hx : c.exhausted = false) {m : Nat}
    (hm : m < (c.blockPostings c.blockIndex).length) :
    ((c.blockPostings c.blockIndex)[m]).docid = c.docids.getD m 0 := by
  have hl := hc.live hx
  obtain ⟨hdl, -⟩ := decodeBlock_length hl.arrays
  have hlen := hc.wf.length_blockPostings hl.inBlocks
  have hz := PostingSource.blockPostings_of_decode hl.arrays
  simp only [hz, List.getElem_zipWith]
  rw [List.getD_eq_getElem _ _ (by omega)]

/-- The last docid of a block is its maximum, so the scan stops inside the block. -/
theorem firstGeq_lt_count (hc : c.Consistent) (hx : c.exhausted = false) (hmax : target ≤ c.blockMaxDocid) :
    firstGeq c.docids target ((c.blocks c.blockIndex).count - c.position) c.position <
      (c.blocks c.blockIndex).count := by
  have hl := hc.live hx
  have hin := hl.inBlock
  have hlen := hc.wf.length_blockPostings hl.inBlocks
  obtain ⟨hge, hle, hbelow, -⟩ := firstGeq_spec c.docids target
    ((c.blocks c.blockIndex).count - c.position) c.position
  by_contra hnot
  have hm : (c.blocks c.blockIndex).count - 1 < (c.blockPostings c.blockIndex).length := by
    omega
  have hlast := hc.wf.maxDocid c.blockIndex hl.inBlocks
    (c.blockPostings c.blockIndex)[(c.blocks c.blockIndex).count - 1]
    (by simp [List.getLast?_eq_getElem?, hlen])
  rw [hc.docid_at hx hm] at hlast
  have := hbelow ((c.blocks c.blockIndex).count - 1) (by omega) (by omega)
  unfold blockMaxDocid at hmax
  omega

/-- `next_geq` moves to the first remaining posting at or after the target. -/
theorem nextGeq_spec (hc : c.Consistent) :
    (c.nextGeq target).Consistent ∧
      (c.nextGeq target).remaining = c.remaining.dropWhile (fun p => p.docid < target) := by
  unfold nextGeq
  by_cases hstay : c.exhausted = true ∨ target ≤ c.docid
  · rw [if_pos hstay]
    refine ⟨hc, ?_⟩
    cases hx : c.exhausted with
    | true => rw [remaining_of_exhausted hx]; rfl
    | false =>
      have hle : target ≤ c.docid := by simpa [hx] using hstay
      rw [hc.remaining_cons hx, List.dropWhile_cons_of_neg (by simpa using hle)]
  · rw [if_neg hstay]
    dsimp only
    obtain ⟨hs, ⟨skipped, hskip, hsmall⟩, hmax⟩ := @skipToBlock_spec _ c target hc
    generalize hd : c.skipToBlock target = d at *
    by_cases hx : d.exhausted = true
    · rw [if_pos hx]
      refine ⟨hs, ?_⟩
      rw [hskip, dropWhile_append_of_lt hsmall]
      rw [remaining_of_exhausted hx]
      simp
    · have hx' : d.exhausted = false := by simpa using hx
      have hl := hs.live hx'
      have hin := hl.inBlock
      have hlen := hs.wf.length_blockPostings hl.inBlocks
      rw [if_neg hx]
      have hjlt := firstGeq_lt_count hs hx' (hmax hx')
      obtain ⟨hge, hle, hbelow, hat⟩ := firstGeq_spec d.docids target
        ((d.blocks d.blockIndex).count - d.position) d.position
      rw [show d.position + ((d.blocks d.blockIndex).count - d.position) =
        (d.blocks d.blockIndex).count from by omega] at hle hat
      generalize hj : firstGeq d.docids target
        ((d.blocks d.blockIndex).count - d.position) d.position = j at *
      have hentry := fun m (hm : m < (d.blockPostings d.blockIndex).length) => hs.docid_at hx' hm
      rw [if_neg (Nat.not_le.mpr hjlt)]
      obtain ⟨hcons, hrem⟩ := hs.seek hx' hjlt
      refine ⟨hcons, ?_⟩
      rw [hrem, hskip, hs.remaining_seek hx' hge hjlt, ← List.append_assoc, dropWhile_append_of_lt]
      · intro p hp
        rcases List.mem_append.mp hp with hp | hp
        · exact hsmall p hp
        · rw [List.drop_take] at hp
          obtain ⟨m, hm, rfl⟩ := List.mem_iff_getElem.mp hp
          simp only [List.length_take, List.length_drop] at hm
          simp only [List.getElem_take, List.getElem_drop]
          rw [hentry _ (by omega)]
          exact hbelow _ (by omega) (by omega)
      · intro p hp
        rw [PostingSource.postingsFrom_step hl.inBlocks,
          List.drop_append_of_le_length (by omega),
          List.drop_eq_getElem_cons (by omega)] at hp
        simp only [List.cons_append, List.head?_cons, Option.mem_def, Option.some.injEq] at hp
        rw [← hp, hentry _ (by omega)]
        exact hat hjlt

end PostingCursor
end CascadeSearch.Query.Cursor
