import CascadeSearch.Query.RoundedPruning

/-!
# Queries over freely chosen posting lists

Each list is laid out as the builder lays out a term: blocks of `kBlockSize`
postings, every bound the exact maximum. A posting of frequency one scores
nothing, any other its term's weight, so that a query can be given whatever
scores a case calls for.
-/
namespace CascadeSearch.Query.LaidOut

open Lib.RoundedSum
open Index.Format Index.Blocks
open Cursor Heap Reader Pruning RoundedPruning

variable {S : Type}

structure TermList (S : Type) where
  weight : S
  postings : List Posting

/-- What the builder can write: 32-bit numbers, docids ascending. -/
structure TermList.Fits [LinearOrder S] [Zero S] (l : TermList S) : Prop where
  weight : 0 ≤ l.weight
  docids : ∀ p ∈ l.postings, p.docid < kNoDocid
  tfs : ∀ p ∈ l.postings, p.tf < 2 ^ 32
  size : 10 * l.postings.length ≤ 2 ^ 32
  ascending : l.postings.Pairwise (fun p q => p.docid < q.docid)

variable [LinearOrder S] [Zero S]

def TermList.source (a : Nat) (l : TermList S) : PostingSource S :=
  layOut (impactOf l.weight) l.weight a l.postings

def layOutAll (lists : List (TermList S)) : List (PostingSource S) := lists.mapIdx TermList.source

theorem TermList.Fits.spec {l : TermList S} (h : l.Fits) (a : Nat) :
    (l.source a).all = l.postings ∧ (l.source a).WellFormed ∧
      (∀ i < (l.source a).numBlocks, ∀ p ∈ (l.source a).blockPostings i,
        impactOf l.weight p ≤ ((l.source a).blocks i).maxImpact) ∧
      ∀ i < (l.source a).numBlocks, ((l.source a).blocks i).maxImpact ≤ (l.source a).maxImpact := by
  have hlen := length_encode_le (impactOf l.weight) l.postings
  exact (layOut_reads (impactOf l.weight) l.weight a l.postings).spec h.docids h.tfs
    (hlen.trans h.size) h.ascending

variable {lists : List (TermList S)}

theorem mem_layOutAll {t : PostingSource S} (ht : t ∈ layOutAll lists) :
    ∃ l ∈ lists, ∃ a, t = l.source a := by
  obtain ⟨a, ha, rfl⟩ := List.mem_mapIdx.mp ht
  exact ⟨lists[a], List.getElem_mem ha, a, rfl⟩

theorem layOutAll_wellFormed (h : ∀ l ∈ lists, l.Fits) : WellFormed (layOutAll lists) where
  source t ht := by
    obtain ⟨l, hl, a, rfl⟩ := mem_layOutAll ht
    exact ((h l hl).spec a).2.1
  addrs := by
    unfold layOutAll
    refine List.pairwise_iff_getElem.mpr fun i j hi hj hij => ?_
    rw [List.getElem_mapIdx, List.getElem_mapIdx]
    exact hij

theorem layOutAll_validBounds (h : ∀ l ∈ lists, l.Fits) : ValidBounds trapIndex (layOutAll lists) where
  nonneg t ht p _ := by
    obtain ⟨l, hl, a, rfl⟩ := mem_layOutAll ht
    exact impactOf_nonneg (h l hl).weight p
  block t ht := by
    obtain ⟨l, hl, a, rfl⟩ := mem_layOutAll ht
    exact ((h l hl).spec a).2.2.1
  term t ht := by
    obtain ⟨l, hl, a, rfl⟩ := mem_layOutAll ht
    exact ((h l hl).spec a).2.2.2

section TwoBlocks

variable {impact : Posting → S} {first second : List Posting} {w : S}

theorem blockMax_le (hw : 0 ≤ w) (h : ∀ p ∈ first, impact p ≤ w) : blockMax impact first ≤ w := by
  have hfold : ∀ (l : List Posting) (m : S), m ≤ w → (∀ p ∈ l, impact p ≤ w) →
      l.foldl (fun m p => max m (impact p)) m ≤ w := by
    intro l
    induction l with
    | nil => exact fun m hm _ => hm
    | cons p l ih =>
      intro m hm hl
      exact ih _ (max_le hm (hl p List.mem_cons_self)) fun q hq => hl q (List.mem_cons_of_mem _ hq)
  exact hfold first 0 hw h

theorem encodeFrom_nil (impact : Posting → S) (rounds size : Nat) :
    encodeFrom impact rounds size [] = ([], []) := by
  cases rounds with
  | zero => rfl
  | succ rounds => exact encodeFrom_none impact rfl

/-- A full block and what is left over. -/
theorem encode_two (hfirst : first.length = kBlockSize) (hsecond : second ≠ [])
    (hsize : second.length ≤ kBlockSize) {p q : Posting} (hp : first.getLast? = some p)
    (hq : second.getLast? = some q) :
    ∃ offset offset', (encode impact (first ++ second)).1 =
      [⟨p.docid, kBlockSize, offset, blockMax impact first⟩,
        ⟨q.docid, second.length, offset', blockMax impact second⟩] := by
  have hlen := List.length_pos_of_ne_nil hsecond
  obtain ⟨rounds, hrounds⟩ : ∃ rounds, (first ++ second).length = rounds + 1 + 1 :=
    ⟨first.length + second.length - 2, by rw [List.length_append, hfirst]; unfold kBlockSize; omega⟩
  have htake : (first ++ second).take kBlockSize = first := List.take_left' hfirst
  have hdrop : (first ++ second).drop kBlockSize = second := List.drop_left' hfirst
  have htake' : second.take kBlockSize = second := List.take_of_length_le hsize
  have hdrop' : second.drop kBlockSize = [] := List.drop_eq_nil_iff.mpr hsize
  rw [encode, hrounds, encodeFrom_some impact (by rw [htake]; exact hp), htake, hdrop, hfirst]
  dsimp only
  rw [encodeFrom_some impact (by rw [htake']; exact hq), htake', hdrop']
  dsimp only
  have hcount : u32 kBlockSize = kBlockSize := u32_of_lt (by decide)
  have hcount' : u32 second.length = second.length := u32_of_lt (by unfold kBlockSize at hsize; omega)
  rw [encodeFrom_nil, hcount, hcount']
  exact ⟨_, _, rfl⟩

/-- What a cursor sees of a list of two blocks. -/
structure InTwo (t : PostingSource S) (impact : Posting → S) (first second : List Posting) : Prop where
  numBlocks : t.numBlocks = 2
  postings : t.blockPostings 1 = second
  firstEnd : ∀ p, first.getLast? = some p → (t.blocks 0).maxDocid = p.docid
  secondEnd : ∀ p, second.getLast? = some p → (t.blocks 1).maxDocid = p.docid
  secondMax : (t.blocks 1).maxImpact = blockMax impact second
  bound : t.maxImpact = max (blockMax impact first) (blockMax impact second)

theorem TermList.Fits.inTwo {l : TermList S} (h : l.Fits) (a : Nat) (hl : l.postings = first ++ second)
    (hfirst : first.length = kBlockSize) (hsecond : second ≠ []) (hsize : second.length ≤ kBlockSize) :
    InTwo (l.source a) (impactOf l.weight) first second := by
  obtain ⟨hall, hwf, -⟩ := h.spec a
  have hne : first ≠ [] := by
    rintro rfl
    cases hfirst
  obtain ⟨offset, offset', hblocks⟩ := @encode_two _ _ _ (impactOf l.weight) _ _ hfirst hsecond hsize _ _
    (List.getLast?_eq_some_getLast hne) (List.getLast?_eq_some_getLast hsecond)
  rw [← hl] at hblocks
  have hcount : (l.source a).numBlocks = 2 := congrArg List.length hblocks
  have hfirst' : (l.source a).blocks 0 =
      ⟨(first.getLast hne).docid, kBlockSize, offset, blockMax (impactOf l.weight) first⟩ :=
    congrArg (fun blks => blks.getD 0 ⟨0, 0, 0, 0⟩) hblocks
  have hsecond' : (l.source a).blocks 1 =
      ⟨(second.getLast hsecond).docid, second.length, offset', blockMax (impactOf l.weight) second⟩ :=
    congrArg (fun blks => blks.getD 1 ⟨0, 0, 0, 0⟩) hblocks
  have hposts : (l.source a).blockPostings 0 ++ (l.source a).blockPostings 1 = first ++ second := by
    rw [← hl, ← hall, PostingSource.all, PostingSource.postingsFrom_step (by omega),
      PostingSource.postingsFrom_step (by omega), PostingSource.postingsFrom_end (by omega), List.append_nil]
  have hlength := hwf.length_blockPostings (i := 0) (by omega)
  rw [hfirst'] at hlength
  constructor
  · exact hcount
  · exact (List.append_inj hposts (hlength.trans hfirst.symm)).2
  · intro p hp
    rw [List.getLast?_eq_some_getLast hne] at hp
    rw [hfirst', ← Option.some.inj hp]
  · intro p hp
    rw [List.getLast?_eq_some_getLast hsecond] at hp
    rw [hsecond', ← Option.some.inj hp]
  · rw [hsecond']
  · show termMax (encode (impactOf l.weight) l.postings).1 = _
    rw [hblocks]
    show max (max 0 (blockMax (impactOf l.weight) first)) (blockMax (impactOf l.weight) second) = _
    have hpos : 0 ≤ blockMax (impactOf l.weight) first := (foldl_max (impactOf l.weight) first 0).1
    rw [max_eq_right hpos]

/-- Skipping to a document of the second block enters that block. -/
theorem InTwo.skipToBlock {t : PostingSource S} (h : InTwo t impact first second) (hwf : t.WellFormed)
    (hx : (PostingCursor.open t).exhausted = false) (hfirst : first ≠ []) {target : Nat}
    (hlow : ∀ p ∈ first, p.docid < target) (hhigh : ∃ p ∈ second.getLast?, target ≤ p.docid) :
    ((PostingCursor.open t).skipToBlock target).exhausted = false ∧
      ((PostingCursor.open t).skipToBlock target).Consistent ∧
      ((PostingCursor.open t).skipToBlock target).remaining = second ∧
      ((PostingCursor.open t).skipToBlock target).blockMaxImpact = blockMax impact second := by
  have hsrc := PostingCursor.open_source t
  obtain ⟨hcons, -⟩ := PostingCursor.open_spec hwf
  have hzero := PostingCursor.open_blockIndex t
  have hlast := h.firstEnd _ (List.getLast?_eq_some_getLast hfirst)
  have hbelow : (t.blocks 0).maxDocid < target := by
    rw [hlast]
    exact hlow _ (List.getLast_mem hfirst)
  have habove : target ≤ (t.blocks 1).maxDocid := by
    obtain ⟨q, hq, hle⟩ := hhigh
    rw [h.secondEnd q hq]
    exact hle
  have hcount := h.numBlocks
  have hpostings := h.postings
  have hmax := h.secondMax
  generalize PostingCursor.open t = c at *
  subst hsrc
  rcases @PostingCursor.skipToBlock_cases _ c target hcons hx with ⟨hle, -⟩ | ⟨j, hlt, hle, hall, hland⟩
  · rw [PostingCursor.blockMaxDocid, hzero] at hle
    exact absurd hle (not_le.mpr hbelow)
  · obtain rfl : j = 1 := by
      by_contra hj
      exact absurd (hall 1 (by omega) (by omega)) (not_lt.mpr habove)
    rcases hland with ⟨hend, -⟩ | ⟨hin, -, heq⟩
    · omega
    · obtain ⟨hcons', hx', hrem⟩ := PostingCursor.decodeBlock_load_spec
        (c := { c with blockIndex := 1 }) hcons.wf hx hin
      rw [heq]
      refine ⟨hx', hcons', hrem.trans ?_, hmax⟩
      show c.toPostingSource.postingsFrom 1 = second
      rw [PostingSource.postingsFrom_step (by omega), PostingSource.postingsFrom_end (by omega), hpostings,
        List.append_nil]

end TwoBlocks

end CascadeSearch.Query.LaidOut
