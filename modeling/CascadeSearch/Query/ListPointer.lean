import CascadeSearch.Index.Blocks
import Mathlib.Data.List.TakeWhile

/-!
# A cursor is a pointer into the flat posting list

The pointer has no blocks to decode and no cached entry: it is a position in the
list, and `skip_to_block` is the only call that sees where blocks begin. After any
calls the cursor shows the posting at the pointer, and it has decoded no block
twice.
-/
namespace CascadeSearch.Query.ListPointer

open Index.Format Index.Blocks Cursor PostingSource PostingCursor

variable {S : Type}

inductive Call where
  | next
  | nextGeq (target : Nat)
  | skipToBlock (target : Nat)

def Call.run : Call → PostingCursor S → PostingCursor S
  | next => PostingCursor.next
  | nextGeq target => PostingCursor.nextGeq target
  | skipToBlock target => PostingCursor.skipToBlock target

/-- The position of the first posting of block `i`; the end of the list for the
number of blocks. -/
def blockStart (t : PostingSource S) (i : Nat) : Nat := ((List.range i).flatMap t.blockPostings).length

/-- The block that holds the posting at a position. -/
def blockAt (t : PostingSource S) (pos : Nat) : Nat :=
  (List.range t.numBlocks).findIdx fun i => decide (pos < blockStart t (i + 1))

/-- The first block behind `i` that may hold `target`. -/
def laterBlock (t : PostingSource S) (i target : Nat) : Nat :=
  (List.range t.numBlocks).findIdx fun j => decide (i < j ∧ target ≤ (t.blocks j).maxDocid)

def Call.move (t : PostingSource S) : Call → Nat → Nat
  | next, pos => min (pos + 1) t.all.length
  | nextGeq target, pos => pos + (t.all.drop pos).findIdx fun p => decide (target ≤ p.docid)
  | skipToBlock target, pos =>
      if t.all.length ≤ pos then pos
      else if target ≤ (t.blocks (blockAt t pos)).maxDocid then pos
      else blockStart t (laterBlock t (blockAt t pos) target)

/-- The target of a call that has one. -/
def Call.target? : Call → Option Nat
  | next => none
  | nextGeq target => some target
  | skipToBlock target => some target

def runAll (calls : List Call) (c : PostingCursor S) : PostingCursor S :=
  calls.foldl (fun c call => call.run c) c

def moveAll (t : PostingSource S) (calls : List Call) (pos : Nat) : Nat :=
  calls.foldl (fun pos call => call.move t pos) pos

theorem findIdx_range {n j : Nat} {P : Nat → Bool} (hj : j ≤ n) (hbelow : ∀ m < j, P m = false)
    (hat : j < n → P j = true) : (List.range n).findIdx P = j := by
  rcases Nat.lt_or_eq_of_le hj with hlt | rfl
  · rw [List.findIdx_eq (by simpa using hlt)]
    simpa using ⟨hat hlt, hbelow⟩
  · have hlen : (List.range j).length = j := List.length_range
    conv_rhs => rw [← hlen]
    exact List.findIdx_eq_length_of_false fun m hm => hbelow m (List.mem_range.mp hm)

variable {t : PostingSource S}

theorem blockStart_mono {i j : Nat} (h : i ≤ j) : blockStart t i ≤ blockStart t j := by
  refine monotone_nat_of_le_succ (fun i => ?_) h
  rw [blockStart, blockStart, List.range_succ, List.flatMap_append, List.length_append]
  exact Nat.le_add_right _ _

theorem blockStart_add_length {i : Nat} (hi : i ≤ t.numBlocks) :
    blockStart t i + (t.postingsFrom i).length = t.all.length := by
  have hsplit := postingsFrom_split (t := t) (Nat.zero_le i) hi
  rw [all, hsplit, List.length_append, blockStart, List.range_eq_range', Nat.sub_zero]

theorem drop_blockStart {i : Nat} (hi : i ≤ t.numBlocks) (n : Nat) :
    t.all.drop (blockStart t i + n) = (t.postingsFrom i).drop n := by
  have hsplit := postingsFrom_split (t := t) (Nat.zero_le i) hi
  rw [all, hsplit, ← List.drop_drop, blockStart, List.range_eq_range', Nat.sub_zero, List.drop_left]

theorem blockStart_succ (hwf : t.WellFormed) {i : Nat} (hi : i < t.numBlocks) :
    blockStart t (i + 1) = blockStart t i + (t.blocks i).count := by
  rw [blockStart, List.range_succ, List.flatMap_append, List.length_append, List.flatMap_singleton,
    hwf.length_blockPostings hi, blockStart]

theorem blockAt_eq (hwf : t.WellFormed) {i n : Nat} (hi : i < t.numBlocks) (hn : n < (t.blocks i).count) :
    blockAt t (blockStart t i + n) = i := by
  refine findIdx_range hi.le (fun m hm => ?_) fun _ => ?_
  · have := blockStart_mono (t := t) (show m + 1 ≤ i from hm)
    simp only [decide_eq_false_iff_not]
    omega
  · rw [blockStart_succ hwf hi]
    simp only [decide_eq_true_eq]
    omega

theorem blockStart_le {i : Nat} (hi : i ≤ t.numBlocks) : blockStart t i ≤ t.all.length := by
  have := blockStart_add_length hi
  omega

theorem laterBlock_eq {i j target : Nat} (hij : i < j) (hj : j ≤ t.numBlocks)
    (hbelow : ∀ m, i ≤ m → m < j → (t.blocks m).maxDocid < target)
    (hat : j < t.numBlocks → target ≤ (t.blocks j).maxDocid) : laterBlock t i target = j := by
  refine findIdx_range hj (fun m hm => ?_) fun hlt => ?_
  · simp only [decide_eq_false_iff_not, not_and, not_le]
    exact fun him => hbelow m him.le hm
  · simp only [decide_eq_true_eq]
    exact ⟨hij, hat hlt⟩

/-- What the cursor has still to deliver is the list from the pointer on. -/
structure Points (t : PostingSource S) (c : PostingCursor S) (pos : Nat) : Prop where
  source : c.toPostingSource = t
  consistent : c.Consistent
  le : pos ≤ t.all.length
  remaining : c.remaining = t.all.drop pos

variable {c : PostingCursor S} {pos : Nat}

theorem Points.exhausted_iff (h : Points t c pos) : c.exhausted = true ↔ t.all.length ≤ pos := by
  rw [← h.consistent.remaining_eq_nil_iff, h.remaining, List.drop_eq_nil_iff]

/-- While live, the pointer stands at the cursor's place in its block. -/
theorem Points.pos_eq (h : Points t c pos) (hx : c.exhausted = false) :
    pos = blockStart t c.blockIndex + c.position := by
  obtain rfl := h.source
  have hl := h.consistent.live hx
  have hin := hl.inBlocks
  have hlen := congrArg List.length h.remaining
  rw [remaining_of_live hx, List.length_drop, List.length_drop] at hlen
  have hblock := h.consistent.wf.length_blockPostings hin
  have hpos := hl.inBlock
  have hsum := blockStart_add_length hin.le
  have hstep := congrArg List.length (postingsFrom_step hin)
  rw [List.length_append, hblock] at hstep
  have := h.le
  have hlive := h.exhausted_iff.not.mp (by simp [hx])
  omega

theorem Points.posting (h : Points t c pos) {p : Posting} (hp : t.all[pos]? = some p) :
    c.exhausted = false ∧ c.docid = p.docid ∧ c.freq = p.tf := by
  have hlt := (List.getElem?_eq_some_iff.mp hp).1
  have hx : c.exhausted = false := by
    rw [← Bool.not_eq_true, h.exhausted_iff]
    omega
  have hhead := h.consistent.remaining_cons hx
  rw [h.remaining, List.drop_eq_getElem_cons hlt] at hhead
  have hget := (List.cons.inj hhead).1
  rw [List.getElem?_eq_getElem hlt] at hp
  obtain rfl := Option.some.inj hp
  rw [hget]
  exact ⟨hx, rfl, rfl⟩

theorem points_open (hwf : t.WellFormed) : Points t («open» t) 0 where
  source := open_source t
  consistent := (open_spec hwf).1
  le := Nat.zero_le _
  remaining := (open_spec hwf).2

theorem Points.next (h : Points t c pos) : Points t c.next (min (pos + 1) t.all.length) := by
  obtain ⟨hcons, hrem⟩ := next_spec h.consistent
  refine ⟨next_source.trans h.source, hcons, min_le_right _ _, ?_⟩
  rw [hrem, h.remaining, List.tail_drop]
  rcases Nat.le_total (pos + 1) t.all.length with hle | hle
  · rw [min_eq_left hle]
  · rw [min_eq_right hle, List.drop_of_length_le hle, List.drop_length]

theorem dropWhile_eq_drop_findIdx (target : Nat) (l : List Posting) :
    l.dropWhile (fun p => p.docid < target) = l.drop (l.findIdx fun p => decide (target ≤ p.docid)) := by
  induction l with
  | nil => rfl
  | cons p l ih =>
    by_cases hp : target ≤ p.docid
    · simp [List.findIdx_cons, hp]
    · rw [List.dropWhile_cons_of_pos (by simpa using hp), ih]
      simp [List.findIdx_cons, hp]

theorem Points.nextGeq (h : Points t c pos) (target : Nat) :
    Points t (c.nextGeq target) ((Call.nextGeq target).move t pos) := by
  obtain ⟨hcons, hrem⟩ := @nextGeq_spec _ c target h.consistent
  refine ⟨nextGeq_source.trans h.source, hcons, ?_, ?_⟩
  · have hle : (t.all.drop pos).findIdx (fun p => decide (target ≤ p.docid)) ≤ (t.all.drop pos).length :=
      List.findIdx_le_length
    rw [List.length_drop] at hle
    have := h.le
    simp only [Call.move]
    omega
  · rw [hrem, h.remaining, dropWhile_eq_drop_findIdx, List.drop_drop]
    rfl

theorem Points.skipToBlock (h : Points t c pos) (target : Nat) :
    Points t (c.skipToBlock target) ((Call.skipToBlock target).move t pos) := by
  obtain rfl := h.source
  cases hx : c.exhausted with
  | true =>
    have hself : c.skipToBlock target = c := by simp [PostingCursor.skipToBlock, hx]
    rw [hself, Call.move, if_pos (h.exhausted_iff.mp hx)]
    exact h
  | false =>
    have hc := h.consistent
    have hl := hc.live hx
    have hblock : blockAt c.toPostingSource pos = c.blockIndex := by
      rw [h.pos_eq hx]
      exact blockAt_eq hc.wf hl.inBlocks hl.inBlock
    rw [Call.move, if_neg (h.exhausted_iff.not.mp (by simp [hx])), hblock]
    rcases @skipToBlock_cases _ c target hc hx with ⟨hle, hself⟩ | ⟨j, hlt, hj, hbelow, hland⟩
    · have hmax : target ≤ (c.blocks c.blockIndex).maxDocid := hle
      rw [hself, if_pos hmax]
      exact h
    · have hmax : ¬ target ≤ (c.blocks c.blockIndex).maxDocid := not_le.mpr (hbelow _ le_rfl hlt)
      have hlater : laterBlock c.toPostingSource c.blockIndex target = j := by
        refine laterBlock_eq hlt hj hbelow fun hin => ?_
        rcases hland with ⟨hend, -⟩ | ⟨-, hat, -⟩
        · omega
        · exact hat
      rw [if_neg hmax, hlater]
      refine ⟨skipToBlock_source, (skipToBlock_spec hc).1, blockStart_le hj, ?_⟩
      have hdrop := drop_blockStart (t := c.toPostingSource) hj 0
      rw [Nat.add_zero, List.drop_zero] at hdrop
      rw [hdrop]
      rcases hland with ⟨hend, heq⟩ | ⟨hin, -, heq⟩
      · rw [heq, postingsFrom_end hend.ge]
        exact remaining_of_exhausted rfl
      · rw [heq]
        exact (decodeBlock_load_spec (c := { c with blockIndex := j }) hc.wf hx hin).2.2

theorem Points.run (h : Points t c pos) (call : Call) : Points t (call.run c) (call.move t pos) := by
  cases call with
  | next => exact h.next
  | nextGeq target => exact h.nextGeq target
  | skipToBlock target => exact h.skipToBlock target

theorem Points.runAll (h : Points t c pos) (calls : List Call) :
    Points t (runAll calls c) (moveAll t calls pos) := by
  induction calls generalizing c pos with
  | nil => exact h
  | cons call calls ih => exact ih (h.run call)

theorem exists_skipped (hc : c.Consistent) (call : Call) :
    ∃ skipped, c.remaining = skipped ++ (call.run c).remaining ∧
      ∀ target ∈ call.target?, ∀ p ∈ skipped, p.docid < target := by
  cases call with
  | next =>
    refine ⟨c.remaining.take 1, ?_, by simp [Call.target?]⟩
    rw [Call.run, (next_spec hc).2, ← List.drop_one, List.take_append_drop]
  | nextGeq target =>
    refine ⟨c.remaining.takeWhile (fun p => p.docid < target), ?_, ?_⟩
    · rw [Call.run, (nextGeq_spec hc).2, List.takeWhile_append_dropWhile]
    · intro target' htarget p hp
      obtain rfl := Option.some.inj htarget
      simpa using List.mem_takeWhile_imp hp
  | skipToBlock target =>
    obtain ⟨-, ⟨skipped, hskip, hsmall⟩, -⟩ := @skipToBlock_spec _ c target hc
    refine ⟨skipped, hskip, ?_⟩
    intro target' htarget
    obtain rfl := Option.some.inj htarget
    exact hsmall

theorem Points.move (h : Points t c pos) (call : Call) :
    pos ≤ call.move t pos ∧ ∀ target ∈ call.target?, ∀ i p, pos ≤ i → i < call.move t pos →
      t.all[i]? = some p → p.docid < target := by
  have h' := h.run call
  obtain ⟨skipped, hskip, hsmall⟩ := exists_skipped h.consistent call
  rw [h.remaining, h'.remaining] at hskip
  have hlen := congrArg List.length hskip
  rw [List.length_append, List.length_drop, List.length_drop] at hlen
  have hle := h.le
  have hle' := h'.le
  refine ⟨by omega, fun target htarget i p hi hi' hp => hsmall target htarget p ?_⟩
  have hget : (t.all.drop pos)[i - pos]? = some p := by
    rw [List.getElem?_drop, show pos + (i - pos) = i from by omega]
    exact hp
  rw [hskip, List.getElem?_append_left (by omega)] at hget
  exact List.mem_of_getElem? hget

/-- Blocks are decoded in ascending order, none past the current one. -/
structure DecodedOnce (c : PostingCursor S) : Prop where
  descending : c.decodedBlocks.Pairwise (fun i j => j < i)
  entered : ∀ i ∈ c.decodedBlocks, i ≤ c.blockIndex ∧ i < c.numBlocks
  counted : c.blocksDecoded = c.decodedBlocks.length

theorem DecodedOnce.decode (h : DecodedOnce c) {j : Nat} (hlt : c.blockIndex < j) (hj : j < c.numBlocks) :
    DecodedOnce (PostingCursor.load (PostingCursor.decodeBlock { c with blockIndex := j })) where
  descending := List.pairwise_cons.mpr ⟨fun i hi => (h.entered i hi).1.trans_lt hlt, h.descending⟩
  entered i hi := by
    rcases List.mem_cons.mp hi with rfl | hi
    · exact ⟨le_rfl, hj⟩
    · exact ⟨(h.entered i hi).1.trans hlt.le, (h.entered i hi).2⟩
  counted := congrArg Nat.succ h.counted

theorem DecodedOnce.exhaust (h : DecodedOnce c) {j : Nat} (hle : c.blockIndex ≤ j) :
    DecodedOnce (PostingCursor.exhaust { c with blockIndex := j }) where
  descending := h.descending
  entered i hi := ⟨(h.entered i hi).1.trans hle, (h.entered i hi).2⟩
  counted := h.counted

theorem DecodedOnce.moved (h : DecodedOnce c) (position : Nat) : DecodedOnce { c with position := position } :=
  ⟨h.descending, h.entered, h.counted⟩

theorem DecodedOnce.load (h : DecodedOnce c) : DecodedOnce c.load := ⟨h.descending, h.entered, h.counted⟩

theorem decodedOnce_open (t : PostingSource S) : DecodedOnce («open» t) := by
  unfold «open»
  dsimp only
  split
  · exact ⟨List.Pairwise.nil, by simp [PostingCursor.exhaust], rfl⟩
  · rename_i hblocks
    refine ⟨List.pairwise_singleton _ _, fun i hi => ?_, rfl⟩
    obtain rfl := List.mem_singleton.mp hi
    exact ⟨le_rfl, Nat.pos_of_ne_zero hblocks⟩

theorem DecodedOnce.next (h : DecodedOnce c) : DecodedOnce c.next := by
  unfold PostingCursor.next
  split
  · exact h
  · dsimp only
    split
    · unfold enterNextBlock
      dsimp only
      split
      · exact (h.moved (c.position + 1)).exhaust (Nat.le_succ _)
      · rename_i hin
        exact (h.moved (c.position + 1)).decode (Nat.lt_succ_self _) (not_le.mp hin)
    · exact (h.moved _).load

theorem DecodedOnce.skipToBlock (h : DecodedOnce c) (hc : c.Consistent) (target : Nat) :
    DecodedOnce (c.skipToBlock target) := by
  cases hx : c.exhausted with
  | true =>
    have hself : c.skipToBlock target = c := by simp [PostingCursor.skipToBlock, hx]
    rw [hself]
    exact h
  | false =>
    rcases @skipToBlock_cases _ c target hc hx with ⟨-, heq⟩ | ⟨j, hlt, -, -, ⟨-, heq⟩ | ⟨hin, -, heq⟩⟩
    · rw [heq]
      exact h
    · rw [heq]
      exact h.exhaust hlt.le
    · rw [heq]
      exact h.decode hlt hin

/-- After the skip, `next_geq` stays inside the block it landed on. -/
theorem DecodedOnce.nextGeq (h : DecodedOnce c) (hc : c.Consistent) (target : Nat) :
    DecodedOnce (c.nextGeq target) := by
  unfold PostingCursor.nextGeq
  split
  · exact h
  · obtain ⟨hcons, -, hmax⟩ := @skipToBlock_spec _ c target hc
    have hskip := h.skipToBlock hc target
    dsimp only
    split
    · exact hskip
    · rename_i hx
      have hx' : (c.skipToBlock target).exhausted = false := by simpa using hx
      rw [if_neg (not_le.mpr (firstGeq_lt_count hcons hx' (hmax hx')))]
      exact (hskip.moved _).load

theorem DecodedOnce.runAll (h : DecodedOnce c) (hc : c.Consistent) (calls : List Call) :
    DecodedOnce (runAll calls c) := by
  induction calls generalizing c with
  | nil => exact h
  | cons call calls ih =>
    cases call with
    | next => exact ih h.next (next_spec hc).1
    | nextGeq target => exact ih (h.nextGeq hc target) (nextGeq_spec hc).1
    | skipToBlock target => exact ih (h.skipToBlock hc target) (skipToBlock_spec hc).1

/-- After any calls the cursor is exhausted exactly if the pointer is at the end,
and else shows the posting there; the next call moves the pointer forward, passes
no posting its target asks for, and no block has been decoded twice. -/
theorem cursor_refines_pointer (hwf : t.WellFormed) (calls : List Call) :
    ((runAll calls («open» t)).exhausted = true ↔ t.all.length ≤ moveAll t calls 0) ∧
      (∀ p, t.all[moveAll t calls 0]? = some p →
        (runAll calls («open» t)).docid = p.docid ∧ (runAll calls («open» t)).freq = p.tf) ∧
      (∀ call : Call, moveAll t calls 0 ≤ call.move t (moveAll t calls 0) ∧
        ∀ target ∈ call.target?, ∀ i p, moveAll t calls 0 ≤ i → i < call.move t (moveAll t calls 0) →
          t.all[i]? = some p → p.docid < target) ∧
      (runAll calls («open» t)).decodedBlocks.Nodup ∧
      (runAll calls («open» t)).blocksDecoded = (runAll calls («open» t)).decodedBlocks.length := by
  have hpoints := (points_open hwf).runAll calls
  have honce := (decodedOnce_open t).runAll (open_spec hwf).1 calls
  exact ⟨hpoints.exhausted_iff, fun p hp => (hpoints.posting hp).2, hpoints.move,
    honce.descending.imp fun h => h.ne', honce.counted⟩

def twoPostings : PostingSource ℚ := layOut (fun _ => 0) 0 0 [⟨1, 1⟩, ⟨300, 2⟩]

theorem twoPostings_wellFormed : twoPostings.WellFormed :=
  ((layOut_reads _ _ _ _).spec (by decide) (by decide) ((length_encode_le _ _).trans (by decide)) (by decide)).2.1

theorem cursor_refines_pointer_twoPostings :
    (runAll [.nextGeq 2, .skipToBlock 300, .next] («open» twoPostings)).exhausted = true ↔
      twoPostings.all.length ≤ moveAll twoPostings [.nextGeq 2, .skipToBlock 300, .next] 0 :=
  (cursor_refines_pointer twoPostings_wellFormed [.nextGeq 2, .skipToBlock 300, .next]).1

end CascadeSearch.Query.ListPointer
