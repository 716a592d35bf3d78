import CascadeSearch.Query.LaidOut
import CascadeSearch.Query.ScoreOrder

/-!
# A query whose best document is scored short

Where leaving out a summand can gain, an index is built on which
`block_max_wand` moves the one cursor that scores a document past it, finds the
others together on that document, and pushes it without the missing term. The
cursor is moved by the positioning of blocks for a pivot that is then given up,
because another cursor has run out.
-/
namespace CascadeSearch.Query.ScoreTrap

open Lib.Loop Lib.LoopTrace Lib.RoundedSum
open Index.Format Index.Blocks
open Cursor Heap Reader Evaluate Pruning Passes PruningSafety Turns Evaluated RoundedPruning LaidOut
open ScoreOrder

section Passes

variable {S : Type} {live l : List (PostingCursor S)}

theorem sortByDocid_of_perm (hp : live.Perm l) (hs : l.Pairwise byDocid)
    (hnd : (l.map (·.addr)).Nodup) : sortByDocid live = l := by
  refine ((perm_sortByDocid live).trans hp).eq_of_pairwise (fun c e hc he hce hec => ?_)
    (sorted_sortByDocid live) hs
  have hc' : c ∈ l := ((perm_sortByDocid live).trans hp).mem_iff.mp hc
  refine List.inj_on_of_nodup_map hnd hc' he ?_
  unfold byDocid at hce hec
  omega

theorem lineUp_of_perm {sources : List (PostingSource S)} {s : WandState S}
    (hst : Standing sources s.live) (hp : (s.live.filter fun c => !c.exhausted).Perm l)
    (hs : l.Pairwise byDocid) : lineUp s = l := by
  refine sortByDocid_of_perm hp hs ((hp.map _).nodup_iff.mp ?_)
  exact hst.addrs.sublist (List.filter_sublist.map _)

variable {d : Nat} {front rest : List (PostingCursor S)}

/-- Every cursor tied with the pivot is a candidate. -/
theorem candidateCount_front (threshold : S) (hat : ∀ c ∈ front, c.docid = d) (hrest : ∀ c ∈ rest, d < c.docid)
    {i : Nat} (hi : i < front.length) (stats : SearchStats) :
    candidateCount ⟨front ++ rest, threshold, i, d, stats⟩ = front.length := by
  have htie : ((front ++ rest).drop (i + 1)).takeWhile (fun c => c.docid = d) = front.drop (i + 1) := by
    rw [List.drop_append_of_le_length hi, List.takeWhile_append_of_pos fun c hc => by
      simpa using hat c (List.mem_of_mem_drop hc)]
    cases rest with
    | nil => simp
    | cons c rest =>
      have := hrest c List.mem_cons_self
      rw [List.takeWhile_cons_of_neg (by simp; omega), List.append_nil]
  unfold candidateCount
  dsimp only
  rw [htie, List.length_drop]
  omega

variable [Add S]

theorem findPivot_lt [LinearOrder S] {threshold : S} (rest : List (PostingCursor S)) (hne : front ≠ []) :
    ∀ {bound : S}, threshold ≤ (front.map (·.maxImpact)).foldl (· + ·) bound →
      findPivot threshold bound (front ++ rest) < front.length := by
  induction front with
  | nil => exact absurd rfl hne
  | cons c front ih =>
    intro bound hreach
    rw [List.cons_append, findPivot]
    by_cases hle : threshold ≤ bound + c.maxImpact
    · rw [if_pos hle]
      exact Nat.succ_pos _
    · rw [if_neg hle, List.length_cons]
      have hne' : front ≠ [] := by
        rintro rfl
        exact hle hreach
      exact Nat.succ_lt_succ (ih hne' hreach)

variable [One S] [Neg S]

theorem positionBlocks_append (rest : List (PostingCursor S))
    (hrun : ∀ c ∈ front, (c.skipToBlock d).exhausted = false) :
    ∀ bound : S, ∃ bound', positionBlocks d bound (front ++ rest) =
      (front.map (PostingCursor.skipToBlock d) ++ (positionBlocks d bound' rest).1,
        (positionBlocks d bound' rest).2) := by
  induction front with
  | nil => exact fun bound => ⟨bound, rfl⟩
  | cons c front ih =>
    intro bound
    have hc := hrun c List.mem_cons_self
    obtain ⟨bound', hrest⟩ := ih (fun e he => hrun e (List.mem_cons_of_mem _ he))
      (bound + (c.skipToBlock d).blockMaxImpact)
    refine ⟨bound', ?_⟩
    rw [List.cons_append, positionBlocks]
    dsimp only
    rw [if_neg (by simp [hc]), hrest]
    rfl

/-- Cursors whose blocks reach the pivot stay where they are. -/
theorem positionBlocks_self (hat : ∀ c ∈ front, c.Consistent ∧ c.exhausted = false ∧ d ≤ c.blockMaxDocid) :
    ∀ bound : S, positionBlocks d bound front =
      (front, (front.map (·.blockMaxImpact)).foldl (· + ·) bound) := by
  induction front with
  | nil => exact fun bound => rfl
  | cons c front ih =>
    intro bound
    obtain ⟨hc, hx, hle⟩ := hat c List.mem_cons_self
    rw [positionBlocks]
    dsimp only
    rw [PostingCursor.skipToBlock_eq_self hc hx hle, if_neg (by simp [hx]),
      ih fun e he => hat e (List.mem_cons_of_mem _ he)]
    rfl

variable [LinearOrder S] [Zero S] [RoundedAdd S] {ix : Index S} {s : WandState S} {threshold : S}

/-- Cursors that stand together at the front, and whose blocks reach the
threshold, are scored. -/
theorem pass_front (hline : lineUp s = front ++ rest) (hth : s.top.threshold = some threshold)
    (hne : front ≠ []) (hat : ∀ c ∈ front, c.Consistent ∧ c.exhausted = false ∧ c.docid = d)
    (hrest : ∀ c ∈ rest, d < c.docid) (hreach : threshold ≤ sum (front.map (·.maxImpact)))
    (hblock : threshold ≤ sum (front.map (·.blockMaxImpact)))
    (hn : NonNeg (front.map (·.blockMaxImpact))) :
    blockMaxWandPass s = .scores ⟨d, front⟩ ∧
      ∀ top', s.top.push d (accumulate ix d front) = some top' → ∃ stats, blockMaxWandStep ix s =
        .next ⟨front.map PostingCursor.next ++ rest, top', stats⟩ := by
  have hdocid : ∀ c ∈ front, c.docid = d := fun c hc => (hat c hc).2.2
  have hlt := findPivot_lt rest hne hreach
  have hget : (front ++ rest)[findPivot threshold 0 (front ++ rest)]? =
      some (front[findPivot threshold 0 (front ++ rest)]) := by
    rw [List.getElem?_append_left hlt, List.getElem?_eq_getElem hlt]
  obtain ⟨stats, hselect, -⟩ := selectPivot_of_some hline hth hget
  rw [hdocid _ (List.getElem_mem hlt)] at hselect
  have hcount := candidateCount_front threshold hdocid hrest hlt stats
  generalize findPivot threshold 0 (front ++ rest) = i at *
  have hself := positionBlocks_self (d := d) (fun c hc =>
    ⟨(hat c hc).1, (hat c hc).2.1, hdocid c hc ▸ (hat c hc).1.docid_le_blockMaxDocid (hat c hc).2.1⟩) (0 : S)
  have hpos : ¬ (front.map (·.blockMaxImpact)).foldl (· + ·) 0 < 0 := not_lt.mpr (sum_nonneg hn)
  have hblock' : threshold ≤ (front.map (·.blockMaxImpact)).foldl (· + ·) 0 := hblock
  have hsort : sortByDocid (front ++ rest) = front ++ rest := by
    have hsorted := sorted_sortByDocid (dropExhausted s).live
    change (lineUp s).Pairwise byDocid at hsorted
    rw [hline] at hsorted
    exact hsorted.insertionSort_eq
  have hhead : (front ++ rest).head?.map (·.docid) = some d := by
    cases front with
    | nil => exact absurd rfl hne
    | cons c front => exact congrArg some (hdocid c List.mem_cons_self)
  obtain ⟨htake, hdrop⟩ := takeWhile_front hdocid hrest
  constructor
  · unfold blockMaxWandPass
    rw [hselect]
    dsimp only
    rw [hcount, List.take_left, List.drop_left, hself]
    dsimp only
    rw [if_neg hpos, if_pos hblock', hsort, if_pos hhead, htake]
  · intro top' hpush
    unfold blockMaxWandStep
    rw [hselect]
    dsimp only
    rw [hcount, List.take_left, List.drop_left, hself]
    dsimp only
    rw [if_neg hpos, if_pos hblock', hsort, if_pos hhead]
    unfold scorePivot
    dsimp only
    rw [htake, hdrop, hpush]
    exact ⟨_, rfl⟩

/-- Where a cursor right before the pivot runs out of blocks, those before it
have been positioned and nothing else happens. -/
theorem pass_spent {y z : PostingCursor S} (hline : lineUp s = front ++ [y, z])
    (hth : s.top.threshold = some threshold) (hn : ∀ c ∈ front ++ [y], 0 ≤ c.maxImpact)
    (hlow : sum ((front ++ [y]).map (·.maxImpact)) < threshold)
    (hreach : threshold ≤ sum ((front ++ [y]).map (·.maxImpact)) + z.maxImpact)
    (hrun : ∀ c ∈ front, (c.skipToBlock z.docid).exhausted = false)
    (hout : (y.skipToBlock z.docid).exhausted = true) :
    ∃ stats, blockMaxWandStep ix s =
      .next ⟨front.map (PostingCursor.skipToBlock z.docid) ++ [y.skipToBlock z.docid, z], s.top, stats⟩ := by
  have hpivot : findPivot threshold 0 (front ++ [y, z]) = (front ++ [y]).length := by
    have happend := findPivot_append [z] hn le_rfl hlow
    rw [List.append_assoc] at happend
    rw [show front ++ [y, z] = front ++ ([y] ++ [z]) from rfl, happend, findPivot]
    exact congrArg ((front ++ [y]).length + ·) (if_pos hreach)
  have hget : (front ++ [y, z])[findPivot threshold 0 (front ++ [y, z])]? = some z := by
    rw [hpivot, List.length_append, List.getElem?_append_right (by simp)]
    simp
  obtain ⟨stats, hselect, -⟩ := selectPivot_of_some hline hth hget
  have hcount : candidateCount ⟨front ++ [y, z], threshold, findPivot threshold 0 (front ++ [y, z]),
      z.docid, stats⟩ = (front ++ [y, z]).length := by
    unfold candidateCount
    dsimp only
    rw [hpivot, List.drop_eq_nil_iff.mpr (by simp)]
    simp
  obtain ⟨bound, hposition⟩ := positionBlocks_append [y, z] hrun (0 : S)
  have hspent : positionBlocks z.docid bound [y, z] = ([y.skipToBlock z.docid, z], -1) := by
    rw [positionBlocks]
    exact if_pos hout
  unfold blockMaxWandStep
  rw [hselect]
  dsimp only
  rw [hcount, List.take_length, List.drop_length, hposition, hspent]
  dsimp only
  rw [if_pos RoundedAdd.neg_one_lt, List.append_nil]
  exact ⟨_, rfl⟩

end Passes

section Lists

/-- A full block: a document of the list's own, a run of shared ones, and `last`. -/
def opening (n rank : Nat) (last : Posting) : List Posting :=
  ⟨rank + 1, 1⟩ :: ((List.range' (n + 1) 126).map (fun d => ⟨d, 1⟩) ++ [last])

/-- The first term's block ends with the document that is scored short, the
others' before it. -/
def firstPart (n rank a : Nat) : List Posting :=
  opening n rank (if a = 0 then ⟨n + 200, 2⟩ else ⟨n + 127, 1⟩)

/-- The first term goes on far beyond that document, the others with it. -/
def secondPart (n a : Nat) : List Posting :=
  if a = 0 then [⟨n + 203, 1⟩] else [⟨n + 200, 1⟩, ⟨n + 202, 2⟩]

variable {n rank a : Nat} {last p : Posting}

theorem length_opening : (opening n rank last).length = kBlockSize := by
  simp [opening, kBlockSize]

theorem mem_opening (hp : p ∈ opening n rank last) :
    p = ⟨rank + 1, 1⟩ ∨ (p.tf = 1 ∧ n < p.docid ∧ p.docid < n + 127) ∨ p = last := by
  rcases List.mem_cons.mp hp with rfl | hp
  · exact Or.inl rfl
  · rcases List.mem_append.mp hp with hp | hp
    · obtain ⟨d, hd, rfl⟩ := List.mem_map.mp hp
      obtain ⟨hlow, hhigh⟩ := List.mem_range'_1.mp hd
      exact Or.inr (Or.inl ⟨rfl, hlow, by dsimp only; omega⟩)
    · exact Or.inr (Or.inr (List.mem_singleton.mp hp))

theorem opening_ascending (hrank : rank < n) (hlast : n + 127 ≤ last.docid) :
    (opening n rank last).Pairwise (fun p q => p.docid < q.docid) := by
  refine List.pairwise_cons.mpr ⟨fun p hp => ?_, List.pairwise_append.mpr ⟨?_, List.pairwise_singleton _ _, ?_⟩⟩
  · rcases List.mem_append.mp hp with hp | hp
    · obtain ⟨d, hd, rfl⟩ := List.mem_map.mp hp
      obtain ⟨hlow, -⟩ := List.mem_range'_1.mp hd
      dsimp only
      omega
    · rw [List.mem_singleton.mp hp]
      dsimp only
      omega
  · exact List.pairwise_map.mpr List.pairwise_lt_range'
  · intro p hp q hq
    obtain ⟨d, hd, rfl⟩ := List.mem_map.mp hp
    obtain ⟨-, hhigh⟩ := List.mem_range'_1.mp hd
    rw [List.mem_singleton.mp hq]
    dsimp only
    omega

theorem mem_firstPart (hrank : rank < n) (hp : p ∈ firstPart n rank a) :
    p.docid ≤ n + 200 ∧ p.tf < 3 ∧ (a ≠ 0 → p.docid < n + 200 ∧ p.tf = 1) := by
  unfold firstPart at hp
  rcases mem_opening hp with rfl | ⟨htf, -, hhigh⟩ | rfl
  · exact ⟨by dsimp only; omega, by simp, fun _ => ⟨by dsimp only; omega, rfl⟩⟩
  · exact ⟨by omega, by omega, fun _ => ⟨by omega, htf⟩⟩
  · by_cases ha : a = 0
    · simp [ha]
    · simp [ha]

theorem mem_secondPart (hp : p ∈ secondPart n a) :
    n + 200 ≤ p.docid ∧ p.docid ≤ n + 203 ∧ p.tf < 3 ∧ (a = 0 → n + 200 < p.docid ∧ p.tf = 1) := by
  unfold secondPart at hp
  by_cases ha : a = 0
  · rw [if_pos ha] at hp
    rw [List.mem_singleton.mp hp]
    simp
  · rw [if_neg ha] at hp
    rcases List.mem_cons.mp hp with rfl | hp
    · simp [ha]
    · rw [List.mem_singleton.mp hp]
      simp [ha]

theorem parts_ascending (hrank : rank < n) :
    (firstPart n rank a ++ secondPart n a).Pairwise (fun p q => p.docid < q.docid) := by
  refine List.pairwise_append.mpr ⟨opening_ascending hrank ?_, ?_, fun p hp q hq => ?_⟩
  · split
    · exact Nat.add_le_add_left (by decide) n
    · exact le_rfl
  · unfold secondPart
    split
    · exact List.pairwise_singleton _ _
    · simp
  · obtain ⟨hple, -, hpne⟩ := mem_firstPart hrank hp
    obtain ⟨hqle, -, -, hqeq⟩ := mem_secondPart hq
    by_cases ha : a = 0
    · exact hple.trans_lt (hqeq ha).1
    · exact (hpne ha).1.trans_le hqle

variable {S : Type} [Zero S]

def climber (scores : List S) (order : List Nat) (a : Nat) : TermList S :=
  ⟨scores.getD a 0, firstPart scores.length (order.idxOf a) a ++ secondPart scores.length a⟩

/-- Document 0, which sets the threshold, and then the pivot. -/
def lure (threshold : S) (n : Nat) : TermList S := ⟨threshold, [⟨0, 2⟩, ⟨n + 201, 1⟩]⟩

/-- The list that runs out. -/
def spent (n : Nat) : TermList S := ⟨0, [⟨n + 1, 2⟩]⟩

def trapLists (threshold : S) (scores : List S) (order : List Nat) : List (TermList S) :=
  lure threshold scores.length :: ((List.range scores.length).map (climber scores order) ++
    [spent scores.length])

end Lists

section Trap

variable {S : Type} [LinearOrder S] [Zero S] {threshold : S} {scores : List S} {order : List Nat} {a : Nat}

def climberSource (scores : List S) (order : List Nat) (a : Nat) : PostingSource S :=
  (climber scores order a).source (a + 1)

def lureSource (threshold : S) (scores : List S) : PostingSource S :=
  (lure threshold scores.length).source 0

def spentSource (scores : List S) : PostingSource S :=
  (spent scores.length).source (scores.length + 1)

theorem layOutAll_trapLists (threshold : S) (scores : List S) (order : List Nat) :
    layOutAll (trapLists threshold scores order) =
      lureSource threshold scores ::
        ((List.range scores.length).map (climberSource scores order) ++ [spentSource scores]) := by
  have hmap : ((List.range scores.length).map (climber scores order)).mapIdx
      (fun i => TermList.source (i + 1)) = (List.range scores.length).map (climberSource scores order) := by
    refine List.ext_getElem (by simp) fun i hi hi' => ?_
    simp [climberSource]
  unfold layOutAll trapLists
  rw [List.mapIdx_cons, List.mapIdx_append, hmap]
  simp [lureSource, spentSource]

/-- Summed in `order` all the bounds stay below the threshold; without the first
term, and in the order of the terms, the others reach it. -/
structure SumTrap (threshold : S) (scores : List S) (order : List Nat) [Add S] : Prop where
  nonneg : NonNeg scores
  listed : order.Perm (List.range scores.length)
  fits : scores.length + 300 < 2 ^ 32
  first : 0 < scores.getD 0 0
  low : sum (order.map fun a => scores.getD a 0) < threshold
  high : sum scores.tail = threshold

theorem spent_maxImpact (scores : List S) : (spentSource scores).maxImpact = 0 := by
  show max 0 (max 0 0) = (0 : S)
  rw [max_self, max_self]

omit [LinearOrder S] in
theorem accumulate_one [Add S] (d : Nat) (c : PostingCursor S) :
    accumulate trapIndex d [c] = 0 + weigh c.idf c.freq := rfl

namespace SumTrap

variable [Add S] (h : SumTrap threshold scores order)
include h

theorem idxOf_lt (ha : a ∈ order) : order.idxOf a < scores.length := by
  have hlen : order.length = scores.length := by rw [h.listed.length_eq, List.length_range]
  exact hlen ▸ List.idxOf_lt_length_iff.mpr ha

theorem climber_fits (ha : a ∈ order) : (climber scores order a).Fits := by
  have hidx := h.idxOf_lt ha
  have hfits := h.fits
  have hall : ∀ p ∈ (climber scores order a).postings, p.docid ≤ scores.length + 203 ∧ p.tf < 3 := by
    intro p hp
    rcases List.mem_append.mp hp with hp | hp
    · have := mem_firstPart hidx hp
      omega
    · have := mem_secondPart hp
      omega
  constructor
  · exact getD_nonneg h.nonneg a
  · intro p hp
    have := (hall p hp).1
    unfold kNoDocid
    omega
  · intro p hp
    have := (hall p hp).2
    omega
  · have hlen : (climber scores order a).postings.length ≤ 130 := by
      unfold climber firstPart secondPart
      rw [List.length_append, length_opening]
      split <;> simp [kBlockSize]
    omega
  · exact parts_ascending hidx

theorem spent_fits : (spent scores.length : TermList S).Fits := by
  have hfits := h.fits
  constructor
  · exact le_rfl
  · simp [spent, kNoDocid]
    omega
  · simp [spent]
  · simp [spent]
  · exact List.pairwise_singleton _ _

theorem climber_inTwo (ha : a ∈ order) : InTwo (climberSource scores order a)
    (impactOf (scores.getD a 0)) (firstPart scores.length (order.idxOf a) a)
    (secondPart scores.length a) := by
  refine (h.climber_fits ha).inTwo (a + 1) rfl length_opening ?_ ?_
  · unfold secondPart
    split <;> simp
  · unfold secondPart
    split <;> simp [kBlockSize]

theorem climber_maxImpact (ha : a ∈ order) : (climberSource scores order a).maxImpact = scores.getD a 0 := by
  have hn := getD_nonneg h.nonneg a
  have hle : ∀ p : Posting, impactOf (scores.getD a 0) p ≤ scores.getD a 0 := by
    intro p
    unfold impactOf weigh
    split
    · exact hn
    · exact le_rfl
  rw [(h.climber_inTwo ha).bound]
  refine le_antisymm (max_le (blockMax_le hn fun p _ => hle p) (blockMax_le hn fun p _ => hle p)) ?_
  by_cases hz : a = 0
  · subst hz
    refine le_max_of_le_left ?_
    have hmem : (⟨scores.length + 200, 2⟩ : Posting) ∈ firstPart scores.length (order.idxOf 0) 0 :=
      List.mem_cons_of_mem _ (List.mem_append_right _ (List.mem_singleton_self _))
    exact le_blockMax (impactOf (scores.getD 0 0)) hmem
  · refine le_max_of_le_right ?_
    have hmem : (⟨scores.length + 202, 2⟩ : Posting) ∈ secondPart scores.length a := by
      simp [secondPart, hz]
    exact le_blockMax (impactOf (scores.getD a 0)) hmem

theorem climber_secondMax (ha : a ≠ 0) :
    blockMax (impactOf (scores.getD a 0)) (secondPart scores.length a) = scores.getD a 0 := by
  have hn := getD_nonneg h.nonneg a
  unfold secondPart
  rw [if_neg ha]
  show max (max 0 0) (scores.getD a 0) = scores.getD a 0
  rw [max_self, max_eq_right hn]

/-- Opened, a climber stands on its own document. -/
theorem open_climber (ha : a ∈ order) :
    (PostingCursor.open (climberSource scores order a)).exhausted = false ∧
      (PostingCursor.open (climberSource scores order a)).docid = order.idxOf a + 1 := by
  obtain ⟨hall, hwf, -⟩ := (h.climber_fits ha).spec (a + 1)
  obtain ⟨hx, hd, -⟩ := PostingCursor.open_head hwf hall
  exact ⟨hx, hd⟩

/-- Where a climber stands once its block has been positioned. -/
theorem climbed (ha : a ∈ order) :
    ((PostingCursor.open (climberSource scores order a)).skipToBlock (scores.length + 201)).exhausted = false ∧
      ((PostingCursor.open (climberSource scores order a)).skipToBlock (scores.length + 201)).Consistent ∧
      ((PostingCursor.open (climberSource scores order a)).skipToBlock (scores.length + 201)).remaining =
        secondPart scores.length a ∧
      ((PostingCursor.open (climberSource scores order a)).skipToBlock (scores.length + 201)).blockMaxImpact =
        blockMax (impactOf (scores.getD a 0)) (secondPart scores.length a) := by
  obtain ⟨-, hwf, -⟩ := (h.climber_fits ha).spec (a + 1)
  have hidx := h.idxOf_lt ha
  refine (h.climber_inTwo ha).skipToBlock hwf (h.open_climber ha).1 (List.cons_ne_nil _ _) (fun p hp => ?_) ?_
  · have := mem_firstPart hidx hp
    omega
  · unfold secondPart
    by_cases hz : a = 0
    · rw [if_pos hz]
      exact ⟨⟨scores.length + 203, 1⟩, rfl, by simp⟩
    · rw [if_neg hz]
      exact ⟨⟨scores.length + 202, 2⟩, rfl, by simp⟩

/-- The list of one posting runs out when its block is positioned. -/
theorem open_spent : (PostingCursor.open (spentSource scores)).exhausted = false ∧
    (PostingCursor.open (spentSource scores)).docid = scores.length + 1 ∧
    ((PostingCursor.open (spentSource scores)).skipToBlock (scores.length + 201)).exhausted = true := by
  obtain ⟨(hall : (spentSource scores).all = _), (hwf : (spentSource scores).WellFormed), -⟩ :=
    h.spent_fits.spec (scores.length + 1)
  obtain ⟨hx, hd, -⟩ := PostingCursor.open_head hwf hall
  obtain ⟨hcons, -⟩ := PostingCursor.open_spec hwf
  refine ⟨hx, hd, ?_⟩
  obtain ⟨hcons', -, hmax⟩ := @PostingCursor.skipToBlock_spec _ _ (scores.length + 201) hcons
  have hsrc : ((PostingCursor.open (spentSource scores)).skipToBlock (scores.length + 201)).toPostingSource =
      spentSource scores := PostingCursor.skipToBlock_source.trans (PostingCursor.open_source _)
  by_contra hrun
  rw [Bool.not_eq_true] at hrun
  obtain ⟨p, hp, hpd⟩ := hcons'.exists_blockMaxDocid hrun
  have hreach := hmax hrun
  have hmem : p ∈ (spent scores.length : TermList S).postings := by
    rw [hsrc] at hp
    exact hall ▸ hp
  rw [hpd, List.mem_singleton.mp hmem] at hreach
  dsimp only at hreach
  omega

variable [One S] [Neg S] [RoundedAdd S]

theorem threshold_pos : 0 < threshold := by
  refine (sum_nonneg fun x hx => ?_).trans_lt h.low
  obtain ⟨a, -, rfl⟩ := List.mem_map.mp hx
  exact getD_nonneg h.nonneg a

theorem lure_fits : (lure threshold scores.length).Fits := by
  have hfits := h.fits
  constructor
  · exact h.threshold_pos.le
  · simp [lure, kNoDocid]
    omega
  · simp [lure]
  · simp [lure]
  · simp [lure]

theorem fits_all : ∀ l ∈ trapLists threshold scores order, l.Fits := by
  intro l hl
  rcases List.mem_cons.mp hl with rfl | hl
  · exact h.lure_fits
  · rcases List.mem_append.mp hl with hl | hl
    · obtain ⟨a, ha, rfl⟩ := List.mem_map.mp hl
      exact h.climber_fits (h.listed.mem_iff.mpr ha)
    · rw [List.mem_singleton.mp hl]
      exact h.spent_fits

theorem wellFormed : WellFormed (layOutAll (trapLists threshold scores order)) :=
  layOutAll_wellFormed h.fits_all

theorem validBounds : ValidBounds trapIndex (layOutAll (trapLists threshold scores order)) :=
  layOutAll_validBounds h.fits_all

theorem lure_spec : (lureSource threshold scores).all = [⟨0, 2⟩, ⟨scores.length + 201, 1⟩] ∧
    (lureSource threshold scores).WellFormed ∧ (lureSource threshold scores).maxImpact = threshold := by
  obtain ⟨hall, hwf, -⟩ := h.lure_fits.spec 0
  refine ⟨hall, hwf, ?_⟩
  show max 0 (max (max 0 threshold) 0) = threshold
  have hpos := h.threshold_pos.le
  rw [max_eq_right hpos, max_eq_left hpos, max_eq_right hpos]

theorem open_lure : (PostingCursor.open (lureSource threshold scores)).Consistent ∧
    (PostingCursor.open (lureSource threshold scores)).exhausted = false ∧
    (PostingCursor.open (lureSource threshold scores)).docid = 0 ∧
    (PostingCursor.open (lureSource threshold scores)).freq = 2 ∧
    (PostingCursor.open (lureSource threshold scores)).blockMaxImpact = threshold := by
  obtain ⟨hall, hwf, -⟩ := h.lure_spec
  obtain ⟨hx, hd, hf⟩ := PostingCursor.open_head hwf hall
  refine ⟨(PostingCursor.open_spec hwf).1, hx, hd, hf, ?_⟩
  rw [PostingCursor.blockMaxImpact, PostingCursor.open_blockIndex, PostingCursor.open_source]
  show max (max 0 threshold) 0 = threshold
  have hpos := h.threshold_pos.le
  rw [max_eq_right hpos, max_eq_left hpos]

theorem next_lure : (PostingCursor.open (lureSource threshold scores)).next.exhausted = false ∧
    (PostingCursor.open (lureSource threshold scores)).next.docid = scores.length + 201 := by
  obtain ⟨hall, hwf, -⟩ := h.lure_spec
  obtain ⟨hcons, hrem⟩ := PostingCursor.open_spec hwf
  obtain ⟨hcons', hrem'⟩ := PostingCursor.next_spec hcons
  rw [hrem, hall] at hrem'
  obtain ⟨hx, hd, -⟩ := hcons'.head hrem'
  exact ⟨hx, hd⟩

omit [Neg S] [One S] [RoundedAdd S] in
/-- Where the cursors of all but the first term meet. -/
theorem climbed_docid (ha : a ∈ order) :
    ((PostingCursor.open (climberSource scores order a)).skipToBlock (scores.length + 201)).docid =
        (if a = 0 then scores.length + 203 else scores.length + 200) ∧
      ((PostingCursor.open (climberSource scores order a)).skipToBlock (scores.length + 201)).freq = 1 := by
  obtain ⟨-, hcons, hrem, -⟩ := h.climbed ha
  unfold secondPart at hrem
  by_cases hz : a = 0
  · rw [if_pos hz] at hrem ⊢
    exact (hcons.head hrem).2
  · rw [if_neg hz] at hrem ⊢
    exact (hcons.head hrem).2

omit [Neg S] [One S] [RoundedAdd S] [Add S] h in
theorem trap_cursors : (layOutAll (trapLists threshold scores order)).map PostingCursor.open =
    PostingCursor.open (lureSource threshold scores) ::
      ((List.range scores.length).map (fun a => PostingCursor.open (climberSource scores order a)) ++
        [PostingCursor.open (spentSource scores)]) := by
  rw [layOutAll_trapLists, List.map_cons, List.map_append, List.map_map]
  rfl

theorem standing {log : List (Evaluation S)} {s : WandState S}
    (hreach : Reaches (blockMaxWandStep trapIndex) (fun s => (blockMaxWandPass s).evaluation)
      (wandInit ((layOutAll (trapLists threshold scores order)).map PostingCursor.open) 1) log s) :
    Standing (layOutAll (trapLists threshold scores order)) s.live := by
  have hkeep : Keeping trapIndex (layOutAll (trapLists threshold scores order)) 1
      (blockMaxWandStep trapIndex) blockMaxWandPass fun _ _ => True := fun _ _ _ _ _ => trivial
  exact (stage_of_reaches (blockMaxWand_steps trapIndex (nonNegativeBounds h.wellFormed h.validBounds))
    h.wellFormed Nat.one_pos trivial hkeep hreach).traced.standing

/-- The climbers' cursors in the order of their first documents, the spent one after them. -/
def waiting (scores : List S) (order : List Nat) : List (PostingCursor S) :=
  order.map (fun a => PostingCursor.open (climberSource scores order a)) ++
    [PostingCursor.open (spentSource scores)]

omit [One S] [Neg S] [RoundedAdd S] in
theorem waiting_spec : ∀ c ∈ waiting scores order,
    c.exhausted = false ∧ 0 < c.docid ∧ c.docid < scores.length + 201 := by
  intro c hc
  rcases List.mem_append.mp hc with hc | hc
  · obtain ⟨a, ha, rfl⟩ := List.mem_map.mp hc
    obtain ⟨hx, hd⟩ := h.open_climber ha
    have := h.idxOf_lt ha
    exact ⟨hx, by omega, by omega⟩
  · rw [List.mem_singleton.mp hc]
    obtain ⟨hx, hd, -⟩ := h.open_spent
    exact ⟨hx, by omega, by omega⟩

omit [One S] [Neg S] [RoundedAdd S] in
theorem waiting_sorted : (waiting scores order).Pairwise byDocid := by
  refine List.pairwise_append.mpr ⟨?_, List.pairwise_singleton _ _, fun c hc e he => ?_⟩
  · refine List.pairwise_map.mpr (List.pairwise_iff_getElem.mpr fun i j hi hj hij => Or.inl ?_)
    have hnd : order.Nodup := h.listed.nodup_iff.mpr List.nodup_range
    rw [(h.open_climber (List.getElem_mem hi)).2, (h.open_climber (List.getElem_mem hj)).2,
      hnd.idxOf_getElem i hi, hnd.idxOf_getElem j hj]
    omega
  · obtain ⟨a, ha, rfl⟩ := List.mem_map.mp hc
    rw [List.mem_singleton.mp he]
    have := h.idxOf_lt ha
    refine Or.inl ?_
    rw [(h.open_climber ha).2, h.open_spent.2.1]
    omega

/-- The first pass scores the lure, which sets the threshold. -/
theorem first_pass : ∃ stats, blockMaxWandStep trapIndex
    (wandInit ((layOutAll (trapLists threshold scores order)).map PostingCursor.open) 1) =
      .next ⟨(PostingCursor.open (lureSource threshold scores)).next :: waiting scores order,
        ⟨1, [⟨0, threshold⟩]⟩, stats⟩ := by
  obtain ⟨hcons, hx, hd, hf, hblock⟩ := h.open_lure
  have hmax : (PostingCursor.open (lureSource threshold scores)).maxImpact = threshold := by
    rw [PostingCursor.open_source]
    exact h.lure_spec.2.2
  have hpos := h.threshold_pos.le
  have hwait := h.waiting_spec
  have hperm : ((layOutAll (trapLists threshold scores order)).map PostingCursor.open).Perm
      ([PostingCursor.open (lureSource threshold scores)] ++ waiting scores order) := by
    rw [trap_cursors]
    exact ((h.listed.symm.map _).append_right _).cons _
  have hrunning : ∀ c ∈ (layOutAll (trapLists threshold scores order)).map PostingCursor.open,
      c.exhausted = false := by
    intro c hc
    rcases List.mem_cons.mp (hperm.mem_iff.mp hc) with rfl | hc
    · exact hx
    · exact (hwait c hc).1
  have hline : lineUp (wandInit ((layOutAll (trapLists threshold scores order)).map PostingCursor.open) 1) =
      [PostingCursor.open (lureSource threshold scores)] ++ waiting scores order := by
    refine lineUp_of_perm (h.standing Reaches.start) ?_ ?_
    · rw [List.filter_eq_self.mpr fun c hc => by
        rw [hrunning c hc]
        rfl]
      exact hperm
    · refine List.pairwise_cons.mpr ⟨fun c hc => Or.inl ?_, h.waiting_sorted⟩
      rw [hd]
      exact (hwait c hc).2.1
  have hidf : (PostingCursor.open (lureSource threshold scores)).idf = threshold := by
    rw [PostingCursor.open_source]
    rfl
  have hsum : sum [threshold] = threshold := RoundedAdd.zero_add hpos
  generalize PostingCursor.open (lureSource threshold scores) = lured at *
  have hscore : accumulate trapIndex 0 [lured] = threshold := by
    rw [accumulate_one, hf, hidf]
    exact hsum
  obtain ⟨-, hstep⟩ := @pass_front S 0 [lured] (waiting scores order) _ _ _ _ _ _ trapIndex _ 0 hline rfl
    (List.cons_ne_nil _ _) (by simpa using ⟨hcons, hx, hd⟩) (fun c hc => (hwait c hc).2.1)
    (by simpa [hmax, hsum] using hpos) (by simpa [hblock, hsum] using hpos)
    (by simpa [NonNeg, hblock] using hpos)
  exact hstep _ (by rw [hscore]; rfl)

omit [Neg S] [One S] [RoundedAdd S] in
theorem climber_nonneg (ha : a ∈ order) :
    0 ≤ (PostingCursor.open (climberSource scores order a)).maxImpact := by
  rw [PostingCursor.open_source, h.climber_maxImpact ha]
  exact getD_nonneg h.nonneg a

/-- The cursors after the blocks of the climbers have been positioned. -/
def positioned (threshold : S) (scores : List S) (order : List Nat) : List (PostingCursor S) :=
  (order.map fun a => (PostingCursor.open (climberSource scores order a)).skipToBlock (scores.length + 201)) ++
    [(PostingCursor.open (spentSource scores)).skipToBlock (scores.length + 201),
      (PostingCursor.open (lureSource threshold scores)).next]

omit [One S] [Neg S] [RoundedAdd S] in
theorem listed_nonneg : NonNeg (order.map fun a => scores.getD a 0) := by
  intro x hx
  obtain ⟨a, -, rfl⟩ := List.mem_map.mp hx
  exact getD_nonneg h.nonneg a

theorem sum_waiting : sum ((waiting scores order).map (·.maxImpact)) = sum (order.map fun a => scores.getD a 0) := by
  have hspent : (PostingCursor.open (spentSource scores)).maxImpact = 0 := by
    rw [PostingCursor.open_source]
    exact spent_maxImpact scores
  have hbounds : (order.map fun a => PostingCursor.open (climberSource scores order a)).map (·.maxImpact) =
      order.map fun a => scores.getD a 0 := by
    rw [List.map_map]
    refine List.map_congr_left fun a ha => ?_
    rw [Function.comp_apply, PostingCursor.open_source, h.climber_maxImpact ha]
  rw [waiting, List.map_append, hbounds, List.map_singleton, hspent, sum, List.foldl_append]
  exact Lib.RoundedSum.add_zero (sum_nonneg h.listed_nonneg)

theorem lineUp_waiting (stats : SearchStats)
    (hst : Standing (layOutAll (trapLists threshold scores order))
      ((PostingCursor.open (lureSource threshold scores)).next :: waiting scores order)) :
    lineUp (⟨(PostingCursor.open (lureSource threshold scores)).next :: waiting scores order,
        ⟨1, [⟨0, threshold⟩]⟩, stats⟩ : WandState S) =
      waiting scores order ++ [(PostingCursor.open (lureSource threshold scores)).next] := by
  obtain ⟨hx, hd⟩ := h.next_lure
  have hwait := h.waiting_spec
  refine lineUp_of_perm hst ?_ ?_
  · rw [List.filter_eq_self.mpr fun c hc => ?_]
    · exact (List.perm_append_singleton _ _).symm
    · rcases List.mem_cons.mp hc with rfl | hc
      · rw [hx]
        rfl
      · rw [(hwait c hc).1]
        rfl
  · refine List.pairwise_append.mpr ⟨h.waiting_sorted, List.pairwise_singleton _ _, fun c hc e he => Or.inl ?_⟩
    rw [List.mem_singleton.mp he, hd]
    exact (hwait c hc).2.2

/-- The second pass positions the climbers and gives up on the spent list. -/
theorem second_pass (stats : SearchStats)
    (hst : Standing (layOutAll (trapLists threshold scores order))
      ((PostingCursor.open (lureSource threshold scores)).next :: waiting scores order)) :
    ∃ stats', blockMaxWandStep trapIndex
      ⟨(PostingCursor.open (lureSource threshold scores)).next :: waiting scores order,
        ⟨1, [⟨0, threshold⟩]⟩, stats⟩ =
      .next ⟨positioned threshold scores order, ⟨1, [⟨0, threshold⟩]⟩, stats'⟩ := by
  obtain ⟨-, hd⟩ := h.next_lure
  have hmax : (PostingCursor.open (lureSource threshold scores)).next.maxImpact = threshold := by
    rw [PostingCursor.next_source, PostingCursor.open_source]
    exact h.lure_spec.2.2
  have hspentMax : (PostingCursor.open (spentSource scores)).maxImpact = 0 := by
    rw [PostingCursor.open_source]
    exact spent_maxImpact scores
  have hsum := h.sum_waiting
  have hline := h.lineUp_waiting stats hst
  have hout := h.open_spent.2.2
  unfold waiting at hline hsum ⊢
  unfold positioned
  generalize (PostingCursor.open (lureSource threshold scores)).next = lured at *
  generalize PostingCursor.open (spentSource scores) = spentCursor at *
  rw [List.append_assoc] at hline
  rw [← hd] at hout ⊢
  have hfront : ∀ c ∈ order.map fun a => PostingCursor.open (climberSource scores order a),
      0 ≤ c.maxImpact ∧ (c.skipToBlock lured.docid).exhausted = false := by
    intro c hc
    obtain ⟨a, ha, rfl⟩ := List.mem_map.mp hc
    rw [hd]
    exact ⟨h.climber_nonneg ha, (h.climbed ha).1⟩
  have hpos := h.threshold_pos.le
  have hcomp : (order.map fun a => (PostingCursor.open (climberSource scores order a)).skipToBlock lured.docid) =
      (order.map fun a => PostingCursor.open (climberSource scores order a)).map
        (PostingCursor.skipToBlock lured.docid) := by
    rw [List.map_map, Function.comp_def]
  rw [hcomp]
  refine pass_spent hline rfl (fun c hc => ?_) (hsum.trans_lt h.low) ?_ (fun c hc => (hfront c hc).2) hout
  · rcases List.mem_append.mp hc with hc | hc
    · exact (hfront c hc).1
    · rw [List.mem_singleton.mp hc, hspentMax]
  · rw [hmax, hsum]
    exact (RoundedAdd.zero_add hpos).symm.trans_le (RoundedAdd.add_le_add le_rfl (sum_nonneg h.listed_nonneg) hpos)

/-- The cursors that meet on the document without the first term's. -/
def met (scores : List S) (order : List Nat) : List (PostingCursor S) :=
  (List.range' 1 (scores.length - 1)).map fun a =>
    (PostingCursor.open (climberSource scores order a)).skipToBlock (scores.length + 201)

omit [One S] [Neg S] [RoundedAdd S] in
theorem length_pos : 0 < scores.length := by
  have hfirst := h.first
  cases scores with
  | nil => exact absurd hfirst (lt_irrefl _)
  | cons x scores => exact Nat.succ_pos _

omit [One S] [Neg S] [RoundedAdd S] in
theorem zero_mem : 0 ∈ order := h.listed.mem_iff.mpr (List.mem_range.mpr h.length_pos)

omit [One S] [Neg S] [RoundedAdd S] in
theorem order_perm : order.Perm (0 :: List.range' 1 (scores.length - 1)) := by
  have hpos := h.length_pos
  have hlisted := h.listed
  obtain ⟨n, hn⟩ : ∃ n, scores.length = n + 1 := ⟨scores.length - 1, by omega⟩
  rw [hn, List.range_eq_range', List.range'_succ] at hlisted
  rw [hn]
  exact hlisted

omit [One S] [Neg S] [RoundedAdd S] in
theorem mem_order (ha : a ∈ List.range' 1 (scores.length - 1)) : a ∈ order ∧ a ≠ 0 := by
  have hrange := List.mem_range'_1.mp ha
  exact ⟨h.listed.mem_iff.mpr (List.mem_range.mpr (by omega)), by omega⟩

omit [One S] [Neg S] [RoundedAdd S] in
theorem mem_met {c : PostingCursor S} (hc : c ∈ met scores order) : ∃ a ∈ order, a ≠ 0 ∧
    (PostingCursor.open (climberSource scores order a)).skipToBlock (scores.length + 201) = c := by
  obtain ⟨a, ha, rfl⟩ := List.mem_map.mp hc
  exact ⟨a, (h.mem_order ha).1, (h.mem_order ha).2, rfl⟩

omit [One S] [Neg S] [RoundedAdd S] in
/-- Each of them may contribute the whole score of its term. -/
theorem met_bounds : (met scores order).map (·.maxImpact) = scores.tail ∧
    (met scores order).map (·.blockMaxImpact) = scores.tail := by
  have htail : (List.range' 1 (scores.length - 1)).map (fun a => scores.getD a 0) = scores.tail := by
    refine List.ext_getElem (by simp) fun i hi hi' => ?_
    simp only [List.getElem_map, List.getElem_range', List.getElem_tail, Nat.one_mul, Nat.add_comm 1 i]
    exact List.getD_eq_getElem _ _ _
  constructor
  · rw [met, List.map_map, ← htail]
    refine List.map_congr_left fun a ha => ?_
    rw [Function.comp_apply, PostingCursor.skipToBlock_source, PostingCursor.open_source,
      h.climber_maxImpact (h.mem_order ha).1]
  · rw [met, List.map_map, ← htail]
    refine List.map_congr_left fun a ha => ?_
    rw [Function.comp_apply, (h.climbed (h.mem_order ha).1).2.2.2, h.climber_secondMax (h.mem_order ha).2]

omit [One S] [Neg S] [RoundedAdd S] in
theorem met_sorted : (met scores order).Pairwise byDocid := by
  refine List.pairwise_map.mpr (List.Pairwise.imp_of_mem (fun {a b} ha hb hab => Or.inr ?_) List.pairwise_lt_range')
  rw [(h.climbed_docid (h.mem_order ha).1).1, (h.climbed_docid (h.mem_order hb).1).1, if_neg (h.mem_order ha).2,
    if_neg (h.mem_order hb).2, PostingCursor.skipToBlock_source, PostingCursor.skipToBlock_source,
    PostingCursor.open_source, PostingCursor.open_source]
  exact ⟨rfl, Nat.succ_le_succ hab.le⟩

theorem lineUp_positioned (stats : SearchStats)
    (hst : Standing (layOutAll (trapLists threshold scores order)) (positioned threshold scores order)) :
    lineUp (⟨positioned threshold scores order, ⟨1, [⟨0, threshold⟩]⟩, stats⟩ : WandState S) =
      met scores order ++ [(PostingCursor.open (lureSource threshold scores)).next,
        (PostingCursor.open (climberSource scores order 0)).skipToBlock (scores.length + 201)] := by
  obtain ⟨hx, hd⟩ := h.next_lure
  have hout := h.open_spent.2.2
  have hfirst := h.climbed_docid h.zero_mem
  rw [if_pos rfl] at hfirst
  refine lineUp_of_perm hst ?_ ?_
  · have hperm := h.order_perm.map fun a =>
      (PostingCursor.open (climberSource scores order a)).skipToBlock (scores.length + 201)
    have hrun : ∀ c ∈ order.map (fun a =>
        (PostingCursor.open (climberSource scores order a)).skipToBlock (scores.length + 201)),
        c.exhausted = false := by
      intro c hc
      obtain ⟨a, ha, rfl⟩ := List.mem_map.mp hc
      exact (h.climbed ha).1
    dsimp only [positioned]
    rw [List.filter_append, List.filter_eq_self.mpr fun c hc => by rw [hrun c hc]; rfl,
      List.filter_cons_of_neg (by simp [hout]), List.filter_cons_of_pos (by simp [hx]), List.filter_nil]
    refine (hperm.append_right _).trans ?_
    rw [List.map_cons, List.cons_append]
    refine (List.perm_append_singleton _ _).symm.trans ?_
    rw [List.append_assoc]
    exact List.Perm.refl _
  · refine List.pairwise_append.mpr ⟨h.met_sorted, ?_, fun c hc e he => Or.inl ?_⟩
    · refine List.pairwise_pair.mpr (Or.inl ?_)
      rw [hd, hfirst.1]
      omega
    · obtain ⟨a, ha, hne, rfl⟩ := h.mem_met hc
      rw [(h.climbed_docid ha).1, if_neg hne]
      rcases List.mem_pair.mp he with heq | heq
      · rw [heq, hd]
        omega
      · rw [heq, hfirst.1]
        omega

/-- The third pass scores the document from the cursors that meet there. -/
theorem third_pass (stats : SearchStats)
    (hst : Standing (layOutAll (trapLists threshold scores order)) (positioned threshold scores order)) :
    blockMaxWandPass (⟨positioned threshold scores order, ⟨1, [⟨0, threshold⟩]⟩, stats⟩ : WandState S) =
        .scores ⟨scores.length + 200, met scores order⟩ ∧
      ∃ s', blockMaxWandStep trapIndex
        ⟨positioned threshold scores order, ⟨1, [⟨0, threshold⟩]⟩, stats⟩ = .next s' := by
  have hline := h.lineUp_positioned stats hst
  obtain ⟨hmax, hblock⟩ := h.met_bounds
  have hrest : ∀ c ∈ [(PostingCursor.open (lureSource threshold scores)).next,
      (PostingCursor.open (climberSource scores order 0)).skipToBlock (scores.length + 201)],
      scores.length + 200 < c.docid := by
    have hfirst := h.climbed_docid h.zero_mem
    rw [if_pos rfl] at hfirst
    intro c hc
    rcases List.mem_pair.mp hc with heq | heq
    · rw [heq, h.next_lure.2]
      omega
    · rw [heq, hfirst.1]
      omega
  have hat : ∀ c ∈ met scores order, c.Consistent ∧ c.exhausted = false ∧ c.docid = scores.length + 200 := by
    intro c hc
    obtain ⟨a, ha, hne, rfl⟩ := h.mem_met hc
    have hdocid := (h.climbed_docid ha).1
    rw [if_neg hne] at hdocid
    exact ⟨(h.climbed ha).2.1, (h.climbed ha).1, hdocid⟩
  have hne : met scores order ≠ [] := by
    intro hnil
    rw [hnil, List.map_nil] at hmax
    have hhigh := h.high
    rw [← hmax] at hhigh
    exact h.threshold_pos.ne hhigh
  have hnonneg : NonNeg ((met scores order).map (·.blockMaxImpact)) := by
    rw [hblock]
    exact fun x hx => h.nonneg x (List.mem_of_mem_tail hx)
  obtain ⟨hpass, hstep⟩ := @pass_front S (scores.length + 200) (met scores order) _ _ _ _ _ _ _ trapIndex _ threshold
    hline rfl hne hat hrest (by rw [hmax, h.high]) (by rw [hblock, h.high]) hnonneg
  refine ⟨hpass, ?_⟩
  obtain ⟨top', hpush⟩ : ∃ top', (⟨1, [⟨0, threshold⟩]⟩ : TopK S).push (scores.length + 200)
      (accumulate trapIndex (scores.length + 200) (met scores order)) = some top' := by
    unfold TopK.push
    dsimp only
    rw [if_neg (by simp)]
    split
    · exact ⟨_, rfl⟩
    · exact ⟨_, rfl⟩
  obtain ⟨stats', hnext⟩ := hstep top' hpush
  exact ⟨_, hnext⟩

/-- The cursors that meet there add nothing. -/
theorem score_met : accumulate trapIndex (scores.length + 200) (met scores order) = 0 := by
  have hzero : ∀ x ∈ (met scores order).map fun c => weigh c.idf c.freq, x = 0 := by
    intro x hx
    obtain ⟨c, hc, rfl⟩ := List.mem_map.mp hx
    obtain ⟨a, ha, -, rfl⟩ := h.mem_met hc
    rw [(h.climbed_docid ha).2, weigh, if_pos rfl]
  rw [← sum_eq_zero hzero, sum, List.foldl_map]
  rfl

/-- The first term alone gives the document its score. -/
theorem docScore_met : 0 < docScore trapIndex (layOutAll (trapLists threshold scores order)) (scores.length + 200) := by
  have hsource : climberSource scores order 0 ∈ layOutAll (trapLists threshold scores order) := by
    rw [layOutAll_trapLists]
    exact List.mem_cons_of_mem _ (List.mem_append_left _ (List.mem_map_of_mem (List.mem_range.mpr h.length_pos)))
  obtain ⟨(hall : (climberSource scores order 0).all = _), (hwf : (climberSource scores order 0).WellFormed), -⟩ :=
    (h.climber_fits h.zero_mem).spec (0 + 1)
  have hposting : (⟨scores.length + 200, 2⟩ : Posting) ∈ (climberSource scores order 0).all := by
    rw [hall]
    exact List.mem_append_left _ (List.mem_cons_of_mem _ (List.mem_append_right _ (List.mem_singleton_self _)))
  have hscore : sourceScore trapIndex (scores.length + 200) (climberSource scores order 0) = scores.getD 0 0 := by
    rw [sourceScore, entry_eq hwf hposting rfl]
    rfl
  have hmem : scores.getD 0 0 ∈ (containing (layOutAll (trapLists threshold scores order)) (scores.length + 200)).map
      (sourceScore trapIndex (scores.length + 200)) := by
    rw [← hscore]
    exact List.mem_map_of_mem (mem_containing.mpr ⟨hsource, _, hposting, rfl⟩)
  refine h.first.trans_le ((RoundedAdd.zero_add h.first.le).symm.trans_le
    (sum_le_of_sublist (List.singleton_sublist.mpr hmem) fun x hx => ?_))
  obtain ⟨t, ht, rfl⟩ := List.mem_map.mp hx
  exact sourceScore_nonneg h.validBounds (mem_containing.mp ht).1

theorem not_scoresExactly : ¬ ScoresExactly trapIndex (layOutAll (trapLists threshold scores order))
    (blockMaxWandStep trapIndex) (fun s => (blockMaxWandPass s).evaluation) WandState.top
    (wandInit ((layOutAll (trapLists threshold scores order)).map PostingCursor.open) 1) := by
  intro hexact
  obtain ⟨stats, hfirst⟩ := h.first_pass
  have hstart : Reaches (blockMaxWandStep trapIndex) (fun s => (blockMaxWandPass s).evaluation)
      (wandInit ((layOutAll (trapLists threshold scores order)).map PostingCursor.open) 1) [] _ := .start
  have hreach := hstart.pass hfirst
  obtain ⟨stats', hsecond⟩ := h.second_pass stats (h.standing hreach)
  have hreach' := hreach.pass hsecond
  obtain ⟨hpass, s', hthird⟩ := h.third_pass stats' (h.standing hreach')
  have hscore := hexact.scores _ _ (hreach'.pass hthird) ⟨scores.length + 200, met scores order⟩ (by
    rw [hpass]
    exact List.mem_cons_self)
  rw [Evaluation.score, h.score_met] at hscore
  exact h.docScore_met.ne hscore

omit h [Add S] [One S] [Neg S] [RoundedAdd S] in
theorem length_ranking : (ranking (layOutAll (trapLists threshold scores order))).length ≤ scores.length + 1 := by
  have hspent : ([spentSource scores].filter fun t => 0 < t.maxImpact) = [] := by
    rw [List.filter_eq_nil_iff]
    intro t ht
    rw [List.mem_singleton.mp ht, spent_maxImpact]
    simp
  rw [layOutAll_trapLists, ranking, ← List.cons_append, List.filter_append, hspent, List.append_nil]
  exact (List.length_filter_le _ _).trans (by simp)

end SumTrap

end Trap

variable {S : Type} [LinearOrder S] [Zero S] [One S] [Neg S] [Add S] [RoundedAdd S]

/-- With at most `n + 1` terms that can rank anything, the pruned loops push exact
scores on every index if and only if leaving one out of `n` summands never gains. -/
theorem scoresExactly_iff_noGain (n : Nat) (hn : n + 300 < 2 ^ 32) :
    (∀ (ix : Index S) (sources : List (PostingSource S)) (k : Nat), WellFormed sources → ValidBounds ix sources →
      1 ≤ k → (ranking sources).length ≤ n + 1 →
        ScoresExactly ix sources (daatStep ix) daatEvaluates DaatState.top
          (daatInit (sources.map PostingCursor.open) k) ∧
        ScoresExactly ix sources (wandStep ix) (fun s => (wandPass s).evaluation) WandState.top
          (wandInit (sources.map PostingCursor.open) k) ∧
        ScoresExactly ix sources (blockMaxWandStep ix) (fun s => (blockMaxWandPass s).evaluation) WandState.top
          (wandInit (sources.map PostingCursor.open) k)) ↔ NoGain S n := by
  constructor
  · intro hexact p l c hp hc hperm hlen
    by_contra hgain
    obtain ⟨order, horder, rfl⟩ := exists_order hperm
    have hlength := hperm.length_eq
    have htrap : SumTrap (sum l) (c :: l) order :=
      ⟨fun x hx => hp x (hperm.mem_iff.mpr hx), horder, by omega, hc, not_le.mp hgain, rfl⟩
    refine htrap.not_scoresExactly (hexact trapIndex _ 1 htrap.wellFormed htrap.validBounds le_rfl ?_).2.2
    exact SumTrap.length_ranking.trans (by omega)
  · intro hgain ix sources k hs hv hk hranking
    exact ⟨daat_scoresExactly hs hk, pruned_scoresExactly (wand_steps ix) hs hv hk hgain hranking,
      pruned_scoresExactly (blockMaxWand_steps ix (nonNegativeBounds hs hv)) hs hv hk hgain hranking⟩

/-- Exact scores, and in single precision, with at most four terms that can rank anything. -/
theorem scoresExactly_iff_noGain_small :
    (∀ (ix : Index ℚ) (sources : List (PostingSource ℚ)) (k : Nat), WellFormed sources → ValidBounds ix sources →
      1 ≤ k → (ranking sources).length ≤ 4 →
        ScoresExactly ix sources (daatStep ix) daatEvaluates DaatState.top
          (daatInit (sources.map PostingCursor.open) k) ∧
        ScoresExactly ix sources (wandStep ix) (fun s => (wandPass s).evaluation) WandState.top
          (wandInit (sources.map PostingCursor.open) k) ∧
        ScoresExactly ix sources (blockMaxWandStep ix) (fun s => (blockMaxWandPass s).evaluation) WandState.top
          (wandInit (sources.map PostingCursor.open) k)) ∧
    ∀ (ix : Index Lib.Binary32.Single) (sources : List (PostingSource Lib.Binary32.Single)) (k : Nat),
      WellFormed sources → ValidBounds ix sources → 1 ≤ k → (ranking sources).length ≤ 4 →
        ScoresExactly ix sources (daatStep ix) daatEvaluates DaatState.top
          (daatInit (sources.map PostingCursor.open) k) ∧
        ScoresExactly ix sources (wandStep ix) (fun s => (wandPass s).evaluation) WandState.top
          (wandInit (sources.map PostingCursor.open) k) ∧
        ScoresExactly ix sources (blockMaxWandStep ix) (fun s => (blockMaxWandPass s).evaluation) WandState.top
          (wandInit (sources.map PostingCursor.open) k) :=
  ⟨(scoresExactly_iff_noGain 3 (by decide)).mpr (noGain_rat 3),
    (scoresExactly_iff_noGain 3 (by decide)).mpr noGain_three⟩

open Lib.Binary32 in
/-- The left-out score and three others: `2 ^ 23 + 1` and `2 ^ 23` summed with the
one between them are exact, summed first they lose it. -/
def unevenScores : List Single :=
  [1, ⟨2 ^ 23, by decide +kernel⟩, 1, ⟨2 ^ 23 + 1, by decide +kernel⟩]

open Lib.Binary32 in
/-- The last three come to this, and all four to less in the order 1, 3, 2, 0. -/
def unevenThreshold : Single := ⟨2 ^ 23 + 1 + (2 ^ 23 + 1), by decide +kernel⟩

theorem blockMaxWand_scores_short_single :
    WellFormed (layOutAll (trapLists unevenThreshold unevenScores [1, 3, 2, 0])) ∧
      ValidBounds trapIndex (layOutAll (trapLists unevenThreshold unevenScores [1, 3, 2, 0])) ∧
      ¬ ScoresExactly trapIndex (layOutAll (trapLists unevenThreshold unevenScores [1, 3, 2, 0]))
        (blockMaxWandStep trapIndex) (fun s => (blockMaxWandPass s).evaluation) WandState.top
        (wandInit ((layOutAll (trapLists unevenThreshold unevenScores [1, 3, 2, 0])).map PostingCursor.open) 1) := by
  have htrap : SumTrap unevenThreshold unevenScores [1, 3, 2, 0] := by
    constructor
    · unfold NonNeg
      decide +kernel
    · decide
    · decide
    · decide +kernel
    · decide +kernel
    · decide +kernel
  exact ⟨htrap.wellFormed, htrap.validBounds, htrap.not_scoresExactly⟩

end CascadeSearch.Query.ScoreTrap
