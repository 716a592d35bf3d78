import CascadeSearch.Index.Blocks
import CascadeSearch.Lib.Binary32
import CascadeSearch.Query.PruningSafety

/-!
# Pruning under rounded addition

The pruned loops sum bounds in docid order while scores are summed in the order
of the terms. Where a score can lie strictly between two such sums of the same
numbers, an index is built on which `wand` stops before the best document.
-/
namespace CascadeSearch.Query.RoundedPruning

open Lib.Loop Lib.RoundedSum Lib.Ranking
open Index.Format Index.Blocks
open Cursor Heap Reader Evaluate Pruning Passes PruningSafety
open Result (Ranks)

section Construction

variable {S : Type}

/-- All three loops return, and with the same docids. -/
def Agree [LinearOrder S] [Zero S] [One S] [Neg S] [Add S] (ix : Index S)
    (sources : List (PostingSource S)) (k : Nat) : Prop :=
  ∃ daat wand blockMax : List (Result S) × SearchStats,
    Returns (daatStep ix) (daatInit (sources.map PostingCursor.open) k) (.ok daat) ∧
    Returns (wandStep ix) (wandInit (sources.map PostingCursor.open) k) (.ok wand) ∧
    Returns (blockMaxWandStep ix) (wandInit (sources.map PostingCursor.open) k) (.ok blockMax) ∧
    wand.1.map (·.docid) = daat.1.map (·.docid) ∧ blockMax.1.map (·.docid) = daat.1.map (·.docid)

variable [Zero S]

/-- A frequency of one scores nothing, any other the term's weight. -/
def weigh (idf : S) (tf : Nat) : S := if tf = 1 then 0 else idf

def trapIndex : Index S where
  bm25 := { bm25Idf := fun _ _ => 0, bm25TermScore := fun idf tf _ _ => weigh idf tf,
            avgDl := fun _ _ => 0 }
  docCount := 0
  avgDl := 0
  docLengths _ := 0
  termCount := 0
  termRecords _ := ⟨0, 0, 0, 0, 0, 0⟩
  termStrings := []
  postings := []
  docidOffsets _ := 0
  docidBlob := []

def impactOf (idf : S) (p : Posting) : S := weigh idf p.tf

theorem postingScore_trap (t : PostingSource S) (p : Posting) :
    postingScore trapIndex t p = impactOf t.idf p := rfl

variable [LinearOrder S]

/-- The first document, which sets the threshold. -/
def bait (threshold : S) : PostingSource S := layOut (impactOf threshold) threshold 0 [⟨0, 2⟩]

/-- A list that scores nothing at its place in the docid order and its weight in
the last document. -/
def decoy (scores : List S) (order : List Nat) (a : Nat) : PostingSource S :=
  layOut (impactOf (scores.getD a 0)) (scores.getD a 0) (a + 1)
    [⟨order.idxOf a + 1, 1⟩, ⟨scores.length + 1, 2⟩]

/-- The last document scores `scores` in the order of the terms, while the
cursors stand in `order`. -/
def trapSources (threshold : S) (scores : List S) (order : List Nat) : List (PostingSource S) :=
  bait threshold :: (List.range scores.length).map (decoy scores order)

variable {threshold : S} {scores : List S} {order : List Nat}

theorem impactOf_nonneg {idf : S} (h : 0 ≤ idf) (p : Posting) : 0 ≤ impactOf idf p := by
  unfold impactOf weigh
  split
  · exact le_rfl
  · exact h

/-- What the trap uses of a laid-out source. -/
theorem layOut_spec {idf : S} {merged : List Posting} {addr : Nat}
    (hd : ∀ p ∈ merged, p.docid < kNoDocid) (ht : ∀ p ∈ merged, p.tf < 2 ^ 32)
    (hlen : merged.length ≤ 2) (hasc : merged.Pairwise (fun p q => p.docid < q.docid)) :
    (layOut (impactOf idf) idf addr merged).all = merged ∧
      (layOut (impactOf idf) idf addr merged).WellFormed ∧
      (∀ i < (layOut (impactOf idf) idf addr merged).numBlocks,
        ∀ p ∈ (layOut (impactOf idf) idf addr merged).blockPostings i,
          impactOf idf p ≤ ((layOut (impactOf idf) idf addr merged).blocks i).maxImpact) ∧
      ∀ i < (layOut (impactOf idf) idf addr merged).numBlocks,
        ((layOut (impactOf idf) idf addr merged).blocks i).maxImpact ≤
          (layOut (impactOf idf) idf addr merged).maxImpact := by
  have hfit := length_encode_le (impactOf idf) merged
  exact (layOut_reads (impactOf idf) idf addr merged).spec hd ht (by omega) hasc

theorem getD_nonneg {scores : List S} (hn : NonNeg scores) (a : Nat) : 0 ≤ scores.getD a 0 := by
  rcases Nat.lt_or_ge a scores.length with h | h
  · rw [List.getD_eq_getElem _ _ h]
    exact hn _ (List.getElem_mem h)
  · rw [List.getD_eq_default _ _ h]

/-- What the trap is set with. -/
structure Trap (threshold : S) (scores : List S) (order : List Nat) : Prop where
  threshold : 0 ≤ threshold
  nonneg : NonNeg scores
  order : order.Perm (List.range scores.length)
  fits : scores.length + 2 < 2 ^ 32

namespace Trap

variable (h : Trap threshold scores order)
include h

theorem idxOf_lt {a : Nat} (ha : a ∈ order) : order.idxOf a < scores.length := by
  have hlen : order.length = scores.length := by rw [h.order.length_eq, List.length_range]
  exact hlen ▸ List.idxOf_lt_length_iff.mpr ha

theorem bait_spec : (bait threshold).all = [⟨0, 2⟩] ∧ (bait threshold).WellFormed ∧
    (bait threshold).maxImpact = threshold := by
  obtain ⟨hall, hwf, -⟩ := @layOut_spec S _ _ threshold [⟨0, 2⟩] 0 (by decide) (by decide)
    (by decide) (List.pairwise_singleton _ _)
  refine ⟨hall, hwf, ?_⟩
  show max 0 (max 0 threshold) = threshold
  rw [max_eq_right h.threshold, max_eq_right h.threshold]

theorem decoy_spec {a : Nat} (ha : a ∈ order) :
    (decoy scores order a).all = [⟨order.idxOf a + 1, 1⟩, ⟨scores.length + 1, 2⟩] ∧
      (decoy scores order a).WellFormed ∧ (decoy scores order a).maxImpact = scores.getD a 0 := by
  have hidx := h.idxOf_lt ha
  have hfit := h.fits
  have hn := getD_nonneg h.nonneg a
  obtain ⟨hall, hwf, -⟩ := @layOut_spec S _ _ (scores.getD a 0)
    [⟨order.idxOf a + 1, 1⟩, ⟨scores.length + 1, 2⟩] (a + 1)
    (by simp [kNoDocid]; omega) (by simp) (by simp) (by simp; omega)
  refine ⟨hall, hwf, ?_⟩
  show max 0 (max (max 0 0) (scores.getD a 0)) = scores.getD a 0
  rw [max_self, max_eq_right hn, max_eq_right hn]

theorem mem_trapSources {t : PostingSource S} :
    t ∈ trapSources threshold scores order ↔
      t = bait threshold ∨ ∃ a ∈ order, t = decoy scores order a := by
  simp only [trapSources, List.mem_cons, List.mem_map, ← h.order.mem_iff]
  exact or_congr Iff.rfl ⟨fun ⟨a, ha, h⟩ => ⟨a, ha, h.symm⟩, fun ⟨a, ha, h⟩ => ⟨a, ha, h.symm⟩⟩

theorem wellFormed : WellFormed (trapSources threshold scores order) where
  source t ht := by
    rcases h.mem_trapSources.mp ht with rfl | ⟨a, ha, rfl⟩
    · exact h.bait_spec.2.1
    · exact (h.decoy_spec ha).2.1
  addrs := by
    refine List.pairwise_cons.mpr ⟨fun t ht => ?_, List.pairwise_map.mpr ?_⟩
    · obtain ⟨a, -, rfl⟩ := List.mem_map.mp ht
      exact Nat.succ_pos a
    · exact List.pairwise_lt_range.imp fun h => Nat.succ_lt_succ h

theorem validBounds : ValidBounds trapIndex (trapSources threshold scores order) := by
  have hfit := h.fits
  have hbait := @layOut_spec S _ _ threshold [⟨0, 2⟩] 0 (by decide) (by decide) (by decide)
    (List.pairwise_singleton _ _)
  have hdecoy : ∀ a ∈ order, _ := fun a ha =>
    @layOut_spec S _ _ (scores.getD a 0) [⟨order.idxOf a + 1, 1⟩, ⟨scores.length + 1, 2⟩] (a + 1)
      (by have := h.idxOf_lt ha; simp [kNoDocid]; omega) (by simp) (by simp)
      (by have := h.idxOf_lt ha; simp; omega)
  constructor
  · intro t ht p _
    rw [postingScore_trap]
    rcases h.mem_trapSources.mp ht with rfl | ⟨a, ha, rfl⟩
    · exact impactOf_nonneg h.threshold p
    · exact impactOf_nonneg (getD_nonneg h.nonneg a) p
  · intro t ht
    rcases h.mem_trapSources.mp ht with rfl | ⟨a, ha, rfl⟩
    · exact hbait.2.2.1
    · exact (hdecoy a ha).2.2.1
  · intro t ht
    rcases h.mem_trapSources.mp ht with rfl | ⟨a, ha, rfl⟩
    · exact hbait.2.2.2
    · exact (hdecoy a ha).2.2.2

theorem entry_bait (e : Nat) : entry (bait threshold) e = if e = 0 then some ⟨0, 2⟩ else none := by
  unfold entry
  rw [h.bait_spec.1]
  by_cases he : e = 0
  · rw [he]
    rfl
  · simp [he, Ne.symm he]

/-- A decoy's own document, then the last one. -/
theorem entry_decoy {a : Nat} (ha : a ∈ order) (e : Nat) :
    entry (decoy scores order a) e =
      if e = order.idxOf a + 1 then some ⟨e, 1⟩
      else if e = scores.length + 1 then some ⟨e, 2⟩ else none := by
  unfold entry
  rw [(h.decoy_spec ha).1]
  by_cases he : e = order.idxOf a + 1
  · simp [he]
  · rw [List.find?_cons_of_neg (by simpa using Ne.symm he), if_neg he]
    by_cases he' : e = scores.length + 1
    · simp [he']
    · simp [he', Ne.symm he']

theorem containing_zero : containing (trapSources threshold scores order) 0 = [bait threshold] := by
  have hdecoys : ((List.range scores.length).map (decoy scores order)).filter
      (fun t => (entry t 0).isSome) = [] := by
    refine List.filter_eq_nil_iff.mpr fun t ht => ?_
    obtain ⟨a, ha, rfl⟩ := List.mem_map.mp ht
    rw [h.entry_decoy (h.order.mem_iff.mpr ha), if_neg (by omega), if_neg (by omega)]
    decide
  rw [containing, trapSources, List.filter_cons, hdecoys, h.entry_bait]
  rfl

theorem containing_pos {e : Nat} (he : e ≠ 0) :
    containing (trapSources threshold scores order) e =
      ((List.range scores.length).map (decoy scores order)).filter
        (fun t => (entry t e).isSome) := by
  rw [containing, trapSources, List.filter_cons_of_neg]
  rw [h.entry_bait, if_neg he]
  decide

theorem length_containing (hne : scores ≠ []) (e : Nat) :
    (containing (trapSources threshold scores order) e).length ≤ scores.length := by
  by_cases he : e = 0
  · rw [he, h.containing_zero]
    exact List.length_pos_of_ne_nil hne
  · rw [h.containing_pos he]
    refine (List.length_filter_le _ _).trans ?_
    rw [List.length_map, List.length_range]

theorem containing_last :
    containing (trapSources threshold scores order) (scores.length + 1) =
      (List.range scores.length).map (decoy scores order) := by
  rw [h.containing_pos (Nat.succ_ne_zero _)]
  refine List.filter_eq_self.mpr fun t ht => ?_
  obtain ⟨a, ha, rfl⟩ := List.mem_map.mp ht
  rw [h.entry_decoy (h.order.mem_iff.mpr ha)]
  split
  · rfl
  · rw [if_pos rfl]
    rfl

variable [Add S]

theorem docScore_last :
    docScore trapIndex (trapSources threshold scores order) (scores.length + 1) = sum scores := by
  rw [docScore, h.containing_last, List.map_map]
  congr 1
  refine List.ext_getElem (by simp) fun i hi hi' => ?_
  have hmem : i ∈ order := h.order.mem_iff.mpr (by simpa using hi')
  have hidx := h.idxOf_lt hmem
  rw [List.getElem_map, List.getElem_range, Function.comp_apply, sourceScore,
    h.entry_decoy hmem, if_neg (by omega), if_pos rfl]
  exact List.getD_eq_getElem _ _ hi'

variable [One S] [Neg S] [RoundedAdd S]

/-- Every other document scores at most the threshold. -/
theorem docScore_other {e : Nat} (he : e ≠ scores.length + 1) :
    docScore trapIndex (trapSources threshold scores order) e ≤ threshold := by
  by_cases hz : e = 0
  · rw [hz, docScore, h.containing_zero, List.map_singleton, sourceScore, h.entry_bait]
    exact (RoundedAdd.zero_add h.threshold).le
  · rw [docScore, h.containing_pos hz, sum_eq_zero]
    · exact h.threshold
    · intro x hx
      obtain ⟨t, ht, rfl⟩ := List.mem_map.mp hx
      obtain ⟨ht, -⟩ := List.mem_filter.mp ht
      obtain ⟨a, ha, rfl⟩ := List.mem_map.mp ht
      rw [sourceScore, h.entry_decoy (h.order.mem_iff.mpr ha), if_neg he]
      by_cases hown : e = order.idxOf a + 1
      · rw [if_pos hown]
        rfl
      · rw [if_neg hown]

/-- The exhaustive answer is the last document. -/
theorem ranked_last (hlt : threshold < sum scores) (hne : scores ≠ []) :
    ranked trapIndex (trapSources threshold scores order) 1 =
      [scored trapIndex (trapSources threshold scores order) (scores.length + 1)] := by
  have hlast : ∀ a ∈ List.range scores.length,
      scores.length + 1 ∈ matching (trapSources threshold scores order) := by
    intro a ha
    have hmem := h.order.mem_iff.mpr ha
    refine mem_matching.mpr ⟨decoy scores order a, h.mem_trapSources.mpr (Or.inr ⟨a, hmem, rfl⟩),
      ⟨scores.length + 1, 2⟩, ?_, rfl⟩
    rw [(h.decoy_spec hmem).1]
    exact List.mem_cons_of_mem _ List.mem_cons_self
  have hpos := List.length_pos_of_ne_nil hne
  refine ranked_one (hlast 0 (List.mem_range.mpr hpos)) fun e _ he => ?_
  rw [h.docScore_last]
  exact (h.docScore_other he).trans_lt hlt

end Trap

/-- The decoys' cursors in the order of their first docids. -/
def decoyCursors (scores : List S) (order : List Nat) : List (PostingCursor S) :=
  order.map (fun a => PostingCursor.open (decoy scores order a))

namespace Trap

variable (h : Trap threshold scores order)
include h

theorem open_bait : (PostingCursor.open (bait threshold)).exhausted = false ∧
    (PostingCursor.open (bait threshold)).docid = 0 ∧
    (PostingCursor.open (bait threshold)).freq = 2 ∧
    (PostingCursor.open (bait threshold)).next.exhausted = true := by
  obtain ⟨hall, hwf, -⟩ := h.bait_spec
  obtain ⟨hcons, hrem⟩ := PostingCursor.open_spec hwf
  obtain ⟨hx, hd, hf⟩ := PostingCursor.open_head hwf hall
  obtain ⟨hcons', hrem'⟩ := PostingCursor.next_spec hcons
  refine ⟨hx, hd, hf, hcons'.remaining_eq_nil_iff.mp ?_⟩
  rw [hrem', hrem, hall]
  rfl

theorem open_decoy {a : Nat} (ha : a ∈ order) :
    (PostingCursor.open (decoy scores order a)).exhausted = false ∧
      (PostingCursor.open (decoy scores order a)).docid = order.idxOf a + 1 := by
  obtain ⟨hall, hwf, -⟩ := h.decoy_spec ha
  obtain ⟨hx, hd, -⟩ := PostingCursor.open_head hwf hall
  exact ⟨hx, hd⟩

theorem decoyCursors_running : ∀ c ∈ decoyCursors scores order, c.exhausted = false ∧ 0 < c.docid := by
  intro c hc
  obtain ⟨a, ha, rfl⟩ := List.mem_map.mp hc
  obtain ⟨hx, hd⟩ := h.open_decoy ha
  exact ⟨hx, by omega⟩

theorem decoyCursors_maxImpact :
    (decoyCursors scores order).map (·.maxImpact) = order.map (fun a => scores.getD a 0) := by
  rw [decoyCursors, List.map_map]
  refine List.map_congr_left fun a ha => ?_
  rw [Function.comp_apply, PostingCursor.open_source]
  exact (h.decoy_spec ha).2.2

theorem decoyCursors_sorted : (decoyCursors scores order).Pairwise byDocid := by
  refine List.pairwise_map.mpr (List.pairwise_iff_getElem.mpr fun i j hi hj hij => ?_)
  have hnd : order.Nodup := h.order.nodup_iff.mpr List.nodup_range
  refine Or.inl ?_
  rw [(h.open_decoy (List.getElem_mem hi)).2, (h.open_decoy (List.getElem_mem hj)).2,
    hnd.idxOf_getElem i hi, hnd.idxOf_getElem j hj]
  omega

/-- Whatever order the decoys' cursors arrive in, sorting lists them so. -/
theorem sort_decoyCursors {live : List (PostingCursor S)}
    (hp : live.Perm (decoyCursors scores order)) : sortByDocid live = decoyCursors scores order := by
  refine ((perm_sortByDocid live).trans hp).eq_of_pairwise (fun c e _ he hce hec => ?_)
    (sorted_sortByDocid live) h.decoyCursors_sorted
  have hc' : c ∈ decoyCursors scores order := ((perm_sortByDocid live).trans hp).mem_iff.mp ‹_›
  obtain ⟨a, ha, rfl⟩ := List.mem_map.mp hc'
  obtain ⟨b, hb, rfl⟩ := List.mem_map.mp he
  have haddr : (PostingCursor.open (decoy scores order a)).addr =
      (PostingCursor.open (decoy scores order b)).addr := by
    unfold byDocid at hce hec
    omega
  rw [PostingCursor.open_source, PostingCursor.open_source] at haddr
  obtain rfl : a = b := Nat.succ.inj haddr
  rfl

variable [One S] [Neg S] [Add S] [RoundedAdd S]

/-- The first pass scores the bait, which fills the heap. -/
theorem wand_first : ∃ stats,
    wandStep trapIndex (wandInit ((trapSources threshold scores order).map PostingCursor.open) 1) =
      .next ⟨(PostingCursor.open (bait threshold)).next :: decoyCursors scores order,
        ⟨1, [⟨0, threshold⟩]⟩, stats⟩ := by
  obtain ⟨hx, hd, hf, -⟩ := h.open_bait
  have hrun := h.decoyCursors_running
  have hperm : (((List.range scores.length).map (decoy scores order)).map PostingCursor.open).Perm
      (decoyCursors scores order) := by
    rw [List.map_map]
    exact h.order.symm.map _
  have hlive : (dropExhausted (wandInit
      ((trapSources threshold scores order).map PostingCursor.open) 1)).live =
      PostingCursor.open (bait threshold) ::
        ((List.range scores.length).map (decoy scores order)).map PostingCursor.open := by
    unfold dropExhausted wandInit trapSources
    dsimp only
    rw [List.map_cons, List.filter_cons_of_pos (by simp [hx])]
    refine congrArg _ (List.filter_eq_self.mpr fun c hc => ?_)
    simp [(hrun c (hperm.mem_iff.mp hc)).1]
  have hsort : sortByDocid (dropExhausted (wandInit
      ((trapSources threshold scores order).map PostingCursor.open) 1)).live =
      PostingCursor.open (bait threshold) :: decoyCursors scores order := by
    rw [hlive, sortByDocid, List.insertionSort_cons]
    change List.orderedInsert _ _ (sortByDocid _) = _
    rw [h.sort_decoyCursors hperm]
    cases hcs : decoyCursors scores order with
    | nil => rfl
    | cons c cs =>
      have hc := hrun c (hcs ▸ List.mem_cons_self)
      have hfirst : byDocid (PostingCursor.open (bait threshold)) c := Or.inl (by omega)
      rw [List.orderedInsert_cons, if_pos hfirst]
  have hmax : (PostingCursor.open (bait threshold)).maxImpact = threshold := by
    rw [PostingCursor.open_source]
    exact h.bait_spec.2.2
  have hpivot : findPivot (0 : S) 0 (PostingCursor.open (bait threshold) ::
      decoyCursors scores order) = 0 := by
    rw [findPivot, hmax, RoundedAdd.zero_add h.threshold]
    exact if_pos h.threshold
  obtain ⟨stats, hselect, -⟩ := selectPivot_of_some hsort
    (show TopK.threshold _ = some (0 : S) from rfl) (by rw [hpivot, List.getElem?_cons_zero])
  rw [hpivot, hd] at hselect
  have hat : ∀ c ∈ [PostingCursor.open (bait threshold)], c.docid = 0 := by simpa using hd
  have htake := takeWhile_front hat fun c hc => (hrun c hc).2
  rw [List.singleton_append] at htake
  have hscore : accumulate trapIndex 0 [PostingCursor.open (bait threshold)] = threshold := by
    show 0 + weigh (PostingCursor.open (bait threshold)).idf
      (PostingCursor.open (bait threshold)).freq = threshold
    rw [hf, PostingCursor.open_source]
    exact RoundedAdd.zero_add h.threshold
  refine ⟨stats.scored [PostingCursor.open (bait threshold)], ?_⟩
  unfold wandStep
  rw [hselect]
  dsimp only
  rw [if_pos (by rw [List.head?_cons, Option.map_some, hd])]
  unfold scorePivot
  dsimp only
  rw [htake.1, htake.2, hscore]
  rfl

/-- The second pass gives up: no pivot, since the bounds stay below the threshold. -/
theorem wand_second (hlt : sum (order.map (fun a => scores.getD a 0)) < threshold) (stats : SearchStats) :
    ∃ stats', wandStep trapIndex
      ⟨(PostingCursor.open (bait threshold)).next :: decoyCursors scores order,
        ⟨1, [⟨0, threshold⟩]⟩, stats⟩ = .done (.ok ([⟨0, threshold⟩], stats')) := by
  obtain ⟨-, -, -, hend⟩ := h.open_bait
  have hrun := h.decoyCursors_running
  have hlive : (dropExhausted (⟨(PostingCursor.open (bait threshold)).next ::
      decoyCursors scores order, ⟨1, [⟨0, threshold⟩]⟩, stats⟩ : WandState S)).live =
      decoyCursors scores order := by
    unfold dropExhausted
    dsimp only
    rw [List.filter_cons_of_neg (by simp [hend])]
    exact List.filter_eq_self.mpr fun c hc => by simp [(hrun c hc).1]
  have hpivot : findPivot threshold 0 (decoyCursors scores order) =
      (decoyCursors scores order).length := by
    refine findPivot_eq_length (fun c hc => ?_) le_rfl ?_
    · obtain ⟨a, ha, rfl⟩ := List.mem_map.mp hc
      rw [PostingCursor.open_source, (h.decoy_spec ha).2.2]
      exact getD_nonneg h.nonneg a
    · rw [h.decoyCursors_maxImpact]
      exact hlt
  obtain ⟨stats', hselect, -⟩ := selectPivot_of_none
    ((congrArg sortByDocid hlive).trans (h.sort_decoyCursors (List.Perm.refl _)))
    (show TopK.threshold _ = some threshold from rfl) (by rw [hpivot, List.getElem?_length])
  refine ⟨stats', ?_⟩
  unfold wandStep
  rw [hselect]
  rfl

/-- `wand` returns the bait, the exhaustive loop the last document. -/
theorem not_agree (hlow : sum (order.map (fun a => scores.getD a 0)) < threshold)
    (hhigh : threshold < sum scores) :
    ¬ Agree trapIndex (trapSources threshold scores order) 1 := by
  have hne : scores ≠ [] := by
    rintro rfl
    exact absurd (h.threshold.trans_lt hhigh) (lt_irrefl _)
  rintro ⟨daat, wand, -, hdaat, hwand, -, hsame, -⟩
  obtain ⟨stats, hranked⟩ := daatOr_returns trapIndex h.wellFormed (Nat.one_pos)
  rw [h.ranked_last hhigh hne] at hranked
  obtain ⟨stats₁, hfirst⟩ := h.wand_first
  obtain ⟨stats₂, hsecond⟩ := h.wand_second hlow stats₁
  cases hdaat.unique hranked
  cases hwand.unique (returns_next hfirst (returns_done hsecond))
  have : (0 : Nat) = scores.length + 1 := List.head_eq_of_cons_eq hsame
  omega

end Trap

end Construction

section Exact

/-- A permutation of a list reads it in some order of its positions. -/
theorem exists_order {S : Type} [Zero S] {l scores : List S} (h : l.Perm scores) :
    ∃ order : List Nat, order.Perm (List.range scores.length) ∧
      l = order.map (fun a => scores.getD a 0) := by
  have hpos : List.Forall₂ (fun x a => x = scores.getD a 0) scores (List.range scores.length) := by
    refine List.forall₂_iff_get.mpr ⟨by simp, fun i hi hi' => ?_⟩
    simp only [List.get_eq_getElem, List.getElem_range]
    exact (List.getD_eq_getElem _ _ hi).symm
  obtain ⟨order, hfa, hperm⟩ := List.perm_comp_forall₂ h hpos
  refine ⟨order, hperm, ?_⟩
  rw [← List.forall₂_eq_eq_eq]
  exact List.forall₂_map_right_iff.mpr hfa

variable {S : Type} [LinearOrder S] [Zero S] [One S] [Neg S] [Add S] [RoundedAdd S]

theorem agree_of_noScoreBetween {n : Nat} (hb : NoScoreBetween S n) {ix : Index S}
    {sources : List (PostingSource S)} (hs : WellFormed sources) (hv : ValidBounds ix sources)
    {k : Nat} (hk : 1 ≤ k) (hn : ∀ d, (containing sources d).length ≤ n) : Agree ix sources k := by
  obtain ⟨daatStats, hdaat⟩ := daatOr_returns ix hs hk
  obtain ⟨wandStats, hwand⟩ := wand_returns hs hv hb hn hk
  obtain ⟨blockMaxStats, hblock⟩ := blockMaxWand_returns hs hv hb hn hk
  exact ⟨_, _, _, hdaat, hwand, hblock, rfl, rfl⟩

/-- For documents that hold at most `n` of the query's terms, the three loops
agree on every index with valid bounds if and only if no score lies strictly
between the sums of at most `n` numbers taken in two orders. -/
theorem agree_iff_noScoreBetween (n : Nat) (hn : n + 2 < 2 ^ 32) :
    (∀ (ix : Index S) (sources : List (PostingSource S)) (k : Nat), WellFormed sources →
      ValidBounds ix sources → 1 ≤ k → (∀ d, (containing sources d).length ≤ n) →
        Agree ix sources k) ↔ NoScoreBetween S n := by
  constructor
  · intro hagree l scores hl hperm hlen threshold hlow
    by_contra hnot
    have hhigh : threshold < sum scores := not_le.mp hnot
    obtain ⟨order, ho, rfl⟩ := exists_order hperm
    have hnonneg : NonNeg scores := fun x hx => hl x (hperm.mem_iff.mpr hx)
    have hlen' := hperm.length_eq
    have htrap : Trap threshold scores order :=
      ⟨(sum_nonneg hl).trans hlow.le, hnonneg, ho, by omega⟩
    have hne : scores ≠ [] := by
      rintro rfl
      exact absurd (htrap.threshold.trans_lt hhigh) (lt_irrefl _)
    refine htrap.not_agree hlow hhigh (hagree trapIndex _ 1 htrap.wellFormed htrap.validBounds
      le_rfl fun d => ?_)
    exact (htrap.length_containing hne d).trans (by omega)
  · intro hb ix sources k hs hv hk hcount
    exact agree_of_noScoreBetween hb hs hv hk hcount

/-- Exact scores, and in single precision two terms in a document. -/
theorem agree_iff_noScoreBetween_small :
    (∀ (ix : Index ℚ) (sources : List (PostingSource ℚ)) (k : Nat), WellFormed sources → ValidBounds ix sources →
      1 ≤ k → (∀ d, (containing sources d).length ≤ 3) → Agree ix sources k) ∧
    ∀ (ix : Index Lib.Binary32.Single) (sources : List (PostingSource Lib.Binary32.Single)) (k : Nat),
      WellFormed sources → ValidBounds ix sources → 1 ≤ k →
        (∀ d, (containing sources d).length ≤ 2) → Agree ix sources k :=
  ⟨(agree_iff_noScoreBetween 3 (by decide)).mpr (noScoreBetween_rat 3),
    (agree_iff_noScoreBetween 2 (by decide)).mpr noScoreBetween_two⟩

end Exact

open Lib.Binary32 in
/-- `2 ^ 24` and four ones: summed from the large end each one is rounded away. -/
def largeAndOnes : List Single :=
  [1, 1, 1, 1, ⟨2 ^ 24, by decide +kernel⟩]

open Lib.Binary32 in
theorem wand_misses_best_single :
    WellFormed (trapSources (⟨2 ^ 24 + 2, by decide +kernel⟩ : Single) largeAndOnes [4, 0, 1, 2, 3]) ∧
      ValidBounds trapIndex
        (trapSources (⟨2 ^ 24 + 2, by decide +kernel⟩ : Single) largeAndOnes [4, 0, 1, 2, 3]) ∧
      ¬ Agree trapIndex
        (trapSources (⟨2 ^ 24 + 2, by decide +kernel⟩ : Single) largeAndOnes [4, 0, 1, 2, 3]) 1 := by
  have htrap : Trap (⟨2 ^ 24 + 2, by decide +kernel⟩ : Single) largeAndOnes [4, 0, 1, 2, 3] := by
    constructor
    · decide +kernel
    · unfold NonNeg
      decide +kernel
    · decide
    · decide
  refine ⟨htrap.wellFormed, htrap.validBounds, htrap.not_agree ?_ ?_⟩
  · decide +kernel
  · decide +kernel

end CascadeSearch.Query.RoundedPruning
