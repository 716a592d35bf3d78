import CascadeSearch.Harness.Metrics
import CascadeSearch.Lib.Dominance
import Mathlib.Algebra.Order.Field.Basic
import Mathlib.Analysis.SpecialFunctions.Log.Base

/-!
# NDCG is normalised

Any choice of distinct documents has gains whose prefixes sum to at most those of
the ideal gains, so no ranking is worth more than the ideal one, and one that is
worth as much has the ideal gains at its first ranks.
-/
namespace CascadeSearch.Harness.Metrics

open Lib.Mapping Lib.Sorted Lib.Dominance
open Finset (range)

variable {Qid D S R : Type*}

/-- The discount of ranks from 1 on is positive and decreases. -/
structure Discounts [One R] [Zero R] [Div R] [LT R] (log2 : Nat → R) : Prop where
  pos : ∀ rank ≥ 1, 0 < 1 / log2 (rank + 1)
  anti : ∀ rank ≥ 1, 1 / log2 (rank + 2) < 1 / log2 (rank + 1)

section Gains

variable [DecidableEq D]

def gain (judgments : Dict D Int) (docid : D) : Int := judgments.getD docid 0

/-- A gain as it counts: documents judged below zero count as not relevant. -/
def counted (judgments : Dict D Int) (docid : D) : Int := max (gain judgments docid) 0

def positive (judgments : Dict D Int) : List Int := judgments.values.filter (0 < ·)

omit [DecidableEq D] in
theorem idealGains_eq (judgments : Dict D Int) (k : Nat) :
    idealGains judgments k = ((positive judgments).insertionSort (· ≥ ·)).take k := rfl

/-- The positive gains of distinct documents are among the positive judgments. -/
theorem positive_gains_subperm {judgments : Dict D Int} {docids : List D} (h : docids.Nodup) :
    ((docids.map (gain judgments)).filter (0 < ·)).Subperm (positive judgments) := by
  have hvalues : judgments.values = judgments.keys.map (gain judgments) := by
    rw [Dict.values, Dict.keys, List.map_map]
    exact List.map_congr_left fun item hitem => (Dict.getD_of_mem hitem 0).symm
  have hdocids : (docids.filter (0 < gain judgments ·)).Subperm (judgments.keys.filter (0 < gain judgments ·)) := by
    refine List.subperm_of_subset (h.filter _) fun docid hdocid => ?_
    obtain ⟨-, hpos⟩ := List.mem_filter.mp hdocid
    refine List.mem_filter.mpr ⟨?_, hpos⟩
    by_contra hnot
    rw [gain, Dict.getD_of_not_mem hnot] at hpos
    simp at hpos
  rw [positive, hvalues, List.filter_map, List.filter_map]
  obtain ⟨chosen, hperm, hsub⟩ := hdocids
  exact ⟨chosen.map (gain judgments), hperm.map _, hsub.map _⟩

theorem sum_counted (judgments : Dict D Int) (docids : List D) :
    (docids.map (counted judgments)).sum = ((docids.map (gain judgments)).filter (0 < ·)).sum := by
  induction docids with
  | nil => rfl
  | cons docid docids ih =>
    rw [List.map_cons, List.sum_cons, ih, List.map_cons, counted]
    by_cases hpos : 0 < gain judgments docid
    · rw [List.filter_cons_of_pos (by simpa using hpos), List.sum_cons, max_eq_left hpos.le]
    · rw [List.filter_cons_of_neg (by simpa using hpos), max_eq_right (not_lt.mp hpos), zero_add]

/-- No choice of `m` documents has more gain than the first `m` ideal gains. -/
theorem sum_counted_le {judgments : Dict D Int} {docids : List D} (h : docids.Nodup) {k m : Nat} (hmk : m ≤ k) :
    ((docids.map (counted judgments)).take m).sum ≤ ((idealGains judgments k).take m).sum := by
  rw [← List.map_take, sum_counted, idealGains_eq, List.take_take, min_eq_left hmk]
  have hperm := List.perm_insertionSort (· ≥ ·) (positive judgments)
  refine sum_le_sum_take (List.pairwise_insertionSort _ _) (fun rel hrel => ?_)
    ((positive_gains_subperm (h.sublist (List.take_sublist m docids))).trans hperm.symm.subperm) ?_
  · have hpos := (List.mem_filter.mp (hperm.mem_iff.mp hrel)).2
    exact (of_decide_eq_true hpos).le
  · exact (List.length_filter_le _ _).trans (by simp)

end Gains

section Sums

variable [Field R]

/-- The discount of the rank at an index from 0. -/
def weight (log2 : Nat → R) (i : Nat) : R := 1 / log2 (i + 1 + 1)

theorem total_eq_sum (values : List R) : total values = values.sum := by
  rw [total, List.sum_eq_foldl]

theorem total_discounted (log2 : Nat → R) {gains : List Int} {n : Nat} (h : gains.length ≤ n) :
    total (discounted log2 gains) = ∑ i ∈ range n, ((gains.getD i 0 : Int) : R) * weight log2 i := by
  rw [total_eq_sum, discounted, sum_zipIdx gains 0 fun gain rank => (gain : R) / log2 (rank + 1)]
  have houtside : ∀ i ∈ range n, i ∉ range gains.length → ((gains.getD i 0 : Int) : R) / log2 (1 + i + 1) = 0 := by
    intro i _ hi
    rw [List.getD_eq_getElem?_getD, List.getElem?_eq_none (by simpa using hi), Option.getD_none, Int.cast_zero, zero_div]
  rw [Finset.sum_subset (Finset.range_subset_range.mpr h) houtside]
  refine Finset.sum_congr rfl fun i _ => ?_
  rw [weight, Nat.add_comm 1 i, mul_one_div]

theorem dcgOf_eq [DecidableEq D] (log2 : Nat → R) (judgments : Dict D Int) (ranked : List D) :
    dcgOf log2 judgments ranked = total (discounted log2 (ranked.map (counted judgments))) := by
  rw [dcgOf, total, discounted, List.zipIdx_map, List.map_map, List.foldl_map]
  congr 1
  funext dcg doc
  by_cases hpos : 0 < judgments.getD doc.1 0
  · simp [hpos, counted, gain, max_eq_left hpos.le]
  · simp [hpos, counted, gain, max_eq_right (not_lt.mp hpos)]

theorem sum_range_cast (gains : List Int) (m : Nat) :
    ∑ i ∈ range m, ((gains.getD i 0 : Int) : R) = ((gains.take m).sum : Int) := by
  rw [← Int.cast_sum, sum_range_getD]

variable [LinearOrder R] [IsStrictOrderedRing R] {log2 : Nat → R}

omit [IsStrictOrderedRing R] in
theorem Discounts.weight_pos (h : Discounts log2) (i : Nat) : 0 < weight log2 i := h.pos (i + 1) (Nat.le_add_left 1 i)

omit [IsStrictOrderedRing R] in
theorem Discounts.weight_strictAnti (h : Discounts log2) : StrictAnti (weight log2) :=
  strictAnti_nat_of_succ_lt fun i => h.anti (i + 1) (Nat.le_add_left 1 i)

variable {gains ideal : List Int} {n : Nat}

theorem total_discounted_le (h : Discounts log2) (hgains : gains.length ≤ n) (hideal : ideal.length ≤ n)
    (hpre : ∀ m ≤ n, (gains.take m).sum ≤ (ideal.take m).sum) :
    total (discounted log2 gains) ≤ total (discounted log2 ideal) := by
  rw [total_discounted log2 hgains, total_discounted log2 hideal]
  refine weighted_le h.weight_strictAnti h.weight_pos fun m hm => ?_
  rw [sum_range_cast, sum_range_cast]
  exact Int.cast_le.mpr (hpre m hm)

theorem total_discounted_eq_iff (h : Discounts log2) (hgains : gains.length ≤ n) (hideal : ideal.length ≤ n)
    (hpre : ∀ m ≤ n, (gains.take m).sum ≤ (ideal.take m).sum) :
    total (discounted log2 gains) = total (discounted log2 ideal) ↔
      ∀ m ≤ n, (gains.take m).sum = (ideal.take m).sum := by
  rw [total_discounted log2 hgains, total_discounted log2 hideal, weighted_eq_iff h.weight_strictAnti h.weight_pos]
  · simp only [sum_range_cast, Int.cast_inj]
  · intro m hm
    rw [sum_range_cast, sum_range_cast]
    exact Int.cast_le.mpr (hpre m hm)

theorem prefix_nonneg (hgains : ∀ gain ∈ gains, 0 ≤ gain) (m : Nat) : (([] : List Int).take m).sum ≤ (gains.take m).sum := by
  rw [List.take_nil]
  exact List.sum_nonneg fun gain hgain => hgains gain (List.mem_of_mem_take hgain)

theorem total_discounted_nonneg (h : Discounts log2) (hgains : ∀ gain ∈ gains, 0 ≤ gain) :
    0 ≤ total (discounted log2 gains) :=
  total_discounted_le h (Nat.zero_le _) le_rfl fun m _ => prefix_nonneg hgains m

theorem total_discounted_pos (h : Discounts log2) (hgains : ∀ gain ∈ gains, 0 ≤ gain) (hsum : 0 < gains.sum) :
    0 < total (discounted log2 gains) := by
  refine lt_of_le_of_ne (total_discounted_nonneg h hgains) fun heq => ?_
  have hiff := total_discounted_eq_iff h (Nat.zero_le _) le_rfl fun m _ => prefix_nonneg hgains m
  have hall := hiff.mp heq gains.length le_rfl
  rw [List.take_nil, List.take_length] at hall
  exact hsum.ne hall

end Sums

section Ndcg

variable [DecidableEq D] {judgments : Dict D Int} {ranked : List D} {k : Nat}

theorem counted_nonneg (judgments : Dict D Int) (docids : List D) : ∀ gain ∈ docids.map (counted judgments), 0 ≤ gain := by
  intro gain hgain
  obtain ⟨docid, -, rfl⟩ := List.mem_map.mp hgain
  exact le_max_right _ _

omit [DecidableEq D] in
theorem idealGains_pos : ∀ gain ∈ idealGains judgments k, 0 < gain := by
  intro gain hgain
  have hmem := (List.perm_insertionSort (· ≥ ·) (positive judgments)).mem_iff.mp (List.mem_of_mem_take hgain)
  exact of_decide_eq_true (List.mem_filter.mp hmem).2

omit [DecidableEq D] in
theorem length_idealGains : (idealGains judgments k).length = min k (positive judgments).length := by
  rw [idealGains_eq, List.length_take, List.length_insertionSort]

/-- Where the ideal gains are, documents below zero do not matter. -/
theorem map_counted_eq_iff {docids : List D} {gains : List Int} (h : ∀ gain ∈ gains, 0 < gain) :
    docids.map (counted judgments) = gains ↔ docids.map (gain judgments) = gains := by
  have hpos : ∀ docid, 0 < counted judgments docid ∨ 0 < gain judgments docid →
      counted judgments docid = gain judgments docid := by
    intro docid hdocid
    rw [counted] at hdocid ⊢
    omega
  constructor
  · rintro rfl
    exact List.map_congr_left fun docid hdocid => (hpos docid (.inl (h _ (List.mem_map_of_mem hdocid)))).symm
  · rintro rfl
    exact List.map_congr_left fun docid hdocid => hpos docid (.inr (h _ (List.mem_map_of_mem hdocid)))

/-- All prefixes have the ideal gain exactly if the first ranks have the ideal gains. -/
theorem prefixes_eq_iff (h : ranked.Nodup) :
    (∀ m ≤ k, (((ranked.take k).map (counted judgments)).take m).sum = ((idealGains judgments k).take m).sum) ↔
      (ranked.take (min k (positive judgments).length)).map (gain judgments) = idealGains judgments k := by
  have hlength : (idealGains judgments k).length ≤ k := length_idealGains.trans_le (min_le_left _ _)
  have htake : ((ranked.take k).map (counted judgments)).take (idealGains judgments k).length =
      (ranked.take (min k (positive judgments).length)).map (counted judgments) := by
    rw [← List.map_take, List.take_take, min_eq_left hlength, length_idealGains]
  rw [← map_counted_eq_iff idealGains_pos, ← htake]
  constructor
  · exact take_eq_of_prefixes (fun gain hgain => (idealGains_pos gain hgain).ne') hlength
  · intro heq m hm
    refine le_antisymm (sum_counted_le (h.sublist (List.take_sublist k ranked)) hm) ?_
    have hsub : (((ranked.take k).map (counted judgments)).take (min m (idealGains judgments k).length)).Sublist
        (((ranked.take k).map (counted judgments)).take m) := List.take_sublist_take_left (min_le_left _ _)
    rw [← heq, List.take_take]
    exact hsub.sum_le_sum fun gain hgain => counted_nonneg judgments _ gain (List.mem_of_mem_take hgain)

variable [Field R] [LinearOrder R] [IsStrictOrderedRing R] {log2 : Nat → R}

omit [DecidableEq D] in
theorem total_idealGains_pos (h : Discounts log2) (hpos : ∃ rel ∈ judgments.values, 0 < rel) (hk : 1 ≤ k) :
    0 < total (discounted log2 (idealGains judgments k)) := by
  obtain ⟨rel, hrel, hlt⟩ := hpos
  have hsome : 0 < (positive judgments).length :=
    List.length_pos_of_mem (List.mem_filter.mpr ⟨hrel, decide_eq_true hlt⟩)
  have hne : idealGains judgments k ≠ [] := List.ne_nil_of_length_pos (by rw [length_idealGains]; omega)
  exact total_discounted_pos h (fun gain hgain => (idealGains_pos gain hgain).le)
    (List.sum_pos _ idealGains_pos hne)

theorem ndcgOf_mem_unit (h : Discounts log2) (judgments : Dict D Int) (hranked : ranked.Nodup) (k : Nat) :
    0 ≤ ndcgOf log2 judgments ranked k ∧ ndcgOf log2 judgments ranked k ≤ 1 := by
  rw [ndcgOf]
  split
  · exact ⟨le_rfl, zero_le_one⟩
  · have hideal : ∀ gain ∈ idealGains judgments k, 0 ≤ gain := fun gain hgain => (idealGains_pos gain hgain).le
    have hidcg := total_discounted_nonneg h hideal
    rw [dcgOf_eq]
    refine ⟨div_nonneg (total_discounted_nonneg h (counted_nonneg judgments _)) hidcg, div_le_one_of_le₀ ?_ hidcg⟩
    refine total_discounted_le h (n := k) (by simp) (length_idealGains.trans_le (min_le_left _ _)) fun m hm => ?_
    exact sum_counted_le (hranked.sublist (List.take_sublist k ranked)) hm

theorem ndcgOf_eq_one_iff (h : Discounts log2) (hranked : ranked.Nodup) (hpos : ∃ rel ∈ judgments.values, 0 < rel)
    (hk : 1 ≤ k) : ndcgOf log2 judgments ranked k = 1 ↔
      (ranked.take (min k (positive judgments).length)).map (gain judgments) = idealGains judgments k := by
  have hidcg := total_idealGains_pos h hpos hk
  rw [ndcgOf, if_neg hidcg.ne', div_eq_one_iff_eq hidcg.ne', dcgOf_eq, ← prefixes_eq_iff hranked]
  refine total_discounted_eq_iff h (by simp) (length_idealGains.trans_le (min_le_left _ _)) fun m hm => ?_
  exact sum_counted_le (hranked.sublist (List.take_sublist k ranked)) hm

end Ndcg

section Normalised

variable [LinearOrder R] [Field R] [IsStrictOrderedRing R] [DecidableEq Qid] [DecidableEq D] [LT D] [DecidableLT D] [LT S]
  [DecidableLT S] [Neg S]

omit [DecidableEq D] in
theorem nodup_rankedDocids (docScores : Dict D S) : (rankedDocids docScores).Nodup :=
  (sorted_perm.map Prod.fst).nodup_iff.mpr docScores.nodup

/-- NDCG lies between 0 and 1, and is 1 for the rankings that begin with the ideal gains. -/
theorem ndcgAtK_normalised {log2 : Nat → R} (h : Discounts log2) (qrels : Qrels Qid D) (run : Run Qid D S) (k : Nat) :
    ∀ qid judgments, qrels.get? qid = some judgments →
      ∃ ndcg, (ndcgAtK log2 qrels run k).get? qid = some ndcg ∧ 0 ≤ ndcg ∧ ndcg ≤ 1 ∧
        ((∃ rel ∈ judgments.values, 0 < rel) → 1 ≤ k →
          (ndcg = 1 ↔ ((rankedDocids (run.getD qid Dict.empty)).take (min k (positive judgments).length)).map
            (gain judgments) = idealGains judgments k)) := by
  intro qid judgments hjudged
  have hmem : (qid, ndcgOf log2 judgments (rankedDocids (run.getD qid Dict.empty)) k) ∈ (ndcgAtK log2 qrels run k).items :=
    List.mem_map_of_mem (Dict.get?_eq_some_iff.mp hjudged)
  have hunit := ndcgOf_mem_unit h judgments (nodup_rankedDocids (run.getD qid Dict.empty)) k
  exact ⟨_, Dict.get?_eq_some_iff.mpr hmem, hunit.1, hunit.2, fun hpos hk =>
    ndcgOf_eq_one_iff h (nodup_rankedDocids _) hpos hk⟩

end Normalised

theorem discounts_logb : Discounts fun n : Nat => Real.logb 2 n where
  pos rank hrank := by
    have hone : (1 : ℝ) < ((rank + 1 : Nat) : ℝ) := by exact_mod_cast Nat.lt_succ_of_le hrank
    exact one_div_pos.mpr (Real.logb_pos one_lt_two hone)
  anti rank hrank := by
    have hone : (1 : ℝ) < ((rank + 1 : Nat) : ℝ) := by exact_mod_cast Nat.lt_succ_of_le hrank
    have hlt : ((rank + 1 : Nat) : ℝ) < ((rank + 2 : Nat) : ℝ) := by exact_mod_cast Nat.lt_succ_self _
    exact one_div_lt_one_div_of_lt (Real.logb_pos one_lt_two hone)
      (Real.logb_lt_logb one_lt_two (one_pos.trans hone) hlt)

/-- A document judged below zero between two relevant ones. -/
theorem ndcgAtK_normalised_negative :
    Discounts (fun n : Nat => Real.logb 2 n) ∧ ∃ ndcg : ℝ,
      (ndcgAtK (fun n => Real.logb 2 n) (⟨[(0, ⟨[(0, 2), (1, -1), (2, 1)], by decide⟩)], by decide⟩ : Qrels Nat Nat)
        (⟨[(0, ⟨[(0, 3), (1, 2), (2, 1)], by decide⟩)], by decide⟩ : Run Nat Nat Int) 3).get? 0 = some ndcg ∧
      0 ≤ ndcg ∧ ndcg ≤ 1 ∧ ndcg ≠ 1 := by
  obtain ⟨ndcg, hndcg, hnonneg, hle, hone⟩ := ndcgAtK_normalised discounts_logb
    (⟨[(0, ⟨[(0, 2), (1, -1), (2, 1)], by decide⟩)], by decide⟩ : Qrels Nat Nat)
    (⟨[(0, ⟨[(0, 3), (1, 2), (2, 1)], by decide⟩)], by decide⟩ : Run Nat Nat Int) 3 0
    ⟨[(0, 2), (1, -1), (2, 1)], by decide⟩ rfl
  exact ⟨discounts_logb, ndcg, hndcg, hnonneg, hle, mt (hone (by decide) (by decide)).mp (by decide)⟩

end CascadeSearch.Harness.Metrics
