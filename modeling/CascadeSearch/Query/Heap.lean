import CascadeSearch.Lib.KthBest
import CascadeSearch.Lib.Ranking
import Mathlib.Data.List.Sort
import Mathlib.Tactic

/-!
# The bounded result heap (`TopK`)

The priority queue is the list of its elements in the order `pop` delivers
them, worst first. Reading the top of an empty queue is `none`. `Holds` is the
abstract content: the heap keeps the best `k` of everything pushed or ruled
out so far.
-/
namespace CascadeSearch.Query.Heap

open Lib.KthBest Lib.Ranking

structure Result (S : Type) where
  docid : Nat
  score : S
deriving DecidableEq

variable {S : Type} [LinearOrder S]

namespace Result

/-- `Compare`, and the comparator of the final sort. -/
def compare (a b : Result S) : Prop :=
  if a.score ≠ b.score then a.score > b.score else a.docid < b.docid

instance (a b : Result S) : Decidable (compare a b) := by
  unfold compare
  infer_instance

/-- At or before in the ranking: better score, then smaller docid. -/
def Ranks (a b : Result S) : Prop :=
  b.score < a.score ∨ a.score = b.score ∧ a.docid ≤ b.docid

instance (a b : Result S) : Decidable (Ranks a b) := by
  unfold Ranks
  infer_instance

theorem not_compare_iff {a b : Result S} : ¬ compare a b ↔ Ranks b a := by
  unfold compare Ranks
  by_cases h : a.score = b.score
  · simp [h]
  · have hlt : ¬ b.score < a.score ↔ a.score < b.score := by
      rw [not_lt, le_iff_lt_or_eq, or_iff_left h]
    simp [h, hlt, Ne.symm h]

instance : Std.Total (Ranks : Result S → Result S → Prop) := ⟨fun a b => by
  unfold Ranks
  rcases lt_trichotomy a.score b.score with h | h | h
  · exact Or.inr (Or.inl h)
  · rcases le_total a.docid b.docid with hd | hd
    · exact Or.inl (Or.inr ⟨h, hd⟩)
    · exact Or.inr (Or.inr ⟨h.symm, hd⟩)
  · exact Or.inl (Or.inl h)⟩

instance : IsTrans (Result S) Ranks := ⟨fun a b c hab hbc => by
  unfold Ranks at *
  rcases hab with hab | ⟨hab, hd⟩ <;> rcases hbc with hbc | ⟨hbc, hd'⟩
  · exact Or.inl (hbc.trans hab)
  · exact Or.inl (hbc ▸ hab)
  · exact Or.inl (hab ▸ hbc)
  · exact Or.inr ⟨hab.trans hbc, hd.trans hd'⟩⟩

instance : Std.Antisymm (Ranks : Result S → Result S → Prop) := ⟨fun a b hab hba => by
  unfold Ranks at *
  obtain ⟨da, sa⟩ := a
  obtain ⟨db, sb⟩ := b
  dsimp only at hab hba
  rcases hab with hab | ⟨rfl, hd⟩
  · rcases hba with hba | ⟨hba, -⟩
    · exact absurd hab hba.asymm
    · exact absurd hba hab.ne
  · rcases hba with hba | ⟨-, hd'⟩
    · exact absurd hba (lt_irrefl _)
    · rw [Nat.le_antisymm hd hd']⟩

end Result

open Result (Ranks)

/-- `k_` and `heap_`, the latter in pop order. -/
structure TopK (S : Type) where
  k : Nat
  heap : List (Result S)

namespace TopK

def empty (k : Nat) : TopK S := { k := k, heap := [] }

/-- `threshold()`: zero until `k` results are held, then the worst score held. -/
def threshold [Zero S] (t : TopK S) : Option S :=
  if t.heap.length < t.k then some 0 else t.heap.head?.map Result.score

def push (t : TopK S) (docid : Nat) (score : S) : Option (TopK S) :=
  let candidate : Result S := ⟨docid, score⟩
  if t.heap.length < t.k then
    some { t with heap := t.heap.orderedInsert (fun a b => Ranks b a) candidate }
  else
    match t.heap with
    | [] => none
    | worst :: others =>
        if candidate.compare worst then
          some { t with heap := others.orderedInsert (fun a b => Ranks b a) candidate }
        else some t

/-- Pop everything, then sort best first. -/
def drain (t : TopK S) : List (Result S) := t.heap.insertionSort Ranks

/-- The results pushed one after the other. -/
def pushAll (t : TopK S) (pushed : List (Result S)) : Option (TopK S) :=
  pushed.foldlM (fun t r => t.push r.docid r.score) t

/-- What `threshold()` returns after the first `n` pushes. -/
def thresholdAfter [Zero S] (k : Nat) (pushed : List (Result S)) (n : Nat) : Option S :=
  ((empty k).pushAll (pushed.take n)).bind threshold

/-- Worst first, and the best `k` of `seen`. -/
structure Holds (t : TopK S) (seen : List (Result S)) : Prop where
  worstFirst : t.heap.Pairwise (fun a b => Ranks b a)
  keeps : Keeps Ranks t.k seen t.heap

theorem holds_empty (k : Nat) : Holds (empty k : TopK S) [] := ⟨List.Pairwise.nil, keeps_nil⟩

variable {t : TopK S} {seen : List (Result S)}

private instance : Std.Total (fun a b : Result S => Ranks b a) := ⟨fun a b => total_of Ranks b a⟩

private instance : IsTrans (Result S) (fun a b => Ranks b a) :=
  ⟨fun a b c hab hbc => IsTrans.trans c b a hbc hab⟩

/-- A push never fails for `k ≥ 1`, and afterwards the heap holds the best `k`
of what it held before and the new result. -/
theorem push_spec (h : t.Holds seen) (hk : 0 < t.k) (docid : Nat) (score : S) :
    ∃ t', t.push docid score = some t' ∧ t'.k = t.k ∧ t'.Holds (⟨docid, score⟩ :: seen) ∧
      ∀ r ∈ t'.heap, r = ⟨docid, score⟩ ∨ r ∈ t.heap := by
  obtain ⟨hw, hkeep⟩ := h
  unfold push
  dsimp only
  by_cases hlt : t.heap.length < t.k
  · rw [if_pos hlt]
    refine ⟨_, rfl, rfl, ⟨hw.orderedInsert _ _, ?_⟩, fun r hr => ?_⟩
    · exact (hkeep.add hlt _).perm (List.Perm.refl _) (List.perm_orderedInsert _ _ _).symm
    · simpa using (List.perm_orderedInsert _ _ _).mem_iff.mp hr
  · rw [if_neg hlt]
    have hfull : t.heap.length = t.k := le_antisymm hkeep.length_le (Nat.not_lt.mp hlt)
    obtain ⟨k, heap⟩ := t
    cases heap with
    | nil => simp at hfull hk; omega
    | cons worst others =>
      dsimp only at *
      have hworst : ∀ y ∈ others, Ranks y worst := fun y hy => List.rel_of_pairwise_cons hw hy
      by_cases hc : (⟨docid, score⟩ : Result S).compare worst
      · rw [if_pos hc]
        have hr : Ranks (⟨docid, score⟩ : Result S) worst := by
          rcases total_of Ranks (⟨docid, score⟩ : Result S) worst with h | h
          · exact h
          · exact absurd hc (Result.not_compare_iff.mpr h)
        refine ⟨_, rfl, rfl, ⟨(List.Pairwise.of_cons hw).orderedInsert _ _, ?_⟩, fun r hr => ?_⟩
        · exact (hkeep.replace hfull hworst hr).perm (List.Perm.refl _)
            (List.perm_orderedInsert _ _ _).symm
        · have := (List.perm_orderedInsert _ _ _).mem_iff.mp hr
          rcases List.mem_cons.mp this with h | h
          · exact Or.inl h
          · exact Or.inr (List.mem_cons_of_mem _ h)
      · rw [if_neg hc]
        refine ⟨_, rfl, rfl, ⟨hw, hkeep.skip hfull ?_⟩, fun r hr => Or.inr hr⟩
        have hskip := Result.not_compare_iff.mp hc
        intro y hy
        rcases List.mem_cons.mp hy with rfl | hy
        · exact hskip
        · exact IsTrans.trans y worst _ (hworst y hy) hskip

/-- A candidate that ranks after everything in a full heap leaves no trace. -/
theorem push_eq_self (hfull : t.heap.length = t.k) (hk : 0 < t.k) {docid : Nat} {score : S}
    (hr : ∀ r ∈ t.heap, Ranks r ⟨docid, score⟩) : t.push docid score = some t := by
  obtain ⟨k, heap⟩ := t
  cases heap with
  | nil => simp at hfull hk; omega
  | cons worst others =>
    unfold push
    dsimp only at *
    rw [if_neg (by omega), if_neg (Result.not_compare_iff.mpr (hr worst List.mem_cons_self))]

/-- For `k ≥ 1` the threshold is defined. Above zero it is a score that `k` held
results reach. -/
theorem threshold_spec [Zero S] (h : t.Holds seen) (hk : 0 < t.k) :
    ∃ threshold, t.threshold = some threshold ∧
      (t.heap.length < t.k ∧ threshold = 0 ∨
        t.heap.length = t.k ∧ ∀ r ∈ t.heap, threshold ≤ r.score) := by
  obtain ⟨hw, hkeep⟩ := h
  unfold TopK.threshold
  by_cases hlt : t.heap.length < t.k
  · exact ⟨0, if_pos hlt, Or.inl ⟨hlt, rfl⟩⟩
  · rw [if_neg hlt]
    have hfull : t.heap.length = t.k := le_antisymm hkeep.length_le (Nat.not_lt.mp hlt)
    obtain ⟨k, heap⟩ := t
    cases heap with
    | nil => simp at hfull hk; omega
    | cons worst others =>
      refine ⟨worst.score, rfl, Or.inr ⟨hfull, fun r hr => ?_⟩⟩
      rcases List.mem_cons.mp hr with rfl | hr
      · exact le_rfl
      · have : Ranks r worst := List.rel_of_pairwise_cons hw hr
        rcases this with h | ⟨h, -⟩
        · exact h.le
        · exact h.ge

/-- A threshold above zero is reached by all results of a full heap. -/
theorem full_of_threshold_pos [Zero S] (h : t.Holds seen) (hk : 0 < t.k) {threshold : S}
    (hth : t.threshold = some threshold) (hpos : 0 < threshold) :
    t.heap.length = t.k ∧ ∀ r ∈ t.heap, threshold ≤ r.score := by
  obtain ⟨threshold', hth', hcases⟩ := threshold_spec h hk
  obtain rfl : threshold = threshold' := Option.some.inj (hth.symm.trans hth')
  rcases hcases with ⟨-, hz⟩ | hfull
  · exact absurd hz hpos.ne'
  · exact hfull

theorem drain_spec (h : t.Holds seen) : t.drain = (seen.insertionSort Ranks).take t.k :=
  h.keeps.sort_eq

theorem sort_scores (seen : List (Result S)) :
    (seen.map Result.score).insertionSort (· ≥ ·) = (seen.insertionSort Ranks).map Result.score := by
  have hsorted : ((seen.insertionSort Ranks).map Result.score).Pairwise (· ≥ ·) := by
    refine List.pairwise_map.mpr ((List.pairwise_insertionSort Ranks seen).imp fun hr => ?_)
    rcases hr with h | ⟨h, -⟩
    · exact h.le
    · exact h.ge
  have hperm := (List.perm_insertionSort (· ≥ ·) (seen.map Result.score)).trans
    ((List.perm_insertionSort Ranks seen).symm.map Result.score)
  exact hperm.eq_of_pairwise (fun a b _ _ h h' => le_antisymm h' h)
    (List.pairwise_insertionSort _ _) hsorted

/-- The threshold is the `k`-th best score of everything the heap has seen. -/
theorem threshold_eq_kthBest [Zero S] (h : t.Holds seen) (hk : 0 < t.k) :
    t.threshold = some (kthBest t.k (seen.map Result.score)) := by
  have hdrain : t.heap.reverse = (seen.insertionSort Ranks).take t.k := by
    refine Eq.trans ?_ (drain_spec h)
    exact ((List.reverse_perm _).trans (List.perm_insertionSort Ranks t.heap).symm).eq_of_pairwise
      (fun a b _ _ => antisymm) (List.pairwise_reverse.mpr h.worstFirst)
      (List.pairwise_insertionSort Ranks t.heap)
  have hkeep := h.keeps.1
  have hkth : ((seen.insertionSort Ranks).map Result.score)[t.k - 1]? =
      (t.heap.reverse[t.k - 1]?).map Result.score := by
    rw [hdrain, List.getElem?_map, List.getElem?_take_of_lt (by omega)]
  unfold kthBest TopK.threshold
  rw [sort_scores, List.getD_eq_getElem?_getD, hkth]
  by_cases hlt : t.heap.length < t.k
  · rw [if_pos hlt, List.getElem?_eq_none (by rw [List.length_reverse]; omega)]
    rfl
  · rw [if_neg hlt]
    have hlen : t.heap.length = t.k := le_antisymm h.keeps.length_le (Nat.not_lt.mp hlt)
    rw [← hlen, List.getElem?_reverse (by omega), Nat.sub_self, ← List.head?_eq_getElem?]
    cases hheap : t.heap with
    | nil => simp [hheap] at hlen; omega
    | cons worst others => rfl

theorem Holds.perm {seen' : List (Result S)} (h : t.Holds seen) (hperm : seen.Perm seen') : t.Holds seen' :=
  ⟨h.worstFirst, h.keeps.perm hperm (List.Perm.refl _)⟩

/-- Each push adds its result to what the heap has seen. -/
theorem pushAll_spec {pushed : List (Result S)} (h : t.Holds seen) (hk : 0 < t.k) :
    ∃ t', t.pushAll pushed = some t' ∧ t'.k = t.k ∧ t'.Holds (seen ++ pushed) := by
  induction pushed generalizing t seen with
  | nil => exact ⟨t, rfl, rfl, h.perm (List.Perm.of_eq (List.append_nil seen).symm)⟩
  | cons r pushed ih =>
    obtain ⟨t₁, hpush, hk₁, hholds, -⟩ := push_spec h hk r.docid r.score
    obtain ⟨t', hrest, hk', hholds'⟩ := ih hholds (hk₁ ▸ hk)
    refine ⟨t', ?_, hk'.trans hk₁, hholds'.perm List.perm_middle.symm⟩
    rw [pushAll, List.foldlM_cons, hpush]
    exact hrest

theorem pushAll_empty {k : Nat} (hk : 0 < k) (pushed : List (Result S)) :
    ∃ t, (empty k).pushAll pushed = some t ∧ t.k = k ∧ t.Holds pushed :=
  pushAll_spec (holds_empty k) hk

theorem thresholdAfter_eq [Zero S] {k : Nat} (hk : 0 < k) (pushed : List (Result S)) (n : Nat) :
    thresholdAfter k pushed n = some (kthBest k ((pushed.take n).map Result.score)) := by
  obtain ⟨t, hpushed, rfl, hholds⟩ := pushAll_empty hk (pushed.take n)
  rw [thresholdAfter, hpushed]
  exact threshold_eq_kthBest hholds hk

/-- Whatever the order in which the results of a set are pushed, the best `k` of
the set come out, and the threshold on the way is the `k`-th best score so far. -/
theorem retention_order_independent [Zero S] {k : Nat} (hk : 1 ≤ k) {results : Finset (Result S)}
    (hscores : ∀ r ∈ results, 0 ≤ r.score) {pushed : List (Result S)} (hnodup : pushed.Nodup)
    (hmem : ∀ r, r ∈ pushed ↔ r ∈ results) :
    ((empty k).pushAll pushed).map drain = some ((results.sort Ranks).take k) ∧
      (∀ n, thresholdAfter k pushed n = some (kthBest k ((pushed.take n).map Result.score))) ∧
      ∀ m n, m ≤ n → ∃ before after, thresholdAfter k pushed m = some before ∧
        thresholdAfter k pushed n = some after ∧ before ≤ after := by
  refine ⟨?_, thresholdAfter_eq hk pushed, fun m n hmn => ?_⟩
  · obtain ⟨t, hpushed, rfl, hholds⟩ := pushAll_empty hk pushed
    have hperm : pushed.Perm (results.sort Ranks) := by
      refine (List.perm_ext_iff_of_nodup hnodup (results.sort_nodup Ranks)).mpr fun r => ?_
      rw [hmem, Finset.mem_sort]
    have hsorted : (results.sort Ranks).insertionSort Ranks = results.sort Ranks :=
      (results.pairwise_sort Ranks).insertionSort_eq
    rw [hpushed, Option.map_some, drain_spec hholds, insertionSort_eq_of_perm hperm, hsorted]
  · refine ⟨_, _, thresholdAfter_eq hk pushed m, thresholdAfter_eq hk pushed n, ?_⟩
    have hsub : ((pushed.take m).map Result.score).Sublist ((pushed.take n).map Result.score) :=
      (List.take_prefix_take_left hmn).sublist.map _
    refine kthBest_le_of_subperm hk (fun x hx => ?_) hsub.subperm
    obtain ⟨r, hr, rfl⟩ := List.mem_map.mp hx
    exact hscores r ((hmem r).mp (List.mem_of_mem_take hr))

/-- A tie at the last place, pushed in the wrong order. -/
theorem retention_order_independent_tied :
    ((empty 2).pushAll [⟨3, 5⟩, ⟨2, 7⟩, ⟨1, 5⟩]).map drain =
      some ((([⟨3, 5⟩, ⟨2, 7⟩, ⟨1, 5⟩] : List (Result Int)).toFinset.sort Ranks).take 2) :=
  (retention_order_independent (by decide) (by decide) (by decide) fun _ => List.mem_toFinset.symm).1

end TopK
end CascadeSearch.Query.Heap
