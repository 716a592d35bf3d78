import CascadeSearch.Lib.Ranking
import Mathlib.Order.Basic

/-!
# The k-th best score

`kthBest k scores` is zero while there are fewer than `k` scores. What is at
most the k-th best of non-negative scores is at most zero or reached by `k` of
them, which is all that is ever used of it. An element that does not reach the
k-th best of those before it can be left out without changing the k-th best.
-/
namespace CascadeSearch.Lib.KthBest

variable {S : Type*} [LinearOrder S] [Zero S] {k : Nat} {l l' : List S} {c : S}

def kthBest (k : Nat) (scores : List S) : S := (scores.insertionSort (· ≥ ·)).getD (k - 1) 0

/-- In descending order, the entry at `k` is reached by `k + 1` entries. -/
theorem le_getD_iff (hsort : l.Pairwise (· ≥ ·)) (hn : ∀ x ∈ l, 0 ≤ x) (k : Nat) :
    c ≤ l.getD k 0 ↔ c ≤ 0 ∨ k < l.countP (c ≤ ·) := by
  induction l generalizing k with
  | nil => simp
  | cons x l ih =>
    have hx : 0 ≤ x := hn x List.mem_cons_self
    have hle : ∀ y ∈ l, y ≤ x := fun y hy => List.rel_of_pairwise_cons hsort hy
    have ih' := ih hsort.of_cons (fun y hy => hn y (List.mem_cons_of_mem _ hy))
    by_cases hc : c ≤ x
    · rw [List.countP_cons_of_pos (by simpa using hc)]
      cases k with
      | zero => exact iff_of_true hc (Or.inr (by omega))
      | succ k =>
        rw [List.getD_cons_succ, ih' k]
        exact or_congr Iff.rfl (by omega)
    · have hnone : l.countP (c ≤ ·) = 0 :=
        List.countP_eq_zero.mpr fun y hy => by simpa using (hle y hy).trans_lt (not_le.mp hc)
      have hpos : ¬ c ≤ 0 := fun h => hc (h.trans hx)
      rw [List.countP_cons_of_neg (by simpa using hc), hnone]
      refine iff_of_false ?_ (by simpa using hpos)
      cases k with
      | zero => exact hc
      | succ k =>
        rw [List.getD_cons_succ, ih' k, hnone]
        simpa using hpos

theorem le_kthBest_iff (hk : 0 < k) (hn : ∀ x ∈ l, 0 ≤ x) :
    c ≤ kthBest k l ↔ c ≤ 0 ∨ k ≤ l.countP (c ≤ ·) := by
  have hperm := List.perm_insertionSort (· ≥ ·) l
  have hsort : (l.insertionSort (· ≥ ·)).Pairwise (· ≥ ·) := List.pairwise_insertionSort _ l
  rw [kthBest, le_getD_iff hsort (fun x hx => hn x (hperm.mem_iff.mp hx)), hperm.countP_eq]
  exact or_congr Iff.rfl (by omega)

/-- A k-th best above zero is reached by `k` scores. -/
theorem le_countP_kthBest (hk : 0 < k) (hn : ∀ x ∈ l, 0 ≤ x) (hpos : 0 < kthBest k l) :
    k ≤ l.countP (kthBest k l ≤ ·) :=
  ((le_kthBest_iff hk hn).mp le_rfl).resolve_left (not_le.mpr hpos)

/-- More scores never lower it. -/
theorem kthBest_le_of_subperm (hk : 0 < k) (hn : ∀ x ∈ l', 0 ≤ x) (h : l.Subperm l') :
    kthBest k l ≤ kthBest k l' := by
  have hn' : ∀ x ∈ l, 0 ≤ x := fun x hx => hn x (h.subset hx)
  refine (le_kthBest_iff hk hn).mpr ?_
  rcases (le_kthBest_iff hk hn').mp le_rfl with hz | hcount
  · exact Or.inl hz
  · exact Or.inr (hcount.trans (h.countP_le _))

theorem subperm_map {α β : Type*} (f : α → β) {l l' : List α} (h : l.Subperm l') :
    (l.map f).Subperm (l'.map f) := by
  obtain ⟨listed, hperm, hsub⟩ := h
  exact ⟨listed.map f, hperm.map f, hsub.map f⟩

omit [Zero S] in
/-- Each of distinct documents that reaches `b` is among the others and reaches `c`. -/
theorem countP_map_le {score : Nat → S} {b : S} {docs docs' : List Nat} (hnd : docs.Nodup)
    (h : ∀ d ∈ docs, b ≤ score d → d ∈ docs' ∧ c ≤ score d) :
    (docs.map score).countP (b ≤ ·) ≤ (docs'.map score).countP (c ≤ ·) := by
  rw [List.countP_map, List.countP_map, List.countP_eq_length_filter, List.countP_eq_length_filter]
  refine (List.subperm_of_subset (hnd.filter _) fun d hd => ?_).length_le
  obtain ⟨hmem, hreach⟩ := List.mem_filter.mp hd
  obtain ⟨hmem', hreach'⟩ := h d hmem (by simpa using hreach)
  exact List.mem_filter.mpr ⟨hmem', by simpa using hreach'⟩

/-- Leaving out elements that do not reach the k-th best of those before them. -/
theorem kthBest_eq_of_sparse {score : Nat → S} {docs kept : List Nat} (hk : 0 < k) (hnd : docs.Nodup)
    (hkept : kept.Nodup) (hsub : ∀ d ∈ kept, d ∈ docs) (hn : ∀ d ∈ docs, 0 ≤ score d)
    (hlow : ∀ d ∈ docs, d ∉ kept → score d < kthBest k ((docs.filter (· < d)).map score)) :
    kthBest k (kept.map score) = kthBest k (docs.map score) := by
  have hn' : ∀ docs' : List Nat, (∀ d ∈ docs', d ∈ docs) → ∀ x ∈ docs'.map score, 0 ≤ x := by
    intro docs' h x hx
    obtain ⟨d, hd, rfl⟩ := List.mem_map.mp hx
    exact hn d (h d hd)
  have hsubperm := subperm_map score (List.subperm_of_subset hkept hsub)
  refine le_antisymm (kthBest_le_of_subperm hk (hn' docs fun _ h => h) hsubperm) ?_
  refine (le_kthBest_iff hk (hn' kept hsub)).mpr ?_
  rcases le_or_gt (kthBest k (docs.map score)) 0 with hz | hpos
  · exact Or.inl hz
  · refine Or.inr ?_
    have hcount := le_countP_kthBest hk (hn' docs fun _ h => h) hpos
    generalize kthBest k (docs.map score) = c at *
    -- `k` of those that reach `c` are kept: all of them, or those before the first left out
    by_cases hleft : ∃ d, d ∈ docs ∧ d ∉ kept ∧ c ≤ score d
    · classical
      obtain ⟨hd, hout, hcd⟩ := Nat.find_spec hleft
      have hfirst := fun e he => Nat.find_min hleft (m := e) he
      generalize Nat.find hleft = d at *
      have hlow' := hlow d hd hout
      have hbefore : ∀ e ∈ docs.filter (· < d), e ∈ docs := fun e he => (List.mem_filter.mp he).1
      have hcount' := le_countP_kthBest hk (hn' _ hbefore) ((hn d hd).trans_lt hlow')
      refine hcount'.trans (countP_map_le (hnd.filter _) fun e he hreach => ?_)
      obtain ⟨hedocs, hlt⟩ := List.mem_filter.mp he
      have hce : c ≤ score e := hcd.trans (hlow'.le.trans hreach)
      refine ⟨?_, hce⟩
      by_contra hnot
      exact hfirst e (by simpa using hlt) ⟨hedocs, hnot, hce⟩
    · refine hcount.trans (countP_map_le hnd fun e hedocs hreach => ⟨?_, hreach⟩)
      by_contra hnot
      exact hleft ⟨e, hedocs, hnot, hreach⟩

end CascadeSearch.Lib.KthBest
