import Mathlib.Data.List.Sort

/-!
# The best k of a list

`Keeps r k l kept` says that `kept` holds, in any order, a best-k selection of
`l` for the order `r`: everything else in `l` ranks at or below everything
kept. A selection is built one element at a time (`add`, `replace`, `skip`),
in whatever order the elements arrive, and sorting it gives the first `k` of
the sorted list.
-/
namespace CascadeSearch.Lib.Ranking

variable {α : Type*} {r : α → α → Prop} {k : Nat} {l l' kept kept' : List α}

def Keeps (r : α → α → Prop) (k : Nat) (l kept : List α) : Prop :=
  kept.length = min k l.length ∧
    ∃ rest, l.Perm (kept ++ rest) ∧ ∀ x ∈ kept, ∀ y ∈ rest, r x y

theorem keeps_nil : Keeps r k [] [] := ⟨by simp, [], by simp, by simp⟩

theorem Keeps.perm (h : Keeps r k l kept) (hl : l.Perm l') (hk : kept.Perm kept') :
    Keeps r k l' kept' := by
  obtain ⟨hlen, rest, hp, hr⟩ := h
  refine ⟨by rw [← hk.length_eq, ← hl.length_eq, hlen], rest, ?_, ?_⟩
  · exact hl.symm.trans (hp.trans (hk.append_right rest))
  · exact fun x hx => hr x (hk.mem_iff.mpr hx)

theorem Keeps.subset (h : Keeps r k l kept) : ∀ x ∈ kept, x ∈ l := by
  obtain ⟨-, rest, hp, -⟩ := h
  exact fun x hx => hp.mem_iff.mpr (List.mem_append_left _ hx)

theorem Keeps.length_le (h : Keeps r k l kept) : kept.length ≤ k := by
  rw [h.1]; exact Nat.min_le_left _ _

theorem Keeps.map {β : Type*} {r' : β → β → Prop} {f : α → β} (h : Keeps r k l kept) (hf : ∀ x y, r x y → r' (f x) (f y)) :
    Keeps r' k (l.map f) (kept.map f) := by
  obtain ⟨hlen, rest, hp, hr⟩ := h
  refine ⟨by rw [List.length_map, List.length_map, hlen], rest.map f, ?_, ?_⟩
  · rw [← List.map_append]
    exact hp.map f
  · exact List.forall_mem_map.mpr fun x hx => List.forall_mem_map.mpr fun y hy => hf x y (hr x hx y hy)

/-- While fewer than `k` are kept, nothing has been left out. -/
theorem Keeps.keeps_all (h : Keeps r k l kept) (hlt : kept.length < k) : l.Perm kept := by
  obtain ⟨hlen, rest, hp, -⟩ := h
  have hrest : rest = [] := by
    have := hp.length_eq
    rw [List.length_append] at this
    exact List.length_eq_zero_iff.mp (by omega)
  simpa [hrest] using hp

/-- Something is left out only by a full selection, and ranks after all of it. -/
theorem Keeps.left_out (h : Keeps r k l kept) {x : α} (hx : x ∈ l) (hout : x ∉ kept) :
    kept.length = k ∧ ∀ y ∈ kept, r y x := by
  obtain ⟨hlen, rest, hp, hr⟩ := h
  have hrest : x ∈ rest := by
    rcases List.mem_append.mp (hp.mem_iff.mp hx) with h | h
    · exact absurd h hout
    · exact h
  refine ⟨?_, fun y hy => hr y hy x hrest⟩
  have hpos := List.length_pos_of_mem hrest
  have := hp.length_eq
  rw [List.length_append] at this
  omega

theorem Keeps.add (h : Keeps r k l kept) (hlt : kept.length < k) (x : α) :
    Keeps r k (x :: l) (x :: kept) := by
  have hall := h.keeps_all hlt
  have hlen := hall.length_eq
  refine ⟨by simp only [List.length_cons]; omega, [], ?_, by simp⟩
  simpa using hall.cons x

theorem Keeps.skip (h : Keeps r k l kept) (hfull : kept.length = k) {x : α}
    (hx : ∀ y ∈ kept, r y x) : Keeps r k (x :: l) kept := by
  obtain ⟨hlen, rest, hp, hr⟩ := h
  refine ⟨by simp only [List.length_cons]; omega, x :: rest, ?_, ?_⟩
  · exact (hp.cons x).trans List.perm_middle.symm
  · intro y hy z hz
    rcases List.mem_cons.mp hz with rfl | hz
    · exact hx y hy
    · exact hr y hy z hz

theorem Keeps.skip_all {xs : List α} (h : Keeps r k l kept) (hfull : kept.length = k)
    (hx : ∀ x ∈ xs, ∀ y ∈ kept, r y x) : Keeps r k (xs ++ l) kept := by
  induction xs with
  | nil => exact h
  | cons x xs ih =>
    have hxs := ih fun z hz => hx z (List.mem_cons_of_mem _ hz)
    exact hxs.skip hfull (hx x List.mem_cons_self)

theorem Keeps.replace [IsTrans α r] {worst x : α} {others : List α}
    (h : Keeps r k l (worst :: others)) (hfull : (worst :: others).length = k)
    (hworst : ∀ y ∈ others, r y worst) (hx : r x worst) :
    Keeps r k (x :: l) (x :: others) := by
  obtain ⟨hlen, rest, hp, hr⟩ := h
  simp only [List.length_cons] at hlen hfull
  refine ⟨by simp only [List.length_cons]; omega, worst :: rest, ?_, ?_⟩
  · have hmid : (worst :: others ++ rest).Perm (others ++ worst :: rest) :=
      List.perm_middle.symm
    exact (hp.trans hmid).cons x
  · intro y hy z hz
    have hy' : r y worst := by
      rcases List.mem_cons.mp hy with rfl | hy
      · exact hx
      · exact hworst y hy
    rcases List.mem_cons.mp hz with rfl | hz
    · exact hy'
    · exact IsTrans.trans y worst z hy' (hr worst List.mem_cons_self z hz)

theorem insertionSort_eq_of_perm [DecidableRel r] [Std.Total r] [IsTrans α r] [Std.Antisymm r]
    (h : l.Perm l') : l.insertionSort r = l'.insertionSort r :=
  ((List.perm_insertionSort r l).trans (h.trans (List.perm_insertionSort r l').symm)).eq_of_pairwise
    (fun _ _ _ _ => antisymm) (List.pairwise_insertionSort r l) (List.pairwise_insertionSort r l')

/-- Sorting what is kept gives the first `k` of the sorted list. -/
theorem Keeps.sort_eq [DecidableRel r] [Std.Total r] [IsTrans α r] [Std.Antisymm r]
    (h : Keeps r k l kept) : kept.insertionSort r = (l.insertionSort r).take k := by
  obtain ⟨hlen, rest, hp, hr⟩ := h
  have hsorted : (kept.insertionSort r ++ rest.insertionSort r).Pairwise r := by
    refine List.pairwise_append.mpr
      ⟨List.pairwise_insertionSort r kept, List.pairwise_insertionSort r rest, ?_⟩
    intro x hx y hy
    exact hr x ((List.perm_insertionSort r kept).mem_iff.mp hx)
      y ((List.perm_insertionSort r rest).mem_iff.mp hy)
  have hperm : (kept.insertionSort r ++ rest.insertionSort r).Perm (l.insertionSort r) :=
    ((List.perm_insertionSort r kept).append (List.perm_insertionSort r rest)).trans
      (hp.symm.trans (List.perm_insertionSort r l).symm)
  have heq := hperm.eq_of_pairwise (fun a b _ _ => antisymm) hsorted
    (List.pairwise_insertionSort r l)
  have hkl : (kept.insertionSort r).length = min k l.length := by
    rw [(List.perm_insertionSort r kept).length_eq, hlen]
  rw [← heq]
  rcases le_total k l.length with hle | hle
  · rw [Nat.min_eq_left hle] at hkl
    exact (List.take_left' hkl).symm
  · rw [Nat.min_eq_right hle] at hkl
    have hrest : (rest.insertionSort r).length = 0 := by
      have := hperm.length_eq
      rw [List.length_append, hkl, (List.perm_insertionSort r l).length_eq] at this
      omega
    rw [List.length_eq_zero_iff.mp hrest, List.append_nil,
      List.take_of_length_le (by rw [hkl]; exact hle)]

end CascadeSearch.Lib.Ranking
