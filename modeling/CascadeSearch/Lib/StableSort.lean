import Mathlib.Data.List.Sort

/-!
# The head of a stable sort

Insertion sort is stable: among elements that rank equally, the one earlier in
the list stays earlier. An element with `k` elements before it in the list that
rank at least as high is never among the first `k` of the sorted list, so lists
may be cut short before they are concatenated and sorted.
-/
namespace CascadeSearch.Lib.StableSort

variable {α : Type*} {r : α → α → Prop} [DecidableRel r]

theorem orderedInsert_append_left {a : α} {l' : List α} (h : ∀ b ∈ l', r a b) (l : List α) :
    (l ++ l').orderedInsert r a = l.orderedInsert r a ++ l' := by
  induction l with
  | nil =>
    cases l' with
    | nil => rfl
    | cons b l' => exact List.orderedInsert_cons_of_le r l' (h b List.mem_cons_self)
  | cons b l ih =>
    rw [List.cons_append, List.orderedInsert_cons, List.orderedInsert_cons, ih]
    split <;> rfl

theorem orderedInsert_append_right {a : α} {l : List α} (h : ∀ b ∈ l, ¬r a b) (l' : List α) :
    (l ++ l').orderedInsert r a = l ++ l'.orderedInsert r a := by
  induction l with
  | nil => rfl
  | cons b l ih =>
    rw [List.cons_append, List.orderedInsert_of_not_le r _ (h b List.mem_cons_self),
      ih fun c hc => h c (List.mem_cons_of_mem _ hc), List.cons_append]

/-- `l` is `head` and more, all of it outranked by `k` elements of `head`. -/
def CutAt (r : α → α → Prop) [DecidableRel r] (k : Nat) (l head : List α) : Prop :=
  ∃ dropped, l = head ++ dropped ∧ ∀ x ∈ dropped, k ≤ (head.filter (r · x)).length

/-- In a sorted list, whatever the first `n` elements keep outranks what is cut off. -/
theorem cutAt_filter {l : List α} (hsorted : l.Pairwise r) (keep : α → Bool) {k n : Nat}
    (h : n ≤ l.length → k ≤ ((l.take n).filter keep).length) :
    CutAt r k (l.filter keep) ((l.take n).filter keep) := by
  have hsplit := List.take_append_drop n l
  refine ⟨(l.drop n).filter keep, ?_, fun x hx => ?_⟩
  · rw [← List.filter_append, hsplit]
  · have hdrop := (List.mem_filter.mp hx).1
    have hlen : n ≤ l.length := by
      have hpos := List.length_pos_of_mem hdrop
      rw [List.length_drop] at hpos
      omega
    have habove : ∀ a ∈ (l.take n).filter keep, r a x := by
      rw [← hsplit] at hsorted
      intro a ha
      exact (List.pairwise_append.mp hsorted).2.2 a (List.mem_filter.mp ha).1 x hdrop
    rw [List.filter_eq_self.mpr fun a ha => decide_eq_true (habove a ha)]
    exact h hlen

/-- In a sorted list the first `k` elements outrank all others. -/
theorem cutAt_take {l : List α} (hsorted : l.Pairwise r) (k : Nat) : CutAt r k l (l.take k) := by
  have hcut := cutAt_filter hsorted (fun _ => true) fun (hle : k ≤ l.length) => by
    rw [List.filter_true, List.length_take_of_le hle]
  rwa [List.filter_true, List.filter_true] at hcut

variable [Std.Total r] [IsTrans α r]

/-- Sorting puts an element behind those before it that rank at least as high. -/
theorem insertionSort_middle (x : α) (rest front : List α) :
    ∃ ahead behind, (front ++ x :: rest).insertionSort r = ahead ++ x :: behind ∧
      (front ++ rest).insertionSort r = ahead ++ behind ∧
      (front.filter (r · x)).length ≤ ahead.length := by
  induction front with
  | nil =>
    refine ⟨_, _, List.insertionSort_cons_eq_take_drop r x rest, ?_, Nat.zero_le _⟩
    exact (List.takeWhile_append_dropWhile).symm
  | cons a front ih =>
    obtain ⟨ahead, behind, hwith, hwithout, hlen⟩ := ih
    have hsorted := List.pairwise_insertionSort r (front ++ x :: rest)
    rw [hwith] at hsorted
    obtain ⟨-, hright, hcross⟩ := List.pairwise_append.mp hsorted
    rw [List.cons_append, List.cons_append, List.insertionSort_cons, List.insertionSort_cons, hwith,
      hwithout]
    by_cases hax : r a x
    · have hbehind : ∀ b ∈ behind, r a b := fun b hb =>
        trans_of r hax ((List.pairwise_cons.mp hright).1 b hb)
      have hall : ∀ b ∈ x :: behind, r a b := List.forall_mem_cons.mpr ⟨hax, hbehind⟩
      refine ⟨ahead.orderedInsert r a, behind, orderedInsert_append_left hall _,
        orderedInsert_append_left hbehind _, ?_⟩
      rw [List.filter_cons_of_pos (by simpa using hax), List.length_cons, List.orderedInsert_length]
      exact Nat.succ_le_succ hlen
    · have hahead : ∀ b ∈ ahead, ¬r a b := fun b hb hab =>
        hax (trans_of r hab (hcross b hb x List.mem_cons_self))
      refine ⟨ahead, behind.orderedInsert r a, ?_, orderedInsert_append_right hahead _, ?_⟩
      · rw [orderedInsert_append_right hahead, List.orderedInsert_of_not_le r _ hax]
      · rw [List.filter_cons_of_neg (by simpa using hax)]
        exact hlen

variable {k : Nat}

theorem take_insertionSort_erase {front : List α} {x : α} (h : k ≤ (front.filter (r · x)).length)
    (rest : List α) :
    ((front ++ x :: rest).insertionSort r).take k = ((front ++ rest).insertionSort r).take k := by
  obtain ⟨ahead, behind, hwith, hwithout, hlen⟩ := insertionSort_middle (r := r) x rest front
  rw [hwith, hwithout, List.take_append_of_le_length (h.trans hlen),
    List.take_append_of_le_length (h.trans hlen)]

theorem take_insertionSort_cut {front l head : List α} (h : CutAt r k l head) (rest : List α) :
    ((front ++ l ++ rest).insertionSort r).take k =
      ((front ++ head ++ rest).insertionSort r).take k := by
  obtain ⟨dropped, rfl, hdropped⟩ := h
  induction dropped with
  | nil => rw [List.append_nil]
  | cons x dropped ih =>
    have hx := hdropped x List.mem_cons_self
    have hfront : k ≤ ((front ++ head).filter (r · x)).length := by
      rw [List.filter_append, List.length_append]
      omega
    have herase := take_insertionSort_erase hfront (dropped ++ rest)
    rw [← ih fun y hy => hdropped y (List.mem_cons_of_mem _ hy)]
    simpa only [List.append_assoc, List.cons_append] using herase

/-- Cutting every list changes nothing among the first `k` of the sorted concatenation. -/
theorem take_insertionSort_flatten {ls heads : List (List α)} (h : List.Forall₂ (CutAt r k) ls heads) :
    (ls.flatten.insertionSort r).take k = (heads.flatten.insertionSort r).take k := by
  have hfront : ∀ front, ((front ++ ls.flatten).insertionSort r).take k =
      ((front ++ heads.flatten).insertionSort r).take k := by
    induction h with
    | nil => intro front; rfl
    | @cons l head ls heads hcut _ ih =>
      intro front
      rw [List.flatten_cons, List.flatten_cons, ← List.append_assoc, take_insertionSort_cut hcut, ih,
        List.append_assoc]
  exact hfront []

section Ties

variable {tie : α → α → Prop} {l l' : List α}

theorem pairwise_orderedInsert {a : α} (hl : l.Pairwise fun b c => r b c ∧ (r c b → tie b c))
    (ha : ∀ b ∈ l, r a b → r b a → tie a b) :
    (l.orderedInsert r a).Pairwise fun b c => r b c ∧ (r c b → tie b c) := by
  induction l with
  | nil => exact List.pairwise_singleton _ a
  | cons b l ih =>
    obtain ⟨hfirst, hrest⟩ := List.pairwise_cons.mp hl
    rw [List.orderedInsert_cons]
    by_cases hab : r a b
    · have hall : ∀ c ∈ b :: l, r a c := fun c hc => by
        rcases List.mem_cons.mp hc with rfl | hc
        · exact hab
        · exact trans_of r hab (hfirst c hc).1
      rw [if_pos hab]
      exact List.pairwise_cons.mpr ⟨fun c hc => ⟨hall c hc, ha c hc (hall c hc)⟩, hl⟩
    · rw [if_neg hab]
      refine List.pairwise_cons.mpr ⟨fun c hc => ?_, ih hrest fun c hc => ha c (List.mem_cons_of_mem _ hc)⟩
      rcases (List.mem_orderedInsert r).mp hc with rfl | hc
      · exact ⟨(total_of r b c).resolve_right hab, fun hcb => absurd hcb hab⟩
      · exact hfirst c hc

/-- Elements that rank equally stay in the order the list has them in. -/
theorem pairwise_insertionSort_of_tied (h : l.Pairwise fun a b => r a b → r b a → tie a b) :
    (l.insertionSort r).Pairwise fun a b => r a b ∧ (r b a → tie a b) := by
  induction l with
  | nil => exact List.Pairwise.nil
  | cons a l ih =>
    obtain ⟨hfirst, hrest⟩ := List.pairwise_cons.mp h
    exact pairwise_orderedInsert (ih hrest) fun b hb => hfirst b ((List.mem_insertionSort r).mp hb)

/-- Two lists of the same elements that list equals in the same order sort alike. -/
theorem insertionSort_eq_of_tied (hperm : l.Perm l') (hantisymm : ∀ a b, r a b → r b a → tie a b → tie b a → a = b)
    (h : l.Pairwise fun a b => r a b → r b a → tie a b) (h' : l'.Pairwise fun a b => r a b → r b a → tie a b) :
    l.insertionSort r = l'.insertionSort r := by
  refine ((List.perm_insertionSort r l).trans (hperm.trans (List.perm_insertionSort r l').symm)).eq_of_pairwise
    (fun a b _ _ hab hba => ?_) (pairwise_insertionSort_of_tied h) (pairwise_insertionSort_of_tied h')
  exact hantisymm a b hab.1 hba.1 (hab.2 hba.1) (hba.2 hab.1)

end Ties

end CascadeSearch.Lib.StableSort
