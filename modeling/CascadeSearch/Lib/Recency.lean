import Mathlib.Data.List.Dedup
import Mathlib.Data.List.Nodup
import Mathlib.Data.List.TakeWhile

/-!
# Keys by recency

The keys of a history, the most recently used first. How far down a key stands
is the number of other keys used since, and what a bounded cache keeps of the
list is its beginning.
-/
namespace CascadeSearch.Lib.Recency

variable {K V : Type} [DecidableEq K]

/-- The key moves to the front with this value. -/
def bump (key : K) (value : V) (recent : List (K × V)) : List (K × V) :=
  (key, value) :: recent.filter (fun e => e.1 ≠ key)

/-- The keys of a history that is listed from its end. -/
def order : List (K × V) → List (K × V)
  | [] => []
  | e :: touched => bump e.1 e.2 (order touched)

/-- What was used after the last use of the key. -/
def since (key : K) (touched : List (K × V)) : List (K × V) := touched.takeWhile fun e => e.1 ≠ key

theorem since_cons_self (key : K) (value : V) (touched : List (K × V)) : since key ((key, value) :: touched) = [] :=
  List.takeWhile_cons_of_neg (by simp)

theorem since_cons_ne {key key' : K} (h : key' ≠ key) (value : V) (touched : List (K × V)) :
    since key ((key', value) :: touched) = (key', value) :: since key touched :=
  List.takeWhile_cons_of_pos (by simpa using h)

theorem mem_keys_order {key : K} {touched : List (K × V)} :
    key ∈ (order touched).map Prod.fst ↔ key ∈ touched.map Prod.fst := by
  induction touched with
  | nil => exact Iff.rfl
  | cons e touched ih =>
    rw [order, bump, List.map_cons, List.map_cons, List.mem_cons, List.mem_cons, ← ih]
    by_cases hkey : key = e.1
    · simp [hkey]
    · simp [hkey, List.mem_map, List.mem_filter]

theorem nodup_order (touched : List (K × V)) : ((order touched).map Prod.fst).Nodup := by
  induction touched with
  | nil => exact List.nodup_nil
  | cons e touched ih =>
    rw [order, bump, List.map_cons, List.nodup_cons]
    refine ⟨?_, (List.filter_sublist.map Prod.fst).nodup ih⟩
    simp [List.mem_map, List.mem_filter]

theorem length_order (touched : List (K × V)) :
    (order touched).length = (touched.map Prod.fst).dedup.length := by
  have hperm : ((order touched).map Prod.fst).Perm (touched.map Prod.fst).dedup := by
    refine (List.perm_ext_iff_of_nodup (nodup_order touched) (List.nodup_dedup _)).mpr fun key => ?_
    rw [mem_keys_order, List.mem_dedup]
  rw [← hperm.length_eq, List.length_map]

/-- Above a key stand the keys used since. -/
theorem since_order (key : K) (touched : List (K × V)) : since key (order touched) = order (since key touched) := by
  induction touched with
  | nil => rfl
  | cons e touched ih =>
    obtain ⟨k, v⟩ := e
    rw [order, bump]
    by_cases hkey : k = key
    · rw [hkey, since_cons_self, since_cons_self]
      rfl
    · have hfilter : (fun a : K × V => !decide (a.1 ≠ k) || decide (a.1 ≠ key)) = fun a => decide (a.1 ≠ key) := by
        funext a
        by_cases ha : a.1 = k
        · simp [ha, hkey]
        · simp [ha]
      rw [since_cons_ne hkey, since_cons_ne hkey, order, bump, ← ih, since, since, List.takeWhile_filter, hfilter]

theorem filter_take {key : K} {recent : List (K × V)} (hnodup : (recent.map Prod.fst).Nodup) (capacity : Nat) :
    ((recent.take (capacity + 1)).filter fun e => e.1 ≠ key).take capacity =
      (recent.filter fun e => e.1 ≠ key).take capacity := by
  induction recent generalizing capacity with
  | nil => rfl
  | cons e recent ih =>
    obtain ⟨hnot, hnodup⟩ := List.nodup_cons.mp hnodup
    rw [List.take_succ_cons]
    by_cases hkey : e.1 = key
    · have hother : ∀ a ∈ recent, decide (a.1 ≠ key) = true := fun a ha =>
        decide_eq_true fun heq => hnot (List.mem_map.mpr ⟨a, ha, heq.trans hkey.symm⟩)
      rw [List.filter_cons_of_neg (by simpa using hkey), List.filter_cons_of_neg (by simpa using hkey),
        List.filter_eq_self.mpr hother, List.filter_eq_self.mpr fun a ha => hother a (List.mem_of_mem_take ha),
        List.take_take, Nat.min_self]
    · rw [List.filter_cons_of_pos (by simpa using hkey), List.filter_cons_of_pos (by simpa using hkey)]
      cases capacity with
      | zero => rfl
      | succ capacity => rw [List.take_succ_cons, List.take_succ_cons, ih hnodup]

/-- A bounded list keeps what the unbounded one begins with. -/
theorem bump_take {recent : List (K × V)} (hnodup : (recent.map Prod.fst).Nodup) (key : K) (value : V)
    (capacity : Nat) : (bump key value (recent.take capacity)).take capacity = (bump key value recent).take capacity := by
  cases capacity with
  | zero => rfl
  | succ capacity => rw [bump, bump, List.take_succ_cons, List.take_succ_cons, filter_take hnodup]

variable [BEq K] [LawfulBEq K]

theorem lookup_filter_ne {key key' : K} (h : key' ≠ key) (recent : List (K × V)) :
    (recent.filter fun e => e.1 ≠ key).lookup key' = recent.lookup key' := by
  induction recent with
  | nil => rfl
  | cons e recent ih =>
    obtain ⟨k, v⟩ := e
    by_cases hk : k = key
    · rw [List.filter_cons_of_neg (by simpa using hk), ih, List.lookup_cons,
        beq_eq_false_iff_ne.mpr (hk ▸ h)]
    · rw [List.filter_cons_of_pos (by simpa using hk), List.lookup_cons, List.lookup_cons, ih]

/-- The last use of a key decides its value. -/
theorem lookup_order (key : K) (touched : List (K × V)) : (order touched).lookup key = touched.lookup key := by
  induction touched with
  | nil => rfl
  | cons e touched ih =>
    obtain ⟨k, v⟩ := e
    rw [order, bump, List.lookup_cons, List.lookup_cons]
    by_cases hkey : key = k
    · rw [hkey, beq_self_eq_true]
    · rw [beq_eq_false_iff_ne.mpr hkey]
      exact (lookup_filter_ne hkey _).trans ih

theorem lookup_take (key : K) (recent : List (K × V)) (capacity : Nat) :
    (recent.take capacity).lookup key =
      if (since key recent).length < capacity then recent.lookup key else none := by
  induction recent generalizing capacity with
  | nil => simp
  | cons e recent ih =>
    cases capacity with
    | zero => simp
    | succ capacity =>
      obtain ⟨k, v⟩ := e
      rw [List.take_succ_cons, List.lookup_cons, List.lookup_cons, ih]
      by_cases hkey : key = k
      · rw [hkey, since_cons_self, beq_self_eq_true]
        rfl
      · rw [since_cons_ne (Ne.symm hkey), beq_eq_false_iff_ne.mpr hkey, List.length_cons]
        simp only [Nat.succ_lt_succ_iff]

end CascadeSearch.Lib.Recency
