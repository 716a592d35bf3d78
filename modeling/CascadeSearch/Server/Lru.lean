import CascadeSearch.Lib.Recency
import CascadeSearch.Server.Cache

/-!
# Least recently used (`lru_cache.h`)

What `get` finds follows from the history of the cache alone: the key's last
`put`, and the keys touched since the key itself was touched.
-/
namespace CascadeSearch.Server.Lru

open Lib.Recency
open Index.Format Cache

variable {Value : Type}

inductive Call (Value : Type) where
  | get (key : Str)
  | put (key : Str) (value : Value)

/-- A call and what came of it. -/
inductive Event (Value : Type) where
  | get (key : Str) (result : Option Value)
  | put (key : Str) (value : Value)

/-- The calls, one after the other under the mutex. -/
def run (c : LruCache Value) : List (Call Value) → Option (List (Event Value) × LruCache Value)
  | [] => some ([], c)
  | .get key :: calls => do
      let (result, c) ← c.get key
      let (trace, c) ← run c calls
      return (.get key result :: trace, c)
  | .put key value :: calls => do
      let c ← c.put key value
      let (trace, c) ← run c calls
      return (.put key value :: trace, c)

/-- A put of the key, or a successful get. -/
def Event.touched : Event Value → Option (Str × Value)
  | .get key result => result.map fun value => (key, value)
  | .put key value => some (key, value)

/-- The touches, from the last one back. -/
def touches (trace : List (Event Value)) : List (Str × Value) := trace.reverse.filterMap Event.touched

/-- The value of the most recent put of the key. -/
def lastPut (key : Str) (trace : List (Event Value)) : Option Value :=
  trace.reverse.findSome? fun
    | .get _ _ => none
    | .put key' value => if key' = key then some value else none

/-- The distinct keys touched since the key was. -/
def touchedSince (key : Str) (trace : List (Event Value)) : List Str :=
  ((since key (touches trace)).map Prod.fst).dedup

/-- Put before, and fewer than `capacity` other keys touched since. -/
def Hits (capacity : Nat) (key : Str) (trace : List (Event Value)) : Prop :=
  (lastPut key trace).isSome ∧ (touchedSince key trace).length < capacity

section History

variable (trace : List (Event Value)) (key key' : Str) (value : Value)

@[simp] theorem touches_miss : touches (trace ++ [.get key none]) = touches trace := by
  rw [touches, List.reverse_concat]
  rfl

@[simp] theorem touches_hit : touches (trace ++ [.get key (some value)]) = (key, value) :: touches trace := by
  rw [touches, List.reverse_concat]
  rfl

@[simp] theorem touches_put : touches (trace ++ [.put key value]) = (key, value) :: touches trace := by
  rw [touches, List.reverse_concat]
  rfl

@[simp] theorem lastPut_get (result : Option Value) :
    lastPut key' (trace ++ [.get key result]) = lastPut key' trace := by
  simp [lastPut]

@[simp] theorem lastPut_put :
    lastPut key' (trace ++ [.put key value]) = if key = key' then some value else lastPut key' trace := by
  by_cases h : key = key' <;> simp [lastPut, h]

end History

/-- The entries are the first of the keys by recency, each with the value last put. -/
structure Tracks (capacity : Nat) (trace : List (Event Value)) (c : LruCache Value) : Prop where
  consistent : c.Consistent
  capacity_eq : c.capacity = capacity
  contents_eq : c.contents = (order (touches trace)).take capacity
  lookup_eq : ∀ key, (touches trace).lookup key = lastPut key trace

variable {capacity : Nat} {trace : List (Event Value)} {c : LruCache Value}

theorem tracks_empty (capacity : Nat) : Tracks capacity [] ({ capacity := capacity } : LruCache Value) where
  consistent := LruCache.consistent_empty capacity
  capacity_eq := rfl
  contents_eq := List.take_nil.symm
  lookup_eq _ := rfl

theorem touch_order (capacity : Nat) (key : Str) (value : Value) (touched : List (Str × Value)) :
    touch capacity key value ((order touched).take capacity) = (order ((key, value) :: touched)).take capacity :=
  bump_take (nodup_order touched) key value capacity

/-- What is listed under a key is its last put, unless too much was touched since. -/
theorem Tracks.lookup_contents (h : Tracks capacity trace c) (key : Str) :
    c.contents.lookup key = if (touchedSince key trace).length < capacity then lastPut key trace else none := by
  rw [h.contents_eq, lookup_take, since_order, length_order, lookup_order, h.lookup_eq]
  rfl

theorem Tracks.get (h : Tracks capacity trace c) (key : Str) :
    ∃ c', c.get key = some (c.contents.lookup key, c') ∧ Tracks capacity (trace ++ [.get key (c.contents.lookup key)]) c' := by
  obtain ⟨c', hget, hconsistent, hcapacity, hcontents⟩ := h.consistent.get_spec key
  refine ⟨c', hget, hconsistent, hcapacity.trans h.capacity_eq, ?_, ?_⟩
  · cases hlookup : c.contents.lookup key with
    | none =>
      rw [hlookup] at hcontents
      rw [hcontents, touches_miss]
      exact h.contents_eq
    | some value =>
      rw [hlookup] at hcontents
      rw [hcontents, touches_hit, h.capacity_eq, h.contents_eq]
      exact touch_order capacity key value _
  · intro key'
    rw [lastPut_get, ← h.lookup_eq]
    cases hlookup : c.contents.lookup key with
    | none => rw [touches_miss]
    | some value =>
      have hvalue : (touches trace).lookup key = some value := by
        rw [h.lookup_contents] at hlookup
        split at hlookup
        · rw [h.lookup_eq, hlookup]
        · cases hlookup
      rw [touches_hit, List.lookup_cons]
      by_cases hkey : key' = key
      · rw [hkey, beq_self_eq_true, hvalue]
      · rw [beq_eq_false_iff_ne.mpr hkey]

theorem Tracks.put (h : Tracks capacity trace c) (key : Str) (value : Value) :
    ∃ c', c.put key value = some c' ∧ Tracks capacity (trace ++ [.put key value]) c' := by
  obtain ⟨c', hput, hconsistent, hcapacity, hcontents⟩ := h.consistent.put_spec key value
  refine ⟨c', hput, hconsistent, hcapacity.trans h.capacity_eq, ?_, ?_⟩
  · rw [hcontents, touches_put, h.capacity_eq, h.contents_eq, touch_order]
  · intro key'
    rw [lastPut_put, touches_put, List.lookup_cons, h.lookup_eq]
    by_cases hkey : key' = key
    · rw [hkey, beq_self_eq_true, if_pos rfl]
    · rw [beq_eq_false_iff_ne.mpr hkey, if_neg (Ne.symm hkey)]

/-- No call dereferences a dangling iterator, and the cache keeps to the history. -/
theorem run_tracks (h : Tracks capacity trace c) (calls : List (Call Value)) :
    ∃ later c', run c calls = some (later, c') ∧ Tracks capacity (trace ++ later) c' := by
  induction calls generalizing trace c with
  | nil => exact ⟨[], c, rfl, by rwa [List.append_nil]⟩
  | cons call calls ih =>
    cases call with
    | get key =>
      obtain ⟨c', hget, h'⟩ := h.get key
      obtain ⟨later, c'', hrun, htracks⟩ := ih h'
      refine ⟨.get key (c.contents.lookup key) :: later, c'', ?_, ?_⟩
      · simp [run, hget, hrun]
      · rwa [List.append_assoc] at htracks
    | put key value =>
      obtain ⟨c', hput, h'⟩ := h.put key value
      obtain ⟨later, c'', hrun, htracks⟩ := ih h'
      refine ⟨.put key value :: later, c'', ?_, ?_⟩
      · simp [run, hput, hrun]
      · rwa [List.append_assoc] at htracks

/-- The cache is exactly least recently used. -/
theorem lru_exact (capacity : Nat) (calls : List (Call Value)) :
    ∃ trace c, run { capacity := capacity } calls = some (trace, c) ∧
      c.Linked ∧ c.size ≤ capacity ∧
      ∀ key, ∃ result c', c.get key = some (result, c') ∧
        (result.isSome ↔ Hits capacity key trace) ∧ ∀ value, result = some value → lastPut key trace = some value := by
  obtain ⟨trace, c, hrun, htracks⟩ := run_tracks (tracks_empty capacity) calls
  rw [List.nil_append] at htracks
  refine ⟨trace, c, hrun, htracks.consistent.toLinked, ?_, fun key => ?_⟩
  · rw [htracks.consistent.toLinked.size_eq, ← htracks.capacity_eq]
    exact htracks.consistent.bounded
  · obtain ⟨c', hget, -⟩ := htracks.get key
    refine ⟨_, c', hget, ?_, ?_⟩
    · rw [htracks.lookup_contents, Hits]
      split
      · rename_i hfew
        exact (and_iff_left hfew).symm
      · rename_i hmany
        exact iff_of_false (by simp) fun hhits => hmany hhits.2
    · intro value hvalue
      rw [htracks.lookup_contents] at hvalue
      split at hvalue
      · exact hvalue
      · cases hvalue

end CascadeSearch.Server.Lru
