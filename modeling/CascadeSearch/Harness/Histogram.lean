import CascadeSearch.Lib.OrderStatistics
import Mathlib.Algebra.Order.Floor.Ring
import Mathlib.Algebra.Order.Ring.Rat
import Mathlib.Data.Rat.Floor
import Mathlib.Tactic.Linarith
import Mathlib.Tactic.NormNum
import Mathlib.Tactic.Positivity
import Mathlib.Tactic.Ring

/-!
# Latency percentiles (`histogram.py`)

The recorder sorts its samples when it is asked and keeps the sorted copy until
the next sample. The rank of a percentile is computed in floats; what the
product `p / 100.0 * n` comes to is a parameter.
-/
namespace CascadeSearch.Harness.Histogram

open Lib.OrderStatistics

/-- `round(x, 9)` in units of the ninth decimal, the even one of two. -/
def roundNine (x : ℚ) : ℤ :=
  let below := ⌊x * 10 ^ 9⌋
  let rest := x * 10 ^ 9 - below
  if rest < 1 / 2 ∨ rest = 1 / 2 ∧ below % 2 = 0 then below else below + 1

/-- `product p n` is the value of `p / 100.0 * n`. -/
def rankOf (product : ℚ → Nat → ℚ) (p : ℚ) (n : Nat) : Nat :=
  (max 1 ⌈(roundNine (product p n) : ℚ) / 10 ^ 9⌉).toNat

structure LatencyRecorder (S : Type*) where
  samples : List S := []
  sorted : Option (List S) := none

structure Summary (S : Type*) where
  count : Nat
  minUs : S
  p50Us : S
  p95Us : S
  p99Us : S
  p999Us : S
  maxUs : S

variable {S : Type*}

namespace LatencyRecorder

def record (r : LatencyRecorder S) (latencyUs : S) : LatencyRecorder S where
  samples := r.samples ++ [latencyUs]

def recordMany (r : LatencyRecorder S) (latenciesUs : List S) : LatencyRecorder S where
  samples := r.samples ++ latenciesUs

variable [LinearOrder S]

/-- `_ordered`. -/
def ordered (r : LatencyRecorder S) : List S × LatencyRecorder S :=
  match r.sorted with
  | some sorted => (sorted, r)
  | none => (ascending r.samples, { r with sorted := some (ascending r.samples) })

/-- `none` if it raises. -/
def percentile (product : ℚ → Nat → ℚ) (r : LatencyRecorder S) (p : ℚ) : Option S × LatencyRecorder S :=
  if r.samples.isEmpty then (none, r)
  else
    let (ordered, r) := r.ordered
    (ordered[min (rankOf product p ordered.length) ordered.length - 1]?, r)

/-- `none` is the summary of no samples. -/
def summary (product : ℚ → Nat → ℚ) (r : LatencyRecorder S) : Option (Summary S) × LatencyRecorder S :=
  if r.samples.isEmpty then (none, r)
  else
    let (ordered, r) := r.ordered
    (do some {
          count := ordered.length
          minUs := ← ordered[0]?
          p50Us := ← (r.percentile product 50).1
          p95Us := ← (r.percentile product 95).1
          p99Us := ← (r.percentile product 99).1
          p999Us := ← (r.percentile product (999 / 10)).1
          maxUs := ← ordered.getLast? }, r)

end LatencyRecorder

/-- A call on a recorder. -/
inductive Call (S : Type*) where
  | record (latencyUs : S)
  | recordMany (latenciesUs : List S)
  | percentile (p : ℚ)
  | summary

def Call.recorded : Call S → List S
  | .record latencyUs => [latencyUs]
  | .recordMany latenciesUs => latenciesUs
  | .percentile _ | .summary => []

variable [LinearOrder S]

def after (product : ℚ → Nat → ℚ) (r : LatencyRecorder S) : Call S → LatencyRecorder S
  | .record latencyUs => r.record latencyUs
  | .recordMany latenciesUs => r.recordMany latenciesUs
  | .percentile p => (r.percentile product p).2
  | .summary => (r.summary product).2

def recordedBy (calls : List (Call S)) : List S := calls.flatMap Call.recorded

def recorderAfter (product : ℚ → Nat → ℚ) (calls : List (Call S)) : LatencyRecorder S :=
  calls.foldl (after product) {}

/-- The sorted copy is never stale. -/
structure Fresh (recorded : List S) (r : LatencyRecorder S) : Prop where
  samples : r.samples = recorded
  sorted : ∀ sorted ∈ r.sorted, sorted = ascending recorded

variable {product : ℚ → Nat → ℚ} {samples : List S} {r : LatencyRecorder S}

namespace Fresh

theorem ordered (h : Fresh samples r) : r.ordered.1 = ascending samples ∧ Fresh samples r.ordered.2 := by
  rw [LatencyRecorder.ordered]
  cases hsorted : r.sorted with
  | some sorted => exact ⟨h.sorted sorted hsorted, h⟩
  | none =>
    refine ⟨congrArg ascending h.samples, h.samples, fun sorted hmem => ?_⟩
    rw [← Option.some.inj hmem, h.samples]

theorem percentile (h : Fresh samples r) (p : ℚ) : Fresh samples (r.percentile product p).2 := by
  rw [LatencyRecorder.percentile]
  split
  · exact h
  · exact h.ordered.2

theorem summary (h : Fresh samples r) : Fresh samples (r.summary product).2 := by
  rw [LatencyRecorder.summary]
  split
  · exact h
  · exact h.ordered.2

theorem after (h : Fresh samples r) (call : Call S) :
    Fresh (samples ++ call.recorded) (after product r call) := by
  cases call with
  | record latencyUs => exact ⟨congrArg (· ++ [latencyUs]) h.samples, fun sorted hmem => nomatch hmem⟩
  | recordMany latenciesUs => exact ⟨congrArg (· ++ latenciesUs) h.samples, fun sorted hmem => nomatch hmem⟩
  | percentile p =>
    rw [Call.recorded, List.append_nil]
    exact h.percentile p
  | summary =>
    rw [Call.recorded, List.append_nil]
    exact h.summary

end Fresh

theorem fresh_of_calls (product : ℚ → Nat → ℚ) (calls : List (Call S)) :
    Fresh (recordedBy calls) (recorderAfter product calls) := by
  have hall : ∀ samples (r : LatencyRecorder S), Fresh samples r →
      Fresh (samples ++ calls.flatMap Call.recorded) (calls.foldl (Histogram.after product) r) := by
    induction calls with
    | nil =>
      intro samples r h
      rwa [List.flatMap_nil, List.append_nil]
    | cons call calls ih =>
      intro samples r h
      rw [List.foldl_cons, List.flatMap_cons, ← List.append_assoc]
      exact ih _ _ (h.after call)
  exact hall [] {} ⟨rfl, fun sorted hmem => nomatch hmem⟩

/-- Within half a unit of the ninth decimal there is one number of nine decimals. -/
theorem roundNine_eq {x : ℚ} {m : ℤ} (h : |x - m / 10 ^ 9| < 1 / (2 * 10 ^ 9)) : roundNine x = m := by
  have hpos : (0 : ℚ) < 10 ^ 9 := by positivity
  have hscaled : |x * 10 ^ 9 - m| < 1 / 2 := by
    have hfactor : x * 10 ^ 9 - m = (x - m / 10 ^ 9) * 10 ^ 9 := by field_simp
    rw [hfactor, abs_mul, abs_of_pos hpos]
    calc |x - m / 10 ^ 9| * 10 ^ 9 < 1 / (2 * 10 ^ 9) * 10 ^ 9 := mul_lt_mul_of_pos_right h hpos
      _ = 1 / 2 := by norm_num
  obtain ⟨hlow, hhigh⟩ := abs_lt.mp hscaled
  rw [roundNine]
  rcases lt_or_ge (x * 10 ^ 9) (m : ℚ) with hlt | hge
  · have hfloor : ⌊x * 10 ^ 9⌋ = m - 1 := by
      rw [Int.floor_eq_iff]
      push_cast
      exact ⟨by linarith, by linarith⟩
    rw [hfloor, if_neg]
    · omega
    · push_cast
      intro hrest
      rcases hrest with hrest | hrest
      · linarith
      · linarith [hrest.1]
  · have hfloor : ⌊x * 10 ^ 9⌋ = m := by
      rw [Int.floor_eq_iff]
      exact ⟨hge, by linarith⟩
    rw [hfloor, if_pos (Or.inl (by linarith))]

theorem rankOf_le_iff {p : ℚ} {n : Nat} {m : ℤ} (hdecimal : p * 10 ^ 7 = m)
    (hproduct : |product p n - p / 100 * n| < 1 / (2 * 10 ^ 9)) {c : Nat} (hc : 0 < c) :
    rankOf product p n ≤ c ↔ p / 100 * n ≤ c := by
  have hexact : p / 100 * n = ((m * n : ℤ) : ℚ) / 10 ^ 9 := by
    push_cast
    rw [← hdecimal]
    ring
  rw [rankOf, roundNine_eq (hexact ▸ hproduct), ← hexact, Int.toNat_le, max_le_iff, Int.ceil_le]
  push_cast
  exact and_iff_right (by omega)

theorem rankOf_pos (product : ℚ → Nat → ℚ) (p : ℚ) (n : Nat) : 0 < rankOf product p n := by
  rw [rankOf]
  omega

/-- `x` is a sample, and the smallest one that at least `p` percent of the samples
are at most. -/
def IsNearestRank (samples : List S) (p : ℚ) (x : S) : Prop :=
  x ∈ samples ∧ ∀ y ∈ samples, x ≤ y ↔ p / 100 * samples.length ≤ samples.countP (· ≤ y)

theorem percentile_eq (h : Fresh samples r) (p : ℚ) (hne : samples ≠ []) :
    (r.percentile product p).1 =
      (ascending samples)[min (rankOf product p samples.length) samples.length - 1]? := by
  have hsome : ¬ r.samples.isEmpty = true := by
    rw [h.samples]
    exact fun hnil => hne (List.isEmpty_iff.mp hnil)
  rw [LatencyRecorder.percentile, if_neg hsome]
  dsimp only
  rw [h.ordered.1, length_ascending]

theorem percentile_nil (h : Fresh [] r) (p : ℚ) : (r.percentile product p).1 = none := by
  rw [LatencyRecorder.percentile, if_pos (by rw [h.samples]; rfl)]

/-- A percentile that is written with at most seven decimals. -/
structure Written (product : ℚ → Nat → ℚ) (p : ℚ) (n : Nat) : Prop where
  le : p ≤ 100
  decimal : ∃ m : ℤ, p * 10 ^ 7 = m
  product : |product p n - p / 100 * n| < 1 / (2 * 10 ^ 9)

theorem isNearestRank_getElem {p : ℚ} (hp : Written product p samples.length) {x : S}
    (hx : (ascending samples)[min (rankOf product p samples.length) samples.length - 1]? = some x) :
    IsNearestRank samples p x := by
  obtain ⟨hi, rfl⟩ := List.getElem?_eq_some_iff.mp hx
  obtain ⟨m, hm⟩ := hp.decimal
  have hn : 0 < samples.length := by
    rw [length_ascending] at hi
    omega
  have hrank : rankOf product p samples.length ≤ samples.length := by
    rw [rankOf_le_iff hm hp.product hn]
    have hle : p / 100 ≤ 1 := by linarith [hp.le]
    exact mul_le_of_le_one_left (Nat.cast_nonneg _) hle
  have hpos := rankOf_pos product p samples.length
  refine ⟨getElem_mem_ascending hi, fun y hy => ?_⟩
  have hcount : 0 < samples.countP (· ≤ y) := List.countP_pos_iff.mpr ⟨y, hy, by simp⟩
  rw [getElem_le_iff, ← rankOf_le_iff hm hp.product hcount]
  omega

/-- Where every sample is at most the one beside it, so is every percentile. -/
theorem percentile_mono {samples' : List S} {r' : LatencyRecorder S} (h : Fresh samples r) (h' : Fresh samples' r')
    (hle : List.Forall₂ (· ≤ ·) samples samples') {p : ℚ} {x x' : S} (hx : (r.percentile product p).1 = some x)
    (hx' : (r'.percentile product p).1 = some x') : x ≤ x' := by
  have hlength := hle.length_eq
  have hne : samples ≠ [] := by
    rintro rfl
    rw [percentile_nil h] at hx
    cases hx
  have hne' : samples' ≠ [] := fun hnil => hne (List.length_eq_zero_iff.mp (by rw [hlength, hnil]; rfl))
  rw [percentile_eq h p hne, hlength] at hx
  rw [percentile_eq h' p hne'] at hx'
  obtain ⟨hi, rfl⟩ := List.getElem?_eq_some_iff.mp hx
  obtain ⟨hi', rfl⟩ := List.getElem?_eq_some_iff.mp hx'
  exact getElem_le_getElem hle hi hi'

/-- The fields of a summary are the percentiles, from the smallest sample to the largest. -/
structure Summarises (product : ℚ → Nat → ℚ) (samples : List S) (summary : Summary S) : Prop where
  count : summary.count = samples.length
  min : IsLeast {x | x ∈ samples} summary.minUs
  p50 : IsNearestRank samples 50 summary.p50Us
  p95 : IsNearestRank samples 95 summary.p95Us
  p99 : IsNearestRank samples 99 summary.p99Us
  p999 : IsNearestRank samples (999 / 10) summary.p999Us
  max : IsGreatest {x | x ∈ samples} summary.maxUs

theorem isLeast_getElem {x : S} (hx : (ascending samples)[0]? = some x) : IsLeast {x | x ∈ samples} x := by
  obtain ⟨hi, rfl⟩ := List.getElem?_eq_some_iff.mp hx
  refine ⟨getElem_mem_ascending hi, fun y hy => ?_⟩
  exact (getElem_le_iff hi).mpr (List.countP_pos_iff.mpr ⟨y, hy, by simp⟩)

theorem isGreatest_getLast {x : S} (hx : (ascending samples).getLast? = some x) : IsGreatest {x | x ∈ samples} x := by
  rw [List.getLast?_eq_getElem?] at hx
  obtain ⟨hi, rfl⟩ := List.getElem?_eq_some_iff.mp hx
  refine ⟨getElem_mem_ascending hi, fun y hy => ?_⟩
  obtain ⟨j, hj, rfl⟩ := List.mem_iff_getElem.mp ((ascending_perm samples).symm.subset hy)
  exact getElem_le_getElem_of_le (by omega) hi

/-- With samples every percentile has an answer. -/
theorem exists_percentile (product : ℚ → Nat → ℚ) (h : Fresh samples r) (p : ℚ) (hne : samples ≠ []) :
    ∃ x, (r.percentile product p).1 = some x ∧
      (ascending samples)[min (rankOf product p samples.length) samples.length - 1]? = some x := by
  have hpos := List.length_pos_iff.mpr hne
  have hi : min (rankOf product p samples.length) samples.length - 1 < (ascending samples).length := by
    rw [length_ascending]
    omega
  exact ⟨_, (percentile_eq h p hne).trans (List.getElem?_eq_getElem hi), List.getElem?_eq_getElem hi⟩

theorem summary_nil (h : Fresh [] r) : (r.summary product).1 = none := by
  rw [LatencyRecorder.summary, if_pos (by rw [h.samples]; rfl)]

theorem exists_summary (h : Fresh samples r) (hne : samples ≠ [])
    (hwritten : ∀ p ∈ [50, 95, 99, 999 / 10], Written product p samples.length) :
    ∃ summary, (r.summary product).1 = some summary ∧ Summarises product samples summary := by
  have hsome : ¬ r.samples.isEmpty = true := by
    rw [h.samples]
    exact fun hnil => hne (List.isEmpty_iff.mp hnil)
  have hpos : 0 < (ascending samples).length := by
    rw [length_ascending]
    exact List.length_pos_iff.mpr hne
  obtain ⟨p50, h50, hget50⟩ := exists_percentile product h.ordered.2 50 hne
  obtain ⟨p95, h95, hget95⟩ := exists_percentile product h.ordered.2 95 hne
  obtain ⟨p99, h99, hget99⟩ := exists_percentile product h.ordered.2 99 hne
  obtain ⟨p999, h999, hget999⟩ := exists_percentile product h.ordered.2 (999 / 10) hne
  obtain ⟨first, hfirst⟩ : ∃ first, (ascending samples)[0]? = some first := ⟨_, List.getElem?_eq_getElem hpos⟩
  obtain ⟨last, hlast⟩ : ∃ last, (ascending samples).getLast? = some last :=
    ⟨_, List.getLast?_eq_getLast_of_ne_nil (List.length_pos_iff.mp hpos)⟩
  refine ⟨⟨samples.length, first, p50, p95, p99, p999, last⟩, ?_, rfl, isLeast_getElem hfirst,
    isNearestRank_getElem (hwritten 50 (by simp)) hget50, isNearestRank_getElem (hwritten 95 (by simp)) hget95,
    isNearestRank_getElem (hwritten 99 (by simp)) hget99,
    isNearestRank_getElem (hwritten (999 / 10) (by simp)) hget999, isGreatest_getLast hlast⟩
  rw [LatencyRecorder.summary, if_neg hsome]
  dsimp only
  rw [h.ordered.1, length_ascending, hfirst, h50, h95, h99, h999, hlast]
  rfl

/-- Whatever was recorded and asked before, a percentile is the smallest sample
that so many are at most, and a summary is made of these; the float error of the
product does not matter. Without samples there is neither. -/
theorem percentile_nearest_rank (product : ℚ → Nat → ℚ) (calls : List (Call S)) :
    (∀ p, Written product p (recordedBy calls).length →
      (recordedBy calls = [] → ((recorderAfter product calls).percentile product p).1 = none) ∧
      (recordedBy calls ≠ [] → ∃ x, ((recorderAfter product calls).percentile product p).1 = some x ∧
        IsNearestRank (recordedBy calls) p x)) ∧
    (recordedBy calls = [] → ((recorderAfter product calls).summary product).1 = none) ∧
    (recordedBy calls ≠ [] → (∀ p ∈ [50, 95, 99, 999 / 10], Written product p (recordedBy calls).length) →
      ∃ summary, ((recorderAfter product calls).summary product).1 = some summary ∧
        Summarises product (recordedBy calls) summary) := by
  have h := fresh_of_calls product calls
  refine ⟨fun p hp => ⟨fun hnil => ?_, fun hne => ?_⟩, fun hnil => ?_, exists_summary h⟩
  · rw [hnil] at h
    exact percentile_nil h p
  · obtain ⟨x, hanswer, hget⟩ := exists_percentile product h p hne
    exact ⟨x, hanswer, isNearestRank_getElem hp hget⟩
  · rw [hnil] at h
    exact summary_nil h

/-- Asked between two samples, the recorder sorts again. -/
def threeCalls : List (Call Nat) := [.record 3, .record 1, .percentile 50, .record 2]

theorem percentile_nearest_rank_three :
    ∃ x, ((recorderAfter (fun p n => p / 100 * n) threeCalls).percentile (fun p n => p / 100 * n) 50).1 = some x ∧
      IsNearestRank [3, 1, 2] 50 x := by
  have hwritten : Written (fun p n => p / 100 * n) 50 (recordedBy threeCalls).length :=
    ⟨by norm_num, ⟨50 * 10 ^ 7, by norm_num⟩, by rw [sub_self, abs_zero]; norm_num⟩
  exact ((percentile_nearest_rank _ threeCalls).1 50 hwritten).2 (by decide)

end CascadeSearch.Harness.Histogram
