import CascadeSearch.Nrt.FanOut

/-!
# Which segments to merge (`merge_policy.py`)

As soon as there are more than `max_segments` segments, the `merge_factor`
smallest ones are chosen; `sorted` is stable.
-/
namespace CascadeSearch.Nrt.MergePolicy

open FanOut

structure TieredMergePolicy where
  mergeFactor : Int := 4
  maxSegments : Int := 8

/-- `xs[:stop]`; a negative stop counts from the end. -/
def sliceTo {α : Type} (xs : List α) (stop : Int) : List α :=
  if 0 ≤ stop then xs.take stop.toNat else xs.take (xs.length + stop).toNat

variable {Ix : Type}

def TieredMergePolicy.maybeMerge (policy : TieredMergePolicy) (segments : List (Segment Ix)) :
    Option (List (Segment Ix)) :=
  if (segments.length : Int) ≤ policy.maxSegments then none
  else
    let bySize := segments.insertionSort fun a b => a.docCount ≤ b.docCount
    some (sliceTo bySize (min policy.mergeFactor bySize.length))

theorem sliceTo_sublist {α : Type} (xs : List α) (stop : Int) : (sliceTo xs stop).Sublist xs := by
  rw [sliceTo]
  split
  · exact List.take_sublist _ _
  · exact List.take_sublist _ _

/-- There is a plan exactly for too many segments. -/
theorem exists_plan_iff (policy : TieredMergePolicy) (segments : List (Segment Ix)) :
    (∃ plan, policy.maybeMerge segments = some plan) ↔ policy.maxSegments < segments.length := by
  rw [TieredMergePolicy.maybeMerge]
  split
  · rename_i hfew
    exact iff_of_false (fun ⟨plan, hplan⟩ => nomatch hplan) (not_lt.mpr hfew)
  · rename_i hmany
    exact iff_of_true ⟨_, rfl⟩ (not_le.mp hmany)

/-- A plan chooses each segment at most once, and only from the list. -/
theorem maybeMerge_subperm {policy : TieredMergePolicy} {segments plan : List (Segment Ix)}
    (h : policy.maybeMerge segments = some plan) : plan.Subperm segments := by
  rw [TieredMergePolicy.maybeMerge] at h
  split at h
  · cases h
  · cases h
    exact (sliceTo_sublist _ _).subperm.trans (List.perm_insertionSort _ _).subperm

theorem maybeMerge_length {policy : TieredMergePolicy} {segments plan : List (Segment Ix)}
    (h : policy.maybeMerge segments = some plan) (hfactor : 0 ≤ policy.mergeFactor) :
    policy.maxSegments < segments.length ∧ (plan.length : Int) = min policy.mergeFactor segments.length := by
  refine ⟨(exists_plan_iff policy segments).mp ⟨plan, h⟩, ?_⟩
  rw [TieredMergePolicy.maybeMerge] at h
  split at h
  · cases h
  · cases h
    rw [sliceTo, if_pos (by omega), List.length_take, List.length_insertionSort]
    omega

end CascadeSearch.Nrt.MergePolicy
