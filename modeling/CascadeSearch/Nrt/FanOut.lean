import CascadeSearch.Lib.StableSort
import CascadeSearch.Lib.TextFile
import CascadeSearch.Query.Search

/-!
# Searching a set of segments (`segment.py`)

Every segment is asked for `k` results and as many more as there are
tombstones. The answers are joined in segment order, tombstoned ids dropped,
and the rest sorted by score; `list.sort(reverse=True)` is stable.
-/
namespace CascadeSearch.Nrt.FanOut

open Lib.StableSort Lib.TextFile
open Index.Format
open Query.Search

/-- The components of a path. -/
abbrev Path := List Str

/-- A `Segment` object; `ident` is its `id()`. -/
structure Segment (Ix : Type) where
  ident : Nat
  index : Ix
  sourceTsv : Path
  indexDir : Path
  docCount : Nat

variable {Ix S : Type}

/-- At most as many entries are tombstoned as there are tombstones. -/
theorem length_tombstoned_le {pairs : List (Text × S)} (hids : (pairs.map Prod.fst).Nodup)
    (tombstones : Finset Text) : (pairs.filter fun r => r.1 ∈ tombstones).length ≤ tombstones.card := by
  have hnodup := hids.sublist ((List.filter_sublist (p := fun r => r.1 ∈ tombstones)).map Prod.fst)
  rw [← List.length_map (f := Prod.fst), ← List.toFinset_card_of_nodup hnodup]
  apply Finset.card_le_card
  intro externalId hmem
  obtain ⟨r, hr, rfl⟩ := List.mem_map.mp (List.mem_toFinset.mp hmem)
  exact of_decide_eq_true (List.mem_filter.mp hr).2

theorem length_live_add_tombstoned (pairs : List (Text × S)) (tombstones : Finset Text) :
    (pairs.filter fun r => r.1 ∉ tombstones).length + (pairs.filter fun r => r.1 ∈ tombstones).length =
      pairs.length := by
  have hlen := List.length_eq_length_filter_add (l := pairs) fun r => decide (r.1 ∈ tombstones)
  have hlive : (pairs.filter fun r => !decide (r.1 ∈ tombstones)) =
      pairs.filter fun r => r.1 ∉ tombstones :=
    List.filter_congr fun r _ => (decide_not (p := r.1 ∈ tombstones)).symm
  rw [hlive] at hlen
  omega

variable [LinearOrder S]

/-- `sort(key=lambda r: r[1], reverse=True)`. -/
def sortByScore (pairs : List (Text × S)) : List (Text × S) :=
  pairs.insertionSort fun a b => b.2 ≤ a.2

structure SegmentSet (Ix : Type) where
  segments : List (Segment Ix)
  tombstones : Finset Text

/-- `indexSearch` is the bound `Index.search` without its statistics. -/
def SegmentSet.search (set : SegmentSet Ix)
    (indexSearch : Ix → Text → Nat → Algorithm → List (Text × S)) (query : Text) (k : Nat)
    (algorithm : Algorithm) : List (Text × S) :=
  if set.segments = [] then []
  else
    let overFetchK := k + set.tombstones.card
    let perSegmentPairs := set.segments.map fun seg => indexSearch seg.index query overFetchK algorithm
    let merged := perSegmentPairs.flatMap fun pairs => pairs.filter fun r => r.1 ∉ set.tombstones
    (sortByScore merged).take k

/-- Over-fetching by the number of tombstones leaves `k` live entries above whatever was cut. -/
theorem cutAt_overFetch {full : List (Text × S)} (hsorted : full.Pairwise fun a b => b.2 ≤ a.2)
    (hids : (full.map Prod.fst).Nodup) (tombstones : Finset Text) (k : Nat) :
    CutAt (fun a b : Text × S => b.2 ≤ a.2) k (full.filter fun r => r.1 ∉ tombstones)
      ((full.take (k + tombstones.card)).filter fun r => r.1 ∉ tombstones) := by
  apply cutAt_filter hsorted
  intro hle
  have htomb := length_tombstoned_le
    (hids.sublist ((List.take_sublist (k + tombstones.card) full).map Prod.fst)) tombstones
  have hsum := length_live_add_tombstoned (full.take (k + tombstones.card)) tombstones
  rw [List.length_take_of_le hle] at hsum
  omega

/-- Cutting every segment's answer at `k + |T|` loses nothing. -/
theorem search_eq_take_sort (set : SegmentSet Ix)
    (indexSearch : Ix → Text → Nat → Algorithm → List (Text × S)) (query : Text) (k : Nat)
    (algorithm : Algorithm) (full : Segment Ix → List (Text × S))
    (hanswers : ∀ seg ∈ set.segments, ∀ m, indexSearch seg.index query m algorithm = (full seg).take m)
    (hsorted : ∀ seg ∈ set.segments, (full seg).Pairwise fun a b => b.2 ≤ a.2)
    (hids : ∀ seg ∈ set.segments, ((full seg).map Prod.fst).Nodup) :
    set.search indexSearch query k algorithm =
      (sortByScore ((set.segments.flatMap full).filter fun r => r.1 ∉ set.tombstones)).take k := by
  by_cases hempty : set.segments = []
  · rw [SegmentSet.search, if_pos hempty, hempty, List.flatMap_nil, List.filter_nil]
    exact List.take_nil.symm
  · rw [SegmentSet.search, if_neg hempty]
    have hcut : List.Forall₂ (CutAt (fun a b : Text × S => b.2 ≤ a.2) k)
        (set.segments.map fun seg => (full seg).filter fun r => r.1 ∉ set.tombstones)
        (set.segments.map fun seg => (indexSearch seg.index query (k + set.tombstones.card) algorithm).filter
          fun r => r.1 ∉ set.tombstones) := by
      rw [List.forall₂_map_left_iff, List.forall₂_map_right_iff, List.forall₂_same]
      intro seg hseg
      rw [hanswers seg hseg]
      exact cutAt_overFetch (hsorted seg hseg) (hids seg hseg) set.tombstones k
    have htake := take_insertionSort_flatten hcut
    rw [← List.flatMap_def, ← List.flatMap_def] at htake
    rw [List.filter_flatMap, sortByScore, htake]
    dsimp only
    rw [List.flatMap_map]
    rfl

/-- Two segments share an id; the tombstone is at the top of one of them. -/
def tiedSegments : SegmentSet (List (Text × Nat)) where
  segments :=
    [⟨0, [(['a'], 3), (['b'], 2), (['c'], 2)], [], [], 3⟩, ⟨1, [(['d'], 2), (['a'], 1)], [], [], 2⟩]
  tombstones := {['a']}

theorem search_eq_take_sort_tied :
    tiedSegments.search (fun pairs _ m _ => pairs.take m) [] 2 .daatOr = [(['b'], 2), (['c'], 2)] :=
  (search_eq_take_sort tiedSegments _ [] 2 .daatOr Segment.index (fun _ _ _ => rfl) (by decide)
    (by decide)).trans (by decide)

end CascadeSearch.Nrt.FanOut
