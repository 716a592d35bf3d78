import CascadeSearch.Lib.Loop
import CascadeSearch.Query.Cursor
import CascadeSearch.Query.Heap
import CascadeSearch.Query.Reader

/-!
# The three evaluation loops (`daat_or`, `wand`, `block_max_wand`)

One pass of each `while (true)` body is a step function. `live` holds the
cursors by value, each with its address, in the order of the pointer array.
Reading the top of an empty heap and dereferencing a null cursor are faults.
`-1` is the source's mark for a cursor that ran out; every block bound is
expected to be at least zero.
-/
namespace CascadeSearch.Query.Evaluate

open Lib.Loop
open Cursor Heap Reader

inductive Fault where
  | emptyHeap
  | nullCursor
deriving DecidableEq

structure SearchStats where
  postingsScored : Nat := 0
  fullEvaluations : Nat := 0
  blocksDecoded : Nat := 0
  candidatesSeen : Nat := 0
deriving DecidableEq

abbrev Outcome (S : Type) := Except Fault (List (Result S) × SearchStats)

variable {S : Type} [LinearOrder S] [Zero S] [One S] [Neg S] [Add S]

/-- The contribution of the posting a cursor stands on. -/
def termScore (ix : Index S) (c : PostingCursor S) (docid : Nat) : S :=
  ix.bm25.bm25TermScore c.idf c.freq (ix.docLengths docid) ix.avgDl

/-- `score += ...` over the cursors at one document, in the order given. -/
def accumulate (ix : Index S) (docid : Nat) (hits : List (PostingCursor S)) : S :=
  hits.foldl (fun score c => score + termScore ix c docid) 0

def decodedBy (cursors : List (PostingCursor S)) : Nat := (cursors.map (·.blocksDecoded)).sum

/-- Counters after the cursors `hits` have been scored for one document. -/
def SearchStats.scored (stats : SearchStats) (hits : List (PostingCursor S)) : SearchStats :=
  { stats with postingsScored := stats.postingsScored + hits.length,
               fullEvaluations := stats.fullEvaluations + 1 }

structure DaatState (S : Type) where
  cursors : List (PostingCursor S)
  top : TopK S
  stats : SearchStats

/-- The smallest docid any cursor stands on, or `kNoDocid`. -/
def currentDocid (cursors : List (PostingCursor S)) : Nat :=
  cursors.foldl (fun current c => if c.exhausted then current else min current c.docid) kNoDocid

def isAt (docid : Nat) (c : PostingCursor S) : Bool := !c.exhausted && c.docid == docid

def daatStep (ix : Index S) (s : DaatState S) : Step (DaatState S) (Outcome S) :=
  let current := currentDocid s.cursors
  if current = kNoDocid then
    .done (.ok (s.top.drain, { s.stats with blocksDecoded := decodedBy s.cursors }))
  else
    let hits := s.cursors.filter (isAt current)
    match s.top.push current (accumulate ix current hits) with
    | none => .done (.error .emptyHeap)
    | some top => .next {
        cursors := s.cursors.map (fun c => if isAt current c then c.next else c)
        top := top
        stats := { s.stats.scored hits with candidatesSeen := s.stats.candidatesSeen + 1 } }

def daatInit (cursors : List (PostingCursor S)) (k : Nat) : DaatState S :=
  { cursors := cursors, top := TopK.empty k, stats := {} }

def daatOr (ix : Index S) (cursors : List (PostingCursor S)) (k fuel : Nat) :
    Option (Outcome S) :=
  run (daatStep ix) fuel (daatInit cursors k)

structure WandState (S : Type) where
  live : List (PostingCursor S)
  top : TopK S
  stats : SearchStats

/-- `remove_if(exhausted)`; the counts of removed cursors stay in the statistics. -/
def dropExhausted (s : WandState S) : WandState S :=
  { s with
    live := s.live.filter (fun c => !c.exhausted)
    stats := { s.stats with blocksDecoded :=
      s.stats.blocksDecoded + decodedBy (s.live.filter (·.exhausted)) } }

/-- `sort_by_docid`: by docid, then by address. -/
def byDocid (a b : PostingCursor S) : Prop :=
  a.docid < b.docid ∨ a.docid = b.docid ∧ a.addr ≤ b.addr

instance (a b : PostingCursor S) : Decidable (byDocid a b) := by
  unfold byDocid
  infer_instance

def sortByDocid (live : List (PostingCursor S)) : List (PostingCursor S) :=
  live.insertionSort byDocid

/-- The index at which the accumulated term bounds reach the threshold; the
length of the list when they never do. -/
def findPivot (threshold : S) : (bound : S) → List (PostingCursor S) → Nat
  | _, [] => 0
  | bound, c :: cs =>
      let bound := bound + c.maxImpact
      if threshold ≤ bound then 0 else findPivot threshold bound cs + 1

structure Selected (S : Type) where
  live : List (PostingCursor S)
  threshold : S
  pivotIndex : Nat
  pivotDocid : Nat
  stats : SearchStats

def finish (s : WandState S) : Outcome S :=
  .ok (s.top.drain, { s.stats with blocksDecoded := s.stats.blocksDecoded + decodedBy s.live })

/-- From the top of the loop to the choice of a pivot, or the loop's end. -/
def selectPivot (s : WandState S) : Except (Outcome S) (Selected S) :=
  let s := dropExhausted s
  if s.live = [] then .error (finish s)
  else
    let live := sortByDocid s.live
    match s.top.threshold with
    | none => .error (.error .emptyHeap)
    | some threshold =>
        let pivotIndex := findPivot threshold 0 live
        match live[pivotIndex]? with
        | none => .error (finish { s with live := live })
        | some pivot => .ok {
            live := live
            threshold := threshold
            pivotIndex := pivotIndex
            pivotDocid := pivot.docid
            stats := { s.stats with candidatesSeen := s.stats.candidatesSeen + 1 } }

/-- Score the cursors at the front that stand on the pivot, push, advance them. -/
def scorePivot (ix : Index S) (pivotDocid : Nat) (live : List (PostingCursor S)) (top : TopK S)
    (stats : SearchStats) : Step (WandState S) (Outcome S) :=
  let hits := live.takeWhile (fun c => c.docid = pivotDocid)
  match top.push pivotDocid (accumulate ix pivotDocid hits) with
  | none => .done (.error .emptyHeap)
  | some top => .next {
      live := hits.map PostingCursor.next ++ live.dropWhile (fun c => c.docid = pivotDocid)
      top := top
      stats := stats.scored hits }

/-- The first cursor with the largest term bound. -/
def largestBound (laggards : List (PostingCursor S)) : Option (PostingCursor S) :=
  laggards.foldl (fun chosen c =>
    match chosen with
    | none => some c
    | some best => if best.maxImpact < c.maxImpact then some c else some best) none

/-- `chosen->next_geq(pivot_docid)`. -/
def drag (pivotDocid : Nat) (chosen : Option (PostingCursor S)) (s : WandState S) :
    Step (WandState S) (Outcome S) :=
  match chosen with
  | none => .done (.error .nullCursor)
  | some chosen => .next { s with
      live := s.live.map (fun c => if c.addr = chosen.addr then c.nextGeq pivotDocid else c) }

def wandInit (cursors : List (PostingCursor S)) (k : Nat) : WandState S :=
  { live := cursors, top := TopK.empty k, stats := {} }

def wandStep (ix : Index S) (s : WandState S) : Step (WandState S) (Outcome S) :=
  match selectPivot s with
  | .error outcome => .done outcome
  | .ok p =>
      if p.live.head?.map (·.docid) = some p.pivotDocid then
        scorePivot ix p.pivotDocid p.live s.top p.stats
      else
        let laggards := (p.live.take p.pivotIndex).filter (fun c => c.docid < p.pivotDocid)
        drag p.pivotDocid (largestBound laggards) { live := p.live, top := s.top, stats := p.stats }

def wand (ix : Index S) (cursors : List (PostingCursor S)) (k fuel : Nat) : Option (Outcome S) :=
  run (wandStep ix) fuel (wandInit cursors k)

/-- Position every candidate's block over the pivot and sum the block bounds,
until a cursor runs out. -/
def positionBlocks (pivotDocid : Nat) :
    (blockBound : S) → List (PostingCursor S) → List (PostingCursor S) × S
  | blockBound, [] => ([], blockBound)
  | blockBound, c :: cs =>
      let c := c.skipToBlock pivotDocid
      if c.exhausted then (c :: cs, -1)
      else
        let (cs, blockBound) := positionBlocks pivotDocid (blockBound + c.blockMaxImpact) cs
        (c :: cs, blockBound)

/-- The candidates: up to the pivot, and every cursor tied with it. -/
def candidateCount (p : Selected S) : Nat :=
  p.pivotIndex + 1 +
    ((p.live.drop (p.pivotIndex + 1)).takeWhile (fun c => c.docid = p.pivotDocid)).length

/-- The block span is hopeless: jump past its earliest end, but not past the
first cursor outside the candidates. -/
def jump (candidates rest : List (PostingCursor S)) (s : WandState S) :
    Step (WandState S) (Outcome S) :=
  let nextCandidate := candidates.foldl (fun m c => min m c.blockMaxDocid) kNoDocid
  if nextCandidate = kNoDocid then .done (finish s)
  else
    let target := Index.Format.u32 (nextCandidate + 1)
    let target := match rest.head? with
      | some c => min target c.docid
      | none => target
    .next { s with
      live := candidates.map (fun c => if c.docid < target then c.nextGeq target else c) ++ rest }

def blockMaxWandStep (ix : Index S) (s : WandState S) : Step (WandState S) (Outcome S) :=
  match selectPivot s with
  | .error outcome => .done outcome
  | .ok p =>
      let rest := p.live.drop (candidateCount p)
      let (candidates, blockBound) :=
        positionBlocks p.pivotDocid 0 (p.live.take (candidateCount p))
      let s : WandState S := { live := candidates ++ rest, top := s.top, stats := p.stats }
      if blockBound < 0 then .next s
      else if p.threshold ≤ blockBound then
        let live := sortByDocid s.live
        if live.head?.map (·.docid) = some p.pivotDocid then
          scorePivot ix p.pivotDocid live s.top s.stats
        else
          let laggards := live.takeWhile (fun c => c.docid < p.pivotDocid)
          drag p.pivotDocid (largestBound laggards) { s with live := live }
      else jump candidates rest s

def blockMaxWand (ix : Index S) (cursors : List (PostingCursor S)) (k fuel : Nat) :
    Option (Outcome S) :=
  run (blockMaxWandStep ix) fuel (wandInit cursors k)

end CascadeSearch.Query.Evaluate
