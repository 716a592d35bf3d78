import CascadeSearch.Lib.Mapping
import CascadeSearch.Lib.Sorted

/-!
# Retrieval metrics (`metrics.py`)

Runs and judgments as dictionaries. A metric is a value for each judged query,
over any arithmetic; the rank discount divides by `log2`, a parameter.
-/
namespace CascadeSearch.Harness.Metrics

open Lib.Mapping Lib.Sorted

variable {Qid D S R : Type*}

abbrev Qrels (Qid D : Type*) := Dict Qid (Dict D Int)

abbrev Run (Qid D S : Type*) := Dict Qid (Dict D S)

/-- `_NegStr.__lt__`. -/
def negStrLt [LT D] (s other : D) : Prop := other < s

instance [LT D] [DecidableLT D] : DecidableRel (negStrLt (D := D)) := fun s other => inferInstanceAs (Decidable (other < s))

section Order

variable [LT D] [DecidableLT D] [LT S] [DecidableLT S] [Neg S]

/-- The keys `(-score, _NegStr(docid))` compared. -/
def ranksLt (a b : D × S) : Prop := pairLt (· < ·) negStrLt (-a.2, a.1) (-b.2, b.1)

instance : DecidableRel (ranksLt (D := D) (S := S)) := fun _ _ => inferInstanceAs (Decidable (pairLt _ _ _ _))

/-- `_ranked_docids`. -/
def rankedDocids (docScores : Dict D S) : List D := (sorted ranksLt docScores.items).map Prod.fst

end Order

section Arithmetic

variable [DecidableEq D] [Zero R] [One R] [Add R] [Div R] [IntCast R] [NatCast R] [DecidableEq R]

/-- `sum(values)`. -/
def total (values : List R) : R := values.foldl (· + ·) 0

def idealGains (judgments : Dict D Int) (k : Nat) : List Int :=
  ((judgments.values.filter (0 < ·)).insertionSort (· ≥ ·)).take k

/-- The gains at their ranks, discounted. -/
def discounted (log2 : Nat → R) (gains : List Int) : List R :=
  (gains.zipIdx 1).map fun gain => (gain.1 : R) / log2 (gain.2 + 1)

/-- The loop over the ranked documents. -/
def dcgOf (log2 : Nat → R) (judgments : Dict D Int) (ranked : List D) : R :=
  (ranked.zipIdx 1).foldl (fun dcg doc =>
    let rel := judgments.getD doc.1 0
    if 0 < rel then dcg + (rel : R) / log2 (doc.2 + 1) else dcg) 0

def ndcgOf (log2 : Nat → R) (judgments : Dict D Int) (ranked : List D) (k : Nat) : R :=
  let idcg := total (discounted log2 (idealGains judgments k))
  if idcg = 0 then 0 else dcgOf log2 judgments (ranked.take k) / idcg

def mrrOf (judgments : Dict D Int) (ranked : List D) (k : Nat) (relThreshold : Int) : R :=
  match ((ranked.take k).zipIdx 1).find? fun doc => relThreshold ≤ judgments.getD doc.1 0 with
  | some doc => 1 / (doc.2 : R)
  | none => 0

def recallOf (judgments : Dict D Int) (ranked : List D) (k : Nat) (relThreshold : Int) : R :=
  let relevant := (judgments.items.filter (relThreshold ≤ ·.2)).map Prod.fst
  if relevant.isEmpty then 0
  else (((ranked.take k).filter (· ∈ relevant)).length : R) / (relevant.length : R)

variable [LT D] [DecidableLT D] [LT S] [DecidableLT S] [Neg S] [DecidableEq Qid]

def ndcgAtK (log2 : Nat → R) (qrels : Qrels Qid D) (run : Run Qid D S) (k : Nat) : Dict Qid R :=
  qrels.mapItems fun qid judgments => ndcgOf log2 judgments (rankedDocids (run.getD qid Dict.empty)) k

def mrrAtK (qrels : Qrels Qid D) (run : Run Qid D S) (k : Nat) (relThreshold : Int) : Dict Qid R :=
  qrels.mapItems fun qid judgments => mrrOf judgments (rankedDocids (run.getD qid Dict.empty)) k relThreshold

def recallAtK (qrels : Qrels Qid D) (run : Run Qid D S) (k : Nat) (relThreshold : Int) : Dict Qid R :=
  qrels.mapItems fun qid judgments => recallOf judgments (rankedDocids (run.getD qid Dict.empty)) k relThreshold

end Arithmetic

end CascadeSearch.Harness.Metrics
