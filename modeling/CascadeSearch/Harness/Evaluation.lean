import CascadeSearch.Harness.Ndcg
import CascadeSearch.Harness.RunFile
import Mathlib.Algebra.Order.BigOperators.Group.List

/-!
# Evaluation results (`metrics.py`, `evaluate`)

Every metric that is asked for, for every judged query and on average, and which
of them ask for more documents than the run has.
-/
namespace CascadeSearch.Harness.Evaluation

open Lib.Mapping Lib.Sorted
open Metrics RunFile
open Lib.TextFile (Text)

variable {Qid D S R : Type*}

inductive Metric where
  | ndcgCut (k : Nat)
  | mrr (k : Nat)
  | recallAt (k : Nat)

def Metric.name : Metric → Text
  | .ndcgCut k => ['n', 'd', 'c', 'g', '_', 'c', 'u', 't', '_'] ++ decimalText k
  | .mrr k => ['m', 'r', 'r', '_'] ++ decimalText k
  | .recallAt k => ['r', 'e', 'c', 'a', 'l', 'l', '_'] ++ decimalText k

def Metric.cutoff : Metric → Nat
  | .ndcgCut k | .mrr k | .recallAt k => k

structure EvalResult (Qid R : Type*) where
  mean : Dict Text R
  perQuery : Dict Text (Dict Qid R)
  runDepth : Nat
  numQueries : Nat
  relThreshold : Int
  shallowMetrics : List Text

/-- The three loops over the cutoffs, in this order. -/
def requested (ndcgK mrrK recallK : List Nat) : List Metric :=
  ndcgK.map .ndcgCut ++ mrrK.map .mrr ++ recallK.map .recallAt

/-- `max((len(docs) for docs in run.values()), default=0)`. -/
def runDepthOf (run : Run Qid D S) : Nat := (run.values.map fun docs => docs.items.length).foldl max 0

section Evaluate

variable [DecidableEq D] [Zero R] [One R] [Add R] [Div R] [IntCast R] [NatCast R] [DecidableEq R]
variable [LT D] [DecidableLT D] [LT S] [DecidableLT S] [Neg S] [DecidableEq Qid]

def scoresOf (log2 : Nat → R) (qrels : Qrels Qid D) (run : Run Qid D S) (relThreshold : Int) : Metric → Dict Qid R
  | .ndcgCut k => ndcgAtK log2 qrels run k
  | .mrr k => mrrAtK qrels run k relThreshold
  | .recallAt k => recallAtK qrels run k relThreshold

def meanOf (scores : Dict Qid R) : R :=
  if scores.items.isEmpty then 0 else total scores.values / (scores.items.length : R)

def evaluate (log2 : Nat → R) (qrels : Qrels Qid D) (run : Run Qid D S) (ndcgK mrrK recallK : List Nat)
    (relThreshold : Int) : EvalResult Qid R :=
  let perQuery := Dict.ofList
    ((requested ndcgK mrrK recallK).map fun metric => (metric.name, scoresOf log2 qrels run relThreshold metric))
  { mean := perQuery.mapItems fun _ scores => meanOf scores
    perQuery := perQuery
    runDepth := runDepthOf run
    numQueries := qrels.items.length
    relThreshold := relThreshold
    shallowMetrics := ((requested ndcgK mrrK recallK).filter (runDepthOf run < ·.cutoff)).map Metric.name }

end Evaluate

section Ranked

variable [LT D] [DecidableLT D] [LT S] [DecidableLT S] [Neg S]

end Ranked

section Values

variable [LinearOrder R] [Field R] [IsStrictOrderedRing R] [DecidableEq D] {judgments : Dict D Int} {ranked : List D}
variable {k : Nat} {relThreshold : Int}

/-- One judged document, which is relevant. -/
def only (docid : D) (relThreshold : Int) : Dict D Int := ⟨[(docid, relThreshold)], List.nodup_singleton _⟩

end Values

section Trusted

variable [LinearOrder R] [Field R] [IsStrictOrderedRing R] [DecidableEq Qid] [DecidableEq D] [LT D] [DecidableLT D]
  [LT S] [DecidableLT S] [Neg S]

variable {log2 : Nat → R} {qrels : Qrels Qid D} {run : Run Qid D S} {relThreshold : Int}

end Trusted

end CascadeSearch.Harness.Evaluation
