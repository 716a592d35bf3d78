import CascadeSearch.Dense.Fusion
import CascadeSearch.Harness.Evaluation
import CascadeSearch.Lib.StableSort
import CascadeSearch.Rank.Training

/-!
# The cascade (`phase4_driver.py`, `run_prerank_and_consistency`)

The candidates of a query are scored by the cheap model and by the expensive one;
the run that is evaluated keeps the expensive scores of the first candidates of
the cheap one. What the two models answer is a parameter.
-/
namespace CascadeSearch.Rank.Cascade

open Lib.Mapping Lib.Sorted Lib.Fallible Lib.StableSort
open Harness.Metrics Harness.Evaluation Training
open Dense.Fusion (Untied)

variable {Qid D F L S V X : Type*} [DecidableEq Qid] [DecidableEq D]

structure FeatureScaler (F : Type*) where
  mean : FeatureVector F
  std : FeatureVector F

def scaled [Zero F] [Sub F] [Div F] [DecidableEq F] (value mean std : F) : F :=
  if std = 0 then 0 else (value - mean) / std

def FeatureScaler.transform [Zero F] [Sub F] [Div F] [DecidableEq F] (scaler : FeatureScaler F) (vector : FeatureVector F) :
    FeatureVector F :=
  (scaled vector.1 scaler.mean.1 scaler.std.1, scaled vector.2.1 scaler.mean.2.1 scaler.std.2.1,
    scaled vector.2.2 scaler.mean.2.2 scaler.std.2.2)

/-- `sorted(entries, key=lambda kv: kv[1], reverse=True)`. -/
def byScore [LT S] [DecidableLT S] (entries : List (D × S)) : List (D × S) := sortedReverse (fun a b => a.2 < b.2) entries

inductive CascadeError where
  | keyError
  | valueError
  | zeroDivision
  | assertion

/-- What both models are asked with. -/
structure Models (Qid D F L S X : Type*) where
  denseScores : Dict (Qid × D) F
  docLengths : Dict (Qid × D) Int
  toFloat : Int → F
  scaler : FeatureScaler F
  mlp : List (FeatureVector F) → List L
  candidateTexts : Dict D X
  crossEncoder : List (X × X) → List S
  chunkSize : Nat

namespace Models

variable [Zero F] [Sub F] [Div F] [DecidableEq F] [LT L] [DecidableLT L] (models : Models Qid D F L S X)

def scoreCandidates (queryFeatures : Dict D (FeatureVector F)) : Dict D L :=
  Dict.ofList (queryFeatures.keys.zip (models.mlp (queryFeatures.values.map models.scaler.transform)))

/-- The item of a candidate. -/
def featuresOf (qid : Qid) (doc : D × F) : Except CascadeError (D × FeatureVector F) :=
  match models.denseScores.get? (qid, doc.1), models.docLengths.get? (qid, doc.1) with
  | some denseScore, some docLength => .ok (doc.1, buildFeatureVector models.toFloat doc.2 denseScore docLength)
  | _, _ => .error .keyError

def queryFeatures (qid : Qid) (candidates : Dict D F) : Except CascadeError (Dict D (FeatureVector F)) :=
  (candidates.items.mapM (models.featuresOf qid)).map Dict.ofList

def survivorsForQuery (qid : Qid) (candidates : Dict D F) (topK : Nat) : Except CascadeError (List D) :=
  (models.queryFeatures qid candidates).map fun features =>
    ((byScore (models.scoreCandidates features).items).take topK).map Prod.fst

omit [DecidableEq Qid] [DecidableEq D] [Zero F] [Sub F] [Div F] [DecidableEq F] [LT L] [DecidableLT L] in
/-- `CrossEncoderSession.score`: the loop over `range(0, len(pairs), chunk_size)`. -/
def score (pairs : List (X × X)) : Except CascadeError (List S) :=
  if models.chunkSize = 0 then .error .valueError
  else .ok ((List.range ((pairs.length + models.chunkSize - 1) / models.chunkSize)).flatMap fun i =>
    models.crossEncoder ((pairs.drop (i * models.chunkSize)).take models.chunkSize))

omit [Zero F] [Sub F] [Div F] [DecidableEq F] [LT L] [DecidableLT L] in
def pairs (queries : Dict Qid X) (qid : Qid) (docids : List D) : Except CascadeError (List (X × X)) :=
  docids.mapM fun docid =>
    match queries.get? qid, models.candidateTexts.get? docid with
    | some query, some passage => .ok (query, passage)
    | _, _ => .error .keyError

end Models

/-- What the inner loop makes of a query: the scores of all candidates, the first of
them, the survivors and their scores. -/
structure Reranked (D S : Type*) where
  allScores : List (D × S)
  trueTopK : List D
  survivors : List D
  fused : Dict D S

def prerankConsistency [Zero V] [Div V] [NatCast V] (trueTopK survivors : List D) : V :=
  if trueTopK.isEmpty then 0 else (trueTopK.countP (· ∈ survivors) : V) / (trueTopK.length : V)

structure QuerySet (Qid D F X : Type*) where
  run : Run Qid D F
  qrels : Qrels Qid D
  queries : Dict Qid X

section Driver

variable [Zero F] [Sub F] [Div F] [DecidableEq F] [LT L] [DecidableLT L] [LT S] [DecidableLT S]

def rerank (models : Models Qid D F L S X) (crossEncoderK : Nat) (queries : Dict Qid X) (qid : Qid) (candidates : Dict D F) :
    Except CascadeError (Reranked D S) :=
  (models.pairs queries qid candidates.keys).bind fun pairs =>
    (models.score pairs).bind fun scores =>
      (models.survivorsForQuery qid candidates crossEncoderK).map fun survivors =>
        let allScores := candidates.keys.zip scores
        { allScores := allScores
          trueTopK := ((byScore allScores).take crossEncoderK).map Prod.fst
          survivors := survivors
          fused := Dict.ofList (allScores.filter (·.1 ∈ survivors)) }

/-- What the loops over the query sets have collected. -/
structure Collected (Qid D S V : Type*) where
  consistencyScores : List V := []
  fusedQrels : Qrels Qid D := Dict.empty
  fusedRun : Run Qid D S := Dict.empty

variable [Zero V] [Div V] [NatCast V]

def addQuery (models : Models Qid D F L S X) (crossEncoderK : Nat) (queries : Dict Qid X) (collected : Collected Qid D S V)
    (entry : Qid × Dict D F) : Except CascadeError (Collected Qid D S V) :=
  (rerank models crossEncoderK queries entry.1 entry.2).map fun reranked =>
    { collected with
      consistencyScores := collected.consistencyScores ++ [prerankConsistency reranked.trueTopK reranked.survivors]
      fusedRun := collected.fusedRun.set entry.1 reranked.fused }

def addQuerySet (models : Models Qid D F L S X) (crossEncoderK : Nat) (collected : Collected Qid D S V)
    (querySet : QuerySet Qid D F X) : Except CascadeError (Collected Qid D S V) :=
  querySet.run.items.foldlM (addQuery models crossEncoderK querySet.queries)
    { collected with
      fusedQrels := querySet.qrels.items.foldl (fun qrels item => qrels.set item.1 item.2) collected.fusedQrels }

def collect (models : Models Qid D F L S X) (crossEncoderK : Nat) (querySets : List (QuerySet Qid D F X)) :
    Except CascadeError (Collected Qid D S V) :=
  querySets.foldlM (addQuerySet models crossEncoderK) {}

structure CascadeResult (Qid V : Type*) where
  meanPrerankConsistency : V
  numQueries : Nat
  evalResult : EvalResult Qid V

end Driver

/-- After the loops: the mean consistency, and the evaluation with its assertion. -/
def report [LT D] [DecidableLT D] [LT S] [DecidableLT S] [Neg S] [Zero V] [One V] [Add V] [Div V] [IntCast V] [NatCast V]
    [DecidableEq V] (log2 : Nat → V) (crossEncoderK : Nat) (collected : Collected Qid D S V) :
    Except CascadeError (CascadeResult Qid V) :=
  if collected.consistencyScores.isEmpty then .error .zeroDivision
  else
    let evalResult := evaluate log2 collected.fusedQrels collected.fusedRun [10] [10] [crossEncoderK] 2
    if evalResult.shallowMetrics.isEmpty then
      .ok {
        meanPrerankConsistency := total collected.consistencyScores / (collected.consistencyScores.length : V)
        numQueries := collected.consistencyScores.length
        evalResult := evalResult }
    else .error .assertion

section Facts

variable [Zero F] [Sub F] [Div F] [DecidableEq F] [LT L] [DecidableLT L] [LT S] [DecidableLT S]
variable {models : Models Qid D F L S X} {crossEncoderK : Nat} {queries : Dict Qid X} {qid : Qid} {candidates : Dict D F}

/-- What `rerank` leaves: scores for the candidates, as many true and pre-ranked
documents as there can be, and the scores of the latter. -/
structure Sound (crossEncoderK : Nat) (candidates : Dict D F) (r : Reranked D S) : Prop where
  scored : r.allScores.map Prod.fst = candidates.keys
  trueTopK : r.trueTopK = ((byScore r.allScores).take crossEncoderK).map Prod.fst
  nodup : r.survivors.Nodup
  length : r.survivors.length = min crossEncoderK candidates.items.length
  subset : r.survivors ⊆ candidates.keys
  fused : r.fused.items = r.allScores.filter (·.1 ∈ r.survivors)

end Facts

section Ranking

variable [LT D] [DecidableLT D] [IsStrictWeakOrder D (· < ·)] [LT S] [DecidableLT S] [IsStrictWeakOrder S (· < ·)] [Neg S]

omit [DecidableEq D] [DecidableLT D] in
instance negStrWeakOrder : IsStrictWeakOrder D negStrLt := inferInstanceAs (IsStrictWeakOrder D (Function.swap (· < ·)))

omit [DecidableEq D] [DecidableLT D] [DecidableLT S] in
instance ranksWeakOrder : IsStrictWeakOrder (D × S) ranksLt :=
  inferInstanceAs (IsStrictWeakOrder (D × S) (Function.onFun (pairLt (· < ·) negStrLt) fun doc => (-doc.2, doc.1)))

end Ranking

section Counting

variable {top survivors : List D}

end Counting

/-- What the expensive model alone would be evaluated on. -/
def Reranked.full (r : Reranked D S) : Dict D S := Dict.ofList r.allScores

def relevantIn (judgments : Dict D Int) (relThreshold : Int) : List D :=
  (judgments.items.filter (relThreshold ≤ ·.2)).map Prod.fst

section Agreement

variable [LT D] [DecidableLT D] [IsStrictWeakOrder D (· < ·)] [LT S] [DecidableLT S] [IsStrictWeakOrder S (· < ·)] [Neg S]
variable [LinearOrder V] [Field V] [IsStrictOrderedRing V]

/-- The survivors are ranked as all candidates are. The consistency is 1 if they are
the true first ones; without ties, the share that is missing bounds the change of
recall; and no metric changes that looks at survivors only. -/
structure Agrees (V : Type*) [LinearOrder V] [Field V] (crossEncoderK : Nat) (candidates : Dict D F) (r : Reranked D S) :
    Prop where
  ranked : rankedDocids r.fused = (rankedDocids r.full).filter (· ∈ r.survivors)
  size : r.fused.items.length = min crossEncoderK candidates.items.length
  unit : 0 ≤ (prerankConsistency r.trueTopK r.survivors : V) ∧ (prerankConsistency r.trueTopK r.survivors : V) ≤ 1
  consistent : 0 < crossEncoderK → candidates.items ≠ [] →
    ((prerankConsistency r.trueTopK r.survivors : V) = 1 ↔ ∀ docid, docid ∈ r.trueTopK ↔ docid ∈ r.survivors)
  recall_close : Untied r.full → ∀ judgments relThreshold,
    |recallOf judgments (rankedDocids r.full) crossEncoderK relThreshold -
        recallOf judgments (rankedDocids r.fused) crossEncoderK relThreshold| *
      ((relevantIn judgments relThreshold).length : V) ≤
        (1 - prerankConsistency r.trueTopK r.survivors) * (r.trueTopK.length : V)
  same : ∀ m, (∀ docid ∈ (rankedDocids r.full).take m, docid ∈ r.survivors) → ∀ k ≤ m, ∀ judgments,
    (∀ log2 : Nat → V, ndcgOf log2 judgments (rankedDocids r.fused) k = ndcgOf log2 judgments (rankedDocids r.full) k) ∧
    ∀ relThreshold,
      (mrrOf judgments (rankedDocids r.fused) k relThreshold : V) = mrrOf judgments (rankedDocids r.full) k relThreshold ∧
      (recallOf judgments (rankedDocids r.fused) k relThreshold : V) =
        recallOf judgments (rankedDocids r.full) k relThreshold

variable {crossEncoderK : Nat} {candidates : Dict D F} {r : Reranked D S}

end Agreement

section EveryQuery

variable [LT S] [DecidableLT S] [Zero V] [Div V] [NatCast V] {crossEncoderK : Nat}
variable [Zero F] [Sub F] [Div F] [DecidableEq F] [LT L] [DecidableLT L] {models : Models Qid D F L S X}
variable {querySets : List (QuerySet Qid D F X)} {collected : Collected Qid D S V}

end EveryQuery

section Report

variable [LT D] [DecidableLT D] [IsStrictWeakOrder D (· < ·)] [LT S] [DecidableLT S] [IsStrictWeakOrder S (· < ·)] [Neg S]
variable [LinearOrder V] [Field V] [IsStrictOrderedRing V] [Zero F] [Sub F] [Div F] [DecidableEq F] [LT L] [DecidableLT L]

end Report

end CascadeSearch.Rank.Cascade
