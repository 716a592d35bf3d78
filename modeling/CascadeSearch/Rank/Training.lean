import CascadeSearch.Lib.Fallible
import CascadeSearch.Lib.Mapping
import Mathlib.Algebra.Order.Ring.Rat
import Mathlib.Data.List.Perm.Basic

/-!
# Training examples (`prerank_mlp.py`, `prerank_features.py`)

One positive and some sampled negatives for each query with a judged-relevant
candidate. The sampler is a parameter: what `rng.choice` returns for the pool of
a query. Missing keys and negative sample sizes are errors, as in Python.
-/
namespace CascadeSearch.Rank.Training

open Lib.Mapping Lib.Fallible

variable {Qid Docid R : Type*} [DecidableEq Qid] [DecidableEq Docid]

inductive TrainingError (Qid Docid : Type*) where
  | keyError (key : Qid × Docid)
  | valueError
deriving DecidableEq

abbrev FeatureVector (R : Type*) := R × R × R

def buildFeatureVector (toFloat : Int → R) (bm25Score denseScore : R) (docLength : Int) : FeatureVector R :=
  (bm25Score, denseScore, toFloat docLength)

/-- What is appended to `features` and `labels` in one round, and for which document. -/
structure Example (Qid Docid R : Type*) where
  qid : Qid
  docid : Docid
  features : FeatureVector R
  label : ℚ

/-- What the loop reads: the run, the judgments, the features. -/
structure Inputs (Qid Docid R : Type*) where
  devRun : Dict Qid (Dict Docid R)
  devQrels : Dict Qid (Dict Docid Int)
  denseScores : Dict (Qid × Docid) R
  docLengths : Dict (Qid × Docid) Int
  toFloat : Int → R
  numNegatives : Int

namespace Inputs

variable (inputs : Inputs Qid Docid R)

def available (qid : Qid) (candidates : Dict Docid R) : List Docid :=
  candidates.keys.filter fun docid => (qid, docid) ∈ inputs.denseScores

/-- `judgments.get(docid, 0) > 0`. -/
def relevant (qid : Qid) (docid : Docid) : Bool :=
  0 < (inputs.devQrels.getD qid Dict.empty).getD docid 0

def buildExample (qid : Qid) (candidates : Dict Docid R) (docid : Docid) (label : ℚ) :
    Except (TrainingError Qid Docid) (Example Qid Docid R) :=
  match candidates.get? docid, inputs.denseScores.get? (qid, docid), inputs.docLengths.get? (qid, docid) with
  | some bm25Score, some denseScore, some docLength =>
      .ok ⟨qid, docid, buildFeatureVector inputs.toFloat bm25Score denseScore docLength, label⟩
  | _, _, _ => .error (.keyError (qid, docid))

def positives (qid : Qid) (candidates : Dict Docid R) : List Docid :=
  (inputs.available qid candidates).filter (inputs.relevant qid)

def negativePool (qid : Qid) (candidates : Dict Docid R) (positive : Docid) : List Docid :=
  (inputs.available qid candidates).filter (· ≠ positive)

def sampleSize (pool : List Docid) : Int := min inputs.numNegatives pool.length

/-- The documents of a query's examples and their labels. -/
def labelled (positive : Docid) (negatives : List Docid) : List (Docid × ℚ) :=
  (positive, 1) :: negatives.map fun docid => (docid, 0)

/-- One round of the loop over the queries. -/
def queryExamples (choice : Qid → List Docid → Nat → List Docid) (qid : Qid) (candidates : Dict Docid R) :
    Except (TrainingError Qid Docid) (List (Example Qid Docid R)) :=
  match inputs.positives qid candidates with
  | [] => .ok []
  | positive :: _ =>
      let pool := inputs.negativePool qid candidates positive
      if inputs.sampleSize pool < 0 then .error .valueError
      else (labelled positive (choice qid pool (inputs.sampleSize pool).toNat)).mapM fun x =>
        inputs.buildExample qid candidates x.1 x.2

/-- The loop over the queries. -/
def examples (choice : Qid → List Docid → Nat → List Docid) :
    Except (TrainingError Qid Docid) (List (Example Qid Docid R)) :=
  (inputs.devRun.items.mapM fun query => inputs.queryExamples choice query.1 query.2).map List.flatten

def buildTrainingExamples (choice : Qid → List Docid → Nat → List Docid) :
    Except (TrainingError Qid Docid) (List (FeatureVector R) × List ℚ) :=
  (inputs.examples choice).map fun found => (found.map Example.features, found.map Example.label)

end Inputs

/-- The sampler returns the requested number of distinct elements of the pool. -/
def Samples (choice : Qid → List Docid → Nat → List Docid) : Prop :=
  ∀ qid pool size, pool.Nodup → size ≤ pool.length →
    (choice qid pool size).length = size ∧ (choice qid pool size).Nodup ∧ choice qid pool size ⊆ pool

variable (inputs : Inputs Qid Docid R)

/-- The examples of one query agree with its judgments. -/
structure AgreesOn (qid : Qid) (candidates : Dict Docid R) (group : List (Example Qid Docid R)) : Prop where
  negative : ∀ x ∈ group, x.label = 0 → inputs.relevant qid x.docid = false
  none : inputs.positives qid candidates = [] → group = []
  one : inputs.positives qid candidates ≠ [] →
    ∃ positive ∈ inputs.positives qid candidates, (group.filter (·.label = 1)).map Example.docid = [positive]
  negatives : inputs.positives qid candidates ≠ [] →
    ((group.filter (·.label = 0)).length : Int) =
      min inputs.numNegatives ((inputs.available qid candidates).filter (! inputs.relevant qid ·)).length

/-- The examples agree with the judgments, query by query, and no other query has any. -/
structure Agrees (examples : List (Example Qid Docid R)) : Prop where
  queries : ∀ query ∈ inputs.devRun.items,
    AgreesOn inputs query.1 query.2 (examples.filter (·.qid = query.1))
  others : ∀ x ∈ examples, x.qid ∈ inputs.devRun

/-- What the code needs of a query with a judged-relevant candidate: the length of
the first one, and, if negatives are asked for, no second one and all lengths. -/
def Fits (qid : Qid) (candidates : Dict Docid R) : Prop :=
  ∀ positive ∈ (inputs.positives qid candidates).head?,
    0 ≤ inputs.numNegatives ∧ (qid, positive) ∈ inputs.docLengths ∧
      (0 < inputs.numNegatives → inputs.positives qid candidates = [positive] ∧
        ∀ docid ∈ inputs.available qid candidates, (qid, docid) ∈ inputs.docLengths)

variable {inputs} {qid : Qid} {candidates : Dict Docid R}

theorem mem_available {docid : Docid} : docid ∈ inputs.available qid candidates ↔
    docid ∈ candidates ∧ (qid, docid) ∈ inputs.denseScores := by
  rw [Inputs.available, List.mem_filter, decide_eq_true_iff]
  exact Iff.rfl

theorem nodup_available : (inputs.available qid candidates).Nodup := candidates.nodup.filter _

/-- A document and its label become an example exactly if the length is known. -/
theorem buildExample_ok_iff {docid : Docid} {label : ℚ} (h : docid ∈ inputs.available qid candidates) :
    (∃ x, inputs.buildExample qid candidates docid label = .ok x) ↔ (qid, docid) ∈ inputs.docLengths := by
  obtain ⟨hcandidate, hdense⟩ := mem_available.mp h
  obtain ⟨bm25Score, hbm25⟩ := Option.isSome_iff_exists.mp (Dict.get?_isSome_iff.mpr hcandidate)
  obtain ⟨denseScore, hscore⟩ := Option.isSome_iff_exists.mp (Dict.get?_isSome_iff.mpr hdense)
  rw [← Dict.get?_isSome_iff, Inputs.buildExample, hbm25, hscore]
  cases inputs.docLengths.get? (qid, docid) <;> simp

theorem buildExample_spec {docid : Docid} {label : ℚ} {x : Example Qid Docid R}
    (h : inputs.buildExample qid candidates docid label = .ok x) :
    x.qid = qid ∧ (x.docid, x.label) = (docid, label) := by
  unfold Inputs.buildExample at h
  split at h
  · cases h
    exact ⟨rfl, rfl⟩
  · cases h

omit [DecidableEq Docid] in
theorem map_labelled_fst (positive : Docid) (negatives : List Docid) :
    (Inputs.labelled positive negatives).map Prod.fst = positive :: negatives := by
  rw [Inputs.labelled, List.map_cons, List.map_map]
  exact congrArg (positive :: ·) (List.map_id negatives)

/-- The negatives are as many as asked for and come from the pool. -/
theorem Samples.spec {choice : Qid → List Docid → Nat → List Docid} (hchoice : Samples choice) {positive : Docid}
    {pool negatives : List Docid} (hpool : inputs.negativePool qid candidates positive = pool)
    (hnegatives : choice qid pool (inputs.sampleSize pool).toNat = negatives) :
    negatives.length = (inputs.sampleSize pool).toNat ∧ negatives ⊆ pool := by
  have hsize : (inputs.sampleSize pool).toNat ≤ pool.length := by
    rw [Inputs.sampleSize]
    omega
  obtain ⟨hlength, -, hsubset⟩ := hchoice qid pool _ (hpool ▸ nodup_available.filter _) hsize
  rw [hnegatives] at hlength hsubset
  exact ⟨hlength, hsubset⟩

/-- The examples of a query with a judged-relevant candidate are there exactly if
all lengths are known. -/
theorem queryExamples_ok_iff {choice : Qid → List Docid → Nat → List Docid} (hchoice : Samples choice)
    {positive : Docid} {others pool negatives : List Docid}
    (hpositives : inputs.positives qid candidates = positive :: others)
    (hpool : inputs.negativePool qid candidates positive = pool)
    (hnegatives : choice qid pool (inputs.sampleSize pool).toNat = negatives) :
    (∃ group, inputs.queryExamples choice qid candidates = .ok group) ↔
      0 ≤ inputs.numNegatives ∧ ∀ docid ∈ positive :: negatives, (qid, docid) ∈ inputs.docLengths := by
  have hsize : inputs.sampleSize pool < 0 ↔ inputs.numNegatives < 0 := by
    rw [Inputs.sampleSize]
    omega
  rw [Inputs.queryExamples, hpositives]
  dsimp only
  rw [hpool, hnegatives]
  by_cases hneg : inputs.numNegatives < 0
  · rw [if_pos (hsize.mpr hneg)]
    exact iff_of_false (by simp) fun h => absurd h.1 (not_le.mpr hneg)
  · rw [if_neg (mt hsize.mp hneg)]
    have havailable : ∀ docid ∈ positive :: negatives, docid ∈ inputs.available qid candidates := by
      have hsubset := (hchoice.spec hpool hnegatives).2
      intro docid hdocid
      rcases List.mem_cons.mp hdocid with rfl | hdocid
      · have hmem : docid ∈ inputs.positives qid candidates := by
          rw [hpositives]
          exact List.mem_cons_self
        exact (List.mem_filter.mp hmem).1
      · have hmem := hsubset hdocid
        rw [← hpool] at hmem
        exact (List.mem_filter.mp hmem).1
    rw [← map_labelled_fst positive negatives] at havailable ⊢
    simp only [mapM_ok_iff]
    constructor
    · rintro ⟨group, hgroup⟩
      refine ⟨not_lt.mp hneg, fun docid hdocid => ?_⟩
      obtain ⟨pair, hpair, rfl⟩ := List.mem_map.mp hdocid
      obtain ⟨x, -, hx⟩ := exists_right hgroup hpair
      exact (buildExample_ok_iff (havailable pair.1 hdocid)).mp ⟨x, hx⟩
    · rintro ⟨-, hlengths⟩
      refine exists_forall₂ fun pair hpair => ?_
      have hdocid := List.mem_map_of_mem (f := Prod.fst) hpair
      exact (buildExample_ok_iff (havailable pair.1 hdocid)).mpr (hlengths pair.1 hdocid)

/-- And then they are the labelled documents. -/
theorem queryExamples_spec {choice : Qid → List Docid → Nat → List Docid} {positive : Docid}
    {others pool negatives : List Docid} {group : List (Example Qid Docid R)}
    (hpositives : inputs.positives qid candidates = positive :: others)
    (hpool : inputs.negativePool qid candidates positive = pool)
    (hnegatives : choice qid pool (inputs.sampleSize pool).toNat = negatives)
    (hgroup : inputs.queryExamples choice qid candidates = .ok group) :
    group.map (fun x => (x.docid, x.label)) = Inputs.labelled positive negatives := by
  rw [Inputs.queryExamples, hpositives] at hgroup
  dsimp only at hgroup
  rw [hpool, hnegatives] at hgroup
  split at hgroup
  · cases hgroup
  · have hforall := mapM_ok_iff.mp hgroup
    clear hgroup
    generalize Inputs.labelled positive negatives = pairs at hforall
    induction hforall with
    | nil => rfl
    | cons hx _ ih => rw [List.map_cons, ih, (buildExample_spec hx).2]

theorem queryExamples_qid {choice : Qid → List Docid → Nat → List Docid} {group : List (Example Qid Docid R)}
    (hgroup : inputs.queryExamples choice qid candidates = .ok group) : ∀ x ∈ group, x.qid = qid := by
  rw [Inputs.queryExamples] at hgroup
  split at hgroup
  · cases hgroup
    exact fun x hx => absurd hx List.not_mem_nil
  · dsimp only at hgroup
    split at hgroup
    · cases hgroup
    · intro x hx
      obtain ⟨pair, -, hpair⟩ := exists_left (mapM_ok_iff.mp hgroup) hx
      exact (buildExample_spec hpair).1

section Labels

omit [DecidableEq Docid]

theorem filter_labelled_one (positive : Docid) (negatives : List Docid) :
    (Inputs.labelled positive negatives).filter (·.2 = 1) = [(positive, 1)] := by
  rw [Inputs.labelled, List.filter_cons_of_pos (by simp), List.filter_eq_nil_iff.mpr]
  simp

theorem filter_labelled_zero (positive : Docid) (negatives : List Docid) :
    (Inputs.labelled positive negatives).filter (·.2 = 0) = negatives.map fun docid => (docid, 0) := by
  rw [Inputs.labelled, List.filter_cons_of_neg (by simp), List.filter_eq_self.mpr]
  simp

end Labels

/-- Without a second judged-relevant document the pool is what is not relevant. -/
theorem negativePool_eq {positive : Docid} (h : inputs.positives qid candidates = [positive]) :
    inputs.negativePool qid candidates positive =
      (inputs.available qid candidates).filter (! inputs.relevant qid ·) := by
  refine List.filter_congr fun docid hdocid => ?_
  have hmem : docid ∈ inputs.positives qid candidates ↔ inputs.relevant qid docid = true :=
    List.mem_filter.trans (and_iff_right hdocid)
  rw [h, List.mem_singleton] at hmem
  by_cases hp : docid = positive
  · simp [hp, hp ▸ hmem.mp hp]
  · simp [hp, mt hmem.mpr hp]

/-- Where the query fits, what is sampled is not relevant and its length is known. -/
theorem Fits.negatives_irrelevant {choice : Qid → List Docid → Nat → List Docid} (h : Fits inputs qid candidates)
    (hchoice : Samples choice) {positive : Docid} {others pool negatives : List Docid}
    (hpositives : inputs.positives qid candidates = positive :: others)
    (hpool : inputs.negativePool qid candidates positive = pool)
    (hnegatives : choice qid pool (inputs.sampleSize pool).toNat = negatives) :
    ∀ docid ∈ negatives, inputs.relevant qid docid = false ∧ (qid, docid) ∈ inputs.docLengths := by
  obtain ⟨-, -, hmore⟩ := h positive (by rw [hpositives]; rfl)
  obtain ⟨hcount, hsubset⟩ := hchoice.spec hpool hnegatives
  intro docid hdocid
  have hpos : 0 < inputs.numNegatives := by
    have hlength := List.length_pos_of_mem hdocid
    rw [hcount, Inputs.sampleSize] at hlength
    omega
  obtain ⟨hone, hlengths⟩ := hmore hpos
  have hmem := hsubset hdocid
  rw [← hpool, negativePool_eq hone, List.mem_filter] at hmem
  exact ⟨by simpa using hmem.2, hlengths docid hmem.1⟩

theorem agreesOn_of_fits {choice : Qid → List Docid → Nat → List Docid} (hchoice : Samples choice)
    (h : Fits inputs qid candidates) :
    ∃ group, inputs.queryExamples choice qid candidates = .ok group ∧ AgreesOn inputs qid candidates group := by
  cases hpositives : inputs.positives qid candidates with
  | nil =>
    refine ⟨[], by rw [Inputs.queryExamples, hpositives], ?_, fun _ => rfl, ?_, ?_⟩
    · exact fun x hx => absurd hx List.not_mem_nil
    · exact fun hne => absurd hpositives hne
    · exact fun hne => absurd hpositives hne
  | cons positive others =>
    obtain ⟨hzero, hlength, hmore⟩ := h positive (by rw [hpositives]; rfl)
    generalize hpool : inputs.negativePool qid candidates positive = pool
    generalize hnegatives : choice qid pool (inputs.sampleSize pool).toNat = negatives
    have hcount := (hchoice.spec hpool hnegatives).1
    have hirrelevant := h.negatives_irrelevant hchoice hpositives hpool hnegatives
    obtain ⟨group, hgroup⟩ := (queryExamples_ok_iff hchoice hpositives hpool hnegatives).mpr
      ⟨hzero, List.forall_mem_cons.mpr ⟨hlength, fun docid hdocid => (hirrelevant docid hdocid).2⟩⟩
    have hpairs := queryExamples_spec hpositives hpool hnegatives hgroup
    have hfilter : ∀ label : ℚ, (group.filter (·.label = label)).map (fun x => (x.docid, x.label)) =
        (Inputs.labelled positive negatives).filter (·.2 = label) := fun label => by
      rw [← hpairs, List.filter_map]
      rfl
    refine ⟨group, hgroup, ?_, ?_, fun _ => ⟨positive, ?_, ?_⟩, fun _ => ?_⟩
    · intro x hx hlabel
      have hmem := List.mem_map_of_mem (f := fun x : Example Qid Docid R => (x.docid, x.label)) hx
      rw [hpairs, hlabel] at hmem
      rcases List.mem_cons.mp hmem with heq | hmem
      · exact absurd (congrArg Prod.snd heq) zero_ne_one
      · obtain ⟨docid, hdocid, heq⟩ := List.mem_map.mp hmem
        obtain ⟨rfl, -⟩ := Prod.mk.inj heq
        exact (hirrelevant _ hdocid).1
    · exact fun hnil => absurd (hpositives.symm.trans hnil) (List.cons_ne_nil _ _)
    · rw [hpositives]
      exact List.mem_cons_self
    · have hone := congrArg (List.map Prod.fst) (hfilter 1)
      rw [filter_labelled_one, List.map_map] at hone
      exact hone
    · have hnone := congrArg List.length (hfilter 0)
      rw [filter_labelled_zero, List.length_map, List.length_map, hcount] at hnone
      rw [hnone]
      rcases hzero.eq_or_lt with hnum | hpos
      · rw [Inputs.sampleSize, ← hnum]
        omega
      · rw [Inputs.sampleSize, ← hpool, negativePool_eq (hmore hpos).1]
        omega

/-- A sampler that prefers one document. -/
def preferring (docid : Docid) (_ : Qid) (pool : List Docid) (size : Nat) : List Docid :=
  (if docid ∈ pool then docid :: pool.erase docid else pool).take size

omit [DecidableEq Qid] in
theorem samples_preferring (docid : Docid) : Samples (preferring docid : Qid → List Docid → Nat → List Docid) := by
  intro qid pool size hnodup hsize
  have hperm : (if docid ∈ pool then docid :: pool.erase docid else pool).Perm pool := by
    split
    · rename_i hmem
      exact (List.perm_cons_erase hmem).symm
    · exact List.Perm.refl _
  refine ⟨?_, ?_, ?_⟩
  · rw [preferring, List.length_take, hperm.length_eq]
    omega
  · exact (hperm.nodup_iff.mpr hnodup).sublist (List.take_sublist _ _)
  · exact fun x hx => hperm.subset (List.mem_of_mem_take hx)

/-- What the outcome of the sampler that prefers a document shows of it. -/
theorem sampled_of_agreesOn {docid positive : Docid} {others : List Docid} {group : List (Example Qid Docid R)}
    (hpositives : inputs.positives qid candidates = positive :: others)
    (hgroup : inputs.queryExamples (preferring docid) qid candidates = .ok group)
    (hagrees : AgreesOn inputs qid candidates group) :
    0 ≤ inputs.numNegatives ∧ (qid, positive) ∈ inputs.docLengths ∧
      (0 < inputs.numNegatives → docid ∈ inputs.negativePool qid candidates positive →
        inputs.relevant qid docid = false ∧ (qid, docid) ∈ inputs.docLengths) := by
  obtain ⟨hzero, hlengths⟩ :=
    (queryExamples_ok_iff (samples_preferring docid) hpositives rfl rfl).mp ⟨group, hgroup⟩
  have hpairs := queryExamples_spec hpositives rfl rfl hgroup
  refine ⟨hzero, hlengths positive List.mem_cons_self, fun hpos hpool => ?_⟩
  have hdocid : docid ∈ preferring docid qid (inputs.negativePool qid candidates positive)
      (inputs.sampleSize (inputs.negativePool qid candidates positive)).toNat := by
    have hlen := List.length_pos_of_mem hpool
    obtain ⟨size, hsize⟩ : ∃ size, (inputs.sampleSize (inputs.negativePool qid candidates positive)).toNat = size + 1 := by
      refine Nat.exists_eq_succ_of_ne_zero ?_
      rw [Inputs.sampleSize]
      omega
    rw [preferring, if_pos hpool, hsize, List.take_succ_cons]
    exact List.mem_cons_self
  refine ⟨?_, hlengths docid (List.mem_cons_of_mem _ hdocid)⟩
  have hmem : (docid, (0 : ℚ)) ∈ group.map fun x => (x.docid, x.label) := by
    rw [hpairs]
    exact List.mem_cons_of_mem _ (List.mem_map_of_mem hdocid)
  obtain ⟨x, hx, heq⟩ := List.mem_map.mp hmem
  obtain ⟨rfl, hlabel⟩ := Prod.mk.inj heq
  exact hagrees.negative x hx hlabel

theorem fits_of_agreesOn (h : ∀ choice : Qid → List Docid → Nat → List Docid, Samples choice →
    ∃ group, inputs.queryExamples choice qid candidates = .ok group ∧ AgreesOn inputs qid candidates group) :
    Fits inputs qid candidates := by
  intro positive hhead
  obtain ⟨others, hpositives⟩ : ∃ others, inputs.positives qid candidates = positive :: others := by
    cases hlist : inputs.positives qid candidates with
    | nil => rw [hlist] at hhead; cases hhead
    | cons first others =>
      rw [hlist] at hhead
      cases hhead
      exact ⟨others, rfl⟩
  have hsampled : ∀ docid, 0 ≤ inputs.numNegatives ∧ (qid, positive) ∈ inputs.docLengths ∧
      (0 < inputs.numNegatives → docid ∈ inputs.negativePool qid candidates positive →
        inputs.relevant qid docid = false ∧ (qid, docid) ∈ inputs.docLengths) := by
    intro docid
    obtain ⟨group, hgroup, hagrees⟩ := h (preferring docid) (samples_preferring docid)
    exact sampled_of_agreesOn hpositives hgroup hagrees
  obtain ⟨hzero, hlength, -⟩ := hsampled positive
  refine ⟨hzero, hlength, fun hpos => ⟨?_, fun docid hdocid => ?_⟩⟩
  · cases others with
    | nil => exact hpositives
    | cons second others =>
      have hnodup : (positive :: second :: others).Nodup := hpositives ▸ nodup_available.filter _
      have hsecond : second ∈ inputs.positives qid candidates := by
        rw [hpositives]
        exact List.mem_cons_of_mem _ List.mem_cons_self
      obtain ⟨havailable, hrelevant⟩ := List.mem_filter.mp hsecond
      have hne : second ≠ positive := fun heq => (List.nodup_cons.mp hnodup).1 (heq ▸ List.mem_cons_self)
      have hpool : second ∈ inputs.negativePool qid candidates positive :=
        List.mem_filter.mpr ⟨havailable, by simpa using hne⟩
      rw [((hsampled second).2.2 hpos hpool).1] at hrelevant
      cases hrelevant
  · by_cases hp : docid = positive
    · rw [hp]
      exact hlength
    · exact ((hsampled docid).2.2 hpos (List.mem_filter.mpr ⟨hdocid, by simpa using hp⟩)).2

/-- Whatever the sampler returns, the training examples agree with the judgments
exactly if every query fits. -/
theorem labels_agree_iff (inputs : Inputs Qid Docid R) :
    (∀ choice : Qid → List Docid → Nat → List Docid, Samples choice → ∃ found, inputs.examples choice = .ok found ∧
      inputs.buildTrainingExamples choice = .ok (found.map Example.features, found.map Example.label) ∧
      Agrees inputs found) ↔ ∀ query ∈ inputs.devRun.items, Fits inputs query.1 query.2 := by
  have hgroups : ∀ {choice groups}, List.Forall₂
      (fun query group => inputs.queryExamples choice query.1 query.2 = .ok group) inputs.devRun.items groups →
      List.Forall₂ (fun query group => groups.flatten.filter (fun x => x.qid = query.1) = group)
        inputs.devRun.items groups := fun h =>
    filter_flatten (h.imp fun _ _ hgroup => queryExamples_qid hgroup) inputs.devRun.nodup
  constructor
  · intro hall query hquery
    refine fits_of_agreesOn fun choice hchoice => ?_
    obtain ⟨found, hfound, -, hagrees⟩ := hall choice hchoice
    obtain ⟨groups, hmap, rfl⟩ : ∃ groups, inputs.devRun.items.mapM
        (fun query => inputs.queryExamples choice query.1 query.2) = .ok groups ∧ groups.flatten = found := by
      rw [Inputs.examples] at hfound
      cases hmap : inputs.devRun.items.mapM fun query => inputs.queryExamples choice query.1 query.2 with
      | error e => rw [hmap] at hfound; cases hfound
      | ok groups =>
        rw [hmap] at hfound
        cases hfound
        exact ⟨groups, rfl, rfl⟩
    have hrounds := mapM_ok_iff.mp hmap
    obtain ⟨group, -, hgroup, hfilter⟩ := exists_right
      (List.Forall₂.mp (fun _ _ hround hfilter => And.intro hround hfilter) hrounds (hgroups hrounds)) hquery
    exact ⟨group, hgroup, hfilter ▸ hagrees.queries query hquery⟩
  · intro hfits choice hchoice
    obtain ⟨groups, hall⟩ := exists_forall₂ fun query hquery => agreesOn_of_fits hchoice (hfits query hquery)
    have hrounds := hall.imp fun _ _ hround => hround.1
    have hfound : inputs.examples choice = .ok groups.flatten := by
      rw [Inputs.examples, mapM_ok_iff.mpr hrounds]
      rfl
    refine ⟨groups.flatten, hfound, by rw [Inputs.buildTrainingExamples, hfound]; rfl, fun query hquery => ?_, ?_⟩
    · obtain ⟨group, -, hagrees, hfilter⟩ := exists_right
        (List.Forall₂.mp (fun _ _ hround hfilter => And.intro hround.2 hfilter) hall (hgroups hrounds)) hquery
      rw [hfilter]
      exact hagrees
    · intro x hx
      obtain ⟨group, hgroup, hx⟩ := List.mem_flatten.mp hx
      obtain ⟨query, hquery, hround⟩ := exists_left hrounds hgroup
      rw [queryExamples_qid hround x hx]
      exact List.mem_map_of_mem hquery

/-- Two judged-relevant candidates: the second is sampled as a negative. -/
theorem second_relevant_labelled_zero :
    ¬ ∀ (inputs : Inputs Nat Nat Int) (choice : Nat → List Nat → Nat → List Nat), Samples choice →
      ∃ found, inputs.examples choice = .ok found ∧ Agrees inputs found := by
  let inputs : Inputs Nat Nat Int :=
    { devRun := Dict.ofList [(7, Dict.ofList [(1, 9), (2, 5)])]
      devQrels := Dict.ofList [(7, Dict.ofList [(1, 1), (2, 1)])]
      denseScores := Dict.ofList [((7, 1), 3), ((7, 2), 3)]
      docLengths := Dict.ofList [((7, 1), 100), ((7, 2), 100)]
      toFloat := id
      numNegatives := 4 }
  intro hall
  obtain ⟨found, hfound, hagrees⟩ := hall inputs (preferring 2) (samples_preferring 2)
  have hquery : (7, Dict.ofList [(1, 9), (2, 5)]) ∈ inputs.devRun.items := List.mem_cons_self
  have hlabelled : (inputs.examples (preferring 2)).toOption.map (·.map fun x => (x.qid, x.docid, x.label)) =
      some [(7, 1, 1), (7, 2, 0)] := by
    decide +kernel
  rw [hfound] at hlabelled
  have hpairs : found.map (fun x => (x.qid, x.docid, x.label)) = [(7, 1, 1), (7, 2, 0)] := Option.some.inj hlabelled
  have hsecond : (7, 2, (0 : ℚ)) ∈ found.map fun x => (x.qid, x.docid, x.label) := by
    rw [hpairs]
    exact List.mem_cons_of_mem _ List.mem_cons_self
  obtain ⟨x, hx, heq⟩ := List.mem_map.mp hsecond
  obtain ⟨hqid, hdocid, hlabel⟩ : x.qid = 7 ∧ x.docid = 2 ∧ x.label = 0 := by simpa using heq
  have hnegative := (hagrees.queries _ hquery).negative x (List.mem_filter.mpr ⟨hx, by simpa using hqid⟩) hlabel
  rw [hdocid] at hnegative
  revert hnegative
  decide +kernel

end CascadeSearch.Rank.Training
