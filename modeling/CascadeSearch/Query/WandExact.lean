import CascadeSearch.Query.Evaluated
import CascadeSearch.Query.PruningSafety

/-!
# Which documents `wand` evaluates

In exact arithmetic the threshold a document meets when its turn comes is the
`k`-th best score among the matching documents before it: those that were
skipped did not reach the `k`-th best of the ones before them either. So `wand`
evaluates a document exactly when the term bounds of the lists that contain it
reach that score.
-/
namespace CascadeSearch.Query.WandExact

open Lib.KthBest Lib.Loop Lib.LoopTrace Lib.RoundedSum
open Index.Format
open Cursor Heap Reader Evaluate Pruning Passes PruningSafety Turns Evaluated
open TopK (threshold_eq_kthBest)

variable {ix : Index ℚ} {sources : List (PostingSource ℚ)} {live : List (PostingCursor ℚ)}
  {top : TopK ℚ} {stats : SearchStats} {log : List (Evaluation ℚ)} {threshold : ℚ} {k d : Nat}

/-- The term bounds of the lists that contain the document. -/
def termBounds (sources : List (PostingSource ℚ)) (d : Nat) : ℚ :=
  sum ((containing sources d).map (·.maxImpact))

/-- The matching documents with a smaller docid. -/
def preceding (sources : List (PostingSource ℚ)) (d : Nat) : List Nat :=
  (matching sources).filter (· < d)

def kthBestBefore (ix : Index ℚ) (sources : List (PostingSource ℚ)) (k d : Nat) : ℚ :=
  kthBest k ((preceding sources d).map (docScore ix sources))

/-- What `wand` has done so far: it has lost only documents out of reach, and
what it has evaluated was within reach and scored in full. -/
structure WithinReach (ix : Index ℚ) (sources : List (PostingSource ℚ)) (k : Nat)
    (live : List (PostingCursor ℚ)) (log : List (Evaluation ℚ)) : Prop where
  accounted : Accounted sources live log fun _ d => termBounds sources d < kthBestBefore ix sources k d
  full : ∀ e ∈ log, e.terms = containing sources e.docid
  reached : ∀ e ∈ log, kthBestBefore ix sources k e.docid ≤ termBounds sources e.docid

/-- In exact arithmetic a sum of bounds grows with the set it is taken over. -/
theorem sum_bounds_le {l l' : List (PostingSource ℚ)} (hnd : l.Nodup) (hsub : ∀ t ∈ l, t ∈ l')
    (hn : ∀ t ∈ l', 0 ≤ t.maxImpact) : sum (l.map (·.maxImpact)) ≤ sum (l'.map (·.maxImpact)) := by
  obtain ⟨listed, hperm, hsublist⟩ := List.subperm_of_subset hnd hsub
  rw [← sum_perm_rat (hperm.map _)]
  refine sum_le_of_sublist (hsublist.map _) fun x hx => ?_
  obtain ⟨t, ht, rfl⟩ := List.mem_map.mp hx
  exact hn t ht

theorem map_maxImpact (live : List (PostingCursor ℚ)) :
    live.map (·.maxImpact) = (live.map (·.toPostingSource)).map (·.maxImpact) := by
  rw [List.map_map]
  rfl

theorem docScore_le_termBounds (hv : ValidBounds ix sources) (d : Nat) :
    docScore ix sources d ≤ termBounds sources d := by
  refine sum_map_le (fun t ht => sourceScore_nonneg hv (mem_containing.mp ht).1) fun t ht => ?_
  obtain ⟨hmem, p, hp, hd⟩ := mem_containing.mp ht
  unfold sourceScore
  cases he : entry t d with
  | none => exact absurd (entry_isSome.mpr ⟨p, hp, hd⟩) (by simp [he])
  | some q => exact score_le_maxImpact hv hmem (List.mem_of_find?_eq_some he)

/-- Cursors that hold all of a document bound it together. -/
theorem termBounds_le (hs : WellFormed sources) (hb : ∀ c ∈ live, 0 ≤ c.maxImpact)
    (hall : ∀ t ∈ containing sources d, ∃ c ∈ live, c.toPostingSource = t) :
    termBounds sources d ≤ sum (live.map (·.maxImpact)) := by
  rw [map_maxImpact]
  refine sum_bounds_le ((hs.addrs.filter _).imp fun hlt he => ?_) (fun t ht => ?_) fun t ht => ?_
  · rw [he] at hlt
    exact lt_irrefl _ hlt
  · obtain ⟨c, hc, rfl⟩ := hall t ht
    exact List.mem_map_of_mem hc
  · obtain ⟨c, hc, rfl⟩ := List.mem_map.mp ht
    exact hb c hc

/-- Cursors that all hold the document are among those that bound it. -/
theorem le_termBounds (hst : Standing sources live) (hv : ValidBounds ix sources)
    (hall : ∀ c ∈ live, ∃ p ∈ c.remaining, p.docid = d) :
    sum (live.map (·.maxImpact)) ≤ termBounds sources d := by
  have hnd : (live.map (·.toPostingSource)).Nodup := by
    refine List.Nodup.of_map (fun t : PostingSource ℚ => t.addr) ?_
    rw [List.map_map]
    exact hst.addrs
  rw [map_maxImpact]
  refine sum_bounds_le hnd (fun t ht => ?_) fun t ht => ?_
  · obtain ⟨c, hc, rfl⟩ := List.mem_map.mp ht
    obtain ⟨p, hp, hd⟩ := hall c hc
    exact mem_containing.mpr ⟨hst.source c hc, p, (hst.consistent c hc).suffix.mem hp, hd⟩
  · obtain ⟨hmem, p, hp, -⟩ := mem_containing.mp ht
    exact (hv.nonneg t hmem p hp).trans (score_le_maxImpact hv hmem hp)

section Threshold

variable (ht : Traced ix sources k live top stats log) (hr : WithinReach ix sources k live log)
include ht hr

theorem scores_eq : (log.map (Evaluation.result ix)).map Result.score =
    (log.map (·.docid)).map (docScore ix sources) := by
  rw [List.map_map, List.map_map]
  exact List.map_congr_left fun e he => (ht.genuine e he).score_eq (hr.full e he)

theorem threshold_eq_evaluated :
    top.threshold = some (kthBest k ((log.map (·.docid)).map (docScore ix sources))) := by
  rw [threshold_eq_kthBest ht.holds ht.positive, ht.capacity, scores_eq ht hr]

omit hr in
/-- Documents evaluated so far precede any that is still to come. -/
theorem mem_preceding (hbehind : ∀ e ∈ log, e.docid < d) :
    ∀ e ∈ log.map (·.docid), e ∈ preceding sources d := by
  intro e he
  obtain ⟨f, hf, rfl⟩ := List.mem_map.mp he
  exact List.mem_filter.mpr ⟨ht.docids.2 f hf, by simpa using hbehind f hf⟩

theorem threshold_le (hv : ValidBounds ix sources) (hbehind : ∀ e ∈ log, e.docid < d)
    (hth : top.threshold = some threshold) : threshold ≤ kthBestBefore ix sources k d := by
  obtain rfl := Option.some.inj (hth.symm.trans (threshold_eq_evaluated ht hr))
  have hk : 0 < k := ht.capacity ▸ ht.positive
  have hsub := List.subperm_of_subset ht.docids.1 (mem_preceding ht hbehind)
  refine kthBest_le_of_subperm hk (fun x hx => ?_) (subperm_map _ hsub)
  obtain ⟨e, -, rfl⟩ := List.mem_map.mp hx
  exact docScore_nonneg hv e

/-- Once no cursor stands before the document, its threshold is exact. -/
theorem threshold_eq (hv : ValidBounds ix sources)
    (hbehind : ∀ e ∈ log, e.docid < d) (hfirst : ∀ c ∈ live, ∀ p ∈ c.remaining, d ≤ p.docid)
    (hth : top.threshold = some threshold) : threshold = kthBestBefore ix sources k d := by
  obtain rfl := Option.some.inj (hth.symm.trans (threshold_eq_evaluated ht hr))
  have hk : 0 < k := ht.capacity ▸ ht.positive
  refine kthBest_eq_of_sparse hk ((List.nodup_dedup _).filter _) ht.docids.1
    (mem_preceding ht hbehind) (fun e _ => docScore_nonneg hv e) fun e he hout => ?_
  obtain ⟨hmatch, hlt⟩ := List.mem_filter.mp he
  have hlt : e < d := by simpa using hlt
  have hbefore : (preceding sources d).filter (· < e) = preceding sources e := by
    unfold preceding
    rw [List.filter_filter]
    exact List.filter_congr fun f _ => by simp; omega
  obtain ⟨t, htmem, p, hp, rfl⟩ := mem_matching.mp hmatch
  have hgone : ∀ c ∈ live, ∀ q ∈ c.remaining, q.docid ≠ p.docid := by
    intro c hc q hq
    have := hfirst c hc q hq
    omega
  rw [hbefore]
  rcases hr.accounted.settled hgone (mem_containing.mpr ⟨htmem, p, hp, rfl⟩) with
    ⟨f, hf, hfd, -⟩ | hlost
  · exact absurd (List.mem_map.mpr ⟨f, hf, hfd⟩) hout
  · exact (docScore_le_termBounds hv p.docid).trans_lt hlost

/-- A document within reach that some cursor still delivers, all of its cursors do. -/
theorem pending_of_within {c : PostingCursor ℚ} {p : Posting} (hc : c ∈ live) (hp : p ∈ c.remaining)
    (hin : kthBestBefore ix sources k p.docid ≤ termBounds sources p.docid) :
    ∀ t ∈ containing sources p.docid,
      ∃ e ∈ live, e.toPostingSource = t ∧ ∃ q ∈ e.remaining, q.docid = p.docid := by
  intro t htc
  obtain ⟨hmem, q, hq, hqd⟩ := mem_containing.mp htc
  rcases hr.accounted t hmem q hq with ⟨e, he, hes, hqe⟩ | ⟨e, he, hed, -⟩ | hlost
  · exact ⟨e, he, hes, q, hqe, hqd⟩
  · have := ht.behind e he c hc p hp
    omega
  · rw [hqd] at hlost
    exact absurd hlost (not_lt.mpr hin)

end Threshold

variable {s s' : WandState ℚ}

theorem WithinReach.lineUp (h : WithinReach ix sources k s.live log) :
    WithinReach ix sources k (lineUp s) log := by
  refine { h with accounted := fun t ht p hp => ?_ }
  rcases h.accounted t ht p hp with ⟨c, hc, hcs, hpc⟩ | hrest
  · exact Or.inl ⟨c, mem_lineUp.mpr ⟨hc, running_of_mem hpc⟩, hcs, hpc⟩
  · exact Or.inr hrest

/-- Bounds below the threshold put a document out of reach. -/
theorem out_of_reach (ht : Traced ix sources k (lineUp s) s.top s.stats log)
    (hr : WithinReach ix sources k (lineUp s) log) (hs : WellFormed sources)
    (hv : ValidBounds ix sources) (hth : s.top.threshold = some threshold)
    {front : List (PostingCursor ℚ)} (hsub : front.Sublist (lineUp s))
    (hlow : sum (front.map (·.maxImpact)) < threshold) {c : PostingCursor ℚ} {p : Posting}
    (hc : c ∈ lineUp s) (hp : p ∈ c.remaining)
    (hfront : ∀ e ∈ lineUp s, (∃ q ∈ e.remaining, q.docid = p.docid) → e ∈ front) :
    termBounds sources p.docid < kthBestBefore ix sources k p.docid := by
  by_contra hnot
  have hpending := pending_of_within ht hr hc hp (not_lt.mp hnot)
  have hbounds : termBounds sources p.docid ≤ sum (front.map (·.maxImpact)) := by
    refine termBounds_le hs (fun e he => ?_) fun t htc => ?_
    · have he := hsub.mem he
      exact ((nonNegativeBounds hs hv).running (ht.standing.source e he) (ht.standing.consistent e he)
        (mem_lineUp.mp he).2).1
    · obtain ⟨e, he, hes, hq⟩ := hpending t htc
      exact ⟨e, hfront e he hq, hes⟩
  have hle := threshold_le ht hr hv (fun e he => ht.behind e he c hc p hp) hth
  exact hnot ((hbounds.trans_lt hlow).trans_le hle)

/-- The document at the front is within reach, and all of its cursors are at it. -/
theorem front_within_reach (ht : Traced ix sources k (lineUp s) s.top s.stats log)
    (hr : WithinReach ix sources k (lineUp s) log) (hs : WellFormed sources)
    (hv : ValidBounds ix sources) (hth : s.top.threshold = some threshold) {i : Nat}
    (hp : Pivoted (lineUp s) threshold i d)
    (hreach : threshold ≤ sum (((lineUp s).take (i + 1)).map (·.maxImpact)))
    {hits : List (PostingCursor ℚ)} (hf : AtFront (lineUp s) hits d) (hne : hits ≠ []) :
    (⟨d, hits⟩ : Evaluation ℚ).terms = containing sources d ∧
      kthBestBefore ix sources k d ≤ termBounds sources d := by
  have hst := ht.standing
  have hrunning : ∀ c ∈ lineUp s, c.exhausted = false := fun c hc => (mem_lineUp.mp hc).2
  obtain ⟨c, hc⟩ := List.exists_mem_of_ne_nil _ hne
  obtain ⟨hclive, p, hpc, hpd⟩ := (hst.mem_hits hf).mp hc
  have hbehind : ∀ e ∈ log, e.docid < d := fun e he => hpd ▸ ht.behind e he c hclive p hpc
  have hfirst : ∀ c ∈ lineUp s, ∀ p ∈ c.remaining, d ≤ p.docid := fun c hc p hp =>
    (hf.first c hc (hrunning c hc)).trans ((hst.consistent c hc).docid_le (hrunning c hc) hp)
  have hat : ∀ c ∈ (lineUp s).take (i + 1), ∃ p ∈ c.remaining, p.docid = d := by
    intro c hc
    have hmem := List.mem_of_mem_take hc
    have hle := hp.docid_le_of_mem_take hc
    have hge := hf.first c hmem (hrunning c hmem)
    exact ((hst.mem_hits hf).mp ((hf.mem c).mpr ⟨hmem, hrunning c hmem, by omega⟩)).2
  have hfrontst : Standing sources ((lineUp s).take (i + 1)) :=
    hst.relist (fun c hc => List.mem_of_mem_take hc) (hst.addrs.sublist ((List.take_sublist _ _).map _))
  have hin : kthBestBefore ix sources k d ≤ termBounds sources d := by
    rw [← threshold_eq ht hr hv hbehind hfirst hth]
    exact hreach.trans (le_termBounds hfrontst hv hat)
  refine ⟨(genuine_of_front ix hst hs hf hne).terms_eq hs fun t htc => ?_, hin⟩
  subst hpd
  obtain ⟨e, he, hes, hq⟩ := pending_of_within ht hr hclive hpc hin t htc
  exact List.mem_map.mpr ⟨e, (hst.mem_hits hf).mpr ⟨he, hq⟩, hes⟩

theorem wandPass_ne_jumps (s : WandState ℚ) : wandPass s ≠ .jumps := by
  unfold wandPass
  split
  · simp
  · split
    · simp
    · simp

theorem keeping_within_reach (hs : WellFormed sources) (hv : ValidBounds ix sources) :
    Keeping ix sources k (wandStep ix) wandPass fun log s => WithinReach ix sources k s.live log := by
  intro log s s' hstage hstep
  have hst := hstage.traced.standing
  have ht := hstage.traced.lineUp
  have hr := hstage.extra.lineUp
  have hrunning : ∀ c ∈ lineUp s, c.exhausted = false := fun c hc => (mem_lineUp.mp hc).2
  obtain ⟨threshold, hth, -⟩ := TopK.threshold_spec ht.holds ht.positive
  have hpassed := wandStep_passed ix hst ht.holds ht.positive hth
  rw [hstep] at hpassed
  have hscored : ∀ e, (wandPass s).evaluation = some e →
      e.terms = containing sources e.docid ∧
        kthBestBefore ix sources k e.docid ≤ termBounds sources e.docid := by
    intro e he
    generalize wandPass s = pass at hpassed he
    cases hpassed with
    | turns hp hreach hmoved hturn hcount =>
      generalize s'.live = live', s'.top = top' at hturn
      cases hturn with
      | score hf hne hpush =>
        obtain rfl := Option.some.inj he
        exact front_within_reach ht hr hs hv hth hp hreach hf hne
      | drag | ranOut | jump => cases he
  constructor
  · refine accounted_of_passed hpassed hst (nonNegativeBounds hs hv) hstage.extra.accounted
      (fun _ _ h => h) ?_ fun hjump => absurd hjump (wandPass_ne_jumps s)
    intro i d hp _ c hc p hpc hlt _
    have hle := (ht.standing.consistent c hc).docid_le (hrunning c hc) hpc
    have hi : i ≠ 0 := by
      rintro rfl
      cases hp.mem_take hc (by omega)
    refine out_of_reach ht hr hs hv hth (List.take_sublist i _) (hp.below hi) hc hpc ?_
    rintro e he ⟨q, hq, hqd⟩
    have := (ht.standing.consistent e he).docid_le (hrunning e he) hq
    exact hp.mem_take he (by omega)
  · intro e he
    rcases List.mem_append.mp he with he | he
    · exact (hscored e (Option.mem_toList.mp he)).1
    · exact hstage.extra.full e he
  · intro e he
    rcases List.mem_append.mp he with he | he
    · exact (hscored e (Option.mem_toList.mp he)).2
    · exact hstage.extra.reached e he

/-- `wand` evaluates a matching document if and only if the term bounds of the
lists that contain it reach the `k`-th best score of the matching documents
before it. It scores such a document in full, once, and in ascending order. -/
theorem wand_evaluates_within_reach (ix : Index ℚ) (sources : List (PostingSource ℚ))
    (hs : WellFormed sources) (hv : ValidBounds ix sources) (k : Nat) (hk : 1 ≤ k) :
    ∃ log results stats, Ends (wandStep ix) wandEvaluates (wandInit (sources.map PostingCursor.open) k)
        log (.ok (results, stats)) ∧
      (∀ e ∈ log, e.docid ∈ matching sources ∧ e.terms = containing sources e.docid) ∧
      (∀ d ∈ matching sources, (∃ e ∈ log, e.docid = d) ↔
        kthBestBefore ix sources k d ≤ termBounds sources d) ∧
      log.Pairwise fun e f => f.docid < e.docid := by
  have hstart : WithinReach ix sources k (sources.map PostingCursor.open) [] :=
    ⟨accounted_open hs, by simp, by simp⟩
  obtain ⟨log, results, stats, hends, s, threshold, hlast⟩ :=
    ends_of_steps (wand_steps ix) hs hk hstart (keeping_within_reach hs hv)
  have ht := hlast.stage.traced
  have hr := hlast.stage.extra
  refine ⟨log, results, stats, hends, fun e he => ⟨ht.docids.2 e he, hr.full e he⟩, fun d hd => ?_,
    ht.ascending⟩
  constructor
  · rintro ⟨e, he, rfl⟩
    exact hr.reached e he
  · intro hin
    obtain ⟨t, htm, p, hp, rfl⟩ := mem_matching.mp hd
    -- what is still to come at the end cannot reach the threshold
    have hgone : ∀ c ∈ s.live, ∀ q ∈ c.remaining, q.docid ≠ p.docid := by
      intro c hc q hq hqd
      have hline := mem_lineUp.mpr ⟨hc, running_of_mem hq⟩
      have hout := out_of_reach ht.lineUp hr.lineUp hs hv hlast.bound (List.Sublist.refl _)
        (hlast.low (List.ne_nil_of_mem hline)) hline hq fun e he _ => he
      rw [hqd] at hout
      exact absurd hout (not_lt.mpr hin)
    rcases hr.accounted.settled hgone (mem_containing.mpr ⟨htm, p, hp, rfl⟩) with
      ⟨e, he, hed, -⟩ | hlost
    · exact ⟨e, he, hed⟩
    · exact absurd hlost (not_lt.mpr hin)

theorem wand_evaluates_within_reach_shared :
    ∃ log results stats, Ends (wandStep sharedDocumentIndex) wandEvaluates
        (wandInit (sharedDocument.map PostingCursor.open) 1) log (.ok (results, stats)) ∧
      (∀ e ∈ log, e.docid ∈ matching sharedDocument ∧ e.terms = containing sharedDocument e.docid) ∧
      (∀ d ∈ matching sharedDocument, (∃ e ∈ log, e.docid = d) ↔
        kthBestBefore sharedDocumentIndex sharedDocument 1 d ≤ termBounds sharedDocument d) ∧
      log.Pairwise fun e f => f.docid < e.docid :=
  wand_evaluates_within_reach sharedDocumentIndex sharedDocument sharedDocument_wellFormed
    sharedDocument_validBounds 1 (by decide)

end CascadeSearch.Query.WandExact
