import CascadeSearch.Query.Evaluated

/-!
# The scores that are pushed

Exhaustive evaluation adds up all of a document's terms in their order. A
pruned loop adds up, in the same order, the terms whose cursors are still at
the document. A cursor that has been moved past it was moved while the bounds
up to the document stayed below the threshold; the document is `Shut` when they
stay below it in every order they can still be summed in, and then it never
becomes the pivot. Whether losing a term shuts the document is a matter of the
addition: leaving a summand out must not gain anything (`NoGain`).
-/
namespace CascadeSearch.Query.ScoreOrder

open Lib.KthBest Lib.Loop Lib.LoopTrace Lib.RoundedSum
open Index.Format
open Cursor Heap Reader Evaluate Pruning Passes Turns Evaluated
open TopK (threshold_eq_kthBest)

section Exact

variable {S : Type} [LinearOrder S] [Zero S] [Add S] {ix : Index S} {sources : List (PostingSource S)}
  {k : Nat}

/-- Every document the loop pushes it pushes with its score over all of the
sources that contain it, summed in the order of the sources. -/
structure ScoresExactly {σ : Type} (ix : Index S) (sources : List (PostingSource S))
    (step : σ → Step σ (Outcome S)) (report : σ → Option (Evaluation S)) (top : σ → TopK S)
    (s : σ) : Prop where
  pushes : ∀ log t t', Reaches step report s log t → step t = .next t' →
    Pushed ix (top t) (top t') (report t)
  scores : ∀ log t, Reaches step report s log t →
    ∀ e ∈ log, e.score ix = docScore ix sources e.docid

/-- The sources that can rank a document at all. -/
def ranking (sources : List (PostingSource S)) : List (PostingSource S) :=
  sources.filter fun t => 0 < t.maxImpact

theorem daat_stage (hs : WellFormed sources) (hk : 0 < k) {log : List (Evaluation S)} {t : DaatState S}
    (h : Reaches (daatStep ix) daatEvaluates (daatInit (sources.map PostingCursor.open) k) log t) :
    DaatStage ix sources k log t :=
  h.invariant (daatStage_init hs hk) fun _ _ _ hstage hstep => (hstage.next hs hstep).1

theorem daat_scoresExactly (hs : WellFormed sources) (hk : 0 < k) :
    ScoresExactly ix sources (daatStep ix) daatEvaluates DaatState.top
      (daatInit (sources.map PostingCursor.open) k) where
  pushes log t t' hreach hstep := by
    have hstage := daat_stage hs hk hreach
    rcases daatStep_cases ix hstage.sorted hstage.traced.standing hstage.traced.holds
      hstage.traced.positive with ⟨stats, hdone, -⟩ | ⟨d, hits, top', stats, hnext, heval, -, -, hpush, -⟩
    · cases hdone.symm.trans hstep
    · obtain rfl := Step.next.inj (hnext.symm.trans hstep)
      rw [heval]
      exact hpush
  scores log t hreach e he := by
    have hstage := daat_stage hs hk hreach
    have ht := hstage.traced
    refine (ht.genuine e he).score_eq ((ht.genuine e he).terms_eq hs fun u hu => ?_)
    have hgone : ∀ c ∈ t.cursors, ∀ p ∈ c.remaining, p.docid ≠ e.docid :=
      fun c hc p hp => (ht.behind e he c hc p hp).ne'
    obtain ⟨f, hf, hfd, huf⟩ := (hstage.accounted.settled hgone hu).resolve_right id
    obtain rfl := List.inj_on_of_nodup_map ht.docids.1 hf he hfd
    exact huf

end Exact

section UpTo

variable {S : Type} {sources : List (PostingSource S)} {s : WandState S} {d : Nat}
  {t : PostingSource S}

/-- The sources whose cursors stand at the document or before it. -/
def upTo (s : WandState S) (d : Nat) : List (PostingSource S) :=
  ((lineUp s).filter fun c => c.docid ≤ d).map (·.toPostingSource)

theorem mem_upTo : t ∈ upTo s d ↔ ∃ c ∈ lineUp s, c.docid ≤ d ∧ c.toPostingSource = t := by
  simp only [upTo, List.mem_map, List.mem_filter, decide_eq_true_eq, and_assoc]

theorem upTo_nodup (hst : Standing sources s.live) : (upTo s d).Nodup := by
  refine List.Nodup.of_map (fun t : PostingSource S => t.addr) ?_
  rw [upTo, List.map_map]
  exact (standing_lineUp hst).addrs.sublist (List.filter_sublist.map _)

variable [LinearOrder S] [Zero S] [Add S] {ix : Index S} {s' : WandState S} {threshold : S}
  {mid : List (PostingCursor S)} {pass : Pass S}

/-- Cursors only move forward, so none comes back before the document. -/
theorem upTo_subset (h : Passed ix s threshold mid pass (.next s')) (hst : Standing sources s.live)
    (ht : t ∈ upTo s' d) : t ∈ upTo s d := by
  obtain ⟨c', hc', hle, rfl⟩ := mem_upTo.mp ht
  obtain ⟨hlive, hx⟩ := mem_lineUp.mp hc'
  obtain ⟨c, hc, hm⟩ := (h.moves hst).1.right hlive
  have hmem : (⟨c'.docid, c'.freq⟩ : Posting) ∈ c'.remaining := by
    rw [hm.consistent.remaining_cons hx]
    exact List.mem_cons_self
  have hle' := ((standing_lineUp hst).consistent c hc).docid_le (mem_lineUp.mp hc).2 (hm.subset hmem)
  exact mem_upTo.mpr ⟨c, hc, hle'.trans hle, hm.source.symm⟩

/-- A cursor that has lost a posting stands beyond it. -/
theorem not_mem_upTo (h : Passed ix s threshold mid pass (.next s')) (hst : Standing sources s.live)
    {c : PostingCursor S} (hc : c ∈ lineUp s) {p : Posting} (hp : p ∈ c.remaining)
    (hgone : ∀ c' ∈ s'.live, c'.toPostingSource = c.toPostingSource → p ∉ c'.remaining) :
    c.toPostingSource ∉ upTo s' p.docid := by
  intro ht
  obtain ⟨c', hc', hle, hsrc⟩ := mem_upTo.mp ht
  obtain ⟨hlive, hx⟩ := mem_lineUp.mp hc'
  obtain ⟨e, he, hm⟩ := (h.moves hst).1.right hlive
  obtain rfl := (standing_lineUp hst).eq_of_addr he hc (by rw [← hsrc, hm.source])
  obtain ⟨skipped, hrem, -⟩ := hm.skipped
  have hasc := ((standing_lineUp hst).consistent e hc).ascending
  rw [hrem] at hp hasc
  have hskipped := (List.mem_append.mp hp).resolve_right (hgone c' hlive hsrc)
  have hlt := (List.pairwise_append.mp hasc).2.2 p hskipped ⟨c'.docid, c'.freq⟩ (by
    rw [hm.consistent.remaining_cons hx]
    exact List.mem_cons_self)
  exact absurd hle (not_le.mpr hlt)

end UpTo

section Shut

variable {S : Type} [LinearOrder S] [Zero S] [Add S] {ix : Index S} {sources : List (PostingSource S)}
  {s s' : WandState S} {threshold threshold' : S} {mid : List (PostingCursor S)} {pass : Pass S}
  {log new : List (Evaluation S)} {k n i d : Nat} {top top' : TopK S} {stats stats' : SearchStats}
  {live live' : List (PostingCursor S)}

/-- However the bounds up to the document are summed, they stay below the threshold. -/
def Shut (s : WandState S) (d : Nat) : Prop :=
  ∃ threshold, s.top.threshold = some threshold ∧
    ∀ l : List S, l.Perm ((upTo s d).map (·.maxImpact)) → sum l < threshold

variable [One S] [Neg S] [RoundedAdd S]

/-- The threshold only rises. -/
theorem threshold_le (h : Traced ix sources k live top stats log)
    (h' : Traced ix sources k live' top' stats' (new ++ log)) (hv : ValidBounds ix sources)
    (hth : top.threshold = some threshold) (hth' : top'.threshold = some threshold') :
    threshold ≤ threshold' := by
  rw [threshold_eq_kthBest h.holds h.positive, h.capacity] at hth
  rw [threshold_eq_kthBest h'.holds h'.positive, h'.capacity] at hth'
  obtain rfl := Option.some.inj hth
  obtain rfl := Option.some.inj hth'
  have hsub : log.Subperm (new ++ log) := (List.sublist_append_right new log).subperm
  refine kthBest_le_of_subperm (h.capacity ▸ h.positive) (fun x hx => ?_)
    (subperm_map _ (subperm_map _ hsub))
  rw [List.map_map] at hx
  obtain ⟨e, he, rfl⟩ := List.mem_map.mp hx
  exact (h'.genuine e he).score_nonneg hv

omit [Add S] [One S] [Neg S] [RoundedAdd S] in
theorem upTo_nonneg (hst : Standing sources s.live) (hb : NonNegativeBounds sources) :
    NonNeg ((upTo s d).map (·.maxImpact)) := by
  intro x hx
  obtain ⟨t, ht, rfl⟩ := List.mem_map.mp hx
  obtain ⟨c, hc, -, rfl⟩ := mem_upTo.mp ht
  have hst' := standing_lineUp hst
  exact (hb.running (hst'.source c hc) (hst'.consistent c hc) (mem_lineUp.mp hc).2).1

/-- The bounds up to a document that the pivot has reached can be summed to the threshold. -/
theorem not_shut_of_pivot (hst : Standing sources s.live) (hb : NonNegativeBounds sources)
    (hth : s.top.threshold = some threshold) (hp : Pivoted (lineUp s) threshold i d)
    (hreach : threshold ≤ sum (((lineUp s).take (i + 1)).map (·.maxImpact))) : ¬ Shut s d := by
  rintro ⟨threshold', hth', hall⟩
  obtain rfl := Option.some.inj (hth.symm.trans hth')
  have hsub : ((lineUp s).take (i + 1)).Sublist ((lineUp s).filter fun c => c.docid ≤ d) := by
    have hself : ((lineUp s).take (i + 1)).filter (fun c => c.docid ≤ d) = (lineUp s).take (i + 1) :=
      List.filter_eq_self.mpr fun c hc => by simpa using hp.docid_le_of_mem_take hc
    rw [← hself]
    exact (List.take_sublist _ _).filter _
  have hmap : (((lineUp s).take (i + 1)).map (·.maxImpact)).Sublist ((upTo s d).map (·.maxImpact)) := by
    rw [upTo, List.map_map]
    exact hsub.map _
  exact absurd (hreach.trans (sum_le_of_sublist hmap (upTo_nonneg hst hb)))
    (not_le.mpr (hall _ (List.Perm.refl _)))

/-- The pivot's own bound is positive, since it takes the sum to the threshold. -/
theorem pivot_ranks (hst : Standing sources s.live) (hb : NonNegativeBounds sources)
    (hp : Pivoted (lineUp s) threshold i d) (hi : i ≠ 0)
    (hreach : threshold ≤ sum (((lineUp s).take (i + 1)).map (·.maxImpact))) :
    ∃ c ∈ lineUp s, c.docid = d ∧ 0 < c.maxImpact := by
  obtain ⟨pivot, hget, hpd⟩ := hp.pivot
  obtain ⟨hlt, hgeti⟩ := List.getElem?_eq_some_iff.mp hget
  have hmem := List.mem_of_getElem? hget
  have hst' := standing_lineUp hst
  have hn : ∀ c ∈ lineUp s, 0 ≤ c.maxImpact := fun c hc =>
    (hb.running (hst'.source c hc) (hst'.consistent c hc) (mem_lineUp.mp hc).2).1
  refine ⟨pivot, hmem, hpd, (hn pivot hmem).lt_of_ne fun hzero => ?_⟩
  have hlow := hp.below hi
  rw [List.take_succ_eq_append_getElem hlt, hgeti, List.map_append, List.map_singleton, ← hzero] at hreach
  have hsum : sum (((lineUp s).take i).map (·.maxImpact) ++ [0]) =
      sum (((lineUp s).take i).map (·.maxImpact)) := by
    rw [sum, List.foldl_append]
    exact add_zero (sum_nonneg fun x hx => by
      obtain ⟨c, hc, rfl⟩ := List.mem_map.mp hx
      exact hn c (List.mem_of_mem_take hc))
  rw [hsum] at hreach
  exact absurd hreach (not_le.mpr hlow)

/-- Nothing reopens a document. -/
theorem Shut.stays (h : Passed ix s threshold mid pass (.next s')) (hst : Standing sources s.live)
    (hb : NonNegativeBounds sources) (hth' : s'.top.threshold = some threshold')
    (hle : ∀ threshold, s.top.threshold = some threshold → threshold ≤ threshold') (hshut : Shut s d) :
    Shut s' d := by
  obtain ⟨threshold'', hth, hall⟩ := hshut
  refine ⟨threshold', hth', fun l hl => ?_⟩
  have hst' := (h.moves hst).1.standing (standing_lineUp hst)
  have hsub := subperm_map (·.maxImpact)
    (List.subperm_of_subset (upTo_nodup hst') fun t ht => upTo_subset h hst (d := d) ht)
  exact (sum_lt_of_subperm hsub (upTo_nonneg hst hb) hall l hl).trans_le (hle _ hth)

/-- The bounds up to a document before the pivot are some of those before the pivot. -/
theorem upTo_lt_of_before (hst : Standing sources s.live) (hb : NonNegativeBounds sources)
    (hp : Pivoted (lineUp s) threshold i d) (hi : i ≠ 0) {e : Nat} (he : e < d) :
    sum ((upTo s e).map (·.maxImpact)) < threshold := by
  have hst' := standing_lineUp hst
  have hsub : ((lineUp s).filter fun c => c.docid ≤ e).Sublist ((lineUp s).take i) := by
    have hdrop : ((lineUp s).drop i).filter (fun c => decide (c.docid ≤ e)) = [] :=
      List.filter_eq_nil_iff.mpr fun c hc => by
        have := hp.le_docid_of_mem_drop hc
        simpa using (by omega : e < c.docid)
    conv_lhs => rw [← List.take_append_drop i (lineUp s)]
    rw [List.filter_append, hdrop, List.append_nil]
    exact List.filter_sublist
  refine lt_of_le_of_lt ?_ (hp.below hi)
  rw [upTo, List.map_map]
  refine sum_le_of_sublist (hsub.map _) fun x hx => ?_
  obtain ⟨c, hc, rfl⟩ := List.mem_map.mp hx
  have hc' := List.mem_of_mem_take hc
  exact (hb.running (hst'.source c hc') (hst'.consistent c hc') (mem_lineUp.mp hc').2).1

/-- The pivot is one more ranking term than those up to a document before it. -/
theorem length_upTo_lt (hst : Standing sources s.live) (hb : NonNegativeBounds sources)
    (hp : Pivoted (lineUp s) threshold i d) (hi : i ≠ 0)
    (hreach : threshold ≤ sum (((lineUp s).take (i + 1)).map (·.maxImpact))) {e : Nat} (he : e < d) :
    (((upTo s e).map (·.maxImpact)).filter (0 < ·)).length < (ranking sources).length := by
  have hst' := standing_lineUp hst
  obtain ⟨pivot, hpivot, hpd, hranks⟩ := pivot_ranks hst hb hp hi hreach
  have hout : pivot.toPostingSource ∉ upTo s e := by
    intro hin
    obtain ⟨c, hc, hle, hcs⟩ := mem_upTo.mp hin
    obtain rfl := hst'.eq_of_addr hc hpivot (by rw [hcs])
    omega
  have hsub : (pivot.toPostingSource :: (upTo s e).filter (0 < ·.maxImpact)).Subperm (ranking sources) := by
    refine List.subperm_of_subset (List.nodup_cons.mpr ⟨fun h => hout (List.mem_of_mem_filter h),
      (upTo_nodup hst).filter _⟩) fun t ht => ?_
    rcases List.mem_cons.mp ht with rfl | ht
    · exact List.mem_filter.mpr ⟨hst'.source pivot hpivot, by simpa using hranks⟩
    · obtain ⟨ht, hpos⟩ := List.mem_filter.mp ht
      obtain ⟨c, hc, -, rfl⟩ := mem_upTo.mp ht
      exact List.mem_filter.mpr ⟨hst'.source c hc, hpos⟩
  rw [List.filter_map, List.length_map]
  exact hsub.length_le

/-- A pass that takes a ranking term from a document before its pivot shuts it. -/
theorem shut_of_before (h : Passed ix s threshold mid pass (.next s')) (hst : Standing sources s.live)
    (hb : NonNegativeBounds sources) (hgain : NoGain S n) (hn : (ranking sources).length ≤ n + 1)
    (hth' : s'.top.threshold = some threshold') (hle : threshold ≤ threshold')
    (hp : Pivoted (lineUp s) threshold i d)
    (hreach : threshold ≤ sum (((lineUp s).take (i + 1)).map (·.maxImpact)))
    {c : PostingCursor S} (hc : c ∈ lineUp s) {p : Posting} (hpc : p ∈ c.remaining) (hlt : p.docid < d)
    (hgone : ∀ c' ∈ s'.live, c'.toPostingSource = c.toPostingSource → p ∉ c'.remaining)
    (hpos : 0 < c.maxImpact) : Shut s' p.docid := by
  classical
  have hline := standing_lineUp hst
  have hst' := (h.moves hst).1.standing hline
  have hcd := (hline.consistent c hc).docid_le (mem_lineUp.mp hc).2 hpc
  have hi : i ≠ 0 := by
    rintro rfl
    cases hp.mem_take hc (by omega)
  have hnonneg := upTo_nonneg (d := p.docid) hst hb
  have hcount := length_upTo_lt hst hb hp hi hreach hlt
  have hmem : c.toPostingSource ∈ upTo s p.docid := mem_upTo.mpr ⟨c, hc, hcd, rfl⟩
  have hperm := (List.perm_cons_erase hmem).map (·.maxImpact)
  rw [List.map_cons] at hperm
  -- without the cursor that has left, no order of the bounds reaches the threshold
  have hfewer : ∀ l : List S, l.Perm (((upTo s p.docid).erase c.toPostingSource).map (·.maxImpact)) →
      sum l < threshold := by
    intro l hl
    refine (hgain.sum_le hnonneg hpos (hperm.trans (hl.symm.cons _)) ?_).trans_lt
      (upTo_lt_of_before hst hb hp hi hlt)
    exact Nat.le_of_lt_succ (hcount.trans_le hn)
  have hsub : ((upTo s' p.docid).map (·.maxImpact)).Subperm
      (((upTo s p.docid).erase c.toPostingSource).map (·.maxImpact)) := by
    refine subperm_map _ (List.subperm_of_subset (upTo_nodup hst') fun t ht => ?_)
    refine (upTo_nodup hst).mem_erase_iff.mpr ⟨?_, upTo_subset h hst ht⟩
    rintro rfl
    exact not_mem_upTo h hst hc hpc hgone ht
  refine ⟨threshold', hth', fun l hl => (sum_lt_of_subperm hsub (fun x hx => ?_) hfewer l hl).trans_le hle⟩
  exact hnonneg x (hperm.mem_iff.mpr (List.mem_cons_of_mem _ hx))

omit [One S] [Neg S] [RoundedAdd S] in
/-- A document every cursor has left is shut as soon as the threshold is positive. -/
theorem shut_of_cleared (hst : ∀ c ∈ s.live, c.Consistent) (hth : s.top.threshold = some threshold)
    (hpos : 0 < threshold) (hclear : ∀ c ∈ s.live, ∀ p ∈ c.remaining, d < p.docid) : Shut s d := by
  have hnil : upTo s d = [] := by
    refine List.eq_nil_iff_forall_not_mem.mpr fun t ht => ?_
    obtain ⟨c, hc, hle, -⟩ := mem_upTo.mp ht
    obtain ⟨hlive, hx⟩ := mem_lineUp.mp hc
    have := hclear c hlive ⟨c.docid, c.freq⟩ (by
      rw [(hst c hlive).remaining_cons hx]
      exact List.mem_cons_self)
    exact absurd hle (not_le.mpr this)
  refine ⟨threshold, hth, fun l hl => ?_⟩
  rw [hnil, List.map_nil] at hl
  rw [List.perm_nil.mp hl]
  exact hpos

end Shut

section Pruned

variable {S : Type} [LinearOrder S] [Zero S] [One S] [Neg S] [Add S] [RoundedAdd S] {ix : Index S}
  {sources : List (PostingSource S)} {s s' : WandState S} {threshold : S} {mid : List (PostingCursor S)}
  {log : List (Evaluation S)} {k n : Nat} {step : WandState S → Step (WandState S) (Outcome S)}
  {pass : WandState S → Pass S}

/-- Terms are lost only to documents that are shut, or when they rank nothing. -/
def Lost (s : WandState S) (t : PostingSource S) (d : Nat) : Prop := t.maxImpact = 0 ∨ Shut s d

structure Faithful (ix : Index S) (sources : List (PostingSource S)) (log : List (Evaluation S))
    (s : WandState S) : Prop where
  accounted : Accounted sources s.live log (Lost s)
  scores : ∀ e ∈ log, e.score ix = docScore ix sources e.docid

/-- Terms that rank nothing can be left out of a score. -/
theorem score_eq_of_ranking {e : Evaluation S} (h : Genuine ix sources e) (hs : WellFormed sources)
    (hv : ValidBounds ix sources)
    (hall : ∀ t ∈ containing sources e.docid, t ∈ e.terms ∨ t.maxImpact = 0) :
    e.score ix = docScore ix sources e.docid := by
  rw [h.score, docScore]
  refine sum_map_of_sublist h.terms ?_ (fun t ht => sourceScore_nonneg hv (mem_containing.mp ht).1) ?_
  · exact (hs.addrs.filter _).imp fun hlt he => by rw [he] at hlt; exact lt_irrefl _ hlt
  · intro t ht hout
    have hmem := (mem_containing.mp ht).1
    have hzero := (hall t ht).resolve_left hout
    refine le_antisymm ?_ (sourceScore_nonneg hv hmem)
    rw [← hzero]
    unfold sourceScore
    cases he : entry t e.docid with
    | none => exact hzero.ge
    | some p => exact score_le_maxImpact hv hmem (List.mem_of_find?_eq_some he)

/-- The document a pass scores is not shut, so all of its ranking terms are there. -/
theorem evaluation_score_eq (h : Passed ix s threshold mid (pass s) (.next s'))
    (ht : Traced ix sources k s.live s.top s.stats log) (hf : Faithful ix sources log s)
    (hs : WellFormed sources) (hv : ValidBounds ix sources) (hth : s.top.threshold = some threshold)
    {e : Evaluation S} (he : (pass s).evaluation = some e) : e.score ix = docScore ix sources e.docid := by
  have hst := ht.standing
  have hline := standing_lineUp hst
  generalize pass s = p at h he
  cases h with
  | @turns i d _ _ hp hreach hmoved hturn hcount =>
    have hmid := hmoved.standing hline
    have hopen := not_shut_of_pivot hst (nonNegativeBounds hs hv) hth hp hreach
    generalize s'.live = live', s'.top = top' at hturn
    cases hturn with
    | @score hits top' hfront hne hpush =>
      obtain rfl := Option.some.inj he
      refine score_eq_of_ranking (genuine_of_front ix hmid hs hfront hne) hs hv fun t htc => ?_
      obtain ⟨hmem, p, hpt, hpd⟩ := mem_containing.mp htc
      rcases hf.accounted t hmem p hpt with ⟨c, hc, hcs, hpc⟩ | ⟨f, hflog, hfd, -⟩ | hzero | hshut
      · obtain ⟨m, hm, hcm⟩ := hmoved.left (mem_lineUp.mpr ⟨hc, running_of_mem hpc⟩)
        have hpm := hcm.kept hpc (by rw [hpd]; exact lt_irrefl _)
        refine Or.inl (List.mem_map.mpr ⟨m, (hmid.mem_hits hfront).mpr ⟨hm, p, hpm, hpd⟩, ?_⟩)
        exact hcm.source.trans hcs
      · obtain ⟨m, hm⟩ := List.exists_mem_of_ne_nil _ hne
        obtain ⟨hmem', q, hq, hqd⟩ := (hmid.mem_hits hfront).mp hm
        obtain ⟨c, hc, hcm⟩ := hmoved.right hmem'
        have := ht.lineUp.behind f hflog c hc q (hcm.subset hq)
        rw [hfd, hpd, hqd] at this
        exact absurd this (lt_irrefl _)
      · exact Or.inr hzero
      · rw [hpd] at hshut
        exact absurd hshut hopen
    | drag | ranOut | jump => cases he

theorem keeping_faithful (hsteps : Steps ix sources step pass) (hs : WellFormed sources)
    (hv : ValidBounds ix sources) (hgain : NoGain S n) (hn : (ranking sources).length ≤ n + 1) :
    Keeping ix sources k step pass (Faithful ix sources) := by
  intro log s s' hstage hstep
  have hb := nonNegativeBounds hs hv
  have ht := hstage.traced
  have hst := ht.standing
  obtain ⟨threshold, mid, hth, hpassed⟩ := hstage.passed hsteps
  rw [hstep] at hpassed
  have ht' := traced_of_passed hpassed ht hs
  obtain ⟨threshold', hth', -⟩ := TopK.threshold_spec ht'.holds ht'.positive
  have hle := threshold_le ht ht' hv hth hth'
  constructor
  · refine accounted_of_passed hpassed hst hb hstage.extra.accounted ?_ ?_ ?_
    · rintro t d (hzero | hshut)
      · exact Or.inl hzero
      · refine Or.inr (hshut.stays hpassed hst hb hth' fun x hx => ?_)
        exact (Option.some.inj (hth.symm.trans hx)) ▸ hle
    · intro i d hp hreach c hc p hpc hlt hgone
      have hline := standing_lineUp hst
      have hnonneg := (hb.running (hline.source c hc) (hline.consistent c hc) (mem_lineUp.mp hc).2).1
      rcases hnonneg.eq_or_lt with hzero | hpos
      · exact Or.inl hzero.symm
      · exact Or.inr (shut_of_before hpassed hst hb hgain hn hth' hle hp hreach hc hpc hlt hgone hpos)
    · intro _ hpos c hc p hpc hclear
      exact Or.inr (shut_of_cleared ht'.standing.consistent hth' (hpos.trans_le hle) hclear)
  · intro e he
    rcases List.mem_append.mp he with he | he
    · exact evaluation_score_eq hpassed ht hstage.extra hs hv hth (Option.mem_toList.mp he)
    · exact hstage.extra.scores e he

theorem pruned_scoresExactly (hsteps : Steps ix sources step pass) (hs : WellFormed sources)
    (hv : ValidBounds ix sources) (hk : 0 < k) (hgain : NoGain S n)
    (hn : (ranking sources).length ≤ n + 1) :
    ScoresExactly ix sources step (fun s => (pass s).evaluation) WandState.top
      (wandInit (sources.map PostingCursor.open) k) := by
  have hstart : Faithful ix sources [] (wandInit (sources.map PostingCursor.open) k) :=
    ⟨accounted_open hs, by simp⟩
  have hstage := fun {log t}
      (h : Reaches step (fun s => (pass s).evaluation) (wandInit (sources.map PostingCursor.open) k) log t) =>
    stage_of_reaches hsteps hs hk hstart (keeping_faithful hsteps hs hv hgain hn) h
  constructor
  · intro log t t' hreach hstep
    obtain ⟨threshold, mid, -, hpassed⟩ := (hstage hreach).passed hsteps
    rw [hstep] at hpassed
    exact hpassed.pushed
  · exact fun log t hreach => (hstage hreach).extra.scores

end Pruned

end CascadeSearch.Query.ScoreOrder
