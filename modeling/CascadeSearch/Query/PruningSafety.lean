import CascadeSearch.Query.Turns

/-!
# The three algorithms return the reference answer

Exhaustive evaluation needs no bounds. The pruned loops need valid ones, and an
addition whose rounding cannot lift a score above a bound of its summands; in
exact arithmetic the three answers agree.
-/
namespace CascadeSearch.Query.PruningSafety

open Lib.Fallible Lib.Loop Lib.RoundedSum
open Index.Format
open Cursor Heap Reader Evaluate Pruning Passes Turns

section Exhaustive

variable {S : Type} [LinearOrder S] [Zero S] [Add S] {ix : Index S} {sources : List (PostingSource S)}
  {k : Nat} {s : DaatState S}

/-- The state of `daat_or`: all cursors in address order, and every settled
document behind each of them. -/
def Exhaustive (ix : Index S) (sources : List (PostingSource S)) (k : Nat) (s : DaatState S) : Prop :=
  s.top.k = k ∧ s.cursors.Pairwise (fun a b => a.addr < b.addr) ∧
    ∃ settled, Inv ix sources s.cursors s.top settled ∧
      ∀ d ∈ settled, ∀ c ∈ s.cursors, ∀ p ∈ c.remaining, d < p.docid

/-- One pass of `daat_or`. -/
theorem daatStep_next (hs : WellFormed sources) (h : Exhaustive ix sources k s)
    {s' : DaatState S} (hstep : daatStep ix s = .next s') :
    Exhaustive ix sources k s' ∧ work s'.cursors < work s.cursors := by
  obtain ⟨rfl, hsort, settled, hinv, hpast⟩ := h
  rcases daatStep_cases ix hsort hinv.standing hinv.holds hinv.positive with
    ⟨stats, hdone, -⟩ | ⟨d, hits, top', stats, hnext, -, hf, hne, hpush, -⟩
  · rw [hdone] at hstep
    cases hstep
  · rw [hnext] at hstep
    cases hstep
    have hun : d ∉ settled := by
      intro hd
      obtain ⟨c, hc⟩ := List.exists_mem_of_ne_nil _ hne
      obtain ⟨hlive, p, hp, hpd⟩ := (hinv.standing.mem_hits hf).mp hc
      have := hpast _ hd c hlive p hp
      omega
    obtain ⟨top'', hpush', hk, hinv'⟩ := hinv.push_fresh hs hf hne hun
    obtain rfl := Option.some.inj (hpush.symm.trans hpush')
    have hmove := hinv.standing.movesTo_advanceAt (d := d)
    refine ⟨⟨hk, sorted_of_addrs hmove hsort, _, hinv', ?_⟩, hinv.standing.work_advanceAt hf hne⟩
    intro e he c hc p hp
    rcases List.mem_cons.mp he with rfl | he
    · exact hinv.standing.past_advanceAt hf hc hp
    · obtain ⟨m, hm, hmc⟩ := exists_left hmove hc
      exact hpast e he m hm p (hmc.subset hp)

theorem daatStep_done (h : Exhaustive ix sources k s)
    {outcome : Outcome S} (hstep : daatStep ix s = .done outcome) :
    ∃ stats, outcome = .ok (ranked ix sources k, stats) := by
  obtain ⟨rfl, hsort, settled, hinv, hpast⟩ := h
  rcases daatStep_cases ix hsort hinv.standing hinv.holds hinv.positive with
    ⟨stats, hdone, -, -, hexhausted⟩ | ⟨d, hits, top', stats, hnext, -⟩
  · rw [hdone] at hstep
    cases hstep
    refine ⟨_, congrArg (fun r => Except.ok (r, _)) (hinv.drain_eq fun e he hun => ?_)⟩
    obtain ⟨t, ht, p, hp, rfl⟩ := mem_matching.mp he
    obtain ⟨c, hc, -, hpc⟩ := hinv.pending t ht p hp hun
    rw [PostingCursor.remaining_of_exhausted (hexhausted c hc)] at hpc
    cases hpc
  · rw [hnext] at hstep
    cases hstep

/-- `daat_or` returns the reference answer, whatever the bounds say. -/
theorem daatOr_returns (ix : Index S) (hs : WellFormed sources) (hk : 0 < k) :
    ∃ stats, Returns (daatStep ix) (daatInit (sources.map PostingCursor.open) k)
      (.ok (ranked ix sources k, stats)) := by
  have hinit : Exhaustive ix sources k (daatInit (sources.map PostingCursor.open) k) := by
    refine ⟨rfl, ?_, [], inv_open hs hk, by simp⟩
    refine List.pairwise_map.mpr (hs.addrs.imp fun h => ?_)
    rw [PostingCursor.open_source, PostingCursor.open_source]
    exact h
  obtain ⟨outcome, hret, stats, rfl⟩ := returns_of_variant (daatStep ix)
    (Exhaustive ix sources k) (fun o => ∃ stats, o = .ok (ranked ix sources k, stats))
    (fun s => work s.cursors) (fun _ _ h hstep => daatStep_next hs h hstep)
    (fun _ _ h hstep => daatStep_done h hstep) _ hinit
  exact ⟨stats, hret⟩

end Exhaustive

section Settled

variable {S : Type} [LinearOrder S] [Zero S] [Add S] [One S] [Neg S] [RoundedAdd S]
  {ix : Index S} {sources : List (PostingSource S)} {live mid live' : List (PostingCursor S)}
  {top top' : TopK S} {settled : List Nat} {threshold : S} {k n i d : Nat} {pass : Pass S}

/-- Bounds that cannot reach the threshold leave nothing to find. -/
theorem hopeless_of_total (h : Inv ix sources live top settled) (hs : WellFormed sources)
    (hv : ValidBounds ix sources) (hb : NoScoreBetween S n)
    (hn : ∀ e, (containing sources e).length ≤ n) (hx : ∀ c ∈ live, c.exhausted = false)
    (hth : top.threshold = some threshold)
    (hlt : live ≠ [] → sum (live.map (·.maxImpact)) < threshold) :
    ∀ e ∈ matching sources, e ∉ settled → Hopeless top (scored ix sources e) := by
  intro e he hun
  obtain ⟨t, ht, p, hp, rfl⟩ := mem_matching.mp he
  obtain ⟨c, hc, -, -⟩ := h.pending t ht p hp hun
  refine h.hopeless_of_bound hs hv hb (hn _) he hun (fun _ hc => hc) h.addrs
    (fun c hc => ((nonNegativeBounds hs hv).running (h.source c hc) (h.consistent c hc) (hx c hc)).1)
    (fun c hc q hq _ => ⟨hc, ?_⟩) hth (hlt (List.ne_nil_of_mem hc))
  exact score_le_maxImpact hv (h.source c hc) ((h.consistent c hc).suffix.mem hq)

/-- No document before the pivot can beat the heap: only the cursors in front
of the pivot could deliver it, and their bounds stay below the threshold. -/
theorem hopeless_before_pivot (h : Inv ix sources live top settled) (hs : WellFormed sources)
    (hv : ValidBounds ix sources) (hb : NoScoreBetween S n)
    (hn : ∀ e, (containing sources e).length ≤ n) (hth : top.threshold = some threshold)
    (hp : Pivoted live threshold i d) :
    ∀ e ∈ matching sources, e < d → e ∉ settled → Hopeless top (scored ix sources e) := by
  intro e he hlt hun
  have hfront : ∀ c ∈ live, ∀ q ∈ c.remaining, q.docid = e → c ∈ live.take i := by
    intro c hc q hq hqe
    have hle := (h.consistent c hc).docid_le (hp.running c hc) hq
    exact hp.mem_take hc (by omega)
  have hsub : ∀ c ∈ live.take i, c ∈ live := fun c hc => List.mem_of_mem_take hc
  have hi : i ≠ 0 := by
    rintro rfl
    obtain ⟨t, ht, q, hq, rfl⟩ := mem_matching.mp he
    obtain ⟨c, hc, -, hqc⟩ := h.pending t ht q hq hun
    have := hfront c hc q hqc rfl
    cases this
  refine h.hopeless_of_bound hs hv hb (hn e) he hun hsub
    (h.addrs.sublist ((List.take_sublist i live).map _))
    (fun c hc => ((nonNegativeBounds hs hv).running (h.source c (hsub c hc))
      (h.consistent c (hsub c hc)) (hp.running c (hsub c hc))).1)
    (fun c hc q hq hqe => ⟨hfront c hc q hq hqe, ?_⟩) hth (hp.below hi)
  exact score_le_maxImpact hv (h.source c hc) ((h.consistent c hc).suffix.mem hq)

/-- No document in the span jumped out of can beat the heap: the candidates'
blocks bound it. -/
theorem hopeless_in_span {candidates rest : List (PostingCursor S)} {target : Nat}
    (h : Inv ix sources (candidates ++ rest) top settled) (hs : WellFormed sources)
    (hv : ValidBounds ix sources) (hb : NoScoreBetween S n)
    (hn : ∀ e, (containing sources e).length ≤ n) (hx : ∀ c ∈ candidates ++ rest, c.exhausted = false)
    (hwithin : ∀ c ∈ candidates, target ≤ c.blockMaxDocid + 1) (hout : ∀ c ∈ rest, target ≤ c.docid)
    (hth : top.threshold = some threshold)
    (hlow : sum (candidates.map (·.blockMaxImpact)) < threshold) :
    ∀ e ∈ matching sources, e < target → e ∉ settled → Hopeless top (scored ix sources e) := by
  intro e he het hun
  have hleft : ∀ c ∈ candidates, c ∈ candidates ++ rest := fun c hc => List.mem_append_left _ hc
  refine h.hopeless_of_bound hs hv hb (hn e) he hun hleft
    (h.addrs.sublist ((List.sublist_append_left _ _).map _))
    (fun c hc => ((nonNegativeBounds hs hv).running (h.source c (hleft c hc))
      (h.consistent c (hleft c hc)) (hx c (hleft c hc))).2) (fun c hc q hq hqe => ?_) hth hlow
  have hcons := h.consistent c hc
  rcases List.mem_append.mp hc with hcand | hcr
  · refine ⟨hcand, hv.block _ (h.source c hc) _ (hcons.live (hx c hc)).inBlocks _ ?_⟩
    have := hwithin c hcand
    exact hcons.mem_block (hx c hc) hq (by omega)
  · have := hcons.docid_le (hx c hc) hq
    have := hout c hcr
    omega

omit [One S] [Neg S] [RoundedAdd S] in
theorem settle_before (hmoved : Moved (· < d) live mid) (h : Inv ix sources live top settled)
    (hbefore : ∀ e ∈ matching sources, e < d → e ∉ settled → Hopeless top (scored ix sources e)) :
    ∃ settled', Inv ix sources mid top settled' ∧ ∀ e ∈ matching sources, e < d → e ∈ settled' := by
  obtain ⟨listed, hm, hperm⟩ := hmoved
  obtain ⟨settled', h', hmem⟩ := h.advance hm hbefore
  refine ⟨settled', h'.relist (fun c hc => hperm.mem_iff.mpr hc) (fun c hc _ => hperm.mem_iff.mp hc)
    ((hperm.map _).nodup_iff.mp h'.addrs), fun e he hlt => (hmem e).mpr (Or.inr ⟨he, hlt⟩)⟩

/-- With every document before the pivot settled, the turn keeps the invariant. -/
theorem settle_turn (h : Turn ix mid threshold d top pass live' top')
    (hinv : Inv ix sources mid top settled) (hs : WellFormed sources) (hv : ValidBounds ix sources)
    (hb : NoScoreBetween S n) (hn : ∀ e, (containing sources e).length ≤ n)
    (hth : top.threshold = some threshold) (hbefore : ∀ e ∈ matching sources, e < d → e ∈ settled) :
    top'.k = top.k ∧ ∃ settled', Inv ix sources live' top' settled' := by
  cases h with
  | score hf hne hpush =>
    obtain ⟨top'', settled', hpush', hk, hinv'⟩ := hinv.push hs hv hf hne
    obtain rfl := Option.some.inj (hpush.symm.trans hpush')
    exact ⟨hk, settled', hinv'⟩
  | drag hmem hx hlt =>
    obtain ⟨settled', hinv', -⟩ := hinv.advance (drag_moves hinv.standing hmem hx hlt).1
      fun e he hlt hun => absurd (hbefore e he hlt) hun
    exact ⟨rfl, settled', hinv'⟩
  | ranOut hmem hx => exact ⟨rfl, settled, hinv⟩
  | jump hsplit hx hpast hwithin hout hpivot hlow =>
    subst hsplit
    have hmove := (jump_moves hinv.standing (fun c hc => hx c (List.mem_append_left _ hc)) hpivot hpast).1
    obtain ⟨settled', hinv', -⟩ := hinv.advance hmove
      (hopeless_in_span hinv hs hv hb hn hx hwithin hout hth hlow)
    exact ⟨rfl, settled', hinv'⟩

/-- Every pass achieves what it should. -/
theorem achieves_of_passed {s : WandState S} {result : Step (WandState S) (Outcome S)}
    (h : Passed ix s threshold mid pass result) (hth : s.top.threshold = some threshold)
    (hs : WellFormed sources) (hv : ValidBounds ix sources) (hb : NoScoreBetween S n)
    (hn : ∀ e, (containing sources e).length ≤ n) (hg : Good ix sources k s) :
    Achieves ix sources k (work s.live) result := by
  obtain ⟨rfl, settled, hinv⟩ := hg
  have hline := inv_lineUp hinv
  cases h with
  | ends hsame hlow =>
    have hdone := hline.drain_eq (hopeless_of_total hline hs hv hb hn
      (fun c hc => (mem_lineUp.mp hc).2) hth hlow)
    exact ⟨_, by rw [hdone]⟩
  | turns hp hreach hmoved hturn hcount =>
    obtain ⟨-, hwork⟩ := (Passed.turns hp hreach hmoved hturn hcount).moves hinv.standing
    obtain ⟨settled', hmid, hbefore⟩ := settle_before hmoved hline
      (hopeless_before_pivot hline hs hv hb hn hth hp)
    obtain ⟨hk, hinv'⟩ := settle_turn hturn hmid hs hv hb hn hth hbefore
    exact ⟨⟨hk, hinv'⟩, hwork.trans_le (work_lineUp s)⟩

/-- One pass of `wand`. -/
theorem wandStep_achieves {s : WandState S} (hs : WellFormed sources) (hv : ValidBounds ix sources)
    (hb : NoScoreBetween S n) (hn : ∀ e, (containing sources e).length ≤ n)
    (hg : Good ix sources k s) : Achieves ix sources k (work s.live) (wandStep ix s) := by
  obtain ⟨hk, settled, hinv⟩ := hg
  obtain ⟨threshold, hth, -⟩ := TopK.threshold_spec hinv.holds hinv.positive
  have hpassed := wandStep_passed ix hinv.standing hinv.holds hinv.positive hth
  exact achieves_of_passed hpassed hth hs hv hb hn ⟨hk, settled, hinv⟩

/-- One pass of `block_max_wand`. -/
theorem blockMaxWandStep_achieves {s : WandState S} (hs : WellFormed sources)
    (hv : ValidBounds ix sources) (hb : NoScoreBetween S n)
    (hn : ∀ e, (containing sources e).length ≤ n) (hg : Good ix sources k s) :
    Achieves ix sources k (work s.live) (blockMaxWandStep ix s) := by
  obtain ⟨hk, settled, hinv⟩ := hg
  obtain ⟨threshold, hth, -⟩ := TopK.threshold_spec hinv.holds hinv.positive
  obtain ⟨mid, hpassed⟩ := blockMaxWandStep_passed ix hinv.standing (nonNegativeBounds hs hv)
    hinv.holds hinv.positive hth
  exact achieves_of_passed hpassed hth hs hv hb hn ⟨hk, settled, hinv⟩

end Settled

section Pruned

variable {S : Type} [LinearOrder S] [Zero S] [Add S] {ix : Index S}
  {sources : List (PostingSource S)} {k n : Nat}

/-- A loop whose passes all achieve what they should returns the reference
answer. -/
theorem returns_of_achieves {step : WandState S → Step (WandState S) (Outcome S)}
    (hs : WellFormed sources) (hk : 0 < k)
    (hstep : ∀ s, Good ix sources k s → Achieves ix sources k (work s.live) (step s)) :
    ∃ stats, Returns step (wandInit (sources.map PostingCursor.open) k)
      (.ok (ranked ix sources k, stats)) := by
  have hinit : Good ix sources k (wandInit (sources.map PostingCursor.open) k) :=
    ⟨rfl, [], inv_open hs hk⟩
  obtain ⟨outcome, hret, stats, rfl⟩ := returns_of_variant step
    (Good ix sources k) (fun o => ∃ stats, o = .ok (ranked ix sources k, stats))
    (fun s => work s.live)
    (fun s s' h hs' => by have := hstep s h; rwa [hs'] at this)
    (fun s b h hb => by have := hstep s h; rwa [hb] at this) _ hinit
  exact ⟨stats, hret⟩

variable [One S] [Neg S] [RoundedAdd S]

theorem wand_returns (hs : WellFormed sources) (hv : ValidBounds ix sources)
    (hb : NoScoreBetween S n) (hn : ∀ e, (containing sources e).length ≤ n) (hk : 0 < k) :
    ∃ stats, Returns (wandStep ix) (wandInit (sources.map PostingCursor.open) k)
      (.ok (ranked ix sources k, stats)) :=
  returns_of_achieves hs hk fun _ hg => wandStep_achieves hs hv hb hn hg

theorem blockMaxWand_returns (hs : WellFormed sources) (hv : ValidBounds ix sources)
    (hb : NoScoreBetween S n) (hn : ∀ e, (containing sources e).length ≤ n) (hk : 0 < k) :
    ∃ stats, Returns (blockMaxWandStep ix) (wandInit (sources.map PostingCursor.open) k)
      (.ok (ranked ix sources k, stats)) :=
  returns_of_achieves hs hk fun _ hg => blockMaxWandStep_achieves hs hv hb hn hg

end Pruned

/-- Exact top-k safety of both pruned evaluators. -/
theorem pruned_eq_exhaustive (ix : Index ℚ) (sources : List (PostingSource ℚ))
    (hs : WellFormed sources) (hv : ValidBounds ix sources) (k : Nat) (hk : 1 ≤ k) :
    ∃ results daatStats wandStats blockMaxStats,
      Returns (daatStep ix) (daatInit (sources.map PostingCursor.open) k)
        (.ok (results, daatStats)) ∧
      Returns (wandStep ix) (wandInit (sources.map PostingCursor.open) k)
        (.ok (results, wandStats)) ∧
      Returns (blockMaxWandStep ix) (wandInit (sources.map PostingCursor.open) k)
        (.ok (results, blockMaxStats)) := by
  have hn : ∀ e, (containing sources e).length ≤ sources.length :=
    fun e => (List.filter_sublist).length_le
  obtain ⟨daatStats, hdaat⟩ := daatOr_returns ix hs hk
  obtain ⟨wandStats, hwand⟩ := wand_returns hs hv (noScoreBetween_rat _) hn hk
  obtain ⟨blockMaxStats, hblock⟩ := blockMaxWand_returns hs hv (noScoreBetween_rat _) hn hk
  exact ⟨ranked ix sources k, daatStats, wandStats, blockMaxStats, hdaat, hwand, hblock⟩

/-- Two cursors that share document 5, one block each, with room in the bounds. -/
def sharedDocument : List (PostingSource ℚ) :=
  [{ blocks := fun _ => { maxDocid := 5, count := 2, payloadOffset := 0, maxImpact := 2 }
     numBlocks := 1, payload := fun i => [3, 2, 1, 2].getD i 0
     idf := 1, maxImpact := 2, addr := 0 },
   { blocks := fun _ => { maxDocid := 5, count := 1, payloadOffset := 0, maxImpact := 2 }
     numBlocks := 1, payload := fun i => [5, 1].getD i 0
     idf := 1, maxImpact := 2, addr := 1 }]

def sharedDocumentIndex : Index ℚ where
  bm25 := Bm25.exact id BM25Params.default
  docCount := 6
  avgDl := 3
  docLengths _ := 3
  termCount := 2
  termRecords _ := ⟨0, 0, 0, 0, 0, 0⟩
  termStrings := []
  postings := []
  docidOffsets _ := 0
  docidBlob := []

theorem sharedDocument_wellFormed : WellFormed sharedDocument where
  source t ht := by
    have hcases : t = sharedDocument[0] ∨ t = sharedDocument[1] := by
      simpa [sharedDocument] using ht
    rcases hcases with rfl | rfl
    · constructor
      · decide
      · decide
      · decide
      · intro i hi p hp
        obtain rfl : i = 0 := Nat.lt_one_iff.mp hi
        rw [show sharedDocument[0].blockPostings 0 = [⟨3, 1⟩, ⟨5, 2⟩] from by decide] at hp
        cases hp
        rfl
      · decide
    · constructor
      · decide
      · decide
      · decide
      · intro i hi p hp
        obtain rfl : i = 0 := Nat.lt_one_iff.mp hi
        rw [show sharedDocument[1].blockPostings 0 = [⟨5, 1⟩] from by decide] at hp
        cases hp
        rfl
      · decide
  addrs := by decide

theorem sharedDocument_validBounds : ValidBounds sharedDocumentIndex sharedDocument where
  nonneg := by decide +kernel
  block := by decide +kernel
  term := by decide +kernel

theorem pruned_eq_exhaustive_shared :
    ∃ results daatStats wandStats blockMaxStats,
      Returns (daatStep sharedDocumentIndex)
        (daatInit (sharedDocument.map PostingCursor.open) 1) (.ok (results, daatStats)) ∧
      Returns (wandStep sharedDocumentIndex)
        (wandInit (sharedDocument.map PostingCursor.open) 1) (.ok (results, wandStats)) ∧
      Returns (blockMaxWandStep sharedDocumentIndex)
        (wandInit (sharedDocument.map PostingCursor.open) 1) (.ok (results, blockMaxStats)) :=
  pruned_eq_exhaustive sharedDocumentIndex sharedDocument sharedDocument_wellFormed
    sharedDocument_validBounds 1 (by decide)

end CascadeSearch.Query.PruningSafety
