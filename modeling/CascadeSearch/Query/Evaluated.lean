import CascadeSearch.Query.Turns

/-!
# What has been evaluated so far

`Traced` relates a loop's state to the log of its evaluations: the log ascends,
every evaluated document lies behind every cursor, and the heap holds the best
of what was pushed. `Accounted` says where each posting has gone: it is still to
be delivered, it was scored, or it was lost for a reason. What a pass can lose
is said once (`Loss`); each result supplies its own reason.
-/
namespace CascadeSearch.Query.Evaluated

open Lib.Fallible Lib.Loop Lib.LoopTrace Lib.RoundedSum
open Index.Format
open Cursor Heap Reader Evaluate Pruning Passes Turns

section Trace

variable {S : Type} [Zero S] [Add S] {ix : Index S} {sources : List (PostingSource S)}
  {live live' mid : List (PostingCursor S)} {stats stats' : SearchStats}
  {log : List (Evaluation S)} {threshold : S} {d : Nat} {lose : Nat → Prop}

/-- Some of the sources that contain the document, in their order, and the sum
of what they give it. -/
structure Genuine (ix : Index S) (sources : List (PostingSource S)) (e : Evaluation S) : Prop where
  nonempty : e.hits ≠ []
  terms : e.terms.Sublist (containing sources e.docid)
  score : e.score ix = sum (e.terms.map (sourceScore ix e.docid))

theorem genuine_of_front (ix : Index S) (hst : Standing sources live) (hs : WellFormed sources)
    {hits : List (PostingCursor S)} (hf : AtFront live hits d) (hne : hits ≠ []) :
    Genuine ix sources ⟨d, hits⟩ where
  nonempty := hne
  terms := by
    refine sublist_of_addrs (List.pairwise_map.mpr hf.addrs) (hs.addrs.filter _) fun t ht => ?_
    obtain ⟨c, hc, rfl⟩ := List.mem_map.mp ht
    obtain ⟨hlive, p, hp, hd⟩ := (hst.mem_hits hf).mp hc
    exact mem_containing.mpr ⟨hst.source c hlive, p, (hst.consistent c hlive).suffix.mem hp, hd⟩
  score := by
    rw [Evaluation.terms, List.map_map]
    exact accumulate_eq_sum hst hf

namespace Genuine

variable {e : Evaluation S} (h : Genuine ix sources e)
include h

theorem known : e.docid ∈ matching sources := by
  obtain ⟨c, hc⟩ := List.exists_mem_of_ne_nil _ h.nonempty
  obtain ⟨ht, p, hp, hd⟩ := mem_containing.mp (h.terms.mem (List.mem_map_of_mem hc))
  exact mem_matching.mpr ⟨_, ht, p, hp, hd⟩

theorem length_le : e.hits.length ≤ (containing sources e.docid).length := by
  have := h.terms.length_le
  rwa [Evaluation.terms, List.length_map] at this

theorem terms_eq (hs : WellFormed sources) (hall : ∀ t ∈ containing sources e.docid, t ∈ e.terms) :
    e.terms = containing sources e.docid :=
  h.terms.antisymm (sublist_of_addrs (hs.addrs.filter _) ((hs.addrs.filter _).sublist h.terms) hall)

/-- Scored by every source that contains it, the document has its full score. -/
theorem score_eq (hall : e.terms = containing sources e.docid) :
    e.score ix = docScore ix sources e.docid := by
  rw [h.score, hall, docScore]

end Genuine

variable [LinearOrder S] {top top' : TopK S} {k : Nat}

structure Traced (ix : Index S) (sources : List (PostingSource S)) (k : Nat)
    (live : List (PostingCursor S)) (top : TopK S) (stats : SearchStats) (log : List (Evaluation S)) :
    Prop where
  standing : Standing sources live
  capacity : top.k = k
  positive : 0 < top.k
  holds : top.Holds (log.map (Evaluation.result ix))
  behind : ∀ e ∈ log, ∀ c ∈ live, ∀ p ∈ c.remaining, e.docid < p.docid
  ascending : log.Pairwise (fun e f => f.docid < e.docid)
  genuine : ∀ e ∈ log, Genuine ix sources e
  postings : stats.postingsScored = (log.map (·.hits.length)).sum
  evaluations : stats.fullEvaluations = log.length

/-- At the start nothing has been evaluated. -/
theorem traced_open (hs : WellFormed sources) (hk : 0 < k) :
    Traced ix sources k (sources.map PostingCursor.open) (TopK.empty k) {} [] where
  standing := standing_open hs
  capacity := rfl
  positive := hk
  holds := TopK.holds_empty k
  behind e he := by cases he
  ascending := List.Pairwise.nil
  genuine e he := by cases he
  postings := rfl
  evaluations := rfl

namespace Traced

theorem lineUp {s : WandState S} (h : Traced ix sources k s.live s.top s.stats log) :
    Traced ix sources k (lineUp s) s.top s.stats log :=
  { h with
    standing := standing_lineUp h.standing
    behind := fun e he c hc => h.behind e he c (mem_lineUp.mp hc).1 }

theorem move (h : Traced ix sources k live top stats log) (hm : Moved lose live live') :
    Traced ix sources k live' top stats log :=
  { h with
    standing := hm.standing h.standing
    behind := fun e he c' hc' p hp => by
      obtain ⟨c, hc, hmove⟩ := hm.right hc'
      exact h.behind e he c hc p (hmove.subset hp) }

theorem count (h : Traced ix sources k live top stats log)
    (hc : Counted stats stats' (none : Option (Evaluation S))) :
    Traced ix sources k live top stats' log :=
  { h with postings := hc.1.trans h.postings, evaluations := hc.2.trans h.evaluations }

/-- Scoring the document in front adds it to the log. -/
theorem score (h : Traced ix sources k live top stats log) (hs : WellFormed sources)
    {hits : List (PostingCursor S)} (hf : AtFront live hits d) (hne : hits ≠ [])
    (hpush : top.push d (accumulate ix d hits) = some top')
    (hc : Counted stats stats' (some (⟨d, hits⟩ : Evaluation S))) :
    Traced ix sources k (advanceAt d live) top' stats' (⟨d, hits⟩ :: log) := by
  obtain ⟨top'', hpush', hk, hholds, -⟩ := TopK.push_spec h.holds h.positive d (accumulate ix d hits)
  obtain rfl := Option.some.inj (hpush.symm.trans hpush')
  have hst := h.standing
  constructor
  · exact hst.move (hst.movesTo_advanceAt (d := d))
  · exact hk.trans h.capacity
  · exact hk ▸ h.positive
  · exact hholds
  · intro e he c' hc' p hp
    rcases List.mem_cons.mp he with rfl | he
    · exact hst.past_advanceAt hf hc' hp
    · obtain ⟨c, hc, hm⟩ := exists_left (hst.movesTo_advanceAt (d := d)) hc'
      exact h.behind e he c hc p (hm.subset hp)
  · refine List.pairwise_cons.mpr ⟨fun e he => ?_, h.ascending⟩
    obtain ⟨c, hc⟩ := List.exists_mem_of_ne_nil _ hne
    obtain ⟨hlive, p, hp, hpd⟩ := (hst.mem_hits hf).mp hc
    have := h.behind e he c hlive p hp
    exact hpd ▸ this
  · intro e he
    rcases List.mem_cons.mp he with rfl | he
    · exact genuine_of_front ix hst hs hf hne
    · exact h.genuine e he
  · rw [hc.1, h.postings, List.map_cons, List.sum_cons, Nat.add_comm]
    rfl
  · rw [hc.2, h.evaluations]
    rfl

end Traced

variable {s s' : WandState S} {pass : Pass S}

/-- A pass adds its evaluation to the log. -/
theorem traced_of_passed (h : Passed ix s threshold mid pass (.next s'))
    (ht : Traced ix sources k s.live s.top s.stats log) (hs : WellFormed sources) :
    Traced ix sources k s'.live s'.top s'.stats (pass.evaluation.toList ++ log) := by
  cases h with
  | turns hp hreach hmoved hturn hcount =>
    have hmid := ht.lineUp.move hmoved
    have hmoves := (hturn.moves hmid.standing).1
    generalize s'.live = live', s'.top = top' at hturn hmoves ⊢
    cases hturn with
    | score hf hne hpush => exact hmid.score hs hf hne hpush hcount
    | drag => exact (hmid.move hmoves).count hcount
    | ranOut => exact (hmid.move hmoves).count hcount
    | jump => exact (hmid.move hmoves).count hcount

/-- The documents evaluated are distinct matching ones. -/
theorem Traced.docids (h : Traced ix sources k live top stats log) :
    (log.map (·.docid)).Nodup ∧ ∀ e ∈ log, e.docid ∈ matching sources := by
  refine ⟨?_, fun e he => (h.genuine e he).known⟩
  exact List.pairwise_map.mpr (h.ascending.imp fun hlt => hlt.ne')

end Trace

theorem Genuine.score_nonneg {S : Type} [LinearOrder S] [Zero S] [One S] [Neg S] [Add S] [RoundedAdd S]
    {ix : Index S} {sources : List (PostingSource S)} {e : Evaluation S} (h : Genuine ix sources e)
    (hv : ValidBounds ix sources) : 0 ≤ e.score ix := by
  rw [h.score]
  refine sum_nonneg fun x hx => ?_
  obtain ⟨t, ht, rfl⟩ := List.mem_map.mp hx
  exact sourceScore_nonneg hv (mem_containing.mp (h.terms.mem ht)).1

section Account

variable {S : Type} {sources : List (PostingSource S)} {live live' : List (PostingCursor S)}
  {log : List (Evaluation S)} {lost lost' : PostingSource S → Nat → Prop}

/-- Every posting is still to be delivered, has been scored, or is lost for a reason. -/
def Accounted (sources : List (PostingSource S)) (live : List (PostingCursor S))
    (log : List (Evaluation S)) (lost : PostingSource S → Nat → Prop) : Prop :=
  ∀ t ∈ sources, ∀ p ∈ t.all,
    (∃ c ∈ live, c.toPostingSource = t ∧ p ∈ c.remaining) ∨
      (∃ e ∈ log, e.docid = p.docid ∧ t ∈ e.terms) ∨ lost t p.docid

theorem accounted_open (hs : WellFormed sources) :
    Accounted sources (sources.map PostingCursor.open) [] lost := by
  intro t ht p hp
  refine Or.inl ⟨PostingCursor.open t, List.mem_map_of_mem ht, PostingCursor.open_source t, ?_⟩
  rw [(PostingCursor.open_spec (hs.source t ht)).2]
  exact hp

/-- What no cursor still delivers has been scored by every source or lost by one. -/
theorem Accounted.settled {d : Nat} (h : Accounted sources live log lost)
    (hgone : ∀ c ∈ live, ∀ p ∈ c.remaining, p.docid ≠ d) {t : PostingSource S}
    (ht : t ∈ containing sources d) : (∃ e ∈ log, e.docid = d ∧ t ∈ e.terms) ∨ lost t d := by
  obtain ⟨hmem, p, hp, rfl⟩ := mem_containing.mp ht
  rcases h t hmem p hp with ⟨c, hc, -, hpc⟩ | hrest
  · exact absurd rfl (hgone c hc p hpc)
  · exact hrest

variable {c c' : PostingCursor S} {p : Posting}

/-- After a jump every remaining posting is at its target or beyond. -/
theorem le_of_jump {candidates rest : List (PostingCursor S)} {target : Nat}
    (hst : Standing sources (candidates ++ rest)) (hx : ∀ c ∈ candidates ++ rest, c.exhausted = false)
    (hout : ∀ c ∈ rest, target ≤ c.docid)
    (hc' : c' ∈ candidates.map (fun c => if c.docid < target then c.nextGeq target else c) ++ rest)
    (hp : p ∈ c'.remaining) : target ≤ p.docid := by
  rcases List.mem_append.mp hc' with hc' | hc'
  · obtain ⟨e, he, rfl⟩ := List.mem_map.mp hc'
    have hmem := List.mem_append_left rest he
    by_cases hlt : e.docid < target
    · rw [if_pos hlt] at hp
      obtain ⟨hcons, hrem⟩ := @PostingCursor.nextGeq_spec _ e target (hst.consistent e hmem)
      have hasc := hcons.ascending
      rw [hrem] at hp hasc
      have hnot := List.head?_dropWhile_not (fun q : Posting => decide (q.docid < target)) e.remaining
      cases hdrop : e.remaining.dropWhile (fun q => q.docid < target) with
      | nil => rw [hdrop] at hp; cases hp
      | cons q qs =>
        rw [hdrop] at hp hasc hnot
        have hq : target ≤ q.docid := by simpa using hnot
        rcases List.mem_cons.mp hp with rfl | hp
        · exact hq
        · exact hq.trans (List.rel_of_pairwise_cons hasc hp).le
    · rw [if_neg hlt] at hp
      have := (hst.consistent e hmem).docid_le (hx e hmem) hp
      omega
  · have hmem := List.mem_append_right candidates hc'
    exact (hout c' hc').trans ((hst.consistent c' hmem).docid_le (hx c' hmem) hp)

variable [LinearOrder S] [Zero S] [Add S] {ix : Index S} {mid : List (PostingCursor S)}
  {threshold : S} {s s' : WandState S} {pass : Pass S}

/-- Why a pass from the cursors `live` to the cursors `live'` takes a posting
from a cursor: it scores it, it moves the cursor towards a pivot beyond it, or
it leaves the whole span it is in. -/
inductive Loss (threshold : S) (live live' : List (PostingCursor S)) (pass : Pass S)
    (c : PostingCursor S) (p : Posting) : Prop
  | scored {e : Evaluation S} (evaluated : pass.evaluation = some e) (docid : e.docid = p.docid)
      (term : c.toPostingSource ∈ e.terms)
  | before {i d : Nat} (pivoted : Pivoted live threshold i d)
      (reached : threshold ≤ sum ((live.take (i + 1)).map (·.maxImpact))) (lt : p.docid < d)
  | span (jumps : pass = .jumps) (positive : 0 < threshold)
      (cleared : ∀ c' ∈ live', ∀ q ∈ c'.remaining, p.docid < q.docid)

variable [One S] [Neg S] [RoundedAdd S]

/-- A posting that a pass takes from a cursor it takes for one of three reasons. -/
theorem loses_of_passed (h : Passed ix s threshold mid pass (.next s')) (hst : Standing sources s.live)
    (hb : NonNegativeBounds sources) (hc : c ∈ lineUp s) (hp : p ∈ c.remaining) (hc' : c' ∈ s'.live)
    (hsrc : c'.toPostingSource = c.toPostingSource) (hout : p ∉ c'.remaining) :
    Loss threshold (lineUp s) s'.live pass c p := by
  have hst' := (h.moves hst).1.standing (standing_lineUp hst)
  cases h with
  | turns hpiv hreach hmoved hturn hcount =>
    have hmid := hmoved.standing (standing_lineUp hst)
    obtain ⟨m, hm, hcm⟩ := hmoved.left hc
    by_cases hpm : p ∈ m.remaining
    swap
    · by_contra hnot
      exact hpm (hcm.kept hp fun hlt => hnot (Loss.before hpiv hreach hlt))
    -- the turn itself has taken it: follow the cursor from `mid` on
    have hfollow : ∀ {lose : Nat → Prop}, List.Forall₂ (MovesTo lose) mid s'.live → lose p.docid := by
      intro lose hmove
      obtain ⟨m', hm', hmm⟩ := exists_right hmove hm
      obtain rfl := hst'.eq_of_addr hm' hc' (by rw [hmm.source, hcm.source, hsrc])
      by_contra hkeep
      exact hout (hmm.kept hpm hkeep)
    generalize hlive : s'.live = live', htop : s'.top = top' at hturn
    cases hturn with
    | score hf hne hpush =>
      have hd := hfollow (hlive ▸ hmid.movesTo_advanceAt)
      refine Loss.scored rfl hd.symm (List.mem_map.mpr ⟨m, (hmid.mem_hits hf).mpr ⟨hm, p, hpm, hd⟩, hcm.source⟩)
    | drag hmem hx hlt => exact Loss.before hpiv hreach (hfollow (hlive ▸ (drag_moves hmid hmem hx hlt).1))
    | ranOut hmem hx =>
      have hsame : List.Forall₂ (MovesTo fun _ => False) mid s'.live := by
        rw [hlive]
        exact List.forall₂_same.mpr fun e he => MovesTo.refl (hmid.consistent e he)
      exact absurd (hfollow hsame) id
    | @jump candidates rest target hsplit hx hpast hwithin hrest hpivot hlow =>
      subst hsplit
      have hleft : ∀ e ∈ candidates, e ∈ candidates ++ rest := fun e he => List.mem_append_left _ he
      have hlt := hfollow (hlive ▸ (jump_moves hmid (fun e he => hx e (hleft e he)) hpivot hpast).1)
      refine Loss.span rfl ((sum_nonneg fun x hxm => ?_).trans_lt hlow) fun e he q hq => ?_
      · obtain ⟨e, he, rfl⟩ := List.mem_map.mp hxm
        have he' := hleft e he
        exact (hb.running (hmid.source e he') (hmid.consistent e he') (hx e he')).2
      · exact hlt.trans_le (le_of_jump hmid hx hrest (hlive ▸ he) hq)

/-- A pass keeps the account when its reasons cover what it takes unscored. -/
theorem accounted_of_passed (h : Passed ix s threshold mid pass (.next s')) (hst : Standing sources s.live)
    (hb : NonNegativeBounds sources) (hacc : Accounted sources s.live log lost)
    (hstay : ∀ t d, lost t d → lost' t d)
    (hbefore : ∀ i d, Pivoted (lineUp s) threshold i d →
      threshold ≤ sum (((lineUp s).take (i + 1)).map (·.maxImpact)) →
      ∀ c ∈ lineUp s, ∀ p ∈ c.remaining, p.docid < d →
        (∀ c' ∈ s'.live, c'.toPostingSource = c.toPostingSource → p ∉ c'.remaining) →
          lost' c.toPostingSource p.docid)
    (hspan : pass = .jumps → 0 < threshold → ∀ c ∈ lineUp s, ∀ p ∈ c.remaining,
      (∀ c' ∈ s'.live, ∀ q ∈ c'.remaining, p.docid < q.docid) → lost' c.toPostingSource p.docid) :
    Accounted sources s'.live (pass.evaluation.toList ++ log) lost' := by
  intro t ht p hp
  rcases hacc t ht p hp with ⟨c, hc, rfl, hpc⟩ | ⟨e, he, hed, hte⟩ | hlost
  · have hline := mem_lineUp.mpr ⟨hc, running_of_mem hpc⟩
    obtain ⟨c', hc', hm⟩ := (h.moves hst).1.left hline
    by_cases hpc' : p ∈ c'.remaining
    · exact Or.inl ⟨c', hc', hm.source, hpc'⟩
    · refine Or.inr ?_
      cases loses_of_passed h hst hb hline hpc hc' hm.source hpc' with
      | scored heval hdoc hterm =>
        refine Or.inl ⟨_, List.mem_append_left _ ?_, hdoc, hterm⟩
        rw [heval]
        exact List.mem_singleton_self _
      | before hpiv hreach hlt =>
        refine Or.inr (hbefore _ _ hpiv hreach c hline p hpc hlt fun e he hes => ?_)
        have hst' := (h.moves hst).1.standing (standing_lineUp hst)
        obtain rfl := hst'.eq_of_addr he hc' (by rw [hes, hm.source])
        exact hpc'
      | span hjump hpos hclear => exact Or.inr (hspan hjump hpos c hline p hpc hclear)
  · exact Or.inr (Or.inl ⟨e, List.mem_append_right _ he, hed, hte⟩)
  · exact Or.inr (Or.inr (hstay t p.docid hlost))

end Account

section Runs

variable {S : Type} [LinearOrder S] [Zero S] [Add S] {ix : Index S} {sources : List (PostingSource S)}
  {step : WandState S → Step (WandState S) (Outcome S)} {pass : WandState S → Pass S} {k : Nat}

/-- A pruned loop: `pass` tells what each of its passes is. -/
def Steps (ix : Index S) (sources : List (PostingSource S))
    (step : WandState S → Step (WandState S) (Outcome S)) (pass : WandState S → Pass S) : Prop :=
  ∀ (s : WandState S) (seen : List (Result S)) (threshold : S), Standing sources s.live →
    s.top.Holds seen → 0 < s.top.k → s.top.threshold = some threshold →
      ∃ mid, Passed ix s threshold mid (pass s) (step s)

theorem wand_steps (ix : Index S) : Steps ix sources (wandStep ix) wandPass := fun s _ _ hst hholds hk hth =>
  ⟨lineUp s, wandStep_passed ix hst hholds hk hth⟩

/-- How far a loop has come with its log: what holds besides the trace is `Extra`. -/
structure Stage (ix : Index S) (sources : List (PostingSource S)) (k : Nat)
    (Extra : List (Evaluation S) → WandState S → Prop) (log : List (Evaluation S)) (s : WandState S) :
    Prop where
  traced : Traced ix sources k s.live s.top s.stats log
  extra : Extra log s

variable {Extra : List (Evaluation S) → WandState S → Prop}

/-- What a result adds to the trace has only to be kept by every pass. -/
def Keeping (ix : Index S) (sources : List (PostingSource S)) (k : Nat)
    (step : WandState S → Step (WandState S) (Outcome S)) (pass : WandState S → Pass S)
    (Extra : List (Evaluation S) → WandState S → Prop) : Prop :=
  ∀ (log : List (Evaluation S)) (s s' : WandState S), Stage ix sources k Extra log s →
    step s = .next s' → Extra ((pass s).evaluation.toList ++ log) s'

theorem Stage.passed {log : List (Evaluation S)} {s : WandState S} (hsteps : Steps ix sources step pass)
    (h : Stage ix sources k Extra log s) :
    ∃ threshold mid, s.top.threshold = some threshold ∧ Passed ix s threshold mid (pass s) (step s) := by
  obtain ⟨threshold, hth, -⟩ := TopK.threshold_spec h.traced.holds h.traced.positive
  obtain ⟨mid, hpassed⟩ := hsteps s _ threshold h.traced.standing h.traced.holds h.traced.positive hth
  exact ⟨threshold, mid, hth, hpassed⟩

theorem Stage.next (hsteps : Steps ix sources step pass) (hs : WellFormed sources)
    (hkeep : Keeping ix sources k step pass Extra) {log : List (Evaluation S)} {s s' : WandState S}
    (h : Stage ix sources k Extra log s) (hstep : step s = .next s') :
    Stage ix sources k Extra ((pass s).evaluation.toList ++ log) s' ∧ work s'.live < work s.live := by
  obtain ⟨threshold, mid, hth, hpassed⟩ := h.passed hsteps
  rw [hstep] at hpassed
  obtain ⟨-, hwork⟩ := hpassed.moves h.traced.standing
  exact ⟨⟨traced_of_passed hpassed h.traced hs, hkeep log s s' h hstep⟩,
    hwork.trans_le (work_lineUp s)⟩

theorem stage_init (hs : WellFormed sources) (hk : 0 < k)
    (hstart : Extra [] (wandInit (sources.map PostingCursor.open) k)) :
    Stage ix sources k Extra [] (wandInit (sources.map PostingCursor.open) k) :=
  ⟨traced_open hs hk, hstart⟩

/-- Every state a loop reaches is at a stage. -/
theorem stage_of_reaches (hsteps : Steps ix sources step pass) (hs : WellFormed sources) (hk : 0 < k)
    (hstart : Extra [] (wandInit (sources.map PostingCursor.open) k))
    (hkeep : Keeping ix sources k step pass Extra) {log : List (Evaluation S)} {s : WandState S}
    (h : Reaches step (fun s => (pass s).evaluation) (wandInit (sources.map PostingCursor.open) k) log s) :
    Stage ix sources k Extra log s :=
  h.invariant (stage_init hs hk hstart) fun _ _ _ hstage hstep =>
    (hstage.next hsteps hs hkeep hstep).1

/-- The last state of a loop: nothing in front of it can reach the threshold. -/
structure Last (ix : Index S) (sources : List (PostingSource S)) (k : Nat)
    (Extra : List (Evaluation S) → WandState S → Prop) (log : List (Evaluation S))
    (results : List (Result S)) (stats : SearchStats) (s : WandState S) (threshold : S) : Prop where
  stage : Stage ix sources k Extra log s
  results : results = s.top.drain
  same : SameWork s.stats stats
  bound : s.top.threshold = some threshold
  low : lineUp s ≠ [] → sum ((lineUp s).map (·.maxImpact)) < threshold

/-- Every loop of passes ends, and in a last state. -/
theorem ends_of_steps (hsteps : Steps ix sources step pass) (hs : WellFormed sources) (hk : 0 < k)
    (hstart : Extra [] (wandInit (sources.map PostingCursor.open) k))
    (hkeep : Keeping ix sources k step pass Extra) :
    ∃ log results stats, Ends step (fun s => (pass s).evaluation)
        (wandInit (sources.map PostingCursor.open) k) log (.ok (results, stats)) ∧
      ∃ s threshold, Last ix sources k Extra log results stats s threshold := by
  obtain ⟨log, outcome, hends, results, stats, rfl, s, threshold, hlast⟩ := @ends_of_variant
    _ _ _ step (fun s => (pass s).evaluation) _ (Stage ix sources k Extra)
    (fun log outcome => ∃ results stats, outcome = .ok (results, stats) ∧
      ∃ s threshold, Last ix sources k Extra log results stats s threshold)
    (fun s => work s.live) (fun _ _ _ hstage hstep => hstage.next hsteps hs hkeep hstep)
    (fun log s outcome hstage hstep => by
      obtain ⟨threshold, mid, hth, hpassed⟩ := hstage.passed hsteps
      rw [hstep] at hpassed
      generalize pass s = p at hpassed
      cases hpassed with
      | ends hsame hlow => exact ⟨_, _, rfl, s, threshold, hstage, rfl, hsame, hth, hlow⟩)
    (stage_init hs hk hstart)
  exact ⟨log, results, stats, hends, s, threshold, hlast⟩

variable [One S] [Neg S] [RoundedAdd S]

theorem blockMaxWand_steps (ix : Index S) (hb : NonNegativeBounds sources) :
    Steps ix sources (blockMaxWandStep ix) blockMaxWandPass := fun _ _ _ hst hholds hk hth =>
  blockMaxWandStep_passed ix hst hb hholds hk hth

end Runs

section Exhaustive

variable {S : Type} [LinearOrder S] [Zero S] [Add S] {ix : Index S} {sources : List (PostingSource S)}
  {live : List (PostingCursor S)} {top : TopK S} {stats : SearchStats} {log : List (Evaluation S)}
  {k d : Nat} {s : DaatState S}

/-- A document is evaluated once, so by all of the sources that some evaluation
of it has used. -/
theorem Traced.exists_full (h : Traced ix sources k live top stats log) (hs : WellFormed sources)
    (hd : d ∈ matching sources)
    (hall : ∀ t ∈ containing sources d, ∃ e ∈ log, e.docid = d ∧ t ∈ e.terms) :
    ∃ e ∈ log, e.docid = d ∧ e.terms = containing sources d := by
  obtain ⟨t, ht, p, hp, hpd⟩ := mem_matching.mp hd
  obtain ⟨e, he, rfl, -⟩ := hall t (mem_containing.mpr ⟨ht, p, hp, hpd⟩)
  refine ⟨e, he, rfl, (h.genuine e he).terms_eq hs fun u hu => ?_⟩
  obtain ⟨f, hf, hfd, huf⟩ := hall u hu
  obtain rfl := List.inj_on_of_nodup_map h.docids.1 hf he hfd
  exact huf

structure DaatStage (ix : Index S) (sources : List (PostingSource S)) (k : Nat)
    (log : List (Evaluation S)) (s : DaatState S) : Prop where
  sorted : s.cursors.Pairwise (fun a b => a.addr < b.addr)
  traced : Traced ix sources k s.cursors s.top s.stats log
  accounted : Accounted sources s.cursors log fun _ _ => False

theorem daatStage_init (hs : WellFormed sources) (hk : 0 < k) :
    DaatStage ix sources k [] (daatInit (sources.map PostingCursor.open) k) := by
  refine ⟨List.pairwise_map.mpr (hs.addrs.imp fun h => ?_), traced_open hs hk, accounted_open hs⟩
  rw [PostingCursor.open_source, PostingCursor.open_source]
  exact h

/-- Scoring the document in front takes its postings from the cursors, and no others. -/
theorem DaatStage.next (h : DaatStage ix sources k log s) (hs : WellFormed sources)
    {s' : DaatState S} (hstep : daatStep ix s = .next s') :
    DaatStage ix sources k ((daatEvaluates s).toList ++ log) s' ∧ work s'.cursors < work s.cursors := by
  have hst := h.traced.standing
  rcases daatStep_cases ix h.sorted hst h.traced.holds h.traced.positive with
    ⟨stats, hdone, -⟩ | ⟨d, hits, top', stats, hnext, heval, hf, hne, hpush, hcount⟩
  · cases hdone.symm.trans hstep
  · obtain rfl := Step.next.inj (hnext.symm.trans hstep)
    rw [heval]
    have hmove := hst.movesTo_advanceAt (d := d)
    refine ⟨⟨sorted_of_addrs hmove h.sorted, h.traced.score hs hf hne hpush hcount, ?_⟩,
      hst.work_advanceAt hf hne⟩
    intro t ht p hp
    rcases h.accounted t ht p hp with ⟨c, hc, rfl, hpc⟩ | ⟨e, he, hrest⟩ | hfalse
    · obtain ⟨c', hc', hm⟩ := exists_right hmove hc
      by_cases hd : p.docid = d
      · have hhit := (hst.mem_hits hf).mpr ⟨hc, p, hpc, hd⟩
        exact Or.inr (Or.inl ⟨_, List.mem_cons_self, hd.symm, List.mem_map_of_mem hhit⟩)
      · exact Or.inl ⟨c', hc', hm.source, hm.kept hpc hd⟩
    · exact Or.inr (Or.inl ⟨e, List.mem_cons_of_mem _ he, hrest⟩)
    · exact hfalse.elim

/-- What the exhaustive loop has done at its end: it has scored every matching
document by every source that contains it. -/
structure Complete (ix : Index S) (sources : List (PostingSource S)) (k : Nat)
    (log : List (Evaluation S)) (results : List (Result S)) (stats : SearchStats) : Prop where
  traced : ∃ live top, Traced ix sources k live top stats log ∧ results = top.drain
  full : ∀ d ∈ matching sources, ∃ e ∈ log, e.docid = d ∧ e.terms = containing sources d

theorem DaatStage.complete (h : DaatStage ix sources k log s) (hs : WellFormed sources)
    {outcome : Outcome S} (hstep : daatStep ix s = .done outcome) :
    ∃ results stats, outcome = .ok (results, stats) ∧ Complete ix sources k log results stats := by
  rcases daatStep_cases ix h.sorted h.traced.standing h.traced.holds h.traced.positive with
    ⟨stats, hdone, -, ⟨hp, hf⟩, hend⟩ | ⟨d, hits, top', stats, hnext, -⟩
  · obtain rfl := Step.done.inj (hdone.symm.trans hstep)
    have htraced : Traced ix sources k s.cursors s.top stats log :=
      { h.traced with postings := hp.trans h.traced.postings, evaluations := hf.trans h.traced.evaluations }
    refine ⟨_, _, rfl, ⟨s.cursors, s.top, htraced, rfl⟩, fun d hd => ?_⟩
    refine htraced.exists_full hs hd fun t ht => ?_
    have hgone : ∀ c ∈ s.cursors, ∀ p ∈ c.remaining, p.docid ≠ d := by
      intro c hc p hp
      rw [PostingCursor.remaining_of_exhausted (hend c hc)] at hp
      cases hp
    exact (h.accounted.settled hgone ht).resolve_right id
  · cases hnext.symm.trans hstep

theorem daat_ends (ix : Index S) (hs : WellFormed sources) (hk : 0 < k) :
    ∃ log results stats, Ends (daatStep ix) daatEvaluates (daatInit (sources.map PostingCursor.open) k)
        log (.ok (results, stats)) ∧ Complete ix sources k log results stats := by
  obtain ⟨log, outcome, hends, results, stats, rfl, hcomplete⟩ := ends_of_variant
    (DaatStage ix sources k)
    (fun log outcome => ∃ results stats, outcome = .ok (results, stats) ∧
      Complete ix sources k log results stats)
    (fun s => work s.cursors) (fun _ _ _ h hstep => h.next hs hstep)
    (fun _ _ _ h hstep => h.complete hs hstep) (daatStage_init hs hk)
  exact ⟨log, results, stats, hends, hcomplete⟩

/-- The heap holds as many results as there are evaluations, up to `k`. -/
theorem Traced.length_drain (h : Traced ix sources k live top stats log) :
    top.drain.length = min k log.length := by
  rw [TopK.drain, List.length_insertionSort, h.holds.keeps.1, h.capacity, List.length_map]

end Exhaustive

end CascadeSearch.Query.Evaluated
