import CascadeSearch.Lib.LoopTrace
import CascadeSearch.Query.Passes

/-!
# What one pass of a loop does

A pass of a pruned loop ends it, scores the document in front, drags a cursor
to the pivot, gives up because a cursor ran out, or jumps out of a span of
blocks. `wandPass` and `blockMaxWandPass` read off the state which of these a
pass will be, `Turn` says what it does to the cursors and the heap. Nothing
here asks whether a bound is valid.
-/
namespace CascadeSearch.Query.Turns

open Lib.Fallible Lib.Loop Lib.LoopTrace Lib.RoundedSum
open Index.Format
open Cursor Heap Reader Evaluate Pruning Passes

/-- A document scored, and the cursors it was scored by. -/
structure Evaluation (S : Type) where
  docid : Nat
  hits : List (PostingCursor S)

inductive Pass (S : Type) where
  | ends
  | scores (evaluation : Evaluation S)
  | drags (pivotDocid : Nat) (chosen : Option (PostingCursor S))
  | ranOut
  | jumps

section Reports

variable {S : Type}

/-- The sources an evaluation adds up. -/
def Evaluation.terms (e : Evaluation S) : List (PostingSource S) := e.hits.map (·.toPostingSource)

def Pass.evaluation : Pass S → Option (Evaluation S)
  | .scores e => some e
  | _ => none

/-- The counters after a pass that evaluated a document, or none. -/
def Counted (stats stats' : SearchStats) (evaluated : Option (Evaluation S)) : Prop :=
  stats'.postingsScored = stats.postingsScored + (evaluated.toList.map (·.hits.length)).sum ∧
    stats'.fullEvaluations = stats.fullEvaluations + evaluated.toList.length

theorem Counted.trans_same {stats stats' stats'' : SearchStats} {evaluated : Option (Evaluation S)}
    (hsame : SameWork stats stats') (h : Counted stats' stats'' evaluated) :
    Counted stats stats'' evaluated := by
  obtain ⟨hp, hf⟩ := hsame
  obtain ⟨hp', hf'⟩ := h
  exact ⟨hp ▸ hp', hf ▸ hf'⟩

variable [LinearOrder S] [Zero S] [One S] [Neg S] [Add S]

def Evaluation.score (ix : Index S) (e : Evaluation S) : S := accumulate ix e.docid e.hits

/-- What is pushed for the document. -/
def Evaluation.result (ix : Index S) (e : Evaluation S) : Result S := ⟨e.docid, e.score ix⟩

def daatEvaluates (s : DaatState S) : Option (Evaluation S) :=
  let current := currentDocid s.cursors
  if current = kNoDocid then none else some ⟨current, s.cursors.filter (isAt current)⟩

def wandPass (s : WandState S) : Pass S :=
  match selectPivot s with
  | .error _ => .ends
  | .ok p =>
      if p.live.head?.map (·.docid) = some p.pivotDocid then
        .scores ⟨p.pivotDocid, p.live.takeWhile (fun c => c.docid = p.pivotDocid)⟩
      else
        .drags p.pivotDocid
          (largestBound ((p.live.take p.pivotIndex).filter (fun c => c.docid < p.pivotDocid)))

def blockMaxWandPass (s : WandState S) : Pass S :=
  match selectPivot s with
  | .error _ => .ends
  | .ok p =>
      let (candidates, blockBound) :=
        positionBlocks p.pivotDocid 0 (p.live.take (candidateCount p))
      if blockBound < 0 then .ranOut
      else if p.threshold ≤ blockBound then
        let live := sortByDocid (candidates ++ p.live.drop (candidateCount p))
        if live.head?.map (·.docid) = some p.pivotDocid then
          .scores ⟨p.pivotDocid, live.takeWhile (fun c => c.docid = p.pivotDocid)⟩
        else .drags p.pivotDocid (largestBound (live.takeWhile (fun c => c.docid < p.pivotDocid)))
      else .jumps

def wandEvaluates (s : WandState S) : Option (Evaluation S) := (wandPass s).evaluation

end Reports

section Moves

variable {S : Type} {live live' live'' : List (PostingCursor S)} {lose lose' : Nat → Prop}
  {sources : List (PostingSource S)}

/-- Every cursor has moved forward, over postings that satisfy `lose`. -/
def Moved (lose : Nat → Prop) (live live' : List (PostingCursor S)) : Prop :=
  ∃ mid, List.Forall₂ (MovesTo lose) live mid ∧ mid.Perm live'

theorem Moved.of_forall₂ (h : List.Forall₂ (MovesTo lose) live live') : Moved lose live live' :=
  ⟨live', h, List.Perm.refl _⟩

theorem Moved.refl (h : ∀ c ∈ live, c.Consistent) : Moved lose live live :=
  Moved.of_forall₂ (List.forall₂_same.mpr fun c hc => MovesTo.refl (h c hc))

theorem Moved.relist (h : Moved lose live live') (hp : live'.Perm live'') : Moved lose live live'' := by
  obtain ⟨mid, hm, hperm⟩ := h
  exact ⟨mid, hm, hperm.trans hp⟩

theorem Moved.right (h : Moved lose live live') {c' : PostingCursor S} (hc' : c' ∈ live') :
    ∃ c ∈ live, MovesTo lose c c' := by
  obtain ⟨mid, hm, hperm⟩ := h
  exact exists_left hm (hperm.mem_iff.mpr hc')

theorem Moved.left (h : Moved lose live live') {c : PostingCursor S} (hc : c ∈ live) :
    ∃ c' ∈ live', MovesTo lose c c' := by
  obtain ⟨mid, hm, hperm⟩ := h
  obtain ⟨c', hc', hmove⟩ := exists_right hm hc
  exact ⟨c', hperm.mem_iff.mp hc', hmove⟩

theorem Moved.standing (h : Moved lose live live') (hst : Standing sources live) :
    Standing sources live' := by
  obtain ⟨mid, hm, hperm⟩ := h
  refine (hst.move hm).relist (fun c hc => hperm.mem_iff.mpr hc) ?_
  exact (hperm.map _).nodup_iff.mp (hst.move hm).addrs

theorem Moved.work_le (h : Moved lose live live') : work live' ≤ work live := by
  obtain ⟨mid, hm, hperm⟩ := h
  rw [← work_perm hperm]
  exact Pruning.work_le hm

/-- Less work to do means that some cursor delivers less. -/
theorem Moved.exists_shorter (h : Moved lose live live') (hlt : work live' < work live) :
    ∃ c ∈ live, ∃ c' ∈ live', MovesTo lose c c' ∧ c'.remaining.length < c.remaining.length := by
  obtain ⟨mid, hm, hperm⟩ := h
  rw [← work_perm hperm] at hlt
  have hex : ∃ c ∈ live, ∃ c' ∈ mid, MovesTo lose c c' ∧ c'.remaining.length < c.remaining.length := by
    clear hperm
    induction hm with
    | nil => exact absurd hlt (lt_irrefl _)
    | @cons c c' live mid hc _ ih =>
      by_cases hshort : c'.remaining.length < c.remaining.length
      · exact ⟨c, List.mem_cons_self, c', List.mem_cons_self, hc, hshort⟩
      · have hlt' : work mid < work live := by
          unfold work at *
          simp only [List.map_cons, List.sum_cons] at hlt
          omega
        obtain ⟨e, he, e', he', hmove⟩ := ih hlt'
        exact ⟨e, List.mem_cons_of_mem _ he, e', List.mem_cons_of_mem _ he', hmove⟩
  obtain ⟨c, hc, c', hc', hmove⟩ := hex
  exact ⟨c, hc, c', hperm.mem_iff.mp hc', hmove⟩

/-- A running cursor that delivers less has run out or stands further on. -/
theorem forward_of_shorter {c c' : PostingCursor S} (hc : c.Consistent) (hx : c.exhausted = false)
    (hm : MovesTo lose c c') (hlt : c'.remaining.length < c.remaining.length) :
    c'.exhausted = true ∨ c.docid < c'.docid := by
  obtain ⟨skipped, hrem, -⟩ := hm.skipped
  cases hx' : c'.exhausted with
  | true => exact Or.inl rfl
  | false =>
    refine Or.inr ?_
    have hhead := hc.remaining_cons hx
    have hasc := hc.ascending
    cases skipped with
    | nil =>
      rw [List.nil_append] at hrem
      rw [hrem] at hlt
      exact absurd hlt (lt_irrefl _)
    | cons p skipped =>
      rw [hrem, List.cons_append] at hhead hasc
      obtain rfl : p = ⟨c.docid, c.freq⟩ := List.head_eq_of_cons_eq hhead
      have hmem : (⟨c'.docid, c'.freq⟩ : Posting) ∈ skipped ++ c'.remaining := by
        rw [hm.consistent.remaining_cons hx']
        exact List.mem_append_right _ List.mem_cons_self
      exact List.rel_of_pairwise_cons hasc hmem

theorem Moved.trans (h : Moved lose live live') (h' : Moved lose live' live'') : Moved lose live live'' := by
  obtain ⟨mid, hm, hperm⟩ := h
  obtain ⟨mid', hm', hperm'⟩ := h'
  obtain ⟨listed, hlisted, hback⟩ := List.perm_comp_forall₂ hperm hm'
  refine ⟨listed, ?_, hback.trans hperm'⟩
  clear hperm hm' hback
  induction hm generalizing listed with
  | nil => cases hlisted; exact List.Forall₂.nil
  | cons hc _ ih =>
    cases hlisted with
    | cons hc' hrest => exact List.Forall₂.cons (hc.trans hc') (ih _ hrest)

theorem Moved.imp (h : Moved lose live live') (himp : ∀ d, lose d → lose' d) : Moved lose' live live' := by
  obtain ⟨mid, hm, hperm⟩ := h
  exact ⟨mid, hm.imp fun _ _ hc => hc.imp fun p _ hp => himp _ hp, hperm⟩

end Moves

section Turn

variable {S : Type} [LinearOrder S] [Zero S] [Add S]

/-- From the cursors as a pass has positioned them: the end of the pass. -/
inductive Turn (ix : Index S) (mid : List (PostingCursor S)) (threshold : S) (d : Nat) (top : TopK S) :
    Pass S → List (PostingCursor S) → TopK S → Prop
  | score {hits : List (PostingCursor S)} {top' : TopK S} (front : AtFront mid hits d)
      (nonempty : hits ≠ []) (push : top.push d (accumulate ix d hits) = some top') :
      Turn ix mid threshold d top (.scores ⟨d, hits⟩) (advanceAt d mid) top'
  | drag {chosen : PostingCursor S} (mem : chosen ∈ mid) (running : chosen.exhausted = false)
      (behind : chosen.docid < d) :
      Turn ix mid threshold d top (.drags d (some chosen))
        (mid.map fun c => if c.addr = chosen.addr then c.nextGeq d else c) top
  | ranOut {c : PostingCursor S} (mem : c ∈ mid) (out : c.exhausted = true) :
      Turn ix mid threshold d top .ranOut mid top
  | jump {candidates rest : List (PostingCursor S)} {target : Nat} (split : mid = candidates ++ rest)
      (running : ∀ c ∈ mid, c.exhausted = false) (past : d < target)
      (within : ∀ c ∈ candidates, target ≤ c.blockMaxDocid + 1) (outside : ∀ c ∈ rest, target ≤ c.docid)
      (pivot : ∃ c ∈ candidates, c.docid = d) (low : sum (candidates.map (·.blockMaxImpact)) < threshold) :
      Turn ix mid threshold d top .jumps
        (candidates.map (fun c => if c.docid < target then c.nextGeq target else c) ++ rest) top

/-- The heap changes by the one document evaluated, or not at all. -/
def Pushed (ix : Index S) (top top' : TopK S) : Option (Evaluation S) → Prop
  | some e => top.push e.docid (e.score ix) = some top'
  | none => top' = top

/-- A whole pass over the state `s`: no pivot and the end, or a pivot, cursors
moved towards it and a turn. -/
inductive Passed (ix : Index S) (s : WandState S) (threshold : S) (mid : List (PostingCursor S)) :
    Pass S → Step (WandState S) (Outcome S) → Prop
  | ends {stats : SearchStats} (same : SameWork s.stats stats)
      (low : lineUp s ≠ [] → sum ((lineUp s).map (·.maxImpact)) < threshold) :
      Passed ix s threshold mid .ends (.done (.ok (s.top.drain, stats)))
  | turns {i d : Nat} {pass : Pass S} {s' : WandState S} (pivoted : Pivoted (lineUp s) threshold i d)
      (reached : threshold ≤ sum (((lineUp s).take (i + 1)).map (·.maxImpact)))
      (moved : Moved (· < d) (lineUp s) mid) (turn : Turn ix mid threshold d s.top pass s'.live s'.top)
      (counted : Counted s.stats s'.stats pass.evaluation) :
      Passed ix s threshold mid pass (.next s')

variable {ix : Index S} {sources : List (PostingSource S)} {live mid : List (PostingCursor S)}
  {top : TopK S} {seen : List (Result S)} {threshold : S} {d : Nat} {stats : SearchStats}

theorem scorePivot_turn (ix : Index S) (threshold : S) (stats : SearchStats)
    (hst : Standing sources live) (hsort : live.Pairwise byDocid)
    (hx : ∀ c ∈ live, c.exhausted = false) (hhead : live.head?.map (·.docid) = some d)
    (hholds : top.Holds seen) (hk : 0 < top.k) :
    ∃ s', scorePivot ix d live top stats = .next s' ∧
      Turn ix live threshold d top (.scores ⟨d, live.takeWhile (fun c => c.docid = d)⟩) s'.live s'.top ∧
      Counted stats s'.stats (some (⟨d, live.takeWhile (fun c => c.docid = d)⟩ : Evaluation S)) := by
  obtain ⟨hf, hadv⟩ := atFront_takeWhile hsort hst.addrs hx hhead
  have hne : live.takeWhile (fun c => c.docid = d) ≠ [] := by
    cases live with
    | nil => cases hhead
    | cons c l =>
      rw [List.takeWhile_cons_of_pos (by simpa using hhead)]
      exact List.cons_ne_nil _ _
  obtain ⟨top', hpush, -⟩ := TopK.push_spec hholds hk d
    (accumulate ix d (live.takeWhile fun c => c.docid = d))
  unfold scorePivot
  dsimp only
  rw [hpush, hadv]
  exact ⟨_, rfl, Turn.score hf hne hpush, rfl, rfl⟩

theorem drag_turn (ix : Index S) (threshold : S) (top : TopK S) (stats : SearchStats)
    {laggards : List (PostingCursor S)} (hne : laggards ≠ [])
    (hlag : ∀ c ∈ laggards, c ∈ live ∧ c.exhausted = false ∧ c.docid < d) :
    ∃ s', drag d (largestBound laggards) { live := live, top := top, stats := stats } = .next s' ∧
      Turn ix live threshold d top (.drags d (largestBound laggards)) s'.live s'.top ∧
      Counted stats s'.stats (none : Option (Evaluation S)) := by
  obtain ⟨chosen, hmem, heq⟩ := largestBound_mem hne
  obtain ⟨hlive, hx, hlt⟩ := hlag chosen hmem
  rw [heq]
  exact ⟨_, rfl, Turn.drag hlive hx hlt, rfl, rfl⟩

/-- One pass of `daat_or`: every cursor has run out, or the document in front is
scored. -/
theorem daatStep_cases (ix : Index S) {s : DaatState S}
    (hsort : s.cursors.Pairwise (fun a b => a.addr < b.addr))
    (hst : Standing sources s.cursors) (hholds : s.top.Holds seen) (hk : 0 < s.top.k) :
    (∃ stats, daatStep ix s = .done (.ok (s.top.drain, stats)) ∧ daatEvaluates s = none ∧
        SameWork s.stats stats ∧ ∀ c ∈ s.cursors, c.exhausted = true) ∨
      ∃ d hits top' stats, daatStep ix s = .next ⟨advanceAt d s.cursors, top', stats⟩ ∧
        daatEvaluates s = some ⟨d, hits⟩ ∧ AtFront s.cursors hits d ∧ hits ≠ [] ∧
        s.top.push d (accumulate ix d hits) = some top' ∧
        Counted s.stats stats (some (⟨d, hits⟩ : Evaluation S)) := by
  obtain ⟨hend, hfront⟩ := atFront_filter hst.consistent hsort
  unfold daatStep daatEvaluates
  dsimp only
  by_cases hcur : currentDocid s.cursors = kNoDocid
  · rw [if_pos hcur, if_pos hcur]
    exact Or.inl ⟨_, rfl, rfl, ⟨rfl, rfl⟩, hend hcur⟩
  · obtain ⟨hf, hne⟩ := hfront hcur
    obtain ⟨top', hpush, -⟩ := TopK.push_spec hholds hk (currentDocid s.cursors)
      (accumulate ix (currentDocid s.cursors) (s.cursors.filter (isAt (currentDocid s.cursors))))
    rw [if_neg hcur, if_neg hcur, hpush]
    exact Or.inr ⟨_, _, top', _, rfl, rfl, hf, hne, hpush, rfl, rfl⟩

variable {s : WandState S}

/-- One pass of `wand`: it leaves the cursors where the head lists them. -/
theorem wandStep_passed (ix : Index S) (hst : Standing sources s.live)
    (hholds : s.top.Holds seen) (hk : 0 < s.top.k) (hth : s.top.threshold = some threshold) :
    Passed ix s threshold (lineUp s) (wandPass s) (wandStep ix s) := by
  rcases selectPivot_spec hth with ⟨stats, hsel, hsame, hlow⟩ | ⟨i, d, stats, hsel, hsame, hp, hreach⟩
  · unfold wandPass wandStep
    rw [hsel]
    exact Passed.ends hsame hlow
  · have hst' := standing_lineUp hst
    have hmoved : Moved (· < d) (lineUp s) (lineUp s) := Moved.refl hst'.consistent
    unfold wandPass wandStep
    rw [hsel]
    dsimp only
    by_cases hhead : (lineUp s).head?.map (·.docid) = some d
    · rw [if_pos hhead, if_pos hhead]
      obtain ⟨s', hstep, hturn, hcount⟩ := scorePivot_turn ix threshold stats hst'
        hp.sorted hp.running hhead hholds hk
      rw [hstep]
      exact Passed.turns hp hreach hmoved hturn (hcount.trans_same hsame)
    · rw [if_neg hhead, if_neg hhead]
      obtain ⟨c, hc, hlt⟩ := hp.front hhead
      obtain ⟨s', hstep, hturn, hcount⟩ := drag_turn ix threshold s.top stats
        (List.ne_nil_of_mem (List.mem_filter.mpr ⟨hc, (decide_eq_true hlt)⟩))
        (fun e he => by
          obtain ⟨he, hlt⟩ := List.mem_filter.mp he
          have hmem := List.mem_of_mem_take he
          exact ⟨hmem, hp.running e hmem, of_decide_eq_true hlt⟩)
      rw [hstep]
      exact Passed.turns hp hreach hmoved hturn (hcount.trans_same hsame)

variable [One S] [Neg S] [RoundedAdd S]

/-- Candidates whose blocks have been positioned at the pivot's document. -/
structure Positioned (live : List (PostingCursor S)) (count d : Nat) (pivot : PostingCursor S)
    (candidates : List (PostingCursor S)) : Prop where
  pivot : pivot ∈ candidates
  reach : ∀ c ∈ candidates, d ≤ c.blockMaxDocid
  running : ∀ c ∈ candidates ++ live.drop count, c.exhausted = false
  nonneg : NonNeg (candidates.map (·.blockMaxImpact))

omit [Add S] [One S] [Neg S] [RoundedAdd S] in
theorem positioned_of_running {live : List (PostingCursor S)} {count d : Nat} {pivot : PostingCursor S}
    (hst : Standing sources live) (hb : NonNegativeBounds sources) (hx : ∀ c ∈ live, c.exhausted = false)
    (hpivot : pivot ∈ live.take count) (hd : pivot.docid = d)
    (hmove : List.Forall₂ (MovesTo (· < d)) live
      ((live.take count).map (PostingCursor.skipToBlock d) ++ live.drop count))
    (hrun : ∀ c ∈ live.take count, (c.skipToBlock d).exhausted = false) :
    Positioned live count d pivot ((live.take count).map (PostingCursor.skipToBlock d)) := by
  have hsub : ∀ c ∈ live.take count, c ∈ live := fun c hc => List.mem_of_mem_take hc
  have hstm := hst.move hmove
  have hrunning : ∀ c ∈ (live.take count).map (PostingCursor.skipToBlock d) ++ live.drop count,
      c.exhausted = false := by
    intro c hc
    rcases List.mem_append.mp hc with hc | hc
    · obtain ⟨e, he, rfl⟩ := List.mem_map.mp hc
      exact hrun e he
    · exact hx c (List.mem_of_mem_drop hc)
  refine ⟨List.mem_map.mpr ⟨pivot, hpivot, ?_⟩, fun c hc => ?_, hrunning, fun x hxm => ?_⟩
  · rw [← hd]
    exact skipToBlock_at (hst.consistent pivot (hsub pivot hpivot)) (hx pivot (hsub pivot hpivot))
  · obtain ⟨e, he, rfl⟩ := List.mem_map.mp hc
    exact (@PostingCursor.skipToBlock_spec _ e d (hst.consistent e (hsub e he))).2.2 (hrun e he)
  · obtain ⟨c, hc, rfl⟩ := List.mem_map.mp hxm
    have hc' := List.mem_append_left (live.drop count) hc
    exact (hb.running (hstm.source c hc') (hstm.consistent c hc') (hrunning c hc')).2

/-- One pass of `block_max_wand`: blocks are positioned before anything else. -/
theorem blockMaxWandStep_passed (ix : Index S) (hst : Standing sources s.live)
    (hb : NonNegativeBounds sources) (hholds : s.top.Holds seen) (hk : 0 < s.top.k) (hth : s.top.threshold = some threshold) :
    ∃ mid, Passed ix s threshold mid (blockMaxWandPass s) (blockMaxWandStep ix s) := by
  rcases selectPivot_spec hth with ⟨stats, hsel, hsame, hlow⟩ | ⟨i, d, stats, hsel, hsame, hp, hreach⟩
  · refine ⟨[], ?_⟩
    unfold blockMaxWandPass blockMaxWandStep
    rw [hsel]
    exact Passed.ends hsame hlow
  · have hst' := standing_lineUp hst
    have hx := hp.running
    obtain ⟨⟨pivot, hpmem, hpd⟩, hrest⟩ := candidates_spec hp stats
    unfold blockMaxWandPass blockMaxWandStep
    rw [hsel]
    dsimp only
    have hturns := @Passed.turns S _ _ _ ix s threshold
    generalize lineUp s = live at *
    generalize candidateCount ⟨live, threshold, i, d, stats⟩ = count at *
    have hsub : ∀ c ∈ live.take count, c ∈ live := fun c hc => List.mem_of_mem_take hc
    have hsubr : ∀ c ∈ live.drop count, c ∈ live := fun c hc => List.mem_of_mem_drop hc
    obtain ⟨hmove, hcases⟩ := positionBlocks_spec (d := d) (live.take count)
      (fun c hc => hst'.consistent c (hsub c hc)) 0
    have hmove' : List.Forall₂ (MovesTo (· < d)) live
        ((positionBlocks d 0 (live.take count)).1 ++ live.drop count) := by
      conv_lhs => rw [← List.take_append_drop count live]
      exact List.rel_append hmove (List.forall₂_same.mpr fun c hc =>
        MovesTo.refl (hst'.consistent c (hsubr c hc)))
    have hstm := hst'.move hmove'
    rcases hcases with ⟨hneg, e, he, hex⟩ | ⟨hmap, hrun, hsum⟩
    · have hlt : (positionBlocks d 0 (live.take count)).2 < 0 := hneg ▸ RoundedAdd.neg_one_lt
      rw [if_pos hlt, if_pos hlt]
      exact ⟨_, hturns hp hreach (Moved.of_forall₂ hmove')
        (Turn.ranOut (List.mem_append_left _ he) hex) (Counted.trans_same hsame ⟨rfl, rfl⟩)⟩
    · rw [hmap] at hmove' hstm ⊢
      rw [hsum]
      obtain ⟨hpmem', hpositioned, hx', hnonneg⟩ := positioned_of_running hst' hb hx hpmem hpd hmove' hrun
      generalize (live.take count).map (PostingCursor.skipToBlock d) = candidates at *
      have hnot := not_lt.mpr (foldl_nonneg hnonneg (le_refl (0 : S)))
      rw [if_neg hnot, if_neg hnot]
      by_cases hreach' : threshold ≤ (candidates.map (·.blockMaxImpact)).foldl (· + ·) 0
      · rw [if_pos hreach', if_pos hreach']
        have hperm := (perm_sortByDocid (candidates ++ live.drop count)).symm
        have hmoved := (Moved.of_forall₂ hmove').relist hperm
        have hsort := sorted_sortByDocid (candidates ++ live.drop count)
        have hsx : ∀ c ∈ sortByDocid (candidates ++ live.drop count), c.exhausted = false :=
          fun c hc => hx' c (hperm.mem_iff.mpr hc)
        have hpin := hperm.mem_iff.mp (List.mem_append_left (live.drop count) hpmem')
        generalize sortByDocid (candidates ++ live.drop count) = sorted at *
        refine ⟨sorted, ?_⟩
        by_cases hhead : sorted.head?.map (·.docid) = some d
        · rw [if_pos hhead, if_pos hhead]
          obtain ⟨s', hstep, hturn, hcount⟩ := scorePivot_turn ix threshold stats (hmoved.standing hst') hsort hsx hhead hholds hk
          rw [hstep]
          exact hturns hp hreach hmoved hturn (hcount.trans_same hsame)
        · rw [if_neg hhead, if_neg hhead]
          obtain ⟨s', hstep, hturn, hcount⟩ := drag_turn ix threshold s.top stats
            (behind_ne_nil hsort hpin hpd hhead)
            (fun e he => by
              have hmem := (List.takeWhile_sublist _).mem he
              exact ⟨hmem, hsx e hmem, by simpa using List.mem_takeWhile_imp he⟩)
          rw [hstep]
          exact hturns hp hreach hmoved hturn (hcount.trans_same hsame)
      · rw [if_neg hreach', if_neg hreach']
        have hpin := List.mem_append_left (live.drop count) hpmem'
        obtain ⟨target, hpast, hwithin, houtside, hjump⟩ := jump_next hpmem' (hstm.consistent pivot hpin)
          (hx' pivot hpin) (fun c hc => hpd ▸ hpositioned c hc)
          (hp.sorted.sublist (List.drop_sublist count live)) (fun c hc => hpd ▸ hrest c hc)
          { live := candidates ++ live.drop count, top := s.top, stats := stats }
        rw [hjump]
        exact ⟨_, hturns hp hreach (Moved.of_forall₂ hmove') (Turn.jump rfl hx' (hpd ▸ hpast)
          hwithin houtside ⟨pivot, hpmem', hpd⟩ (not_le.mp hreach')) (Counted.trans_same hsame ⟨rfl, rfl⟩)⟩

end Turn

section Progress

variable {S : Type} {sources : List (PostingSource S)} {mid : List (PostingCursor S)} {d : Nat}

/-- Only the chosen cursor is dragged, and it moves. -/
theorem drag_moves (hst : Standing sources mid) {chosen : PostingCursor S} (hmem : chosen ∈ mid)
    (hx : chosen.exhausted = false) (hlt : chosen.docid < d) :
    List.Forall₂ (MovesTo (· < d)) mid
        (mid.map fun c => if c.addr = chosen.addr then c.nextGeq d else c) ∧
      work (mid.map fun c => if c.addr = chosen.addr then c.nextGeq d else c) < work mid := by
  have hmove : List.Forall₂ (MovesTo (· < d)) mid
      (mid.map fun c => if c.addr = chosen.addr then c.nextGeq d else c) := by
    refine forall₂_map fun c hc => ?_
    by_cases ha : c.addr = chosen.addr
    · rw [if_pos ha]
      exact movesTo_nextGeq (hst.consistent c hc) d
    · rw [if_neg ha]
      exact MovesTo.refl (hst.consistent c hc)
  refine ⟨hmove, work_lt hmove ⟨chosen, hmem, fun c' hc' ha => ?_⟩⟩
  obtain ⟨c, hc, rfl⟩ := List.mem_map.mp hc'
  by_cases hca : c.addr = chosen.addr
  · rw [if_pos hca]
    obtain rfl := hst.eq_of_addr hc hmem hca
    exact nextGeq_length_lt (hst.consistent c hc) hx hlt
  · rw [if_neg hca] at ha
    exact absurd ha hca

/-- A jump moves the candidates behind its target, the one on the pivot among them. -/
theorem jump_moves {candidates rest : List (PostingCursor S)} {target : Nat}
    (hst : Standing sources (candidates ++ rest)) (hx : ∀ c ∈ candidates, c.exhausted = false)
    (hpivot : ∃ c ∈ candidates, c.docid = d) (hpast : d < target) :
    List.Forall₂ (MovesTo (· < target)) (candidates ++ rest)
        (candidates.map (fun c => if c.docid < target then c.nextGeq target else c) ++ rest) ∧
      work (candidates.map (fun c => if c.docid < target then c.nextGeq target else c) ++ rest) <
        work (candidates ++ rest) := by
  have hleft : ∀ c ∈ candidates, c ∈ candidates ++ rest := fun c hc => List.mem_append_left _ hc
  have hmove : List.Forall₂ (MovesTo (· < target)) (candidates ++ rest)
      (candidates.map (fun c => if c.docid < target then c.nextGeq target else c) ++ rest) := by
    refine List.rel_append (forall₂_map fun c hc => ?_) (List.forall₂_same.mpr fun c hc =>
      MovesTo.refl (hst.consistent c (List.mem_append_right _ hc)))
    by_cases hct : c.docid < target
    · rw [if_pos hct]
      exact movesTo_nextGeq (hst.consistent c (hleft c hc)) target
    · rw [if_neg hct]
      exact MovesTo.refl (hst.consistent c (hleft c hc))
  obtain ⟨pivot, hpmem, rfl⟩ := hpivot
  refine ⟨hmove, work_lt hmove ⟨pivot, hleft pivot hpmem, fun c' hc' ha => ?_⟩⟩
  have hmem : pivot.nextGeq target ∈
      candidates.map (fun c => if c.docid < target then c.nextGeq target else c) ++ rest :=
    List.mem_append_left _ (List.mem_map.mpr ⟨pivot, hpmem, if_pos hpast⟩)
  obtain rfl := (hst.move hmove).eq_of_addr hc' hmem (by rw [ha, PostingCursor.nextGeq_source])
  exact nextGeq_length_lt (hst.consistent pivot (hleft pivot hpmem)) (hx pivot hpmem) hpast

variable [LinearOrder S] [Zero S] [Add S] {ix : Index S} {threshold : S} {top top' : TopK S}
  {pass : Pass S} {live' : List (PostingCursor S)} {s s' : WandState S}

/-- A turn leaves less to do, or leaves everything where it is because some
cursor has run out. -/
theorem Turn.moves (h : Turn ix mid threshold d top pass live' top') (hst : Standing sources mid) :
    Moved (fun _ => True) mid live' ∧
      (work live' < work mid ∨ live' = mid ∧ ∃ c ∈ mid, c.exhausted = true) := by
  cases h with
  | score hf hne hpush =>
    have hmove := Moved.of_forall₂ (hst.movesTo_advanceAt (d := d))
    exact ⟨hmove.imp fun _ _ => trivial, Or.inl (hst.work_advanceAt hf hne)⟩
  | drag hmem hx hlt =>
    obtain ⟨hmove, hwork⟩ := drag_moves hst hmem hx hlt
    exact ⟨(Moved.of_forall₂ hmove).imp fun _ _ => trivial, Or.inl hwork⟩
  | ranOut hmem hx => exact ⟨Moved.refl hst.consistent, Or.inr ⟨rfl, _, hmem, hx⟩⟩
  | jump hsplit hx hpast hwithin hout hpivot hlow =>
    subst hsplit
    obtain ⟨hmove, hwork⟩ := jump_moves hst (fun c hc => hx c (List.mem_append_left _ hc)) hpivot hpast
    exact ⟨(Moved.of_forall₂ hmove).imp fun _ _ => trivial, Or.inl hwork⟩

theorem Passed.moves (h : Passed ix s threshold mid pass (.next s')) (hst : Standing sources s.live) :
    Moved (fun _ => True) (lineUp s) s'.live ∧ work s'.live < work (lineUp s) := by
  cases h with
  | turns hp hreach hmoved hturn hcount =>
    have hst' := standing_lineUp hst
    obtain ⟨hmove, hwork⟩ := hturn.moves (hmoved.standing hst')
    refine ⟨(hmoved.imp fun _ _ => trivial).trans hmove, ?_⟩
    rcases hwork with hlt | ⟨heq, c, hc, hx⟩
    · exact hlt.trans_le hmoved.work_le
    · rw [heq]
      obtain ⟨listed, hm, hperm⟩ := hmoved
      rw [← work_perm hperm]
      exact work_exhausted hst' hm hp.running ⟨c, hperm.mem_iff.mpr hc, hx⟩

theorem Passed.pushed (h : Passed ix s threshold mid pass (.next s')) :
    Pushed ix s.top s'.top pass.evaluation := by
  cases h with
  | turns hp hreach hmoved hturn hcount =>
    generalize s'.live = live', s'.top = top' at hturn ⊢
    cases hturn with
    | score hf hne hpush => exact hpush
    | drag | ranOut | jump => rfl

theorem Turn.chosen {chosen : Option (PostingCursor S)} {target : Nat}
    (h : Turn ix mid threshold d top (.drags target chosen) live' top') :
    ∃ c, chosen = some c ∧ c.exhausted = false ∧ c.docid < target := by
  cases h with
  | drag hmem hx hlt => exact ⟨_, rfl, hx, hlt⟩

/-- Some running cursor has moved strictly forward or has run out. -/
theorem Passed.forward (h : Passed ix s threshold mid pass (.next s')) (hst : Standing sources s.live) :
    ∃ c ∈ s.live, c.exhausted = false ∧
      ∃ c' ∈ s'.live, c'.addr = c.addr ∧ (c'.exhausted = true ∨ c.docid < c'.docid) := by
  obtain ⟨hmoved, hwork⟩ := h.moves hst
  obtain ⟨c, hc, c', hc', hm, hshort⟩ := hmoved.exists_shorter hwork
  obtain ⟨hlive, hx⟩ := mem_lineUp.mp hc
  exact ⟨c, hlive, hx, c', hc', by rw [hm.source], forward_of_shorter (hst.consistent c hlive) hx hm hshort⟩

end Progress

end CascadeSearch.Query.Turns
