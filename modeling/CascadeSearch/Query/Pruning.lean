import CascadeSearch.Lib.Fallible
import CascadeSearch.Lib.RoundedSum
import CascadeSearch.Query.Evaluate
import Mathlib.Data.List.TakeWhile

/-!
# What every evaluation loop keeps

The reference answer ranks every document that some source contains by its full
score. `Inv` relates a loop state to it through the list of settled documents,
those pushed or ruled out. A document that is not settled is intact: every
cursor whose list contains it has still to deliver it. A document is ruled out
only when it is hopeless, that is, when a full heap ranks before it.
-/
namespace CascadeSearch.Query.Pruning

open Lib.Fallible Lib.Ranking Lib.RoundedSum
open Index.Format
open Cursor Heap Reader Evaluate
open Result (Ranks)

section Sources

variable {S : Type}

def entry (t : PostingSource S) (d : Nat) : Option Posting := t.all.find? (fun p => p.docid = d)

def containing (sources : List (PostingSource S)) (d : Nat) : List (PostingSource S) :=
  sources.filter (fun t => (entry t d).isSome)

/-- Every document some source contains, once. -/
def matching (sources : List (PostingSource S)) : List Nat :=
  (sources.flatMap (fun t => t.all.map Posting.docid)).dedup

/-- Well-formed sources in the order of their addresses. -/
structure WellFormed (sources : List (PostingSource S)) : Prop where
  source : ∀ t ∈ sources, t.WellFormed
  addrs : sources.Pairwise (fun t u => t.addr < u.addr)

variable {sources : List (PostingSource S)} {d : Nat}

theorem mem_matching : d ∈ matching sources ↔ ∃ t ∈ sources, ∃ p ∈ t.all, p.docid = d := by
  simp [matching]

theorem entry_isSome {t : PostingSource S} : (entry t d).isSome ↔ ∃ p ∈ t.all, p.docid = d := by
  simp [entry]

theorem mem_containing {t : PostingSource S} :
    t ∈ containing sources d ↔ t ∈ sources ∧ ∃ p ∈ t.all, p.docid = d := by
  simp [containing, entry_isSome]

/-- Docids are distinct within a source, so any posting found is the entry. -/
theorem entry_eq {t : PostingSource S} (ht : t.WellFormed) {p : Posting} (hp : p ∈ t.all)
    (hd : p.docid = d) : entry t d = some p := by
  obtain ⟨q, hq⟩ := Option.isSome_iff_exists.mp (entry_isSome.mpr ⟨p, hp, hd⟩)
  have hqmem : q ∈ t.all := List.mem_of_find?_eq_some hq
  have hqd : q.docid = d := by simpa using List.find?_some hq
  rw [hq, ht.docid_inj hp hqmem (hd.trans hqd.symm)]

instance : Std.Antisymm (fun t u : PostingSource S => t.addr < u.addr) :=
  ⟨fun _ _ h h' => absurd h h'.asymm⟩

/-- Of sources listed by strictly increasing address, fewer are a sublist. -/
theorem sublist_of_addrs {l l' : List (PostingSource S)}
    (hl : l.Pairwise (fun t u => t.addr < u.addr)) (hl' : l'.Pairwise (fun t u => t.addr < u.addr))
    (h : ∀ t ∈ l, t ∈ l') : l.Sublist l' := by
  have hnd : l.Nodup := hl.imp fun hab he => by rw [he] at hab; exact lt_irrefl _ hab
  exact List.sublist_of_subperm_of_pairwise (List.subperm_of_subset hnd h) hl hl'

theorem eq_of_addrs {l l' : List (PostingSource S)} (hl : l.Pairwise (fun t u => t.addr < u.addr))
    (hl' : l'.Pairwise (fun t u => t.addr < u.addr)) (h : ∀ t, t ∈ l ↔ t ∈ l') : l = l' :=
  (sublist_of_addrs hl hl' fun t => (h t).mp).antisymm (sublist_of_addrs hl' hl fun t => (h t).mpr)

/-- One cursor moved forward: what it no longer delivers satisfies `lose`. -/
structure MovesTo (lose : Nat → Prop) (c c' : PostingCursor S) : Prop where
  consistent : c'.Consistent
  source : c'.toPostingSource = c.toPostingSource
  skipped : ∃ skipped, c.remaining = skipped ++ c'.remaining ∧ ∀ p ∈ skipped, lose p.docid

variable {lose : Nat → Prop} {c c' : PostingCursor S}

theorem MovesTo.refl (hc : c.Consistent) : MovesTo lose c c := ⟨hc, rfl, [], rfl, by simp⟩

theorem MovesTo.imp {lose' : Nat → Prop} (h : MovesTo lose c c')
    (himp : ∀ p ∈ c.remaining, lose p.docid → lose' p.docid) : MovesTo lose' c c' := by
  obtain ⟨hc, hs, skipped, hrem, hlose⟩ := h
  refine ⟨hc, hs, skipped, hrem, fun p hp => himp p ?_ (hlose p hp)⟩
  rw [hrem]
  exact List.mem_append_left _ hp

theorem MovesTo.subset (h : MovesTo lose c c') {p : Posting} (hp : p ∈ c'.remaining) :
    p ∈ c.remaining := by
  obtain ⟨-, -, skipped, hrem, -⟩ := h
  rw [hrem]
  exact List.mem_append_right _ hp

theorem MovesTo.kept (h : MovesTo lose c c') {p : Posting} (hp : p ∈ c.remaining)
    (hkeep : ¬ lose p.docid) : p ∈ c'.remaining := by
  obtain ⟨-, -, skipped, hrem, hlose⟩ := h
  rw [hrem] at hp
  rcases List.mem_append.mp hp with hp | hp
  · exact absurd (hlose p hp) hkeep
  · exact hp

theorem MovesTo.trans {c'' : PostingCursor S} (h : MovesTo lose c c') (h' : MovesTo lose c' c'') :
    MovesTo lose c c'' := by
  obtain ⟨-, hs, skipped, hrem, hl⟩ := h
  obtain ⟨hc', hs', skipped', hrem', hl'⟩ := h'
  refine ⟨hc', hs'.trans hs, skipped ++ skipped', ?_, fun p hp => ?_⟩
  · rw [hrem, hrem', List.append_assoc]
  · rcases List.mem_append.mp hp with hp | hp
    · exact hl p hp
    · exact hl' p hp

theorem movesTo_nextGeq (hc : c.Consistent) (target : Nat) :
    MovesTo (· < target) c (c.nextGeq target) := by
  obtain ⟨hcons, hrem⟩ := @PostingCursor.nextGeq_spec _ c target hc
  refine ⟨hcons, PostingCursor.nextGeq_source, c.remaining.takeWhile (fun p => p.docid < target),
    ?_, fun p hp => ?_⟩
  · rw [hrem, List.takeWhile_append_dropWhile]
  · simpa using List.mem_takeWhile_imp hp

theorem movesTo_skipToBlock (hc : c.Consistent) (target : Nat) :
    MovesTo (· < target) c (c.skipToBlock target) := by
  obtain ⟨hcons, hskip, -⟩ := @PostingCursor.skipToBlock_spec _ c target hc
  exact ⟨hcons, PostingCursor.skipToBlock_source, hskip⟩

theorem movesTo_next (hc : c.Consistent) (hx : c.exhausted = false) :
    MovesTo (· = c.docid) c c.next := by
  obtain ⟨hcons, hrem⟩ := PostingCursor.next_spec hc
  refine ⟨hcons, PostingCursor.next_source, [⟨c.docid, c.freq⟩], ?_, by simp⟩
  rw [hrem]
  exact hc.remaining_cons hx

/-- The number of postings still to be delivered, the variant of every loop. -/
def work (live : List (PostingCursor S)) : Nat := (live.map (fun c => c.remaining.length)).sum

variable {live live' : List (PostingCursor S)}

theorem MovesTo.length_le (h : MovesTo lose c c') : c'.remaining.length ≤ c.remaining.length := by
  obtain ⟨-, -, skipped, hrem, -⟩ := h
  rw [hrem, List.length_append]
  omega

theorem work_le (h : List.Forall₂ (MovesTo lose) live live') : work live' ≤ work live := by
  induction h with
  | nil => exact le_rfl
  | cons hc _ ih =>
    have := hc.length_le
    unfold work at *
    simp only [List.map_cons, List.sum_cons]
    omega

/-- Some cursor that delivers less makes the whole work smaller. -/
theorem work_lt (h : List.Forall₂ (MovesTo lose) live live')
    (hs : ∃ c ∈ live, ∀ c' ∈ live', c'.addr = c.addr → c'.remaining.length < c.remaining.length) :
    work live' < work live := by
  induction h with
  | nil => obtain ⟨c, hc, -⟩ := hs; cases hc
  | @cons c c' live live' hc ht ih =>
    have hle := hc.length_le
    have htle := work_le ht
    unfold work at *
    simp only [List.map_cons, List.sum_cons]
    obtain ⟨e, he, hlt⟩ := hs
    rcases List.mem_cons.mp he with rfl | he
    · have := hlt c' List.mem_cons_self (by rw [hc.source])
      omega
    · have := ih ⟨e, he, fun c' hc' => hlt c' (List.mem_cons_of_mem _ hc')⟩
      omega

theorem addrs_eq (h : List.Forall₂ (MovesTo lose) live live') :
    live'.map (·.addr) = live.map (·.addr) := by
  induction h with
  | nil => rfl
  | cons hc _ ih => simp only [List.map_cons, ih, hc.source]

theorem forall₂_map {f : PostingCursor S → PostingCursor S}
    (h : ∀ c ∈ live, MovesTo lose c (f c)) : List.Forall₂ (MovesTo lose) live (live.map f) :=
  List.forall₂_map_right_iff.mpr (List.forall₂_same.mpr h)

theorem running_of_mem {p : Posting} (hp : p ∈ c.remaining) : c.exhausted = false := by
  cases hx : c.exhausted with
  | true => rw [PostingCursor.remaining_of_exhausted hx] at hp; cases hp
  | false => rfl

theorem isAt_iff : isAt d c = true ↔ c.exhausted = false ∧ c.docid = d := by
  simp [isAt]

/-- Every cursor at `d` takes one step. -/
def advanceAt (d : Nat) (live : List (PostingCursor S)) : List (PostingCursor S) :=
  live.map (fun c => if isAt d c then c.next else c)

/-- Consistent cursors over known sources, at most one for each address. -/
structure Standing (sources : List (PostingSource S)) (live : List (PostingCursor S)) : Prop where
  consistent : ∀ c ∈ live, c.Consistent
  addrs : (live.map (·.addr)).Nodup
  source : ∀ c ∈ live, c.toPostingSource ∈ sources

/-- At the start every cursor stands on its first posting. -/
theorem standing_open (hs : WellFormed sources) : Standing sources (sources.map PostingCursor.open) where
  consistent c hc := by
    obtain ⟨t, ht, rfl⟩ := List.mem_map.mp hc
    exact (PostingCursor.open_spec (hs.source t ht)).1
  addrs := by
    have haddr : (sources.map PostingCursor.open).map (·.addr) = sources.map (·.addr) := by
      rw [List.map_map]
      exact List.map_congr_left fun t _ => by
        simp only [Function.comp_apply, PostingCursor.open_source]
    rw [haddr]
    exact (List.pairwise_map.mpr hs.addrs).imp fun h => h.ne
  source c hc := by
    obtain ⟨t, ht, rfl⟩ := List.mem_map.mp hc
    rw [PostingCursor.open_source]
    exact ht

/-- What scoring `d` starts from: it is the smallest docid, and `hits` are the
cursors at it, in address order. -/
structure AtFront (live hits : List (PostingCursor S)) (d : Nat) : Prop where
  mem : ∀ c, c ∈ hits ↔ c ∈ live ∧ c.exhausted = false ∧ c.docid = d
  addrs : hits.Pairwise (fun a b => a.addr < b.addr)
  first : ∀ c ∈ live, c.exhausted = false → d ≤ c.docid

namespace Standing

variable {hits : List (PostingCursor S)} (h : Standing sources live)
include h

theorem eq_of_addr {c e : PostingCursor S} (hc : c ∈ live) (he : e ∈ live) (ha : c.addr = e.addr) :
    c = e := List.inj_on_of_nodup_map h.addrs hc he ha

theorem relist (hsub : ∀ c ∈ live', c ∈ live) (hnd : (live'.map (·.addr)).Nodup) :
    Standing sources live' :=
  ⟨fun c hc => h.consistent c (hsub c hc), hnd, fun c hc => h.source c (hsub c hc)⟩

theorem move (hmove : List.Forall₂ (MovesTo lose) live live') : Standing sources live' where
  consistent c hc := by
    obtain ⟨e, -, hm⟩ := exists_left hmove hc
    exact hm.consistent
  addrs := by
    rw [addrs_eq hmove]
    exact h.addrs
  source c hc := by
    obtain ⟨e, he, hm⟩ := exists_left hmove hc
    rw [hm.source]
    exact h.source e he

/-- The cursors with a posting for `d` are those that stand on it. -/
theorem mem_hits (hf : AtFront live hits d) {c : PostingCursor S} :
    c ∈ hits ↔ c ∈ live ∧ ∃ p ∈ c.remaining, p.docid = d := by
  rw [hf.mem]
  constructor
  · rintro ⟨hc, hx, hd⟩
    refine ⟨hc, ⟨c.docid, c.freq⟩, ?_, hd⟩
    rw [(h.consistent c hc).remaining_cons hx]
    exact List.mem_cons_self
  · rintro ⟨hc, p, hp, hd⟩
    have hx := running_of_mem hp
    have hle := (h.consistent c hc).docid_le hx hp
    have hge := hf.first c hc hx
    exact ⟨hc, hx, by omega⟩

theorem movesTo_advanceAt : List.Forall₂ (MovesTo (· = d)) live (advanceAt d live) := by
  refine forall₂_map fun c hc => ?_
  by_cases hat : isAt d c = true
  · obtain ⟨hx, rfl⟩ := isAt_iff.mp hat
    rw [if_pos hat]
    exact movesTo_next (h.consistent c hc) hx
  · rw [if_neg hat]
    exact MovesTo.refl (h.consistent c hc)

/-- After that step every remaining posting is past `d`. -/
theorem past_advanceAt (hf : AtFront live hits d)
    {c' : PostingCursor S} (hc' : c' ∈ advanceAt d live) {p : Posting} (hp : p ∈ c'.remaining) :
    d < p.docid := by
  obtain ⟨c, hc, rfl⟩ := List.mem_map.mp hc'
  have hcons := h.consistent c hc
  by_cases hat : isAt d c = true
  · obtain ⟨hx, rfl⟩ := isAt_iff.mp hat
    have hasc := hcons.ascending
    rw [if_pos hat, (PostingCursor.next_spec hcons).2] at hp
    rw [hcons.remaining_cons hx] at hasc
    exact List.rel_of_pairwise_cons hasc hp
  · rw [if_neg hat] at hp
    have hx := running_of_mem hp
    have hne : c.docid ≠ d := fun hd => hat (isAt_iff.mpr ⟨hx, hd⟩)
    have hge := hf.first c hc hx
    have hle := hcons.docid_le hx hp
    omega

theorem work_advanceAt (hf : AtFront live hits d) (hne : hits ≠ []) :
    work (advanceAt d live) < work live := by
  obtain ⟨c, hc⟩ := List.exists_mem_of_ne_nil _ hne
  obtain ⟨hlive, hx, hd⟩ := (hf.mem c).mp hc
  have hcons := h.consistent c hlive
  refine work_lt (h.movesTo_advanceAt (d := d)) ⟨c, hlive, fun c' hc' ha => ?_⟩
  obtain ⟨e, he, rfl⟩ := List.mem_map.mp hc'
  have hae : e.addr = c.addr := by
    rw [← ha]
    by_cases hat : isAt d e = true
    · rw [if_pos hat, PostingCursor.next_source]
    · rw [if_neg hat]
  obtain rfl := h.eq_of_addr he hlive hae
  rw [if_pos (isAt_iff.mpr ⟨hx, hd⟩), (PostingCursor.next_spec hcons).2,
    hcons.remaining_cons hx]
  simp

end Standing

end Sources

variable {S : Type} [LinearOrder S] [Zero S]

def postingScore (ix : Index S) (t : PostingSource S) (p : Posting) : S :=
  ix.bm25.bm25TermScore t.idf p.tf (ix.docLengths p.docid) ix.avgDl

/-- The score one source gives a document it contains. -/
def sourceScore (ix : Index S) (d : Nat) (t : PostingSource S) : S :=
  match entry t d with
  | some p => postingScore ix t p
  | none => 0

/-- Non-negative scores under block bounds, block bounds under term bounds. -/
structure ValidBounds (ix : Index S) (sources : List (PostingSource S)) : Prop where
  nonneg : ∀ t ∈ sources, ∀ p ∈ t.all, 0 ≤ postingScore ix t p
  block : ∀ t ∈ sources, ∀ i < t.numBlocks, ∀ p ∈ t.blockPostings i,
    postingScore ix t p ≤ (t.blocks i).maxImpact
  term : ∀ t ∈ sources, ∀ i < t.numBlocks, (t.blocks i).maxImpact ≤ t.maxImpact

theorem sourceScore_nonneg {ix : Index S} {sources : List (PostingSource S)} {d : Nat}
    (hv : ValidBounds ix sources) {t : PostingSource S}
    (ht : t ∈ sources) :
    0 ≤ sourceScore ix d t := by
  unfold sourceScore
  cases he : entry t d with
  | none => exact le_rfl
  | some p => exact hv.nonneg t ht p (List.mem_of_find?_eq_some he)

variable [Add S]

/-- The full score, accumulated in the order of the sources. -/
def docScore (ix : Index S) (sources : List (PostingSource S)) (d : Nat) : S :=
  sum ((containing sources d).map (sourceScore ix d))

def scored (ix : Index S) (sources : List (PostingSource S)) (d : Nat) : Result S :=
  ⟨d, docScore ix sources d⟩

/-- The first `k` of all matching documents, best first. -/
def ranked (ix : Index S) (sources : List (PostingSource S)) (k : Nat) : List (Result S) :=
  (((matching sources).map (scored ix sources)).insertionSort Ranks).take k

/-- With one result to return it is the document that scores strictly best. -/
theorem ranked_one {ix : Index S} {sources : List (PostingSource S)} {d : Nat}
    (hd : d ∈ matching sources)
    (hbest : ∀ e ∈ matching sources, e ≠ d → docScore ix sources e < docScore ix sources d) :
    ranked ix sources 1 = [scored ix sources d] := by
  have hkeeps : Keeps Ranks 1 ((matching sources).map (scored ix sources)) [scored ix sources d] := by
    have hpos := List.length_pos_of_mem hd
    refine ⟨?_, ((matching sources).erase d).map (scored ix sources), ?_, fun x hx y hy => ?_⟩
    · rw [List.length_map, List.length_singleton]
      omega
    · exact (List.perm_cons_erase hd).map (scored ix sources)
    · obtain rfl := List.mem_singleton.mp hx
      obtain ⟨e, he, rfl⟩ := List.mem_map.mp hy
      have hne := (List.Nodup.mem_erase_iff (List.nodup_dedup _)).mp he
      exact Or.inl (hbest e hne.2 hne.1)
  exact hkeeps.sort_eq.symm

/-- A full heap ranks all of its results before this one. -/
def Hopeless (top : TopK S) (r : Result S) : Prop :=
  top.heap.length = top.k ∧ ∀ q ∈ top.heap, Ranks q r

structure Inv (ix : Index S) (sources : List (PostingSource S)) (live : List (PostingCursor S))
    (top : TopK S) (settled : List Nat) : Prop where
  consistent : ∀ c ∈ live, c.Consistent
  addrs : (live.map (·.addr)).Nodup
  source : ∀ c ∈ live, c.toPostingSource ∈ sources
  positive : 0 < top.k
  holds : top.Holds (settled.map (scored ix sources))
  once : settled.Nodup
  known : ∀ d ∈ settled, d ∈ matching sources
  pending : ∀ t ∈ sources, ∀ p ∈ t.all, p.docid ∉ settled →
    ∃ c ∈ live, c.toPostingSource = t ∧ p ∈ c.remaining
  ahead : ∀ r ∈ top.heap, ∀ c ∈ live, ∀ p ∈ c.remaining, r.docid < p.docid

variable {ix : Index S} {sources : List (PostingSource S)} {live live' : List (PostingCursor S)}
  {top top' : TopK S} {settled : List Nat} {d : Nat}

/-- At the start nothing is settled. -/
theorem inv_open (hs : WellFormed sources) {k : Nat} (hk : 0 < k) :
    Inv ix sources (sources.map PostingCursor.open) (TopK.empty k) [] where
  consistent := (standing_open hs).consistent
  addrs := (standing_open hs).addrs
  source := (standing_open hs).source
  positive := hk
  holds := TopK.holds_empty k
  once := List.nodup_nil
  known d hd := by cases hd
  pending t ht p hp _ := by
    refine ⟨PostingCursor.open t, List.mem_map_of_mem ht, PostingCursor.open_source t, ?_⟩
    rw [(PostingCursor.open_spec (hs.source t ht)).2]
    exact hp
  ahead r hr := by cases hr

theorem Inv.standing (h : Inv ix sources live top settled) : Standing sources live :=
  ⟨h.consistent, h.addrs, h.source⟩

/-- Only the live cursors matter, in whatever order they are listed. -/
theorem Inv.relist (h : Inv ix sources live top settled) (hsub : ∀ c ∈ live', c ∈ live)
    (hlive : ∀ c ∈ live, c.exhausted = false → c ∈ live') (hnd : (live'.map (·.addr)).Nodup) :
    Inv ix sources live' top settled where
  consistent c hc := h.consistent c (hsub c hc)
  addrs := hnd
  source c hc := h.source c (hsub c hc)
  positive := h.positive
  holds := h.holds
  once := h.once
  known := h.known
  pending t ht p hp hun := by
    obtain ⟨c, hc, hct, hpc⟩ := h.pending t ht p hp hun
    exact ⟨c, hlive c hc (running_of_mem hpc), hct, hpc⟩
  ahead r hr c hc := h.ahead r hr c (hsub c hc)

/-- An unsettled document is still to be delivered by each cursor whose list
contains it. -/
theorem Inv.pending_of_mem (h : Inv ix sources live top settled) (hun : d ∉ settled)
    {c : PostingCursor S} (hc : c ∈ live) {p : Posting} (hp : p ∈ c.all) (hd : p.docid = d) :
    p ∈ c.remaining := by
  subst hd
  obtain ⟨e, he, hec, hpe⟩ := h.pending c.toPostingSource (h.source c hc) p hp hun
  have hce : e = c := h.standing.eq_of_addr he hc (by rw [hec])
  exact hce ▸ hpe

/-- Moving cursors past documents that are settled or hopeless settles them. -/
theorem Inv.advance (h : Inv ix sources live top settled) {lose : Nat → Prop}
    (hmove : List.Forall₂ (MovesTo lose) live live')
    (hlose : ∀ e ∈ matching sources, lose e → e ∉ settled → Hopeless top (scored ix sources e)) :
    ∃ settled', Inv ix sources live' top settled' ∧
      ∀ e, e ∈ settled' ↔ e ∈ settled ∨ e ∈ matching sources ∧ lose e := by
  classical
  let passed := (matching sources).filter (fun e => lose e ∧ e ∉ settled)
  have hpassed : ∀ e, e ∈ passed ↔ e ∈ matching sources ∧ lose e ∧ e ∉ settled := by
    intro e
    simp [passed]
  refine ⟨passed ++ settled, ?_, fun e => ?_⟩
  swap
  · rw [List.mem_append, hpassed]
    by_cases he : e ∈ settled
    · simp [he]
    · simp [he]
  have hstanding := h.standing.move hmove
  constructor
  · exact hstanding.consistent
  · exact hstanding.addrs
  · exact hstanding.source
  · exact h.positive
  · refine ⟨h.holds.worstFirst, ?_⟩
    rw [List.map_append]
    by_cases hnil : passed = []
    · rw [hnil]
      exact h.holds.keeps
    · obtain ⟨e, he⟩ := List.exists_mem_of_ne_nil _ hnil
      have hfull := (hlose e ((hpassed e).mp he).1 ((hpassed e).mp he).2.1
        ((hpassed e).mp he).2.2).1
      refine h.holds.keeps.skip_all hfull fun r hr q hq => ?_
      obtain ⟨f, hf, rfl⟩ := List.mem_map.mp hr
      have := (hpassed f).mp hf
      exact (hlose f this.1 this.2.1 this.2.2).2 q hq
  · refine List.nodup_append.mpr ⟨(List.nodup_dedup _).filter _, h.once, ?_⟩
    rintro e he f hf rfl
    exact ((hpassed e).mp he).2.2 hf
  · intro e he
    rcases List.mem_append.mp he with he | he
    · exact ((hpassed e).mp he).1
    · exact h.known e he
  · intro t ht p hp hun
    have hun' : p.docid ∉ passed ∧ p.docid ∉ settled := by
      simpa only [List.mem_append, not_or] using hun
    obtain ⟨c, hc, hct, hpc⟩ := h.pending t ht p hp hun'.2
    obtain ⟨c', hc', hm⟩ := exists_right hmove hc
    refine ⟨c', hc', hm.source.trans hct, hm.kept hpc fun hl => ?_⟩
    exact hun'.1 ((hpassed _).mpr ⟨mem_matching.mpr ⟨t, ht, p, hp, rfl⟩, hl, hun'.2⟩)
  · intro r hr c' hc' p hp
    obtain ⟨c, hc, hm⟩ := exists_left hmove hc'
    exact h.ahead r hr c hc p (hm.subset hp)

/-- Every matching document that is not settled is hopeless: the heap is final. -/
theorem Inv.drain_eq (h : Inv ix sources live top settled)
    (hrest : ∀ e ∈ matching sources, e ∉ settled → Hopeless top (scored ix sources e)) :
    top.drain = ranked ix sources top.k := by
  have hstay : List.Forall₂ (MovesTo fun _ => True) live live :=
    List.forall₂_same.mpr fun c hc => MovesTo.refl (h.consistent c hc)
  obtain ⟨settled', h', hmem⟩ := h.advance hstay fun e he _ => hrest e he
  have hperm : settled'.Perm (matching sources) := by
    refine (List.perm_ext_iff_of_nodup h'.once (List.nodup_dedup _)).mpr fun e => ?_
    exact ⟨h'.known e, fun he => (hmem e).mpr (Or.inr ⟨he, trivial⟩)⟩
  exact (h'.holds.keeps.perm (hperm.map _) (List.Perm.refl _)).sort_eq

/-- A document whose score does not exceed a threshold above zero comes too late. -/
theorem Inv.hopeless_of_le (h : Inv ix sources live top settled) (hd : d ∈ matching sources) (hun : d ∉ settled)
    {threshold : S} (hth : top.threshold = some threshold) (hpos : 0 < threshold)
    (hle : docScore ix sources d ≤ threshold) : Hopeless top (scored ix sources d) := by
  obtain ⟨t, ht, p, hp, hpd⟩ := mem_matching.mp hd
  obtain ⟨c, hc, -, hpc⟩ := h.pending t ht p hp (hpd ▸ hun)
  obtain ⟨hfull, hall⟩ := TopK.full_of_threshold_pos h.holds h.positive hth hpos
  refine ⟨hfull, fun r hr => ?_⟩
  have hahead := h.ahead r hr c hc p hpc
  rcases (hle.trans (hall r hr)).lt_or_eq with hlt | heq
  · exact Or.inl hlt
  · exact Or.inr ⟨heq.symm, by show r.docid ≤ d; omega⟩

/-- The cursors still to deliver an unsettled document are those of the sources
that contain it. -/
theorem Inv.containing_perm (h : Inv ix sources live top settled) (hs : WellFormed sources)
    (hun : d ∉ settled) {part : List (PostingCursor S)} (hnd : (part.map (·.addr)).Nodup)
    (hpart : ∀ c ∈ part, c ∈ live ∧ ∃ p ∈ c.remaining, p.docid = d)
    (hall : ∀ c ∈ live, (∃ p ∈ c.remaining, p.docid = d) → c ∈ part) :
    (part.map (·.toPostingSource)).Perm (containing sources d) := by
  have hnd' : (part.map (·.toPostingSource)).Nodup := by
    refine List.Nodup.of_map (fun t : PostingSource S => t.addr) ?_
    rw [List.map_map]
    exact hnd
  have hcnd : (containing sources d).Nodup := by
    refine List.Nodup.filter _ (hs.addrs.imp fun hab he => ?_)
    rw [he] at hab
    exact lt_irrefl _ hab
  refine (List.perm_ext_iff_of_nodup hnd' hcnd).mpr fun t => ?_
  rw [List.mem_map, mem_containing]
  constructor
  · rintro ⟨c, hc, rfl⟩
    obtain ⟨hlive, p, hp, hd⟩ := hpart c hc
    exact ⟨h.source c hlive, p, (h.consistent c hlive).suffix.mem hp, hd⟩
  · rintro ⟨ht, p, hp, rfl⟩
    obtain ⟨c, hc, hct, hpc⟩ := h.pending t ht p hp hun
    exact ⟨c, hall c hc ⟨p, hpc, rfl⟩, hct⟩

section Evaluate

variable {c : PostingCursor S} {hits : List (PostingCursor S)}

omit [LinearOrder S] [Add S] in
theorem termScore_eq (hc : c.Consistent) (hx : c.exhausted = false) (hd : c.docid = d) :
    termScore ix c d = sourceScore ix d c.toPostingSource := by
  have hmem : (⟨c.docid, c.freq⟩ : Posting) ∈ c.all := by
    apply hc.suffix.mem
    rw [hc.remaining_cons hx]
    exact List.mem_cons_self
  unfold sourceScore
  rw [entry_eq hc.wf hmem hd]
  subst hd
  rfl

omit [LinearOrder S] in
theorem accumulate_eq_sum (h : Standing sources live) (hf : AtFront live hits d) :
    accumulate ix d hits = sum (hits.map fun c => sourceScore ix d c.toPostingSource) := by
  unfold accumulate sum
  rw [List.foldl_map]
  refine List.foldl_ext _ _ _ fun score c hc => ?_
  obtain ⟨hlive, hx, hd⟩ := (hf.mem c).mp hc
  rw [termScore_eq (h.consistent c hlive) hx hd]

/-- An unsettled document at the front is given its full score, summed in the
order of the sources. -/
theorem Inv.accumulate_eq (h : Inv ix sources live top settled) (hs : WellFormed sources)
    (hf : AtFront live hits d) (hun : d ∉ settled) : accumulate ix d hits = docScore ix sources d := by
  have hnd : (hits.map (·.addr)).Nodup :=
    (List.pairwise_map.mpr hf.addrs).imp fun hab => hab.ne
  have hperm := h.containing_perm hs hun hnd (fun c hc => (h.standing.mem_hits hf).mp hc)
    fun c hc hp => (h.standing.mem_hits hf).mpr ⟨hc, hp⟩
  have heq : hits.map (·.toPostingSource) = containing sources d :=
    eq_of_addrs (List.pairwise_map.mpr hf.addrs) (hs.addrs.filter _) fun t => hperm.mem_iff
  rw [accumulate_eq_sum h.standing hf, docScore, ← heq, List.map_map]
  rfl

theorem AtFront.known (h : Inv ix sources live top settled) (hf : AtFront live hits d)
    (hne : hits ≠ []) : d ∈ matching sources := by
  obtain ⟨c, hc⟩ := List.exists_mem_of_ne_nil _ hne
  obtain ⟨hlive, p, hp, hd⟩ := (h.standing.mem_hits hf).mp hc
  exact mem_matching.mpr ⟨c.toPostingSource, h.source c hlive, p,
    (h.consistent c hlive).suffix.mem hp, hd⟩

/-- Pushing an unsettled document with its full score settles it. -/
theorem Inv.push_fresh (h : Inv ix sources live top settled) (hs : WellFormed sources)
    (hf : AtFront live hits d) (hne : hits ≠ []) (hun : d ∉ settled) :
    ∃ top', top.push d (accumulate ix d hits) = some top' ∧ top'.k = top.k ∧
      Inv ix sources (advanceAt d live) top' (d :: settled) := by
  obtain ⟨top', hpush, hk, hholds, hheap⟩ :=
    TopK.push_spec h.holds h.positive d (accumulate ix d hits)
  refine ⟨top', hpush, hk, ?_⟩
  rw [h.accumulate_eq hs hf hun] at hholds hheap
  have hmove := h.standing.movesTo_advanceAt (d := d)
  have hstanding := h.standing.move hmove
  constructor
  · exact hstanding.consistent
  · exact hstanding.addrs
  · exact hstanding.source
  · rw [hk]
    exact h.positive
  · exact hholds
  · exact List.nodup_cons.mpr ⟨hun, h.once⟩
  · intro e he
    rcases List.mem_cons.mp he with rfl | he
    · exact hf.known h hne
    · exact h.known e he
  · intro t ht p hp hunp
    obtain ⟨hpd, hps⟩ : p.docid ≠ d ∧ p.docid ∉ settled := by
      simpa only [List.mem_cons, not_or] using hunp
    obtain ⟨c, hc, hct, hpc⟩ := h.pending t ht p hp hps
    obtain ⟨c', hc', hm⟩ := exists_right hmove hc
    exact ⟨c', hc', hm.source.trans hct, hm.kept hpc hpd⟩
  · intro r hr c' hc' p hp
    rcases hheap r hr with rfl | hr
    · exact h.standing.past_advanceAt hf hc' hp
    · obtain ⟨c, hc, hm⟩ := exists_left hmove hc'
      exact h.ahead r hr c hc p (hm.subset hp)

end Evaluate

section Bounds

variable [One S] [Neg S] [RoundedAdd S] {hits : List (PostingCursor S)}

theorem docScore_nonneg (hv : ValidBounds ix sources) (d : Nat) : 0 ≤ docScore ix sources d := by
  refine sum_nonneg fun x hx => ?_
  obtain ⟨t, ht, rfl⟩ := List.mem_map.mp hx
  exact sourceScore_nonneg hv (mem_containing.mp ht).1

/-- Scoring a settled document again, by only some of its sources perhaps,
leaves the heap as it is: the heap has already ranked it out. -/
theorem Inv.push_settled (h : Inv ix sources live top settled) (hs : WellFormed sources)
    (hv : ValidBounds ix sources) (hf : AtFront live hits d) (hne : hits ≠ []) (hd : d ∈ settled) :
    top.push d (accumulate ix d hits) = some top := by
  obtain ⟨c, hc⟩ := List.exists_mem_of_ne_nil _ hne
  obtain ⟨hlive, p, hp, hpd⟩ := (h.standing.mem_hits hf).mp hc
  have hout : scored ix sources d ∉ top.heap := by
    intro hin
    have := h.ahead _ hin c hlive p hp
    rw [hpd] at this
    exact lt_irrefl _ this
  obtain ⟨hfull, hranks⟩ := h.holds.keeps.left_out (List.mem_map_of_mem hd) hout
  have hsub : (hits.map (·.toPostingSource)).Sublist (containing sources d) := by
    refine sublist_of_addrs (List.pairwise_map.mpr hf.addrs) (hs.addrs.filter _) fun t ht => ?_
    obtain ⟨e, he, rfl⟩ := List.mem_map.mp ht
    obtain ⟨helive, q, hq, hqd⟩ := (h.standing.mem_hits hf).mp he
    exact mem_containing.mpr ⟨h.source e helive, q, (h.consistent e helive).suffix.mem hq, hqd⟩
  have hle : accumulate ix d hits ≤ docScore ix sources d := by
    rw [accumulate_eq_sum h.standing hf]
    unfold docScore
    have hmap := hsub.map (sourceScore ix d)
    rw [List.map_map] at hmap
    refine sum_le_of_sublist hmap ?_
    intro x hx
    obtain ⟨t, ht, rfl⟩ := List.mem_map.mp hx
    exact sourceScore_nonneg hv (mem_containing.mp ht).1
  refine TopK.push_eq_self hfull h.positive fun r hr => ?_
  rcases hranks r hr with hlt | ⟨heq, hdoc⟩
  · exact Or.inl (hle.trans_lt hlt)
  · rcases hle.lt_or_eq with hlt | he
    · exact Or.inl (heq ▸ hlt)
    · exact Or.inr ⟨heq.trans he.symm, hdoc⟩

/-- Whatever is settled or not, scoring and pushing the document at the front
keeps the invariant. -/
theorem Inv.push (h : Inv ix sources live top settled) (hs : WellFormed sources)
    (hv : ValidBounds ix sources) (hf : AtFront live hits d) (hne : hits ≠ []) :
    ∃ top' settled', top.push d (accumulate ix d hits) = some top' ∧ top'.k = top.k ∧
      Inv ix sources (advanceAt d live) top' settled' := by
  by_cases hd : d ∈ settled
  · obtain ⟨settled', h', -⟩ := h.advance (h.standing.movesTo_advanceAt (d := d)) fun e _ he hun =>
      absurd (he ▸ hd) hun
    exact ⟨top, settled', h.push_settled hs hv hf hne hd, rfl, h'⟩
  · obtain ⟨top', hpush, hk, h'⟩ := h.push_fresh hs hf hne hd
    exact ⟨top', d :: settled, hpush, hk, h'⟩

/-- An unsettled document is hopeless when bounds on what the cursors still to
deliver it contribute sum, in whatever order, to less than the threshold. -/
theorem Inv.hopeless_of_bound (h : Inv ix sources live top settled) (hs : WellFormed sources)
    (hv : ValidBounds ix sources) {n : Nat} (hb : NoScoreBetween S n)
    (hn : (containing sources d).length ≤ n) (hd : d ∈ matching sources) (hun : d ∉ settled)
    {part : List (PostingCursor S)} {bound : PostingCursor S → S}
    (hsub : ∀ c ∈ part, c ∈ live) (hnd : (part.map (·.addr)).Nodup)
    (hbound : ∀ c ∈ part, 0 ≤ bound c)
    (hcover : ∀ c ∈ live, ∀ p ∈ c.remaining, p.docid = d →
      c ∈ part ∧ postingScore ix c.toPostingSource p ≤ bound c)
    {threshold : S} (hth : top.threshold = some threshold) (hlt : sum (part.map bound) < threshold) :
    Hopeless top (scored ix sources d) := by
  let part' := part.filter (fun c => (entry c.toPostingSource d).isSome)
  have hpart' : part'.Sublist part := List.filter_sublist
  have hmem : ∀ c, c ∈ part' ↔ c ∈ live ∧ ∃ p ∈ c.remaining, p.docid = d := by
    intro c
    rw [List.mem_filter, entry_isSome]
    constructor
    · rintro ⟨hc, p, hp, hpd⟩
      exact ⟨hsub c hc, p, h.pending_of_mem hun (hsub c hc) hp hpd, hpd⟩
    · rintro ⟨hc, p, hp, hpd⟩
      exact ⟨(hcover c hc p hp hpd).1, p, (h.consistent c hc).suffix.mem hp, hpd⟩
  have hperm := h.containing_perm hs hun (hnd.sublist (hpart'.map _)) (fun c hc => (hmem c).mp hc)
    fun c hc hp => (hmem c).mpr ⟨hc, hp⟩
  let score := fun c : PostingCursor S => sourceScore ix d c.toPostingSource
  have hscore : ∀ c ∈ part', 0 ≤ score c ∧ score c ≤ bound c := by
    intro c hc
    obtain ⟨hlive, p, hp, hpd⟩ := (hmem c).mp hc
    refine ⟨sourceScore_nonneg hv (h.source c hlive), ?_⟩
    have hcons := h.consistent c hlive
    show sourceScore ix d c.toPostingSource ≤ bound c
    unfold sourceScore
    rw [entry_eq hcons.wf (hcons.suffix.mem hp) hpd]
    exact (hcover c hlive p hp hpd).2
  have hnonneg : NonNeg (part.map bound) := by
    intro x hx
    obtain ⟨c, hc, rfl⟩ := List.mem_map.mp hx
    exact hbound c hc
  have hpartial : sum (part'.map score) < threshold := by
    calc sum (part'.map score) ≤ sum (part'.map bound) :=
          sum_map_le (fun c hc => (hscore c hc).1) fun c hc => (hscore c hc).2
      _ ≤ sum (part.map bound) := sum_le_of_sublist (hpart'.map bound) hnonneg
      _ < threshold := hlt
  have hle : docScore ix sources d ≤ threshold := by
    have hp := hperm.map (sourceScore ix d)
    rw [List.map_map] at hp
    refine hb (part'.map score) _ (fun x hx => ?_) hp ?_ threshold hpartial
    · obtain ⟨c, hc, rfl⟩ := List.mem_map.mp hx
      exact (hscore c hc).1
    · refine hp.length_eq.trans_le ?_
      rw [List.length_map]
      exact hn
  exact h.hopeless_of_le hd hun hth ((sum_nonneg hnonneg).trans_lt hlt) hle

end Bounds

end CascadeSearch.Query.Pruning
