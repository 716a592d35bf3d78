import CascadeSearch.Query.Pruning

/-!
# One pass of each evaluation loop

Every pass either ends with the reference answer or leaves a state that keeps
the invariant with strictly less work to do. The pruned loops settle documents
in three ways: by pushing the one at the front, by moving a cursor to a pivot
that no earlier document can beat, and by jumping out of a span of blocks.
-/
namespace CascadeSearch.Query.Passes

open Lib.Fallible Lib.Loop Lib.RoundedSum
open Index.Format
open Cursor Heap Reader Evaluate Pruning

section Lists

variable {S : Type} {live live' : List (PostingCursor S)} {d : Nat} {c : PostingCursor S}
  {sources : List (PostingSource S)} {lose : Nat → Prop}

instance : Std.Total (byDocid : PostingCursor S → PostingCursor S → Prop) := ⟨fun a b => by
  unfold byDocid
  omega⟩

instance : IsTrans (PostingCursor S) byDocid := ⟨fun a b c => by
  unfold byDocid
  omega⟩

theorem sorted_sortByDocid (live : List (PostingCursor S)) :
    (sortByDocid live).Pairwise byDocid := List.pairwise_insertionSort byDocid live

theorem perm_sortByDocid (live : List (PostingCursor S)) : (sortByDocid live).Perm live :=
  List.perm_insertionSort byDocid live

theorem work_perm (h : live.Perm live') : work live = work live' :=
  (h.map _).sum_eq

theorem work_filter_le (p : PostingCursor S → Bool) : work (live.filter p) ≤ work live :=
  (List.filter_sublist.map _).sum_le_sum fun _ _ => Nat.zero_le _

theorem docid_le_of_sorted {c e : PostingCursor S} {l : List (PostingCursor S)}
    (hs : (c :: l).Pairwise byDocid) (he : e ∈ l) : c.docid ≤ e.docid := by
  rcases List.rel_of_pairwise_cons hs he with h | h
  · exact h.le
  · exact h.1.le

/-- Cursors at `d` and then others behind it. -/
theorem takeWhile_front {front rest : List (PostingCursor S)} (hat : ∀ c ∈ front, c.docid = d) (hrest : ∀ c ∈ rest, d < c.docid) :
    (front ++ rest).takeWhile (fun c => c.docid = d) = front ∧
      (front ++ rest).dropWhile (fun c => c.docid = d) = rest := by
  have hpos : ∀ c ∈ front, decide (c.docid = d) = true := fun c hc => by simpa using hat c hc
  rw [List.takeWhile_append_of_pos hpos, List.dropWhile_append_of_pos hpos]
  cases rest with
  | nil => simp
  | cons c rest =>
    have := hrest c List.mem_cons_self
    rw [List.takeWhile_cons_of_neg (by simp; omega), List.dropWhile_cons_of_neg (by simp; omega),
      List.append_nil]
    exact ⟨rfl, rfl⟩

/-- None behind `d`, sorted cursors begin with those at `d`. -/
theorem exists_front (hs : live.Pairwise byDocid) (hge : ∀ c ∈ live, d ≤ c.docid) :
    ∃ front rest, live = front ++ rest ∧ (∀ c ∈ front, c.docid = d) ∧ ∀ c ∈ rest, d < c.docid := by
  induction live with
  | nil => exact ⟨[], [], rfl, by simp, by simp⟩
  | cons e l ih =>
    by_cases hd : e.docid = d
    · obtain ⟨front, rest, rfl, hat, hrest⟩ := ih hs.of_cons fun c hc => hge c (List.mem_cons_of_mem _ hc)
      exact ⟨e :: front, rest, rfl, List.forall_mem_cons.mpr ⟨hd, hat⟩, hrest⟩
    · have hlt : d < e.docid := Nat.lt_of_le_of_ne (hge e List.mem_cons_self) (Ne.symm hd)
      refine ⟨[], e :: l, rfl, by simp, List.forall_mem_cons.mpr ⟨hlt, fun c hc => ?_⟩⟩
      exact hlt.trans_le (docid_le_of_sorted hs hc)

theorem le_docid_of_head (hs : live.Pairwise byDocid) (hhead : live.head?.map (·.docid) = some d) :
    ∀ c ∈ live, d ≤ c.docid := by
  cases live with
  | nil => intro c hc; cases hc
  | cons e l =>
    obtain rfl : e.docid = d := by simpa using hhead
    exact List.forall_mem_cons.mpr ⟨le_rfl, fun c hc => docid_le_of_sorted hs hc⟩

/-- Sorted and standing at `d` first, the cursors at `d` are those in front. -/
theorem atFront_takeWhile (hs : live.Pairwise byDocid) (hnd : (live.map (·.addr)).Nodup)
    (hx : ∀ c ∈ live, c.exhausted = false) (hhead : live.head?.map (·.docid) = some d) :
    AtFront live (live.takeWhile (fun c => c.docid = d)) d ∧
      (live.takeWhile (fun c => c.docid = d)).map PostingCursor.next ++
        live.dropWhile (fun c => c.docid = d) = advanceAt d live := by
  have hge := le_docid_of_head hs hhead
  obtain ⟨front, rest, rfl, hat, hrest⟩ := exists_front hs hge
  obtain ⟨htake, hdrop⟩ := takeWhile_front hat hrest
  rw [htake, hdrop]
  have hsub : front.Sublist (front ++ rest) := List.sublist_append_left front rest
  refine ⟨⟨fun c => ⟨fun hc => ?_, ?_⟩, ?_, fun c hc _ => hge c hc⟩, ?_⟩
  · exact ⟨hsub.mem hc, hx c (hsub.mem hc), hat c hc⟩
  · rintro ⟨hc, -, hd⟩
    rcases List.mem_append.mp hc with hc | hc
    · exact hc
    · exact absurd hd (hrest c hc).ne'
  · -- the sort breaks ties by address, and no two cursors share one
    have hpair := (hs.sublist hsub).and (List.pairwise_map.mp (hnd.sublist (hsub.map _)))
    refine hpair.imp_of_mem fun ha hb hab => ?_
    have had := hat _ ha
    have hbd := hat _ hb
    rcases hab.1 with h | h
    · omega
    · exact lt_of_le_of_ne h.2 hab.2
  · rw [advanceAt, List.map_append]
    congr 1
    · exact List.map_congr_left fun c hc => (if_pos (isAt_iff.mpr ⟨hx c (hsub.mem hc), hat c hc⟩)).symm
    · conv_lhs => rw [← List.map_id rest]
      exact List.map_congr_left fun c hc => (if_neg fun h => (hrest c hc).ne' (isAt_iff.mp h).2).symm

/-- When the pivot is not in front, some cursors in front are behind it. -/
theorem behind_ne_nil {pivot : PostingCursor S} (hsort : live.Pairwise byDocid) (hpin : pivot ∈ live)
    (hpd : pivot.docid = d) (hhead : live.head?.map (·.docid) ≠ some d) :
    live.takeWhile (fun c => c.docid < d) ≠ [] := by
  cases live with
  | nil => cases hpin
  | cons c l =>
    have hne : c.docid ≠ d := by simpa using hhead
    have hle : c.docid ≤ d := by
      rcases List.mem_cons.mp hpin with rfl | hpin
      · exact hpd.le
      · exact hpd ▸ docid_le_of_sorted hsort hpin
    rw [List.takeWhile_cons_of_pos (by simpa using lt_of_le_of_ne hle hne)]
    exact List.cons_ne_nil _ _

theorem nextGeq_length_lt {target : Nat} (hc : c.Consistent) (hx : c.exhausted = false)
    (hlt : c.docid < target) : (c.nextGeq target).remaining.length < c.remaining.length := by
  rw [(PostingCursor.nextGeq_spec hc).2, hc.remaining_cons hx,
    List.dropWhile_cons_of_pos (by simpa using hlt)]
  exact Nat.lt_succ_of_le (List.dropWhile_sublist _).length_le

/-- The live cursors as the head of a pass lists them. -/
def lineUp (s : WandState S) : List (PostingCursor S) := sortByDocid (dropExhausted s).live

theorem mem_lineUp {s : WandState S} :
    c ∈ lineUp s ↔ c ∈ s.live ∧ c.exhausted = false := by
  rw [lineUp, (perm_sortByDocid _).mem_iff]
  simp [dropExhausted]

theorem standing_lineUp {s : WandState S} (h : Standing sources s.live) : Standing sources (lineUp s) := by
  refine h.relist (fun c hc => (mem_lineUp.mp hc).1) ?_
  rw [lineUp, ((perm_sortByDocid _).map _).nodup_iff]
  exact h.addrs.sublist (List.filter_sublist.map _)

theorem work_lineUp (s : WandState S) : work (lineUp s) ≤ work s.live := by
  rw [lineUp, work_perm (perm_sortByDocid _)]
  exact work_filter_le _

theorem work_exhausted (h : Standing sources live) (hmove : List.Forall₂ (MovesTo lose) live live')
    (hx : ∀ c ∈ live, c.exhausted = false) (hex : ∃ c ∈ live', c.exhausted = true) :
    work live' < work live := by
  obtain ⟨c', hc', hx'⟩ := hex
  obtain ⟨c, hc, hm⟩ := exists_left hmove hc'
  refine work_lt hmove ⟨c, hc, fun e he ha => ?_⟩
  obtain rfl := (h.move hmove).eq_of_addr he hc' (by rw [ha, hm.source])
  rw [PostingCursor.remaining_of_exhausted hx', (h.consistent c hc).remaining_cons (hx c hc)]
  simp

variable {cursors : List (PostingCursor S)}

/-- The smallest docid under a live cursor, or the mark when none is live. -/
theorem foldl_current (cursors : List (PostingCursor S)) :
    ∀ m, (cursors.foldl (fun current c => if c.exhausted then current else min current c.docid) m ≤ m ∧
        ∀ c ∈ cursors, c.exhausted = false → cursors.foldl
          (fun current c => if c.exhausted then current else min current c.docid) m ≤ c.docid) ∧
      (cursors.foldl (fun current c => if c.exhausted then current else min current c.docid) m = m ∨
        ∃ c ∈ cursors, c.exhausted = false ∧ cursors.foldl
          (fun current c => if c.exhausted then current else min current c.docid) m = c.docid) := by
  induction cursors with
  | nil => intro m; simp
  | cons c cs ih =>
    intro m
    rw [List.foldl_cons]
    cases hx : c.exhausted with
    | true =>
      obtain ⟨⟨hle, hall⟩, hcase⟩ := ih m
      refine ⟨⟨hle, fun e he hxe => ?_⟩, ?_⟩
      · rcases List.mem_cons.mp he with rfl | he
        · rw [hx] at hxe
          cases hxe
        · exact hall e he hxe
      · rcases hcase with h | ⟨e, he, h⟩
        · exact Or.inl h
        · exact Or.inr ⟨e, List.mem_cons_of_mem _ he, h⟩
    | false =>
      obtain ⟨⟨hle, hall⟩, hcase⟩ := ih (min m c.docid)
      simp only [Bool.false_eq_true, if_false]
      refine ⟨⟨hle.trans (Nat.min_le_left _ _), fun e he hxe => ?_⟩, ?_⟩
      · rcases List.mem_cons.mp he with rfl | he
        · exact hle.trans (Nat.min_le_right _ _)
        · exact hall e he hxe
      · rcases hcase with h | ⟨e, he, h⟩
        · rcases Nat.le_total m c.docid with hmc | hmc
          · exact Or.inl (h.trans (Nat.min_eq_left hmc))
          · exact Or.inr ⟨c, List.mem_cons_self, hx, h.trans (Nat.min_eq_right hmc)⟩
        · exact Or.inr ⟨e, List.mem_cons_of_mem _ he, h⟩

theorem atFront_filter (hcons : ∀ c ∈ cursors, c.Consistent)
    (hsort : cursors.Pairwise (fun a b => a.addr < b.addr)) :
    (currentDocid cursors = kNoDocid → ∀ c ∈ cursors, c.exhausted = true) ∧
      (currentDocid cursors ≠ kNoDocid →
        AtFront cursors (cursors.filter (isAt (currentDocid cursors))) (currentDocid cursors) ∧
          cursors.filter (isAt (currentDocid cursors)) ≠ []) := by
  obtain ⟨⟨-, hall⟩, hcase⟩ := foldl_current cursors kNoDocid
  change (∀ c ∈ cursors, c.exhausted = false → currentDocid cursors ≤ c.docid) at hall
  change (currentDocid cursors = kNoDocid ∨ ∃ c ∈ cursors, c.exhausted = false ∧
    currentDocid cursors = c.docid) at hcase
  refine ⟨fun hend c hc => ?_, fun hne => ⟨⟨fun c => ?_, hsort.filter _, hall⟩, ?_⟩⟩
  · cases hx : c.exhausted with
    | true => rfl
    | false =>
      have hle := hall c hc hx
      have hlt := (hcons c hc).docid_lt hx
      omega
  · rw [List.mem_filter, isAt_iff]
  · rcases hcase with h | ⟨c, hc, hx, hd⟩
    · exact absurd h hne
    · exact List.ne_nil_of_mem (List.mem_filter.mpr ⟨hc, isAt_iff.mpr ⟨hx, hd.symm⟩⟩)

theorem sorted_of_addrs (h : List.Forall₂ (MovesTo lose) live live')
    (hsort : live.Pairwise (fun a b => a.addr < b.addr)) :
    live'.Pairwise (fun a b => a.addr < b.addr) := by
  refine List.pairwise_map.mp (?_ : (live'.map (·.addr)).Pairwise (· < ·))
  rw [addrs_eq h]
  exact List.pairwise_map.mpr hsort

theorem mem_blockPostings {t : PostingSource S} {p : Posting} (hp : p ∈ t.all) :
    ∃ i < t.numBlocks, p ∈ t.blockPostings i := by
  obtain ⟨i, hi, hpi⟩ := List.mem_flatMap.mp hp
  obtain ⟨-, hlt⟩ := List.mem_range'_1.mp hi
  exact ⟨i, by omega, hpi⟩

theorem mem_currentBlock (hc : c.Consistent) (hx : c.exhausted = false) :
    (⟨c.docid, c.freq⟩ : Posting) ∈ c.blockPostings c.blockIndex := by
  refine hc.mem_block hx ?_ (hc.docid_le_blockMaxDocid hx)
  rw [hc.remaining_cons hx]
  exact List.mem_cons_self

theorem mem_all_current (hc : c.Consistent) (hx : c.exhausted = false) :
    (⟨c.docid, c.freq⟩ : Posting) ∈ c.all := by
  apply hc.suffix.mem
  rw [hc.remaining_cons hx]
  exact List.mem_cons_self

/-- The last docid of a block is the docid of one of its postings. -/
theorem blockMaxDocid_lt (hc : c.Consistent) (hx : c.exhausted = false) :
    c.blockMaxDocid < kNoDocid := by
  have hin := (hc.live hx).inBlocks
  have hne := List.ne_nil_of_mem (mem_currentBlock hc hx)
  have hlast := List.getLast?_eq_some_getLast hne
  have hall : (c.blockPostings c.blockIndex).getLast hne ∈ c.all :=
    List.mem_flatMap.mpr ⟨c.blockIndex, List.mem_range'_1.mpr ⟨Nat.zero_le _, by omega⟩,
      List.getLast_mem hne⟩
  rw [PostingCursor.blockMaxDocid, hc.wf.maxDocid _ hin _ hlast]
  exact hc.wf.below _ hall

end Lists

section Bounds

variable {S : Type} [LinearOrder S] [Zero S] {ix : Index S} {sources : List (PostingSource S)}
  {c : PostingCursor S}

theorem score_le_maxImpact (hv : ValidBounds ix sources) {t : PostingSource S} (ht : t ∈ sources)
    {p : Posting} (hp : p ∈ t.all) : postingScore ix t p ≤ t.maxImpact := by
  obtain ⟨i, hi, hpi⟩ := mem_blockPostings hp
  exact (hv.block t ht i hi p hpi).trans (hv.term t ht i hi)

/-- Block bounds of every source, and term bounds where it has a block at all. -/
structure NonNegativeBounds (sources : List (PostingSource S)) : Prop where
  block : ∀ t ∈ sources, ∀ i < t.numBlocks, 0 ≤ (t.blocks i).maxImpact
  term : ∀ t ∈ sources, 0 < t.numBlocks → 0 ≤ t.maxImpact

theorem NonNegativeBounds.running {sources : List (PostingSource S)} (h : NonNegativeBounds sources)
    {c : PostingCursor S} (hs : c.toPostingSource ∈ sources) (hc : c.Consistent)
    (hx : c.exhausted = false) : 0 ≤ c.maxImpact ∧ 0 ≤ c.blockMaxImpact := by
  have hin := (hc.live hx).inBlocks
  exact ⟨h.term _ hs (Nat.zero_lt_of_lt hin), h.block _ hs _ hin⟩

/-- Every block holds a posting, whose score its bound is not below. -/
theorem nonNegativeBounds (hs : WellFormed sources) (hv : ValidBounds ix sources) :
    NonNegativeBounds sources := by
  have hblock : ∀ t ∈ sources, ∀ i < t.numBlocks, 0 ≤ (t.blocks i).maxImpact := by
    intro t ht i hi
    have hlen := (hs.source t ht).length_blockPostings hi
    have hpos := (hs.source t ht).nonempty i hi
    obtain ⟨p, hp⟩ := List.exists_mem_of_length_pos (hlen ▸ hpos)
    have hall : p ∈ t.all := List.mem_flatMap.mpr ⟨i, List.mem_range'_1.mpr ⟨Nat.zero_le _, by omega⟩, hp⟩
    exact (hv.nonneg t ht p hall).trans (hv.block t ht i hi p hp)
  exact ⟨hblock, fun t ht h0 => (hblock t ht 0 h0).trans (hv.term t ht 0 h0)⟩

end Bounds

section Select

variable {S : Type} [LinearOrder S]

theorem largestBound_step : ∃ step : Option (PostingCursor S) → PostingCursor S → Option (PostingCursor S),
    (∀ laggards, largestBound laggards = laggards.foldl step none) ∧ (∀ c, step none c = some c) ∧
      ∀ best c, step (some best) c = if best.maxImpact < c.maxImpact then some c else some best :=
  ⟨_, fun _ => rfl, fun _ => rfl, fun _ _ => rfl⟩

theorem largestBound_mem {laggards : List (PostingCursor S)} (hne : laggards ≠ []) :
    ∃ chosen ∈ laggards, largestBound laggards = some chosen := by
  obtain ⟨step, hlargest, hfirst, hlater⟩ := largestBound_step (S := S)
  have hfold : ∀ (l : List (PostingCursor S)) (best : PostingCursor S),
      ∃ chosen, (chosen = best ∨ chosen ∈ l) ∧ l.foldl step (some best) = some chosen := by
    intro l
    induction l with
    | nil => exact fun best => ⟨best, Or.inl rfl, rfl⟩
    | cons c l ih =>
      intro best
      rw [List.foldl_cons, hlater]
      by_cases hlt : best.maxImpact < c.maxImpact
      · rw [if_pos hlt]
        obtain ⟨chosen, hmem, heq⟩ := ih c
        refine ⟨chosen, Or.inr ?_, heq⟩
        rcases hmem with rfl | hmem
        · exact List.mem_cons_self
        · exact List.mem_cons_of_mem _ hmem
      · rw [if_neg hlt]
        obtain ⟨chosen, hmem, heq⟩ := ih best
        exact ⟨chosen, hmem.imp id (List.mem_cons_of_mem _), heq⟩
  cases laggards with
  | nil => exact absurd rfl hne
  | cons c l =>
    obtain ⟨chosen, hmem, heq⟩ := hfold l c
    rw [hlargest, List.foldl_cons, hfirst]
    refine ⟨chosen, ?_, heq⟩
    rcases hmem with rfl | hmem
    · exact List.mem_cons_self
    · exact List.mem_cons_of_mem _ hmem

variable [Add S]

/-- Before the pivot the accumulated bounds stay below the threshold. -/
theorem findPivot_below (threshold : S) (live : List (PostingCursor S)) :
    ∀ bound, findPivot threshold bound live ≠ 0 →
      ((live.take (findPivot threshold bound live)).map (·.maxImpact)).foldl (· + ·) bound <
        threshold := by
  induction live with
  | nil => intro bound h; exact absurd rfl h
  | cons c cs ih =>
    intro bound h
    rw [findPivot] at h ⊢
    by_cases hle : threshold ≤ bound + c.maxImpact
    · rw [if_pos hle] at h
      exact absurd rfl h
    · rw [if_neg hle, List.take_succ_cons, List.map_cons, List.foldl_cons]
      by_cases hz : findPivot threshold (bound + c.maxImpact) cs = 0
      · rw [hz]
        exact not_le.mp hle
      · exact ih _ hz

/-- The pivot lies behind cursors whose bounds together stay below the threshold. -/
theorem findPivot_append [Zero S] [One S] [Neg S] [RoundedAdd S] {threshold bound : S} {front : List (PostingCursor S)}
    (rest : List (PostingCursor S)) (hfront : ∀ c ∈ front, 0 ≤ c.maxImpact) (hb : 0 ≤ bound)
    (hlt : (front.map (·.maxImpact)).foldl (· + ·) bound < threshold) :
    findPivot threshold bound (front ++ rest) = front.length +
      findPivot threshold ((front.map (·.maxImpact)).foldl (· + ·) bound) rest := by
  induction front generalizing bound with
  | nil => simp
  | cons c front ih =>
    have hc := hfront c List.mem_cons_self
    have hcs : ∀ e ∈ front, 0 ≤ e.maxImpact := fun e he => hfront e (List.mem_cons_of_mem _ he)
    have hsum := add_nonneg hb hc
    have hle : bound + c.maxImpact ≤ (front.map (·.maxImpact)).foldl (· + ·) (bound + c.maxImpact) :=
      foldl_le_of_sublist (List.nil_sublist _) (fun x hx => by
        obtain ⟨e, he, rfl⟩ := List.mem_map.mp hx
        exact hcs e he) hsum le_rfl
    rw [List.map_cons, List.foldl_cons] at hlt
    rw [List.cons_append, findPivot, if_neg (not_le.mpr (hle.trans_lt hlt)), ih hcs hsum hlt,
      List.map_cons, List.foldl_cons, List.length_cons]
    omega

/-- There is no pivot when all bounds together stay below the threshold. -/
theorem findPivot_eq_length [Zero S] [One S] [Neg S] [RoundedAdd S] {threshold bound : S}
    {live : List (PostingCursor S)} (hlive : ∀ c ∈ live, 0 ≤ c.maxImpact) (hb : 0 ≤ bound)
    (hlt : (live.map (·.maxImpact)).foldl (· + ·) bound < threshold) :
    findPivot threshold bound live = live.length := by
  have happend := findPivot_append [] hlive hb hlt
  rwa [List.append_nil, findPivot, Nat.add_zero] at happend

/-- At the pivot they reach it. -/
theorem findPivot_reaches (threshold : S) (live : List (PostingCursor S)) :
    ∀ bound, findPivot threshold bound live < live.length →
      threshold ≤ ((live.take (findPivot threshold bound live + 1)).map (·.maxImpact)).foldl (· + ·) bound := by
  induction live with
  | nil => intro bound h; cases h
  | cons c cs ih =>
    intro bound h
    rw [findPivot] at h ⊢
    by_cases hle : threshold ≤ bound + c.maxImpact
    · rw [if_pos hle]
      exact hle
    · rw [if_neg hle] at h ⊢
      rw [List.take_succ_cons, List.map_cons, List.foldl_cons]
      exact ih _ (Nat.lt_of_succ_lt_succ h)

variable [Zero S] {ix : Index S} {sources : List (PostingSource S)} {settled : List Nat} {k : Nat}

/-- The loop's state: the heap has capacity `k` and the invariant holds. -/
def Good (ix : Index S) (sources : List (PostingSource S)) (k : Nat) (s : WandState S) : Prop :=
  s.top.k = k ∧ ∃ settled, Inv ix sources s.live s.top settled

/-- What every pass achieves when it starts with work `w`. -/
def Achieves (ix : Index S) (sources : List (PostingSource S)) (k w : Nat) :
    Step (WandState S) (Outcome S) → Prop
  | .next s => Good ix sources k s ∧ work s.live < w
  | .done outcome => ∃ stats, outcome = .ok (ranked ix sources k, stats)

/-- Live cursors in order, a pivot among them, and bounds below the threshold
before it. -/
structure Pivoted (live : List (PostingCursor S)) (threshold : S) (i d : Nat) : Prop where
  sorted : live.Pairwise byDocid
  running : ∀ c ∈ live, c.exhausted = false
  pivot : ∃ c, live[i]? = some c ∧ c.docid = d
  below : i ≠ 0 → sum ((live.take i).map (·.maxImpact)) < threshold

/-- When the pivot is not in front, the cursor in front is behind it. -/
theorem Pivoted.front {live : List (PostingCursor S)} {threshold : S} {i d : Nat}
    (hp : Pivoted live threshold i d) (hhead : live.head?.map (·.docid) ≠ some d) :
    ∃ c ∈ live.take i, c.docid < d := by
  obtain ⟨pivot, hget, rfl⟩ := hp.pivot
  have hs := hp.sorted
  cases live with
  | nil => cases hget
  | cons c l =>
    have hne : c.docid ≠ pivot.docid := by simpa using hhead
    cases i with
    | zero =>
      obtain rfl : c = pivot := by simpa using hget
      exact absurd rfl hne
    | succ i =>
      refine ⟨c, by rw [List.take_succ_cons]; exact List.mem_cons_self, ?_⟩
      have hle : c.docid ≤ pivot.docid :=
        docid_le_of_sorted hs (List.mem_of_getElem? (by simpa using hget))
      omega

theorem Pivoted.le_docid_of_mem_drop {live : List (PostingCursor S)} {threshold : S} {i d : Nat}
    (hp : Pivoted live threshold i d) {c : PostingCursor S} (hc : c ∈ live.drop i) : d ≤ c.docid := by
  obtain ⟨pivot, hget, rfl⟩ := hp.pivot
  have hhead : (live.drop i).head?.map (·.docid) = some pivot.docid := by
    rw [List.head?_drop, hget, Option.map_some]
  exact le_docid_of_head (hp.sorted.sublist (List.drop_sublist i live)) hhead c hc

/-- The cursors strictly before the pivot's docid stand before it in the list. -/
theorem Pivoted.mem_take {live : List (PostingCursor S)} {threshold : S} {i d : Nat}
    (hp : Pivoted live threshold i d) {c : PostingCursor S} (hc : c ∈ live) (hlt : c.docid < d) :
    c ∈ live.take i := by
  rw [← List.take_append_drop i live] at hc
  rcases List.mem_append.mp hc with hc | hc
  · exact hc
  · exact absurd (hp.le_docid_of_mem_drop hc) (not_le.mpr hlt)

theorem Pivoted.docid_le_of_mem_take {live : List (PostingCursor S)} {threshold : S} {i d : Nat}
    (hp : Pivoted live threshold i d) {c : PostingCursor S} (hc : c ∈ live.take (i + 1)) :
    c.docid ≤ d := by
  obtain ⟨pivot, hget, rfl⟩ := hp.pivot
  obtain ⟨hi, hgeti⟩ := List.getElem?_eq_some_iff.mp hget
  rw [List.take_succ_eq_append_getElem hi, hgeti] at hc
  have hs := hp.sorted.sublist (List.take_sublist (i + 1) live)
  rw [List.take_succ_eq_append_getElem hi, hgeti] at hs
  rcases List.mem_append.mp hc with hc | hc
  · rcases (List.pairwise_append.mp hs).2.2 c hc pivot (List.mem_singleton_self _) with h | ⟨h, -⟩
    · exact h.le
    · exact h.le
  · rw [List.mem_singleton.mp hc]

theorem inv_lineUp {s : WandState S} (h : Inv ix sources s.live s.top settled) :
    Inv ix sources (lineUp s) s.top settled :=
  h.relist (fun _ hc => (mem_lineUp.mp hc).1) (fun _ hc hx => mem_lineUp.mpr ⟨hc, hx⟩)
    (standing_lineUp h.standing).addrs

/-- The counters of scoring work agree. -/
def SameWork (stats stats' : SearchStats) : Prop :=
  stats'.postingsScored = stats.postingsScored ∧ stats'.fullEvaluations = stats.fullEvaluations

theorem selectPivot_of_some {s : WandState S} {live : List (PostingCursor S)} {threshold : S}
    {pivot : PostingCursor S} (hlive : lineUp s = live)
    (hth : s.top.threshold = some threshold)
    (hget : live[findPivot threshold 0 live]? = some pivot) :
    ∃ stats, selectPivot s =
      .ok ⟨live, threshold, findPivot threshold 0 live, pivot.docid, stats⟩ ∧ SameWork s.stats stats := by
  have htop : (dropExhausted s).top.threshold = some threshold := hth
  have hne : (dropExhausted s).live ≠ [] := by
    intro hnil
    rw [lineUp, hnil] at hlive
    rw [← hlive] at hget
    cases hget
  unfold lineUp at hlive
  unfold selectPivot
  dsimp only
  rw [if_neg hne, hlive, htop]
  dsimp only
  rw [hget]
  exact ⟨_, rfl, rfl, rfl⟩

theorem selectPivot_of_none {s : WandState S} {live : List (PostingCursor S)} {threshold : S}
    (hlive : lineUp s = live) (hth : s.top.threshold = some threshold)
    (hget : live[findPivot threshold 0 live]? = none) :
    ∃ stats, selectPivot s = .error (.ok (s.top.drain, stats)) ∧ SameWork s.stats stats := by
  have htop : (dropExhausted s).top.threshold = some threshold := hth
  unfold lineUp at hlive
  unfold selectPivot
  dsimp only
  by_cases hnil : (dropExhausted s).live = []
  · rw [if_pos hnil]
    exact ⟨_, rfl, rfl, rfl⟩
  · rw [if_neg hnil, hlive, htop]
    dsimp only
    rw [hget]
    exact ⟨_, rfl, rfl, rfl⟩

/-- The head of a pruned loop either ends it with nothing left that could reach
the threshold, or finds a pivot. -/
theorem selectPivot_spec {s : WandState S} {threshold : S} (hth : s.top.threshold = some threshold) :
    (∃ stats, selectPivot s = .error (.ok (s.top.drain, stats)) ∧ SameWork s.stats stats ∧
        (lineUp s ≠ [] → sum ((lineUp s).map (·.maxImpact)) < threshold)) ∨
      ∃ i d stats, selectPivot s = .ok ⟨lineUp s, threshold, i, d, stats⟩ ∧ SameWork s.stats stats ∧
        Pivoted (lineUp s) threshold i d ∧
        threshold ≤ sum (((lineUp s).take (i + 1)).map (·.maxImpact)) := by
  have hrunning : ∀ c ∈ lineUp s, c.exhausted = false := fun c hc => (mem_lineUp.mp hc).2
  have hsorted : (lineUp s).Pairwise byDocid := sorted_sortByDocid (dropExhausted s).live
  generalize hlive : lineUp s = live at *
  have hbelow := findPivot_below threshold live 0
  cases hget : live[findPivot threshold 0 live]? with
  | none =>
    obtain ⟨stats, hsel, hwork⟩ := selectPivot_of_none hlive hth hget
    refine Or.inl ⟨stats, hsel, hwork, fun hne => ?_⟩
    have hlen : live.length ≤ findPivot threshold 0 live := List.getElem?_eq_none_iff.mp hget
    have hpos := List.length_pos_of_ne_nil hne
    have := hbelow (by omega)
    rwa [List.take_of_length_le hlen] at this
  | some pivot =>
    obtain ⟨stats, hsel, hwork⟩ := selectPivot_of_some hlive hth hget
    have hlt := (List.getElem?_eq_some_iff.mp hget).1
    exact Or.inr ⟨_, _, stats, hsel, hwork, ⟨hsorted, hrunning, ⟨pivot, hget, rfl⟩, hbelow⟩,
      findPivot_reaches threshold live 0 hlt⟩

end Select

section Blocks

variable {S : Type} {live : List (PostingCursor S)} {d : Nat}

/-- A cursor on the pivot is left on it. -/
theorem skipToBlock_at {c : PostingCursor S} (hc : c.Consistent) (hx : c.exhausted = false) :
    c.skipToBlock c.docid = c :=
  PostingCursor.skipToBlock_eq_self hc hx (hc.docid_le_blockMaxDocid hx)

theorem foldl_min_le (cs : List (PostingCursor S)) :
    ∀ m, (cs.foldl (fun m c => min m c.blockMaxDocid) m ≤ m ∧
      ∀ c ∈ cs, cs.foldl (fun m c => min m c.blockMaxDocid) m ≤ c.blockMaxDocid) ∧
      (∀ d, d ≤ m → (∀ c ∈ cs, d ≤ c.blockMaxDocid) →
        d ≤ cs.foldl (fun m c => min m c.blockMaxDocid) m) := by
  induction cs with
  | nil => intro m; simp
  | cons c cs ih =>
    intro m
    obtain ⟨⟨hle, hall⟩, hge⟩ := ih (min m c.blockMaxDocid)
    rw [List.foldl_cons]
    refine ⟨⟨by omega, fun e he => ?_⟩, fun d hd hde => ?_⟩
    · rcases List.mem_cons.mp he with rfl | he
      · omega
      · exact hall e he
    · have := hde c List.mem_cons_self
      exact hge d (by omega) fun e he => hde e (List.mem_cons_of_mem _ he)

variable [One S] [Neg S] [Add S]

/-- Either a cursor ran out and the bound is `-1`, or every cursor has been
positioned and the bound is the sum of their block bounds. -/
theorem positionBlocks_spec (cs : List (PostingCursor S)) (hc : ∀ c ∈ cs, c.Consistent) :
    ∀ bound, List.Forall₂ (MovesTo (· < d)) cs (positionBlocks d bound cs).1 ∧
      ((positionBlocks d bound cs).2 = -1 ∧
          (∃ c ∈ (positionBlocks d bound cs).1, c.exhausted = true) ∨
        (positionBlocks d bound cs).1 = cs.map (PostingCursor.skipToBlock d) ∧
          (∀ c ∈ cs, (c.skipToBlock d).exhausted = false) ∧
          (positionBlocks d bound cs).2 =
            ((cs.map (PostingCursor.skipToBlock d)).map (·.blockMaxImpact)).foldl (· + ·) bound) := by
  induction cs with
  | nil => intro bound; exact ⟨List.Forall₂.nil, Or.inr ⟨rfl, by simp, rfl⟩⟩
  | cons c cs ih =>
    intro bound
    have hcs : ∀ e ∈ cs, e.Consistent := fun e he => hc e (List.mem_cons_of_mem _ he)
    have hskip := movesTo_skipToBlock (hc c List.mem_cons_self) d
    unfold positionBlocks
    dsimp only
    by_cases hx : (c.skipToBlock d).exhausted = true
    · rw [if_pos hx]
      refine ⟨List.Forall₂.cons hskip ?_, Or.inl ⟨rfl, _, List.mem_cons_self, hx⟩⟩
      exact List.forall₂_same.mpr fun e he => MovesTo.refl (hcs e he)
    · rw [if_neg hx]
      obtain ⟨hmove, hcases⟩ := ih hcs (bound + (c.skipToBlock d).blockMaxImpact)
      refine ⟨List.Forall₂.cons hskip hmove, ?_⟩
      rcases hcases with ⟨hneg, e, he, hex⟩ | ⟨hmap, hrun, hsum⟩
      · exact Or.inl ⟨hneg, e, List.mem_cons_of_mem _ he, hex⟩
      · refine Or.inr ⟨?_, ?_, hsum⟩
        · rw [List.map_cons, hmap]
        · intro e he
          rcases List.mem_cons.mp he with rfl | he
          · simpa using hx
          · exact hrun e he

end Blocks

section Jump

variable {S : Type} [LinearOrder S] {live candidates rest : List (PostingCursor S)}

/-- The jump goes past the pivot, by no more than the earliest block end and
not past the first cursor outside the candidates. -/
theorem jump_next {pivot : PostingCursor S} (hpmem : pivot ∈ candidates) (hc : pivot.Consistent)
    (hx : pivot.exhausted = false) (hblock : ∀ c ∈ candidates, pivot.docid ≤ c.blockMaxDocid)
    (hsort : rest.Pairwise byDocid) (hrest : ∀ c ∈ rest.head?, pivot.docid < c.docid)
    (s : WandState S) :
    ∃ target, pivot.docid < target ∧ (∀ c ∈ candidates, target ≤ c.blockMaxDocid + 1) ∧
      (∀ c ∈ rest, target ≤ c.docid) ∧
      jump candidates rest s = .next { s with
        live := candidates.map (fun c => if c.docid < target then c.nextGeq target else c) ++ rest } := by
  obtain ⟨⟨-, hall⟩, hge⟩ := foldl_min_le candidates kNoDocid
  have hplt := blockMaxDocid_lt hc hx
  have hple := hall pivot hpmem
  have hdle := hge pivot.docid (hc.docid_lt hx).le hblock
  unfold jump
  dsimp only
  generalize candidates.foldl (fun m c => min m c.blockMaxDocid) kNoDocid = nextCandidate at *
  rw [if_neg (by omega), u32_of_lt (by unfold kNoDocid at hplt; omega)]
  cases rest with
  | nil =>
    refine ⟨nextCandidate + 1, by omega, fun c hc => ?_, by simp, rfl⟩
    have := hall c hc
    omega
  | cons e l =>
    have := hrest e rfl
    refine ⟨min (nextCandidate + 1) e.docid, by omega, fun c hc => ?_, fun c hc => ?_, rfl⟩
    · have := hall c hc
      omega
    · refine (Nat.min_le_right _ _).trans ?_
      rcases List.mem_cons.mp hc with rfl | hc
      · exact le_rfl
      · exact docid_le_of_sorted hsort hc

variable [Zero S] [Add S] {threshold : S} {i d : Nat}

/-- The candidates hold a cursor on the pivot, the others are strictly past it. -/
theorem candidates_spec (hp : Pivoted live threshold i d) (stats : SearchStats) :
    (∃ pivot ∈ live.take (candidateCount ⟨live, threshold, i, d, stats⟩), pivot.docid = d) ∧
      ∀ c ∈ (live.drop (candidateCount ⟨live, threshold, i, d, stats⟩)).head?, d < c.docid := by
  obtain ⟨pivot, hget, hpd⟩ := hp.pivot
  unfold candidateCount
  dsimp only
  refine ⟨⟨pivot, ?_, hpd⟩, ?_⟩
  · refine List.mem_of_getElem? (i := i) ?_
    rw [List.getElem?_take_of_lt (by omega)]
    exact hget
  · intro c hc
    have hge : ∀ c ∈ live.drop (i + 1), d ≤ c.docid := fun c hc =>
      hp.le_docid_of_mem_drop ((List.drop_sublist_drop_left live (Nat.le_succ i)).mem hc)
    obtain ⟨front, rest, hsplit, hat, hrest⟩ :=
      exists_front (hp.sorted.sublist (List.drop_sublist (i + 1) live)) hge
    rw [← List.drop_drop, hsplit, (takeWhile_front hat hrest).1, List.drop_left] at hc
    exact hrest c (List.mem_of_mem_head? hc)

end Jump

end CascadeSearch.Query.Passes
