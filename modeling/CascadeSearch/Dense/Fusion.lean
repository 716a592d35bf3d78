import CascadeSearch.Lib.Mapping
import CascadeSearch.Lib.Sorted
import Mathlib.Algebra.Field.Rat
import Mathlib.Algebra.Order.Field.Basic
import Mathlib.Algebra.BigOperators.Group.List.Basic

/-!
# Reciprocal rank fusion (`fusion.py`)

Each channel is sorted by score alone, so documents with equal scores keep the
order in which they were inserted, and that order decides their ranks. The fused
scores depend on the channels as mappings exactly if no channel has a tie.
-/
namespace CascadeSearch.Dense.Fusion

open Lib.Mapping Lib.Sorted

variable {D S : Type*} [DecidableEq D] [LT S] [DecidableLT S]

/-- `sorted(channel.items(), key=lambda kv: kv[1], reverse=True)`. -/
def rankedEntries (channel : Dict D S) : List (D × S) := sortedReverse (fun a b => a.2 < b.2) channel.items

/-- `fused[docid] = fused.get(docid, 0.0) + 1.0 / (k + rank)`. -/
def addRank (k : Nat) (fused : Dict D ℚ) (entry : (D × S) × Nat) : Dict D ℚ :=
  fused.set entry.1.1 (fused.getD entry.1.1 0 + 1 / (k + entry.2))

def reciprocalRankFusion (channels : List (Dict D S)) (k : Nat) : Dict D ℚ :=
  channels.foldl (fun fused channel => ((rankedEntries channel).zipIdx 1).foldl (addRank k) fused) Dict.empty

def share (k : Nat) (channel : Dict D S) (docid : D) : ℚ :=
  ((((rankedEntries channel).zipIdx 1).filter (·.1.1 = docid)).map fun entry => 1 / ((k : ℚ) + entry.2)).sum

omit [LT S] [DecidableLT S] in
theorem getD_foldl_addRank (k : Nat) (docid : D) (entries : List ((D × S) × Nat)) (fused : Dict D ℚ) :
    (entries.foldl (addRank k) fused).getD docid 0 =
      fused.getD docid 0 + ((entries.filter (·.1.1 = docid)).map fun entry => 1 / ((k : ℚ) + entry.2)).sum := by
  induction entries generalizing fused with
  | nil => exact (add_zero _).symm
  | cons entry entries ih =>
    rw [List.foldl_cons, ih, addRank]
    by_cases hdoc : entry.1.1 = docid
    · rw [List.filter_cons_of_pos (by simpa using hdoc), List.map_cons, List.sum_cons, ← hdoc, Dict.getD_set_self,
        add_assoc]
    · rw [List.filter_cons_of_neg (by simpa using hdoc), Dict.getD_set_of_ne (Ne.symm hdoc)]

omit [LT S] [DecidableLT S] in
theorem mem_foldl_addRank (k : Nat) (docid : D) (entries : List ((D × S) × Nat)) (fused : Dict D ℚ) :
    docid ∈ entries.foldl (addRank k) fused ↔ docid ∈ fused ∨ ∃ entry ∈ entries, docid = entry.1.1 := by
  induction entries generalizing fused with
  | nil => simp
  | cons entry entries ih =>
    rw [List.foldl_cons, ih, addRank, Dict.mem_set, List.exists_mem_cons_iff, or_assoc]

omit [DecidableEq D] in
theorem mem_rankedEntries {channel : Dict D S} {docid : D} :
    (∃ entry ∈ (rankedEntries channel).zipIdx 1, docid = entry.1.1) ↔ docid ∈ channel := by
  have hkeys : ((rankedEntries channel).map Prod.fst).Perm channel.keys := sortedReverse_perm.map Prod.fst
  have hzip : ((rankedEntries channel).zipIdx 1).map (·.1.1) = (rankedEntries channel).map Prod.fst := by
    rw [← Function.comp_def, ← List.map_map, List.zipIdx_map_fst]
  change _ ↔ docid ∈ channel.keys
  rw [← hkeys.mem_iff, ← hzip, List.mem_map]
  exact exists_congr fun entry => and_congr_right fun _ => eq_comm

/-- The fused score of a document is the sum of what the channels give to it. -/
theorem get?_reciprocalRankFusion (channels : List (Dict D S)) (k : Nat) (docid : D) :
    (reciprocalRankFusion channels k).get? docid =
      if ∃ channel ∈ channels, docid ∈ channel then some (channels.map (share k · docid)).sum else none := by
  have hfold : ∀ fused : Dict D ℚ,
      let result := channels.foldl
        (fun fused channel => ((rankedEntries channel).zipIdx 1).foldl (addRank k) fused) fused
      result.getD docid 0 = fused.getD docid 0 + (channels.map (share k · docid)).sum ∧
        (docid ∈ result ↔ docid ∈ fused ∨ ∃ channel ∈ channels, docid ∈ channel) := by
    induction channels with
    | nil => exact fun fused => ⟨(add_zero _).symm, by simp⟩
    | cons channel channels ih =>
      intro fused
      obtain ⟨hgetD, hmem⟩ := ih (((rankedEntries channel).zipIdx 1).foldl (addRank k) fused)
      refine ⟨?_, ?_⟩
      · rw [List.foldl_cons, hgetD, getD_foldl_addRank, List.map_cons, List.sum_cons, add_assoc]
        rfl
      · rw [List.foldl_cons, hmem, mem_foldl_addRank, mem_rankedEntries, List.exists_mem_cons_iff, or_assoc]
  obtain ⟨hgetD, hmem⟩ := hfold Dict.empty
  have hnone : docid ∉ (Dict.empty : Dict D ℚ) := List.not_mem_nil
  rw [Dict.getD_of_not_mem hnone, zero_add] at hgetD
  split
  · rename_i hchannel
    exact (Dict.get?_eq_some_getD (hmem.mpr (.inr hchannel)) 0).trans (congrArg some hgetD)
  · rename_i hchannel
    exact Dict.get?_eq_none_iff.mpr fun h => hchannel ((hmem.mp h).resolve_left hnone)

section Rank

variable {channel : Dict D S} {a b : D × S}

/-- The share of a document tells its rank. -/
theorem share_of_split {l₁ l₂ : List (D × S)} (h : rankedEntries channel = l₁ ++ a :: l₂) (k : Nat) :
    share k channel a.1 = 1 / ((k : ℚ) + (1 + l₁.length : Nat)) := by
  have hnodup : ((l₁ ++ a :: l₂).map Prod.fst).Nodup := h ▸ (sortedReverse_perm.map Prod.fst).nodup_iff.mpr channel.nodup
  rw [List.map_append, List.map_cons, List.nodup_middle, List.nodup_cons] at hnodup
  have hother : ∀ l : List (D × S), a.1 ∉ l.map Prod.fst → ∀ rank, (l.zipIdx rank).filter (·.1.1 = a.1) = [] := by
    intro l hl rank
    refine List.filter_eq_nil_iff.mpr fun entry hentry hkey => hl ?_
    rw [← of_decide_eq_true hkey]
    exact List.mem_map_of_mem (List.fst_mem_of_mem_zipIdx hentry)
  obtain ⟨hfront, hrest⟩ := not_or.mp (mt List.mem_append.mpr hnodup.1)
  rw [share, h, List.zipIdx_append, List.zipIdx_cons, List.filter_append, hother l₁ hfront,
    List.filter_cons_of_pos (by simp), hother l₂ hrest]
  simp

theorem eq_of_share_eq (ha : a ∈ channel.items) (hb : b ∈ channel.items) {k : Nat}
    (h : share k channel a.1 = share k channel b.1) : a = b := by
  obtain ⟨l₁, l₂, hl⟩ := List.append_of_mem (sortedReverse_perm.mem_iff.mpr ha : a ∈ rankedEntries channel)
  obtain ⟨l₃, l₄, hl'⟩ := List.append_of_mem (sortedReverse_perm.mem_iff.mpr hb : b ∈ rankedEntries channel)
  rw [share_of_split hl, share_of_split hl', one_div, one_div, inv_inj, add_right_inj, Nat.cast_inj,
    Nat.add_right_inj] at h
  rw [hl] at hl'
  exact (List.cons_eq_cons.mp (List.append_inj_right hl' h)).1

end Rank

/-- The same channels as mappings, in any order and with their entries inserted in any order. -/
def Reordered (channels channels' : List (Dict D S)) : Prop :=
  ∃ mid, channels.Perm mid ∧ List.Forall₂ (fun channel channel' => channel.items.Perm channel'.items) mid channels'

/-- No two entries have scores that compare alike. -/
def Untied (channel : Dict D S) : Prop :=
  ∀ a ∈ channel.items, ∀ b ∈ channel.items, ¬a.2 < b.2 → ¬b.2 < a.2 → a = b

instance [DecidableEq S] (channel : Dict D S) : Decidable (Untied channel) :=
  inferInstanceAs (Decidable (∀ a ∈ channel.items, ∀ b ∈ channel.items, ¬a.2 < b.2 → ¬b.2 < a.2 → a = b))

variable [IsStrictWeakOrder S (· < ·)]

instance scoreWeakOrder : IsStrictWeakOrder (D × S) (fun a b => a.2 < b.2) :=
  inferInstanceAs (IsStrictWeakOrder (D × S) (Function.onFun (· < ·) Prod.snd))

theorem share_eq_of_perm {channel channel' : Dict D S} (hperm : channel.items.Perm channel'.items)
    (h : Untied channel) (k : Nat) (docid : D) : share k channel docid = share k channel' docid := by
  rw [share, share, rankedEntries, rankedEntries, sortedReverse_eq_of_perm hperm h]

theorem fused_eq_of_untied {channels channels' : List (Dict D S)} (hreordered : Reordered channels channels')
    (h : ∀ channel ∈ channels, Untied channel) (k : Nat) (docid : D) :
    (reciprocalRankFusion channels k).get? docid = (reciprocalRankFusion channels' k).get? docid := by
  obtain ⟨mid, hperm, hmid⟩ := hreordered
  have huntied : ∀ channel ∈ mid, Untied channel := fun channel hchannel => h channel (hperm.mem_iff.mpr hchannel)
  have hsame : mid.map (share k · docid) = channels'.map (share k · docid) ∧
      ((∃ channel ∈ mid, docid ∈ channel) ↔ ∃ channel ∈ channels', docid ∈ channel) := by
    clear hperm
    induction hmid with
    | nil => exact ⟨rfl, Iff.rfl⟩
    | cons hitems _ ih =>
      obtain ⟨hfirst, hrest⟩ := List.forall_mem_cons.mp huntied
      obtain ⟨hmap, hexists⟩ := ih hrest
      refine ⟨?_, ?_⟩
      · rw [List.map_cons, List.map_cons, hmap, share_eq_of_perm hitems hfirst]
      · rw [List.exists_mem_cons_iff, List.exists_mem_cons_iff, hexists]
        exact or_congr_left (hitems.map Prod.fst).mem_iff
  have hexists : (∃ channel ∈ channels, docid ∈ channel) ↔ ∃ channel ∈ mid, docid ∈ channel :=
    exists_congr fun channel => and_congr_left fun _ => hperm.mem_iff
  rw [get?_reciprocalRankFusion, get?_reciprocalRankFusion, (hperm.map _).sum_eq, hsame.1]
  simp only [hexists, hsame.2]

omit [DecidableEq D] [LT S] [DecidableLT S] [IsStrictWeakOrder S (· < ·)] in
theorem eq_of_mem_items {channel : Dict D S} {a b : D × S} (ha : a ∈ channel.items) (hb : b ∈ channel.items) :
    a.1 = b.1 ↔ a = b :=
  ⟨fun h => List.inj_on_of_nodup_map channel.nodup ha hb h, fun h => congrArg Prod.fst h⟩

section Swap

variable [DecidableEq S]

/-- The same mapping, with two of its entries inserted in each other's place. -/
structure Swapped (channel channel' : Dict D S) (a b : D × S) : Prop where
  mem_left : a ∈ channel.items
  mem_right : b ∈ channel.items
  items : channel'.items = channel.items.map (Equiv.swap a b)
  perm : channel.items.Perm channel'.items

variable {channel channel' : Dict D S} {a b : D × S}

omit [LT S] [DecidableLT S] [IsStrictWeakOrder S (· < ·)] in
theorem swap_mem_items (ha : a ∈ channel.items) (hb : b ∈ channel.items) (entry : D × S) :
    Equiv.swap a b entry ∈ channel.items ↔ entry ∈ channel.items := by
  rw [Equiv.swap_apply_def]
  split
  · rename_i h
    exact iff_of_true hb (h ▸ ha)
  · split
    · rename_i h
      exact iff_of_true ha (h ▸ hb)
    · exact Iff.rfl

omit [LT S] [DecidableLT S] [IsStrictWeakOrder S (· < ·)] in
theorem exists_swapped (ha : a ∈ channel.items) (hb : b ∈ channel.items) :
    ∃ channel', Swapped channel channel' a b := by
  have hnodup : channel.items.Nodup := channel.nodup.of_map
  have hperm : channel.items.Perm (channel.items.map (Equiv.swap a b)) := by
    refine (List.perm_ext_iff_of_nodup hnodup (hnodup.map (Equiv.injective _))).mpr fun entry => ?_
    rw [List.mem_map_of_involutive fun entry => Equiv.congr_fun (Equiv.swap_swap a b) entry]
    exact (swap_mem_items ha hb entry).symm
  exact ⟨⟨_, (hperm.map Prod.fst).nodup_iff.mp channel.nodup⟩, ha, hb, rfl, hperm⟩

/-- If the scores of the two compare alike, they are ranked in each other's place. -/
theorem Swapped.rankedEntries_eq (h : Swapped channel channel' a b) (hab : ¬a.2 < b.2) (hba : ¬b.2 < a.2) :
    rankedEntries channel' = (rankedEntries channel).map (Equiv.swap a b) := by
  have halike : ∀ entry : D × S, ¬entry.2 < (Equiv.swap a b entry).2 ∧ ¬(Equiv.swap a b entry).2 < entry.2 := by
    intro entry
    rw [Equiv.swap_apply_def]
    split
    · rename_i heq
      exact heq ▸ ⟨hab, hba⟩
    · split
      · rename_i heq
        exact heq ▸ ⟨hba, hab⟩
      · exact ⟨irrefl_of (· < ·) entry.2, irrefl_of (· < ·) entry.2⟩
  rw [rankedEntries, h.items]
  exact sortedReverse_map fun x _ y _ => (lt_congr (halike x) (halike y) : x.2 < y.2 ↔ _)

theorem Swapped.share_eq (h : Swapped channel channel' a b) (hab : ¬a.2 < b.2) (hba : ¬b.2 < a.2) (k : Nat) :
    share k channel' a.1 = share k channel b.1 := by
  have hkey : ∀ entry ∈ (rankedEntries channel).zipIdx 1,
      decide ((Equiv.swap a b entry.1).1 = a.1) = decide (entry.1.1 = b.1) := by
    intro entry hentry
    have hmem : entry.1 ∈ channel.items := sortedReverse_perm.mem_iff.mp (List.fst_mem_of_mem_zipIdx hentry)
    rw [decide_eq_decide, eq_of_mem_items ((swap_mem_items h.mem_left h.mem_right _).mpr hmem) h.mem_left,
      eq_of_mem_items hmem h.mem_right, Equiv.swap_apply_eq_iff, Equiv.swap_apply_left]
  rw [share, share, h.rankedEntries_eq hab hba, List.zipIdx_map, List.filter_map, List.map_map]
  refine congrArg List.sum (congrArg _ (List.filter_congr hkey))

end Swap

/-- Fusion depends only on the channels as mappings exactly if no channel has a tie. -/
theorem fusion_reordered_iff (channels : List (Dict D S)) (k : Nat) :
    (∀ channels', Reordered channels channels' → ∀ docid,
      (reciprocalRankFusion channels k).get? docid = (reciprocalRankFusion channels' k).get? docid) ↔
      ∀ channel ∈ channels, Untied channel := by
  classical
  refine ⟨fun h channel hchannel a ha b hb hab hba => ?_, fun h channels' hreordered docid =>
    fused_eq_of_untied hreordered h k docid⟩
  obtain ⟨front, rest, rfl⟩ := List.append_of_mem hchannel
  obtain ⟨channel', hswapped⟩ := exists_swapped ha hb
  have hsame := h (channel' :: (front ++ rest)) ⟨channel :: (front ++ rest), List.perm_middle,
    .cons hswapped.perm (List.forall₂_same.mpr fun _ _ => List.Perm.refl _)⟩ a.1
  have hin : a.1 ∈ channel := Dict.mem_iff.mpr ⟨a.2, ha⟩
  have hin' : a.1 ∈ channel' := Dict.mem_iff.mpr ⟨a.2, hswapped.perm.mem_iff.mp ha⟩
  rw [get?_reciprocalRankFusion, get?_reciprocalRankFusion, if_pos ⟨channel, hchannel, hin⟩,
    if_pos ⟨channel', List.mem_cons_self, hin'⟩, (List.perm_middle.map _).sum_eq, List.map_cons, List.map_cons,
    List.sum_cons, List.sum_cons, Option.some_inj, add_left_inj, hswapped.share_eq hab hba] at hsame
  exact eq_of_share_eq ha hb hsame

def lexical : Dict Nat Int := ⟨[(0, 9), (1, 7)], by decide⟩

def dense : Dict Nat Int := ⟨[(1, 4), (2, 3)], by decide⟩

def denseReordered : Dict Nat Int := ⟨[(2, 3), (1, 4)], by decide⟩

/-- Two channels without ties. -/
theorem fusion_reordered_two :
    (∀ channel ∈ [lexical, dense], Untied channel) ∧
      (reciprocalRankFusion [lexical, dense] 60).get? 1 = (reciprocalRankFusion [denseReordered, lexical] 60).get? 1 := by
  have huntied : ∀ channel ∈ [lexical, dense], Untied channel := by decide
  have hreordered : Reordered [lexical, dense] [denseReordered, lexical] :=
    ⟨[dense, lexical], List.Perm.swap _ _ _, .cons (List.Perm.swap _ _ _) (.cons (List.Perm.refl _) .nil)⟩
  exact ⟨huntied, (fusion_reordered_iff [lexical, dense] 60).mpr huntied _ hreordered 1⟩

/-- Two documents with equal scores change places with the order of insertion. -/
theorem tie_follows_insertion :
    ∃ channel channel' : Dict Nat Int, Reordered [channel] [channel'] ∧
      (reciprocalRankFusion [channel] 60).get? 0 ≠ (reciprocalRankFusion [channel'] 60).get? 0 :=
  ⟨⟨[(0, 1), (1, 1)], by decide⟩, ⟨[(1, 1), (0, 1)], by decide⟩,
    ⟨_, List.Perm.refl _, .cons (List.Perm.swap _ _ _) .nil⟩, by decide +kernel⟩

end CascadeSearch.Dense.Fusion
