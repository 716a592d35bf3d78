import CascadeSearch.Index.PorterRules

/-!
# The stemmer computes Porter's rules

`Spells s w` reads the buffer as a word: what stands past `k` is stale. Each step
takes a buffer that spells `w` to one that spells what the step's rule table makes
of `w`, and never reads or writes outside.
-/
namespace CascadeSearch.Index.Porter

open Format

namespace Stemmer

structure Spells (s : Stemmer) (w : Str) : Prop where
  buffer : w <+: s.b
  last : s.k + 1 = w.length

variable {s : Stemmer} {w stem suffix : Str}

/-- The state after `ends` found a suffix behind `stem`. -/
def cutAt (s : Stemmer) (stem : Str) : Stemmer := { s with j := (stem.length : Int) - 1 }

@[simp] theorem cutAt_b (s : Stemmer) (stem : Str) : (s.cutAt stem).b = s.b := rfl
@[simp] theorem cutAt_k (s : Stemmer) (stem : Str) : (s.cutAt stem).k = s.k := rfl
@[simp] theorem cutAt_j (s : Stemmer) (stem : Str) : (s.cutAt stem).j = (stem.length : Int) - 1 := rfl

theorem Spells.cutAt (h : Spells s w) : Spells (s.cutAt stem) w := ⟨h.buffer, h.last⟩

theorem Spells.k_eq (h : Spells s w) : s.k = (w.length : Int) - 1 := by
  have := h.last
  omega

/-- `consonant` reads the form off the buffer. -/
theorem consonantAt_eq (b : Str) (i : Nat) : consonantAt b i = (form b)[i]? := by
  induction i with
  | zero =>
    cases b with
    | nil => rfl
    | cons c b =>
      simp only [consonantAt, form, formAfter, List.getElem?_cons_zero, Option.map_some]
      revert c
      decide +kernel
  | succ i ih =>
    rw [consonantAt, form, getElem?_formAfter_succ, ← form, ih]
    cases hc : b[i + 1]? with
    | none => rfl
    | some c =>
      have hi : i < (form b).length := by
        have := (List.getElem?_eq_some_iff.mp hc).1
        rw [length_form]
        omega
      rw [List.getElem?_eq_getElem hi, Option.bind_some, Option.bind_some, Option.map_some]
      generalize (form b)[i] = before
      clear hc
      revert c
      cases before <;> decide +kernel

theorem Spells.consonant (h : Spells s w) {i : Int} (h0 : 0 ≤ i) (hi : i < w.length) :
    s.consonant i = (form w)[i.toNat]? := by
  rw [Stemmer.consonant, if_neg (by omega), consonantAt_eq]
  exact (List.prefix_iff_getElem?.mp (prefix_form h.buffer) i.toNat (by rw [length_form]; omega)).trans
    (List.getElem?_eq_getElem _).symm

theorem Spells.read (h : Spells s w) {i : Int} (h0 : 0 ≤ i) (hi : i < w.length) :
    s.read i = (w[i.toNat]?).map (fun c => Char.ofNat c.val) := by
  rw [Stemmer.read, if_neg (by omega), List.getElem?_eq_getElem (by omega : i.toNat < w.length),
    List.prefix_iff_getElem?.mp h.buffer i.toNat (by omega)]

/-- Reads counted from the end of the word. -/
theorem Spells.read_back (h : Spells s w) {n : Nat} (hn : n < w.length) :
    s.read (s.k - n) = w.reverse[n]?.map (fun c => Char.ofNat c.val) := by
  have hk := h.k_eq
  rw [h.read (by omega) (by omega), List.getElem?_reverse hn]
  congr 2
  omega

theorem Spells.consonant_back (h : Spells s w) {n : Nat} (hn : n < w.length) :
    s.consonant (s.k - n) = (form w).reverse[n]? := by
  have hk := h.k_eq
  rw [h.consonant (by omega) (by omega), List.getElem?_reverse (by simpa using hn), length_form]
  congr 1
  omega

theorem measureFrom_eq (b : Str) (left : Nat) (inVowels : Bool) (i n : Nat)
    (h : i + left ≤ b.length) :
    measureFrom b left inVowels i n = some (n + turns inVowels (((form b).drop i).take left)) := by
  induction left generalizing inVowels i n with
  | zero => simp [measureFrom, turns]
  | succ left ih =>
    have hi : i < (form b).length := by
      rw [length_form]
      omega
    rw [measureFrom, consonantAt_eq, List.getElem?_eq_getElem hi, List.drop_eq_getElem_cons hi,
      List.take_succ_cons, turns]
    refine (ih _ _ _ (by omega)).trans ?_
    split <;> simp_all [Nat.add_assoc]

theorem vowelFrom_eq (b : Str) (left i : Nat) (h : i + left ≤ b.length) :
    vowelFrom b left i = some ((((form b).drop i).take left).contains false) := by
  induction left generalizing i with
  | zero => simp [vowelFrom]
  | succ left ih =>
    have hi : i < (form b).length := by
      rw [length_form]
      omega
    rw [vowelFrom, consonantAt_eq, List.getElem?_eq_getElem hi, List.drop_eq_getElem_cons hi,
      List.take_succ_cons]
    cases hc : (form b)[i] with
    | false => simp
    | true => simpa [hc] using ih (i + 1) (by omega)

theorem take_form (h : stem <+: s.b) : (form s.b).take stem.length = form stem := by
  rw [← length_form stem]
  exact (List.prefix_iff_eq_take.mp (prefix_form h)).symm

theorem measure_eq (h : stem <+: s.b) (hj : s.j + 1 = stem.length) :
    s.measure = some (vcCount stem) := by
  rw [measure, hj, Int.toNat_natCast, measureFrom_eq _ _ _ _ _ (by simpa using h.length_le),
    List.drop_zero, take_form h, Nat.zero_add, vcCount]

theorem vowelInStem_eq (h : stem <+: s.b) (hj : s.j + 1 = stem.length) :
    s.vowelInStem = some (containsVowel stem) := by
  rw [vowelInStem, hj, Int.toNat_natCast, vowelFrom_eq _ _ _ (by simpa using h.length_le),
    List.drop_zero, take_form h, containsVowel]

theorem ends_append (h : Spells s (stem ++ suffix)) :
    s.ends suffix = some (true, s.cutAt stem) := by
  obtain ⟨stale, hb⟩ := h.buffer
  have hlen : s.b.length = stem.length + suffix.length + stale.length := by
    rw [← hb, List.length_append, List.length_append]
  have hk := h.last
  rw [List.length_append] at hk
  have hpos : (s.k - suffix.length + 1).toNat = stem.length := by omega
  have hread : (s.b.drop stem.length).take suffix.length = suffix := by
    rw [← hb, List.append_assoc, List.drop_left, List.take_left]
  unfold ends
  dsimp only
  rw [if_neg (by omega), if_neg (by omega), hpos, if_neg (not_not.mpr hread)]
  simp only [cutAt, Option.some.injEq, Prod.mk.injEq, true_and, Stemmer.mk.injEq]
  omega

theorem ends_of_not (h : Spells s w) (hnot : ¬ suffix <:+ w) : s.ends suffix = some (false, s) := by
  obtain ⟨stale, hb⟩ := h.buffer
  have hk := h.last
  unfold ends
  dsimp only
  split
  · rfl
  · rename_i hlen
    have hpos : (s.k - suffix.length + 1).toNat = w.length - suffix.length := by omega
    have hle : suffix.length ≤ w.length := by omega
    have hread : (s.b.drop (w.length - suffix.length)).take suffix.length =
        w.drop (w.length - suffix.length) := by
      rw [← hb, List.drop_append_of_le_length (by omega), List.take_append_of_le_length (by simp; omega)]
      exact List.take_of_length_le (by simp; omega)
    have hbuf : w.length ≤ s.b.length := h.buffer.length_le
    rw [if_neg (by omega), hpos, hread, if_pos]
    intro heq
    exact hnot (heq ▸ List.drop_suffix _ _)

theorem setto_spec (h : stem <+: s.b) (hj : s.j + 1 = stem.length) (x : Str) :
    ∃ s', s.setto x = some s' ∧ Spells s' (stem ++ x) := by
  have hlen := h.length_le
  have hpos : (s.j + 1).toNat = stem.length := by omega
  unfold setto
  dsimp only
  rw [if_neg (by omega), hpos, ← List.prefix_iff_eq_take.mp h]
  refine ⟨_, rfl, List.prefix_rfl, ?_⟩
  rw [List.length_append]
  dsimp only
  omega

theorem setto_cutAt (h : stem <+: s.b) (x : Str) :
    ∃ s', (s.cutAt stem).setto x = some s' ∧ Spells s' (stem ++ x) :=
  setto_spec (s := s.cutAt stem) h (by simp) x

theorem Spells.prefix_stem (h : Spells s (stem ++ suffix)) : stem <+: s.b :=
  (List.prefix_append stem suffix).trans h.buffer

theorem measure_cutAt (h : stem <+: s.b) : (s.cutAt stem).measure = some (vcCount stem) :=
  measure_eq (by simpa using h) (by simp)

/-- `r` fires a rule whose condition is m > 0. -/
theorem r_spec (h : Spells s (stem ++ suffix)) (x : Str) :
    ∃ s', (s.cutAt stem).r x = some s' ∧
      Spells s' (if 0 < vcCount stem then stem ++ x else stem ++ suffix) := by
  simp only [r, measure_cutAt h.prefix_stem, Option.bind_eq_bind, Option.bind_some]
  split
  · exact setto_cutAt h.prefix_stem x
  · exact ⟨_, rfl, h.cutAt⟩

/-- A list of rules, the first that matches being the only one considered. -/
def firstMatch (rules : List Rule) (w : Str) : Str :=
  (rules.find? (fun rule => rule.Matches w)).elim w (fun rule => rule.apply w)

theorem applyRules_eq {rules : List Rule} (h : LongestFirst rules) (w : Str) :
    applyRules rules w = firstMatch rules w := by
  rw [applyRules, longestMatch_eq_find? h, firstMatch]

theorem firstMatch_of_matches {rule : Rule} {rules : List Rule} (h : rule.Matches w) :
    firstMatch (rule :: rules) w = rule.apply w := by
  simp [firstMatch, h]

theorem firstMatch_of_not {suffix replacement : String} {condition : Str → Bool} {andThen : Str → Str}
    {rules : List Rule} (h : ¬ lit suffix <:+ w) :
    firstMatch (⟨suffix, replacement, condition, andThen⟩ :: rules) w = firstMatch rules w := by
  simp [firstMatch, Rule.Matches, h]

theorem replaceFirst_spec (pairs : List (String × String)) (h : Spells s w) :
    ∃ s', s.replaceFirst pairs = some s' ∧
      Spells s' (firstMatch (table (fun stem => 0 < vcCount stem) pairs) w) := by
  induction pairs with
  | nil => exact ⟨s, rfl, h⟩
  | cons pair pairs ih =>
    simp only [replaceFirst, Option.bind_eq_bind]
    rw [table, List.map_cons, ← table]
    by_cases hmatch : lit pair.1 <:+ w
    · obtain ⟨stem, rfl⟩ := hmatch
      obtain ⟨s', hr, hs'⟩ := r_spec h (lit pair.2)
      rw [ends_append h, firstMatch_of_matches (List.suffix_append stem _), Rule.apply_append]
      exact ⟨s', hr, by simpa using hs'⟩
    · rw [ends_of_not h hmatch, firstMatch_of_not hmatch]
      exact ih

theorem endsAny_hit {suffixes : List String} {x : String} (h : Spells s (stem ++ lit x))
    (hfind : suffixes.find? (fun y => lit y <:+ stem ++ lit x) = some x) :
    s.endsAny suffixes = some (true, s.cutAt stem) := by
  induction suffixes with
  | nil => cases hfind
  | cons y suffixes ih =>
    simp only [endsAny, Option.bind_eq_bind]
    by_cases hmatch : lit y <:+ stem ++ lit x
    · obtain rfl : y = x := by simpa [hmatch] using hfind
      rw [ends_append h]
      rfl
    · rw [ends_of_not h hmatch]
      exact ih (by simpa [hmatch] using hfind)

theorem endsAny_miss {suffixes : List String} (h : Spells s w)
    (hfind : suffixes.find? (fun y => lit y <:+ w) = none) :
    s.endsAny suffixes = some (false, s) := by
  induction suffixes with
  | nil => rfl
  | cons y suffixes ih =>
    rw [List.find?_eq_none] at hfind
    have hmatch : ¬ lit y <:+ w := by simpa using hfind y List.mem_cons_self
    simp only [endsAny, Option.bind_eq_bind]
    rw [ends_of_not h hmatch]
    exact ih (List.find?_eq_none.mpr fun z hz => hfind z (List.mem_cons_of_mem _ hz))

theorem ofNat_val_inj {a c : Byte} : Char.ofNat a.val = Char.ofNat c.val ↔ a = c := by
  refine ⟨fun h => ?_, fun h => h ▸ rfl⟩
  have hval : ∀ x : Byte, (Char.ofNat x.val).toNat = x.val := by decide +kernel
  exact Fin.ext (by rw [← hval a, ← hval c, h])

theorem Spells.read_last {u : Str} {c : Byte} (h : Spells s (u ++ [c])) :
    s.read s.k = some (Char.ofNat c.val) := by
  simpa using h.read_back (n := 0) (by simp)

theorem Spells.read_before {u : Str} {a c : Byte} (h : Spells s (u ++ [a] ++ [c])) :
    s.read (s.k - 1) = some (Char.ofNat a.val) := by
  simpa using h.read_back (n := 1) (by simp)

theorem suffix_singleton_iff {x : Bool} {f : List Bool} : [x] <:+ f ↔ f.getLast? = some x := by
  rw [List.getLast?_eq_some_iff]
  exact ⟨fun ⟨g, hg⟩ => ⟨g, hg.symm⟩, fun ⟨g, hg⟩ => ⟨g, hg.symm⟩⟩

theorem Spells.consonant_last (h : Spells s w) (hw : w ≠ []) :
    s.consonant s.k = some (decide ([true] <:+ form w)) := by
  have hlen : 0 < w.length := List.length_pos_iff.mpr hw
  have hread := h.consonant_back hlen
  rw [Int.natCast_zero, sub_zero, ← List.head?_eq_getElem?, List.head?_reverse] at hread
  have hform : form w ≠ [] := by
    rw [← List.length_pos_iff, length_form]
    exact hlen
  rw [hread, List.getLast?_eq_some_getLast hform]
  simp only [suffix_singleton_iff, List.getLast?_eq_some_getLast hform, Option.some.injEq,
    Bool.decide_eq_true]

theorem doubleConsonant_eq (h : Spells s w) (hw : w ≠ []) :
    s.doubleConsonant s.k = some (doubledConsonant w) := by
  obtain ⟨v, c, rfl⟩ := (List.eq_nil_or_concat' w).resolve_left hw
  rcases List.eq_nil_or_concat' v with rfl | ⟨u, a, rfl⟩
  · simp [doubleConsonant, doubledConsonant, endsTwice, h.k_eq]
  · have hk : ¬ s.k < 1 := by
      rw [h.k_eq]
      simp
      omega
    have htwice : endsTwice (u ++ [a] ++ [c]) = (c == a) := by simp [endsTwice]
    simp only [doubleConsonant, if_neg hk, h.read_last, h.read_before, Option.bind_eq_bind,
      Option.bind_some, ne_eq, ofNat_val_inj, h.consonant_last hw, doubledConsonant, htwice]
    by_cases hca : c = a <;> simp [hca]

theorem ofNat_eq_iff (letter : Char) (hletter : letter.toNat < 256) (c : Byte) :
    Char.ofNat c.val = letter ↔ c ∈ [Fin.ofNat 256 letter.toNat] := by
  have hval : (Fin.ofNat 256 letter.toNat : Byte).val = letter.toNat := Nat.mod_eq_of_lt hletter
  rw [List.mem_singleton, ← ofNat_val_inj, hval, Char.ofNat_toNat]

theorem cvc_eq (h : Spells s w) (hw : w ≠ []) : s.cvc s.k = some (endsCvc w) := by
  obtain ⟨v, c, rfl⟩ := (List.eq_nil_or_concat' w).resolve_left hw
  have hread := fun n (hn : n < (v ++ [c]).length) => h.consonant_back hn
  have hsuffix : [true, false, true] <:+ form (v ++ [c]) ↔
      [true, false, true] <+: (form (v ++ [c])).reverse := by
    rw [← List.reverse_prefix]
    rfl
  have hlen : (form (v ++ [c])).reverse.length = (v ++ [c]).length := by simp
  have hk := h.k_eq
  have hletters : Char.ofNat c.val = 'w' ∨ Char.ofNat c.val = 'x' ∨ Char.ofNat c.val = 'y' ↔
      c ∈ lit "wxy" := by
    rw [ofNat_eq_iff 'w' (by decide), ofNat_eq_iff 'x' (by decide), ofNat_eq_iff 'y' (by decide)]
    simp [lit]
  rw [endsCvc, endsIn_concat]
  simp only [hsuffix]
  generalize (form (v ++ [c])).reverse = f at hread hlen
  by_cases hshort : f.length < 3
  · have hprefix : ¬ [true, false, true] <+: f := fun hprefix => by
      have := hprefix.length_le
      simp at this
      omega
    simp [cvc, hprefix, show s.k < 2 by omega]
  · obtain ⟨x, y, z, f, rfl⟩ : ∃ x y z g, f = x :: y :: z :: g := by
      rcases f with _ | ⟨x, _ | ⟨y, _ | ⟨z, f⟩⟩⟩
      all_goals first
        | exact ⟨_, _, _, _, rfl⟩
        | simp at hshort
    rw [← hlen] at hk hread
    have hlong : ¬ s.k < 2 := by
      simp at hk
      omega
    have h0 := hread 0 (by simp)
    have h1 := hread 1 (by simp)
    have h2 := hread 2 (by simp)
    simp only [Nat.cast_zero, sub_zero, Nat.cast_one, Nat.cast_ofNat, List.getElem?_cons_zero,
      List.getElem?_cons_succ] at h0 h1 h2
    simp only [cvc, if_neg hlong, h0, h1, h2, h.read_last, Option.bind_eq_bind, Option.bind_some, hletters]
    cases x <;> cases y <;> cases z <;> simp

/-- The `n`th letter of a suffix from its end. -/
def key (n : Nat) (x : String) : Option Char := (lit x).reverse[n]?.map (fun c => Char.ofNat c.val)

theorem Spells.read_of_suffix (h : Spells s w) {x : String} {n : Nat} {c : Char}
    (hx : lit x <:+ w) (hkey : key n x = some c) : s.read (s.k - n) = some c := by
  obtain ⟨byte, hbyte, rfl⟩ := Option.map_eq_some_iff.mp hkey
  have hn : n < (lit x).length := by
    have := (List.getElem?_eq_some_iff.mp hbyte).1
    rwa [List.length_reverse] at this
  have hw : w.reverse[n]? = some byte := by
    obtain ⟨g, hg⟩ := List.reverse_prefix.mpr hx
    rw [← hg, List.getElem?_append_left (by simpa using hn), hbyte]
  rw [h.read_back (hn.trans_le hx.length_le), hw]
  rfl

theorem firstMatch_of_none {rules : List Rule} (h : ∀ rule ∈ rules, ¬ lit rule.suffix <:+ w) :
    firstMatch rules w = w := by
  have hnone : rules.find? (fun rule => rule.Matches w) = none :=
    List.find?_eq_none.mpr fun rule hmem => decide_eq_true_iff.not.mpr (h rule hmem)
  rw [firstMatch, hnone]
  rfl

/-- Only the rules of one group can match. -/
theorem firstMatch_group (h : Spells s w) {n : Nat} {ch : Char} (hread : s.read (s.k - n) = some ch)
    {rules : List Rule} (hkeys : ∀ rule ∈ rules, (key n rule.suffix).isSome) :
    firstMatch rules w = firstMatch (rules.filter (fun rule => key n rule.suffix = some ch)) w := by
  rw [firstMatch, firstMatch, List.find?_filter]
  congr 1
  refine List.find?_congr fun rule hmem => ?_
  by_cases hmatch : rule.Matches w
  · obtain ⟨letter, hletter⟩ := Option.isSome_iff_exists.mp (hkeys rule hmem)
    have hsame := h.read_of_suffix hmatch hletter
    rw [hread] at hsame
    simp [hmatch, hletter, Option.some.inj hsame]
  · simp [hmatch]

/-- A letter that no suffix has in this place. -/
theorem firstMatch_default (h : Spells s w) {n : Nat} {ch : Char} (hread : s.read (s.k - n) = some ch)
    {rules : List Rule} (letters : List Char)
    (hkeys : ∀ rule ∈ rules, key n rule.suffix ∈ letters.map some) (hch : ch ∉ letters) :
    firstMatch rules w = w := by
  refine firstMatch_of_none fun rule hmem hmatch => hch ?_
  obtain ⟨letter, hletters, hletter⟩ := List.mem_map.mp (hkeys rule hmem)
  have hsame := h.read_of_suffix hmatch hletter.symm
  rw [hread] at hsame
  exact Option.some.inj hsame ▸ hletters

theorem Spells.dropRight (suffix : Str) (h : Spells s (w ++ suffix)) :
    Spells { s with k := s.k - suffix.length } w := by
  refine ⟨(List.prefix_append w suffix).trans h.buffer, ?_⟩
  have := h.last
  rw [List.length_append] at this
  dsimp only
  omega

theorem plurals_spec (h : Spells s w) (hlen : 2 ≤ w.length) :
    ∃ s', s.plurals = some s' ∧ Spells s' (applyRules rules1a w) := by
  rw [applyRules_eq (by decide)]
  obtain ⟨v, c, rfl⟩ := (List.eq_nil_or_concat' w).resolve_left (by rintro rfl; simp at hlen)
  obtain ⟨u, a, rfl⟩ := (List.eq_nil_or_concat' v).resolve_left (by rintro rfl; simp at hlen)
  simp only [plurals, h.read_last, Option.bind_eq_bind, Option.bind_some]
  by_cases hc : Char.ofNat c.val = 's'
  · rw [if_pos hc]
    simp only [rules1a, table, List.map_cons, List.map_nil]
    by_cases hsses : lit "sses" <:+ u ++ [a] ++ [c]
    · obtain ⟨stem, hw⟩ := hsses
      rw [← hw] at h ⊢
      rw [ends_append h, firstMatch_of_matches (List.suffix_append stem _), Rule.apply_append]
      exact ⟨_, rfl, Spells.dropRight (lit "es") (by simpa [lit] using h.cutAt)⟩
    rw [ends_of_not h hsses, firstMatch_of_not hsses]
    simp only [Option.bind_some, Bool.false_eq_true, if_false]
    by_cases hies : lit "ies" <:+ u ++ [a] ++ [c]
    · obtain ⟨stem, hw⟩ := hies
      rw [← hw] at h ⊢
      rw [ends_append h, firstMatch_of_matches (List.suffix_append stem _), Rule.apply_append]
      exact setto_cutAt h.prefix_stem _
    rw [ends_of_not h hies, firstMatch_of_not hies]
    simp only [Option.bind_some, Bool.false_eq_true, if_false, h.read_before]
    obtain rfl : c = 115 := by simpa using (ofNat_eq_iff 's' (by decide) c).mp hc
    by_cases ha : Char.ofNat a.val = 's'
    · obtain rfl : a = 115 := by simpa using (ofNat_eq_iff 's' (by decide) a).mp ha
      have hss : u ++ [115] ++ [115] = u ++ lit "ss" := by simp [lit]
      rw [if_neg (not_not.mpr ha), hss, firstMatch_of_matches (List.suffix_append u _),
        Rule.apply_append]
      exact ⟨s, rfl, hss ▸ h⟩
    · have hnot : ¬ lit "ss" <:+ u ++ [a] ++ [115] := fun hmatch => by
        have := h.read_of_suffix (n := 1) hmatch (c := 's') (by decide)
        rw [Nat.cast_one, h.read_before] at this
        exact ha (Option.some.inj this)
      have hs : u ++ [a] ++ [115] = u ++ [a] ++ lit "s" := rfl
      rw [if_pos ha, firstMatch_of_not hnot, hs,
        firstMatch_of_matches (List.suffix_append (u ++ [a]) _), Rule.apply_append]
      exact ⟨_, rfl, Spells.dropRight (lit "s") (by simpa [lit] using h)⟩
  · rw [if_neg hc, firstMatch_default h (n := 0) (by simpa using h.read_last) ['s'] (by decide)
      (by simpa using hc)]
    exact ⟨s, rfl, h⟩

theorem repaired_of_matches {d : Str → Bool} (h : ∃ rule ∈ repairRules, rule.Matches w) :
    repaired d w = firstMatch repairRules w := by
  have hfirst : LongestFirst repairRules := by decide
  obtain ⟨rule, hmem, hmatch⟩ := h
  rw [repaired, if_pos, applyRules_eq hfirst]
  rw [longestMatch_eq_find? hfirst, List.find?_isSome]
  exact ⟨rule, hmem, decide_eq_true hmatch⟩

theorem repaired_of_none {d : Str → Bool} (h : ∀ rule ∈ repairRules, ¬ lit rule.suffix <:+ w) :
    repaired d w =
      if d w && !endsIn "lsz" w then w.dropLast
      else if vcCount w = 1 && endsCvc w then w ++ lit "e"
      else w := by
  rw [repaired, if_neg]
  rw [longestMatch_eq_find? (by decide), List.find?_isSome]
  rintro ⟨rule, hmem, hmatch⟩
  exact h rule hmem (of_decide_eq_true hmatch)

/-- What is left of a double letter, unless it is `l`, `s` or `z`. -/
theorem undouble_spec {u : Str} {c : Byte} (h : Spells s (u ++ [c] ++ [c])) :
    ∃ s', ((Stemmer.read { s with k := s.k - 1 } (s.k - 1)).bind fun ch =>
        if ch = 'l' ∨ ch = 's' ∨ ch = 'z' then some { s with k := s.k - 1 + 1 }
        else some { s with k := s.k - 1 }) = some s' ∧
      Spells s' (if c ∈ lit "lsz" then u ++ [c] ++ [c] else u ++ [c]) := by
  have hshort : Spells { s with k := s.k - 1 } (u ++ [c]) := Spells.dropRight [c] h
  have hletters : Char.ofNat c.val = 'l' ∨ Char.ofNat c.val = 's' ∨ Char.ofNat c.val = 'z' ↔
      c ∈ lit "lsz" := by
    rw [ofNat_eq_iff 'l' (by decide), ofNat_eq_iff 's' (by decide), ofNat_eq_iff 'z' (by decide)]
    simp [lit]
  have hread : Stemmer.read { s with k := s.k - 1 } (s.k - 1) = some (Char.ofNat c.val) := hshort.read_last
  rw [hread, Option.bind_some]
  simp only [hletters]
  split
  · exact ⟨_, rfl, h.buffer, by have := h.last; dsimp only; omega⟩
  · exact ⟨_, rfl, hshort⟩

theorem repair_spec (hb : w <+: s.b) (hj : s.j + 1 = w.length) (hw : w ≠ []) :
    ∃ s', s.repair = some s' ∧ Spells s' (repaired doubledConsonant w) := by
  have h : Spells { s with k := s.j } w := ⟨hb, hj⟩
  simp only [repair, Option.bind_eq_bind]
  by_cases hat : lit "at" <:+ w
  · obtain ⟨stem, rfl⟩ := hat
    rw [ends_append h, repaired_of_matches ⟨_, List.mem_cons_self, List.suffix_append stem _⟩]
    simp only [repairRules, table, List.map_cons, List.map_nil]
    rw [firstMatch_of_matches (List.suffix_append stem _), Rule.apply_append]
    exact setto_cutAt h.prefix_stem _
  by_cases hbl : lit "bl" <:+ w
  · obtain ⟨stem, rfl⟩ := hbl
    rw [ends_of_not h hat, repaired_of_matches
      ⟨_, List.mem_cons_of_mem _ List.mem_cons_self, List.suffix_append stem _⟩]
    simp only [repairRules, table, List.map_cons, List.map_nil, Option.bind_some, Bool.false_eq_true, if_false]
    rw [ends_append h, firstMatch_of_not hat, firstMatch_of_matches (List.suffix_append stem _),
      Rule.apply_append]
    exact setto_cutAt h.prefix_stem _
  rw [ends_of_not h hat]
  simp only [Option.bind_some, Bool.false_eq_true, if_false]
  rw [ends_of_not h hbl]
  simp only [Option.bind_some, Bool.false_eq_true, if_false]
  by_cases hiz : lit "iz" <:+ w
  · obtain ⟨stem, rfl⟩ := hiz
    rw [ends_append h, repaired_of_matches
      ⟨_, List.mem_cons_of_mem _ (List.mem_cons_of_mem _ List.mem_cons_self), List.suffix_append stem _⟩]
    simp only [repairRules, table, List.map_cons, List.map_nil]
    rw [firstMatch_of_not hat, firstMatch_of_not hbl, firstMatch_of_matches (List.suffix_append stem _),
      Rule.apply_append]
    exact setto_cutAt h.prefix_stem _
  rw [ends_of_not h hiz, repaired_of_none (by simp [repairRules, table, hat, hbl, hiz])]
  simp only [Option.bind_some, Bool.false_eq_true, if_false]
  rw [doubleConsonant_eq h hw]
  cases hd : doubledConsonant w with
  | true =>
    obtain ⟨u, c, rfl⟩ := exists_of_endsTwice (Bool.and_eq_true_iff.mp hd).1
    obtain ⟨s', hs', hspells⟩ := undouble_spec h
    refine ⟨s', hs', ?_⟩
    rw [endsIn_concat, not_endsCvc_twice, List.dropLast_concat]
    by_cases hc : c ∈ lit "lsz"
    · simpa [hc] using hspells
    · simpa [hc] using hspells
  | false =>
    have hm : Stemmer.measure { s with k := s.j } = some (vcCount w) := measure_eq hb hj
    simp only [Option.bind_some, Bool.false_eq_true, if_false, hm, Bool.false_and]
    by_cases hone : vcCount w = 1
    · rw [if_pos hone, cvc_eq h hw, Option.bind_some]
      cases hcvc : endsCvc w with
      | true =>
        simpa [hone] using setto_spec (s := { s with k := s.j }) hb hj (lit "e")
      | false => exact ⟨_, rfl, by simpa [hone] using h⟩
    · exact ⟨_, if_neg hone, by simpa [hone] using h⟩

/-- A rule that removes `suffix` where the stem has a vowel, and repairs what is left. -/
theorem removed_spec (h : Spells s (stem ++ suffix)) :
    ∃ s', ((s.cutAt stem).vowelInStem.bind fun found =>
        if found then (s.cutAt stem).repair else some (s.cutAt stem)) = some s' ∧
      Spells s' (if containsVowel stem then repaired doubledConsonant stem else stem ++ suffix) := by
  rw [vowelInStem_eq (s := s.cutAt stem) h.prefix_stem (by simp), Option.bind_some]
  cases hv : containsVowel stem with
  | true => exact repair_spec (s := s.cutAt stem) h.prefix_stem (by simp) (ne_nil_of_containsVowel hv)
  | false => exact ⟨_, rfl, h.cutAt⟩

theorem step1ab_spec (h : Spells s w) (hlen : 2 ≤ w.length) :
    ∃ s', s.step1ab = some s' ∧
      Spells s' (applyRules (rules1b doubledConsonant) (applyRules rules1a w)) := by
  obtain ⟨t, hplurals, ht⟩ := plurals_spec h hlen
  have hfirst : LongestFirst (rules1b doubledConsonant) := by decide
  rw [applyRules_eq hfirst]
  generalize applyRules rules1a w = v at ht
  simp only [step1ab, hplurals, Option.bind_eq_bind, Option.bind_some, rules1b]
  by_cases heed : lit "eed" <:+ v
  · obtain ⟨stem, rfl⟩ := heed
    rw [ends_append ht, firstMatch_of_matches (List.suffix_append stem _), Rule.apply_append]
    simp only [Option.bind_some, if_true, measure_cutAt ht.prefix_stem, decide_eq_true_eq]
    split
    · exact ⟨_, rfl, Spells.dropRight (lit "d") (by simpa [lit] using ht.cutAt)⟩
    · exact ⟨_, rfl, ht.cutAt⟩
  rw [ends_of_not ht heed, firstMatch_of_not heed]
  simp only [Option.bind_some, Bool.false_eq_true, if_false]
  by_cases hed : lit "ed" <:+ v
  · obtain ⟨stem, rfl⟩ := hed
    rw [endsAny_hit ht (by simp), firstMatch_of_matches (List.suffix_append stem _), Rule.apply_append]
    simpa [lit] using removed_spec ht
  by_cases hing : lit "ing" <:+ v
  · obtain ⟨stem, rfl⟩ := hing
    rw [endsAny_hit ht (by simp [hed]), firstMatch_of_not hed,
      firstMatch_of_matches (List.suffix_append stem _), Rule.apply_append]
    simpa [lit] using removed_spec ht
  rw [endsAny_miss ht (by simp [hed, hing]), firstMatch_of_not hed, firstMatch_of_not hing]
  exact ⟨t, rfl, ht⟩

theorem step1c_spec (h : Spells s w) :
    ∃ s', s.step1c = some s' ∧ Spells s' (applyRules rules1c w) := by
  rw [applyRules_eq (by decide)]
  simp only [step1c, Option.bind_eq_bind, rules1c, table, List.map_cons, List.map_nil]
  by_cases hy : lit "y" <:+ w
  · obtain ⟨stem, rfl⟩ := hy
    rw [ends_append h, firstMatch_of_matches (List.suffix_append stem _), Rule.apply_append]
    simp only [Option.bind_some, if_true, vowelInStem_eq (s := s.cutAt stem) h.prefix_stem (by simp)]
    cases hv : containsVowel stem with
    | true =>
      obtain ⟨stale, hb⟩ := h.buffer
      have hk := h.k_eq
      have hlen := h.buffer.length_le
      have hy : (lit "y").length = 1 := rfl
      rw [List.length_append, hy] at hk hlen
      have hset : s.b.set (s.cutAt stem).k.toNat (Fin.ofNat 256 'i'.toNat) = stem ++ lit "i" ++ stale := by
        rw [cutAt_k, ← hb, show s.k.toNat = stem.length by omega, List.append_assoc]
        simp [lit]
      simp only [if_true]
      rw [if_neg (by rw [cutAt_k, cutAt_b]; omega)]
      refine ⟨_, rfl, ⟨stale, hset.symm⟩, ?_⟩
      change s.k + 1 = ((stem ++ lit "i").length : Int)
      rw [List.length_append, show (lit "i").length = 1 from rfl]
      omega
    | false => exact ⟨_, rfl, h.cutAt⟩
  · rw [ends_of_not h hy, firstMatch_of_not hy]
    exact ⟨s, rfl, h⟩

/-- The branch of a `switch` on a letter of the suffix. -/
theorem dispatch_spec (h : Spells s w) {n : Nat} {ch : Char} (hread : s.read (s.k - n) = some ch)
    {pairs group : List (String × String)} (hkeys : ∀ pair ∈ pairs, (key n pair.1).isSome)
    (hgroup : pairs.filter (fun pair => key n pair.1 = some ch) = group) :
    ∃ s', s.replaceFirst group = some s' ∧
      Spells s' (firstMatch (table (fun stem => 0 < vcCount stem) pairs) w) := by
  have hrules : ∀ rule ∈ table (fun stem => 0 < vcCount stem) pairs, (key n rule.suffix).isSome := by
    intro rule hmem
    obtain ⟨pair, hpair, rfl⟩ := List.mem_map.mp hmem
    exact hkeys pair hpair
  have hfilter : (table (fun stem => 0 < vcCount stem) pairs).filter
      (fun rule => key n rule.suffix = some ch) = table (fun stem => 0 < vcCount stem) group := by
    rw [← hgroup, table, List.filter_map]
    rfl
  rw [firstMatch_group h hread hrules, hfilter]
  exact replaceFirst_spec group h

theorem firstMatch_of_short {rules : List Rule} (h : ∀ rule ∈ rules, w.length < (lit rule.suffix).length) :
    firstMatch rules w = w :=
  firstMatch_of_none fun rule hmem hmatch => absurd hmatch.length_le (not_le.mpr (h rule hmem))

theorem step2_spec (h : Spells s w) (hw : w ≠ []) :
    ∃ s', s.step2 = some s' ∧ Spells s' (applyRules rules2 w) := by
  rw [applyRules_eq (by decide)]
  obtain ⟨v, c, rfl⟩ := (List.eq_nil_or_concat' w).resolve_left hw
  rcases List.eq_nil_or_concat' v with rfl | ⟨u, a, rfl⟩
  · have hlong : ∀ rule ∈ rules2, 1 < (lit rule.suffix).length := by decide
    rw [step2, if_pos (by simp [h.k_eq]), firstMatch_of_short hlong]
    exact ⟨s, rfl, h⟩
  · have hread := h.read_before
    rw [step2, if_neg (by rw [h.k_eq]; simp; omega), hread, Option.bind_some]
    rw [← Nat.cast_one] at hread
    generalize Char.ofNat a.val = ch at hread
    split
    case h_9 =>
      rw [firstMatch_default h hread ['a', 'c', 'e', 'l', 'o', 's', 't', 'g'] (by decide)
        (by simp only [List.mem_cons, List.not_mem_nil]; tauto)]
      exact ⟨s, rfl, h⟩
    all_goals exact dispatch_spec h hread (by decide) (by decide)

theorem step3_spec (h : Spells s w) (hw : w ≠ []) :
    ∃ s', s.step3 = some s' ∧ Spells s' (applyRules rules3 w) := by
  rw [applyRules_eq (by decide)]
  obtain ⟨v, c, rfl⟩ := (List.eq_nil_or_concat' w).resolve_left hw
  have hread := h.read_last
  rw [step3, hread, Option.bind_some]
  replace hread : s.read (s.k - (0 : Nat)) = some (Char.ofNat c.val) := by simpa using hread
  generalize Char.ofNat c.val = ch at hread
  split
  case h_5 =>
    rw [firstMatch_default h hread ['e', 'i', 'l', 's'] (by decide)
        (by simp only [List.mem_cons, List.not_mem_nil]; tauto)]
    exact ⟨s, rfl, h⟩
  all_goals exact dispatch_spec h hread (by decide) (by decide)

theorem apply_rule4 (x : String) (stem : Str) :
    (rule4 x).apply (stem ++ lit x) =
      if 1 < vcCount stem && (x != "ion" || endsIn "st" stem) then stem else stem ++ lit x := by
  rw [show lit x = lit (rule4 x).suffix from rfl, Rule.apply_append]
  simp [rule4, lit]

theorem firstMatch_rules4 (h : Spells s w) {ch : Char} (hread : s.read (s.k - (1 : Nat)) = some ch)
    {group : List String} (hgroup : suffixes4.filter (fun x => key 1 x = some ch) = group) :
    firstMatch rules4 w =
      (group.find? (fun x => lit x <:+ w)).elim w (fun x => (rule4 x).apply w) := by
  have hkeys : ∀ rule ∈ rules4, (key 1 rule.suffix).isSome := by decide
  have hfilter : rules4.filter (fun rule => key 1 rule.suffix = some ch) = group.map rule4 := by
    rw [← hgroup, rules4, List.filter_map]
    rfl
  rw [firstMatch_group h hread hkeys, hfilter, firstMatch, List.find?_map]
  change ((group.find? fun x => lit x <:+ w).map rule4).elim w _ = _
  cases group.find? (fun x => lit x <:+ w) <;> rfl

/-- What the suffixes of step 4 leave, for a word of at least two letters. -/
def Removes (s : Stemmer) (w : Str) (found : Bool × Stemmer) : Prop :=
  (found.1 = true → ∃ stem x, w = stem ++ lit x ∧ found.2 = s.cutAt stem ∧
    firstMatch rules4 w = if 1 < vcCount stem then stem else w) ∧
  (found.1 = false → Spells found.2 w ∧ firstMatch rules4 w = w)

theorem endsAny_removes (h : Spells s w) {group : List String} (hion : "ion" ∉ group)
    (hfirst : firstMatch rules4 w =
      (group.find? (fun x => lit x <:+ w)).elim w (fun x => (rule4 x).apply w)) :
    ∃ found, s.endsAny group = some found ∧ Removes s w found := by
  cases hfind : group.find? (fun x => lit x <:+ w) with
  | none =>
    rw [hfind] at hfirst
    exact ⟨_, endsAny_miss h hfind, by simp, fun _ => ⟨h, hfirst⟩⟩
  | some x =>
    have hmatch := List.find?_some hfind
    obtain ⟨stem, rfl⟩ : lit x <:+ w := by simpa using hmatch
    have hx : x ≠ "ion" := fun heq => hion (heq ▸ List.mem_of_find?_eq_some hfind)
    rw [hfind] at hfirst
    refine ⟨_, endsAny_hit h hfind, fun _ => ⟨stem, x, rfl, rfl, ?_⟩, by simp⟩
    rw [hfirst]
    simpa [hx] using apply_rule4 x stem

theorem endsIonOu_removes (h : Spells s w) (hread : s.read (s.k - (1 : Nat)) = some 'o') :
    ∃ found, s.endsIonOu = some found ∧ Removes s w found := by
  have hgroup : suffixes4.filter (fun x => key 1 x = some 'o') = ["ion", "ou"] := by decide
  have hfirst := firstMatch_rules4 h hread hgroup
  simp only [endsIonOu, Option.bind_eq_bind]
  by_cases hion : lit "ion" <:+ w
  · obtain ⟨stem, rfl⟩ := hion
    have hou : ¬ lit "ou" <:+ stem ++ lit "ion" := fun hmatch => by
      have hn := h.read_of_suffix (n := 0) (List.suffix_append stem _) (c := 'n') (by decide)
      rw [h.read_of_suffix (n := 0) hmatch (c := 'u') (by decide)] at hn
      exact absurd hn (by decide)
    have hmiss : (s.cutAt stem).endsAny ["ou"] = some (false, s.cutAt stem) :=
      endsAny_miss h.cutAt (by simp [hou])
    have happly : firstMatch rules4 (stem ++ lit "ion") =
        if 1 < vcCount stem && endsIn "st" stem then stem else stem ++ lit "ion" := by
      rw [hfirst]
      simpa using apply_rule4 "ion" stem
    rw [ends_append h, Option.bind_some]
    dsimp only
    rcases List.eq_nil_or_concat' stem with rfl | ⟨v, d, rfl⟩
    · rw [if_neg (by simp), hmiss]
      exact ⟨_, rfl, by simp, fun _ => ⟨h.cutAt, happly⟩⟩
    · have hletters : Char.ofNat d.val = 's' ∨ Char.ofNat d.val = 't' ↔ d ∈ lit "st" := by
        rw [ofNat_eq_iff 's' (by decide), ofNat_eq_iff 't' (by decide)]
        simp [lit]
      have hj : (s.cutAt (v ++ [d])).read (s.cutAt (v ++ [d])).j = some (Char.ofNat d.val) := by
        rw [h.cutAt.read (by simp) (by simp)]
        simp
      rw [if_pos (by simp), hj, Option.bind_some]
      simp only [hletters]
      rw [endsIn_concat] at happly
      by_cases hd : d ∈ lit "st"
      · rw [if_pos hd]
        exact ⟨_, rfl, fun _ => ⟨_, "ion", rfl, rfl, by simpa [hd] using happly⟩, by simp⟩
      · rw [if_neg hd, hmiss]
        exact ⟨_, rfl, by simp, fun _ => ⟨h.cutAt, by simpa [hd] using happly⟩⟩
  · rw [ends_of_not h hion]
    exact endsAny_removes h (by decide) (by simpa [hion] using hfirst)

theorem step4_spec (h : Spells s w) (hw : w ≠ []) :
    ∃ s', s.step4 = some s' ∧ Spells s' (applyRules rules4 w) := by
  rw [applyRules_eq (by decide)]
  obtain ⟨v, c, rfl⟩ := (List.eq_nil_or_concat' w).resolve_left hw
  rcases List.eq_nil_or_concat' v with rfl | ⟨u, a, rfl⟩
  · have hlong : ∀ rule ∈ rules4, 1 < (lit rule.suffix).length := by decide
    rw [step4, if_pos (by simp [h.k_eq]), firstMatch_of_short hlong]
    exact ⟨s, rfl, h⟩
  · have hread := h.read_before
    have hsuffix : ∃ found, s.step4Suffix = some found ∧ Removes s (u ++ [a] ++ [c]) found := by
      rw [step4Suffix, hread, Option.bind_some]
      rw [← Nat.cast_one] at hread
      generalize Char.ofNat a.val = ch at hread
      split
      case h_7 => exact endsIonOu_removes h hread
      case h_13 =>
        have hnone : firstMatch rules4 (u ++ [a] ++ [c]) = u ++ [a] ++ [c] :=
          firstMatch_default h hread ['a', 'c', 'e', 'i', 'l', 'n', 'o', 's', 't', 'u', 'v', 'z'] (by decide)
            (by simp only [List.mem_cons, List.not_mem_nil]; tauto)
        exact ⟨_, rfl, by simp, fun _ => ⟨h, hnone⟩⟩
      all_goals exact endsAny_removes h (by decide) (firstMatch_rules4 h hread (by decide))
    obtain ⟨⟨hit, t⟩, hstep, hhit, hmiss⟩ := hsuffix
    rw [step4, if_neg (by rw [h.k_eq]; simp; omega)]
    simp only [hstep, Option.bind_eq_bind, Option.bind_some]
    cases hit with
    | true =>
      obtain ⟨stem, x, hw, rfl, hfirst⟩ := hhit rfl
      rw [hfirst]
      rw [hw] at h ⊢
      simp only [if_true, measure_cutAt h.prefix_stem, Option.bind_some]
      split
      · exact ⟨_, rfl, h.prefix_stem, by simp⟩
      · exact ⟨_, rfl, h.cutAt⟩
    | false =>
      obtain ⟨ht, hfirst⟩ := hmiss rfl
      rw [hfirst]
      exact ⟨t, rfl, ht⟩

theorem vcCount_concat_e (v : Str) : vcCount (v ++ lit "e") = vcCount v := by
  have hvowel : ∀ p : Bool, isConsonant p (Fin.ofNat 256 'e'.toNat) = false := by decide
  rw [show lit "e" = [Fin.ofNat 256 'e'.toNat] from rfl, vcCount, form_concat, hvowel,
    turns_concat_vowel, vcCount]

/-- `j` stays where the word ended, behind a removed `e`, which the measure does not see. -/
theorem terminalE_spec (h : Spells s w) (hw : w ≠ []) :
    ∃ t, terminalE { s with j := s.k } = some t ∧ t.measure = some (vcCount (applyRules rules5a w)) ∧
      Spells t (applyRules rules5a w) ∧ applyRules rules5a w ≠ [] := by
  rw [applyRules_eq (by decide)]
  obtain ⟨v, c, rfl⟩ := (List.eq_nil_or_concat' w).resolve_left hw
  have hspells : Spells { s with j := s.k } (v ++ [c]) := ⟨h.buffer, h.last⟩
  have hmeasure : Stemmer.measure { s with j := s.k } = some (vcCount (v ++ [c])) :=
    measure_eq h.buffer h.last
  have hread : Stemmer.read { s with j := s.k } s.k = some (Char.ofNat c.val) := hspells.read_last
  simp only [terminalE, hread, hmeasure, Option.bind_eq_bind, Option.bind_some]
  by_cases hc : Char.ofNat c.val = 'e'
  · obtain rfl : c = 101 := by simpa using (ofNat_eq_iff 'e' (by decide) c).mp hc
    have he : v ++ [101] = v ++ lit "e" := rfl
    have hfire : firstMatch rules5a (v ++ lit "e") =
        if 1 < vcCount v ∨ (vcCount v = 1 ∧ endsCvc v = false) then v else v ++ lit "e" := by
      have hcond := Rule.apply_append
        { suffix := "e", replacement := "",
          condition := fun stem => 1 < vcCount stem || (vcCount stem = 1 && !endsCvc stem) } v
      simp only [rules5a, table, List.map_cons, List.map_nil]
      rw [firstMatch_of_matches (List.suffix_append v _), hcond]
      simp [lit]
    have hshort : Spells { s with j := s.k, k := s.k - 1 } v :=
      Spells.dropRight (s := { s with j := s.k }) [101] hspells
    have hmshort : Stemmer.measure { s with j := s.k, k := s.k - 1 } = some (vcCount v) := by
      rw [← vcCount_concat_e]
      exact hmeasure
    rw [if_pos hc, he, vcCount_concat_e, hfire]
    rw [he] at hspells hmeasure hw
    by_cases hmany : 1 < vcCount v
    · rw [if_pos hmany, if_pos (.inl hmany)]
      exact ⟨_, rfl, hmshort, hshort, ne_nil_of_vcCount (by omega)⟩
    rw [if_neg hmany]
    by_cases hone : vcCount v = 1
    · have hv : v ≠ [] := ne_nil_of_vcCount (by omega)
      have hcvc : Stemmer.cvc { s with j := s.k } (s.k - 1) = some (endsCvc v) := cvc_eq hshort hv
      rw [if_pos hone, hcvc, Option.bind_some]
      cases hends : endsCvc v with
      | true =>
        have hkeep : ¬ (1 < vcCount v ∨ vcCount v = 1 ∧ true = false) := by simp [hmany]
        rw [if_neg hkeep]
        exact ⟨_, rfl, hmeasure, hspells, hw⟩
      | false =>
        have hdrop : 1 < vcCount v ∨ vcCount v = 1 ∧ false = false := .inr ⟨hone, rfl⟩
        rw [if_pos hdrop]
        exact ⟨_, rfl, hmshort, hshort, hv⟩
    · rw [if_neg hone, if_neg (by simp [hmany, hone])]
      exact ⟨_, rfl, hmeasure, hspells, hw⟩
  · have hnone : firstMatch rules5a (v ++ [c]) = v ++ [c] :=
      firstMatch_default h (n := 0) (by simpa using h.read_last) ['e'] (by decide) (by simpa using hc)
    rw [if_neg hc, hnone]
    exact ⟨_, rfl, hmeasure, hspells, hw⟩

theorem step5_spec (h : Spells s w) (hw : w ≠ []) :
    ∃ s', s.step5 = some s' ∧ Spells s' (step5b doubledConsonant (applyRules rules5a w)) := by
  obtain ⟨t, hterminal, hm, ht, hne⟩ := terminalE_spec h hw
  generalize applyRules rules5a w = v at hm ht hne
  obtain ⟨u, c, rfl⟩ := (List.eq_nil_or_concat' v).resolve_left hne
  have hletter : Char.ofNat c.val = 'l' ↔ c ∈ lit "l" := by
    rw [ofNat_eq_iff 'l' (by decide)]
    simp [lit]
  have hshort : Spells { t with k := t.k - 1 } u := Spells.dropRight [c] ht
  simp only [step5, hterminal, doubleL, ht.read_last, Option.bind_eq_bind, Option.bind_some, hletter,
    doubleConsonant_eq ht hne, hm]
  rw [step5b, endsIn_concat, List.dropLast_concat]
  by_cases hl : c ∈ lit "l"
  · rw [if_pos hl]
    cases hd : doubledConsonant (u ++ [c]) with
    | true =>
      by_cases hmany : 1 < vcCount (u ++ [c])
      · exact ⟨_, by rw [if_pos rfl, if_pos hmany], by simpa [hmany, hl] using hshort⟩
      · exact ⟨_, by rw [if_pos rfl, if_neg hmany], by simpa [hmany, hl] using ht⟩
    | false => exact ⟨t, rfl, by simpa using ht⟩
  · exact ⟨t, if_neg hl, by simpa [hl] using ht⟩

end Stemmer

open Stemmer

/-- The buffer as `stem` finds it. -/
def start (word : Str) : Stemmer := { b := word, k := toInt word.length - 1, j := 0 }

theorem start_spells {word : Str} (h : word.length < 2 ^ 31) : Spells (start word) word :=
  ⟨List.prefix_rfl, by simp [start, toInt_of_lt h]⟩

theorem doubledConsonant_twice (w : Str) (h : doubledConsonant w = true) : endsTwice w = true :=
  (Bool.and_eq_true_iff.mp h).1

/-- A buffer that stands for a word with the first letter of `word`. -/
def Bears (word : Str) (s : Stemmer) (w : Str) : Prop := Spells s w ∧ w.head? = word.head?

theorem Bears.in_buffer {word : Str} {s : Stemmer} {w : Str} (h : Bears word s w) (hword : word ≠ []) :
    0 ≤ s.k ∧ s.k < s.b.length := by
  have hne := List.length_pos_iff.mpr (ne_nil_of_head? h.2 hword)
  have hk := h.1.k_eq
  have hle := h.1.buffer.length_le
  omega

/-- The six steps one after the other. -/
theorem steps_spec {word : Str} (hlen : 2 < word.length) (hsize : word.length < 2 ^ 31) :
    ∃ s₁ s₂ s₃ s₄ s₅ s₆, (start word).step1ab = some s₁ ∧ s₁.step1c = some s₂ ∧ s₂.step2 = some s₃ ∧
      s₃.step3 = some s₄ ∧ s₄.step4 = some s₅ ∧ s₅.step5 = some s₆ ∧
      (∀ s ∈ [s₁, s₂, s₃, s₄, s₅, s₆], 0 ≤ s.k ∧ s.k < s.b.length) ∧
      Bears word s₆ (porter doubledConsonant word) := by
  have hword : word ≠ [] := by
    rintro rfl
    simp at hlen
  rw [porter, if_neg (by omega)]
  obtain ⟨s₁, hstep₁, hspells⟩ := step1ab_spec (start_spells hsize) (by omega)
  have h₁ : Bears word s₁ _ :=
    ⟨hspells, (rules1b_head? doubledConsonant_twice _).trans (rules1a_head? (by omega))⟩
  obtain ⟨s₂, hstep₂, hspells⟩ := step1c_spec h₁.1
  have h₂ : Bears word s₂ _ := ⟨hspells, (table_head? rfl _ _).trans h₁.2⟩
  obtain ⟨s₃, hstep₃, hspells⟩ := step2_spec h₂.1 (ne_nil_of_head? h₂.2 hword)
  have h₃ : Bears word s₃ _ := ⟨hspells, (table_head? (by decide) _ _).trans h₂.2⟩
  obtain ⟨s₄, hstep₄, hspells⟩ := step3_spec h₃.1 (ne_nil_of_head? h₃.2 hword)
  have h₄ : Bears word s₄ _ := ⟨hspells, (table_head? (by decide) _ _).trans h₃.2⟩
  obtain ⟨s₅, hstep₅, hspells⟩ := step4_spec h₄.1 (ne_nil_of_head? h₄.2 hword)
  have h₅ : Bears word s₅ _ := ⟨hspells, (rules4_head? _).trans h₄.2⟩
  obtain ⟨s₆, hstep₆, hspells⟩ := step5_spec h₅.1 (ne_nil_of_head? h₅.2 hword)
  have h₆ : Bears word s₆ _ := ⟨hspells, (step5b_head? doubledConsonant_twice _).trans
    ((table_head? (by decide) _ _).trans h₅.2)⟩
  refine ⟨s₁, s₂, s₃, s₄, s₅, s₆, hstep₁, hstep₂, hstep₃, hstep₄, hstep₅, hstep₆, ?_, h₆⟩
  simp only [List.forall_mem_cons]
  exact ⟨h₁.in_buffer hword, h₂.in_buffer hword, h₃.in_buffer hword, h₄.in_buffer hword,
    h₅.in_buffer hword, h₆.in_buffer hword, by simp⟩

theorem take_of_spells {s : Stemmer} {w : Str} (h : Spells s w) : s.b.take (s.k + 1).toNat = w := by
  rw [h.last, Int.toNat_natCast]
  exact (List.prefix_iff_eq_take.mp h.buffer).symm

/-- `resize` only cuts the buffer. -/
theorem resize_eq {s : Stemmer} (h : s.k < s.b.length) :
    s.b.take (s.k + 1).toNat ++ List.replicate ((s.k + 1).toNat - s.b.length) 0 =
      s.b.take (s.k + 1).toNat := by
  rw [Nat.sub_eq_zero_of_le (by omega), List.replicate_zero, List.append_nil]

/-- `stem` runs the six steps inside the buffer and cuts it to Porter's stem. -/
theorem stem?_run {word : Str} (hlen : 2 < word.length) (hsize : word.length < 2 ^ 31) :
    ∃ s₁ s₂ s₃ s₄ s₅ s₆, (start word).step1ab = some s₁ ∧ s₁.step1c = some s₂ ∧ s₂.step2 = some s₃ ∧
      s₃.step3 = some s₄ ∧ s₄.step4 = some s₅ ∧ s₅.step5 = some s₆ ∧
      (∀ s ∈ [s₁, s₂, s₃, s₄, s₅, s₆], 0 ≤ s.k ∧ s.k < s.b.length) ∧
      stem? word = some (s₆.b.take (s₆.k + 1).toNat) ∧
      s₆.b.take (s₆.k + 1).toNat = porter doubledConsonant word ∧
      (porter doubledConsonant word).head? = word.head? := by
  obtain ⟨s₁, s₂, s₃, s₄, s₅, s₆, h₁, h₂, h₃, h₄, h₅, h₆, hin, hspells, hhead⟩ := steps_spec hlen hsize
  refine ⟨s₁, s₂, s₃, s₄, s₅, s₆, h₁, h₂, h₃, h₄, h₅, h₆, hin, ?_, take_of_spells hspells, hhead⟩
  rw [← resize_eq (hin s₆ (by simp)).2, stem?, if_neg (by omega)]
  rw [start] at h₁
  simp only [h₁, h₂, h₃, h₄, h₅, h₆, Option.bind_eq_bind, Option.bind_some]

theorem stem?_eq (word : Str) (hsize : word.length < 2 ^ 31) :
    stem? word = some (porter doubledConsonant word) := by
  by_cases hlen : word.length ≤ 2
  · rw [stem?, porter, if_pos hlen, if_pos hlen]
  · obtain ⟨s₁, s₂, s₃, s₄, s₅, s₆, -, -, -, -, -, -, -, hstem, htake, -⟩ := stem?_run (not_le.mp hlen) hsize
    rw [hstem, htake]

theorem porter_head? (word : Str) (hsize : word.length < 2 ^ 31) :
    (porter doubledConsonant word).head? = word.head? := by
  by_cases hlen : word.length ≤ 2
  · rw [porter, if_pos hlen]
  · obtain ⟨s₁, s₂, s₃, s₄, s₅, s₆, -, -, -, -, -, -, -, -, -, hhead⟩ := stem?_run (not_le.mp hlen) hsize
    exact hhead

/-- `stem` computes Porter's rule tables; the measure of their conditions is the
number of VC groups of the form. -/
theorem stem_follows_rules (word : Str) (hsize : word.length < 2 ^ 31) :
    stem? word = some (porter doubledConsonant word) ∧
      ∀ (w : Str) (n : Nat), Groups n (form w) ↔ vcCount w = n :=
  ⟨stem?_eq word hsize, fun _ _ => groups_iff⟩

theorem stem_follows_rules_relational :
    stem? (lit "relational") = some (porter doubledConsonant (lit "relational")) ∧
      ∀ (w : Str) (n : Nat), Groups n (form w) ↔ vcCount w = n :=
  stem_follows_rules (lit "relational") (by decide)

/-- A length that does not fit an `int` sends the first read before the buffer; at
2^31 itself the subtraction in `stem` overflows before that. -/
theorem stem?_of_negative {word : Str} (hlen : 2 < word.length) (hk : toInt word.length < 1) :
    stem? word = none := by
  have hread : Stemmer.read (start word) (start word).k = none := if_pos (by simp [start]; omega)
  have hstep : (start word).step1ab = none := by
    simp only [step1ab, plurals, hread, Option.bind_eq_bind, Option.bind_none]
  rw [start] at hstep
  simp only [stem?, if_neg (not_le.mpr hlen), hstep, Option.bind_eq_bind, Option.bind_none]

theorem stem?_long : stem? (List.replicate (2 ^ 31 + 1) 97) = none :=
  stem?_of_negative (by rw [List.length_replicate]; decide) (by rw [List.length_replicate]; decide)

/-- The second `y` of `syy` is a consonant, the first a vowel. -/
theorem stem_departs :
    stem? (lit "syying") = some (lit "sy") ∧ porter doubleConsonant (lit "syying") = lit "syi" ∧
      stem? (List.replicate (2 ^ 31 + 1) 97) = none ∧
      ¬ ∀ word : Str, (∀ c ∈ word, 0x61 ≤ c.val ∧ c.val ≤ 0x7A) →
        stem? word = some (porter doubleConsonant word) := by
  have hcode : stem? (lit "syying") = some (lit "sy") := by decide +kernel
  have hrules : porter doubleConsonant (lit "syying") = lit "syi" := by decide +kernel
  refine ⟨hcode, hrules, stem?_long, fun hall => ?_⟩
  have h := hall (lit "syying") (by decide +kernel)
  rw [hcode, hrules] at h
  exact absurd h (by decide)

/-- No read or write is outside the buffer, `k` is inside it after every step, and
the stem is no longer than the word and starts like it. -/
theorem stem_in_bounds (word : Str) (hsize : word.length < 2 ^ 31) :
    (2 < word.length → ∃ s₁ s₂ s₃ s₄ s₅ s₆, (start word).step1ab = some s₁ ∧ s₁.step1c = some s₂ ∧
      s₂.step2 = some s₃ ∧ s₃.step3 = some s₄ ∧ s₄.step4 = some s₅ ∧ s₅.step5 = some s₆ ∧
      (∀ s ∈ [s₁, s₂, s₃, s₄, s₅, s₆], 0 ≤ s.k ∧ s.k < s.b.length) ∧
      stem? word = some (s₆.b.take (s₆.k + 1).toNat)) ∧
    ∃ out, stem? word = some out ∧ out.length ≤ word.length ∧ out.head? = word.head? ∧
      (word ≠ [] → out ≠ []) := by
  constructor
  · intro hlen
    obtain ⟨s₁, s₂, s₃, s₄, s₅, s₆, h₁, h₂, h₃, h₄, h₅, h₆, hin, hstem, -⟩ := stem?_run hlen hsize
    exact ⟨s₁, s₂, s₃, s₄, s₅, s₆, h₁, h₂, h₃, h₄, h₅, h₆, hin, hstem⟩
  · have hstem := stem?_eq word hsize
    have hhead := porter_head? word hsize
    have hlen := length_stem_le word
    rw [stem, hstem, Option.getD_some] at hlen
    exact ⟨_, hstem, hlen, hhead, ne_nil_of_head? hhead⟩

theorem stem_in_bounds_ies :
    ∃ out, stem? (lit "ies") = some out ∧ out.length ≤ (lit "ies").length ∧
      out.head? = (lit "ies").head? ∧ (lit "ies" ≠ [] → out ≠ []) :=
  (stem_in_bounds (lit "ies") (by decide)).2

/-- A word of 2^31 + 1 letters. -/
theorem stem_of_long_word : ¬ ∀ word : Str, (stem? word).isSome := by
  intro hall
  have h := hall (List.replicate (2 ^ 31 + 1) 97)
  rw [stem?_long] at h
  cases h

end CascadeSearch.Index.Porter
