import CascadeSearch.Index.Porter

/-!
# Porter's rule tables

The 1980 algorithm on words, with no buffer and no offsets: in each step the
rule with the longest matching suffix is the only one considered, and it fires
if its condition holds of the remaining stem. `stem` computes it.
-/
namespace CascadeSearch.Index.Porter

open Format

/-- `y` is a consonant initially or after a vowel. -/
def isConsonant (afterConsonant : Bool) (c : Byte) : Bool :=
  if c ∈ lit "aeiou" then false else if c ∈ lit "y" then !afterConsonant else true

def formAfter : (afterConsonant : Bool) → Str → List Bool
  | _, [] => []
  | after, c :: w => isConsonant after c :: formAfter (isConsonant after c) w

/-- The consonant/vowel form of a word; true stands for a consonant. -/
def form (w : Str) : List Bool := formAfter false w

/-- The places of a form where a vowel is followed by a consonant. -/
def turns : (inVowels : Bool) → List Bool → Nat
  | _, [] => 0
  | inVowels, c :: f => (if inVowels && c then 1 else 0) + turns (!c) f

/-- The measure *m*: how many VC groups the form has. -/
def vcCount (w : Str) : Nat := turns false (form w)

/-- The form is `[C](VC)^n[V]`, each letter standing for a run. -/
def Groups (n : Nat) (f : List Bool) : Prop :=
  ∃ (c v : Nat) (runs : List (Nat × Nat)), runs.length = n ∧
    f = List.replicate c true ++
      (runs.flatMap fun run => List.replicate (run.1 + 1) false ++ List.replicate (run.2 + 1) true) ++
      List.replicate v false

/-- *v*: the stem contains a vowel. -/
def containsVowel (w : Str) : Bool := (form w).contains false

/-- *L, *S and so on: the stem ends in one of `letters`. -/
def endsIn (letters : String) (w : Str) : Bool := w.getLast?.any (· ∈ lit letters)

/-- *o: the stem ends cvc, where the second c is not w, x or y. -/
def endsCvc (w : Str) : Bool := [true, false, true] <:+ form w && !endsIn "wxy" w

/-- The stem ends in a letter written twice. -/
def endsTwice (w : Str) : Bool := 2 ≤ w.length && w.getLast? == w.dropLast.getLast?

/-- *d to the letter: both of the last two letters are consonants. -/
def doubleConsonant (w : Str) : Bool := endsTwice w && [true, true] <:+ form w

/-- *d as the reference implementation has it: the last letter is a consonant. -/
def doubledConsonant (w : Str) : Bool := endsTwice w && [true] <:+ form w

structure Rule where
  suffix : String
  replacement : String
  condition : Str → Bool
  /-- What else is done where the rule fires. -/
  andThen : Str → Str := id

namespace Rule

def Matches (rule : Rule) (w : Str) : Prop := lit rule.suffix <:+ w

instance (rule : Rule) (w : Str) : Decidable (rule.Matches w) := by
  unfold Matches
  infer_instance

/-- The word under a rule that matches it. -/
def apply (rule : Rule) (w : Str) : Str :=
  let stem := w.take (w.length - (lit rule.suffix).length)
  if rule.condition stem then rule.andThen (stem ++ lit rule.replacement) else w

end Rule

def longestMatch (rules : List Rule) (w : Str) : Option Rule :=
  (rules.filter (fun rule => rule.Matches w)).argmax (fun rule => (lit rule.suffix).length)

def applyRules (rules : List Rule) (w : Str) : Str :=
  (longestMatch rules w).elim w (fun rule => rule.apply w)

/-- A table whose rules share one condition. -/
def table (condition : Str → Bool) (pairs : List (String × String)) : List Rule :=
  pairs.map fun pair => { suffix := pair.1, replacement := pair.2, condition := condition }

def rules1a : List Rule :=
  table (fun _ => true) [("sses", "ss"), ("ies", "i"), ("ss", "ss"), ("s", "")]

def repairRules : List Rule := table (fun _ => true) [("at", "ate"), ("bl", "ble"), ("iz", "ize")]

/-- After the second or third rule of step 1b. -/
def repaired (d : Str → Bool) (w : Str) : Str :=
  if (longestMatch repairRules w).isSome then applyRules repairRules w
  else if d w && !endsIn "lsz" w then w.dropLast
  else if vcCount w = 1 && endsCvc w then w ++ lit "e"
  else w

def rules1b (d : Str → Bool) : List Rule :=
  [{ suffix := "eed", replacement := "ee", condition := fun stem => 0 < vcCount stem },
   { suffix := "ed", replacement := "", condition := containsVowel, andThen := repaired d },
   { suffix := "ing", replacement := "", condition := containsVowel, andThen := repaired d }]

def rules1c : List Rule := table containsVowel [("y", "i")]

def pairs2 : List (String × String) :=
  [("ational", "ate"), ("tional", "tion"), ("enci", "ence"), ("anci", "ance"), ("izer", "ize"),
   ("bli", "ble"), ("alli", "al"), ("entli", "ent"), ("eli", "e"), ("ousli", "ous"),
   ("ization", "ize"), ("ation", "ate"), ("ator", "ate"), ("alism", "al"), ("iveness", "ive"),
   ("fulness", "ful"), ("ousness", "ous"), ("aliti", "al"), ("iviti", "ive"), ("biliti", "ble"),
   ("logi", "log")]

def rules2 : List Rule := table (fun stem => 0 < vcCount stem) pairs2

def pairs3 : List (String × String) :=
  [("icate", "ic"), ("ative", ""), ("alize", "al"), ("iciti", "ic"), ("ical", "ic"), ("ful", ""),
   ("ness", "")]

def rules3 : List Rule := table (fun stem => 0 < vcCount stem) pairs3

def suffixes4 : List String :=
  ["al", "ance", "ence", "er", "ic", "able", "ible", "ant", "ement", "ment", "ent", "ion", "ou",
   "ism", "ate", "iti", "ous", "ive", "ize"]

/-- `ion` is removed after `s` or `t` only. -/
def rule4 (suffix : String) : Rule :=
  { suffix := suffix, replacement := "",
    condition := fun stem => 1 < vcCount stem && (suffix != "ion" || endsIn "st" stem) }

def rules4 : List Rule := suffixes4.map rule4

def rules5a : List Rule :=
  table (fun stem => 1 < vcCount stem || (vcCount stem = 1 && !endsCvc stem)) [("e", "")]

def step5b (d : Str → Bool) (w : Str) : Str :=
  if 1 < vcCount w && d w && endsIn "l" w then w.dropLast else w

/-- The algorithm, with *d as a parameter. -/
def porter (d : Str → Bool) (w : Str) : Str :=
  if w.length ≤ 2 then w
  else
    let w := applyRules rules1a w
    let w := applyRules (rules1b d) w
    let w := applyRules rules1c w
    let w := applyRules rules2 w
    let w := applyRules rules3 w
    let w := applyRules rules4 w
    step5b d (applyRules rules5a w)

@[simp] theorem length_formAfter (after : Bool) (w : Str) : (formAfter after w).length = w.length := by
  induction w generalizing after with
  | nil => rfl
  | cons c w ih => simp [formAfter, ih]

@[simp] theorem length_form (w : Str) : (form w).length = w.length := length_formAfter false w

theorem prefix_formAfter (after : Bool) (w x : Str) : formAfter after w <+: formAfter after (w ++ x) := by
  induction w generalizing after with
  | nil => exact List.nil_prefix
  | cons c w ih => exact List.cons_prefix_cons.mpr ⟨rfl, ih _⟩

/-- What follows a word does not change its form. -/
theorem prefix_form {w b : Str} (h : w <+: b) : form w <+: form b := by
  obtain ⟨x, rfl⟩ := h
  exact prefix_formAfter false w x

theorem formAfter_concat (after : Bool) (w : Str) (c : Byte) :
    formAfter after (w ++ [c]) =
      formAfter after w ++ [isConsonant ((formAfter after w).getLast?.getD after) c] := by
  induction w generalizing after with
  | nil => rfl
  | cons a w ih =>
    rw [List.cons_append, formAfter, ih, formAfter, List.cons_append]
    cases hf : formAfter (isConsonant after a) w with
    | nil => rfl
    | cons x f => rw [List.getLast?_cons_cons, List.getLast?_eq_some_getLast (by simp)]; rfl

theorem form_concat (w : Str) (c : Byte) :
    form (w ++ [c]) = form w ++ [isConsonant ((form w).getLast?.getD false) c] :=
  formAfter_concat false w c

/-- Only `y` depends on the letter before it. -/
theorem mem_y_of_isConsonant_ne {p q : Bool} {c : Byte} (h : isConsonant p c ≠ isConsonant q c) :
    c ∈ lit "y" := by
  by_contra hy
  simp [isConsonant, hy] at h

theorem endsIn_concat (letters : String) (w : Str) (c : Byte) :
    endsIn letters (w ++ [c]) = decide (c ∈ lit letters) := by
  simp [endsIn]

theorem not_endsCvc_twice (w : Str) (c : Byte) : endsCvc (w ++ [c] ++ [c]) = false := by
  rw [endsCvc, endsIn_concat, form_concat, form_concat, List.getLast?_concat, Option.getD_some]
  by_cases hc : isConsonant ((form w).getLast?.getD false) c = isConsonant false c
  · have hnot : ¬ [true, false, true] <:+ form w ++ [isConsonant false c] ++
        [isConsonant (isConsonant false c) c] := fun hsuffix => by
      have hrev := List.reverse_prefix.mpr hsuffix
      simp only [List.reverse_append, List.reverse_cons, List.reverse_nil, List.nil_append,
        List.cons_append, List.cons_prefix_cons] at hrev
      have hlast := hrev.1
      rw [← hrev.2.1] at hlast
      exact absurd (hlast.trans hrev.2.1.symm) (by decide)
    rw [hc, decide_eq_false hnot, Bool.false_and]
  · have hy : c ∈ lit "wxy" := by
      have := mem_y_of_isConsonant_ne hc
      simp [lit] at this ⊢
      exact .inr (.inr this)
    simp [hy]

theorem getElem?_formAfter_succ (after : Bool) (w : Str) (i : Nat) :
    (formAfter after w)[i + 1]? =
      w[i + 1]?.bind fun c => (formAfter after w)[i]?.map fun before => isConsonant before c := by
  induction w generalizing after i with
  | nil => rfl
  | cons a w ih =>
    cases i with
    | zero => cases w <;> rfl
    | succ i => exact ih _ i

theorem turns_consonants (c : Nat) (f : List Bool) :
    turns false (List.replicate c true ++ f) = turns false f := by
  induction c with
  | zero => rfl
  | succ c ih => simpa [List.replicate_succ, turns] using ih

theorem turns_vowels (inVowels : Bool) (v : Nat) (f : List Bool) :
    turns inVowels (List.replicate (v + 1) false ++ f) = turns true f := by
  induction v generalizing inVowels with
  | zero => simp [turns]
  | succ v ih =>
    rw [List.replicate_succ, List.cons_append, turns, ih]
    simp

theorem turns_group (run : Nat × Nat) (f : List Bool) :
    turns false ((List.replicate (run.1 + 1) false ++ List.replicate (run.2 + 1) true) ++ f) =
      turns false f + 1 := by
  rw [List.append_assoc, turns_vowels, List.replicate_succ, List.cons_append, turns, Bool.not_true,
    turns_consonants]
  exact Nat.add_comm 1 _

theorem turns_of_groups {n : Nat} {f : List Bool} (h : Groups n f) : turns false f = n := by
  obtain ⟨c, v, runs, rfl, rfl⟩ := h
  rw [List.append_assoc, turns_consonants]
  induction runs with
  | nil =>
    cases v with
    | zero => rfl
    | succ v => simpa [turns] using turns_vowels false v []
  | cons run runs ih => rw [List.flatMap_cons, List.append_assoc, turns_group, ih, List.length_cons]

theorem exists_groups (f : List Bool) : ∃ n, Groups n f := by
  induction f with
  | nil => exact ⟨0, 0, 0, [], rfl, rfl⟩
  | cons letter f ih =>
    obtain ⟨n, c, v, runs, -, rfl⟩ := ih
    cases letter with
    | true => exact ⟨_, c + 1, v, runs, rfl, by simp [List.replicate_succ]⟩
    | false =>
      cases c with
      | succ c => exact ⟨_, 0, v, (0, c) :: runs, rfl, by simp⟩
      | zero =>
        cases runs with
        | nil => exact ⟨_, 0, v + 1, [], rfl, by simp [List.replicate_succ]⟩
        | cons run runs =>
          exact ⟨_, 0, v, (run.1 + 1, run.2) :: runs, rfl, by simp [List.replicate_succ]⟩

/-- The measure is the number of groups, however the form is cut into runs. -/
theorem groups_iff {n : Nat} {w : Str} : Groups n (form w) ↔ vcCount w = n := by
  constructor
  · exact turns_of_groups
  · rintro rfl
    obtain ⟨n, hn⟩ := exists_groups (form w)
    rwa [vcCount, turns_of_groups hn]

theorem turns_concat_vowel (inVowels : Bool) (f : List Bool) :
    turns inVowels (f ++ [false]) = turns inVowels f := by
  induction f generalizing inVowels with
  | nil => simp [turns]
  | cons c f ih => rw [List.cons_append, turns, ih, turns]

theorem argmax_of_descending {α : Type} {f : α → Nat} {l : List α}
    (h : l.Pairwise (fun a b => f b < f a)) : l.argmax f = l.head? := by
  induction l with
  | nil => rfl
  | cons a l ih =>
    obtain ⟨ha, hl⟩ := List.pairwise_cons.mp h
    rw [List.argmax_cons, ih hl]
    cases l with
    | nil => rfl
    | cons b l => exact if_neg (Nat.lt_asymm (ha b List.mem_cons_self))

/-- No suffix stands before one that it ends. -/
def LongestFirst (rules : List Rule) : Prop :=
  rules.Pairwise fun rule later => ¬ lit rule.suffix <:+ lit later.suffix

instance (rules : List Rule) : Decidable (LongestFirst rules) := by
  unfold LongestFirst
  infer_instance

theorem longestMatch_eq_find? {rules : List Rule} (h : LongestFirst rules) (w : Str) :
    longestMatch rules w = rules.find? (fun rule => rule.Matches w) := by
  rw [longestMatch, argmax_of_descending, List.head?_filter]
  refine (h.filter _).imp_of_mem fun {rule later} hrule hlater hnot => ?_
  have hmatches : rule.Matches w := by simpa using (List.mem_filter.mp hrule).2
  have hlater : later.Matches w := by simpa using (List.mem_filter.mp hlater).2
  exact not_le.mp fun hle => hnot (List.suffix_of_suffix_length_le hmatches hlater hle)

theorem Rule.apply_append (rule : Rule) (stem : Str) :
    rule.apply (stem ++ lit rule.suffix) =
      if rule.condition stem then rule.andThen (stem ++ lit rule.replacement)
      else stem ++ lit rule.suffix := by
  simp [Rule.apply]

theorem ne_nil_of_containsVowel {w : Str} (h : containsVowel w = true) : w ≠ [] := by
  rintro rfl
  cases h

theorem ne_nil_of_vcCount {w : Str} (h : 0 < vcCount w) : w ≠ [] := by
  rintro rfl
  exact absurd h (by decide)

theorem exists_of_endsTwice {w : Str} (h : endsTwice w = true) : ∃ u c, w = u ++ [c] ++ [c] := by
  obtain ⟨v, c, rfl⟩ := (List.eq_nil_or_concat' w).resolve_left (by rintro rfl; simp [endsTwice] at h)
  obtain ⟨u, a, rfl⟩ := (List.eq_nil_or_concat' v).resolve_left (by rintro rfl; simp [endsTwice] at h)
  obtain rfl : c = a := by simpa [endsTwice] using h
  exact ⟨u, c, by simp⟩

theorem applyRules_head? {rules : List Rule} {w : Str}
    (h : ∀ rule ∈ rules, ∀ stem, w = stem ++ lit rule.suffix → rule.condition stem = true →
      (rule.andThen (stem ++ lit rule.replacement)).head? = w.head?) :
    (applyRules rules w).head? = w.head? := by
  rw [applyRules]
  cases hlongest : longestMatch rules w with
  | none => rfl
  | some rule =>
    obtain ⟨hmem, hmatch⟩ := List.mem_filter.mp (List.argmax_mem hlongest)
    obtain ⟨stem, rfl⟩ : rule.Matches w := of_decide_eq_true hmatch
    rw [Option.elim_some, Rule.apply_append]
    split
    · exact h rule hmem stem rfl ‹_›
    · rfl

/-- A condition that no empty stem meets. -/
theorem table_head? {condition : Str → Bool} (hcondition : condition [] = false)
    (pairs : List (String × String)) (w : Str) :
    (applyRules (table condition pairs) w).head? = w.head? := by
  refine applyRules_head? fun rule hmem stem hw hstem => ?_
  obtain ⟨pair, -, rfl⟩ := List.mem_map.mp hmem
  subst hw
  cases stem with
  | nil => exact absurd hstem (by simp [hcondition])
  | cons c stem => rfl

theorem rules1a_head? {w : Str} (hlen : 2 ≤ w.length) : (applyRules rules1a w).head? = w.head? := by
  refine applyRules_head? fun rule hmem stem hw _ => ?_
  subst hw
  cases stem with
  | cons c stem =>
    obtain ⟨pair, -, rfl⟩ := List.mem_map.mp hmem
    rfl
  | nil =>
    simp only [rules1a, table, List.map_cons, List.map_nil, List.mem_cons, List.not_mem_nil, or_false] at hmem
    obtain rfl | rfl | rfl | rfl := hmem
    · rfl
    · rfl
    · rfl
    · exact absurd hlen (by decide)

theorem repaired_head? {d : Str → Bool} (hd : ∀ w, d w = true → endsTwice w = true) (w : Str)
    (hw : w ≠ []) : (repaired d w).head? = w.head? := by
  rw [repaired]
  split
  · refine applyRules_head? fun rule hmem stem hstem _ => ?_
    subst hstem
    cases stem with
    | cons c stem =>
      obtain ⟨pair, -, rfl⟩ := List.mem_map.mp hmem
      rfl
    | nil =>
      simp only [repairRules, table, List.map_cons, List.map_nil, List.mem_cons, List.not_mem_nil,
        or_false] at hmem
      obtain rfl | rfl | rfl := hmem <;> rfl
  split
  · rename_i hdouble
    obtain ⟨u, c, rfl⟩ := exists_of_endsTwice (hd w (Bool.and_eq_true_iff.mp hdouble).1)
    rw [List.dropLast_concat, List.head?_append_of_ne_nil (u ++ [c]) (by simp)]
  split
  · exact List.head?_append_of_ne_nil w hw
  · rfl

theorem rules1b_head? {d : Str → Bool} (hd : ∀ w, d w = true → endsTwice w = true) (w : Str) :
    (applyRules (rules1b d) w).head? = w.head? := by
  refine applyRules_head? fun rule hmem stem hw hstem => ?_
  subst hw
  simp only [rules1b, List.mem_cons, List.not_mem_nil, or_false] at hmem
  obtain rfl | hmem := hmem
  · have hne : stem ≠ [] := ne_nil_of_vcCount (of_decide_eq_true hstem)
    rw [List.head?_append_of_ne_nil stem hne]
    exact List.head?_append_of_ne_nil stem hne
  · have hremove : ∀ suffix : Str, containsVowel stem = true →
        (repaired d (stem ++ lit "")).head? = (stem ++ suffix).head? := by
      intro suffix hvowel
      have hne := ne_nil_of_containsVowel hvowel
      rw [show stem ++ lit "" = stem from List.append_nil stem, repaired_head? hd stem hne,
        List.head?_append_of_ne_nil stem hne]
    obtain rfl | rfl := hmem
    · exact hremove _ hstem
    · exact hremove _ hstem

theorem rules4_head? (w : Str) : (applyRules rules4 w).head? = w.head? := by
  refine applyRules_head? fun rule hmem stem hw hstem => ?_
  obtain ⟨suffix, -, rfl⟩ := List.mem_map.mp hmem
  subst hw
  have hne : stem ≠ [] := ne_nil_of_vcCount
    (Nat.zero_lt_of_lt (of_decide_eq_true (Bool.and_eq_true_iff.mp hstem).1))
  rw [List.head?_append_of_ne_nil stem hne]
  exact List.head?_append_of_ne_nil stem hne

theorem step5b_head? {d : Str → Bool} (hd : ∀ w, d w = true → endsTwice w = true) (w : Str) :
    (step5b d w).head? = w.head? := by
  rw [step5b]
  split
  · rename_i hfires
    obtain ⟨u, c, rfl⟩ := exists_of_endsTwice (hd w (by simp at hfires; exact hfires.1.2))
    rw [List.dropLast_concat, List.head?_append_of_ne_nil (u ++ [c]) (by simp)]
  · rfl

theorem ne_nil_of_head? {w x : Str} (h : x.head? = w.head?) (hw : w ≠ []) : x ≠ [] := by
  rintro rfl
  exact hw (List.head?_eq_none_iff.mp h.symm)

end CascadeSearch.Index.Porter
