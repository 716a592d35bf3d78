import CascadeSearch.Index.Analyzer
import CascadeSearch.Index.PorterStem

/-!
# The possessive filter

A possessive written with the straight apostrophe is stripped. One written with
the curly apostrophe, three bytes of UTF-8, stays in the term: only its `s` goes,
as a plural.
-/
namespace CascadeSearch.Index.Possessive

open Format Analyzer Porter

/-- `'s`. -/
def straight : Str := [0x27, 0x73]

/-- U+2019 in UTF-8. -/
def curlyApostrophe : Str := [0xE2, 0x80, 0x99]

def curly : Str := curlyApostrophe ++ [0x73]

theorem scanToken_word (rest : Str) : ∀ (w : Str) (prev : Byte), (∀ c ∈ w, isWord c = true) →
    scanToken prev (w ++ rest) =
      (w ++ (scanToken (w.getLastD prev) rest).1, (scanToken (w.getLastD prev) rest).2) := by
  intro w
  induction w with
  | nil => intro prev _; rfl
  | cons c w ih =>
    intro prev hw
    obtain ⟨hc, hw⟩ := List.forall_mem_cons.mp hw
    rw [List.cons_append, scanToken, hc, Bool.true_or, if_pos rfl, ih c hw, List.getLastD_cons]
    rfl

theorem tokenize_one {text : Str} {c : Byte} (hc : isWord c = true) (hrest : scanToken c text = (text, []))
    (hlen : text.length < kMaxTokenLength) : tokenize (c :: text) = [c :: text] := by
  rw [tokenize_word hc, hrest, List.take_of_length_le (by simpa using hlen)]
  rfl

variable {w : Str}

theorem isWord_of_isAlpha (hletters : ∀ c ∈ w, isAlpha c = true) : ∀ c ∈ w, isWord c = true := fun c hc =>
  word_of_alnum (Or.inl (hletters c hc))

theorem tokenize_straight (hletters : ∀ c ∈ w, isAlpha c = true) (hpos : 1 ≤ w.length) (hlen : w.length ≤ 200) :
    tokenize (w ++ straight) = [w ++ straight] := by
  cases w with
  | nil => cases hpos
  | cons c w =>
    have hlast : isAlpha (w.getLastD c) = true := hletters _ List.getLastD_mem_cons
    have hwords := List.forall_mem_cons.mp (isWord_of_isAlpha hletters)
    rw [List.cons_append]
    refine tokenize_one hwords.1 ?_ ?_
    · rw [scanToken_word _ _ _ hwords.2]
      generalize w.getLastD c = last at hlast
      have hs : isWord 0x73 = true ∧ isAlpha 0x73 = true := by decide +kernel
      simp [straight, scanToken, continues, hlast, hs]
    · rw [List.length_cons] at hlen
      simp only [straight, kMaxTokenLength, List.length_append, List.length_cons, List.length_nil]
      omega

theorem tokenize_curly (hletters : ∀ c ∈ w, isAlpha c = true) (hpos : 1 ≤ w.length) (hlen : w.length ≤ 200) :
    tokenize (w ++ curly) = [w ++ curly] := by
  cases w with
  | nil => cases hpos
  | cons c w =>
    have hwords := List.forall_mem_cons.mp (isWord_of_isAlpha hletters)
    have hcurly : ∀ c ∈ curly, isWord c = true := by decide +kernel
    have hall : ∀ x ∈ w ++ curly, isWord x = true := fun x hx =>
      (List.mem_append.mp hx).elim (hwords.2 x) (hcurly x)
    rw [List.cons_append]
    refine tokenize_one hwords.1 ?_ ?_
    · have hscan := scanToken_word [] (w ++ curly) c hall
      rw [List.append_nil] at hscan
      rw [hscan, scanToken, List.append_nil]
    · rw [List.length_cons] at hlen
      simp only [curly, curlyApostrophe, kMaxTokenLength, List.length_append, List.length_cons, List.length_nil]
      omega

theorem stripPossessive_straight (hpos : 1 ≤ w.length) : stripPossessive (w ++ straight) = w := by
  have hlength : (w ++ straight).length = w.length + 2 := List.length_append
  have hlast : (w ++ straight).getD (w.length + 2 - 1) 0 = 0x73 := by
    simp [straight, List.getD_eq_getElem?_getD]
  have hprev : (w ++ straight).getD (w.length + 2 - 2) 0 = 0x27 := by
    simp [straight, List.getD_eq_getElem?_getD]
  rw [stripPossessive]
  dsimp only
  rw [hlength, if_neg (by omega), hlast, hprev, if_pos (by decide), Nat.add_sub_cancel, List.take_left]

theorem stripPossessive_curly (w : Str) : stripPossessive (w ++ curly) = w ++ curly := by
  have hlength : (w ++ curly).length = w.length + 4 := List.length_append
  have hprev : (w ++ curly).getD (w.length + 4 - 2) 0 = 0x99 := by
    simp [curly, curlyApostrophe, List.getD_eq_getElem?_getD]
  rw [stripPossessive]
  dsimp only
  rw [hlength, hprev]
  simp

/-- A suffix is the end of a word only where their last letters agree. -/
theorem not_matches {rule : Rule} {v : Str} {c : Byte} (h : (lit rule.suffix).getLast?.any (· != c) = true) :
    ¬ rule.Matches (v ++ [c]) := by
  rintro ⟨front, hfront⟩
  have hlast := congrArg List.getLast? hfront
  rw [List.getLast?_append, List.getLast?_concat] at hlast
  cases hsuffix : (lit rule.suffix).getLast? with
  | none => simp [hsuffix] at h
  | some x =>
    rw [hsuffix, Option.some_or, Option.some.injEq] at hlast
    simp [hsuffix, hlast] at h

theorem applyRules_none {rules : List Rule} {w : Str} (h : ∀ rule ∈ rules, ¬ rule.Matches w) :
    applyRules rules w = w := by
  have hnone : rules.filter (fun rule => rule.Matches w) = [] :=
    List.filter_eq_nil_iff.mpr fun rule hrule => by simpa using h rule hrule
  rw [applyRules, longestMatch, hnone]
  rfl

theorem applyRules_last {rules : List Rule} {v : Str} {c : Byte}
    (h : ∀ rule ∈ rules, (lit rule.suffix).getLast?.any (· != c) = true) : applyRules rules (v ++ [c]) = v ++ [c] :=
  applyRules_none fun rule hrule => not_matches (h rule hrule)

/-- The plural rule takes the `s`. -/
theorem rules1a_curly (w : Str) : applyRules rules1a (w ++ curly) = w ++ curlyApostrophe := by
  have hnot : ∀ x : String, [0x73, 0x73] <+: (lit x).reverse ∨ [0x73, 0x65] <+: (lit x).reverse →
      ¬ lit x <:+ w ++ curly := by
    intro x hx hmatch
    rw [← List.reverse_prefix] at hmatch
    have hreverse : (w ++ curly).reverse = 0x73 :: 0x99 :: 0x80 :: 0xE2 :: w.reverse := by
      simp [curly, curlyApostrophe]
    rw [hreverse] at hmatch
    rcases hx with hx | hx <;> simpa [List.cons_prefix_cons] using hx.trans hmatch
  have hs : w ++ curly = (w ++ curlyApostrophe) ++ lit "s" := by rw [List.append_assoc]; rfl
  rw [Stemmer.applyRules_eq (by decide)]
  simp only [rules1a, table, List.map_cons, List.map_nil]
  rw [Stemmer.firstMatch_of_not (hnot "sses" (Or.inr (by decide))),
    Stemmer.firstMatch_of_not (hnot "ies" (Or.inr (by decide))),
    Stemmer.firstMatch_of_not (hnot "ss" (Or.inl (by decide))), hs,
    Stemmer.firstMatch_of_matches (List.suffix_append _ _), Rule.apply_append]
  exact List.append_nil _

theorem porter_curly (w : Str) : porter doubledConsonant (w ++ curly) = w ++ curlyApostrophe := by
  have hlen : ¬ (w ++ curly).length ≤ 2 := by
    simp [curly, curlyApostrophe]
  have hsplit : w ++ curlyApostrophe = (w ++ [0xE2, 0x80]) ++ [0x99] := by simp [curlyApostrophe]
  rw [porter, if_neg hlen, rules1a_curly, hsplit]
  dsimp only
  have hkeep : ∀ rules ∈ [rules1b doubledConsonant, rules1c, rules2, rules3, rules4, rules5a],
      ∀ rule ∈ rules, (lit rule.suffix).getLast?.any (· != 0x99) = true := by decide +kernel
  simp only [List.forall_mem_cons, List.not_mem_nil, false_imp_iff, implies_true, and_true] at hkeep
  obtain ⟨h1b, h1c, h2, h3, h4, h5a⟩ := hkeep
  rw [applyRules_last h1b, applyRules_last h1c, applyRules_last h2, applyRules_last h3, applyRules_last h4,
    applyRules_last h5a, step5b, endsIn_concat]
  simp [lit]

theorem stem_curly (hlen : w.length ≤ 200) : stem (w ++ curly) = w ++ curlyApostrophe := by
  have hsize : (w ++ curly).length < 2 ^ 31 := by
    rw [List.length_append, curly, curlyApostrophe]
    simp only [List.length_append, List.length_cons, List.length_nil]
    omega
  rw [stem, stem?_eq _ hsize, porter_curly]
  rfl

theorem analyze_straight (hletters : ∀ c ∈ w, isAlpha c = true) (hpos : 1 ≤ w.length) (hlen : w.length ≤ 200) :
    analyze (w ++ straight) = if w.map toLower ∈ stopwords then [] else [stem (w.map toLower)] := by
  have hne : w ≠ [] := List.ne_nil_of_length_pos hpos
  rw [analyze, tokenize_straight hletters hpos hlen, List.filterMap_cons, List.filterMap_nil, analyzeToken]
  dsimp only
  rw [stripPossessive_straight hpos, if_neg hne]
  by_cases hstop : w.map toLower ∈ stopwords
  · rw [if_pos hstop, if_pos hstop]
  · rw [if_neg hstop, if_neg hstop]

theorem analyze_curly (hletters : ∀ c ∈ w, isAlpha c = true) (hpos : 1 ≤ w.length) (hlen : w.length ≤ 200) :
    analyze (w ++ curly) = [w.map toLower ++ curlyApostrophe] := by
  have hlower : (w ++ curly).map toLower = w.map toLower ++ curly := by
    rw [List.map_append]
    rfl
  have hne : w ++ curly ≠ [] := by simp [curly]
  have hstop : w.map toLower ++ curly ∉ stopwords := by
    have hascii : ∀ x ∈ stopwords, (0xE2 : Byte) ∉ x := by decide +kernel
    exact fun hmem => hascii _ hmem (List.mem_append_right _ List.mem_cons_self)
  rw [analyze, tokenize_curly hletters hpos hlen, List.filterMap_cons, List.filterMap_nil, analyzeToken]
  dsimp only
  rw [stripPossessive_curly, if_neg hne, hlower, if_neg hstop, stem_curly (by rw [List.length_map]; exact hlen)]

/-- The two spellings never yield the same terms. -/
theorem possessives_differ (w : Str) (hletters : ∀ c ∈ w, isAlpha c = true) (hpos : 1 ≤ w.length)
    (hlen : w.length ≤ 200) : analyze (w ++ straight) ≠ analyze (w ++ curly) := by
  rw [analyze_straight hletters hpos hlen, analyze_curly hletters hpos hlen]
  split
  · exact (List.cons_ne_nil _ _).symm
  · intro heq
    have hlength := congrArg List.length (List.singleton_inj.mp heq)
    have hle := length_stem_le (w.map toLower)
    rw [List.length_append, curlyApostrophe, List.length_cons] at hlength
    omega

theorem possessives_differ_dog : analyze (lit "dog" ++ straight) ≠ analyze (lit "dog" ++ curly) :=
  possessives_differ (lit "dog") (by decide +kernel) (by decide) (by decide)

/-- One word, two terms. -/
theorem dog_has_two_terms :
    ¬ ∀ w : Str, (∀ c ∈ w, isAlpha c = true) → 1 ≤ w.length → w.length ≤ 200 →
      analyze (w ++ straight) = analyze (w ++ curly) := by
  intro hall
  have hdog := hall (lit "dog") (by decide +kernel) (by decide) (by decide)
  revert hdog
  decide +kernel

end CascadeSearch.Index.Possessive
