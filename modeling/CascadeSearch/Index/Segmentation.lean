import CascadeSearch.Index.Analyzer

/-!
# The tokens of a text

What `tokenize` is for, stated over the offsets of the text: its tokens are the
maximal runs of bytes that belong to a token, and a run too long for one token
comes apart into several. The tokenizer keeps only the head of such a run.
-/
namespace CascadeSearch.Index.Segmentation

open Format Analyzer Porter

/-- Analysis is a homomorphism at separators. -/
theorem analyze_homomorphism (a b : Str) (c : Byte) (hascii : c.val < 0x80) (halnum : isAlnum c = false)
    (hmarks : c ≠ 0x27 ∧ c ≠ 0x2E ∧ c ≠ 0x2C) : analyze (a ++ c :: b) = analyze a ++ analyze b := by
  have hsplits : Splits c := by
    refine ⟨?_, hmarks⟩
    rw [isWord, halnum, Bool.false_or, decide_eq_false (Nat.not_le_of_lt hascii)]
  rw [analyze, tokenize_split hsplits, List.filterMap_append]
  rfl

theorem analyze_homomorphism_hyphen :
    analyze (lit "don'" ++ 0x2D :: lit "'t 3.") = analyze (lit "don'") ++ analyze (lit "'t 3.") :=
  analyze_homomorphism _ _ _ (by decide) (by decide) (by decide)

/-- Whether the byte at an offset belongs to a token. -/
def within (text : Str) : Nat → Bool
  | 0 => text[0]?.any isWord
  | i + 1 =>
      match text[i]?, text[i + 1]? with
      | some prev, some ch => isWord ch || continues prev ch text[i + 2]?
      | _, _ => false

/-- The offsets from `start` to `stop`, and no more, belong to one token. -/
structure MaximalRun (text : Str) (start stop : Nat) : Prop where
  nonempty : start < stop
  inside : ∀ i, start ≤ i → i < stop → within text i = true
  left : ∀ i, i + 1 = start → within text i = false
  right : within text stop = false

/-- `text.substr(start, stop - start)`. -/
def slice (text : Str) (start stop : Nat) : Str := (text.drop start).take (stop - start)

/-- A run and the consecutive tokens made of it. -/
structure Cut where
  start : Nat
  stop : Nat
  tokens : List Str

/-- A run that fits is one token, a longer one is split into tokens that fit. -/
structure Cut.Splits (text : Str) (cut : Cut) : Prop where
  whole : cut.tokens.flatten = slice text cut.start cut.stop
  nonempty : ∀ token ∈ cut.tokens, token ≠ []
  bounded : ∀ token ∈ cut.tokens, token.length ≤ kMaxTokenLength
  single : cut.stop - cut.start ≤ kMaxTokenLength → cut.tokens.length = 1

/-- The cuts are the maximal runs from an offset on, in order. -/
structure Runs (text : Str) (offset : Nat) (cuts : List (Nat × Nat)) : Prop where
  ordered : cuts.Pairwise fun a b => a.2 < b.1
  maximal : ∀ start stop, (start, stop) ∈ cuts ↔ offset ≤ start ∧ MaximalRun text start stop

/-- The tokens of a text as they should be. -/
structure Segmented (text : Str) (tokens : List Str) : Prop where
  words : tokens.flatten.filter isWord = text.filter isWord
  runs : ∃ cuts : List Cut, Runs text 0 (cuts.map fun cut => (cut.start, cut.stop)) ∧
    (∀ cut ∈ cuts, cut.Splits text) ∧ tokens = cuts.flatMap Cut.tokens

variable {text pre rest : Str} {prev ch : Byte}

theorem within_append (pre : Str) (prev ch : Byte) (rest : Str) : within (pre ++ prev :: ch :: rest) (pre.length + 1) =
    (isWord ch || continues prev ch rest.head?) := by
  have hprev : (pre ++ prev :: ch :: rest)[pre.length]? = some prev := by simp
  have hch : (pre ++ prev :: ch :: rest)[pre.length + 1]? = some ch := by simp
  have hnext : (pre ++ prev :: ch :: rest)[pre.length + 2]? = rest.head? := by
    rw [List.getElem?_append_right (by omega), Nat.add_sub_cancel_left, List.head?_eq_getElem?]
    rfl
  rw [within, hprev, hch, hnext]

theorem within_end (i : Nat) (h : text.length ≤ i) : within text i = false := by
  cases i with
  | zero =>
    rw [within, List.getElem?_eq_none h]
    rfl
  | succ i =>
    rw [within, List.getElem?_eq_none h]
    cases text[i]? <;> rfl

theorem within_word (pre rest : Str) (h : isWord ch = true) : within (pre ++ ch :: rest) pre.length = true := by
  rcases List.eq_nil_or_concat pre with rfl | ⟨pre, prev, rfl⟩
  · simp [within, h]
  · have hwithin := within_append pre prev ch rest
    rw [h, Bool.true_or] at hwithin
    simpa using hwithin

/-- A separator only belongs to a token that was there before it. -/
theorem within_separator (h : isWord ch = false) (hwithin : within (pre ++ ch :: rest) pre.length = true) :
    ∃ i, i + 1 = pre.length ∧ within (pre ++ ch :: rest) i = true := by
  rcases List.eq_nil_or_concat pre with rfl | ⟨pre, prev, rfl⟩
  · simp [within, h] at hwithin
  · have happend := within_append pre prev ch rest
    rw [h, Bool.false_or] at happend
    rw [List.concat_eq_append, List.length_append, List.length_singleton, List.append_assoc, List.singleton_append,
      happend] at hwithin
    refine ⟨pre.length, by simp, ?_⟩
    rw [List.concat_eq_append, List.append_assoc, List.singleton_append]
    refine within_word _ _ ?_
    cases hnext : rest.head? with
    | none => simp [hnext, continues] at hwithin
    | some next =>
      rw [hnext, continues] at hwithin
      simp only [Bool.or_eq_true, Bool.and_eq_true] at hwithin
      rcases hwithin with ⟨⟨-, hprev⟩, -⟩ | ⟨⟨-, hprev⟩, -⟩
      · exact word_of_alnum (Or.inl hprev)
      · exact word_of_alnum (Or.inr hprev)

/-- The inner loop goes to the end of the run. -/
theorem scanToken_within (rest : Str) : ∀ (pre : Str) (prev : Byte),
    (∀ i, pre.length < i → i ≤ pre.length + (scanToken prev rest).1.length →
      within (pre ++ prev :: rest) i = true) ∧
    within (pre ++ prev :: rest) (pre.length + (scanToken prev rest).1.length + 1) = false := by
  induction rest with
  | nil =>
    intro pre prev
    refine ⟨fun i hlt hle => ?_, within_end _ (by simp [scanToken])⟩
    rw [scanToken, List.length_nil] at hle
    omega
  | cons ch rest ih =>
    intro pre prev
    have hwithin := within_append pre prev ch rest
    rw [scanToken]
    by_cases hch : (isWord ch || continues prev ch rest.head?) = true
    · obtain ⟨hinside, hstop⟩ := ih (pre ++ [prev]) ch
      rw [List.append_assoc, List.singleton_append, List.length_append, List.length_singleton] at hinside hstop
      rw [if_pos hch]
      dsimp only
      rw [List.length_cons]
      constructor
      · intro i hlt hle
        rcases Nat.eq_or_lt_of_le (Nat.succ_le_of_lt hlt) with rfl | hlt
        · rw [hwithin, hch]
        · exact hinside i (by omega) (by omega)
      · rw [← hstop]
        congr 1
        omega
    · rw [if_neg hch]
      dsimp only
      rw [List.length_nil]
      refine ⟨fun i hlt hle => by omega, ?_⟩
      rw [Nat.add_zero, hwithin]
      exact Bool.eq_false_iff.mpr hch

/-- The first bytes of a run, as many as fit into a token. -/
def headToken (text : Str) (cut : Nat × Nat) : Str := (slice text cut.1 cut.2).take kMaxTokenLength

/-- No run goes over this offset. -/
def Boundary (text : Str) (offset : Nat) : Prop :=
  ∀ i, i + 1 = offset → within text i = true → within text offset = false

theorem Runs.skip {offset : Nat} {cuts : List (Nat × Nat)} (h : Runs text (offset + 1) cuts)
    (hout : within text offset = false) : Runs text offset cuts := by
  refine ⟨h.ordered, fun start stop => ?_⟩
  rw [h.maximal]
  constructor
  · intro hrun
    exact ⟨by omega, hrun.2⟩
  · intro hrun
    refine ⟨Nat.lt_of_le_of_ne hrun.1 ?_, hrun.2⟩
    rintro rfl
    have hin := hrun.2.inside _ le_rfl hrun.2.nonempty
    rw [hout] at hin
    cases hin

theorem Runs.cons {start stop : Nat} {cuts : List (Nat × Nat)} (h : Runs text stop cuts)
    (hrun : MaximalRun text start stop) : Runs text start ((start, stop) :: cuts) := by
  have hlater : ∀ cut ∈ cuts, stop < cut.1 := by
    intro cut hcut
    obtain ⟨hle, hmaximal⟩ := (h.maximal cut.1 cut.2).mp hcut
    refine Nat.lt_of_le_of_ne hle ?_
    intro heq
    have hin := hmaximal.inside cut.1 le_rfl hmaximal.nonempty
    rw [← heq, hrun.right] at hin
    cases hin
  refine ⟨List.pairwise_cons.mpr ⟨hlater, h.ordered⟩, fun first last => ?_⟩
  rw [List.mem_cons, h.maximal]
  constructor
  · rintro (heq | hmore)
    · cases heq
      exact ⟨le_rfl, hrun⟩
    · exact ⟨hrun.nonempty.le.trans hmore.1, hmore.2⟩
  · intro hmore
    by_cases hle : stop ≤ first
    · exact Or.inr ⟨hle, hmore.2⟩
    · have hfirst : first = start := by
        by_contra hne
        obtain ⟨i, rfl⟩ : ∃ i, first = i + 1 := ⟨first - 1, by omega⟩
        have hout := hmore.2.left i rfl
        rw [hrun.inside i (by omega) (by omega)] at hout
        cases hout
      have hlast : last = stop := by
        subst hfirst
        rcases Nat.lt_trichotomy last stop with hlt | heq | hlt
        · have hin := hrun.inside last hmore.2.nonempty.le hlt
          rw [hmore.2.right] at hin
          cases hin
        · exact heq
        · have hin := hmore.2.inside stop hrun.nonempty.le hlt
          rw [hrun.right] at hin
          cases hin
      exact Or.inl (by rw [hfirst, hlast])

theorem slice_append (pre token behind : Str) :
    slice (pre ++ (token ++ behind)) pre.length (pre.length + token.length) = token := by
  rw [slice, List.drop_left, Nat.add_sub_cancel_left, List.take_left]

/-- The text that runs cover, without what is between them. -/
def covered (text : Str) (cuts : List (Nat × Nat)) : Str := cuts.flatMap fun cut => slice text cut.1 cut.2

theorem tokenize_runs (rest : Str) : ∀ pre : Str, Boundary (pre ++ rest) pre.length →
    ∃ cuts, Runs (pre ++ rest) pre.length cuts ∧ tokenize rest = cuts.map (headToken (pre ++ rest)) ∧
      (covered (pre ++ rest) cuts).filter isWord = rest.filter isWord := by
  induction rest using tokenize_induction with
  | nil =>
    intro pre _
    refine ⟨[], ⟨List.Pairwise.nil, fun start stop => ?_⟩, rfl, rfl⟩
    refine iff_of_false List.not_mem_nil fun h => ?_
    have hin := h.2.inside start le_rfl h.2.nonempty
    rw [within_end _ (by simpa using h.1)] at hin
    cases hin
  | separator c rest hc ih =>
    intro pre hboundary
    have hout : within (pre ++ c :: rest) pre.length = false := by
      by_contra hne
      rw [Bool.not_eq_false] at hne
      obtain ⟨i, hi, hbefore⟩ := within_separator hc hne
      rw [hboundary i hi hbefore] at hne
      cases hne
    obtain ⟨cuts, hruns, htokens, hwords⟩ := ih (pre ++ [c]) (by
      intro i hi hin
      rw [List.length_append, List.length_singleton, Nat.add_right_cancel_iff] at hi
      rw [hi, List.append_assoc, List.singleton_append, hout] at hin
      cases hin)
    rw [List.append_assoc, List.singleton_append] at hruns htokens hwords
    rw [List.length_append, List.length_singleton] at hruns
    refine ⟨cuts, hruns.skip hout, ?_, ?_⟩
    · rw [tokenize_separator hc, htokens]
    · rw [hwords, List.filter_cons_of_neg (by simp [hc])]
  | word c rest hc ih =>
    intro pre hboundary
    obtain ⟨hinside, hstop⟩ := scanToken_within rest pre c
    have happend := scanToken_append rest c
    generalize htoken : (scanToken c rest).1 = token at hinside hstop happend
    generalize hbehind : (scanToken c rest).2 = behind at happend ih
    subst happend
    have hword := within_word pre (token ++ behind) hc
    have hrun : MaximalRun (pre ++ c :: (token ++ behind)) pre.length (pre.length + token.length + 1) := by
      refine ⟨by omega, fun i hle hlt => ?_, fun i hi => ?_, hstop⟩
      · rcases Nat.eq_or_lt_of_le hle with rfl | hlt'
        · exact hword
        · exact hinside i hlt' (by omega)
      · by_contra hne
        rw [hboundary i hi (by simpa using hne)] at hword
        cases hword
    have hslice : slice (pre ++ c :: (token ++ behind)) pre.length (pre.length + token.length + 1) = c :: token :=
      slice_append pre (c :: token) behind
    have hsplit : pre ++ c :: (token ++ behind) = (pre ++ c :: token) ++ behind := by simp
    have hlength : (pre ++ c :: token).length = pre.length + token.length + 1 := by
      rw [List.length_append, List.length_cons, Nat.add_assoc]
    obtain ⟨cuts, hruns, htokens, hwords⟩ := ih (pre ++ c :: token) (by
      intro i _ _
      rw [hlength, ← hsplit]
      exact hstop)
    rw [← hsplit] at hruns htokens hwords
    rw [hlength] at hruns
    refine ⟨_, hruns.cons hrun, ?_, ?_⟩
    · rw [tokenize_word hc, hbehind, htoken, htokens, List.map_cons, headToken, hslice]
    · rw [covered, List.flatMap_cons, hslice, List.filter_append, ← List.cons_append, List.filter_append]
      exact congrArg _ hwords

/-- The runs of a text are the only ones. -/
theorem Runs.unique {offset : Nat} {cuts cuts' : List (Nat × Nat)} (h : Runs text offset cuts)
    (h' : Runs text offset cuts') : cuts = cuts' := by
  have hnonempty : ∀ {l}, Runs text offset l → ∀ cut ∈ l, cut.1 < cut.2 := fun hl cut hcut =>
    ((hl.maximal cut.1 cut.2).mp hcut).2.nonempty
  have hnodup : ∀ {l}, Runs text offset l → l.Nodup := fun hl =>
    hl.ordered.imp_of_mem fun {a b} ha _ hlt heq => by
      have hpos := hnonempty hl a ha
      rw [← heq] at hlt
      omega
  have hperm : cuts.Perm cuts' := (List.perm_ext_iff_of_nodup (hnodup h) (hnodup h')).mpr fun cut =>
    (h.maximal cut.1 cut.2).trans (h'.maximal cut.1 cut.2).symm
  refine hperm.eq_of_pairwise (fun a b ha hb hab hba => ?_) h.ordered h'.ordered
  have hapos := hnonempty h a ha
  have hbpos := hnonempty h' b hb
  omega

theorem MaximalRun.length_slice {start stop : Nat} (h : MaximalRun text start stop) :
    (slice text start stop).length = stop - start := by
  have hstop : stop ≤ text.length := by
    by_contra hlt
    have hin := h.inside (stop - 1) (by have := h.nonempty; omega) (by have := h.nonempty; omega)
    rw [within_end _ (by omega)] at hin
    cases hin
  rw [slice, List.length_take, List.length_drop]
  omega

/-- What is cut off a run that is too long is in no token. -/
theorem length_tokens_lt {cuts : List (Nat × Nat)} {cut : Nat × Nat} (hcut : cut ∈ cuts)
    (hrun : MaximalRun text cut.1 cut.2) (hlong : kMaxTokenLength < cut.2 - cut.1) :
    (cuts.map (headToken text)).flatten.length < (covered text cuts).length := by
  rw [covered, List.length_flatten, List.map_map, List.length_flatMap]
  refine List.sum_lt_sum _ _ (fun cut _ => List.length_take_le' _ _) ⟨cut, hcut, ?_⟩
  change (headToken text cut).length < (slice text cut.1 cut.2).length
  rw [headToken, List.length_take, hrun.length_slice]
  omega

theorem headToken_eq {cut : Nat × Nat} (hrun : MaximalRun text cut.1 cut.2)
    (hfits : cut.2 - cut.1 ≤ kMaxTokenLength) : headToken text cut = slice text cut.1 cut.2 := by
  rw [headToken, List.take_of_length_le]
  rw [hrun.length_slice]
  exact hfits

theorem splits_of_fits {cut : Nat × Nat} (hrun : MaximalRun text cut.1 cut.2) (hfits : cut.2 - cut.1 ≤ kMaxTokenLength) :
    Cut.Splits text ⟨cut.1, cut.2, [slice text cut.1 cut.2]⟩ := by
  have hlength := hrun.length_slice
  have hpos := hrun.nonempty
  refine ⟨List.flatten_singleton, ?_, ?_, fun _ => rfl⟩
  · rw [List.forall_mem_singleton]
    exact List.ne_nil_of_length_pos (by omega)
  · rw [List.forall_mem_singleton, hlength]
    exact hfits

/-- The tokens are as they should be unless a run is too long for one token. -/
theorem tokenize_segmented_iff (text : Str) :
    Segmented text (tokenize text) ↔
      ∀ start stop, MaximalRun text start stop → stop - start ≤ kMaxTokenLength := by
  obtain ⟨cuts, hruns, htokens, hwords⟩ := tokenize_runs text [] (fun i hi => by cases hi)
  rw [List.nil_append] at hruns htokens hwords
  have hmaximal : ∀ cut ∈ cuts, MaximalRun text cut.1 cut.2 := fun cut hcut =>
    ((hruns.maximal cut.1 cut.2).mp hcut).2
  constructor
  · intro hsegmented start stop hrun
    obtain ⟨split, hsplit, hwhole, heq⟩ := hsegmented.runs
    have hcuts := hruns.unique hsplit
    have hflatten : (cuts.map (headToken text)).flatten = covered text cuts := by
      rw [← htokens, heq, List.flatMap_def, List.flatten_flatten, List.map_map, hcuts, covered, List.flatMap_map,
        ← List.flatMap_def]
      exact List.flatMap_congr fun cut hcut => (hwhole cut hcut).whole
    by_contra hlong
    have hlt := length_tokens_lt ((hruns.maximal start stop).mpr ⟨Nat.zero_le _, hrun⟩) hrun (not_le.mp hlong)
    rw [hflatten] at hlt
    exact lt_irrefl _ hlt
  · intro hshort
    have hwhole : ∀ cut ∈ cuts, headToken text cut = slice text cut.1 cut.2 := fun cut hcut =>
      headToken_eq (hmaximal cut hcut) (hshort _ _ (hmaximal cut hcut))
    have hsame : tokenize text = cuts.map fun cut => slice text cut.1 cut.2 := by
      rw [htokens]
      exact List.map_congr_left hwhole
    refine ⟨?_, cuts.map fun cut => ⟨cut.1, cut.2, [slice text cut.1 cut.2]⟩, ?_, ?_, ?_⟩
    · rw [hsame, ← List.flatMap_def]
      exact hwords
    · rw [List.map_map]
      exact (List.map_id cuts).symm ▸ hruns
    · intro cut hcut
      obtain ⟨run, hrun, rfl⟩ := List.mem_map.mp hcut
      exact splits_of_fits (hmaximal run hrun) (hshort _ _ (hmaximal run hrun))
    · rw [hsame, List.flatMap_map, List.map_eq_flatMap]

/-- One run of 256 letters loses its last. -/
theorem long_run_loses_tail : ¬ Segmented (List.replicate 256 0x61) (tokenize (List.replicate 256 0x61)) := by
  intro h
  have hlength := congrArg List.length h.words
  revert hlength
  decide +kernel

end CascadeSearch.Index.Segmentation
