import CascadeSearch.Index.Porter

/-!
# Text analysis (`analyzer.cc`)

Tokenising, possessive stripping, lowercasing, stopwords and stemming, shared by
the builder and the query path. Bytes are classified as in the C locale. A
position inside the text is the list of bytes from it on, with the byte before.
-/
namespace CascadeSearch.Index.Analyzer

open Format Porter

def isDigit (c : Byte) : Bool := 0x30 ≤ c.val && c.val ≤ 0x39
def isUpper (c : Byte) : Bool := 0x41 ≤ c.val && c.val ≤ 0x5A
def isLower (c : Byte) : Bool := 0x61 ≤ c.val && c.val ≤ 0x7A
def isAlpha (c : Byte) : Bool := isUpper c || isLower c
def isAlnum (c : Byte) : Bool := isAlpha c || isDigit c
def isSpace (c : Byte) : Bool := (9 ≤ c.val && c.val ≤ 13) || c.val == 32
def toLower (c : Byte) : Byte := if isUpper c then c + 0x20 else c

def kMaxTokenLength : Nat := 255

/-- Lucene's `ENGLISH_STOP_WORDS_SET`. -/
def stopwords : List Str :=
  ["a", "an", "and", "are", "as", "at", "be", "but", "by", "for", "if",
   "in", "into", "is", "it", "no", "not", "of", "on", "or", "such", "that",
   "the", "their", "then", "there", "these", "they", "this", "to", "was",
   "will", "with"].map lit

/-- A byte of a word: alphanumeric, or part of a multibyte character. -/
def isWord (c : Byte) : Bool := isAlnum c || 0x80 ≤ c.val

/-- An interior separator only continues the token if both neighbours match. -/
def continues (prev ch : Byte) (next : Option Byte) : Bool :=
  match next with
  | none => false
  | some next =>
      (ch == 0x27 && isAlpha prev && isAlpha next) ||
        ((ch == 0x2E || ch == 0x2C) && isDigit prev && isDigit next)

/-- The inner loop, after the token's first byte: the rest of the token and the
text behind it. -/
def scanToken : (prev : Byte) → (text : Str) → Str × Str
  | _, [] => ([], [])
  | prev, ch :: text =>
      if isWord ch || continues prev ch text.head? then
        let (token, rest) := scanToken ch text
        (ch :: token, rest)
      else ([], ch :: text)

/-- The outer loop; every round consumes at least one byte. -/
def tokenizeFrom : (rounds : Nat) → (text : Str) → List Str
  | 0, _ => []
  | _ + 1, [] => []
  | rounds + 1, c :: text =>
      if !isWord c then tokenizeFrom rounds text
      else
        let (token, rest) := scanToken c text
        (c :: token).take kMaxTokenLength :: tokenizeFrom rounds rest

def tokenize (text : Str) : List Str := tokenizeFrom text.length text

/-- Strip a trailing `'s`. -/
def stripPossessive (token : Str) : Str :=
  let n := token.length
  if n < 3 then token
  else
    let last := token.getD (n - 1) 0
    let prev := token.getD (n - 2) 0
    if (last == 0x73 || last == 0x53) && prev == 0x27 then token.take (n - 2) else token

/-- What `analyze` does to one token. -/
def analyzeToken (token : Str) : Option Str :=
  let token := stripPossessive token
  if token = [] then none
  else
    let token := token.map toLower
    if token ∈ stopwords then none else some (stem token)

def analyze (text : Str) : List Str := (tokenize text).filterMap analyzeToken

example : analyze (lit "The Foxes' don't, 3.14") = [lit "fox", lit "don't", lit "3.14"] := by
  decide +kernel

theorem scanToken_append (text : Str) :
    ∀ prev, (scanToken prev text).1 ++ (scanToken prev text).2 = text := by
  induction text with
  | nil => intro prev; rfl
  | cons ch text ih =>
    intro prev
    rw [scanToken]
    split
    · exact congrArg (ch :: ·) (ih ch)
    · rfl

theorem scanToken_length (prev : Byte) (text : Str) : (scanToken prev text).2.length ≤ text.length := by
  have h := congrArg List.length (scanToken_append text prev)
  rw [List.length_append] at h
  omega

/-- Spare rounds change nothing. -/
theorem tokenizeFrom_eq (text : Str) :
    ∀ {rounds}, text.length ≤ rounds → tokenizeFrom rounds text = tokenize text := by
  have hmore : ∀ n, ∀ text : Str, text.length ≤ n → ∀ {r r'}, text.length ≤ r → text.length ≤ r' →
      tokenizeFrom r text = tokenizeFrom r' text := by
    intro n
    induction n with
    | zero =>
      intro text hn r r' _ _
      obtain rfl : text = [] := List.length_eq_zero_iff.mp (by omega)
      cases r <;> cases r' <;> rfl
    | succ n ih =>
      intro text hn r r' hr hr'
      cases text with
      | nil => cases r <;> cases r' <;> rfl
      | cons c text =>
        simp only [List.length_cons] at hn hr hr'
        obtain ⟨r, rfl⟩ : ∃ m, r = m + 1 := ⟨r - 1, by omega⟩
        obtain ⟨r', rfl⟩ : ∃ m, r' = m + 1 := ⟨r' - 1, by omega⟩
        have hrest := scanToken_length c text
        rw [tokenizeFrom, tokenizeFrom]
        split
        · exact ih text (by omega) (by omega) (by omega)
        · exact congrArg _ (ih _ (by omega) (by omega) (by omega))
  intro rounds h
  exact hmore text.length text le_rfl h le_rfl

theorem tokenize_separator {c : Byte} (h : isWord c = false) (text : Str) :
    tokenize (c :: text) = tokenize text := by
  rw [tokenize, List.length_cons, tokenizeFrom, h]
  rfl

theorem tokenize_word {c : Byte} (h : isWord c = true) (text : Str) :
    tokenize (c :: text) =
      (c :: (scanToken c text).1).take kMaxTokenLength :: tokenize (scanToken c text).2 := by
  rw [tokenize, List.length_cons, tokenizeFrom, h, ← tokenizeFrom_eq _ (scanToken_length c text)]
  rfl

/-- Induction along the tokens of a text. -/
theorem tokenize_induction {motive : Str → Prop} (nil : motive [])
    (separator : ∀ c text, isWord c = false → motive text → motive (c :: text))
    (word : ∀ c text, isWord c = true → motive (scanToken c text).2 → motive (c :: text)) :
    ∀ text, motive text := by
  intro text
  induction hn : text.length using Nat.strong_induction_on generalizing text with
  | h n ih =>
    cases text with
    | nil => exact nil
    | cons c text =>
      rw [List.length_cons] at hn
      cases hc : isWord c with
      | false => exact separator c text hc (ih text.length (by omega) text rfl)
      | true =>
        have hrest := scanToken_length c text
        exact word c text hc (ih _ (by omega) _ rfl)

/-- A byte that ends every token: no word byte and no interior separator. -/
def Splits (c : Byte) : Prop := isWord c = false ∧ c ≠ 0x27 ∧ c ≠ 0x2E ∧ c ≠ 0x2C

theorem continues_splits {c : Byte} (h : Splits c) (prev : Byte) (next : Option Byte) :
    continues prev c next = false := by
  obtain ⟨-, h1, h2, h3⟩ := h
  cases next <;> simp [continues, h1, h2, h3]

theorem word_of_alnum {c : Byte} (h : isAlpha c = true ∨ isDigit c = true) : isWord c = true := by
  rcases h with h | h <;> simp [isWord, isAlnum, h]

/-- A following byte that is no word byte cannot continue a separator. -/
theorem continues_next {c : Byte} (h : isWord c = false) (prev ch : Byte) :
    continues prev ch (some c) = false := by
  have ha : isAlpha c = false := by
    by_contra hne
    rw [word_of_alnum (Or.inl (by simpa using hne))] at h
    cases h
  have hd : isDigit c = false := by
    by_contra hne
    rw [word_of_alnum (Or.inr (by simpa using hne))] at h
    cases h
  simp [continues, ha, hd]

theorem scanToken_split {c : Byte} (h : Splits c) (b : Str) (a : Str) :
    ∀ prev, scanToken prev (a ++ c :: b) =
      ((scanToken prev a).1, (scanToken prev a).2 ++ c :: b) := by
  induction a with
  | nil =>
    intro prev
    rw [List.nil_append, scanToken.eq_2, h.1, continues_splits h]
    rfl
  | cons ch a ih =>
    intro prev
    have hnext : continues prev ch (a ++ c :: b).head? = continues prev ch a.head? := by
      cases a with
      | nil => exact continues_next h.1 prev ch
      | cons x a => rfl
    rw [List.cons_append, scanToken, scanToken, hnext]
    split
    · rw [ih ch]
    · rfl

theorem tokenize_split {c : Byte} (h : Splits c) (a b : Str) :
    tokenize (a ++ c :: b) = tokenize a ++ tokenize b := by
  induction a using tokenize_induction with
  | nil =>
    rw [List.nil_append, tokenize_separator h.1]
    rfl
  | separator x a hx ih =>
    rw [List.cons_append, tokenize_separator hx, tokenize_separator hx, ih]
  | word x a hx ih =>
    rw [List.cons_append, tokenize_word hx, tokenize_word hx, scanToken_split h b a x]
    dsimp only
    rw [ih, List.cons_append]

theorem toLower_classes : ∀ c : Byte, isAlpha (toLower c) = isAlpha c ∧
    isDigit (toLower c) = isDigit c ∧ isWord (toLower c) = isWord c ∧
    isSpace (toLower c) = isSpace c ∧ toLower (toLower c) = toLower c := by
  decide +kernel

theorem toLower_marks : ∀ c : Byte, (toLower c = 0x27 ↔ c = 0x27) ∧ (toLower c = 0x2E ↔ c = 0x2E) ∧
    (toLower c = 0x2C ↔ c = 0x2C) ∧ (toLower c = 0x73 ∨ toLower c = 0x53 ↔ c = 0x73 ∨ c = 0x53) := by
  decide +kernel

theorem isSpace_splits : ∀ c : Byte, isSpace c = true → Splits c := by
  unfold Splits
  decide +kernel

theorem analyzeToken_map_toLower (token : Str) :
    analyzeToken (token.map toLower) = analyzeToken token := by
  have hstrip : stripPossessive (token.map toLower) = (stripPossessive token).map toLower := by
    unfold stripPossessive
    dsimp only
    rw [List.length_map]
    by_cases hn : token.length < 3
    · rw [if_pos hn, if_pos hn]
    · have hget : ∀ i < token.length, (token.map toLower).getD i 0 = toLower (token.getD i 0) := by
        intro i hi
        rw [List.getD_eq_getElem _ _ (by rw [List.length_map]; exact hi),
          List.getD_eq_getElem _ _ hi, List.getElem_map]
      rw [if_neg hn, if_neg hn, hget _ (by omega), hget _ (by omega)]
      have hlast := (toLower_marks (token.getD (token.length - 1) 0)).2.2.2
      have hprev := (toLower_marks (token.getD (token.length - 2) 0)).1
      simp only [Bool.and_eq_true, Bool.or_eq_true, beq_iff_eq, hlast, hprev]
      split
      · exact List.map_take.symm
      · rfl
  have hnil : (stripPossessive token).map toLower = [] ↔ stripPossessive token = [] :=
    List.map_eq_nil_iff
  have htwice : ((stripPossessive token).map toLower).map toLower =
      (stripPossessive token).map toLower := by
    rw [List.map_map]
    exact List.map_congr_left fun c _ => (toLower_classes c).2.2.2.2
  unfold analyzeToken
  dsimp only
  rw [hstrip, htwice]
  by_cases h : stripPossessive token = []
  · rw [if_pos (hnil.mpr h), if_pos h]
  · rw [if_neg (fun hh => h (hnil.mp hh)), if_neg h]

theorem length_token_le {text : Str} {token : Str} (h : token ∈ tokenize text) :
    token.length ≤ kMaxTokenLength := by
  induction text using tokenize_induction with
  | nil => cases h
  | separator c text hc ih =>
    rw [tokenize_separator hc] at h
    exact ih h
  | word c text hc ih =>
    rw [tokenize_word hc] at h
    rcases List.mem_cons.mp h with rfl | h
    · exact List.length_take_le _ _
    · exact ih h

theorem length_term_le {text term : Str} (h : term ∈ analyze text) :
    term.length ≤ kMaxTokenLength := by
  obtain ⟨token, htoken, hterm⟩ := List.mem_filterMap.mp h
  have hlen := length_token_le htoken
  have hstrip : (stripPossessive token).length ≤ token.length := by
    unfold stripPossessive
    dsimp only
    split
    · exact le_rfl
    · split
      · exact List.length_take_le' _ _
      · exact le_rfl
  unfold analyzeToken at hterm
  dsimp only at hterm
  split at hterm
  · cases hterm
  · split at hterm
    · cases hterm
    · cases hterm
      have hstem := length_stem_le ((stripPossessive token).map toLower)
      rw [List.length_map] at hstem
      omega

end CascadeSearch.Index.Analyzer
