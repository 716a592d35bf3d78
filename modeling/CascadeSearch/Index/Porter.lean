import CascadeSearch.Index.Format

/-!
# Porter stemmer (`porter.cc`)

The working buffer, the index `k` of its last character and the scratch offset
`j` are passed from step to step. Offsets are `int`s. A read outside the buffer,
a `compare` or `replace` at a position past its end, is `none`.
-/
namespace CascadeSearch.Index.Porter

open Format

/-- The bytes of a string literal. -/
def lit (s : String) : Str := s.toList.map (fun c => Fin.ofNat 256 c.toNat)

structure Stemmer where
  b : Str
  k : Int
  j : Int
deriving DecidableEq

/-- `consonant(i)` for `0 <= i`. -/
def consonantAt (b : Str) : Nat → Option Bool
  | 0 => (b[0]?).map fun c =>
      match Char.ofNat c.val with
      | 'a' | 'e' | 'i' | 'o' | 'u' => false
      | _ => true
  | i + 1 => (b[i + 1]?).bind fun c =>
      match Char.ofNat c.val with
      | 'a' | 'e' | 'i' | 'o' | 'u' => some false
      | 'y' => (consonantAt b i).map not
      | _ => some true

/-- The loops of `measure` over the `left` characters from `i` on; `inVowels` is
true in the loop that looks for a consonant. -/
def measureFrom (b : Str) : (left : Nat) → (inVowels : Bool) → (i n : Nat) → Option Nat
  | 0, _, _, n => some n
  | left + 1, inVowels, i, n => do
      let consonant ← consonantAt b i
      measureFrom b left (!consonant) (i + 1) (if inVowels && consonant then n + 1 else n)

def vowelFrom (b : Str) : (left i : Nat) → Option Bool
  | 0, _ => some false
  | left + 1, i => do
      if ← consonantAt b i then vowelFrom b left (i + 1) else some true

namespace Stemmer

/-- `b[i]`. -/
def read (s : Stemmer) (i : Int) : Option Char :=
  if i < 0 then none else (s.b[i.toNat]?).map (fun c => Char.ofNat c.val)

def consonant (s : Stemmer) (i : Int) : Option Bool :=
  if i < 0 then none else consonantAt s.b i.toNat

/-- Number of vowel-consonant sequences between 0 and `j`. -/
def measure (s : Stemmer) : Option Nat := measureFrom s.b (s.j + 1).toNat false 0 0

def vowelInStem (s : Stemmer) : Option Bool := vowelFrom s.b (s.j + 1).toNat 0

def doubleConsonant (s : Stemmer) (i : Int) : Option Bool := do
  if i < 1 then some false
  else if (← s.read i) ≠ (← s.read (i - 1)) then some false
  else s.consonant i

/-- Consonant-vowel-consonant, where the last is not w, x or y. -/
def cvc (s : Stemmer) (i : Int) : Option Bool := do
  if i < 2 then some false
  else if !(← s.consonant i) then some false
  else if ← s.consonant (i - 1) then some false
  else if !(← s.consonant (i - 2)) then some false
  else
    let ch ← s.read i
    some (!(ch = 'w' ∨ ch = 'x' ∨ ch = 'y'))

/-- Whether the word ends in `suffix`; if so, `j` is set before it. -/
def ends (suffix : Str) (s : Stemmer) : Option (Bool × Stemmer) :=
  let len : Int := suffix.length
  if s.k + 1 < len then some (false, s)
  else
    let pos := s.k - len + 1
    if (s.b.length : Int) < pos then none
    else if (s.b.drop pos.toNat).take suffix.length ≠ suffix then some (false, s)
    else some (true, { s with j := s.k - len })

def setto (suffix : Str) (s : Stemmer) : Option Stemmer :=
  let pos := s.j + 1
  if pos < 0 ∨ (s.b.length : Int) < pos then none
  else some { b := s.b.take pos.toNat ++ suffix, k := s.j + suffix.length, j := s.j }

def r (suffix : Str) (s : Stemmer) : Option Stemmer := do
  if 0 < (← s.measure) then s.setto suffix else some s

/-- `if (ends(..)) { r(..); break; }` down a list. -/
def replaceFirst : List (String × String) → Stemmer → Option Stemmer
  | [], s => some s
  | (suffix, replacement) :: rules, s => do
      let (hit, s) ← s.ends (lit suffix)
      if hit then s.r (lit replacement) else replaceFirst rules s

/-- `if (ends(..)) break;` down a list. -/
def endsAny : List String → Stemmer → Option (Bool × Stemmer)
  | [], s => some (false, s)
  | suffix :: suffixes, s => do
      let (hit, s) ← s.ends (lit suffix)
      if hit then some (true, s) else endsAny suffixes s

/-- The plural half of `step1ab`. -/
def plurals (s : Stemmer) : Option Stemmer := do
  if (← s.read s.k) = 's' then
    let (hit, s) ← s.ends (lit "sses")
    if hit then some { s with k := s.k - 2 }
    else
      let (hit, s) ← s.ends (lit "ies")
      if hit then s.setto (lit "i")
      else if (← s.read (s.k - 1)) ≠ 's' then some { s with k := s.k - 1 }
      else some s
  else some s

/-- What follows the removal of `-ed` or `-ing`. -/
def repair (s : Stemmer) : Option Stemmer := do
  let s := { s with k := s.j }
  let (hit, s) ← s.ends (lit "at")
  if hit then s.setto (lit "ate")
  else
    let (hit, s) ← s.ends (lit "bl")
    if hit then s.setto (lit "ble")
    else
      let (hit, s) ← s.ends (lit "iz")
      if hit then s.setto (lit "ize")
      else if ← s.doubleConsonant s.k then
        let s := { s with k := s.k - 1 }
        let ch ← s.read s.k
        if ch = 'l' ∨ ch = 's' ∨ ch = 'z' then some { s with k := s.k + 1 } else some s
      else if (← s.measure) = 1 then
        if ← s.cvc s.k then s.setto (lit "e") else some s
      else some s

/-- Plurals and -ed / -ing. -/
def step1ab (s : Stemmer) : Option Stemmer := do
  let s ← s.plurals
  let (hit, s) ← s.ends (lit "eed")
  if hit then
    if 0 < (← s.measure) then some { s with k := s.k - 1 } else some s
  else
    let (hit, s) ← s.endsAny ["ed", "ing"]
    if hit then
      if ← s.vowelInStem then s.repair else some s
    else some s

/-- Terminal y to i when there is another vowel in the stem. -/
def step1c (s : Stemmer) : Option Stemmer := do
  let (hit, s) ← s.ends (lit "y")
  if hit then
    if ← s.vowelInStem then
      if s.k < 0 ∨ (s.b.length : Int) ≤ s.k then none
      else some { s with b := s.b.set s.k.toNat (Fin.ofNat 256 'i'.toNat) }
    else some s
  else some s

/-- Double suffixes to single ones. -/
def step2 (s : Stemmer) : Option Stemmer :=
  if s.k = 0 then some s
  else (s.read (s.k - 1)).bind fun ch =>
    match ch with
    | 'a' => s.replaceFirst [("ational", "ate"), ("tional", "tion")]
    | 'c' => s.replaceFirst [("enci", "ence"), ("anci", "ance")]
    | 'e' => s.replaceFirst [("izer", "ize")]
    | 'l' => s.replaceFirst
        [("bli", "ble"), ("alli", "al"), ("entli", "ent"), ("eli", "e"), ("ousli", "ous")]
    | 'o' => s.replaceFirst [("ization", "ize"), ("ation", "ate"), ("ator", "ate")]
    | 's' => s.replaceFirst
        [("alism", "al"), ("iveness", "ive"), ("fulness", "ful"), ("ousness", "ous")]
    | 't' => s.replaceFirst [("aliti", "al"), ("iviti", "ive"), ("biliti", "ble")]
    | 'g' => s.replaceFirst [("logi", "log")]
    | _ => some s

def step3 (s : Stemmer) : Option Stemmer :=
  (s.read s.k).bind fun ch =>
  match ch with
  | 'e' => s.replaceFirst [("icate", "ic"), ("ative", ""), ("alize", "al")]
  | 'i' => s.replaceFirst [("iciti", "ic")]
  | 'l' => s.replaceFirst [("ical", "ic"), ("ful", "")]
  | 's' => s.replaceFirst [("ness", "")]
  | _ => some s

/-- `ends("ion") && j >= 0 && (b[j] == 's' || b[j] == 't')`, else `ends("ou")`. -/
def endsIonOu (s : Stemmer) : Option (Bool × Stemmer) := do
  let (hit, s) ← s.ends (lit "ion")
  if hit ∧ 0 ≤ s.j then
    let ch ← s.read s.j
    if ch = 's' ∨ ch = 't' then some (true, s) else s.endsAny ["ou"]
  else s.endsAny ["ou"]

/-- The suffix `step4` may remove. -/
def step4Suffix (s : Stemmer) : Option (Bool × Stemmer) :=
  (s.read (s.k - 1)).bind fun ch =>
  match ch with
  | 'a' => s.endsAny ["al"]
  | 'c' => s.endsAny ["ance", "ence"]
  | 'e' => s.endsAny ["er"]
  | 'i' => s.endsAny ["ic"]
  | 'l' => s.endsAny ["able", "ible"]
  | 'n' => s.endsAny ["ant", "ement", "ment", "ent"]
  | 'o' => s.endsIonOu
  | 's' => s.endsAny ["ism"]
  | 't' => s.endsAny ["ate", "iti"]
  | 'u' => s.endsAny ["ous"]
  | 'v' => s.endsAny ["ive"]
  | 'z' => s.endsAny ["ize"]
  | _ => some (false, s)

/-- Remaining suffixes when the measure is greater than 1. -/
def step4 (s : Stemmer) : Option Stemmer := do
  if s.k = 0 then some s
  else
    let (hit, s) ← s.step4Suffix
    if hit then
      if 1 < (← s.measure) then some { s with k := s.j } else some s
    else some s

/-- Terminal -e. -/
def terminalE (s : Stemmer) : Option Stemmer := do
  if (← s.read s.k) = 'e' then
    let a ← s.measure
    if 1 < a then some { s with k := s.k - 1 }
    else if a = 1 then
      if ← s.cvc (s.k - 1) then some s else some { s with k := s.k - 1 }
    else some s
  else some s

/-- -ll to -l. -/
def doubleL (s : Stemmer) : Option Stemmer := do
  if (← s.read s.k) = 'l' then
    if ← s.doubleConsonant s.k then
      if 1 < (← s.measure) then some { s with k := s.k - 1 } else some s
    else some s
  else some s

def step5 (s : Stemmer) : Option Stemmer := do
  let s ← terminalE { s with j := s.k }
  s.doubleL

end Stemmer

/-- `static_cast<int>` of a size. -/
def toInt (n : Nat) : Int :=
  let low : Nat := n % 2 ^ 32
  if low < 2 ^ 31 then low else low - 2 ^ 32

/-- The body of `stem`; `resize` pads with zero bytes where it grows. -/
def stem? (word : Str) : Option Str :=
  if word.length ≤ 2 then some word
  else do
    let s ← Stemmer.step1ab { b := word, k := toInt word.length - 1, j := 0 }
    let s ← s.step1c
    let s ← s.step2
    let s ← s.step3
    let s ← s.step4
    let s ← s.step5
    let size := (s.k + 1).toNat
    some (s.b.take size ++ List.replicate (size - s.b.length) 0)

def stem (word : Str) : Str := (stem? word).getD word

example : stem (lit "relational") = lit "relat" := by decide +kernel
example : stem (lit "hopping") = lit "hop" := by decide +kernel

namespace Stemmer

variable {s s' : Stemmer}

theorem ends_spec {suffix : Str} {hit : Bool} (h : s.ends suffix = some (hit, s')) :
    s'.k = s.k ∧ (hit = true → s'.j = s.k - suffix.length) ∧ (hit = false → s' = s) := by
  unfold ends at h
  dsimp only at h
  split at h
  · cases h
    exact ⟨rfl, by simp, fun _ => rfl⟩
  · split at h
    · cases h
    · split at h
      · cases h
        exact ⟨rfl, by simp, fun _ => rfl⟩
      · cases h
        exact ⟨rfl, fun _ => rfl, by simp⟩

theorem endsAny_spec {suffixes : List String} {hit : Bool}
    (h : s.endsAny suffixes = some (hit, s')) :
    s'.k = s.k ∧ (hit = true → ∃ suffix ∈ suffixes, s'.j = s.k - (lit suffix).length) := by
  induction suffixes generalizing s with
  | nil =>
    cases h
    exact ⟨rfl, by simp⟩
  | cons suffix suffixes ih =>
    simp only [endsAny, Option.bind_eq_bind, Option.bind_eq_some_iff] at h
    obtain ⟨⟨first, t⟩, hends, h⟩ := h
    obtain ⟨hk, hj, -⟩ := ends_spec hends
    cases first with
    | true =>
      cases h
      exact ⟨hk, fun _ => ⟨suffix, List.mem_cons_self, hj rfl⟩⟩
    | false =>
      obtain ⟨hk', hj'⟩ := ih h
      refine ⟨hk'.trans hk, fun hh => ?_⟩
      obtain ⟨found, hmem, heq⟩ := hj' hh
      exact ⟨found, List.mem_cons_of_mem _ hmem, by rw [heq, hk]⟩

theorem setto_k {suffix : Str} (h : s.setto suffix = some s') : s'.k = s.j + suffix.length := by
  unfold setto at h
  dsimp only at h
  split at h
  · cases h
  · cases h
    rfl

theorem r_k {suffix : Str} (h : s.r suffix = some s') (hle : s.j + suffix.length ≤ s.k) :
    s'.k ≤ s.k := by
  simp only [r, Option.bind_eq_bind, Option.bind_eq_some_iff] at h
  obtain ⟨m, -, h⟩ := h
  split at h
  · rw [setto_k h]
    exact hle
  · cases h
    exact le_rfl

/-- Rules that replace a suffix by one that is no longer. -/
def Shrinks (rules : List (String × String)) : Prop :=
  ∀ rule ∈ rules, (lit rule.2).length ≤ (lit rule.1).length

instance (rules : List (String × String)) : Decidable (Shrinks rules) := by
  unfold Shrinks
  infer_instance

theorem replaceFirst_k {rules : List (String × String)} (hr : Shrinks rules)
    (h : s.replaceFirst rules = some s') : s'.k ≤ s.k := by
  induction rules generalizing s with
  | nil =>
    cases h
    exact le_rfl
  | cons rule rules ih =>
    simp only [replaceFirst, Option.bind_eq_bind, Option.bind_eq_some_iff] at h
    obtain ⟨⟨hit, t⟩, hends, h⟩ := h
    obtain ⟨hk, hj, -⟩ := ends_spec hends
    cases hit with
    | true =>
      dsimp only at h
      have hlen := hr rule List.mem_cons_self
      have := r_k h (by rw [hj rfl, hk]; omega)
      omega
    | false =>
      dsimp only at h
      have := ih (fun rule' hmem => hr rule' (List.mem_cons_of_mem _ hmem)) h
      omega

theorem plurals_k (h : s.plurals = some s') : s'.k ≤ s.k := by
  simp only [plurals, Option.bind_eq_bind, Option.bind_eq_some_iff] at h
  obtain ⟨ch, -, h⟩ := h
  split at h
  · simp only [Option.bind_eq_some_iff] at h
    obtain ⟨⟨hit, t⟩, hends, h⟩ := h
    obtain ⟨hk, -⟩ := ends_spec hends
    cases hit with
    | true =>
      cases h
      dsimp only
      omega
    | false =>
      simp only [Bool.false_eq_true, if_false, Option.bind_eq_some_iff] at h
      obtain ⟨⟨hit', u⟩, hends', h⟩ := h
      obtain ⟨hk', hj', -⟩ := ends_spec hends'
      cases hit' with
      | true =>
        have hlen : (lit "ies").length = 3 ∧ (lit "i").length = 1 := by decide
        rw [setto_k h, hj' rfl]
        omega
      | false =>
        simp only [Bool.false_eq_true, if_false, Option.bind_eq_some_iff] at h
        obtain ⟨ch', -, h⟩ := h
        split at h
        · cases h
          dsimp only
          omega
        · cases h
          omega
  · cases h
    exact le_rfl

/-- After `-ed` or `-ing` at most one character comes back. -/
theorem repair_k (h : s.repair = some s') : s'.k ≤ s.j + 1 := by
  have hrule : ∀ {t u : Stemmer} {suffix replacement : String} {hit : Bool},
      t.ends (lit suffix) = some (hit, u) → hit = true →
      (lit replacement).length ≤ (lit suffix).length + 1 →
      u.setto (lit replacement) = some s' → s'.k ≤ t.k + 1 := by
    intro t u suffix replacement hit hends hhit hlen hset
    rw [setto_k hset, (ends_spec hends).2.1 hhit]
    omega
  simp only [repair, Option.bind_eq_bind, Option.bind_eq_some_iff] at h
  obtain ⟨⟨hit, t⟩, hat, h⟩ := h
  have hk := (ends_spec hat).1
  cases hit with
  | true => exact hrule hat rfl (by decide) h
  | false =>
    simp only [Bool.false_eq_true, if_false, Option.bind_eq_some_iff] at h
    obtain ⟨⟨hit, u⟩, hbl, h⟩ := h
    have hk' := (ends_spec hbl).1
    dsimp only at hk hk'
    cases hit with
    | true =>
      have := hrule hbl rfl (by decide) h
      omega
    | false =>
      simp only [Bool.false_eq_true, if_false, Option.bind_eq_some_iff] at h
      obtain ⟨⟨hit, v⟩, hiz, h⟩ := h
      have hk'' := (ends_spec hiz).1
      cases hit with
      | true =>
        have := hrule hiz rfl (by decide) h
        omega
      | false =>
        simp only [Bool.false_eq_true, if_false, Option.bind_eq_some_iff] at h
        obtain ⟨double, -, h⟩ := h
        cases double with
        | true =>
          simp only [if_true, Option.bind_eq_some_iff] at h
          obtain ⟨ch, -, h⟩ := h
          split at h
          · cases h
            dsimp only
            omega
          · cases h
            dsimp only
            omega
        | false =>
          simp only [Bool.false_eq_true, if_false, Option.bind_eq_some_iff] at h
          obtain ⟨m, -, h⟩ := h
          obtain rfl := (ends_spec hiz).2.2 rfl
          obtain rfl := (ends_spec hbl).2.2 rfl
          obtain rfl := (ends_spec hat).2.2 rfl
          have hkeep : ∀ t, some { s with k := s.j } = some t → t.k ≤ s.j + 1 := by
            intro t ht
            cases ht
            dsimp only
            omega
          split at h
          · simp only [Option.bind_eq_some_iff] at h
            obtain ⟨found, -, h⟩ := h
            split at h
            · rw [setto_k h]
              exact le_rfl
            · exact hkeep s' h
          · exact hkeep s' h

theorem step1ab_k (h : s.step1ab = some s') : s'.k ≤ s.k := by
  simp only [step1ab, Option.bind_eq_bind, Option.bind_eq_some_iff] at h
  obtain ⟨t, hplural, ⟨hit, u⟩, heed, h⟩ := h
  have hk := plurals_k hplural
  have hk' := (ends_spec heed).1
  cases hit with
  | true =>
    simp only [if_true, Option.bind_eq_some_iff] at h
    obtain ⟨m, -, h⟩ := h
    split at h
    · cases h
      dsimp only
      omega
    · cases h
      omega
  | false =>
    simp only [Bool.false_eq_true, if_false, Option.bind_eq_some_iff] at h
    obtain ⟨⟨hit, v⟩, hed, h⟩ := h
    obtain ⟨hk'', hj⟩ := endsAny_spec hed
    have hkeep : ∀ w, some v = some w → w.k ≤ s.k := by
      intro w hw
      cases hw
      omega
    cases hit with
    | true =>
      obtain ⟨suffix, hmem, hj⟩ := hj rfl
      have hlen : ∀ suffix ∈ ["ed", "ing"], 2 ≤ (lit suffix).length := by decide
      have := hlen suffix hmem
      simp only [if_true, Option.bind_eq_some_iff] at h
      obtain ⟨found, -, h⟩ := h
      split at h
      · have := repair_k h
        omega
      · exact hkeep s' h
    | false => exact hkeep s' h

theorem step1c_k (h : s.step1c = some s') : s'.k ≤ s.k := by
  simp only [step1c, Option.bind_eq_bind, Option.bind_eq_some_iff] at h
  obtain ⟨⟨hit, t⟩, hends, h⟩ := h
  have hk := (ends_spec hends).1
  have hkeep : ∀ w, some t = some w → w.k ≤ s.k := by
    intro w hw
    cases hw
    omega
  cases hit with
  | true =>
    simp only [if_true, Option.bind_eq_some_iff] at h
    obtain ⟨found, -, h⟩ := h
    split at h
    · split at h
      · cases h
      · cases h
        dsimp only
        omega
    · exact hkeep s' h
  | false => exact hkeep s' h

theorem step2_k (h : s.step2 = some s') : s'.k ≤ s.k := by
  unfold step2 at h
  split at h
  · cases h
    exact le_rfl
  · obtain ⟨ch, -, h⟩ := Option.bind_eq_some_iff.mp h
    split at h
    all_goals first
      | exact replaceFirst_k (by decide) h
      | (cases h; exact le_rfl)

theorem step3_k (h : s.step3 = some s') : s'.k ≤ s.k := by
  obtain ⟨ch, -, h⟩ := Option.bind_eq_some_iff.mp h
  split at h
  all_goals first
    | exact replaceFirst_k (by decide) h
    | (cases h; exact le_rfl)

theorem step4Suffix_spec {hit : Bool} (h : s.step4Suffix = some (hit, s')) :
    s'.k = s.k ∧ (hit = true → s'.j ≤ s.k) := by
  have hany : ∀ {t u : Stemmer} {suffixes : List String} {hit : Bool},
      t.endsAny suffixes = some (hit, u) → u.k = t.k ∧ (hit = true → u.j ≤ t.k) := by
    intro t u suffixes hit hends
    obtain ⟨hk, hj⟩ := endsAny_spec hends
    refine ⟨hk, fun hh => ?_⟩
    obtain ⟨suffix, -, heq⟩ := hj hh
    omega
  obtain ⟨ch, -, h⟩ := Option.bind_eq_some_iff.mp h
  split at h
  case h_7 =>
    simp only [endsIonOu, Option.bind_eq_bind, Option.bind_eq_some_iff] at h
    obtain ⟨⟨ion, t⟩, hends, h⟩ := h
    obtain ⟨hk, hj, -⟩ := ends_spec hends
    have hou : ∀ {hit : Bool}, t.endsAny ["ou"] = some (hit, s') →
        s'.k = s.k ∧ (hit = true → s'.j ≤ s.k) := by
      intro hit hends
      rw [← hk]
      exact hany hends
    dsimp only at h hj
    split at h
    · rename_i hfound
      obtain ⟨c, -, h⟩ := Option.bind_eq_some_iff.mp h
      split at h
      · cases h
        refine ⟨hk, fun _ => ?_⟩
        have := hj hfound.1
        omega
      · exact hou h
    · exact hou h
  all_goals first
    | exact hany h
    | (cases h; exact ⟨rfl, by simp⟩)

theorem step4_k (h : s.step4 = some s') : s'.k ≤ s.k := by
  unfold step4 at h
  split at h
  · cases h
    exact le_rfl
  · simp only [Option.bind_eq_bind, Option.bind_eq_some_iff] at h
    obtain ⟨⟨hit, t⟩, hsuffix, h⟩ := h
    obtain ⟨hk, hj⟩ := step4Suffix_spec hsuffix
    have hkeep : ∀ w, some t = some w → w.k ≤ s.k := by
      intro w hw
      cases hw
      omega
    cases hit with
    | true =>
      simp only [if_true, Option.bind_eq_some_iff] at h
      obtain ⟨m, -, h⟩ := h
      split at h
      · cases h
        exact hj rfl
      · exact hkeep s' h
    | false => exact hkeep s' h

theorem terminalE_k (h : s.terminalE = some s') : s'.k ≤ s.k := by
  simp only [terminalE, Option.bind_eq_bind, Option.bind_eq_some_iff] at h
  obtain ⟨ch, -, h⟩ := h
  split at h
  · simp only [Option.bind_eq_some_iff] at h
    obtain ⟨m, -, h⟩ := h
    split at h
    · cases h
      dsimp only
      omega
    · split at h
      · simp only [Option.bind_eq_some_iff] at h
        obtain ⟨found, -, h⟩ := h
        split at h
        · cases h
          exact le_rfl
        · cases h
          dsimp only
          omega
      · cases h
        exact le_rfl
  · cases h
    exact le_rfl

theorem doubleL_k (h : s.doubleL = some s') : s'.k ≤ s.k := by
  simp only [doubleL, Option.bind_eq_bind, Option.bind_eq_some_iff] at h
  obtain ⟨ch, -, h⟩ := h
  split at h
  · simp only [Option.bind_eq_some_iff] at h
    obtain ⟨double, -, h⟩ := h
    split at h
    · simp only [Option.bind_eq_some_iff] at h
      obtain ⟨m, -, h⟩ := h
      split at h
      · cases h
        dsimp only
        omega
      · cases h
        exact le_rfl
    · cases h
      exact le_rfl
  · cases h
    exact le_rfl

theorem step5_k (h : s.step5 = some s') : s'.k ≤ s.k := by
  simp only [step5, Option.bind_eq_bind, Option.bind_eq_some_iff] at h
  obtain ⟨t, ht, h⟩ := h
  have hk := terminalE_k ht
  exact (doubleL_k h).trans hk

end Stemmer

theorem toInt_le (n : Nat) : toInt n ≤ n := by
  unfold toInt
  dsimp only
  split <;> omega

theorem toInt_of_lt {n : Nat} (h : n < 2 ^ 31) : toInt n = n := by
  unfold toInt
  dsimp only
  split <;> omega

/-- A stem is no longer than its word. -/
theorem length_stem_le (word : Str) : (stem word).length ≤ word.length := by
  unfold stem
  cases h : stem? word with
  | none => exact le_rfl
  | some w =>
    unfold stem? at h
    split at h
    · cases h
      exact le_rfl
    · rename_i hlen
      simp only [Option.bind_eq_bind, Option.bind_eq_some_iff] at h
      obtain ⟨s₁, h₁, s₂, h₂, s₃, h₃, s₄, h₄, s₅, h₅, s₆, h₆, h⟩ := h
      have hk₁ := Stemmer.step1ab_k h₁
      have hk₂ := Stemmer.step1c_k h₂
      have hk₃ := Stemmer.step2_k h₃
      have hk₄ := Stemmer.step3_k h₄
      have hk₅ := Stemmer.step4_k h₅
      have hk₆ := Stemmer.step5_k h₆
      cases h
      simp only [Option.getD_some, List.length_append, List.length_take, List.length_replicate]
      dsimp only at hk₁
      have := toInt_le word.length
      omega

end CascadeSearch.Index.Porter
