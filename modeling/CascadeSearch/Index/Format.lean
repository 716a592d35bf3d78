import CascadeSearch.Lib.Memory
import Mathlib.Data.Nat.Bitwise
import Mathlib.Tactic

/-!
# On-disk index layout and the shared BM25 scoring function (`index_format.h`)

Fixed-width counts are naturals reduced by `u32` where the source narrows or
wraps. Undefined behaviour of the decoder is `none`. The scoring functions are
one parameter, `Bm25`, because every float operation of the index goes through
them; `Bm25.exact` is their reading in exact rational arithmetic.
-/
namespace CascadeSearch.Index.Format

export Lib.Memory (Byte)
open Lib.Memory (Cell)

/-- `std::string`, ordered as `std::string` compares: by unsigned bytes. -/
abbrev Str := List Byte

/-- `static_cast<uint32_t>` and `uint32_t` arithmetic. -/
def u32 (n : Nat) : Nat := n % 2 ^ 32

theorem u32_of_lt {n : Nat} (h : n < 2 ^ 32) : u32 n = n := Nat.mod_eq_of_lt h

theorem u32_lt (n : Nat) : u32 n < 2 ^ 32 := Nat.mod_lt _ (by decide)

def kBlockSize : Nat := 128

structure BM25Params (S : Type) where
  k1 : S
  b : S

/-- `k1 = 0.9f`, `b = 0.4f`. -/
def BM25Params.default : BM25Params ℚ := { k1 := 9 / 10, b := 4 / 10 }

structure TermRecord (S : Type) where
  strOffset : Nat
  postOffset : Nat
  strLen : Nat
  df : Nat
  numBlocks : Nat
  maxImpact : S

structure BlockMeta (S : Type) where
  maxDocid : Nat
  count : Nat
  payloadOffset : Nat
  maxImpact : S

structure Posting where
  docid : Nat
  tf : Nat
deriving DecidableEq, Repr

/-- The four files of an index directory. -/
structure IndexFiles (S : Type) where
  docs : List (Cell S)
  terms : List (Cell S)
  post : List (Cell S)
  docids : List (Cell S)

/-- The float-valued functions of the index: `bm25_idf`, `bm25_term_score` and
the average document length. -/
structure Bm25 (S : Type) where
  bm25Idf : (docCount df : Nat) → S
  bm25TermScore : (idf : S) → (tf docLen : Nat) → (avgDl : S) → S
  avgDl : (totalLen docCount : Nat) → S

/-- The same functions in exact arithmetic, over an uninterpreted `log`. -/
def Bm25.exact (log : ℚ → ℚ) (p : BM25Params ℚ) : Bm25 ℚ where
  bm25Idf docCount df := log (1 + ((docCount : ℚ) - df + 1 / 2) / (df + 1 / 2))
  bm25TermScore idf tf docLen avgDl :=
    let norm := p.k1 * (1 - p.b + p.b * docLen / avgDl)
    idf * (tf * (p.k1 + 1)) / (tf + norm)
  avgDl totalLen docCount := totalLen / docCount

/-- `put_varint`. After four rounds a `uint32_t` is below `0x80`. -/
def putVarintFrom : (rounds value : Nat) → List Byte
  | 0, value => [Fin.ofNat 256 value]
  | rounds + 1, value =>
      if 0x80 ≤ value then
        Fin.ofNat 256 (value % 256 ||| 0x80) :: putVarintFrom rounds (value >>> 7)
      else [Fin.ofNat 256 value]

def putVarint (value : Nat) : List Byte := putVarintFrom 4 value

/-- `get_varint` from its loop head. A sixth byte would shift a `uint32_t` by
35 bits, which C++ leaves undefined. -/
def getVarintFrom (data : Nat → Byte) (result : Nat) : (rounds shift pos : Nat) → Option (Nat × Nat)
  | 0, _, _ => none
  | rounds + 1, shift, pos =>
      let byte := (data pos).val
      let result := result ||| u32 ((byte &&& 0x7F) <<< shift)
      if byte &&& 0x80 = 0 then some (result, pos + 1)
      else getVarintFrom data result rounds (shift + 7) (pos + 1)

def getVarint (data : Nat → Byte) (pos : Nat) : Option (Nat × Nat) := getVarintFrom data 0 5 0 pos

/-- First loop of `decode_block`: gaps into docids. -/
def decodeDocids (data : Nat → Byte) : (i n previous pos : Nat) → Option (List Nat × Nat)
  | _, 0, _, pos => some ([], pos)
  | i, n + 1, previous, pos => do
      let (gap, pos) ← getVarint data pos
      let previous := if i = 0 then gap else u32 (previous + gap)
      let (docids, pos) ← decodeDocids data (i + 1) n previous pos
      some (previous :: docids, pos)

/-- Second loop of `decode_block`: term frequencies. -/
def decodeFreqs (data : Nat → Byte) : (n pos : Nat) → Option (List Nat × Nat)
  | 0, pos => some ([], pos)
  | n + 1, pos => do
      let (freq, pos) ← getVarint data pos
      let (freqs, pos) ← decodeFreqs data n pos
      some (freq :: freqs, pos)

/-- `decode_block` into the two arrays of `kBlockSize` entries. -/
def decodeBlock {S : Type} (payload : Nat → Byte) (blk : BlockMeta S) :
    Option (List Nat × List Nat) := do
  if kBlockSize < blk.count then none
  let data := fun i => payload (blk.payloadOffset + i)
  let (docids, pos) ← decodeDocids data 0 blk.count 0 0
  let (freqs, _) ← decodeFreqs data blk.count pos
  some (docids, freqs)

/-- `data` reads as `bytes` from `pos` on. -/
def ReadsAt (data : Nat → Byte) (pos : Nat) (bytes : List Byte) : Prop :=
  ∀ (i : Nat) (h : i < bytes.length), data (pos + i) = bytes[i]

theorem readsAt_cons {data : Nat → Byte} {pos : Nat} {b : Byte} {bytes : List Byte}
    (h : ReadsAt data pos (b :: bytes)) : data pos = b ∧ ReadsAt data (pos + 1) bytes := by
  refine ⟨h 0 (by simp), fun i hi => ?_⟩
  have := h (i + 1) (by simpa using hi)
  simpa [Nat.add_assoc, Nat.add_comm 1] using this

theorem readsAt_append {data : Nat → Byte} {pos : Nat} {l l' : List Byte} :
    ReadsAt data pos (l ++ l') ↔ ReadsAt data pos l ∧ ReadsAt data (pos + l.length) l' := by
  induction l generalizing pos with
  | nil => simp [ReadsAt]
  | cons b l ih =>
    constructor
    · intro h
      obtain ⟨hb, ht⟩ := readsAt_cons h
      obtain ⟨hl, hl'⟩ := ih.mp ht
      refine ⟨fun i hi => ?_, by simpa [Nat.add_assoc, Nat.add_comm 1] using hl'⟩
      cases i with
      | zero => simpa using hb
      | succ i => simpa [Nat.add_assoc, Nat.add_comm 1] using hl i (by simpa using hi)
    · rintro ⟨h, h'⟩
      obtain ⟨hb, ht⟩ := readsAt_cons h
      have hrest := ih.mpr ⟨ht, by simpa [Nat.add_assoc, Nat.add_comm 1] using h'⟩
      intro i hi
      cases i with
      | zero => simpa using hb
      | succ i => simpa [Nat.add_assoc, Nat.add_comm 1] using hrest i (by simpa using hi)

theorem or_shift {a b s : Nat} (ha : a < 2 ^ s) : a ||| b <<< s = a + b * 2 ^ s := by
  rw [Nat.or_comm, Nat.shiftLeft_eq, Nat.mul_comm b, ← Nat.two_pow_add_eq_or_of_lt ha]
  omega

theorem continuation_byte (v : Nat) :
    (Fin.ofNat 256 (v % 256 ||| 0x80) : Byte).val = v % 128 + 128 := by
  have h : v % 256 ||| 0x80 = v % 128 + 128 := by
    have hv : v % 256 = v % 128 + 128 * (v / 128 % 2) := by omega
    rcases Nat.mod_two_eq_zero_or_one (v / 128) with h0 | h1
    · rw [hv, h0]
      have := or_shift (a := v % 128) (b := 1) (s := 7) (by omega)
      simpa using this
    · rw [hv, h1]
      have h1 := or_shift (a := v % 128) (b := 1) (s := 7) (by omega)
      have h1' : v % 128 ||| 128 = v % 128 + 128 := by simpa using h1
      rw [Nat.mul_one, ← h1', Nat.or_assoc, Nat.or_self]
  rw [h]
  exact Nat.mod_eq_of_lt (by omega)

private theorem and_7F (n : Nat) : n &&& 0x7F = n % 128 := Nat.and_two_pow_sub_one_eq_mod n 7

private theorem and_80_small {n : Nat} (h : n < 128) : n &&& 0x80 = 0 := by
  have : n &&& 2 ^ 7 = 0 := by
    rw [Nat.and_two_pow]
    simp [Nat.testBit_lt_two_pow (show n < 2 ^ 7 by omega)]
  simpa using this

private theorem and_80_big {n : Nat} (h : 128 ≤ n) (h' : n < 256) : n &&& 0x80 ≠ 0 := by
  have ht : n.testBit 7 = true := Nat.testBit_of_two_pow_le_and_two_pow_add_one_gt h h'
  have : n &&& 2 ^ 7 = 2 ^ 7 := by
    rw [Nat.and_two_pow, ht]; simp
  simp only [Nat.reducePow] at this
  rw [this]; decide

/-- The reader started with `shift` bits already in `result` adds the value the
writer emitted, shifted into place. -/
theorem getVarintFrom_putVarintFrom (data : Nat → Byte) :
    ∀ (rounds shift value result pos : Nat),
      value < 2 ^ (7 * (rounds + 1)) → value * 2 ^ shift < 2 ^ 32 → result < 2 ^ shift →
      ReadsAt data pos (putVarintFrom rounds value) →
      getVarintFrom data result (rounds + 1) shift pos =
        some (result + value * 2 ^ shift, pos + (putVarintFrom rounds value).length) := by
  have last : ∀ (rounds shift value result pos : Nat), value < 128 →
      value * 2 ^ shift < 2 ^ 32 → result < 2 ^ shift →
      data pos = Fin.ofNat 256 value →
      getVarintFrom data result (rounds + 1) shift pos =
        some (result + value * 2 ^ shift, pos + 1) := by
    intro rounds shift value result pos hv hfit hres hd
    have hbyte : (data pos).val = value := by rw [hd]; exact Nat.mod_eq_of_lt (by omega)
    simp only [getVarintFrom, hbyte, and_80_small hv, ↓reduceIte, and_7F,
      Nat.mod_eq_of_lt hv]
    rw [u32_of_lt (by rw [Nat.shiftLeft_eq]; exact hfit), or_shift hres]
  intro rounds
  induction rounds with
  | zero =>
    intro shift value result pos hv hfit hres hreads
    exact last 0 shift value result pos (by simpa using hv) hfit hres (readsAt_cons hreads).1
  | succ rounds ih =>
    intro shift value result pos hv hfit hres hreads
    by_cases hbig : 0x80 ≤ value
    · simp only [putVarintFrom, hbig, ↓reduceIte] at hreads ⊢
      obtain ⟨hhead, htail⟩ := readsAt_cons hreads
      have hbyte : (data pos).val = value % 128 + 128 := by rw [hhead, continuation_byte]
      have hdiv : value >>> 7 = value / 128 := by rw [Nat.shiftRight_eq_div_pow]
      have hsplit : value = value % 128 + 128 * (value / 128) := by omega
      have hlow : value % 128 * 2 ^ shift < 2 ^ 32 :=
        lt_of_le_of_lt (Nat.mul_le_mul_right _ (by omega)) hfit
      have hpow : 2 ^ (shift + 7) = 2 ^ shift * 128 := by rw [Nat.pow_add]
      rw [getVarintFrom]
      simp only [hbyte, and_80_big (show 128 ≤ value % 128 + 128 by omega) (by omega),
        ↓reduceIte, and_7F]
      rw [show (value % 128 + 128) % 128 = value % 128 from by omega,
        u32_of_lt (by rw [Nat.shiftLeft_eq]; exact hlow), or_shift hres]
      rw [ih (shift + 7) (value >>> 7) _ (pos + 1) ?_ ?_ ?_ htail]
      · have hvalue : result + value % 128 * 2 ^ shift + (value >>> 7) * 2 ^ (shift + 7) =
            result + value * 2 ^ shift := by
          rw [hdiv, hpow]
          conv_rhs => rw [hsplit, Nat.add_mul]
          ring
        rw [hvalue]
        simp only [List.length_cons]
        congr 2
        omega
      · rw [hdiv, Nat.div_lt_iff_lt_mul (by decide)]
        calc value < 2 ^ (7 * (rounds + 1 + 1)) := hv
          _ = 2 ^ (7 * (rounds + 1)) * 128 := by
            rw [show 7 * (rounds + 1 + 1) = 7 * (rounds + 1) + 7 by ring, Nat.pow_add]
      · rw [hdiv, hpow]
        calc value / 128 * (2 ^ shift * 128) = 128 * (value / 128) * 2 ^ shift := by ring
          _ ≤ value * 2 ^ shift := Nat.mul_le_mul_right _ (by omega)
          _ < 2 ^ 32 := hfit
      · rw [hpow]
        calc result + value % 128 * 2 ^ shift
            < 2 ^ shift + value % 128 * 2 ^ shift := by omega
          _ = (value % 128 + 1) * 2 ^ shift := by ring
          _ ≤ 128 * 2 ^ shift := Nat.mul_le_mul_right _ (by omega)
          _ = 2 ^ shift * 128 := by ring
    · simp only [putVarintFrom, hbig, ↓reduceIte] at hreads ⊢
      exact last (rounds + 1) shift value result pos (by omega) hfit hres (readsAt_cons hreads).1

theorem getVarint_putVarint {data : Nat → Byte} {value pos : Nat} (h : value < 2 ^ 32)
    (hreads : ReadsAt data pos (putVarint value)) :
    getVarint data pos = some (value, pos + (putVarint value).length) := by
  have := getVarintFrom_putVarintFrom data 4 0 value 0 pos (by omega) (by simpa using h)
    (by decide) hreads
  simpa [getVarint, putVarint] using this

theorem decodeDocids_length {data : Nat → Byte} :
    ∀ {n i previous pos : Nat} {r : List Nat × Nat},
      decodeDocids data i n previous pos = some r → r.1.length = n := by
  intro n
  induction n with
  | zero => intro i previous pos r h; simp [decodeDocids] at h; simp [← h]
  | succ n ih =>
    intro i previous pos r h
    simp only [decodeDocids, Option.bind_eq_bind, Option.bind_eq_some_iff] at h
    obtain ⟨⟨gap, p⟩, -, ⟨ds, p'⟩, hd, hr⟩ := h
    obtain rfl := Option.some.inj hr
    simp [ih hd]

theorem decodeFreqs_length {data : Nat → Byte} :
    ∀ {n pos : Nat} {r : List Nat × Nat}, decodeFreqs data n pos = some r → r.1.length = n := by
  intro n
  induction n with
  | zero => intro pos r h; simp [decodeFreqs] at h; simp [← h]
  | succ n ih =>
    intro pos r h
    simp only [decodeFreqs, Option.bind_eq_bind, Option.bind_eq_some_iff] at h
    obtain ⟨⟨freq, p⟩, -, ⟨fs, p'⟩, hd, hr⟩ := h
    obtain rfl := Option.some.inj hr
    simp [ih hd]

theorem decodeBlock_length {S : Type} {payload : Nat → Byte} {blk : BlockMeta S}
    {docids freqs : List Nat} (h : decodeBlock payload blk = some (docids, freqs)) :
    docids.length = blk.count ∧ freqs.length = blk.count := by
  unfold decodeBlock at h
  split at h
  · simp at h
  · simp only [Option.bind_eq_bind, Option.bind_eq_some_iff] at h
    obtain ⟨⟨ds, p⟩, hd, ⟨fs, p'⟩, hf, hr⟩ := h
    obtain ⟨rfl, rfl⟩ := Prod.mk.inj (Option.some.inj hr)
    exact ⟨decodeDocids_length hd, decodeFreqs_length hf⟩

end CascadeSearch.Index.Format
