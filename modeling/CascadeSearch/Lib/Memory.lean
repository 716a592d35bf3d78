import Mathlib.Tactic

/-!
# Byte memory with symbolic floats

A file or a mapping is a list of one-byte cells. Integers are little endian.
A float occupies four cells that carry its value instead of a bit pattern, so
the layout is exact to the byte while the arithmetic stays open. A pointer is
the list of cells from the address on: pointer arithmetic is `List.drop`.
-/
namespace CascadeSearch.Lib.Memory

abbrev Byte := Fin 256

instance byteNeZero : NeZero 256 := ⟨by decide⟩

instance bytesLawfulBEq : LawfulBEq (List Byte) := inferInstance

inductive Cell (S : Type) where
  | byte (b : Byte)
  | float (value : S) (part : Fin 4)

variable {S : Type}

def Cell.toByte : Cell S → Byte
  | .byte b => b
  | .float _ _ => 0

/-- The `width` low bytes of `n`, least significant first. -/
def putInt : Nat → Nat → List (Cell S)
  | 0, _ => []
  | width + 1, n => .byte (Fin.ofNat 256 n) :: putInt width (n / 256)

def readInt : Nat → List (Cell S) → Nat
  | 0, _ => 0
  | _ + 1, [] => 0
  | width + 1, c :: p => c.toByte.val + 256 * readInt width p

def putFloat (s : S) : List (Cell S) := [.float s 0, .float s 1, .float s 2, .float s 3]

def readFloat [Zero S] : List (Cell S) → S
  | .float s 0 :: .float _ 1 :: .float _ 2 :: .float _ 3 :: _ => s
  | _ => 0

def putBytes (s : List Byte) : List (Cell S) := s.map .byte

/-- `p[i]` for a byte pointer. -/
def byteAt (p : List (Cell S)) (i : Nat) : Byte := (p.getD i (.byte 0)).toByte

/-- `std::string(p, len)`: the next `len` bytes. -/
def readBytes (len : Nat) (p : List (Cell S)) : List Byte := (p.take len).map Cell.toByte

@[simp] theorem length_putInt (width n : Nat) : (putInt width n : List (Cell S)).length = width := by
  induction width generalizing n with
  | zero => rfl
  | succ width ih => simp [putInt, ih]

@[simp] theorem length_putFloat (s : S) : (putFloat s).length = 4 := rfl

@[simp] theorem length_putBytes (s : List Byte) :
    (putBytes s : List (Cell S)).length = s.length := by
  simp [putBytes]

theorem readInt_putInt (width n : Nat) (p : List (Cell S)) :
    readInt width (putInt width n ++ p) = n % 256 ^ width := by
  induction width generalizing n with
  | zero => simp [readInt, Nat.mod_one]
  | succ width ih =>
    simp only [putInt, List.cons_append, readInt, ih, Cell.toByte, Fin.ofNat]
    rw [Nat.pow_succ, Nat.mul_comm _ 256, Nat.mod_mul]

theorem readInt_putInt_of_lt {width n : Nat} (h : n < 256 ^ width) (p : List (Cell S)) :
    readInt width (putInt width n ++ p) = n := by
  rw [readInt_putInt, Nat.mod_eq_of_lt h]

theorem readFloat_putFloat [Zero S] (s : S) (p : List (Cell S)) :
    readFloat (putFloat s ++ p) = s := rfl

theorem readBytes_putBytes (s : List Byte) (p : List (Cell S)) :
    readBytes s.length (putBytes s ++ p) = s := by
  unfold readBytes
  rw [List.take_left' (length_putBytes s), putBytes, List.map_map]
  exact List.map_id s

theorem byteAt_putBytes (s : List Byte) (p : List (Cell S)) {i : Nat} (hi : i < s.length) :
    byteAt (putBytes s ++ p) i = s[i] := by
  have hlen : i < (putBytes s : List (Cell S)).length := by simpa using hi
  rw [byteAt, List.getD_eq_getElem?_getD, List.getElem?_append_left hlen]
  simp [putBytes, hi, Cell.toByte]

/-- Skipping whole records of one size skips list elements. -/
theorem drop_flatMap {α : Type} {size : Nat} {enc : α → List (Cell S)}
    (henc : ∀ x, (enc x).length = size) (xs : List α) (rest : List (Cell S)) :
    ∀ {i : Nat}, i ≤ xs.length →
      (xs.flatMap enc ++ rest).drop (size * i) = (xs.drop i).flatMap enc ++ rest := by
  induction xs with
  | nil => intro i hi; simp at hi; simp [hi]
  | cons x xs ih =>
    intro i hi
    cases i with
    | zero => simp
    | succ i =>
      rw [Nat.mul_succ, Nat.add_comm, ← List.drop_drop, List.flatMap_cons, List.append_assoc,
        List.drop_left' (henc x), List.drop_succ_cons]
      exact ih (by simpa using hi)

/-- What stands at the place of the `i`-th record. -/
theorem drop_flatMap_get {α : Type} {size : Nat} {enc : α → List (Cell S)}
    (henc : ∀ x, (enc x).length = size) {xs : List α} {i : Nat} {x : α} (h : xs[i]? = some x)
    (rest : List (Cell S)) :
    (xs.flatMap enc ++ rest).drop (size * i) = enc x ++ ((xs.drop (i + 1)).flatMap enc ++ rest) := by
  obtain ⟨hlt, hget⟩ := List.getElem?_eq_some_iff.mp h
  rw [drop_flatMap henc xs rest hlt.le, List.drop_eq_getElem_cons hlt, hget, List.flatMap_cons,
    List.append_assoc]

theorem readInt_flatMap {width i n : Nat} {ns : List Nat} (h : ns[i]? = some n) (hfits : n < 256 ^ width)
    (rest : List (Cell S)) : readInt width ((ns.flatMap (putInt width) ++ rest).drop (width * i)) = n := by
  rw [drop_flatMap_get (length_putInt width) h]
  exact readInt_putInt_of_lt hfits _

theorem drop_putBytes (s : List Byte) (n : Nat) : (putBytes s : List (Cell S)).drop n = putBytes (s.drop n) :=
  List.map_drop.symm

theorem putBytes_append (s t : List Byte) : (putBytes (s ++ t) : List (Cell S)) = putBytes s ++ putBytes t :=
  List.map_append

theorem length_flatMap {α : Type} {size : Nat} {enc : α → List (Cell S)}
    (henc : ∀ x, (enc x).length = size) (xs : List α) :
    (xs.flatMap enc).length = size * xs.length := by
  induction xs with
  | nil => rfl
  | cons x xs ih =>
    simp only [List.flatMap_cons, List.length_append, henc, ih, List.length_cons, Nat.mul_succ]
    omega

end CascadeSearch.Lib.Memory
