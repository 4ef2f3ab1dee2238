import Mathlib.Logic.Function.Basic
import Mathlib.Data.Fin.Basic

/-!
# Storage elements and bit orderings

The array layer of `bitvec` is generic over a storage type `S: BitStore` and an ordering
`O: BitOrder`. In a sequential model the plain, `Cell` and atomic stores behave alike, so a
store is described by its register width alone, and its elements are bit-vectors of that
width.

A `BitOrder` translates a *semantic* index (the position a user names) into the *physical*
position of the bit inside the element. The Rust trait is `unsafe` because every
implementor promises a bijection; here that promise is a field of the structure, so an order
that breaks it cannot be built.

This module also fixes the element-level bit access every higher layer goes through:
`getBit` tests the bit an index selects and `setBit` writes it with the `select` mask.
-/

namespace BitvecArray

/-! ## Stores and indices -/

/-- Modelled from the spec: a storage type `S: BitStore` (§4.2), through its register `S::Mem`;
only the width matters. -/
structure BitStore where
  /-- `BitRegister::BITS`: the number of bits in one element. -/
  bits : Nat
  bits_pos : 0 < bits

namespace BitStore

/-- `S::Mem`: one storage element. -/
abbrev Mem (S : BitStore) : Type := BitVec S.bits

end BitStore

/-- Modelled from the spec: `BitIdx<S::Mem>` is a semantic bit index, always below the element
width. -/
abbrev BitIdx (S : BitStore) : Type := Fin S.bits

/-- Modelled from the spec: `BitPos<S::Mem>` is a physical bit position inside one element. -/
abbrev BitPos (S : BitStore) : Type := Fin S.bits

/-- `u8`, and `Cell<u8>`, `AtomicU8`. -/
def u8 : BitStore := ⟨8, by decide⟩

/-- `u16`, and `Cell<u16>`, `AtomicU16`. -/
def u16 : BitStore := ⟨16, by decide⟩

/-- `u32`, and `Cell<u32>`, `AtomicU32`. -/
def u32 : BitStore := ⟨32, by decide⟩

/-- `u64`, and `Cell<u64>`, `AtomicU64`; `usize` on a 64-bit target. -/
def u64 : BitStore := ⟨64, by decide⟩

variable {S : BitStore}

/-- Modelled from the spec: `BitIdx::MIN` is the first semantic index of an element. -/
def BitIdx.MIN : BitIdx S := ⟨0, S.bits_pos⟩

/-- Modelled from the spec: `mem::elts::<S>(n)` is the number of elements that hold `n` bits,
`⌈n / BITS⌉`. -/
def elts (S : BitStore) (n : Nat) : Nat := (n + S.bits - 1) / S.bits

theorem le_elts_mul (n : Nat) : n ≤ elts S n * S.bits := by
  have h := Nat.div_add_mod (n + S.bits - 1) S.bits
  have h' := Nat.mod_lt (n + S.bits - 1) S.bits_pos
  unfold elts
  rw [Nat.mul_comm]
  omega

/-- Every bit below `n` lives in one of the `elts n` elements. -/
theorem div_lt_elts {i n : Nat} (h : i < n) : i / S.bits < elts S n :=
  (Nat.div_lt_iff_lt_mul S.bits_pos).2 (Nat.lt_of_lt_of_le h (le_elts_mul n))

@[simp] theorem elts_zero : elts S 0 = 0 := by
  have := S.bits_pos
  simp only [elts, Nat.zero_add]
  exact Nat.div_eq_of_lt (by omega)

/-- When `n` fills its last element, the elements hold exactly `n` bits. -/
theorem elts_mul_of_mod_eq_zero {n : Nat} (h : n % S.bits = 0) : elts S n * S.bits = n := by
  obtain ⟨q, rfl⟩ := Nat.dvd_of_mod_eq_zero h
  have hw := S.bits_pos
  rw [elts, show S.bits * q + S.bits - 1 = S.bits - 1 + S.bits * q by omega,
    Nat.add_mul_div_left _ _ hw, Nat.div_eq_of_lt (by omega), Nat.zero_add, Nat.mul_comm]

/-- Otherwise the last element has bits past `n`. -/
theorem lt_elts_mul_of_mod_ne_zero {n : Nat} (h : n % S.bits ≠ 0) : n < elts S n * S.bits := by
  refine Nat.lt_of_le_of_ne (le_elts_mul n) fun he => h ?_
  rw [he, Nat.mul_mod_left]

/-! ## Bit orderings -/

/-- Modelled from the spec: `O: BitOrder` (§4.1), at the register width of `S`; `at` sends a
semantic index to the physical position of its bit. -/
structure BitOrder (S : BitStore) where
  /-- `BitOrder::at`. -/
  «at» : BitIdx S → BitPos S
  /-- The contract of the `unsafe trait`: `at` is a bijection on `0 .. BITS`. -/
  at_bijective : Function.Bijective «at»

namespace BitOrder

/-- Modelled from the spec: `Lsb0`, where the semantic index is the physical position. -/
def lsb0 (S : BitStore) : BitOrder S := ⟨id, Function.bijective_id⟩

/-- Modelled from the spec: `Msb0`, where the semantic index counts down from the most
significant bit. -/
def msb0 (S : BitStore) : BitOrder S := ⟨Fin.rev, Fin.rev_bijective⟩

@[simp] theorem lsb0_at (i : BitIdx S) : (lsb0 S).at i = i := rfl

@[simp] theorem msb0_at (i : BitIdx S) : ((msb0 S).at i : Nat) = S.bits - 1 - i := by
  simp only [msb0, Fin.val_rev]
  omega

variable (O : BitOrder S)

theorem at_injective : Function.Injective O.at := O.at_bijective.1

/-- Modelled from the spec: `BitOrder::select` is the mask with only the bit of index `i` set. -/
def select (i : BitIdx S) : S.Mem := BitVec.twoPow S.bits (O.at i)

end BitOrder

/-! ## Element-level bit access -/

variable (O : BitOrder S)

/-- Modelled from the spec: `BitStore::get_bit::<O>` reads the element's bit that index `i`
selects. -/
def getBit (x : S.Mem) (i : BitIdx S) : Bool := x.getLsbD (O.at i)

/-- Modelled from the spec: `BitStore::set_bit::<O>` sets or clears the element's bit that
index `i` selects, through the `select` mask. -/
def setBit (x : S.Mem) (i : BitIdx S) (b : Bool) : S.Mem :=
  if b then x ||| O.select i else x &&& ~~~(O.select i)

variable {O}

theorem getLsbD_setBit (x : S.Mem) (i : BitIdx S) (b : Bool) (j : Nat) :
    (setBit O x i b).getLsbD j = if (O.at i : Nat) = j then b else x.getLsbD j := by
  by_cases hj : (O.at i : Nat) = j
  · subst hj
    cases b <;> simp [setBit, BitOrder.select, BitVec.getLsbD_twoPow]
  · cases b
    · simpa [setBit, BitOrder.select, BitVec.getLsbD_twoPow, hj] using
        @BitVec.lt_of_getLsbD _ x j
    · simp [setBit, BitOrder.select, BitVec.getLsbD_twoPow, hj]

@[simp] theorem getBit_setBit_self (x : S.Mem) (i : BitIdx S) (b : Bool) :
    getBit O (setBit O x i b) i = b := by
  simp [getBit, getLsbD_setBit]

theorem getBit_setBit_of_ne (x : S.Mem) {i j : BitIdx S} (b : Bool) (h : i ≠ j) :
    getBit O (setBit O x i b) j = getBit O x j := by
  have hne : (O.at i : Nat) ≠ O.at j := fun e => h (O.at_injective (Fin.ext e))
  simp [getBit, getLsbD_setBit, hne]

@[simp] theorem getBit_not (x : S.Mem) (i : BitIdx S) : getBit O (~~~x) i = !getBit O x i := by
  simp [getBit]

@[simp] theorem getBit_and (x y : S.Mem) (i : BitIdx S) :
    getBit O (x &&& y) i = (getBit O x i && getBit O y i) := by
  simp [getBit]

@[simp] theorem getBit_or (x y : S.Mem) (i : BitIdx S) :
    getBit O (x ||| y) i = (getBit O x i || getBit O y i) := by
  simp [getBit]

@[simp] theorem getBit_xor (x y : S.Mem) (i : BitIdx S) :
    getBit O (x ^^^ y) i = (getBit O x i ^^ getBit O y i) := by
  simp [getBit]

@[simp] theorem getBit_zero (i : BitIdx S) : getBit O 0#S.bits i = false := by
  simp [getBit]

/-- Two elements that agree at every semantic index are equal: `at` reaches every physical
position. -/
theorem eq_of_getBit_eq {x y : S.Mem} (h : ∀ i, getBit O x i = getBit O y i) : x = y := by
  apply BitVec.eq_of_getLsbD_eq
  intro p
  obtain ⟨i, rfl⟩ := O.at_bijective.2 p
  exact h i

end BitvecArray
