import BitvecArray.Array
import Mathlib.Data.List.FinRange

/-!
# Constructor macros

`bitarr!` builds a bit-array from a bit pattern at compile time. Its repetition arm
`bitarr![S, O; val; N]` fills all `elts(N)` elements with `__extend_bool!(val)`, padding
included, and transmutes the element array into a `BitArray`. Its sequence arm
`bitarr![S, O; v₀, v₁, …]` wraps `__encode_bits!(S, O; v₀, v₁, …)` with `BitArray::new`.
That macro cuts the values into chunks of `W`, the last one padded with zeros, and builds one
element of each chunk with `__make_elem!`, which sets bit `i` of a zero element, as the order
places it, to `vᵢ != 0`. Read through bit addresses, the chunks line up into the sequence:
bit `g` is lane `g % W` of element `g / W`, and the padding is zero.

The two arms therefore agree on the live bits and differ on the padding, which `into_inner`
exposes: they build the same elements exactly when the padding is empty or the value zero.
-/

namespace BitvecArray

variable {S : BitStore} {O : BitOrder S} {N : Nat}

/-- Modelled from the spec: `__extend_bool!` is absent from the excerpt. It widens one bit
value to a whole element: all ones when the value is nonzero, else zero. -/
def extendBool (S : BitStore) (val : Nat) : S.Mem :=
  if val ≠ 0 then BitVec.allOnes S.bits else 0

/-- `bitarr![S, O; val; N]`: every element is `__extend_bool!(val)`. -/
def bitarrRepeat (O : BitOrder S) (N : Nat) (val : Nat) : BitArray O N :=
  ⟨List.replicate (elts S N) (extendBool S val), List.length_replicate _ _⟩

@[simp] theorem getBit_extendBool (val : Nat) (i : BitIdx S) :
    getBit O (extendBool S val) i = decide (val ≠ 0) := by
  unfold extendBool
  split <;> simp_all [getBit]

/-- Every bit of every element of `bitarr![val; N]`, padding included, is `val ≠ 0`. -/
theorem readBit_bitarrRepeat (val : Nat) {g : Nat} (hg : g / S.bits < elts S N) :
    readBit O (bitarrRepeat O N val).data g = decide (val ≠ 0) := by
  simp [readBit, BitPtr.read, BitPtr.ofIndex, bitarrRepeat, List.getElem?_replicate, hg]

theorem readBit_bitarrRepeat_eq (val g : Nat) :
    readBit O (bitarrRepeat O N val).data g =
      (decide (val ≠ 0) && decide (g < elts S N * S.bits)) := by
  by_cases hg : g < elts S N * S.bits
  · simp [readBit_bitarrRepeat val ((Nat.div_lt_iff_lt_mul S.bits_pos).2 hg), hg]
  · simp [readBit_of_length_le (bitarrRepeat O N val).data (by simpa [bitarrRepeat] using hg), hg]

theorem toList_bitarrRepeat (val : Nat) :
    (bitarrRepeat O N val).toList = List.replicate N (decide (val ≠ 0)) := by
  rw [BitArray.toList_eq, List.eq_replicate_iff]
  refine ⟨by simp, fun b hb => ?_⟩
  obtain ⟨g, hg, rfl⟩ := List.mem_map.1 hb
  exact readBit_bitarrRepeat val (div_lt_elts (List.mem_range.1 hg))

/-! ## The sequence arm -/

/-- Modelled from the tests: `__make_elem!(S as uint, O; v₀, …, v_{W-1})` is absent from the
excerpt, and `macros/tests.rs` (`make_elem`) checks it. It starts from a zero element and, for
each index `i` in ascending order, sets the bit `i` selects to `vᵢ != 0`; an index past the
values reads the zero the chunk is padded with. -/
def makeElem (O : BitOrder S) (vals : List Nat) : S.Mem :=
  (List.finRange S.bits).foldl (fun tmp i => setBit O tmp i (decide (vals.getD i 0 ≠ 0))) 0

/-- Setting bits along a list of indices, each index to a value of its own: an index of the
list reads its value, any other keeps the element's bit. -/
theorem getBit_foldl_setBit (b : BitIdx S → Bool) (l : List (BitIdx S)) (x : S.Mem)
    (j : BitIdx S) :
    getBit O (l.foldl (fun tmp i => setBit O tmp i (b i)) x) j =
      if j ∈ l then b j else getBit O x j := by
  induction l generalizing x with
  | nil => simp
  | cons i l ih =>
    rw [List.foldl_cons, ih]
    by_cases hij : i = j
    · subst hij
      simp
    · simp [getBit_setBit_of_ne _ _ hij, Ne.symm hij]

@[simp] theorem getBit_makeElem (vals : List Nat) (j : BitIdx S) :
    getBit O (makeElem O vals) j = decide (vals.getD j 0 ≠ 0) := by
  simp [makeElem, getBit_foldl_setBit, List.mem_finRange]

example : makeElem (BitOrder.lsb0 u8) [1, 0, 1, 0, 1, 1, 0, 0] = 53#8 := by decide

/-- Modelled from the tests: `__encode_bits!(S, O; v₀, v₁, …)` is absent from the excerpt, and
`macros/tests.rs` (`encode_bits`) checks it. It cuts the values into chunks of `W`, the last
one padded with zeros, and makes one element of each chunk with `__make_elem!`, so element `k`
holds values `k·W .. k·W + W`. -/
def encodeBits (S : BitStore) (O : BitOrder S) (vals : List Nat) : List S.Mem :=
  (List.range (elts S vals.length)).map fun k =>
    makeElem O ((vals.drop (k * S.bits)).take S.bits)

@[simp] theorem length_encodeBits (vals : List Nat) :
    (encodeBits S O vals).length = elts S vals.length := by
  simp [encodeBits]

variable (vals : List Nat)

/-- Bit address `g` of the encoding is value `g`, and a zero past the values: lane `g % W` of
element `g / W` holds value `g / W * W + g % W`, which is `g`. -/
theorem readBit_encodeBits (g : Nat) :
    readBit O (encodeBits S O vals) g = decide (vals.getD g 0 ≠ 0) := by
  by_cases hg : g / S.bits < elts S vals.length
  · have hidx : g / S.bits * S.bits + g % S.bits = g := by
      rw [Nat.mul_comm]
      exact Nat.div_add_mod g S.bits
    simp [readBit, BitPtr.read, BitPtr.ofIndex, encodeBits, hg, List.getElem?_take,
      Nat.mod_lt _ S.bits_pos, List.getElem?_drop, hidx]
  · have hle := (Nat.le_div_iff_mul_le S.bits_pos).1 (Nat.le_of_not_lt hg)
    have hlen : vals.length ≤ g := Nat.le_trans (le_elts_mul vals.length) hle
    rw [readBit_of_length_le _ (by simpa using hle)]
    simp [List.getElem?_eq_none hlen]

example : encodeBits u16 (BitOrder.msb0 u16) [0, 1, 0, 0, 1, 0, 0, 0, 0, 1, 1, 0, 1, 0, 0, 1] =
    [0x4869#16] := by decide

/-- `bitarr![S, O; v₀, v₁, …]`: `BitArray::new(__encode_bits!(S, O; v₀, v₁, …))`. -/
def bitarrSeq (O : BitOrder S) (vals : List Nat) : BitArray O vals.length :=
  BitArray.new (encodeBits S O vals) (length_encodeBits vals)

@[simp] theorem bitarrSeq_data : (bitarrSeq O vals).data = encodeBits S O vals := rfl

theorem readBit_encodeBits_of_lt {g : Nat} (hg : g < vals.length) :
    readBit O (encodeBits S O vals) g = decide (vals[g] ≠ 0) := by
  simp [readBit_encodeBits, hg]

/-- The padding of an encoded sequence stays zero. -/
theorem readBit_encodeBits_of_le {g : Nat} (hg : vals.length ≤ g) :
    readBit O (encodeBits S O vals) g = false := by
  simp [readBit_encodeBits, List.getElem?_eq_none hg]

theorem readBit_encodeBits_replicate (N val g : Nat) :
    readBit O (encodeBits S O (List.replicate N val)) g =
      (decide (val ≠ 0) && decide (g < N)) := by
  by_cases hg : g < N <;> simp [readBit_encodeBits, List.getElem?_replicate, hg]

theorem toList_bitarrSeq : (bitarrSeq O vals).toList = vals.map fun v => decide (v ≠ 0) := by
  apply List.ext_getElem (by simp)
  intro k hk _
  rw [BitArray.getElem_toList, List.getElem_map]
  exact readBit_encodeBits_of_lt vals (by simpa using hk)

/-- `bitarr![S, O; v₀, v₁, …]` reads back its sequence, bit `i` being `vᵢ != 0`, keeps its
padding zero, and is the only bit-array of its length that does both. -/
theorem bitarrSeq_encodes_exactly :
    (bitarrSeq O vals).toList = vals.map (fun v => decide (v ≠ 0)) ∧
    (∀ g, vals.length ≤ g → readBit O (bitarrSeq O vals).data g = false) ∧
    ∀ a : BitArray O vals.length, a.toList = vals.map (fun v => decide (v ≠ 0)) →
      (∀ g, vals.length ≤ g → readBit O a.data g = false) → a = bitarrSeq O vals :=
  ⟨toList_bitarrSeq vals, fun _ hg => readBit_encodeBits_of_le vals hg, fun _ ha hpad =>
    BitArray.ext_toList (ha.trans (toList_bitarrSeq vals).symm) fun g hg =>
      (hpad g hg).trans (readBit_encodeBits_of_le vals hg).symm⟩

example : (bitarrSeq (BitOrder.msb0 u8) [1, 1, 1, 1, 1, 1, 1, 1, 1, 1]).intoInner =
    [255#8, 192#8] := by decide

example : (bitarrSeq (BitOrder.lsb0 u8) [1, 1, 1, 1, 1, 1, 1, 1, 1, 1]).intoInner =
    [255#8, 3#8] := by decide

example : encodeBits u16 (BitOrder.msb0 u16) [0, 1, 0, 0, 1, 0, 0, 0, 0, 1, 1, 0, 1, 0, 0, 1] =
    [0x4869#16] := by decide

/-! ## The two arms -/

/-- Repeating `val` with either arm gives the same live bits; the elements agree exactly when
`val` is zero or `N` leaves no padding, since the repetition arm fills the padding with `val`
and the sequence arm with zeros. -/
theorem bitarr_arms_agree_on_live_bits (val : Nat) :
    (bitarrRepeat O N val).toList = (bitarrSeq O (List.replicate N val)).toList ∧
    ((bitarrRepeat O N val).intoInner = (bitarrSeq O (List.replicate N val)).intoInner ↔
      val = 0 ∨ N % S.bits = 0) := by
  refine ⟨by simp [toList_bitarrSeq, toList_bitarrRepeat], ⟨fun h => ?_, fun h => ?_⟩⟩
  · have hN := congrArg (readBit O · N) h
    simp [BitArray.intoInner, readBit_bitarrRepeat_eq, readBit_encodeBits_replicate] at hN
    refine or_iff_not_imp_left.2 fun hv => by_contra fun hm => ?_
    exact Nat.not_le_of_lt (lt_elts_mul_of_mod_ne_zero hm) (hN hv)
  · refine eq_of_readBit_eq (O := O) (by simp [BitArray.intoInner, bitarrRepeat]) fun g => ?_
    simp only [BitArray.intoInner, bitarrSeq_data, readBit_bitarrRepeat_eq,
      readBit_encodeBits_replicate]
    rcases h with rfl | hmod
    · simp
    · rw [elts_mul_of_mod_eq_zero hmod]

end BitvecArray
