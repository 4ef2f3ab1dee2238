import BitvecArray.Slice

/-!
# Bit-arrays

`BitArray<S, O, N>` wraps a `GenericArray<S, N::Output>` of `elts(N)` elements and reads its
first `N` bits in the order `O`. The bits of the last element past `N` are padding: no view
of the array reaches them, but the raw element accessors (`into_inner`, `as_raw_slice`) do.

The buffer's length is a field of the structure, as the `GenericArray` type fixes it. The
views `as_bitslice` and `as_mut_bitslice` are the span of the first `N` bits from the first
bit of the buffer; `toList` is the bit sequence that span reads.
-/

namespace BitvecArray

variable {S : BitStore} {O : BitOrder S} {N : Nat}

/-- `BitArray<S, O, N>`: `elts(N)` elements read as `N` bits in the order `O`. -/
structure BitArray (O : BitOrder S) (N : Nat) where
  /-- The wrapped data buffer. -/
  data : List S.Mem
  length_data : data.length = elts S N

namespace BitArray

/-- `BitArray::new`: wrap an existing buffer. -/
def new (data : List S.Mem) (h : data.length = elts S N) : BitArray O N := ⟨data, h⟩

/-- `BitArray::ZERO`: every element, padding included, is zero. -/
def ZERO : BitArray O N := ⟨List.replicate (elts S N) 0, List.length_replicate _ _⟩

/-- `BitArray::into_inner`: the buffer, padding included. -/
def intoInner (a : BitArray O N) : List S.Mem := a.data

/-- `BitArray::as_raw_slice`: the buffer's elements. -/
def asRawSlice (a : BitArray O N) : List S.Mem := a.data

/-- `BitArray::len`. -/
def len (_a : BitArray O N) : Nat := N

/-- `BitArray::is_empty`. -/
def isEmpty (a : BitArray O N) : Bool := a.len == 0

/-- `N` bits fit in the buffer, so the index `[.. N]` of `as_bitslice` never panics. -/
theorem le_length_mul (a : BitArray O N) : N ≤ a.data.length * S.bits := by
  rw [a.length_data]
  exact le_elts_mul N

/-- The first `N` bits from the buffer's first bit touch exactly the buffer's elements. -/
theorem inBounds_firstBits (a : BitArray O N) :
    (BitPtr.fromSlice : BitPtr S).addr +
        BitSpan.elements (⟨BitPtr.fromSlice, N⟩ : BitSpan S) ≤
      a.data.length := by
  simp [BitSpan.elements, BitPtr.fromSlice, BitIdx.MIN, a.length_data]

/-- `BitArray::as_bitslice`: `data.view_bits::<O>()[.. N]`, the first `N` bits from the
buffer's first bit. -/
def asBitslice (a : BitArray O N) : BitSlice O :=
  ⟨a.data, ⟨BitPtr.fromSlice, N⟩, a.inBounds_firstBits⟩

/-- `BitArray::as_mut_bitslice`: the same view, borrowed for writing into `data`. -/
def asMutBitslice (a : BitArray O N) : BitSlice O := a.asBitslice

/-- The array's bits, as its `as_bitslice` reads them. -/
def toList (a : BitArray O N) : List Bool := a.asBitslice.toList

variable (a : BitArray O N)

@[simp] theorem asBitslice_mem : a.asBitslice.mem = a.data := rfl

@[simp] theorem asBitslice_span : a.asBitslice.span = ⟨BitPtr.fromSlice, N⟩ := rfl

@[simp] theorem asMutBitslice_eq : a.asMutBitslice = a.asBitslice := rfl

@[simp] theorem readBit_ZERO (g : Nat) : readBit O (ZERO : BitArray O N).data g = false :=
  readBit_replicate_zero _ _

theorem toList_eq : a.toList = (List.range N).map (readBit O a.data) := by
  simp [toList, BitSlice.toList, BitSpan.toList_eq, List.range_eq_range']

@[simp] theorem length_toList : a.toList.length = N := by
  simp [toList_eq]

theorem getElem_toList {g : Nat} (hg : g < a.toList.length) : a.toList[g] = readBit O a.data g := by
  simp [toList_eq]

/-- Arrays that agree at every bit address, padding included, are equal. -/
theorem ext_readBit {a b : BitArray O N} (h : ∀ g, readBit O a.data g = readBit O b.data g) :
    a = b := by
  obtain ⟨da, ha⟩ := a
  obtain ⟨db, hb⟩ := b
  congr
  exact eq_of_readBit_eq (ha.trans hb.symm) h

/-- An array is its live bits and its padding. -/
theorem ext_toList {a b : BitArray O N} (h : a.toList = b.toList)
    (hpad : ∀ g, N ≤ g → readBit O a.data g = readBit O b.data g) : a = b := by
  refine ext_readBit fun g => ?_
  by_cases hg : g < N
  · rw [← getElem_toList a (by simpa using hg), ← getElem_toList b (by simpa using hg)]
    simp only [h]
  · exact hpad g (Nat.le_of_not_lt hg)

end BitArray

end BitvecArray
