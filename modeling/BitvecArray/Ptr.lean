import BitvecArray.Store
import BitvecArray.Range

/-!
# Bit-pointers and bit-spans

A `BitPtr` is an element address together with a semantic index into that element; a
`BitSpan` adds a length in bits and is what a `&BitSlice` points at. Addresses count
elements of one allocation, which the model holds as a `List S.Mem`.

Pointer arithmetic follows the spec (§4.3): `add n` moves the head to `(head + n) mod BITS`
and the address forward by `(head + n) div BITS`. Every pointer denotes a *bit address*
`addr * BITS + head`, and `add` is addition on bit addresses (`index_add`). Reads and
writes are therefore stated once, on bit addresses (`readBit`, `writeBit`), and every
pointer operation is reduced to them.

The bit-pointer and bit-span modules are absent from the excerpt; what is modelled here is
the part the array layer calls, as the spec describes it.
-/

namespace BitvecArray

variable {S : BitStore}

/-! ## Bit-pointers -/

/-- Modelled from the spec: `BitPtr` (§4.3) is the address of an element and the index of a
bit inside it. -/
structure BitPtr (S : BitStore) where
  addr : Nat
  head : BitIdx S
  deriving DecidableEq, Repr

namespace BitPtr

/-- The bit address `addr * BITS + head` the pointer denotes. -/
def index (p : BitPtr S) : Nat := p.addr * S.bits + p.head

/-- The pointer to bit address `i`. -/
def ofIndex (i : Nat) : BitPtr S := ⟨i / S.bits, ⟨i % S.bits, Nat.mod_lt _ S.bits_pos⟩⟩

/-- Modelled from the spec: `BitPtr::add(n)` moves the head by `n` and carries into the
address. -/
def add (p : BitPtr S) (n : Nat) : BitPtr S :=
  ⟨p.addr + (p.head + n) / S.bits, ⟨(p.head + n) % S.bits, Nat.mod_lt _ S.bits_pos⟩⟩

/-- Modelled from the spec: `BitPtr::from_slice` points at the first bit of an element slice. -/
def fromSlice : BitPtr S := ⟨0, BitIdx.MIN⟩

@[simp] theorem index_ofIndex (i : Nat) : (ofIndex i : BitPtr S).index = i := by
  simp only [index, ofIndex]
  rw [Nat.mul_comm]
  exact Nat.div_add_mod i S.bits

@[simp] theorem ofIndex_index (p : BitPtr S) : ofIndex p.index = p := by
  have hh := p.head.isLt
  have hdiv : (p.addr * S.bits + p.head) / S.bits = p.addr := by
    rw [Nat.add_comm, Nat.add_mul_div_right _ _ S.bits_pos, Nat.div_eq_of_lt hh, Nat.zero_add]
  have hmod : (p.addr * S.bits + p.head) % S.bits = p.head := by
    rw [Nat.add_comm, Nat.add_mul_mod_self_right, Nat.mod_eq_of_lt hh]
  simp only [ofIndex, index, hdiv, hmod]

@[simp] theorem index_add (p : BitPtr S) (n : Nat) : (p.add n).index = p.index + n := by
  have h := Nat.div_add_mod (p.head + n) S.bits
  simp only [add, index, Nat.add_mul]
  rw [Nat.mul_comm ((p.head + n) / S.bits)]
  omega

@[simp] theorem index_fromSlice : (fromSlice : BitPtr S).index = 0 := by
  simp [fromSlice, index, BitIdx.MIN]

theorem index_injective : Function.Injective (index : BitPtr S → Nat) := fun p q h => by
  rw [← ofIndex_index p, h, ofIndex_index]

end BitPtr

/-! ## Reads and writes -/

variable (O : BitOrder S)

namespace BitPtr

/-- Modelled from the spec: `BitPtr::read` loads the element at `addr` and tests the bit
`head` selects. -/
def read (mem : List S.Mem) (p : BitPtr S) : Bool := getBit O (mem.getD p.addr 0) p.head

/-- Modelled from the spec: `BitPtr::write` stores back the element at `addr` with the bit
`head` selects replaced. -/
def write (mem : List S.Mem) (p : BitPtr S) (b : Bool) : List S.Mem :=
  mem.set p.addr (setBit O (mem.getD p.addr 0) p.head b)

@[simp] theorem length_write (mem : List S.Mem) (p : BitPtr S) (b : Bool) :
    (p.write O mem b).length = mem.length := by
  simp [write]

end BitPtr

/-- The bit at bit address `i` of `mem`. -/
def readBit (mem : List S.Mem) (i : Nat) : Bool := (BitPtr.ofIndex i).read O mem

/-- `mem` with the bit at bit address `i` replaced by `b`. -/
def writeBit (mem : List S.Mem) (i : Nat) (b : Bool) : List S.Mem :=
  (BitPtr.ofIndex i).write O mem b

variable {O}

theorem BitPtr.read_eq (mem : List S.Mem) (p : BitPtr S) :
    p.read O mem = readBit O mem p.index := by
  rw [readBit, ofIndex_index]

theorem BitPtr.write_eq (mem : List S.Mem) (p : BitPtr S) (b : Bool) :
    p.write O mem b = writeBit O mem p.index b := by
  rw [writeBit, ofIndex_index]

@[simp] theorem length_writeBit (mem : List S.Mem) (i : Nat) (b : Bool) :
    (writeBit O mem i b).length = mem.length :=
  BitPtr.length_write O mem _ b

theorem getD_set_self {α : Type} (l : List α) {i : Nat} (a d : α) (h : i < l.length) :
    (l.set i a).getD i d = a := by
  simp [List.getElem?_set_self h]

theorem getD_set_ne {α : Type} (l : List α) {i j : Nat} (a d : α) (h : i ≠ j) :
    (l.set i a).getD j d = l.getD j d := by
  simp [List.getElem?_set_ne h]

/-- A written bit reads back, when its element exists. -/
theorem readBit_writeBit_self (mem : List S.Mem) {i : Nat} (b : Bool)
    (h : i < mem.length * S.bits) : readBit O (writeBit O mem i b) i = b := by
  have hi : i / S.bits < mem.length := (Nat.div_lt_iff_lt_mul S.bits_pos).2 h
  simp only [readBit, writeBit, BitPtr.read, BitPtr.write, BitPtr.ofIndex]
  rw [getD_set_self _ _ _ hi, getBit_setBit_self]

/-- A write leaves every other bit address alone: another element, or another index of the
same element, which `at` keeps apart. -/
theorem readBit_writeBit_of_ne (mem : List S.Mem) {i j : Nat} (b : Bool) (h : i ≠ j) :
    readBit O (writeBit O mem i b) j = readBit O mem j := by
  simp only [readBit, writeBit, BitPtr.read, BitPtr.write, BitPtr.ofIndex]
  by_cases he : i / S.bits = j / S.bits
  · have hm : i % S.bits ≠ j % S.bits := fun hm =>
      h (by rw [← Nat.div_add_mod i S.bits, ← Nat.div_add_mod j S.bits, he, hm])
    rw [← he]
    by_cases hl : i / S.bits < mem.length
    · rw [getD_set_self _ _ _ hl, getBit_setBit_of_ne _ _ (fun e => hm (congrArg Fin.val e))]
    · rw [List.set_eq_of_length_le (by omega)]
  · rw [getD_set_ne _ _ _ he]

theorem readBit_writeBit (mem : List S.Mem) {i : Nat} (j : Nat) (b : Bool)
    (h : i < mem.length * S.bits) :
    readBit O (writeBit O mem i b) j = if i = j then b else readBit O mem j := by
  split
  · subst_vars
    exact readBit_writeBit_self mem b h
  · exact readBit_writeBit_of_ne mem b ‹_›

/-- Reading the window of `n` elements of `mem` from element `a` is reading `mem` from bit
address `a * BITS`. -/
theorem readBit_take_drop (mem : List S.Mem) (a n : Nat) {g : Nat} (hg : g / S.bits < n) :
    readBit O ((mem.drop a).take n) g = readBit O mem (a * S.bits + g) := by
  have hp : (BitPtr.ofIndex (a * S.bits + g) : BitPtr S) =
      ⟨a + g / S.bits, (BitPtr.ofIndex g).head⟩ := by
    apply BitPtr.index_injective
    have h := Nat.div_add_mod g S.bits
    rw [BitPtr.index_ofIndex]
    simp only [BitPtr.index, BitPtr.ofIndex, Nat.add_mul]
    rw [Nat.mul_comm (g / S.bits)]
    omega
  rw [readBit, readBit, hp]
  simp [BitPtr.read, BitPtr.ofIndex, List.getElem?_take_of_lt hg, List.getElem?_drop]

/-- Past the buffer's last element every bit address reads `false`. -/
theorem readBit_of_length_le (mem : List S.Mem) {g : Nat} (h : mem.length * S.bits ≤ g) :
    readBit O mem g = false := by
  have he : mem.length ≤ g / S.bits := (Nat.le_div_iff_mul_le S.bits_pos).2 h
  simp [readBit, BitPtr.read, BitPtr.ofIndex, List.getElem?_eq_none he]

@[simp] theorem readBit_replicate_zero (n g : Nat) :
    readBit O (List.replicate n 0#S.bits) g = false := by
  simp only [readBit, BitPtr.read, List.getD_eq_getElem?_getD, List.getElem?_replicate]
  split <;> simp

/-- Buffers of one length that agree at every bit address are equal: `at` reaches every bit
of every element. -/
theorem eq_of_readBit_eq {l l' : List S.Mem} (hlen : l.length = l'.length)
    (h : ∀ g, readBit O l g = readBit O l' g) : l = l' := by
  apply List.ext_getElem hlen
  intro e he he'
  apply eq_of_getBit_eq (O := O)
  intro i
  have hg := h (BitPtr.index ⟨e, i⟩)
  simp only [readBit, BitPtr.ofIndex_index, BitPtr.read] at hg
  simpa [List.getElem?_eq_getElem he, List.getElem?_eq_getElem he'] using hg

/-! ## Bit-spans -/

/-- Modelled from the spec: `BitSpan` (§4.3) is a bit-pointer and a length in bits, the region
a `&BitSlice` describes. -/
structure BitSpan (S : BitStore) where
  ptr : BitPtr S
  len : Nat
  deriving DecidableEq, Repr

namespace BitSpan

/-- Modelled from the spec: `BitSpan::elements` is the number of elements the span touches,
`elts(head + len)`. -/
def elements (s : BitSpan S) : Nat := elts S (s.ptr.head + s.len)

variable (O)

/-- The bits of the span in order: bit `i` is read through `ptr.add(i)`. -/
def toList (mem : List S.Mem) (s : BitSpan S) : List Bool :=
  (List.range s.len).map fun i => (s.ptr.add i).read O mem

/-- Modelled from the spec: `BitSlice::get_unchecked(range)` is the sub-span
`range.start .. range.end`. -/
def getUnchecked (s : BitSpan S) (r : Range) : BitSpan S := ⟨s.ptr.add r.start, r.end - r.start⟩

variable {O} (mem : List S.Mem) (s : BitSpan S)

/-- The bits of a span are the consecutive bit addresses from its pointer's. -/
theorem toList_eq : s.toList O mem = (List.range' s.ptr.index s.len).map (readBit O mem) := by
  simp [toList, List.range'_eq_map_range, BitPtr.read_eq]

@[simp] theorem length_toList : (s.toList O mem).length = s.len := by
  simp [toList]

theorem toList_getUnchecked (r : Range) :
    (s.getUnchecked r).toList O mem =
      (List.range' (s.ptr.index + r.start) (r.end - r.start)).map (readBit O mem) := by
  simp [toList_eq, getUnchecked]

/-- Every bit of a span whose elements lie in `mem` has its element in `mem`. -/
theorem index_add_lt (h : s.ptr.addr + s.elements ≤ mem.length) {i : Nat} (hi : i < s.len) :
    s.ptr.index + i < mem.length * S.bits := by
  have he := le_elts_mul (S := S) (s.ptr.head + s.len)
  have hm := Nat.mul_le_mul_right S.bits h
  simp only [elements, Nat.add_mul] at he hm
  simp only [BitPtr.index]
  omega

end BitSpan

end BitvecArray
