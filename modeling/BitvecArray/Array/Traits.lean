import BitvecArray.Array

/-!
# Trait implementations on bit-arrays

Equality of bit-arrays compares their `as_bitslice` views. The conversions from a bit-slice
to a bit-array (by reference, by mutable reference and by value) run one check,
`InnerError::new`, and on success reinterpret the slice's element address as the address of
a `BitArray<S, O, N>`. The check compares the length first and the head second, so a slice
of the wrong length is reported as `UnequalLen` whatever its head.

The cast is `unsafe`: it reads `elts(N)` elements from the slice's address. A reference is
modelled as an address together with the proof that those elements lie in the borrowed
allocation, so the cast cannot be written without discharging that obligation from the
check's success.
-/

namespace BitvecArray

variable {S : BitStore} {O : BitOrder S} {N : Nat}

/-- `PartialEq for BitArray`: `self.as_bitslice() == other.as_bitslice()`. -/
def BitArray.eq (a b : BitArray O N) : Bool := a.asBitslice.eq b.asBitslice

/-- `Ord for BitArray`: `self.as_bitslice().cmp(other.as_bitslice())`. -/
def BitArray.cmp (a b : BitArray O N) : Ordering := a.asBitslice.cmp b.asBitslice

/-- `PartialOrd for BitArray` against a bit-array, through `PartialOrd<BitArray> for BitSlice`:
`self.as_bitslice().partial_cmp(other.as_bitslice())`. -/
def BitArray.partialCmp (a b : BitArray O N) : Option Ordering :=
  a.asBitslice.partialCmp b.asBitslice

/-- `==` compares the live bits. -/
theorem BitArray.eq_iff_readBit (a b : BitArray O N) :
    a.eq b = true ↔ ∀ g < N, readBit O a.data g = readBit O b.data g := by
  show (a.toList == b.toList) = true ↔ _
  rw [beq_iff_eq, BitArray.toList_eq, BitArray.toList_eq, List.map_inj_left]
  simp

/-- `Eq`, `Ord` and `PartialOrd` for bit-arrays agree and compare the `N` live bits only:
`==` holds exactly when the live bits agree, `cmp` depends on nothing else, `==` is reflexive,
`cmp` is `Equal` exactly when `==` holds, swapping the operands swaps it, `Less` is
transitive, and `partial_cmp` is `Some(cmp)`. -/
theorem BitArray.cmp_agrees_with_eq (a b c : BitArray O N) :
    (a.eq b = true ↔ ∀ g < N, readBit O a.data g = readBit O b.data g) ∧
    (∀ a' b' : BitArray O N, a'.toList = a.toList → b'.toList = b.toList →
      a'.cmp b' = a.cmp b) ∧
    a.eq a = true ∧ (a.cmp b = .eq ↔ a.eq b = true) ∧ b.cmp a = (a.cmp b).swap ∧
    (a.cmp b = .lt → b.cmp c = .lt → a.cmp c = .lt) ∧ a.partialCmp b = some (a.cmp b) :=
  ⟨a.eq_iff_readBit b, fun _ _ ha hb => congrArg₂ cmpBits ha hb,
    beq_self_eq_true _, cmpBits_eq_iff.trans beq_iff_eq.symm, cmpBits_swap _ _, cmpBits_trans,
    rfl⟩

/-! ## Conversion errors -/

/-- `InnerError`: why a bit-slice cannot be viewed as a bit-array. -/
inductive InnerError
  /-- The bit-slice's length differs from the bit-array's. -/
  | unequalLen (actual expected : Nat)
  /-- The bit-slice does not begin at `BitIdx::MIN`. -/
  | misaligned
  deriving DecidableEq, Repr

/-- `TryFromBitSliceError`: the public wrapper of `InnerError`. -/
structure TryFromBitSliceError where
  inner : InnerError
  deriving DecidableEq, Repr

/-- `InnerError::new`: the length is compared first, then the head. -/
def InnerError.new (N : Nat) (bits : BitSlice O) : Except InnerError Unit :=
  let actual := bits.span.len
  let expected := N
  if actual ≠ expected then .error (.unequalLen actual expected)
  else if bits.span.ptr.head ≠ BitIdx.MIN then .error .misaligned
  else .ok ()

/-- `TryFromBitSliceError::new`. -/
def TryFromBitSliceError.new (N : Nat) (bits : BitSlice O) :
    Except TryFromBitSliceError Unit :=
  (InnerError.new N bits).mapError TryFromBitSliceError.mk

/-- `Debug for TryFromBitSliceError`. -/
def TryFromBitSliceError.debug : TryFromBitSliceError → String
  | ⟨.unequalLen actual expected⟩ =>
    s!"TryFromBitSliceError::UnequalLen({actual} != {expected})"
  | ⟨.misaligned⟩ => "TryFromBitSliceError::Misaligned"

/-- `Display for TryFromBitSliceError`. -/
def TryFromBitSliceError.display : TryFromBitSliceError → String
  | ⟨.unequalLen actual expected⟩ =>
    s!"bit-slice with length {actual} cannot be viewed as bit-array with length {expected}"
  | ⟨.misaligned⟩ =>
    "a bit-slice must begin at the front edge of a storage element in order to be viewed as a bit-array"

theorem TryFromBitSliceError.new_eq (bits : BitSlice O) :
    TryFromBitSliceError.new N bits =
      if bits.span.len ≠ N then .error ⟨.unequalLen bits.span.len N⟩
      else if bits.span.ptr.head ≠ BitIdx.MIN then .error ⟨.misaligned⟩
      else .ok () := by
  simp only [new, InnerError.new]
  split_ifs <;> rfl

/-- The check passes exactly on slices of length `N` that begin at an element's first bit. -/
theorem TryFromBitSliceError.new_eq_ok {bits : BitSlice O} :
    TryFromBitSliceError.new N bits = .ok () ↔
      bits.span.len = N ∧ bits.span.ptr.head = BitIdx.MIN := by
  rw [new_eq]
  split_ifs <;> simp_all

/-! ## References to bit-arrays -/

/-- A `&BitArray<S, O, N>` (or `&mut`) into the allocation `mem`: an element address whose
`elts(N)` elements lie in `mem`. -/
structure BitArrayRef (O : BitOrder S) (N : Nat) (mem : List S.Mem) where
  addr : Nat
  inBounds : addr + elts S N ≤ mem.length

/-- The bit-array a reference points at: the `elts(N)` elements from its address. -/
def BitArrayRef.deref {mem : List S.Mem} (r : BitArrayRef O N mem) : BitArray O N :=
  ⟨(mem.drop r.addr).take (elts S N), by
    simp only [List.length_take, List.length_drop]; have := r.inBounds; omega⟩

/-- A write of a whole array through a `&mut BitArray<S, O, N>`: the `elts(N)` elements from
the reference's address are replaced by the array's. -/
def BitArrayRef.store {mem : List S.Mem} (r : BitArrayRef O N mem) (a : BitArray O N) :
    List S.Mem :=
  mem.take r.addr ++ a.data ++ mem.drop (r.addr + elts S N)

/-- A passed check makes the cast's `elts(N)` elements lie inside the slice's allocation. -/
theorem TryFromBitSliceError.inBounds_of_new {bits : BitSlice O}
    (h : TryFromBitSliceError.new N bits = .ok ()) :
    bits.span.ptr.addr + elts S N ≤ bits.mem.length := by
  obtain ⟨hlen, hhead⟩ := new_eq_ok.1 h
  have hb := bits.inBounds
  simp only [BitSpan.elements, hlen, hhead, BitIdx.MIN, Nat.zero_add] at hb
  exact hb

/-- `TryFrom<&BitSlice> for &BitArray`: the check, then the slice's element address cast to
a bit-array reference. -/
def tryFromRef (N : Nat) (src : BitSlice O) :
    Except TryFromBitSliceError (BitArrayRef O N src.mem) :=
  match h : TryFromBitSliceError.new N src with
  | .error e => .error e
  | .ok () => .ok ⟨src.span.ptr.addr, TryFromBitSliceError.inBounds_of_new h⟩

/-- `TryFrom<&mut BitSlice> for &mut BitArray`: the same check and the same cast, through
`to_mut` instead of `to_const`. -/
def tryFromMut (N : Nat) (src : BitSlice O) :
    Except TryFromBitSliceError (BitArrayRef O N src.mem) :=
  tryFromRef N src

/-- `TryFrom<&BitSlice> for BitArray`: the reference conversion, then a clone of the array. -/
def tryFrom (N : Nat) (src : BitSlice O) : Except TryFromBitSliceError (BitArray O N) :=
  (tryFromRef N src).map BitArrayRef.deref

/-! ## What the conversions return -/

section tryFrom

variable {src : BitSlice O}

theorem tryFromRef_of_new_error {e : TryFromBitSliceError}
    (h : TryFromBitSliceError.new N src = .error e) : tryFromRef N src = .error e := by
  unfold tryFromRef
  split <;> simp_all

theorem tryFromRef_of_new_ok (h : TryFromBitSliceError.new N src = .ok ()) :
    tryFromRef N src = .ok ⟨src.span.ptr.addr, TryFromBitSliceError.inBounds_of_new h⟩ := by
  unfold tryFromRef
  split
  · simp_all
  · rfl

/-- The array a reference reads is the window of `elts(N)` elements from its address, and
its bits are the allocation's bits from the address's first bit. -/
theorem BitArrayRef.toList_deref {mem : List S.Mem} (r : BitArrayRef O N mem) :
    r.deref.toList = (List.range N).map fun g => readBit O mem (r.addr * S.bits + g) := by
  rw [BitArray.toList_eq]
  refine List.map_congr_left fun g hg => ?_
  exact readBit_take_drop mem r.addr _ (div_lt_elts (List.mem_range.1 hg))

/-- A slice of length `N` from an element's first bit reads the bits from its address's. -/
theorem BitSlice.toList_of_aligned (hlen : src.span.len = N)
    (hhead : src.span.ptr.head = BitIdx.MIN) :
    src.toList =
      (List.range N).map fun g => readBit O src.mem (src.span.ptr.addr * S.bits + g) := by
  simp [BitSlice.toList, BitSpan.toList_eq, hlen, hhead, BitPtr.index, BitIdx.MIN,
    List.range'_eq_map_range]

/-- A successful conversion checked the slice and points at the slice's element address. -/
theorem tryFromRef_eq_ok {r : BitArrayRef O N src.mem} (h : tryFromRef N src = .ok r) :
    src.span.len = N ∧ src.span.ptr.head = BitIdx.MIN ∧ r.addr = src.span.ptr.addr := by
  unfold tryFromRef at h
  split at h
  · cases h
  · next hnew =>
    cases h
    obtain ⟨hlen, hhead⟩ := TryFromBitSliceError.new_eq_ok.1 hnew
    exact ⟨hlen, hhead, rfl⟩

theorem tryFrom_eq_error {e : TryFromBitSliceError} :
    tryFrom N src = .error e ↔ tryFromRef N src = .error e := by
  unfold tryFrom
  cases tryFromRef N src <;> simp [Except.map]

theorem tryFromRef_misaligned_iff :
    tryFromRef N src = .error ⟨.misaligned⟩ ↔
      src.span.len = N ∧ src.span.ptr.head ≠ BitIdx.MIN := by
  by_cases hlen : src.span.len = N
  · by_cases hhead : src.span.ptr.head = BitIdx.MIN
    · have h := TryFromBitSliceError.new_eq_ok.2 ⟨hlen, hhead⟩
      simp [tryFromRef_of_new_ok h, hhead]
    · rw [tryFromRef_of_new_error (e := ⟨.misaligned⟩)
        (by simp [TryFromBitSliceError.new_eq, hlen, hhead])]
      simp [hlen, hhead]
  · rw [tryFromRef_of_new_error (by simp [TryFromBitSliceError.new_eq, hlen]; rfl)]
    simp [hlen]

theorem tryFrom_reinterprets_exactly (src : BitSlice O) :
    (src.span.len ≠ N →
      tryFromRef N src = .error ⟨.unequalLen src.span.len N⟩ ∧
      tryFromMut N src = .error ⟨.unequalLen src.span.len N⟩ ∧
      tryFrom N src = .error ⟨.unequalLen src.span.len N⟩) ∧
    ((tryFromRef N src = .error ⟨.misaligned⟩ ↔
        src.span.len = N ∧ src.span.ptr.head ≠ BitIdx.MIN) ∧
      (tryFromMut N src = .error ⟨.misaligned⟩ ↔
        src.span.len = N ∧ src.span.ptr.head ≠ BitIdx.MIN) ∧
      (tryFrom N src = .error ⟨.misaligned⟩ ↔
        src.span.len = N ∧ src.span.ptr.head ≠ BitIdx.MIN)) ∧
    (src.span.len = N → src.span.ptr.head = BitIdx.MIN →
      ∃ r : BitArrayRef O N src.mem, tryFromRef N src = .ok r ∧ tryFromMut N src = .ok r ∧
        tryFrom N src = .ok r.deref ∧ r.addr = src.span.ptr.addr ∧
        r.deref.data = (src.mem.drop src.span.ptr.addr).take src.span.elements ∧
        r.deref.toList = src.toList) ∧
    ∀ a : BitArray O N, tryFrom N a.asBitslice = .ok a := by
  refine ⟨fun hne => ?_, ⟨tryFromRef_misaligned_iff, tryFromRef_misaligned_iff,
    tryFrom_eq_error.trans tryFromRef_misaligned_iff⟩, fun hlen hhead => ?_, fun a => ?_⟩
  · have h : tryFromRef N src = .error ⟨.unequalLen src.span.len N⟩ :=
      tryFromRef_of_new_error (by simp [TryFromBitSliceError.new_eq, hne])
    exact ⟨h, h, tryFrom_eq_error.2 h⟩
  · have hnew := TryFromBitSliceError.new_eq_ok.2 ⟨hlen, hhead⟩
    refine ⟨_, tryFromRef_of_new_ok hnew, tryFromRef_of_new_ok hnew, ?_, rfl, ?_, ?_⟩
    · simp [tryFrom, tryFromRef_of_new_ok hnew, Except.map]
    · simp [BitArrayRef.deref, BitSpan.elements, hlen, hhead, BitIdx.MIN]
    · rw [BitArrayRef.toList_deref, BitSlice.toList_of_aligned hlen hhead]
  · have hnew : TryFromBitSliceError.new N a.asBitslice = .ok () :=
      TryFromBitSliceError.new_eq_ok.2 ⟨rfl, rfl⟩
    simp only [tryFrom, tryFromRef_of_new_ok hnew, Except.map, Except.ok.injEq]
    obtain ⟨data, hdata⟩ := a
    simp [BitArrayRef.deref, BitArray.asBitslice, BitPtr.fromSlice, List.take_of_length_le, hdata]

end tryFrom

/-! ## Writes through a reference -/

namespace BitArrayRef

variable {mem : List S.Mem} (r : BitArrayRef O N mem) (a : BitArray O N)

@[simp] theorem length_store : (r.store a).length = mem.length := by
  have := r.inBounds
  simp only [store, List.length_append, List.length_take, List.length_drop, a.length_data]
  omega

/-- The elements a store writes are the array's. -/
theorem window_store : ((r.store a).drop r.addr).take (elts S N) = a.data := by
  have := r.inBounds
  rw [store, List.append_assoc, List.drop_left' (by simp; omega),
    List.take_left' a.length_data]

/-- A store leaves the elements outside its window alone. -/
theorem getD_store_of_not_mem {e : Nat} (he : e < r.addr ∨ r.addr + elts S N ≤ e) :
    (r.store a).getD e 0 = mem.getD e 0 := by
  have := r.inBounds
  have hlen : (mem.take r.addr ++ a.data).length = r.addr + elts S N := by
    simp [a.length_data]; omega
  simp only [store, List.getD_eq_getElem?_getD]
  rcases he with he | he
  · rw [List.append_assoc, List.getElem?_append_left (by simp; omega),
      List.getElem?_take_of_lt he]
  · rw [List.getElem?_append_right (by omega), hlen, List.getElem?_drop,
      Nat.add_sub_cancel' he]

/-- Which bit addresses a store changes: those of its window, which read the array's bits. -/
theorem readBit_store (g : Nat) :
    readBit O (r.store a) g =
      if r.addr * S.bits ≤ g ∧ g < (r.addr + elts S N) * S.bits then
        readBit O a.data (g - r.addr * S.bits)
      else readBit O mem g := by
  split
  · next h =>
    obtain ⟨k, rfl⟩ : ∃ k, g = r.addr * S.bits + k := ⟨g - r.addr * S.bits, by omega⟩
    have hk : k / S.bits < elts S N :=
      (Nat.div_lt_iff_lt_mul S.bits_pos).2 (by rw [Nat.add_mul] at h; omega)
    rw [Nat.add_sub_cancel_left, ← readBit_take_drop _ _ _ hk, window_store]
  · next h =>
    have he : g / S.bits < r.addr ∨ r.addr + elts S N ≤ g / S.bits := by
      rw [Nat.div_lt_iff_lt_mul S.bits_pos, Nat.le_div_iff_mul_le S.bits_pos]
      omega
    simp only [readBit, BitPtr.read, BitPtr.ofIndex, getD_store_of_not_mem r a he]

/-- The array behind a reference reads the allocation from the reference's first bit. -/
theorem readBit_deref {k : Nat} (hk : k < elts S N * S.bits) :
    readBit O r.deref.data k = readBit O mem (r.addr * S.bits + k) :=
  readBit_take_drop mem r.addr _ ((Nat.div_lt_iff_lt_mul S.bits_pos).2 hk)

end BitArrayRef

end BitvecArray
