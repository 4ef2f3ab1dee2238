import BitvecArray.Array.Traits
import BitvecArray.Macros

/-!
# Operators on bit-arrays

`!a` complements every raw element of the buffer, padding included. The bitwise operators
`&`, `|`, `^` and their assigning forms go through `as_mut_bitslice`, the view of the first
`N` bits, and hand the right-hand array's `as_bitslice` to the bit-slice operator. The two
paths therefore treat the padding differently: `!` flips it, the bitwise operators never
touch it.

The three bitwise operators differ only in the Boolean operator they apply, so they are one
definition, `bitopAssign f`, with one specification; each operator keeps its own name.
-/

namespace BitvecArray

namespace BitArray

variable {S : BitStore} {O : BitOrder S} {N : Nat}

/-- `Not for BitArray`: every element of `as_raw_mut_slice`, padding included, is stored back
complemented. -/
def not (a : BitArray O N) : BitArray O N :=
  ⟨a.asRawSlice.map (~~~·), (List.length_map _ _).trans a.length_data⟩

/-- The assigning bitwise operators with a bit-array of the same type on the right:
`*self.as_mut_bitslice() op= rhs`, which the bit-slice operator carries out against
`rhs.as_bitslice()`. Both views hold `N` bits, so the operator's `LengthMismatch` cannot
occur. -/
def bitopAssign (f : Bool → Bool → Bool) (a rhs : BitArray O N) : BitArray O N :=
  match h : a.asMutBitslice.span.bitopAssign O f a.asMutBitslice.mem rhs.asBitslice.toList with
  | .ok mem => ⟨mem, (BitSpan.length_of_bitopAssign _ _ h).trans a.length_data⟩
  | .error e => absurd h (BitSpan.bitopAssign_ne_error _ _ _ rhs.length_toList e)

/-- `BitAndAssign for BitArray`. -/
def bitandAssign (a rhs : BitArray O N) : BitArray O N := a.bitopAssign (· && ·) rhs

/-- `BitOrAssign for BitArray`. -/
def bitorAssign (a rhs : BitArray O N) : BitArray O N := a.bitopAssign (· || ·) rhs

/-- `BitXorAssign for BitArray`. -/
def bitxorAssign (a rhs : BitArray O N) : BitArray O N := a.bitopAssign xor rhs

/-- `BitAnd for BitArray`: `self &= rhs` on the moved value, which is returned. -/
def bitand (a rhs : BitArray O N) : BitArray O N := a.bitandAssign rhs

/-- `BitOr for BitArray`: `self |= rhs` on the moved value, which is returned. -/
def bitor (a rhs : BitArray O N) : BitArray O N := a.bitorAssign rhs

/-- `BitXor for BitArray`: `self ^= rhs` on the moved value, which is returned. -/
def bitxor (a rhs : BitArray O N) : BitArray O N := a.bitxorAssign rhs

/-! ## `!` -/

variable (a b : BitArray O N)

/-- Inside the buffer, every bit address reads complemented after `!`. -/
theorem readBit_not {g : Nat} (hg : g < a.data.length * S.bits) :
    readBit O a.not.data g = !readBit O a.data g := by
  have he : g / S.bits < a.data.length := (Nat.div_lt_iff_lt_mul S.bits_pos).2 hg
  simp [not, asRawSlice, readBit, BitPtr.read, BitPtr.ofIndex, List.getElem?_eq_getElem he]

theorem toList_not : a.not.toList = a.toList.map (!·) := by
  rw [toList_eq, toList_eq, List.map_map]
  refine List.map_congr_left fun g hg => ?_
  have : g < a.data.length * S.bits :=
    Nat.lt_of_lt_of_le (List.mem_range.1 hg) a.le_length_mul
  simp [readBit_not a this]

theorem not_not : a.not.not = a := by
  obtain ⟨data, h⟩ := a
  simp [not, asRawSlice, Function.comp_def, BitVec.not_not]

/-! ## The bitwise operators -/

/-- What the spec asks of a bitwise operator `op` on bit-arrays with Boolean meaning `f`:
every live bit of `op a b` is `f` of the operands' bits, and every bit address from `N`
on, the padding, keeps `a`'s raw bit. -/
def ActsOnLiveBits (op : BitArray O N → BitArray O N → BitArray O N)
    (f : Bool → Bool → Bool) : Prop :=
  ∀ a b : BitArray O N, (op a b).toList = List.zipWith f a.toList b.toList ∧
    ∀ g, N ≤ g → readBit O (op a b).data g = readBit O a.data g

variable (f : Bool → Bool → Bool)

/-- The bit-slice operator succeeds on the two views, and its memory is the result's buffer. -/
theorem bitopAssign_eq_ok :
    a.asBitslice.span.bitopAssign O f a.data b.toList = .ok (a.bitopAssign f b).data := by
  unfold bitopAssign
  split
  · next h => exact h
  · next e h => exact absurd h (BitSpan.bitopAssign_ne_error _ _ _ b.length_toList e)

/-- Every live bit of `a op= b` is `f` of the two operands' bits. -/
theorem readBit_bitopAssign {g : Nat} (hg : g < N) :
    readBit O (a.bitopAssign f b).data g = f (readBit O a.data g) (readBit O b.data g) := by
  have h := BitSpan.readBit_of_bitopAssign _ _ (bitopAssign_eq_ok a b f) a.asBitslice.inBounds
    (k := g) (by simpa using hg)
  rw [asBitslice_span, BitPtr.index_fromSlice, Nat.zero_add] at h
  refine h.trans ?_
  simp [toList_eq]

/-- The padding, every bit address from `N` on, keeps the left operand's bits. -/
theorem readBit_bitopAssign_of_le {g : Nat} (hg : N ≤ g) :
    readBit O (a.bitopAssign f b).data g = readBit O a.data g :=
  BitSpan.readBit_of_bitopAssign_of_not_mem _ _ (bitopAssign_eq_ok a b f)
    (by simp [BitPtr.index_fromSlice]; omega)

theorem toList_bitopAssign :
    (a.bitopAssign f b).toList = List.zipWith f a.toList b.toList :=
  BitSpan.toList_of_bitopAssign _ _ (bitopAssign_eq_ok a b f) a.asBitslice.inBounds


/-- Every bit-array operator of the family acts on the live bits and leaves the padding. -/
theorem bitopAssign_acts : ActsOnLiveBits (bitopAssign f : BitArray O N → _ → _) f :=
  fun a b => ⟨toList_bitopAssign a b f, fun _ hg => readBit_bitopAssign_of_le a b f hg⟩

theorem bitxor_bitxor_cancel : (a.bitxor b).bitxor b = a := by
  apply ext_readBit
  intro g
  by_cases hg : g < N
  · simp only [bitxor, bitxorAssign, readBit_bitopAssign _ _ _ hg, Bool.xor_assoc,
      Bool.xor_self, Bool.xor_false]
  · simp only [bitxor, bitxorAssign, readBit_bitopAssign_of_le _ _ _ (Nat.le_of_not_lt hg)]

/-- The bitwise operators act on exactly the live bits: each live bit of the result combines
the operands' bits, and the padding keeps the left operand's raw bits, so `^ b` twice
restores the raw elements. -/
theorem bitops_act_on_live_bits :
    ActsOnLiveBits (bitand : BitArray O N → _ → _) (· && ·) ∧
    ActsOnLiveBits (bitor : BitArray O N → _ → _) (· || ·) ∧
    ActsOnLiveBits (bitxor : BitArray O N → _ → _) xor ∧
    ActsOnLiveBits (bitandAssign : BitArray O N → _ → _) (· && ·) ∧
    ActsOnLiveBits (bitorAssign : BitArray O N → _ → _) (· || ·) ∧
    ActsOnLiveBits (bitxorAssign : BitArray O N → _ → _) xor ∧
    ∀ a b : BitArray O N, (a.bitxor b).bitxor b = a :=
  ⟨bitopAssign_acts _, bitopAssign_acts _, bitopAssign_acts _, bitopAssign_acts _,
    bitopAssign_acts _, bitopAssign_acts _, bitxor_bitxor_cancel⟩

theorem zipWith_xor_replicate_true (l : List Bool) :
    List.zipWith xor l (List.replicate l.length true) = l.map (!·) := by
  induction l with
  | nil => rfl
  | cons x l ih => simp [List.replicate_succ, ih]

/-- `!a` complements every live bit, since it complements every raw element; it agrees with
`a ^ bitarr![1; N]` on the live bits, and `!!a` restores the raw elements. -/
theorem not_complements_every_bit :
    a.not.toList = a.toList.map (!·) ∧
    a.not.intoInner = a.intoInner.map (~~~·) ∧
    a.not.not.intoInner = a.intoInner ∧
    a.not.eq (a.bitxor (bitarrRepeat O N 1)) = true := by
  refine ⟨toList_not a, rfl, by rw [not_not], ?_⟩
  have hones : (bitarrRepeat O N 1).toList = List.replicate a.toList.length true := by
    simp [toList_bitarrRepeat]
  have hxor : (a.bitxor (bitarrRepeat O N 1)).toList = a.toList.map (!·) := by
    rw [bitxor, bitxorAssign, toList_bitopAssign, hones, zipWith_xor_replicate_true]
  show (a.not.toList == (a.bitxor (bitarrRepeat O N 1)).toList) = true
  rw [toList_not, hxor]
  exact beq_self_eq_true _

/-! ## Live bits and raw elements -/

theorem readBit_not_of_lt {g : Nat} (hg : g < N) : readBit O a.not.data g = !readBit O a.data g :=
  readBit_not a (Nat.lt_of_lt_of_le hg a.le_length_mul)

/-- Under `==`, which compares live bits, the operators form a Boolean algebra with `ZERO` as
bottom and `bitarr![S, O; 1; N]` as top: `&` and `|` commute, associate and distribute over
each other, the bottom and top are their identities, `!a` is a complement of `a`, De Morgan's
laws hold, and `a ^ a` is `ZERO`. -/
theorem bitops_boolean_algebra (a b c : BitArray O N) :
    (a.bitand b).eq (b.bitand a) = true ∧ (a.bitor b).eq (b.bitor a) = true ∧
    ((a.bitand b).bitand c).eq (a.bitand (b.bitand c)) = true ∧
    ((a.bitor b).bitor c).eq (a.bitor (b.bitor c)) = true ∧
    (a.bitand (b.bitor c)).eq ((a.bitand b).bitor (a.bitand c)) = true ∧
    (a.bitor (b.bitand c)).eq ((a.bitor b).bitand (a.bitor c)) = true ∧
    (a.bitor ZERO).eq a = true ∧ (a.bitand (bitarrRepeat O N 1)).eq a = true ∧
    (a.bitand a.not).eq ZERO = true ∧ (a.bitor a.not).eq (bitarrRepeat O N 1) = true ∧
    (a.bitand b).not.eq (a.not.bitor b.not) = true ∧
    (a.bitor b).not.eq (a.not.bitand b.not) = true ∧
    (a.bitxor a).eq ZERO = true := by
  simp only [eq_iff_readBit, bitand, bitor, bitxor, bitandAssign, bitorAssign, bitxorAssign]
  refine ⟨?_, ?_, ?_, ?_, ?_, ?_, ?_, ?_, ?_, ?_, ?_, ?_, ?_⟩ <;> intro g hg <;>
    simp only [readBit_bitopAssign _ _ _ hg, readBit_not_of_lt _ hg, readBit_ZERO,
      readBit_bitarrRepeat 1 (div_lt_elts hg)] <;>
    cases readBit O a.data g <;> cases readBit O b.data g <;> cases readBit O c.data g <;> rfl

/-- An idempotent operator applied to an array and itself gives the array back, padding
included. -/
theorem bitopAssign_self (hf : ∀ x, f x x = x) : a.bitopAssign f a = a :=
  ext_readBit fun g => by
    by_cases hg : g < N
    · rw [readBit_bitopAssign _ _ _ hg, hf]
    · rw [readBit_bitopAssign_of_le _ _ _ (Nat.le_of_not_lt hg)]

/-- A commutative operator commutes on raw elements exactly when the operands' padding
agrees, since the result keeps the left operand's. -/
theorem bitopAssign_comm_iff (hf : ∀ x y, f x y = f y x) :
    a.bitopAssign f b = b.bitopAssign f a ↔
      ∀ g, N ≤ g → readBit O a.data g = readBit O b.data g := by
  refine ⟨fun h g hg => ?_, fun h => ext_toList ?_ fun g hg => ?_⟩
  · have hg' := congrArg (fun x : BitArray O N => readBit O x.data g) h
    simpa only [readBit_bitopAssign_of_le _ _ _ hg] using hg'
  · rw [toList_bitopAssign, toList_bitopAssign, List.zipWith_comm_of_comm _ hf]
  · rw [readBit_bitopAssign_of_le _ _ _ hg, readBit_bitopAssign_of_le _ _ _ hg]
    exact h g hg

/-- On raw elements `&` and `|` are idempotent, and `a & b` holds the same elements as `b & a`
exactly when the operands' padding agrees, since each operator keeps its left operand's. -/
theorem bitops_on_raw_elements (a b : BitArray O N) :
    a.bitand a = a ∧ a.bitor a = a ∧
    (a.bitand b = b.bitand a ↔ ∀ g, N ≤ g → readBit O a.data g = readBit O b.data g) :=
  ⟨bitopAssign_self a _ Bool.and_self, bitopAssign_self a _ Bool.or_self,
    bitopAssign_comm_iff a b _ Bool.and_comm⟩

/-- `!a` flips whole elements and `a ^ bitarr![1; N]` flips the live bits one at a time: the
two hold the same raw elements exactly when `N` fills its last element, since `!` also flips
the padding that `^` keeps. -/
theorem not_eq_bitxor_ones_iff (a : BitArray O N) :
    a.not = a.bitxor (bitarrRepeat O N 1) ↔ N % S.bits = 0 := by
  constructor
  · intro h
    by_contra hmod
    have hN : N < a.data.length * S.bits := by
      rw [a.length_data]
      exact lt_elts_mul_of_mod_ne_zero hmod
    have hbit := congrArg (fun x : BitArray O N => readBit O x.data N) h
    simp only [readBit_not a hN, bitxor, bitxorAssign,
      readBit_bitopAssign_of_le _ _ _ (Nat.le_refl N)] at hbit
    exact Bool.not_ne_self _ hbit
  · intro hmod
    refine ext_readBit fun g => ?_
    by_cases hg : g < N
    · rw [readBit_not_of_lt a hg, bitxor, bitxorAssign, readBit_bitopAssign _ _ _ hg,
        readBit_bitarrRepeat 1 (div_lt_elts hg)]
      simp
    · have hlen : ∀ x : BitArray O N, x.data.length * S.bits ≤ g := fun x => by
        rw [x.length_data, elts_mul_of_mod_eq_zero hmod]
        omega
      rw [readBit_of_length_le _ (hlen _), readBit_of_length_le _ (hlen _)]

/-! ## Through a `&mut BitArray` -/

section mutRef

variable {mem : List S.Mem} (r : BitArrayRef O N mem)

/-- `*r op= b` writes the `N` bits from the reference's first bit and keeps every other bit
address, the rest of its elements included. -/
theorem readBit_store_bitopAssign (b : BitArray O N) (g : Nat) :
    readBit O (r.store (r.deref.bitopAssign f b)) g =
      if r.addr * S.bits ≤ g ∧ g < r.addr * S.bits + N then
        f (readBit O mem g) (readBit O b.data (g - r.addr * S.bits))
      else readBit O mem g := by
  have hN := le_elts_mul (S := S) N
  rw [r.readBit_store]
  by_cases hwin : r.addr * S.bits ≤ g ∧ g < (r.addr + elts S N) * S.bits
  · obtain ⟨k, rfl⟩ : ∃ k, g = r.addr * S.bits + k := ⟨g - r.addr * S.bits, by omega⟩
    have hk : k < elts S N * S.bits := by rw [Nat.add_mul] at hwin; omega
    rw [if_pos hwin, Nat.add_sub_cancel_left]
    by_cases hkN : k < N
    · rw [readBit_bitopAssign _ _ _ hkN, r.readBit_deref hk, if_pos (by omega)]
    · rw [readBit_bitopAssign_of_le _ _ _ (by omega), r.readBit_deref hk, if_neg (by omega)]
  · rw [if_neg hwin, if_neg (by rw [Nat.add_mul] at hwin; omega)]

/-- `*r = !*r` complements every bit of the reference's `elts(N)` elements, the padding past
the `N` bits included. -/
theorem readBit_store_not (g : Nat) :
    readBit O (r.store r.deref.not) g =
      if r.addr * S.bits ≤ g ∧ g < (r.addr + elts S N) * S.bits then !readBit O mem g
      else readBit O mem g := by
  rw [r.readBit_store]
  split
  · next hwin =>
    have hk : g - r.addr * S.bits < elts S N * S.bits := by rw [Nat.add_mul] at hwin; omega
    rw [readBit_not _ (by rwa [r.deref.length_data]), r.readBit_deref hk,
      Nat.add_sub_cancel' hwin.1]
  · rfl

end mutRef

end BitArray

/-- Through the `&mut BitArray` that `try_from` makes of a `&mut BitSlice`, the bitwise
operators write exactly the slice's bits, while `!` complements every bit of the elements
under the slice, so also the bits of its last element past the slice's end. -/
theorem tryFromMut_writes_past_slice {S : BitStore} {O : BitOrder S} {N : Nat} (src : BitSlice O)
    (r : BitArrayRef O N src.mem) (hr : tryFromMut N src = .ok r) (f : Bool → Bool → Bool)
    (b : BitArray O N) (g : Nat) :
    readBit O (r.store (r.deref.bitopAssign f b)) g =
      (if src.span.ptr.index ≤ g ∧ g < src.span.ptr.index + src.span.len then
        f (readBit O src.mem g) (readBit O b.data (g - src.span.ptr.index))
      else readBit O src.mem g) ∧
    readBit O (r.store r.deref.not) g =
      (if src.span.ptr.index ≤ g ∧ g < (src.span.ptr.addr + src.span.elements) * S.bits then
        !readBit O src.mem g
      else readBit O src.mem g) := by
  obtain ⟨hlen, hhead, haddr⟩ := tryFromRef_eq_ok hr
  have hindex : src.span.ptr.index = r.addr * S.bits := by
    simp [BitPtr.index, hhead, haddr, BitIdx.MIN]
  have helts : src.span.elements = elts S N := by simp [BitSpan.elements, hhead, hlen, BitIdx.MIN]
  rw [hindex, hlen, helts, ← haddr]
  exact ⟨BitArray.readBit_store_bitopAssign f r b g, BitArray.readBit_store_not r g⟩

/-- The first four bits of one zero byte in `Lsb0` order, viewed as a
`&mut BitArray<u8, Lsb0, U4>`: `!` through it sets bit 5, past the slice's end. -/
theorem tryFromMut_writes_past_slice_u8 :
    tryFromMut 4 (⟨[0#8], ⟨BitPtr.fromSlice, 4⟩, by decide⟩ : BitSlice (BitOrder.lsb0 u8)) =
        .ok ⟨0, by decide⟩ ∧
      readBit (BitOrder.lsb0 u8)
          ((⟨0, by decide⟩ : BitArrayRef (BitOrder.lsb0 u8) 4 [0#8]).store
            (⟨0, by decide⟩ : BitArrayRef (BitOrder.lsb0 u8) 4 [0#8]).deref.not) 5 =
        !readBit (BitOrder.lsb0 u8) [0#8] 5 :=
  ⟨rfl, (tryFromMut_writes_past_slice (N := 4)
    (⟨[0#8], ⟨BitPtr.fromSlice, 4⟩, by decide⟩ : BitSlice (BitOrder.lsb0 u8))
    ⟨0, by decide⟩ rfl (· && ·) BitArray.ZERO 5).2.trans (if_pos (by decide))⟩

end BitvecArray
