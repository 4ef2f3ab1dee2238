import BitvecArray.Ptr

/-!
# Bit-slices

A `&BitSlice<S, O>` is a span together with the allocation it borrows. The slice layer is
absent from the excerpt; the operations of it that the array layer calls are modelled here
from the spec:

* the bitwise assigning operators `&=`, `|=`, `^=` against another bit sequence, which
  fail with `LengthMismatch` on operands of unequal length before writing anything, and
  otherwise combine the two bit by bit in ascending order (§4.5);
* equality and ordering, which compare the two bit sequences;
* the checked write of one bit, `set`;
* the view of a slice as its bit sequence.

The bitwise operator is a length check and then a loop of single-bit writes. Its
specification is a pair of lemmas about the memory it returns: inside the span each bit
becomes `f old rhs`, and no other bit address changes.
-/

namespace BitvecArray

variable {S : BitStore} {O : BitOrder S}

/-- Modelled from the spec: a `&BitSlice<S, O>` is a span and the allocation it borrows, which
holds every element the span touches. -/
structure BitSlice (O : BitOrder S) where
  mem : List S.Mem
  span : BitSpan S
  inBounds : span.ptr.addr + span.elements ≤ mem.length

/-- The slice's bits, in order. -/
def BitSlice.toList (s : BitSlice O) : List Bool := s.span.toList O s.mem

/-- Modelled from the spec: `PartialEq` between bit-slices (absent from the excerpt) compares
them as bit sequences. -/
def BitSlice.eq (s t : BitSlice O) : Bool := s.toList == t.toList

/-- Modelled from the spec: `Ord for BitSlice` (absent from the excerpt) walks the two bit
sequences together, where a `true` against a `false` decides, and compares the lengths when
one of them runs out. -/
def cmpBits : List Bool → List Bool → Ordering
  | x :: xs, y :: ys => if x = y then cmpBits xs ys else if x then .gt else .lt
  | xs, ys => compare xs.length ys.length

/-- Modelled from the spec: `Ord for BitSlice`. -/
def BitSlice.cmp (s t : BitSlice O) : Ordering := cmpBits s.toList t.toList

/-- Modelled from the spec: `PartialOrd for BitSlice` is the total order. -/
def BitSlice.partialCmp (s t : BitSlice O) : Option Ordering := some (s.cmp t)

/-! ## The order on bit sequences -/

theorem cmpBits_nil_left (l : List Bool) : cmpBits [] l = compare 0 l.length := by
  cases l <;> rfl

theorem cmpBits_nil_right (l : List Bool) : cmpBits l [] = compare l.length 0 := by
  cases l <;> rfl

theorem cmpBits_eq_iff : ∀ {l l' : List Bool}, cmpBits l l' = .eq ↔ l = l'
  | [], l' => by
    rw [cmpBits_nil_left, Nat.compare_eq_eq]
    cases l' <;> simp
  | _ :: _, [] => by simp [cmpBits_nil_right, Nat.compare_eq_eq]
  | x :: xs, y :: ys => by
    simp only [cmpBits, List.cons.injEq]
    split
    · next h => simp [h, cmpBits_eq_iff]
    · next h => split <;> simp [h]

theorem cmpBits_swap : ∀ l l' : List Bool, cmpBits l' l = (cmpBits l l').swap
  | [], l' => by simp [cmpBits_nil_left, cmpBits_nil_right, Nat.compare_swap]
  | _ :: _, [] => by simp [cmpBits_nil_left, cmpBits_nil_right, Nat.compare_swap]
  | x :: xs, y :: ys => by
    simp only [cmpBits]
    by_cases h : x = y
    · simp [h, cmpBits_swap xs ys]
    · cases x <;> cases y <;> simp_all [Ordering.swap]

theorem cmpBits_trans : ∀ {a b c : List Bool},
    cmpBits a b = .lt → cmpBits b c = .lt → cmpBits a c = .lt
  | [], [], _, hab, _ => by simp [cmpBits_nil_left, Nat.compare_eq_lt] at hab
  | [], _ :: _, [], _, hbc => by simp [cmpBits_nil_right, Nat.compare_eq_lt] at hbc
  | [], _ :: _, _ :: _, _, _ => by simp [cmpBits_nil_left, Nat.compare_eq_lt]
  | _ :: _, [], _, hab, _ => by simp [cmpBits_nil_right, Nat.compare_eq_lt] at hab
  | _ :: _, _ :: _, [], _, hbc => by simp [cmpBits_nil_right, Nat.compare_eq_lt] at hbc
  | x :: xs, y :: ys, z :: zs, hab, hbc => by
    simp only [cmpBits] at hab hbc ⊢
    cases x <;> cases y <;> cases z <;> simp at hab hbc ⊢ <;> exact cmpBits_trans hab hbc

/-- Modelled from the spec: `LengthMismatch` (§4.5), the failure of an operation on two
operands that must have equal length, reporting both lengths. -/
structure LengthMismatch where
  expected : Nat
  actual : Nat
  deriving DecidableEq, Repr

namespace BitSpan

variable (O)

/-- Modelled from the spec: `BitSlice::set` (absent from the excerpt) checks the index against
the length, panicking (`none`) past it, and writes the one bit through `ptr.add(j)`. -/
def set (mem : List S.Mem) (s : BitSpan S) (j : Nat) (b : Bool) : Option (List S.Mem) :=
  if j < s.len then some ((s.ptr.add j).write O mem b) else none

/-- The loop of a bitwise assigning operator: bit `i` of the span, for the `i`-th item of
`rhs` and onwards, becomes `f` of itself and the item. -/
def bitopAssignFrom (f : Bool → Bool → Bool) (p : BitPtr S) :
    Nat → List S.Mem → List Bool → List S.Mem
  | _, mem, [] => mem
  | i, mem, r :: rs =>
    bitopAssignFrom f p (i + 1) ((p.add i).write O mem (f ((p.add i).read O mem) r)) rs

/-- Modelled from the spec: the bit-slice `BitAndAssign`, `BitOrAssign` and `BitXorAssign`
against another bit sequence are absent from the excerpt. §4.5 has them check the lengths
before any write, failing with `LengthMismatch` when they differ, and otherwise combine the
two operands bit by bit in ascending order; `f` is the Boolean operator. -/
def bitopAssign (f : Bool → Bool → Bool) (mem : List S.Mem) (s : BitSpan S)
    (rhs : List Bool) : Except LengthMismatch (List S.Mem) :=
  if rhs.length = s.len then .ok (bitopAssignFrom O f s.ptr 0 mem rhs)
  else .error ⟨s.len, rhs.length⟩

variable {O} (f : Bool → Bool → Bool) (p : BitPtr S)

@[simp] theorem length_bitopAssignFrom (i : Nat) (mem : List S.Mem) (rs : List Bool) :
    (bitopAssignFrom O f p i mem rs).length = mem.length := by
  induction rs generalizing i mem with
  | nil => rfl
  | cons r rs ih => simp [bitopAssignFrom, ih]

/-- The loop's frame: bit addresses outside the ones it combines keep their bits. -/
theorem readBit_bitopAssignFrom_of_not_mem (i : Nat) (mem : List S.Mem) (rs : List Bool)
    {g : Nat} (hg : g < p.index + i ∨ p.index + i + rs.length ≤ g) :
    readBit O (bitopAssignFrom O f p i mem rs) g = readBit O mem g := by
  induction rs generalizing i mem with
  | nil => rfl
  | cons r rs ih =>
    simp only [bitopAssignFrom]
    rw [ih (i + 1) _ (by simp at hg; omega), BitPtr.write_eq, BitPtr.index_add,
      readBit_writeBit_of_ne _ _ (by simp at hg; omega)]

/-- Inside the combined addresses, bit `k` becomes `f` of its old value and `rs[k]`. -/
theorem readBit_bitopAssignFrom (i : Nat) (mem : List S.Mem) (rs : List Bool)
    (hmem : p.index + i + rs.length ≤ mem.length * S.bits) (k : Nat) (hk : k < rs.length) :
    readBit O (bitopAssignFrom O f p i mem rs) (p.index + i + k) =
      f (readBit O mem (p.index + i + k)) rs[k] := by
  induction rs generalizing i mem k with
  | nil => simp at hk
  | cons r rs ih =>
    simp only [bitopAssignFrom, BitPtr.write_eq, BitPtr.read_eq, BitPtr.index_add]
    simp only [List.length_cons] at hmem
    cases k with
    | zero =>
      rw [readBit_bitopAssignFrom_of_not_mem _ _ _ _ _ (by omega), Nat.add_zero,
        readBit_writeBit_self _ _ (by omega)]
      rfl
    | succ k =>
      have h := ih (i + 1) (writeBit O mem (p.index + i) (f (readBit O mem (p.index + i)) r))
        (by simp; omega) k (by simpa using hk)
      rw [show p.index + i + (k + 1) = p.index + (i + 1) + k by omega, h,
        readBit_writeBit_of_ne _ _ (by omega)]
      rfl

variable {f} (mem : List S.Mem) (s : BitSpan S) (rhs : List Bool)

/-- Operands of equal length never fail. -/
theorem bitopAssign_of_length_eq (h : rhs.length = s.len) :
    s.bitopAssign O f mem rhs = .ok (bitopAssignFrom O f s.ptr 0 mem rhs) :=
  if_pos h

/-- Operands of unequal length fail, reporting both lengths, and return no memory. -/
theorem bitopAssign_of_length_ne (h : rhs.length ≠ s.len) :
    s.bitopAssign O f mem rhs = .error ⟨s.len, rhs.length⟩ :=
  if_neg h

theorem bitopAssign_ne_error (h : rhs.length = s.len) (e : LengthMismatch) :
    s.bitopAssign O f mem rhs ≠ .error e := by
  rw [bitopAssign_of_length_eq mem s rhs h]
  exact Except.noConfusion

/-- A success passed the length check and ran the loop. -/
theorem eq_of_bitopAssign {mem' : List S.Mem} (h : s.bitopAssign O f mem rhs = .ok mem') :
    rhs.length = s.len ∧ bitopAssignFrom O f s.ptr 0 mem rhs = mem' := by
  unfold bitopAssign at h
  split at h
  · exact ⟨‹_›, Except.ok.inj h⟩
  · cases h

section ok

variable {rhs} {mem' : List S.Mem} (h : s.bitopAssign O f mem rhs = .ok mem')
include h

theorem length_of_bitopAssign : mem'.length = mem.length := by
  rw [← (eq_of_bitopAssign mem s rhs h).2, length_bitopAssignFrom]

/-- Outside the span, a bitwise assigning operator changes no bit. -/
theorem readBit_of_bitopAssign_of_not_mem {g : Nat}
    (hg : g < s.ptr.index ∨ s.ptr.index + s.len ≤ g) : readBit O mem' g = readBit O mem g := by
  obtain ⟨hlen, rfl⟩ := eq_of_bitopAssign mem s rhs h
  exact readBit_bitopAssignFrom_of_not_mem _ _ _ _ _ (by omega)

/-- Inside the span, bit `k` becomes `f` of its old value and `rhs[k]`. -/
theorem readBit_of_bitopAssign (hin : s.ptr.addr + s.elements ≤ mem.length) {k : Nat}
    (hk : k < rhs.length) :
    readBit O mem' (s.ptr.index + k) = f (readBit O mem (s.ptr.index + k)) rhs[k] := by
  obtain ⟨hlen, rfl⟩ := eq_of_bitopAssign mem s rhs h
  have hbound := s.index_add_lt mem hin (i := s.len - 1) (by omega)
  simpa only [Nat.add_zero] using
    readBit_bitopAssignFrom (O := O) f s.ptr 0 mem rhs (by omega) k hk

/-- Inside memory, the span's bits are combined bit by bit. -/
theorem toList_of_bitopAssign (hin : s.ptr.addr + s.elements ≤ mem.length) :
    s.toList O mem' = List.zipWith f (s.toList O mem) rhs := by
  have hlen := (eq_of_bitopAssign mem s rhs h).1
  apply List.ext_getElem (by simp [hlen])
  intro k hk _
  have hk' : k < s.len := by simpa using hk
  simp only [toList_eq, List.getElem_map, List.getElem_range', List.getElem_zipWith, Nat.one_mul]
  exact readBit_of_bitopAssign mem s h hin (by omega)

end ok

theorem set_eq (j : Nat) (b : Bool) :
    s.set O mem j b = if j < s.len then some (writeBit O mem (s.ptr.index + j) b) else none := by
  simp [set, BitPtr.write_eq]

theorem length_of_set {j : Nat} {b : Bool} {mem' : List S.Mem} (h : s.set O mem j b = some mem') :
    mem'.length = mem.length := by
  rw [set_eq] at h
  split at h
  · cases h
    simp
  · cases h

end BitSpan

end BitvecArray
