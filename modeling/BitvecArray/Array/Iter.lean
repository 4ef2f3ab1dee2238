import BitvecArray.Array
import BitvecArray.Range

/-!
# By-value iteration over a bit-array

`IntoIter` owns the bit-array and the range `alive` of the indices it has not yet yielded.
Each iteration call forwards to the same method of `alive` and reads the yielded index with
`get`, which goes through a raw bit-pointer without a bounds check; `as_bitslice` and
`as_mut_bitslice` view the alive bits through `get_unchecked(alive)`.

The abstract model is the double-ended iterator `ListIter` over the list of alive bits. From
`IntoIter::new(a)`, every sequence of calls keeps `alive.start ≤ alive.end ≤ N`, so the
unchecked accesses stay in bounds, returns what the same calls return on the list iterator
over `a`'s bits, and leaves the iterator's alive bits equal to that iterator's list. Writes
through `as_mut_bitslice` are calls too. Once an iteration call returns `None`, the list is
empty and every later iteration call returns `None`.
-/

namespace BitvecArray

variable {S : BitStore} {O : BitOrder S} {N : Nat}

/-! ## Calls -/

/-- A call on the iterator: the four iteration methods, `len`, a read of the alive bits
through `as_bitslice`, and a write of one of them through `as_mut_bitslice`. -/
inductive Call
  | next
  | nextBack
  | nth (n : Nat)
  | nthBack (n : Nat)
  | len
  | asBitslice
  | set (j : Nat) (b : Bool)
  deriving DecidableEq, Repr

/-- What a call returns; `panic` is the write past the end of the alive bits. -/
inductive Reply
  | item (bit : Option Bool)
  | len (n : Nat)
  | bits (view : List Bool)
  | written
  | panic
  deriving DecidableEq, Repr

namespace ListIter

/-- The abstract iterator over a list of bits, one call at a time. -/
def step (l : List Bool) : Call → Reply × List Bool
  | .next => Prod.map .item id (next l)
  | .nextBack => Prod.map .item id (nextBack l)
  | .nth n => Prod.map .item id (nth l n)
  | .nthBack n => Prod.map .item id (nthBack l n)
  | .len => (.len l.length, l)
  | .asBitslice => (.bits l, l)
  | .set j b => if j < l.length then (.written, l.set j b) else (.panic, l)

/-- A sequence of calls on the abstract iterator. -/
def run (l : List Bool) : List Call → List Reply × List Bool
  | [] => ([], l)
  | c :: cs => ((step l c).1 :: (run (step l c).2 cs).1, (run (step l c).2 cs).2)

/-- After an iteration call yields nothing, the list is empty. -/
theorem step_eq_nil_of_none {l : List Bool} {c : Call} (h : (step l c).1 = .item none) :
    (step l c).2 = [] := by
  cases c with
  | next => exact next_eq_nil (by simpa [step] using h)
  | nextBack => exact nextBack_eq_nil (by simpa [step] using h)
  | nth n => exact nth_eq_nil n (by simpa [step] using h)
  | nthBack n => exact nthBack_eq_nil n (by simpa [step] using h)
  | len => cases h
  | asBitslice => cases h
  | set j b => simp only [step] at h; split at h <;> cases h

/-- The empty iterator stays empty and yields nothing. -/
theorem item_mem_run_nil (cs : List Call) {o : Option Bool}
    (h : Reply.item o ∈ (run [] cs).1) : o = none := by
  induction cs with
  | nil => cases h
  | cons c cs ih =>
    have hnil : (step [] c).2 = [] := by cases c <;> simp [step, next, nextBack, nth, nthBack]
    have hitem : ∀ o', (step [] c).1 = .item o' → o' = none := by
      cases c <;> simp [step, next, nextBack, nth, nthBack]
    simp only [run, hnil, List.mem_cons] at h
    rcases h with h | h
    · exact hitem o h.symm
    · exact ih h

/-- Draining the list from the front yields its items in order, then `None`. -/
theorem run_next_drain (l : List Bool) {n : Nat} (h : l.length = n) :
    (run l (List.replicate (n + 1) .next)).1 = l.map (Reply.item ∘ some) ++ [.item none] := by
  subst h
  induction l with
  | nil => rfl
  | cons x l ih =>
    rw [List.length_cons, List.replicate_succ, run]
    simp only [step, next, Prod.map, id, ih, List.map_cons, List.cons_append, Function.comp]

/-- Draining it from the back yields its items in reverse, then `None`. -/
theorem run_nextBack_drain (l : List Bool) {n : Nat} (h : l.length = n) :
    (run l (List.replicate (n + 1) .nextBack)).1 =
      l.reverse.map (Reply.item ∘ some) ++ [.item none] := by
  subst h
  induction l using List.reverseRecOn with
  | nil => rfl
  | append_singleton l x ih =>
    rw [List.length_append, List.length_singleton, List.replicate_succ, run]
    simp only [step, nextBack, Prod.map, id, List.getLast?_concat, List.dropLast_concat, ih,
      List.reverse_append, List.reverse_singleton, List.singleton_append, List.map_cons,
      List.cons_append, List.nil_append, Function.comp]

end ListIter

/-! ## The iterator -/

/-- `IntoIter<S, O, N>`: the bit-array being iterated and the indices not yet yielded. -/
structure IntoIter (O : BitOrder S) (N : Nat) where
  array : BitArray O N
  alive : Range

namespace IntoIter

/-- `IntoIter::new`: every index of `0 .. N` is alive. -/
def new (array : BitArray O N) : IntoIter O N := ⟨array, ⟨0, N⟩⟩

/-- `IntoIter::as_bitslice`: `array.as_bitslice().get_unchecked(alive)`. -/
def asBitslice (it : IntoIter O N) : BitSpan S :=
  it.array.asBitslice.span.getUnchecked it.alive

/-- `IntoIter::as_mut_bitslice`: `array.as_mut_bitslice().get_unchecked_mut(alive)`. -/
def asMutBitslice (it : IntoIter O N) : BitSpan S :=
  it.array.asMutBitslice.span.getUnchecked it.alive

/-- `IntoIter::get`: `BitPtr::from_slice(array.as_raw_slice()).add(index).read()`. -/
def get (it : IntoIter O N) (index : Nat) : Bool :=
  (BitPtr.fromSlice.add index).read O it.array.asRawSlice

/-- The body the four iteration methods share: run `method` on `alive` and read the index it
yields with `get`. -/
def forward (it : IntoIter O N) (method : Range → Option Nat × Range) :
    Option Bool × IntoIter O N :=
  ((method it.alive).1.map it.get, { it with alive := (method it.alive).2 })

/-- `Iterator::next`: `self.alive.next().map(|idx| self.get(idx))`. -/
def next (it : IntoIter O N) : Option Bool × IntoIter O N := it.forward Range.next

/-- `Iterator::nth`: `self.alive.nth(n).map(|idx| self.get(idx))`. -/
def nth (it : IntoIter O N) (n : Nat) : Option Bool × IntoIter O N := it.forward (·.nth n)

/-- `DoubleEndedIterator::next_back`. -/
def nextBack (it : IntoIter O N) : Option Bool × IntoIter O N := it.forward Range.nextBack

/-- `DoubleEndedIterator::nth_back`. -/
def nthBack (it : IntoIter O N) (n : Nat) : Option Bool × IntoIter O N :=
  it.forward (·.nthBack n)

/-- `ExactSizeIterator::len`: `self.alive.len()`. -/
def len (it : IntoIter O N) : Nat := it.alive.len

/-- A write `as_mut_bitslice().set(j, b)` into the alive bits; `none` is the bit-slice's
panic on an index past its end. -/
def set (it : IntoIter O N) (j : Nat) (b : Bool) : Option (IntoIter O N) :=
  match h : it.asMutBitslice.set O it.array.asMutBitslice.mem j b with
  | some mem =>
    some { it with array := ⟨mem, (BitSpan.length_of_set _ _ h).trans it.array.length_data⟩ }
  | none => none

/-- One call on the iterator. -/
def step (it : IntoIter O N) : Call → Reply × IntoIter O N
  | .next => Prod.map .item id it.next
  | .nextBack => Prod.map .item id it.nextBack
  | .nth n => Prod.map .item id (it.nth n)
  | .nthBack n => Prod.map .item id (it.nthBack n)
  | .len => (.len it.len, it)
  | .asBitslice => (.bits (it.asBitslice.toList O it.array.data), it)
  | .set j b =>
    match it.set j b with
    | some it' => (.written, it')
    | none => (.panic, it)

/-- A sequence of calls on the iterator. -/
def run (it : IntoIter O N) : List Call → List Reply × IntoIter O N
  | [] => ([], it)
  | c :: cs => ((it.step c).1 :: ((it.step c).2.run cs).1, ((it.step c).2.run cs).2)

/-- The alive bits: what `as_bitslice` reads. -/
def remaining (it : IntoIter O N) : List Bool := it.asBitslice.toList O it.array.data

/-- The invariant the `alive` comment states: `alive` lies inside `0 .. N`. -/
def Inv (it : IntoIter O N) : Prop := it.alive.start ≤ it.alive.end ∧ it.alive.end ≤ N

end IntoIter

/-! ## Refinement of the list iterator -/

theorem map_range'_set (g : Nat → Bool) (s n j : Nat) (b : Bool) :
    (List.range' s n).map (fun i => if s + j = i then b else g i) =
      ((List.range' s n).map g).set j b := by
  apply List.ext_getElem (by simp)
  intro k hk _
  simp [List.getElem_set]

namespace IntoIter

variable (it : IntoIter O N)

theorem get_eq : it.get = readBit O it.array.data := by
  funext i
  simp [get, BitPtr.read_eq, BitArray.asRawSlice]

/-- The alive bits are `get` of the alive indices. -/
theorem remaining_eq : it.remaining = it.alive.toList.map it.get := by
  rw [remaining, asBitslice, BitSpan.toList_getUnchecked, get_eq]
  simp [Range.toList]

theorem length_remaining : it.remaining.length = it.alive.end - it.alive.start := by
  simp [remaining_eq, Range.toList]

/-- An iteration call's result matches the list iterator's: the same item, and the alive
bits are the list left behind. -/
def Refines (p : Option Bool × IntoIter O N) (q : Option Bool × List Bool) : Prop :=
  p.1 = q.1 ∧ p.2.remaining = q.2

/-- The shared body refines the list iterator whenever the range method does. -/
theorem forward_refines {method : Range → Option Nat × Range} {res : Option Nat × List Nat}
    (hm : Prod.map id Range.toList (method it.alive) = res) :
    Refines (it.forward method) (Prod.map (Option.map it.get) (List.map it.get) res) := by
  subst hm
  exact ⟨rfl, remaining_eq _⟩

theorem forward_inv (method : Range → Option Nat × Range)
    (hm : it.alive.Shrinks (method it.alive).2) (hinv : it.Inv) : (it.forward method).2.Inv :=
  ⟨hm.1, Nat.le_trans hm.2 hinv.2⟩

theorem next_refines : Refines it.next (ListIter.next it.remaining) := by
  rw [remaining_eq, ListIter.next_map]
  exact forward_refines it (Range.next_refines _)

theorem nextBack_refines : Refines it.nextBack (ListIter.nextBack it.remaining) := by
  rw [remaining_eq, ListIter.nextBack_map]
  exact forward_refines it (Range.nextBack_refines _)

theorem nth_refines (n : Nat) (h : it.alive.end ≤ usizeMax) :
    Refines (it.nth n) (ListIter.nth it.remaining n) := by
  rw [remaining_eq, ListIter.nth_map]
  exact forward_refines it (Range.nth_refines _ n h)

theorem nthBack_refines (n : Nat) : Refines (it.nthBack n) (ListIter.nthBack it.remaining n) := by
  rw [remaining_eq, ListIter.nthBack_map]
  exact forward_refines it (Range.nthBack_refines _ n)

theorem asMutBitslice_set (j : Nat) (b : Bool) :
    it.asMutBitslice.set O it.array.asMutBitslice.mem j b =
      if j < it.alive.end - it.alive.start then
        some (writeBit O it.array.data (it.alive.start + j) b)
      else none := by
  simp [BitSpan.set_eq, asMutBitslice, BitSpan.getUnchecked]

/-- A write inside the alive bits changes exactly that bit of the list. -/
theorem set_of_lt (hinv : it.Inv) {j : Nat} (b : Bool) (hj : j < it.remaining.length) :
    ∃ it', it.set j b = some it' ∧ it'.alive = it.alive ∧
      it'.remaining = it.remaining.set j b := by
  rw [length_remaining] at hj
  have hbound : it.alive.start + j < it.array.data.length * S.bits :=
    Nat.lt_of_lt_of_le (by omega) (Nat.le_trans hinv.2 it.array.le_length_mul)
  unfold set
  split
  · next mem h =>
    rw [asMutBitslice_set, if_pos hj] at h
    injection h with h
    subst h
    refine ⟨_, rfl, rfl, ?_⟩
    rw [remaining_eq, remaining_eq, get_eq, get_eq, Range.toList, ← map_range'_set]
    exact List.map_congr_left fun i _ => readBit_writeBit _ i b hbound
  · next h =>
    rw [asMutBitslice_set, if_pos hj] at h
    cases h

/-- A write past the alive bits panics. -/
theorem set_of_le {j : Nat} (b : Bool) (hj : it.remaining.length ≤ j) : it.set j b = none := by
  rw [length_remaining] at hj
  unfold set
  split
  · next h =>
    rw [asMutBitslice_set, if_neg (by omega)] at h
    cases h
  · rfl

/-! ## Whole runs -/

/-- One call refines the list iterator and keeps the invariant. -/
theorem step_refines (hinv : it.Inv) (hN : N ≤ usizeMax) (c : Call) :
    (it.step c).1 = (ListIter.step it.remaining c).1 ∧
      (it.step c).2.remaining = (ListIter.step it.remaining c).2 ∧ (it.step c).2.Inv := by
  cases c with
  | next =>
    obtain ⟨h1, h2⟩ := it.next_refines
    exact ⟨congrArg Reply.item h1, h2, it.forward_inv _ (Range.next_shrinks hinv.1) hinv⟩
  | nextBack =>
    obtain ⟨h1, h2⟩ := it.nextBack_refines
    exact ⟨congrArg Reply.item h1, h2, it.forward_inv _ (Range.nextBack_shrinks hinv.1) hinv⟩
  | nth n =>
    obtain ⟨h1, h2⟩ := it.nth_refines n (Nat.le_trans hinv.2 hN)
    exact ⟨congrArg Reply.item h1, h2, it.forward_inv (·.nth n) (Range.nth_shrinks n) hinv⟩
  | nthBack n =>
    obtain ⟨h1, h2⟩ := it.nthBack_refines n
    exact ⟨congrArg Reply.item h1, h2,
      it.forward_inv (·.nthBack n) (Range.nthBack_shrinks n hinv.1) hinv⟩
  | len =>
    refine ⟨?_, rfl, hinv⟩
    simp [step, ListIter.step, len, Range.len_eq_length, remaining_eq]
  | asBitslice => exact ⟨rfl, rfl, hinv⟩
  | set j b =>
    by_cases hj : j < it.remaining.length
    · obtain ⟨it', hset, halive, hrem⟩ := it.set_of_lt hinv b hj
      have hs : it.step (.set j b) = (.written, it') := by simp [step, hset]
      have hl : ListIter.step it.remaining (.set j b) = (.written, it.remaining.set j b) := by
        simp [ListIter.step, hj]
      rw [hs, hl]
      exact ⟨rfl, hrem, by rw [Inv, halive]; exact hinv⟩
    · have hs : it.step (.set j b) = (.panic, it) := by
        simp [step, it.set_of_le b (Nat.le_of_not_lt hj)]
      have hl : ListIter.step it.remaining (.set j b) = (.panic, it.remaining) := by
        simp [ListIter.step, hj]
      rw [hs, hl]
      exact ⟨rfl, rfl, hinv⟩

/-- Every run refines the list iterator's run and keeps the invariant. -/
theorem run_refines (hN : N ≤ usizeMax) (cs : List Call) (hinv : it.Inv) :
    (it.run cs).1 = (ListIter.run it.remaining cs).1 ∧
      (it.run cs).2.remaining = (ListIter.run it.remaining cs).2 ∧ (it.run cs).2.Inv := by
  induction cs generalizing it with
  | nil => exact ⟨rfl, rfl, hinv⟩
  | cons c cs ih =>
    obtain ⟨h1, h2, h3⟩ := it.step_refines hinv hN c
    obtain ⟨k1, k2, k3⟩ := ih (it.step c).2 h3
    rw [h2] at k1 k2
    exact ⟨by simp only [run, ListIter.run, h1, k1], k2, k3⟩

theorem inv_new (a : BitArray O N) : (new a).Inv := ⟨Nat.zero_le _, Nat.le_refl _⟩

theorem remaining_new (a : BitArray O N) : (new a).remaining = a.toList := by
  rw [remaining_eq, get_eq, BitArray.toList_eq]
  simp [new, Range.toList, List.range_eq_range']

/-- Under the invariant, the index any range method yields to `get` is below `N`, so its
element is one of the raw slice's. -/
theorem yielded_lt (hinv : it.Inv) (hN : N ≤ usizeMax) {i : Nat}
    (h : it.alive.next.1 = some i ∨ it.alive.nextBack.1 = some i ∨
      (∃ n, (it.alive.nth n).1 = some i) ∨ ∃ n, (it.alive.nthBack n).1 = some i) :
    i < N ∧ i / S.bits < elts S N := by
  have hmem : i ∈ it.alive.toList := by
    rcases h with h | h | ⟨n, h⟩ | ⟨n, h⟩
    · exact ListIter.mem_of_next ((congrArg Prod.fst (Range.next_refines _)).symm.trans h)
    · exact ListIter.mem_of_nextBack ((congrArg Prod.fst (Range.nextBack_refines _)).symm.trans h)
    · exact ListIter.mem_of_nth n
        ((congrArg Prod.fst (Range.nth_refines _ n (Nat.le_trans hinv.2 hN))).symm.trans h)
    · exact ListIter.mem_of_nthBack n
        ((congrArg Prod.fst (Range.nthBack_refines _ n)).symm.trans h)
  have hi : i < N := by
    have := List.mem_range'_1.1 hmem
    have := hinv.2
    omega
  exact ⟨hi, div_lt_elts hi⟩

/-- `FusedIterator`: after an iteration call returns `None`, every later one does. -/
theorem item_none_of_none (hinv : it.Inv) (hN : N ≤ usizeMax) (c : Call) (post : List Call)
    (h : (it.step c).1 = .item none) {o : Option Bool}
    (ho : Reply.item o ∈ ((it.step c).2.run post).1) : o = none := by
  obtain ⟨h1, h2, h3⟩ := it.step_refines hinv hN c
  have hnil : (it.step c).2.remaining = [] := h2.trans (ListIter.step_eq_nil_of_none (h1 ▸ h))
  obtain ⟨k1, -, -⟩ := (it.step c).2.run_refines hN post h3
  rw [k1, hnil] at ho
  exact ListIter.item_mem_run_nil post ho

end IntoIter

/-- `IntoIter` refines the double-ended iterator over the array's bits. From
`IntoIter::new(a)`, after any calls `pre`, the replies are the list iterator's, the alive bits
are its list, `alive` stays inside `0 .. N` (so every index `get` reads and every range
`get_unchecked` takes is in bounds), and after a `None` every iteration call returns `None`. -/
theorem intoIter_refines_listIter (a : BitArray O N) (hN : N ≤ usizeMax) (pre : List Call) :
    let it := ((IntoIter.new a).run pre).2
    ((IntoIter.new a).run pre).1 = (ListIter.run a.toList pre).1 ∧
    it.remaining = (ListIter.run a.toList pre).2 ∧
    it.alive.start ≤ it.alive.end ∧ it.alive.end ≤ N ∧
    (∀ i, (it.alive.next.1 = some i ∨ it.alive.nextBack.1 = some i ∨
        (∃ n, (it.alive.nth n).1 = some i) ∨ ∃ n, (it.alive.nthBack n).1 = some i) →
      i < N ∧ i / S.bits < elts S N) ∧
    ∀ c post, (it.step c).1 = .item none →
      ∀ o, Reply.item o ∈ ((it.step c).2.run post).1 → o = none := by
  intro it
  obtain ⟨h1, h2, hinv⟩ := (IntoIter.new a).run_refines hN pre (IntoIter.inv_new a)
  rw [IntoIter.remaining_new] at h1 h2
  exact ⟨h1, h2, hinv.1, hinv.2, fun i h => it.yielded_lt hinv hN h,
    fun c post h o ho => it.item_none_of_none hinv hN c post h ho⟩

/-- The refinement at `u8` in `Lsb0` order with `N = 10`, over the elements `[0x35, 0x02]`,
after `next` and `nth_back(3)`. -/
theorem intoIter_refines_listIter_u8 :
    (10 : Nat) ≤ usizeMax ∧
      let a : BitArray (BitOrder.lsb0 u8) 10 := BitArray.new [0x35#8, 0x02#8] rfl
      ((IntoIter.new a).run [.next, .nthBack 3]).1 =
        (ListIter.run a.toList [.next, .nthBack 3]).1 :=
  ⟨by decide, (intoIter_refines_listIter _ (by decide) _).1⟩

/-- From every state `IntoIter::new(a)` reaches, `len()` is exact: that many calls to `next`
yield the alive bits in order and the next one yields `None`, `next_back` yields them in
reverse, and the fresh iterator's alive bits are the array's. -/
theorem intoIter_len_is_exact (a : BitArray O N) (hN : N ≤ usizeMax) (pre : List Call) :
    let it := ((IntoIter.new a).run pre).2
    (it.run (List.replicate (it.len + 1) .next)).1 =
      it.remaining.map (Reply.item ∘ some) ++ [.item none] ∧
    (it.run (List.replicate (it.len + 1) .nextBack)).1 =
      it.remaining.reverse.map (Reply.item ∘ some) ++ [.item none] ∧
    (IntoIter.new a).remaining = a.toList := by
  intro it
  obtain ⟨-, -, hinv⟩ := (IntoIter.new a).run_refines hN pre (IntoIter.inv_new a)
  have hlen : it.remaining.length = it.len := by
    rw [IntoIter.length_remaining, IntoIter.len, Range.len_eq_length, Range.toList,
      List.length_range']
  refine ⟨?_, ?_, IntoIter.remaining_new a⟩
  · rw [(it.run_refines hN _ hinv).1, ListIter.run_next_drain _ hlen]
  · rw [(it.run_refines hN _ hinv).1, ListIter.run_nextBack_drain _ hlen]

/-- Ten bits of `u8` in `Lsb0` order, the elements `[0x35, 0x02]`, after `next` and
`nth_back(3)`. -/
theorem intoIter_len_is_exact_u8 :
    (10 : Nat) ≤ usizeMax ∧
      let a : BitArray (BitOrder.lsb0 u8) 10 := BitArray.new [0x35#8, 0x02#8] rfl
      let it := ((IntoIter.new a).run [.next, .nthBack 3]).2
      (it.run (List.replicate (it.len + 1) .next)).1 =
        it.remaining.map (Reply.item ∘ some) ++ [.item none] :=
  ⟨by decide, (intoIter_len_is_exact _ (by decide) [.next, .nthBack 3]).1⟩

end BitvecArray
