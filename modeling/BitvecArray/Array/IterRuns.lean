import BitvecArray.Array.Iter

/-!
# Whole runs of the by-value iterator

Facts about every run of `IntoIter`, each derived from what one call can do:

* `nth(n)` skips by range arithmetic in one call, guarded by `checked_add`, yet leaves the
  iterator exactly where `n + 1` calls of `next` leave it and returns what the last of them
  returns; `nth_back` against `next_back` likewise;
* a bit address outside `alive` is never written again: a bit once yielded or skipped stays
  as it was, and the padding keeps the array's bits for good;
* the bits that `next` and `next_back` yield, with the alive bits between them, are the
  array's bits in order, whatever the interleaving: none is lost or yielded twice.
-/

namespace BitvecArray

variable {S : BitStore} {O : BitOrder S} {N : Nat}

/-! ## The bits each end yields -/

namespace ListIter

/-- The bits the `next` calls of a run yielded, in order, each call read with its reply. -/
def frontItems : List Call → List Reply → List Bool
  | .next :: cs, .item (some b) :: rs => b :: frontItems cs rs
  | _ :: cs, _ :: rs => frontItems cs rs
  | _, _ => []

/-- The bits the `next_back` calls of a run yielded, in the order they came. -/
def backItems : List Call → List Reply → List Bool
  | .nextBack :: cs, .item (some b) :: rs => b :: backItems cs rs
  | _ :: cs, _ :: rs => backItems cs rs
  | _, _ => []

/-- Calls that take bits from either end or only look: `next`, `next_back`, `len` and
`as_bitslice`. -/
def FrontBack (c : Call) : Prop := c = .next ∨ c = .nextBack ∨ c = .len ∨ c = .asBitslice

/-- Over a run of such calls, the front's bits, the list left and the back's bits reversed
make up the list. -/
theorem run_front_back (l : List Bool) (cs : List Call) (hcs : ∀ c ∈ cs, FrontBack c) :
    frontItems cs (run l cs).1 ++ (run l cs).2 ++ (backItems cs (run l cs).1).reverse = l := by
  induction cs generalizing l with
  | nil => simp [run, frontItems, backItems]
  | cons c cs ih =>
    have hcs' : ∀ c ∈ cs, FrontBack c := fun c' hc' => hcs c' (List.mem_cons_of_mem _ hc')
    rw [run]
    rcases hcs c (List.mem_cons_self _ _) with rfl | rfl | rfl | rfl
    · cases l with
      | nil => exact ih [] hcs'
      | cons x l =>
        simp only [step, next, Prod.map, id, frontItems, backItems, List.cons_append, ih l hcs']
    · rcases List.eq_nil_or_concat l with rfl | ⟨l, y, rfl⟩
      · exact ih [] hcs'
      · simp only [step, nextBack, Prod.map, id, List.concat_eq_append, List.getLast?_concat,
          List.dropLast_concat, frontItems, backItems, List.reverse_cons, ← List.append_assoc,
          ih l hcs']
    · exact ih l hcs'
    · exact ih l hcs'

end ListIter

namespace IntoIter

variable (it : IntoIter O N)

/-! ## Skipping is stepping -/

theorem nth_zero (hinv : it.Inv) (hN : N ≤ usizeMax) : it.nth 0 = it.next := by
  simp only [nth, next, forward, Range.nth_zero hinv.1 (Nat.le_trans hinv.2 hN)]

theorem nth_succ (hinv : it.Inv) (hN : N ≤ usizeMax) (n : Nat) :
    it.nth (n + 1) = it.next.2.nth n := by
  simp only [nth, next, forward, Range.nth_succ hinv.1 (Nat.le_trans hinv.2 hN)]
  rfl

theorem nthBack_zero (hinv : it.Inv) : it.nthBack 0 = it.nextBack := by
  simp only [nthBack, nextBack, forward, Range.nthBack_zero hinv.1]

theorem nthBack_succ (hinv : it.Inv) (n : Nat) : it.nthBack (n + 1) = it.nextBack.2.nthBack n := by
  simp only [nthBack, nextBack, forward, Range.nthBack_succ hinv.1]
  rfl

theorem next_inv (hinv : it.Inv) : it.next.2.Inv :=
  it.forward_inv _ (Range.next_shrinks hinv.1) hinv

theorem nextBack_inv (hinv : it.Inv) : it.nextBack.2.Inv :=
  it.forward_inv _ (Range.nextBack_shrinks hinv.1) hinv

/-! ## What one call can do -/

/-- A write changes one alive bit and keeps `alive`. -/
theorem set_eq_some {j : Nat} {b : Bool} {it' : IntoIter O N} (h : it.set j b = some it') :
    j < it.alive.end - it.alive.start ∧ it'.alive = it.alive ∧
      it'.array.data = writeBit O it.array.data (it.alive.start + j) b := by
  unfold set at h
  split at h
  · next mem hm =>
    rw [asMutBitslice_set] at hm
    split_ifs at hm with hj
    cases hm
    cases h
    exact ⟨hj, rfl, rfl⟩
  · cases h

/-- An iteration call, `len` or `as_bitslice` keeps the array and narrows `alive`; a write
keeps `alive` and changes one alive bit. -/
theorem step_cases (hinv : it.Inv) (c : Call) :
    ((it.step c).2.array = it.array ∧ it.alive.Narrows (it.step c).2.alive ∧
        (it.step c).2.Inv) ∨
      ∃ j b, j < it.alive.end - it.alive.start ∧ (it.step c).2.alive = it.alive ∧
        (it.step c).2.array.data = writeBit O it.array.data (it.alive.start + j) b := by
  have hrefl : it.alive.Narrows it.alive := ⟨Nat.le_refl _, Nat.le_refl _⟩
  cases c with
  | next => exact .inl ⟨rfl, Range.next_narrows, it.next_inv hinv⟩
  | nextBack => exact .inl ⟨rfl, Range.nextBack_narrows, it.nextBack_inv hinv⟩
  | nth n =>
    exact .inl ⟨rfl, Range.nth_narrows n hinv.1,
      it.forward_inv (·.nth n) (Range.nth_shrinks n) hinv⟩
  | nthBack n =>
    exact .inl ⟨rfl, Range.nthBack_narrows n hinv.1,
      it.forward_inv (·.nthBack n) (Range.nthBack_shrinks n hinv.1) hinv⟩
  | len => exact .inl ⟨rfl, hrefl, hinv⟩
  | asBitslice => exact .inl ⟨rfl, hrefl, hinv⟩
  | set j b =>
    cases hs : it.set j b with
    | none =>
      have hstep : it.step (.set j b) = (.panic, it) := by simp [step, hs]
      exact .inl (by rw [hstep]; exact ⟨rfl, hrefl, hinv⟩)
    | some it' =>
      have hstep : it.step (.set j b) = (.written, it') := by simp [step, hs]
      exact .inr (by rw [hstep]; exact ⟨j, b, it.set_eq_some hs⟩)

theorem step_inv (hinv : it.Inv) (c : Call) : (it.step c).2.Inv := by
  rcases it.step_cases hinv c with ⟨-, -, h⟩ | ⟨j, b, -, halive, -⟩
  · exact h
  · rw [Inv, halive]
    exact hinv

theorem run_inv (hinv : it.Inv) (cs : List Call) : (it.run cs).2.Inv := by
  induction cs generalizing it with
  | nil => exact hinv
  | cons c cs ih => exact ih _ (it.step_inv hinv c)

/-! ## Runs -/

/-- `n + 1` calls of `next` end where `nth(n)` ends, the last returning its item. -/
theorem run_next_eq_nth (hinv : it.Inv) (hN : N ≤ usizeMax) (n : Nat) :
    (it.run (List.replicate (n + 1) .next)).1.getLast? = some (.item (it.nth n).1) ∧
      (it.run (List.replicate (n + 1) .next)).2 = (it.nth n).2 := by
  induction n generalizing it with
  | zero => simp [run, step, it.nth_zero hinv hN]
  | succ n ih =>
    obtain ⟨h1, h2⟩ := ih it.next.2 (it.next_inv hinv)
    have hstep : (it.step .next).2 = it.next.2 := rfl
    rw [List.replicate_succ, run, hstep, List.getLast?_cons, h1, Option.getD_some,
      it.nth_succ hinv hN]
    exact ⟨rfl, h2⟩

/-- `n + 1` calls of `next_back` end where `nth_back(n)` ends, the last returning its item. -/
theorem run_nextBack_eq_nthBack (hinv : it.Inv) (n : Nat) :
    (it.run (List.replicate (n + 1) .nextBack)).1.getLast? = some (.item (it.nthBack n).1) ∧
      (it.run (List.replicate (n + 1) .nextBack)).2 = (it.nthBack n).2 := by
  induction n generalizing it with
  | zero => simp [run, step, it.nthBack_zero hinv]
  | succ n ih =>
    obtain ⟨h1, h2⟩ := ih it.nextBack.2 (it.nextBack_inv hinv)
    have hstep : (it.step .nextBack).2 = it.nextBack.2 := rfl
    rw [List.replicate_succ, run, hstep, List.getLast?_cons, h1, Option.getD_some,
      it.nthBack_succ hinv]
    exact ⟨rfl, h2⟩

/-- One call writes no bit address outside `alive`, and such an address stays outside. -/
theorem readBit_step_of_not_alive (hinv : it.Inv) (c : Call) {g : Nat}
    (hg : g < it.alive.start ∨ it.alive.end ≤ g) :
    readBit O (it.step c).2.array.data g = readBit O it.array.data g ∧
      (g < (it.step c).2.alive.start ∨ (it.step c).2.alive.end ≤ g) := by
  rcases it.step_cases hinv c with ⟨harray, hnar, -⟩ | ⟨j, b, hj, halive, hdata⟩
  · exact ⟨by rw [harray], by have := hnar.1; have := hnar.2; omega⟩
  · exact ⟨by rw [hdata, readBit_writeBit_of_ne _ _ (by omega)], by rw [halive]; exact hg⟩

/-- No run writes a bit address outside `alive`. -/
theorem readBit_run_of_not_alive (hinv : it.Inv) (cs : List Call) {g : Nat}
    (hg : g < it.alive.start ∨ it.alive.end ≤ g) :
    readBit O (it.run cs).2.array.data g = readBit O it.array.data g := by
  induction cs generalizing it with
  | nil => rfl
  | cons c cs ih =>
    obtain ⟨h1, h2⟩ := it.readBit_step_of_not_alive hinv c hg
    exact (ih _ (it.step_inv hinv c) h2).trans h1

end IntoIter

/-- `nth(n)` skips in one call, through `checked_add`; from every state `IntoIter::new(a)`
reaches and for every `n`, it returns what the last of `n + 1` calls of `next` returns and
leaves the iterator in the same state, and `nth_back(n)` does the same against `next_back`. -/
theorem intoIter_nth_is_repeated_next (a : BitArray O N) (hN : N ≤ usizeMax)
    (pre : List Call) (n : Nat) :
    let it := ((IntoIter.new a).run pre).2
    (it.run (List.replicate (n + 1) .next)).1.getLast? = some (it.step (.nth n)).1 ∧
    (it.run (List.replicate (n + 1) .next)).2 = (it.step (.nth n)).2 ∧
    (it.run (List.replicate (n + 1) .nextBack)).1.getLast? = some (it.step (.nthBack n)).1 ∧
    (it.run (List.replicate (n + 1) .nextBack)).2 = (it.step (.nthBack n)).2 := by
  intro it
  have hinv : it.Inv := (IntoIter.new a).run_inv (IntoIter.inv_new a) pre
  obtain ⟨h1, h2⟩ := it.run_next_eq_nth hinv hN n
  obtain ⟨h3, h4⟩ := it.run_nextBack_eq_nthBack hinv n
  exact ⟨h1, h2, h3, h4⟩

/-- Ten bits of `u8` in `Lsb0` order, the elements `[0x35, 0x02]`: after `next`, skipping with
`nth(3)` ends where four calls of `next` end. -/
theorem intoIter_nth_is_repeated_next_u8 :
    (10 : Nat) ≤ usizeMax ∧
      let a : BitArray (BitOrder.lsb0 u8) 10 := BitArray.new [0x35#8, 0x02#8] rfl
      let it := ((IntoIter.new a).run [.next]).2
      (it.run (List.replicate 4 .next)).2 = (it.step (.nth 3)).2 :=
  ⟨by decide, (intoIter_nth_is_repeated_next _ (by decide) [.next] 3).2.1⟩

/-- Whatever the interleaving of `next` and `next_back` calls, with `len` and `as_bitslice`
between them, the bits yielded from the front, then the alive bits, then the bits yielded
from the back in reverse are exactly the array's bits: no bit is lost or yielded twice. -/
theorem intoIter_yields_every_bit_once (a : BitArray O N) (hN : N ≤ usizeMax)
    (cs : List Call) (hcs : ∀ c ∈ cs, ListIter.FrontBack c) :
    ListIter.frontItems cs ((IntoIter.new a).run cs).1 ++ ((IntoIter.new a).run cs).2.remaining ++
      (ListIter.backItems cs ((IntoIter.new a).run cs).1).reverse = a.toList := by
  obtain ⟨h1, h2, -⟩ := (IntoIter.new a).run_refines hN cs (IntoIter.inv_new a)
  rw [h1, h2, IntoIter.remaining_new]
  exact ListIter.run_front_back _ cs hcs

/-- Ten bits of `u8` in `Lsb0` order, the elements `[0x35, 0x02]`, taken from both ends. -/
theorem intoIter_yields_every_bit_once_u8 :
    (10 : Nat) ≤ usizeMax ∧ (∀ c ∈ [Call.next, .nextBack, .len, .next],
      ListIter.FrontBack c) ∧
    let a : BitArray (BitOrder.lsb0 u8) 10 := BitArray.new [0x35#8, 0x02#8] rfl
    let cs := [Call.next, .nextBack, .len, .next]
    ListIter.frontItems cs ((IntoIter.new a).run cs).1 ++ ((IntoIter.new a).run cs).2.remaining ++
      (ListIter.backItems cs ((IntoIter.new a).run cs).1).reverse = a.toList :=
  ⟨by decide, by simp [ListIter.FrontBack], intoIter_yields_every_bit_once _ (by decide) _
    (by simp [ListIter.FrontBack])⟩

/-- A bit address outside `alive` is never written again: from every state `IntoIter::new(a)`
reaches, any further calls leave the bits outside `alive` (those already yielded or skipped,
and the padding) as they are, so from `IntoIter::new(a)` the padding keeps `a`'s bits
through every run. -/
theorem intoIter_never_writes_outside_alive (a : BitArray O N) (pre post : List Call)
    (g : Nat) :
    let it := ((IntoIter.new a).run pre).2
    (g < it.alive.start ∨ it.alive.end ≤ g →
      readBit O (it.run post).2.array.data g = readBit O it.array.data g) ∧
    (N ≤ g → readBit O ((IntoIter.new a).run post).2.array.data g = readBit O a.data g) :=
  ⟨((IntoIter.new a).run pre).2.readBit_run_of_not_alive
      ((IntoIter.new a).run_inv (IntoIter.inv_new a) pre) post,
    fun hg => (IntoIter.new a).readBit_run_of_not_alive (IntoIter.inv_new a) post (.inr hg)⟩

/-- Ten zero bits of `u8` in `Lsb0` order: bit 0 is set through `as_mut_bitslice` and then
yielded, and a later write does not reach it. -/
theorem intoIter_never_writes_outside_alive_u8 :
    let it := ((IntoIter.new (BitArray.ZERO : BitArray (BitOrder.lsb0 u8) 10)).run
      [.set 0 true, .next]).2
    (0 < it.alive.start ∨ it.alive.end ≤ 0) ∧
      readBit (BitOrder.lsb0 u8) (it.run [.set 0 false]).2.array.data 0 =
        readBit (BitOrder.lsb0 u8) it.array.data 0 :=
  ⟨by decide, (intoIter_never_writes_outside_alive BitArray.ZERO [.set 0 true, .next]
    [.set 0 false] 0).1 (by decide)⟩

end BitvecArray
