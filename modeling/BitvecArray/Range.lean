import Mathlib.Data.List.Basic

/-!
# `core::ops::Range<usize>` as a double-ended iterator

`IntoIter` keeps the indices it has not yet yielded in a `Range<usize>` and forwards each
iteration call to it. This module models the range's iterator methods as `core` writes them,
the `checked_add` of `nth` included, and proves that they refine the double-ended iterator
over the list `start, start + 1, …, end - 1`.

The abstract iterator `ListIter` is what a double-ended iterator over a finite list is for:
`next` takes the head, `next_back` the last element, `nth n` drops `n + 1` items and
`nth_back n` does the same from the back, and a skip past the end empties the list. The
refinement lemmas commute with `List.map`, which is how `IntoIter` lifts them to bits.
-/

namespace BitvecArray

/-! ## The abstract double-ended iterator -/

namespace ListIter

variable {α β : Type}

/-- `Iterator::next` over a list. -/
def next : List α → Option α × List α
  | [] => (none, [])
  | x :: xs => (some x, xs)

/-- `DoubleEndedIterator::next_back` over a list. -/
def nextBack (l : List α) : Option α × List α := (l.getLast?, l.dropLast)

/-- `Iterator::nth`: item `n`, after which `n + 1` items are gone. -/
def nth (l : List α) (n : Nat) : Option α × List α := (l[n]?, l.drop (n + 1))

/-- `DoubleEndedIterator::nth_back`: item `n` counted from the back. -/
def nthBack (l : List α) (n : Nat) : Option α × List α :=
  (l.reverse[n]?, l.take (l.length - (n + 1)))

variable (f : α → β) (l : List α) (n : Nat)

theorem next_map : next (l.map f) = Prod.map (Option.map f) (List.map f) (next l) := by
  cases l <;> rfl

theorem nextBack_map :
    nextBack (l.map f) = Prod.map (Option.map f) (List.map f) (nextBack l) := by
  simp [nextBack, List.getLast?_eq_getElem?, List.dropLast_eq_take, List.map_take]

theorem nth_map : nth (l.map f) n = Prod.map (Option.map f) (List.map f) (nth l n) := by
  simp [nth, List.map_drop]

theorem nthBack_map :
    nthBack (l.map f) n = Prod.map (Option.map f) (List.map f) (nthBack l n) := by
  simp [nthBack, ← List.map_reverse, List.map_take]

variable {l} {x : α}

/-! The item a call yields is an item of the list. -/

theorem mem_of_next (h : (next l).1 = some x) : x ∈ l := by
  cases l with
  | nil => cases h
  | cons y l => cases h; exact List.mem_cons_self _ _

theorem mem_of_nextBack (h : (nextBack l).1 = some x) : x ∈ l :=
  List.getElem?_mem (by rw [← List.getLast?_eq_getElem?]; exact h)

theorem mem_of_nth (h : (nth l n).1 = some x) : x ∈ l := List.getElem?_mem h

theorem mem_of_nthBack (h : (nthBack l n).1 = some x) : x ∈ l :=
  List.mem_reverse.1 (List.getElem?_mem h)

/-! A call that yields nothing leaves the list empty. -/

theorem next_eq_nil (h : (next l).1 = none) : (next l).2 = [] := by
  cases l with
  | nil => rfl
  | cons y l => cases h

theorem nextBack_eq_nil (h : (nextBack l).1 = none) : (nextBack l).2 = [] := by
  rw [List.getLast?_eq_none_iff.1 h]
  rfl

theorem nth_eq_nil (h : (nth l n).1 = none) : (nth l n).2 = [] :=
  List.drop_eq_nil_of_le (by have := List.getElem?_eq_none_iff.1 h; omega)

theorem nthBack_eq_nil (h : (nthBack l n).1 = none) : (nthBack l n).2 = [] := by
  have := List.getElem?_eq_none_iff.1 h
  simp only [nthBack, List.length_reverse] at this ⊢
  rw [show l.length - (n + 1) = 0 by omega, List.take_zero]

end ListIter

/-! ## The range -/

/-- `usize::MAX` on a 64-bit target. -/
def usizeMax : Nat := 18446744073709551615

/-- `usize::checked_add`. -/
def checkedAdd (a b : Nat) : Option Nat := if a + b ≤ usizeMax then some (a + b) else none

/-- `usize::checked_sub`. -/
def checkedSub (a b : Nat) : Option Nat := if b ≤ a then some (a - b) else none

/-- `core::ops::Range<usize>`. -/
structure Range where
  start : Nat
  «end» : Nat
  deriving DecidableEq, Repr

namespace Range

/-- `Iterator::next`. -/
def next (r : Range) : Option Nat × Range :=
  if r.start < r.end then (some r.start, { r with start := r.start + 1 }) else (none, r)

/-- `DoubleEndedIterator::next_back`. -/
def nextBack (r : Range) : Option Nat × Range :=
  if r.start < r.end then (some (r.end - 1), { r with «end» := r.end - 1 }) else (none, r)

/-- `Iterator::nth`: `start.checked_add(n)` guards the skip; when it overflows or reaches
`end`, the range is emptied by `start = end`. -/
def nth (r : Range) (n : Nat) : Option Nat × Range :=
  match checkedAdd r.start n with
  | some plusN =>
    if plusN < r.end then (some plusN, { r with start := plusN + 1 })
    else (none, { r with start := r.end })
  | none => (none, { r with start := r.end })

/-- `DoubleEndedIterator::nth_back`: `end.checked_sub(n)` guards the skip; when it fails or
reaches `start`, the range is emptied by `end = start`. -/
def nthBack (r : Range) (n : Nat) : Option Nat × Range :=
  match checkedSub r.end n with
  | some minusN =>
    if r.start < minusN then (some (minusN - 1), { r with «end» := minusN - 1 })
    else (none, { r with «end» := r.start })
  | none => (none, { r with «end» := r.start })

/-- `ExactSizeIterator::len`, through `size_hint`: `end - start` when the range is nonempty,
else `0`. -/
def len (r : Range) : Nat := if r.start < r.end then r.end - r.start else 0

/-- The indices the range still yields, in order. -/
def toList (r : Range) : List Nat := List.range' r.start (r.end - r.start)

/-! ## Lists of consecutive indices -/

theorem range'_succ_right (s n : Nat) : List.range' s (n + 1) = List.range' s n ++ [s + n] := by
  simpa [Nat.add_comm] using (List.range'_append s n 1 1).symm

theorem drop_range' (s n k : Nat) : (List.range' s n).drop k = List.range' (s + k) (n - k) := by
  induction k generalizing s n with
  | zero => simp
  | succ k ih =>
    cases n with
    | zero => simp
    | succ n => simp [List.range'_succ, ih, Nat.add_assoc, Nat.add_comm 1 k]

theorem take_range' (s n k : Nat) : (List.range' s n).take k = List.range' s (min k n) := by
  induction k generalizing s n with
  | zero => simp
  | succ k ih =>
    cases n with
    | zero => simp
    | succ n => simp [List.range'_succ, ih, Nat.succ_min_succ]

/-! ## Refinement -/

variable (r : Range) (n : Nat)

theorem len_eq_length : r.len = r.toList.length := by
  unfold len toList
  split <;> simp; omega

theorem next_refines : Prod.map id toList r.next = ListIter.next r.toList := by
  unfold next toList
  split
  · next h =>
    obtain ⟨k, hk⟩ : ∃ k, r.end - r.start = k + 1 := ⟨r.end - r.start - 1, by omega⟩
    simp [hk, List.range'_succ, ListIter.next]
    omega
  · next h => simp [show r.end - r.start = 0 by omega, ListIter.next]

theorem nextBack_refines : Prod.map id toList r.nextBack = ListIter.nextBack r.toList := by
  unfold nextBack toList
  split
  · next h =>
    obtain ⟨k, hk⟩ : ∃ k, r.end - r.start = k + 1 := ⟨r.end - r.start - 1, by omega⟩
    simp [hk, range'_succ_right, ListIter.nextBack]
    omega
  · next h => simp [show r.end - r.start = 0 by omega, ListIter.nextBack]

theorem nth_of_lt (h : r.start + n < r.end) (hmax : r.end ≤ usizeMax) :
    r.nth n = (some (r.start + n), { r with start := r.start + n + 1 }) := by
  simp [nth, checkedAdd, h, show r.start + n ≤ usizeMax by omega]

theorem nth_of_not_lt (h : ¬r.start + n < r.end) :
    r.nth n = (none, { r with start := r.end }) := by
  unfold nth checkedAdd
  split_ifs <;> simp_all

theorem nthBack_of_lt (h : n < r.end - r.start) :
    r.nthBack n = (some (r.end - n - 1), { r with «end» := r.end - n - 1 }) := by
  simp [nthBack, checkedSub, show n ≤ r.end by omega, show r.start < r.end - n by omega]

theorem nthBack_of_not_lt (h : ¬n < r.end - r.start) :
    r.nthBack n = (none, { r with «end» := r.start }) := by
  unfold nthBack checkedSub
  split_ifs <;> simp_all
  omega

/-- The one step that needs the invariant: an overflowing `start + n` is past `end`. -/
theorem nth_refines (h : r.end ≤ usizeMax) :
    Prod.map id toList (r.nth n) = ListIter.nth r.toList n := by
  simp only [ListIter.nth, toList, drop_range']
  by_cases hlt : r.start + n < r.end
  · rw [nth_of_lt r n hlt h, List.getElem?_range' _ _ (by omega)]
    simp only [Prod.map, id, toList, Prod.mk.injEq, Option.some.injEq]
    exact ⟨by omega, by congr 1; omega⟩
  · have hnone : (List.range' r.start (r.end - r.start))[n]? = none :=
      List.getElem?_eq_none (by simp; omega)
    rw [nth_of_not_lt r n hlt, hnone]
    simp [toList, show r.end - r.start - (n + 1) = 0 by omega]

theorem nthBack_refines : Prod.map id toList (r.nthBack n) = ListIter.nthBack r.toList n := by
  simp only [ListIter.nthBack, toList, take_range', List.length_range']
  by_cases hlt : n < r.end - r.start
  · rw [nthBack_of_lt r n hlt, List.getElem?_reverse (by simpa using hlt),
      List.length_range', List.getElem?_range' _ _ (by omega)]
    simp only [Prod.map, id, toList, Prod.mk.injEq, Option.some.injEq]
    exact ⟨by omega, by congr 1; omega⟩
  · have hnone : (List.range' r.start (r.end - r.start)).reverse[n]? = none :=
      List.getElem?_eq_none (by simp; omega)
    rw [nthBack_of_not_lt r n hlt, hnone]
    simp [toList, show r.end - r.start - (n + 1) = 0 by omega]


/-! ## Skipping is stepping -/

variable {r n}

/-- With nothing skipped, `nth` is `next`. -/
theorem nth_zero (h : r.start ≤ r.end) (hmax : r.end ≤ usizeMax) : r.nth 0 = r.next := by
  by_cases hlt : r.start < r.end
  · rw [nth_of_lt r 0 hlt hmax]
    simp [next, hlt]
  · obtain ⟨s, e⟩ := r
    obtain rfl : s = e := by simp only at h hlt; omega
    rw [nth_of_not_lt _ 0 (by simp)]
    simp [next]

/-- Skipping `n + 1` items is stepping once and skipping `n`. -/
theorem nth_succ (h : r.start ≤ r.end) (hmax : r.end ≤ usizeMax) :
    r.nth (n + 1) = r.next.2.nth n := by
  by_cases hlt : r.start < r.end
  · have hnext : r.next.2 = { r with start := r.start + 1 } := by simp [next, hlt]
    rw [hnext]
    by_cases hn : r.start + (n + 1) < r.end
    · rw [nth_of_lt r _ hn hmax,
        nth_of_lt { r with start := r.start + 1 } n (by simp; omega) hmax]
      simp only [Prod.mk.injEq, Option.some.injEq]
      exact ⟨by omega, by congr 1; omega⟩
    · rw [nth_of_not_lt r _ hn, nth_of_not_lt { r with start := r.start + 1 } n (by simp; omega)]
  · rw [show r.next = (none, r) by simp [next, hlt], nth_of_not_lt r _ (by omega),
      nth_of_not_lt r _ (by omega)]

/-- With nothing skipped, `nth_back` is `next_back`. -/
theorem nthBack_zero (h : r.start ≤ r.end) : r.nthBack 0 = r.nextBack := by
  by_cases hlt : r.start < r.end
  · rw [nthBack_of_lt r 0 (by omega)]
    simp [nextBack, hlt]
  · obtain ⟨s, e⟩ := r
    obtain rfl : s = e := by simp only at h hlt; omega
    rw [nthBack_of_not_lt _ 0 (by simp)]
    simp [nextBack]

/-- Skipping `n + 1` items from the back is stepping back once and skipping `n`. -/
theorem nthBack_succ (h : r.start ≤ r.end) : r.nthBack (n + 1) = r.nextBack.2.nthBack n := by
  by_cases hlt : r.start < r.end
  · have hnext : r.nextBack.2 = { r with «end» := r.end - 1 } := by simp [nextBack, hlt]
    rw [hnext]
    by_cases hn : n + 1 < r.end - r.start
    · rw [nthBack_of_lt r _ hn, nthBack_of_lt { r with «end» := r.end - 1 } n (by simp; omega)]
      simp only [Prod.mk.injEq, Option.some.injEq]
      exact ⟨by omega, by congr 1; omega⟩
    · rw [nthBack_of_not_lt r _ hn,
        nthBack_of_not_lt { r with «end» := r.end - 1 } n (by simp; omega)]
  · rw [show r.nextBack = (none, r) by simp [nextBack, hlt], nthBack_of_not_lt r _ (by omega),
      nthBack_of_not_lt r _ (by omega)]

variable (r n)

/-! ## What one step keeps -/

/-- A step keeps `start ≤ end` and never moves `end` up. -/
def Shrinks (r r' : Range) : Prop := r'.start ≤ r'.end ∧ r'.end ≤ r.end

variable {r}

theorem next_shrinks (h : r.start ≤ r.end) : r.Shrinks r.next.2 := by
  unfold next Shrinks
  split <;> simp <;> omega

theorem nextBack_shrinks (h : r.start ≤ r.end) : r.Shrinks r.nextBack.2 := by
  unfold nextBack Shrinks
  split <;> simp <;> omega

theorem nth_shrinks : r.Shrinks (r.nth n).2 := by
  unfold nth Shrinks
  split
  · split
    · simp only [Nat.le_refl, and_true]
      omega
    · simp
  · simp

theorem nthBack_shrinks (h : r.start ≤ r.end) : r.Shrinks (r.nthBack n).2 := by
  by_cases hlt : n < r.end - r.start
  · rw [nthBack_of_lt r n hlt]
    simp only [Shrinks]
    omega
  · rw [nthBack_of_not_lt r n hlt]
    simp [Shrinks, h]

/-- A step never moves `start` down or `end` up: the range only narrows. -/
def Narrows (r r' : Range) : Prop := r.start ≤ r'.start ∧ r'.end ≤ r.end

theorem next_narrows : r.Narrows r.next.2 := by
  unfold next Narrows
  split <;> simp

theorem nextBack_narrows : r.Narrows r.nextBack.2 := by
  unfold nextBack Narrows
  split <;> simp

theorem nth_narrows (h : r.start ≤ r.end) : r.Narrows (r.nth n).2 := by
  unfold nth Narrows
  split
  · next plusN hadd =>
    have hplus : plusN = r.start + n := by
      unfold checkedAdd at hadd
      split_ifs at hadd
      exact (Option.some.inj hadd).symm
    split <;> simp <;> omega
  · simp [h]

theorem nthBack_narrows (h : r.start ≤ r.end) : r.Narrows (r.nthBack n).2 := by
  by_cases hlt : n < r.end - r.start
  · simp only [nthBack_of_lt r n hlt, Narrows]
    omega
  · simp [nthBack_of_not_lt r n hlt, Narrows, h]

end Range

end BitvecArray
