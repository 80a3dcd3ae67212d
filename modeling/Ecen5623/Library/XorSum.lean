import Mathlib.Data.Finset.Card
import Mathlib.Data.Finset.Fold
import Mathlib.Data.Finset.SymmDiff
import Mathlib.Data.Nat.Bitwise
import Mathlib.Algebra.Group.Nat.Even

/-! # Exclusive or over a finite set

`xorSum s f` is the exclusive or of `f i` over `i ∈ s`. Toggling one element changes it by the value
of `f` there (`xorSum_toggle`) and changes the parity of the size (`odd_card_toggle`). Bit `k` of
the sum is the parity of the values that have bit `k` (`testBit_xorSum`). -/

namespace Ecen5623.Library

variable {ι : Type*} [DecidableEq ι]

/-- Put the element in if it is not there, and take it out if it is. -/
def toggle (s : Finset ι) (i : ι) : Finset ι := symmDiff s {i}

/-- The exclusive or of the values over `s`. -/
def xorSum (s : Finset ι) (f : ι → ℕ) : ℕ := s.fold (· ^^^ ·) 0 f

variable {s : Finset ι} {f : ι → ℕ} {i j : ι}

theorem mem_toggle : j ∈ toggle s i ↔ ¬ (j ∈ s ↔ j = i) := by
  rw [toggle, Finset.mem_symmDiff, Finset.mem_singleton]
  tauto

theorem toggle_of_mem (h : i ∈ s) : toggle s i = s.erase i := by
  ext j
  rw [mem_toggle, Finset.mem_erase]
  by_cases hj : j = i <;> simp [hj, h]

theorem toggle_of_notMem (h : i ∉ s) : toggle s i = insert i s := by
  ext j
  rw [mem_toggle, Finset.mem_insert]
  by_cases hj : j = i <;> simp [hj, h]

omit [DecidableEq ι] in
@[simp] theorem xorSum_empty : xorSum ∅ f = 0 := Finset.fold_empty

theorem xorSum_insert (h : i ∉ s) : xorSum (insert i s) f = f i ^^^ xorSum s f :=
  Finset.fold_insert h

@[simp] theorem xorSum_singleton : xorSum {i} f = f i := by
  rw [← insert_empty_eq, xorSum_insert (Finset.notMem_empty i), xorSum_empty, Nat.xor_zero]

theorem xorSum_pair (h : i ≠ j) : xorSum {i, j} f = f i ^^^ f j := by
  rw [xorSum_insert (by simpa using h), xorSum_singleton]

/-- **Toggling an element adds its value.** -/
theorem xorSum_toggle (s : Finset ι) (f : ι → ℕ) (i : ι) :
    xorSum (toggle s i) f = xorSum s f ^^^ f i := by
  by_cases h : i ∈ s
  · have hs : xorSum s f = f i ^^^ xorSum (s.erase i) f := by
      rw [← xorSum_insert (Finset.notMem_erase i s), Finset.insert_erase h]
    rw [toggle_of_mem h, hs, Nat.xor_comm, ← Nat.xor_assoc, Nat.xor_self, Nat.zero_xor]
  · rw [toggle_of_notMem h, xorSum_insert h, Nat.xor_comm]

theorem odd_card_toggle (s : Finset ι) (i : ι) : Odd (toggle s i).card ↔ ¬ Odd s.card := by
  by_cases h : i ∈ s
  · rw [toggle_of_mem h, ← Finset.card_erase_add_one h, Nat.odd_add_one, not_not]
  · rw [toggle_of_notMem h, Finset.card_insert_of_notMem h, Nat.odd_add_one]

theorem xorSum_ne_zero_of_card_two (h : s.card = 2) (hf : Set.InjOn f s) : xorSum s f ≠ 0 := by
  obtain ⟨i, j, hij, rfl⟩ := Finset.card_eq_two.1 h
  rw [xorSum_pair hij, Ne, Nat.xor_eq_zero_iff]
  exact fun he => hij (hf (by simp) (by simp) he)

theorem xorSum_lt_two_pow {n : ℕ} (h : ∀ i ∈ s, f i < 2 ^ n) : xorSum s f < 2 ^ n := by
  induction s using Finset.induction_on with
  | empty =>
    rw [xorSum_empty]
    exact Nat.two_pow_pos n
  | insert i s hi ih =>
    rw [xorSum_insert hi]
    exact Nat.xor_lt_two_pow (h i (Finset.mem_insert_self i s))
      (ih fun j hj => h j (Finset.mem_insert_of_mem hj))

/-- **A bit of the sum is a parity.** -/
theorem testBit_xorSum (s : Finset ι) (f : ι → ℕ) (k : ℕ) :
    (xorSum s f).testBit k = decide (Odd (s.filter fun i => (f i).testBit k).card) := by
  induction s using Finset.induction_on with
  | empty => simp
  | insert i s hi ih =>
    rw [xorSum_insert hi, Nat.testBit_xor, ih, Finset.filter_insert]
    cases hb : (f i).testBit k with
    | false => simp
    | true =>
      rw [if_pos rfl, Finset.card_insert_of_notMem (by simp [hi])]
      simp only [Nat.odd_add_one, Bool.true_xor, decide_not]

end Ecen5623.Library
