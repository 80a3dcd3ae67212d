import Mathlib.Data.Nat.ModEq
import Mathlib.Logic.Function.Basic
import Mathlib.Tactic.SplitIfs

/-! # A ring of slots

Items are numbered in the order in which they are written, item `n` to slot `n % size`. `Holds slots
size k` says what the slots hold after the first `k` writes: the last `size` items. Two neighbouring
slots hold consecutive items unless the second one is the next to be written, or the ring is not
full and one of them has not been written (`neighbours_iff`). -/

namespace Ecen5623.Library

/-- The slots after `k` writes. -/
def Holds (slots : ℕ → Option ℕ) (size k : ℕ) : Prop :=
  ∀ i n, slots i = some n ↔ n < k ∧ k ≤ n + size ∧ n % size = i

variable {slots : ℕ → Option ℕ} {size k i j m n : ℕ}

theorem add_le_of_mod_eq (h : m < n) (hmod : m % size = n % size) : m + size ≤ n := by
  obtain ⟨d, rfl⟩ := Nat.exists_eq_add_of_lt h
  have hdvd : size ∣ m + d + 1 - m := (Nat.modEq_iff_dvd' h.le).1 hmod
  have := Nat.le_of_dvd (by omega) hdvd
  omega

theorem succ_mod (hi : i < size) : (i + 1) % size = if i + 1 = size then 0 else i + 1 := by
  split_ifs with h
  · rw [h, Nat.mod_self]
  · rw [Nat.mod_eq_of_lt (by omega)]

theorem holds_zero (h : ∀ i, slots i = none) : Holds slots size 0 := by
  intro i n
  simp [h]

namespace Holds

/-- **A write takes the slot of the oldest item.** -/
theorem write (hsize : 0 < size) (h : Holds slots size k) (hi : i = k % size) :
    Holds (Function.update slots i (some k)) size (k + 1) := by
  intro j n
  by_cases hj : j = i
  · subst hj
    rw [Function.update_self, Option.some.injEq]
    constructor
    · rintro rfl
      exact ⟨Nat.lt_succ_self k, by omega, hi.symm⟩
    · rintro ⟨hn, hk, hmod⟩
      by_contra hne
      have := add_le_of_mod_eq (show n < k by omega) (hmod.trans hi)
      omega
  · rw [Function.update_of_ne hj, h]
    have hmod : n % size = j → n ≠ k ∧ k ≠ n + size := fun hn => by
      refine ⟨?_, ?_⟩
      · rintro rfl
        exact hj (hn.symm.trans hi.symm)
      · rintro rfl
        rw [Nat.add_mod_right] at hi
        exact hj (hn.symm.trans hi.symm)
    constructor
    · rintro ⟨hn, hk, he⟩
      have := hmod he
      exact ⟨by omega, by omega, he⟩
    · rintro ⟨hn, hk, he⟩
      have := hmod he
      exact ⟨by omega, by omega, he⟩

theorem lt_size (hsize : 0 < size) (h : Holds slots size k) (hn : slots i = some n) : i < size := by
  rw [← ((h i n).1 hn).2.2]
  exact Nat.mod_lt n hsize

theorem exists_item (h : Holds slots size k) (hi : i < size) (hk : i < k) :
    ∃ n, slots i = some n := by
  refine ⟨i + size * ((k - 1 - i) / size), (h _ _).2 ⟨?_, ?_, ?_⟩⟩
  · have := Nat.mul_div_le (k - 1 - i) size
    omega
  · have := Nat.lt_mul_div_succ (k - 1 - i) (show 0 < size by omega)
    rw [Nat.mul_add, Nat.mul_one] at this
    omega
  · rw [Nat.add_mul_mod_self_left, Nat.mod_eq_of_lt hi]

theorem slot_of_le (h : Holds slots size k) (hi : i < size) (hk : k ≤ size) :
    slots i = if i < k then some i else none := by
  split_ifs with hik
  · exact (h i i).2 ⟨hik, by omega, Nat.mod_eq_of_lt hi⟩
  · refine Option.eq_none_iff_forall_ne_some.2 fun n hn => ?_
    obtain ⟨hn, -, hmod⟩ := (h i n).1 hn
    rw [Nat.mod_eq_of_lt (by omega)] at hmod
    omega

theorem slot_of_full (h : Holds slots size k) (hi : i < size) (hk : size ≤ k) :
    slots i = some (k - size + (i + (size - k % size)) % size) := by
  have hlt : k % size < size := Nat.mod_lt k (by omega)
  have hdiv := Nat.div_add_mod k size
  obtain hc | hc := Nat.lt_or_ge i (k % size)
  · rw [Nat.mod_eq_of_lt (show i + (size - k % size) < size by omega)]
    refine (h i _).2 ⟨by omega, by omega, ?_⟩
    rw [show k - size + (i + (size - k % size)) = i + size * (k / size) by omega,
      Nat.add_mul_mod_self_left, Nat.mod_eq_of_lt hi]
  · rw [show i + (size - k % size) = i - k % size + size by omega, Nat.add_mod_right,
      Nat.mod_eq_of_lt (show i - k % size < size by omega)]
    refine (h i _).2 ⟨by omega, by omega, ?_⟩
    obtain ⟨q, hq⟩ := Nat.exists_eq_add_of_lt (Nat.div_pos hk (by omega))
    rw [hq, Nat.zero_add, Nat.mul_succ] at hdiv
    rw [show k - size + (i - k % size) = i + size * q by omega, Nat.add_mul_mod_self_left,
      Nat.mod_eq_of_lt hi]

/-- **Neighbouring slots hold consecutive items.** -/
theorem neighbours_iff (h : Holds slots size k) (hi : i < size) (hj : j = (i + 1) % size) :
    (∃ n, slots i = some n ∧ slots j = some (n + 1)) ↔
      j ≠ k % size ∧ (size ≤ k ∨ 0 < j ∧ j < k) := by
  have hsize : 0 < size := by omega
  have hjs : j < size := hj ▸ Nat.mod_lt _ hsize
  constructor
  · rintro ⟨n, hn, hn'⟩
    obtain ⟨-, hk, -⟩ := (h _ _).1 hn
    obtain ⟨hlt, -, hmod⟩ := (h _ _).1 hn'
    refine ⟨fun he => ?_, ?_⟩
    · have := add_le_of_mod_eq hlt (hmod.trans he)
      omega
    · by_cases hks : size ≤ k
      · exact .inl hks
      · rw [Nat.mod_eq_of_lt (by omega)] at hmod
        exact .inr (by omega)
  · rintro ⟨hne, hk⟩
    obtain ⟨m, hm⟩ := h.exists_item hjs (by omega)
    obtain ⟨hlt, hle, hmod⟩ := (h _ _).1 hm
    have hkm : k ≠ m + size := by
      rintro rfl
      rw [Nat.add_mod_right] at hne
      exact hne hmod.symm
    have hm0 : m ≠ 0 := by
      rintro rfl
      rw [Nat.zero_mod] at hmod
      omega
    obtain ⟨n, rfl⟩ := Nat.exists_eq_succ_of_ne_zero hm0
    refine ⟨n, (h _ _).2 ⟨by omega, by omega, ?_⟩, hm⟩
    have he : n ≡ i [MOD size] := Nat.ModEq.add_right_cancel' 1 (hmod.trans hj)
    rw [he, Nat.mod_eq_of_lt hi]

end Holds

end Ecen5623.Library
