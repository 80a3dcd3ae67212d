import Mathlib.Data.Nat.Prime.Basic
import Mathlib.Tactic.ByContra

/-! # Numbers that survive a sieve

A sieve from `lo` on strikes out, for each `d` from `lo` on in turn, the multiples of `d` from
`d * d` on. `Survives lo i n` says that `n` is left when those of all `d < i` have been struck out.
The multiples of a number that has been struck out have been struck out before
(`not_survives_of_dvd`), so only the others need a turn. A sieve from 2 on leaves the primes
(`survives_two_iff`); one over a later stretch leaves only primes there if and only if the stretch
is a single prime (`stretch_iff`). -/

namespace Ecen5623.Library

/-- No `d` with `lo ≤ d < i` has struck out `n`. -/
def Survives (lo i n : ℕ) : Prop := ∀ d, lo ≤ d → d < i → d ∣ n → n < d * d

variable {lo hi i n : ℕ}

theorem survives_self (lo n : ℕ) : Survives lo lo n := fun d h h' => absurd h' (by omega)

/-- **The turn of `i`.** -/
theorem survives_succ_iff (hi : lo ≤ i) :
    Survives lo (i + 1) n ↔ Survives lo i n ∧ ¬ (i ∣ n ∧ i * i ≤ n) := by
  constructor
  · intro h
    refine ⟨fun d hd hdi => h d hd (by omega), fun ⟨hdvd, hle⟩ => ?_⟩
    have := h i hi (by omega) hdvd
    omega
  · rintro ⟨h, hnot⟩ d hd hdi hdvd
    obtain hlt | rfl := Nat.lt_succ_iff_lt_or_eq.mp hdi
    · exact h d hd hlt hdvd
    · by_contra hle
      exact hnot ⟨hdvd, by omega⟩

/-- **A number struck out needs no turn.** -/
theorem not_survives_of_dvd (hi : ¬ Survives lo i i) (hdvd : i ∣ n) (hle : i * i ≤ n) :
    ¬ Survives lo i n := by
  intro h
  refine hi fun d hd hdi hdvdi => ?_
  have hlt := h d hd hdi (hdvdi.trans hdvd)
  by_contra hge
  rcases Nat.eq_zero_or_pos i with rfl | hpos
  · omega
  · have : i ≤ i * i := Nat.le_mul_of_pos_left i hpos
    omega

/-- **A sieve from 2 on leaves the primes.** -/
theorem survives_two_iff (h2 : 2 ≤ n) (hn : n < i) : Survives 2 i n ↔ n.Prime := by
  constructor
  · intro h
    by_contra hprime
    have hlt := h n.minFac (Nat.minFac_prime (by omega)).two_le
      ((Nat.minFac_le (by omega)).trans_lt hn) (Nat.minFac_dvd n)
    have hsq := Nat.minFac_sq_le_self (by omega) hprime
    rw [Nat.pow_two] at hsq
    omega
  · intro hprime d hd _ hdvd
    obtain rfl | rfl := (Nat.dvd_prime hprime).mp hdvd
    · omega
    · exact Nat.lt_mul_self_iff.mpr (by omega)

theorem survives_of_lt (h : n < lo * lo) : Survives lo i n := fun _ hd _ _ =>
  h.trans_le (Nat.mul_le_mul hd hd)

/-- **When a sieve over a stretch leaves its primes**: from 2 on, or for a single prime. -/
theorem stretch_iff (h2 : 2 ≤ lo) (hle : lo ≤ hi) :
    (∀ n, lo ≤ n → n ≤ hi → (Survives lo (hi + 1) n ↔ n.Prime)) ↔
      lo = 2 ∨ lo = hi ∧ lo.Prime := by
  constructor
  · intro h
    by_cases hlo : lo = 2
    · exact .inl hlo
    · -- one of two neighbours is even, and both are below the first square
      have hsq : lo + 1 < lo * lo := by
        have : 3 * lo ≤ lo * lo := Nat.mul_le_mul_right lo (by omega)
        omega
      have heven : ∀ n, lo ≤ n → n ≤ hi → n ≤ lo + 1 → n % 2 ≠ 0 := fun n hn hn' hlt h0 => by
        have hprime := (h n hn hn').mp (survives_of_lt (by omega))
        have := hprime.eq_one_or_self_of_dvd 2 (Nat.dvd_of_mod_eq_zero h0)
        omega
      have heq : lo = hi := by
        by_contra hne
        have h0 := heven lo le_rfl hle (by omega)
        have h1 := heven (lo + 1) (by omega) (by omega) le_rfl
        omega
      exact .inr ⟨heq, (h lo le_rfl hle).mp (survives_of_lt (by omega))⟩
  · rintro (rfl | ⟨rfl, hprime⟩) n hn hn'
    · exact survives_two_iff hn (by omega)
    · obtain rfl : n = lo := by omega
      exact iff_of_true (survives_of_lt (Nat.lt_mul_self_iff.mpr (by omega))) hprime

end Ecen5623.Library
