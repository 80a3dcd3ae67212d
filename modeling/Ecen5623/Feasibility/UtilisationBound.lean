import Ecen5623.Feasibility.Termination
import Ecen5623.Library.UtilisationBound

/-! # The least upper bound and the tests

`least_upper_bound` of `rm.c` is the utilisation, in percent, up to which rate-monotonic priorities
are known to work. With the services sorted by their periods both tests accept every set up to it
(`accepted_of_leastUpperBound`). Sorted services whose periods divide each other are accepted up to
the whole processor (`harmonic_iff`). Arithmetic is exact: `pow` is the real power. -/

namespace Ecen5623.Feasibility.UtilisationBound

open Ecen5623.Library Ecen5623.Library.PeriodicTasks
open Ecen5623.Feasibility.Tests Ecen5623.Feasibility.Agreement Ecen5623.Feasibility.Termination

/-- `least_upper_bound` of `rm.c`, in percent. -/
noncomputable def leastUpperBound (numServices : ℕ) : ℝ :=
  numServices * (2 ^ (1 / (numServices : ℝ)) - 1) * 100

variable {n : ℕ} {period wcet : ℕ → ℕ}

theorem completionTime_true_iff (h : Positive n period wcet) :
    (∃ fuel, Updated.completionTimeFeasibility fuel n period wcet = some true) ↔
      ∀ i, (tasksOf h).Fits i := by
  constructor
  · rintro ⟨fuel, hret⟩ i
    obtain ⟨hend, hb⟩ := foldlM_setFeasible hret
    obtain ⟨an, han⟩ := hend i i.isLt
    exact (completionTime_le_iff h i han).mp (hb.mp rfl i i.isLt an han)
  · intro hf
    have hU := Tasks.utilisation_le_one_of_fits hf
    rw [utilisation_eq h] at hU
    have hend : ∀ i < n, ∃ fuel an, completionTime fuel period wcet i = some an := by
      intro i hi
      refine (completionTime_some_iff h hi).mpr (lt_of_lt_of_le ?_ hU)
      -- service `i` itself takes some of the processor
      refine Finset.sum_lt_sum_of_subset (i := i) (Finset.range_subset_range.mpr hi.le)
        (Finset.mem_range.mpr hi) (by simp) ?_ fun j _ _ => by positivity
      have h1 := h.period i hi
      have h2 := h.wcet i hi
      positivity
    obtain ⟨fuel, b, hret⟩ := completionTimeFeasibility_some period hend
    obtain ⟨-, hb⟩ := foldlM_setFeasible hret
    have htrue : b = true := hb.mpr fun i hi an han =>
      (completionTime_le_iff h ⟨i, hi⟩ han).mpr (hf ⟨i, hi⟩)
    exact ⟨fuel, by rw [← htrue]; exact hret⟩

/-- Services sorted by their periods, the shortest first. -/
def RateMonotonic (n : ℕ) (period : ℕ → ℕ) : Prop := ∀ i j, i < j → j < n → period i ≤ period j

theorem RateMonotonic.tasks (h : Positive n period wcet) (hs : RateMonotonic n period) :
    ∀ i j : Fin n, i < j → (tasksOf h).T i ≤ (tasksOf h).T j :=
  fun i j hij => hs i j hij j.isLt

/-- **Sets up to the least upper bound fit.** -/
theorem fits_of_leastUpperBound (h : Positive n period wcet) (hs : RateMonotonic n period)
    (hU : ∑ s ∈ Finset.range n, (wcet s : ℝ) / period s * 100 ≤ leastUpperBound n) :
    ∀ i, (tasksOf h).Fits i := by
  intro i
  have hne : Nonempty (Fin n) := ⟨i⟩
  set u : Fin n → ℝ := fun j => (wcet j : ℝ) / period j with hu
  have hsum : ∑ j, u j ≤
      (Fintype.card (Fin n) : ℝ) * (2 ^ (1 / (Fintype.card (Fin n) : ℝ)) - 1) := by
    rw [← Finset.sum_mul, leastUpperBound] at hU
    rw [Fintype.card_fin, hu, Fin.sum_univ_eq_sum_range fun s => (wcet s : ℝ) / period s]
    linarith
  have hprod := prod_le_two_of_sum_le (u := u) (fun j => by positivity) hsum
  have hprodq : ∏ j : Fin n, (1 + ((tasksOf h).C j : ℚ) / (tasksOf h).T j) ≤ 2 := by
    rw [← Rat.cast_le (K := ℝ)]
    push_cast
    exact hprod
  refine Tasks.fits_of_prod_le (fun j hj => hs.tasks h j i hj) (le_trans ?_ hprodq)
  exact Finset.prod_le_prod_of_subset_of_one_le (Finset.filter_subset _ _)
    (fun j _ => by positivity) fun j _ _ => le_add_of_nonneg_right (by positivity)

/-- **The least upper bound is safe for both tests**: sorted services whose utilisation is at most
`least_upper_bound` are accepted. -/
theorem accepted_of_leastUpperBound (h : Positive n period wcet) (hs : RateMonotonic n period)
    (hU : ∑ s ∈ Finset.range n, (wcet s : ℝ) / period s * 100 ≤ leastUpperBound n) :
    Updated.schedulingPointFeasibility n period wcet = true ∧
      ∃ fuel, Updated.completionTimeFeasibility fuel n period wcet = some true := by
  have hf := fits_of_leastUpperBound h hs hU
  exact ⟨(schedulingPoint_iff h period).mpr hf, (completionTime_true_iff h).mpr hf⟩

/-- Two services may use three quarters of the processor. -/
theorem le_leastUpperBound_two : 75 ≤ leastUpperBound 2 := by
  have h1 : (11 / 8 : ℝ) ≤ 2 ^ (1 / ((2 : ℕ) : ℝ)) := by
    rw [Nat.cast_ofNat, ← Real.sqrt_eq_rpow]
    exact Real.le_sqrt_of_sq_le (by norm_num)
  rw [leastUpperBound, Nat.cast_ofNat]
  rw [Nat.cast_ofNat] at h1
  linarith

/-- Periods 4 and 6 with run times 1 and 3: three quarters of the processor. -/
theorem accepted_of_leastUpperBound_two :
    Updated.schedulingPointFeasibility 2 (testCase [4, 6] [1, 3]).periods
        (testCase [4, 6] [1, 3]).wcets = true ∧
      ∃ fuel, Updated.completionTimeFeasibility fuel 2 (testCase [4, 6] [1, 3]).periods
        (testCase [4, 6] [1, 3]).wcets = some true :=
  accepted_of_leastUpperBound ⟨by decide, by decide⟩
    (fun i j hij hj => by
      obtain ⟨rfl, rfl⟩ : i = 0 ∧ j = 1 := by omega
      decide)
    (le_trans (by norm_num [testCase, Finset.sum_range_succ]) le_leastUpperBound_two)

/-- **Harmonic periods**: sorted services whose periods divide each other are accepted exactly if
their utilisation is at most one. -/
theorem harmonic_iff (h : Positive n period wcet)
    (hs : ∀ i j, i < j → j < n → period i ∣ period j) :
    (Updated.schedulingPointFeasibility n period wcet = true ↔
        ∑ s ∈ Finset.range n, (wcet s : ℚ) / period s ≤ 1) ∧
      ((∃ fuel, Updated.completionTimeFeasibility fuel n period wcet = some true) ↔
        ∑ s ∈ Finset.range n, (wcet s : ℚ) / period s ≤ 1) := by
  have hiff : (∀ i, (tasksOf h).Fits i) ↔
      ∑ s ∈ Finset.range n, (wcet s : ℚ) / period s ≤ 1 := by
    rw [← utilisation_eq h]
    refine ⟨Tasks.utilisation_le_one_of_fits, fun hU i => ?_⟩
    refine Tasks.fits_of_dvd (fun j hj => hs j i hj i.isLt) (le_trans ?_ hU)
    exact Finset.sum_le_sum_of_subset_of_nonneg (Finset.filter_subset _ _)
      fun j _ _ => by positivity
  rw [Updated.schedulingPointFeasibility, schedulingPoint_iff h, completionTime_true_iff h]
  exact ⟨hiff, hiff⟩

/-- Periods 2, 4 and 8. -/
theorem harmonic_iff_three :
    (Updated.schedulingPointFeasibility 3 (testCase [2, 4, 8] [1, 1, 2]).periods
          (testCase [2, 4, 8] [1, 1, 2]).wcets = true ↔
        ∑ s ∈ Finset.range 3, ((testCase [2, 4, 8] [1, 1, 2]).wcets s : ℚ) /
          (testCase [2, 4, 8] [1, 1, 2]).periods s ≤ 1) ∧
      ((∃ fuel, Updated.completionTimeFeasibility fuel 3 (testCase [2, 4, 8] [1, 1, 2]).periods
          (testCase [2, 4, 8] [1, 1, 2]).wcets = some true) ↔
        ∑ s ∈ Finset.range 3, ((testCase [2, 4, 8] [1, 1, 2]).wcets s : ℚ) /
          (testCase [2, 4, 8] [1, 1, 2]).periods s ≤ 1) :=
  harmonic_iff ⟨by decide, by decide⟩ fun i j hij hj => by
    obtain ⟨rfl, rfl⟩ | ⟨rfl, rfl⟩ | ⟨rfl, rfl⟩ :
      (i = 0 ∧ j = 1) ∨ (i = 0 ∧ j = 2) ∨ (i = 1 ∧ j = 2) := by omega
    all_goals decide

end Ecen5623.Feasibility.UtilisationBound
