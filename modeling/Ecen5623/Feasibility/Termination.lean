import Ecen5623.Feasibility.Agreement

/-! # When the completion-time test returns

The `while(1)` loop of service `i` compares `anext` with `an` only, never with the deadline. It ends
exactly if the services of higher priority use less than the whole processor
(`completionTime_some_iff`); if the loops of all services end, the test returns, and it rejects an
overloaded set (`completionTime_overloaded`). If they use all of it, `an` grows for ever. -/

namespace Ecen5623.Feasibility.Termination

open Ecen5623.Library Ecen5623.Library.PeriodicTasks
open Ecen5623.Feasibility.Tests Ecen5623.Feasibility.Agreement

variable {n : ℕ} {period wcet : ℕ → ℕ} (h : Positive n period wcet)

theorem load_eq (i : Fin n) :
    (tasksOf h).load i = ∑ j ∈ Finset.range i, (wcet j : ℚ) / period j :=
  sum_lt_eq i fun j => (wcet j : ℚ) / period j

include h in
/-- **When the loop of one service ends.** -/
theorem completionTime_some_iff {i : ℕ} (hi : i < n) :
    (∃ fuel an, completionTime fuel period wcet i = some an) ↔
      ∑ j ∈ Finset.range i, (wcet j : ℚ) / period j < 1 := by
  rw [← load_eq h ⟨i, hi⟩, ← Tasks.iterFix_response_iff, ← anStart_eq h ⟨i, hi⟩,
    ← anNext_eq h ⟨i, hi⟩]
  rfl

theorem foldlM_setFeasible_some {f : ℕ → Option ℕ} {deadline : ℕ → ℕ} :
    ∀ {n : ℕ}, (∀ i < n, ∃ an, f i = some an) →
      ∃ b, (List.range n).foldlM (fun setFeasible i => do
        let an ← f i
        return if an > deadline i then false else setFeasible) true = some b
  | 0, _ => ⟨true, rfl⟩
  | n + 1, hf => by
    obtain ⟨b, hb⟩ := foldlM_setFeasible_some fun i hi => hf i (hi.trans (Nat.lt_succ_self n))
    obtain ⟨an, han⟩ := hf n (Nat.lt_succ_self n)
    refine ⟨if an > deadline n then false else b, ?_⟩
    rw [List.range_succ, List.foldlM_append, hb]
    simp [han]

theorem completionTimeFeasibility_some (deadline : ℕ → ℕ)
    (hf : ∀ i < n, ∃ fuel an, completionTime fuel period wcet i = some an) :
    ∃ fuel b, completionTimeFeasibility fuel n period wcet deadline = some b := by
  choose! fuel an han using hf
  -- the largest fuel that a loop needs is enough for all of them
  refine ⟨(Finset.range n).sup fuel, foldlM_setFeasible_some fun i hi => ⟨an i, ?_⟩⟩
  exact iterFix_of_le (han i hi) (Finset.le_sup (Finset.mem_range.mpr hi))

include h in
/-- **A returning test rejects an overloaded set.** -/
theorem completionTime_overloaded {fuel : ℕ} {b : Bool}
    (hret : Updated.completionTimeFeasibility fuel n period wcet = some b)
    (hover : 1 < ∑ j ∈ Finset.range n, (wcet j : ℚ) / period j) : b = false := by
  obtain ⟨hend, hb⟩ := foldlM_setFeasible hret
  rw [← Bool.not_eq_true, hb]
  intro hle
  refine absurd (Tasks.utilisation_le_one_of_fits (P := tasksOf h) fun i => ?_)
    (by rw [utilisation_eq h]; exact not_le.mpr hover)
  obtain ⟨an, han⟩ := hend i i.isLt
  exact (completionTime_le_iff h i han).mp (hle i i.isLt an han)

/-- **When every loop of the completion-time test ends**, and overloaded sets are rejected: exactly
if the services above each one use less than the whole processor. -/
theorem completionTime_terminates_iff (h : Positive n period wcet) :
    ((∀ i < n, ∃ fuel an, completionTime fuel period wcet i = some an) ∧
      (1 < ∑ j ∈ Finset.range n, (wcet j : ℚ) / period j →
        ∃ fuel, Updated.completionTimeFeasibility fuel n period wcet = some false)) ↔
      ∀ i < n, ∑ j ∈ Finset.range i, (wcet j : ℚ) / period j < 1 := by
  constructor
  · rintro ⟨hend, -⟩ i hi
    exact (completionTime_some_iff h hi).mp (hend i hi)
  · intro hload
    have hend : ∀ i < n, ∃ fuel an, completionTime fuel period wcet i = some an :=
      fun i hi => (completionTime_some_iff h hi).mpr (hload i hi)
    refine ⟨hend, fun hover => ?_⟩
    obtain ⟨fuel, b, hret⟩ := completionTimeFeasibility_some period hend
    obtain rfl := completionTime_overloaded h hret hover
    exact ⟨fuel, hret⟩

/-- Test case 1, whose loops all end. -/
theorem completionTime_terminates_iff_test1 :
    ((∀ i < 3, ∃ fuel an, completionTime fuel testCase1.periods testCase1.wcets i = some an) ∧
      (1 < ∑ j ∈ Finset.range 3, (testCase1.wcets j : ℚ) / testCase1.periods j →
        ∃ fuel, Updated.completionTimeFeasibility fuel 3 testCase1.periods testCase1.wcets =
          some false)) ↔
      ∀ i < 3, ∑ j ∈ Finset.range i, (testCase1.wcets j : ℚ) / testCase1.periods j < 1 :=
  completionTime_terminates_iff ⟨by decide, by decide⟩

/-- Two services of period 1 and run time 1: the second loop adds 1 to `an` for ever, and the test
does not return for a set of utilisation 2. -/
theorem completionTime_diverges :
    Positive 2 (testCase [1, 1] [1, 1]).periods (testCase [1, 1] [1, 1]).wcets ∧
      (¬ ∃ fuel an, completionTime fuel (testCase [1, 1] [1, 1]).periods
        (testCase [1, 1] [1, 1]).wcets 1 = some an) ∧
      ¬ ∃ fuel, Updated.completionTimeFeasibility fuel 2 (testCase [1, 1] [1, 1]).periods
        (testCase [1, 1] [1, 1]).wcets = some false := by
  have hpos : Positive 2 (testCase [1, 1] [1, 1]).periods (testCase [1, 1] [1, 1]).wcets :=
    ⟨by decide, by decide⟩
  have hdiv : ¬ ∃ fuel an, completionTime fuel (testCase [1, 1] [1, 1]).periods
      (testCase [1, 1] [1, 1]).wcets 1 = some an := by
    rw [completionTime_some_iff hpos (by decide)]
    simp [testCase]
  refine ⟨hpos, hdiv, ?_⟩
  rintro ⟨fuel, hret⟩
  obtain ⟨an, han⟩ := (foldlM_setFeasible hret).1 1 (by decide)
  exact hdiv ⟨fuel, an, han⟩

end Ecen5623.Feasibility.Termination
