import Ecen5623.Schedule.Trace
import Ecen5623.Feasibility.Agreement
import Ecen5623.Library.FixedPriority

/-! # The RM simulation and the scheduling-point test

Under RM the schedule of a run has fixed priorities, the order of the services
(`rm_fixedPriority`). By the critical instant nothing is ever missed if the scheduling-point test
says so, and a run longer than every period without a miss has met the first job of every service,
which is what the test asks for (`rm_misses_iff`). -/

namespace Ecen5623.Schedule.RateMonotonic

open Ecen5623.Library.SlotSchedule Ecen5623.Library.PeriodicTasks
open Ecen5623.Feasibility.Tests Ecen5623.Feasibility.Agreement
open Ecen5623.Schedule.Engine Ecen5623.Schedule.Trace

variable {tc : STestCase} (h : Positive tc.numServices tc.periods tc.wcets)

/-- **An RM run has fixed priorities.** -/
theorem rm_fixedPriority : (tasksOf h).FixedPriority (sched .rm tc) where
  run t i hi := by
    obtain ⟨sv, hsv, hr, hhp⟩ := runRm_some (sched_eq_some.mp hi)
    obtain ⟨i', hi', rfl⟩ := getElem?_checked h hsv
    obtain rfl : i' = i := Fin.ext hi'
    refine ⟨(running_iff h i').mp hr, fun j hj hp => ?_⟩
    have hfalse := hhp j hj _ (getElem?_checked_fin h j)
    rw [(running_iff h j).mpr hp] at hfalse
    cases hfalse
  idle t hi j hp := by
    have hfalse := runRm_none (sched_eq_none h hi) _ (mem_checked h j)
    rw [(running_iff h j).mpr hp] at hfalse
    cases hfalse

theorem fits_of_run (h : Positive tc.numServices tc.periods tc.wcets) {N : ℕ}
    (hN : ∀ s < tc.numServices, tc.periods s < N) (hmiss : (run .rm tc N).misses = 0)
    (i : Fin tc.numServices) : (tasksOf h).Fits i := by
  rw [misses_eq_zero_iff h] at hmiss
  refine (rm_fixedPriority h).fits_of_met (hmiss i 0 ?_) fun j _ k hk => hmiss j k ?_
  · rw [Nat.zero_add, Nat.one_mul]
    exact hN i i.isLt
  · exact lt_trans hk (hN i i.isLt)

/-- **RM in the simulator agrees with the scheduling-point test.** -/
theorem rm_misses_iff (h : Positive tc.numServices tc.periods tc.wcets) (deadline : ℕ → ℕ)
    {N : ℕ} (hN : ∀ s < tc.numServices, tc.periods s < N) :
    ((run .rm tc N).misses = 0 ↔
        schedulingPointFeasibility tc.numServices tc.periods tc.wcets deadline = true) ∧
      (schedulingPointFeasibility tc.numServices tc.periods tc.wcets deadline = true →
        ∀ M, (run .rm tc M).misses = 0) := by
  have hnever : schedulingPointFeasibility tc.numServices tc.periods tc.wcets deadline = true →
      ∀ M, (run .rm tc M).misses = 0 := by
    intro hf M
    rw [schedulingPoint_iff h] at hf
    rw [misses_eq_zero_iff h]
    exact fun i k _ => (rm_fixedPriority h).met_of_fits (hf i) k
  refine ⟨⟨fun hmiss => ?_, fun hf => hnever hf N⟩, hnever⟩
  rw [schedulingPoint_iff h]
  exact fits_of_run h hN hmiss

/-- Test case 1, for eight ticks. -/
theorem rm_misses_iff_test1 :
    ((run .rm testCase1 8).misses = 0 ↔
        schedulingPointFeasibility 3 testCase1.periods testCase1.wcets testCase1.periods = true) ∧
      (schedulingPointFeasibility 3 testCase1.periods testCase1.wcets testCase1.periods = true →
        ∀ M, (run .rm testCase1 M).misses = 0) :=
  rm_misses_iff ⟨by decide, by decide⟩ _ (by decide)

end Ecen5623.Schedule.RateMonotonic
