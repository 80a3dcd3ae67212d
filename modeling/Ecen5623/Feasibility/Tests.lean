import Ecen5623.Library.Demand

/-! # The schedulability tests

`completion_time_feasibility` and `scheduling_point_feasibility` of `feasibility_tests.c` and
`feasibility_tests_updated.c`, in exact arithmetic: `ceil` and `floor` of a quotient are the integer
ones. An array is the function of its indices, read below `numServices` only. The two files differ
in the deadlines (the updated file sets `deadline = period`) and in an unused variable of the
updated scheduling-point test, which is left out.

The `while(1)` loop of the completion-time test is `iterFix` with fuel; the test returns if every
loop does. A loop that is left by `break` is `List.any`. -/

namespace Ecen5623.Feasibility.Tests

open Ecen5623.Library

/-- A test case of `tests.h`. -/
structure STestCase where
  numServices : ℕ
  periods : ℕ → ℕ
  wcets : ℕ → ℕ

/-- A test case from its initializers. -/
def testCase (periods wcets : List ℕ) : STestCase where
  numServices := periods.length
  periods s := periods.getD s 0
  wcets s := wcets.getD s 0

/-- Test case 1 of `tests.c`. -/
def testCase1 : STestCase := testCase [2, 5, 7] [1, 1, 2]

/-- Test case 7 of `tests.c`. -/
def testCase7 : STestCase := testCase [3, 5, 15] [1, 2, 4]

/-- Test case 16 of `tests.c`. -/
def testCase16 : STestCase := testCase [10, 40, 100] [1, 33, 72]

/-- All periods and run times are at least one. -/
structure Positive (numServices : ℕ) (period wcet : ℕ → ℕ) : Prop where
  period : ∀ i < numServices, 1 ≤ period i
  wcet : ∀ i < numServices, 1 ≤ wcet i

/-- The tasks of a test case, the first one of the highest priority. -/
def tasksOf {n : ℕ} {period wcet : ℕ → ℕ} (h : Positive n period wcet) :
    PeriodicTasks.Tasks (Fin n) where
  T i := period i
  C i := wcet i
  T_pos i := h.period i i.isLt
  C_pos i := h.wcet i i.isLt

theorem utilisation_eq {n : ℕ} {period wcet : ℕ → ℕ} (h : Positive n period wcet) :
    (tasksOf h).utilisation = ∑ s ∈ Finset.range n, (wcet s : ℚ) / period s :=
  Fin.sum_univ_eq_sum_range (fun s => (wcet s : ℚ) / period s) n

/-! ### The completion-time test -/

/-- `an` before the loop of service `i`: the run times down to `i`. -/
def anStart (wcet : ℕ → ℕ) (i : ℕ) : ℕ :=
  (List.range (i + 1)).foldl (fun an j => an + wcet j) 0

/-- `anext` from `an`, in one round of the loop of service `i`. -/
def anNext (period wcet : ℕ → ℕ) (i an : ℕ) : ℕ :=
  (List.range i).foldl (fun anext j => anext + an ⌈/⌉ period j * wcet j) (wcet i)

/-- `an` after the loop of service `i`, if the loop ends. -/
def completionTime (fuel : ℕ) (period wcet : ℕ → ℕ) (i : ℕ) : Option ℕ :=
  iterFix (anNext period wcet i) fuel (anStart wcet i)

/-- `completion_time_feasibility` of `feasibility_tests.c`. -/
def completionTimeFeasibility (fuel numServices : ℕ) (period wcet deadline : ℕ → ℕ) :
    Option Bool :=
  (List.range numServices).foldlM (fun setFeasible i => do
    let an ← completionTime fuel period wcet i
    return if an > deadline i then false else setFeasible) true

/-! ### The scheduling-point test -/

/-- `temp` at the point `t` after the loop over the services down to `s2`. -/
def tempAt (period wcet : ℕ → ℕ) (s2 t : ℕ) : ℕ :=
  (List.range (s2 + 1)).foldl (fun temp i => temp + wcet i * (t ⌈/⌉ period i)) 0

/-- `status` of service `s2`: some multiple of the period of some `s ≤ s2` fits. -/
def itFits (period wcet : ℕ → ℕ) (s2 : ℕ) : Bool :=
  (List.range (s2 + 1)).any fun s =>
    (List.range (period s2 / period s)).any fun k =>
      tempAt period wcet s2 ((k + 1) * period s) ≤ (k + 1) * period s

/-- `scheduling_point_feasibility` of `feasibility_tests.c`, which does not read its deadlines. -/
def schedulingPointFeasibility (numServices : ℕ) (period wcet _deadline : ℕ → ℕ) : Bool :=
  (List.range numServices).foldl (fun rc s2 => if itFits period wcet s2 then rc else false) true

namespace Updated

/-- `completion_time_feasibility` of `feasibility_tests_updated.c`: the deadlines are the
periods. -/
def completionTimeFeasibility (fuel numServices : ℕ) (period wcet : ℕ → ℕ) : Option Bool :=
  Tests.completionTimeFeasibility fuel numServices period wcet period

/-- `scheduling_point_feasibility` of `feasibility_tests_updated.c`. -/
def schedulingPointFeasibility (numServices : ℕ) (period wcet : ℕ → ℕ) : Bool :=
  Tests.schedulingPointFeasibility numServices period wcet period

end Updated

end Ecen5623.Feasibility.Tests
