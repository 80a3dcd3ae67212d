import Ecen5623.Schedule.Trace
import Mathlib.Algebra.GCDMonoid.Finset
import Mathlib.Algebra.GCDMonoid.Nat

/-! # The EDF and LLF simulations are exact

With periods below `INT_MAX` the EDF run picks the earliest deadline (`edf_earliestDeadline`) and
the LLF run the least laxity (`llf_urgent`). EDF misses nothing if the utilisation is at most one,
and its schedule is the feasible one that LLF is compared with. A run past the least common multiple
of the periods without a miss shows that the utilisation is at most one, whatever the protocol
(`utilisation_le_one`). -/

namespace Ecen5623.Schedule.DeadlineDriven

open Ecen5623.Library.SlotSchedule Ecen5623.Library.PeriodicTasks
open Ecen5623.Feasibility.Tests Ecen5623.Schedule.Engine Ecen5623.Schedule.Trace

variable {tc : STestCase} (h : Positive tc.numServices tc.periods tc.wcets)
variable (hmax : ∀ s < tc.numServices, (tc.periods s : ℤ) < intMax)
variable {σ : Schedule (Fin tc.numServices)} {t : ℕ}

/-! ### The keys -/

theorem deadline_serviceAt (i : Fin tc.numServices) :
    (serviceAt tc σ t i).deadline = (tasksOf h).deadline i t - t := by
  have hlt := Nat.mod_lt t (h.period i i.isLt)
  have hdm := Nat.div_add_mod t (tc.periods i)
  rw [Nat.mul_comm] at hdm
  simp only [serviceAt, Tasks.deadline, Tasks.release, tasksOf]
  omega

theorem laxity_serviceAt (i : Fin tc.numServices) :
    (serviceAt tc σ t i).laxity = (tasksOf h).laxity σ i t := by
  rw [Service.laxity, deadline_serviceAt h]
  rfl

include hmax in
theorem deadline_lt_intMax (i : Fin tc.numServices) :
    (serviceAt tc σ t i).deadline < intMax := by
  have hi := hmax i i.isLt
  simp only [serviceAt]
  omega

include hmax in
theorem laxity_lt_intMax (i : Fin tc.numServices) (hr : (serviceAt tc σ t i).running = true) :
    (serviceAt tc σ t i).laxity < intMax := by
  have hi := deadline_lt_intMax (σ := σ) (t := t) hmax i
  simp only [Service.running, decide_eq_true_eq] at hr
  unfold Service.laxity
  omega

/-! ### The schedules -/

section Scan
variable {p : Protocol} {key : Service → ℤ}
variable (hp : ∀ services, choose p services = (scan key services).serviceToRun)
include hp

theorem key_le_of_sched {i : Fin tc.numServices} (hi : sched p tc t = some i) :
    (tasksOf h).Pending (sched p tc) i t ∧ ∀ j, (tasksOf h).Pending (sched p tc) j t →
      key (serviceAt tc (sched p tc) t i) ≤ key (serviceAt tc (sched p tc) t j) := by
  rw [sched_eq_some, hp] at hi
  obtain ⟨sv, hsv, hr, hle⟩ := scan_some hi
  obtain ⟨i', hi', rfl⟩ := getElem?_checked h hsv
  obtain rfl : i' = i := Fin.ext hi'
  exact ⟨(running_iff h i').mp hr, fun j hj =>
    hle _ (mem_checked h j) ((running_iff h j).mpr hj)⟩

theorem idle_of_sched
    (hkey : ∀ i, (serviceAt tc (sched p tc) t i).running = true →
      key (serviceAt tc (sched p tc) t i) < intMax)
    (hi : sched p tc t = none) (j : Fin tc.numServices) :
    ¬ (tasksOf h).Pending (sched p tc) j t := by
  have hn := sched_eq_none h hi
  rw [hp] at hn
  intro hj
  have hfalse := scan_none hn (fun sv hsv hr => by
    rw [checked_services h t] at hsv
    obtain ⟨i, rfl⟩ := List.mem_ofFn.mp hsv
    exact hkey i hr) _ (mem_checked h j)
  rw [(running_iff h j).mpr hj] at hfalse
  cases hfalse

end Scan

include hmax in
/-- **An EDF run** runs the pending job of the earliest deadline. -/
theorem edf_earliestDeadline : (tasksOf h).EarliestDeadline (sched .edf tc) where
  run t i hi := by
    obtain ⟨h1, h2⟩ := key_le_of_sched h (fun _ => rfl) hi
    refine ⟨h1, fun j hj => ?_⟩
    have hle := h2 j hj
    rw [deadline_serviceAt h, deadline_serviceAt h] at hle
    omega
  idle t hi j := idle_of_sched h (fun _ => rfl) (fun i _ => deadline_lt_intMax hmax i) hi j

include hmax in
/-- **An LLF run** runs the pending job of least laxity. -/
theorem llf_urgent : (tasksOf h).Urgent (sched .llf tc) where
  run t i hi := by
    obtain ⟨h1, h2⟩ := key_le_of_sched h (fun _ => rfl) hi
    refine ⟨h1, fun j hj => Or.inr ?_⟩
    have hle := h2 j hj
    rwa [laxity_serviceAt h, laxity_serviceAt h] at hle
  idle t hi j := idle_of_sched h (fun _ => rfl) (fun i hr => laxity_lt_intMax hmax i hr) hi j

/-! ### Exactness -/

theorem utilisation_le_one {p : Protocol} {N : ℕ}
    (hN : (Finset.range tc.numServices).lcm tc.periods < N) (hmiss : (run p tc N).misses = 0) :
    (tasksOf h).utilisation ≤ 1 := by
  rw [misses_eq_zero_iff h] at hmiss
  refine Tasks.utilisation_le_one_of_met (σ := sched p tc)
    (L := (Finset.range tc.numServices).lcm tc.periods) (Nat.pos_of_ne_zero ?_) ?_ ?_
  · rw [Ne, Finset.lcm_eq_zero_iff]
    rintro ⟨s, hs, h0⟩
    exact absurd (h.period s (Finset.mem_range.mp hs)) (by rw [h0]; decide)
  · exact fun i => Finset.dvd_lcm (Finset.mem_range.mpr i.isLt)
  · exact fun i k hk => hmiss i k (lt_of_le_of_lt hk hN)

include hmax in
/-- The EDF run of the same services is a feasible schedule, so the LLF run is one too. -/
theorem llf_feasible (hU : (tasksOf h).utilisation ≤ 1) :
    (tasksOf h).Feasible (sched .llf tc) :=
  Tasks.urgent_feasible (llf_urgent h hmax) (Tasks.edf_feasible (edf_earliestDeadline h hmax) hU)

/-- **EDF in the simulator is exact.** -/
theorem edf_misses_iff (h : Positive tc.numServices tc.periods tc.wcets)
    (hmax : ∀ s < tc.numServices, (tc.periods s : ℤ) < intMax) {N : ℕ}
    (hN : (Finset.range tc.numServices).lcm tc.periods < N) :
    ((run .edf tc N).misses = 0 ↔
        ∑ s ∈ Finset.range tc.numServices, (tc.wcets s : ℚ) / tc.periods s ≤ 1) ∧
      (∑ s ∈ Finset.range tc.numServices, (tc.wcets s : ℚ) / tc.periods s ≤ 1 →
        ∀ M, (run .edf tc M).misses = 0) := by
  rw [← utilisation_eq h]
  have hnever : (tasksOf h).utilisation ≤ 1 → ∀ M, (run .edf tc M).misses = 0 := by
    intro hU M
    rw [misses_eq_zero_iff h]
    exact fun i k _ => Tasks.edf_feasible (edf_earliestDeadline h hmax) hU i k
  exact ⟨⟨utilisation_le_one h hN, fun hU => hnever hU N⟩, hnever⟩

/-- Test case 7, with EDF, past the least common multiple 15. -/
theorem edf_misses_iff_test7 :
    ((run .edf testCase7 16).misses = 0 ↔
        ∑ s ∈ Finset.range 3, (testCase7.wcets s : ℚ) / testCase7.periods s ≤ 1) ∧
      (∑ s ∈ Finset.range 3, (testCase7.wcets s : ℚ) / testCase7.periods s ≤ 1 →
        ∀ M, (run .edf testCase7 M).misses = 0) :=
  edf_misses_iff ⟨by decide, by decide⟩ (by decide) (by decide)

/-- **LLF in the simulator is exact.** -/
theorem llf_misses_iff (h : Positive tc.numServices tc.periods tc.wcets)
    (hmax : ∀ s < tc.numServices, (tc.periods s : ℤ) < intMax) {N : ℕ}
    (hN : (Finset.range tc.numServices).lcm tc.periods < N) :
    ((run .llf tc N).misses = 0 ↔
        ∑ s ∈ Finset.range tc.numServices, (tc.wcets s : ℚ) / tc.periods s ≤ 1) ∧
      (∑ s ∈ Finset.range tc.numServices, (tc.wcets s : ℚ) / tc.periods s ≤ 1 →
        ∀ M, (run .llf tc M).misses = 0) := by
  rw [← utilisation_eq h]
  have hnever : (tasksOf h).utilisation ≤ 1 → ∀ M, (run .llf tc M).misses = 0 := by
    intro hU M
    rw [misses_eq_zero_iff h]
    exact fun i k _ => llf_feasible h hmax hU i k
  exact ⟨⟨utilisation_le_one h hN, fun hU => hnever hU N⟩, hnever⟩

/-- Test case 7, with LLF. -/
theorem llf_misses_iff_test7 :
    ((run .llf testCase7 16).misses = 0 ↔
        ∑ s ∈ Finset.range 3, (testCase7.wcets s : ℚ) / testCase7.periods s ≤ 1) ∧
      (∑ s ∈ Finset.range 3, (testCase7.wcets s : ℚ) / testCase7.periods s ≤ 1 →
        ∀ M, (run .llf testCase7 M).misses = 0) :=
  llf_misses_iff ⟨by decide, by decide⟩ (by decide) (by decide)

end Ecen5623.Schedule.DeadlineDriven
