import Ecen5623.Feasibility.UtilisationBound
import Ecen5623.Schedule.MissCount
import Ecen5623.Schedule.RateMonotonic
import Ecen5623.Schedule.Statistics

/-! # The verdict of the simulator

After the run the simulator adds up the shares of the ticks that the services really got and calls
the schedule safe if they are at most the least upper bound. The shares of a run with misses are
lower than the utilisation, since what is left of a missed job is dropped. Still the verdict is
right for rate-monotonic priorities and a run over a common multiple of the periods
(`safe_never_misses`), for two services or more; one service is called safe whatever its run time
(`safe_one`). Percentages are exact. -/

namespace Ecen5623.Schedule.Verdict

open Ecen5623.Library Ecen5623.Library.SlotSchedule Ecen5623.Library.PeriodicTasks
open Ecen5623.Feasibility.Tests Ecen5623.Feasibility.UtilisationBound
open Ecen5623.Schedule.Engine Ecen5623.Schedule.Trace Ecen5623.Schedule.Statistics

/-- `percent` of service `s`. -/
def percent (stats : CpuStats) (ticks s : ℕ) : ℚ := stats.cpuUsage s / ticks * 100

/-- `total_cpu` after the loop over the services. -/
def totalCpu (numServices : ℕ) (stats : CpuStats) (ticks : ℕ) : ℚ :=
  (List.range numServices).foldl (fun total s => total + percent stats ticks s) 0

/-- The simulator prints `safe` and not `unsafe!`. -/
def Safe (numServices : ℕ) (stats : CpuStats) (ticks : ℕ) : Prop :=
  ¬ leastUpperBound numServices < totalCpu numServices stats ticks

theorem totalCpu_eq (n : ℕ) (stats : CpuStats) (ticks : ℕ) :
    totalCpu n stats ticks = (∑ s ∈ Finset.range n, (stats.cpuUsage s : ℚ) / ticks) * 100 := by
  unfold totalCpu
  induction n with
  | zero => simp
  | succ n ih =>
    rw [List.range_succ, List.foldl_append, ih, Finset.sum_range_succ, add_mul]
    rfl

theorem services_lt (tc : STestCase) (ticks : ℕ) : ∀ t < ticks, ∀ s,
    (run .rm tc ticks).events t = some s → s < tc.numServices :=
  fun _ ht _ hev => run_events_lt ht hev

variable {tc : STestCase}

/-- **The printed verdict is right**: services sorted by their periods that the simulator calls safe
after a common multiple of the periods never miss a deadline. -/
theorem safe_never_misses (h : Positive tc.numServices tc.periods tc.wcets)
    (hs : RateMonotonic tc.numServices tc.periods) (hn : 2 ≤ tc.numServices) {ticks : ℕ}
    (hticks : 0 < ticks) (hdvd : ∀ s < tc.numServices, tc.periods s ∣ ticks) {block : ℕ → ℤ}
    (hzero : ∀ s < tc.numServices, block s = 0) {stats : CpuStats}
    (hstats : cpuStatistics tc.numServices (run .rm tc ticks).events block ticks = some stats)
    (hsafe : Safe tc.numServices stats ticks) (N : ℕ) : (run .rm tc N).misses = 0 := by
  have hσ := RateMonotonic.rm_fixedPriority h
  have hfit : ∀ i, (tasksOf h).Fits i := by
    by_contra hfit
    have hprod := Tasks.two_le_prod_share hσ (hs.tasks h) hfit hticks fun i => hdvd i i.isLt
    -- the shares are those that the statistics count
    obtain ⟨stats', hstats', husage, -⟩ := cpuStatistics_some block (services_lt tc ticks)
    obtain rfl : stats' = stats := Option.some.inj (hstats'.symm.trans hstats)
    have hshare : ∀ i : Fin tc.numServices,
        ((stats'.cpuUsage i : ℤ) : ℚ) = ran (sched .rm tc) i 0 ticks := by
      intro i
      rw [husage, hzero i i.isLt, zero_add, MissCount.ran_events i le_rfl]
      rfl
    have hne : Nonempty (Fin tc.numServices) := ⟨⟨0, by omega⟩⟩
    have hreal : (2 : ℝ) ≤
        ∏ i : Fin tc.numServices, (1 + (ran (sched .rm tc) i 0 ticks : ℝ) / ticks) := by
      rw [← Rat.cast_le (K := ℝ)] at hprod
      push_cast at hprod
      exact hprod
    have hsum := le_sum_of_two_le_prod (fun i => by positivity) hreal
    rw [Fintype.card_fin] at hsum
    have htotal : (totalCpu tc.numServices stats' ticks : ℝ) =
        (∑ i : Fin tc.numServices, (ran (sched .rm tc) i 0 ticks : ℝ) / ticks) * 100 := by
      rw [totalCpu_eq, ← Fin.sum_univ_eq_sum_range fun s => (stats'.cpuUsage s : ℚ) / ticks]
      simp only [hshare]
      push_cast
      rfl
    have hle : leastUpperBound tc.numServices ≤ totalCpu tc.numServices stats' ticks := by
      rw [htotal, leastUpperBound]
      linarith
    -- the bound is irrational, so it is not met exactly
    have hne := ne_of_two_le hn (totalCpu tc.numServices stats' ticks / 100)
    refine hsafe (lt_of_le_of_ne hle fun heq => hne ?_)
    rw [Rat.cast_div, ← heq, leastUpperBound]
    push_cast
    ring
  rw [misses_eq_zero_iff h]
  exact fun i k _ => hσ.met_of_fits (hfit i) k

/-- Periods 4 and 6 with run times 1 and 2. -/
def twoServices : STestCase := testCase [4, 6] [1, 2]

/-- The verdict after 12 ticks is good for 1000. -/
theorem safe_never_misses_two : (run .rm twoServices 1000).misses = 0 := by
  have hpos : Positive twoServices.numServices twoServices.periods twoServices.wcets :=
    ⟨by decide, by decide⟩
  have hs : RateMonotonic twoServices.numServices twoServices.periods := by
    intro i j hij hj
    obtain ⟨rfl, rfl⟩ : i = 0 ∧ j = 1 := by
      have : j < 2 := hj
      omega
    decide
  have hdvd : ∀ s < twoServices.numServices, twoServices.periods s ∣ 12 := by decide
  obtain ⟨stats, hstats, husage, -⟩ := cpuStatistics_some (fun _ => 0) (services_lt twoServices 12)
  have h0 : ran (run .rm twoServices 12).events 0 0 12 = 3 := by decide +kernel
  have h1 : ran (run .rm twoServices 12).events 1 0 12 = 4 := by decide +kernel
  have htotal : totalCpu 2 stats 12 ≤ 75 := by
    rw [totalCpu_eq, Finset.sum_range_succ, Finset.sum_range_one, husage, husage, h0, h1]
    norm_num
  have hsafe : Safe twoServices.numServices stats 12 :=
    not_lt.mpr (le_trans (by exact_mod_cast htotal) le_leastUpperBound_two)
  exact safe_never_misses hpos hs le_rfl (by decide : 0 < 12) hdvd (fun _ _ => rfl) hstats hsafe _

/-- **One service is called safe** whatever its run time: it gets at most every tick. -/
theorem safe_one (hone : tc.numServices = 1) {ticks : ℕ} {block : ℕ → ℤ} (hzero : block 0 = 0)
    {stats : CpuStats}
    (hstats : cpuStatistics tc.numServices (run .rm tc ticks).events block ticks = some stats) :
    Safe tc.numServices stats ticks := by
  obtain ⟨stats', hstats', husage, -⟩ := cpuStatistics_some block (services_lt tc ticks)
  obtain rfl : stats' = stats := Option.some.inj (hstats'.symm.trans hstats)
  have hran : ran (run .rm tc ticks).events 0 0 ticks ≤ ticks := by
    simpa using sum_ran_le (run .rm tc ticks).events {0} 0 ticks
  have hle : totalCpu tc.numServices stats' ticks ≤ 100 := by
    rw [totalCpu_eq, hone, Finset.sum_range_one, husage, hzero, zero_add]
    have h1 : (ran (run .rm tc ticks).events 0 0 ticks : ℚ) / ticks ≤ 1 :=
      div_le_one_of_le₀ (Nat.cast_le.mpr hran) (Nat.cast_nonneg _)
    push_cast
    linarith
  have hlub : leastUpperBound 1 = 100 := by norm_num [leastUpperBound]
  rw [Safe, hone, hlub, not_lt, ← hone]
  exact_mod_cast hle

/-- It is called safe when it misses every deadline. -/
example : (run .rm (testCase [2] [3]) 6).misses = 2 := by decide +kernel

end Ecen5623.Schedule.Verdict
