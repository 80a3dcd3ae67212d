import Ecen5623.Feasibility.UtilisationBound
import Ecen5623.Schedule.DeadlineDriven
import Ecen5623.Schedule.RateMonotonic

/-! # The best priorities

RM in the simulator takes the services in the order they are given. Sorted by their periods they do
no worse than in any other order: if some order misses nothing, past every period, the sorted one
never misses (`sorted_never_misses`). EDF and LLF do no worse than any scheduler at all: if the
ticks up to a common multiple of the periods can be given out so that every job gets its run time,
neither of them ever misses (`never_misses_of_served`). -/

namespace Ecen5623.Schedule.Optimality

open Ecen5623.Library.SlotSchedule Ecen5623.Library.PeriodicTasks
open Ecen5623.Feasibility.Tests Ecen5623.Feasibility.Agreement
open Ecen5623.Feasibility.UtilisationBound Ecen5623.Schedule.Engine Ecen5623.Schedule.Trace
open Ecen5623.Schedule.RateMonotonic Ecen5623.Schedule.DeadlineDriven

variable {tc tc' : STestCase}

/-- The services of `tc'` are those of `tc` in another order. -/
structure Reordered (tc tc' : STestCase) (e : Fin tc'.numServices ≃ Fin tc.numServices) :
    Prop where
  periods : ∀ i : Fin tc'.numServices, tc'.periods i = tc.periods (e i)
  wcets : ∀ i : Fin tc'.numServices, tc'.wcets i = tc.wcets (e i)

theorem Reordered.positive {e : Fin tc'.numServices ≃ Fin tc.numServices} (he : Reordered tc tc' e)
    (h : Positive tc.numServices tc.periods tc.wcets) :
    Positive tc'.numServices tc'.periods tc'.wcets where
  period i hi := by
    rw [he.periods ⟨i, hi⟩]
    exact h.period _ (e ⟨i, hi⟩).isLt
  wcet i hi := by
    rw [he.wcets ⟨i, hi⟩]
    exact h.wcet _ (e ⟨i, hi⟩).isLt

/-- **Sorting the services by their periods never makes a miss.** -/
theorem sorted_never_misses (h : Positive tc.numServices tc.periods tc.wcets)
    {e : Fin tc'.numServices ≃ Fin tc.numServices} (he : Reordered tc tc' e)
    (hs : RateMonotonic tc'.numServices tc'.periods) {N : ℕ}
    (hN : ∀ s < tc.numServices, tc.periods s < N) (hmiss : (run .rm tc N).misses = 0) (M : ℕ) :
    (run .rm tc' M).misses = 0 := by
  have h' := he.positive h
  have hsorted : ∀ k l, k ≤ l → (tasksOf h').T k ≤ (tasksOf h').T l := fun k l hkl =>
    hkl.eq_or_lt.elim (fun heq => by rw [heq]) fun hlt => hs.tasks h' k l hlt
  rw [misses_eq_zero_iff h']
  exact fun i k _ => (rm_fixedPriority h').met_of_fits
    (Tasks.fits_of_sorted e he.periods he.wcets hsorted (fits_of_run h hN hmiss) i) k

/-- Periods 6 and 4 with run times 2 and 1, and the same services sorted. -/
theorem sorted_never_misses_two : (run .rm (testCase [4, 6] [1, 2]) 1000).misses = 0 := by
  have he : Reordered (testCase [6, 4] [2, 1]) (testCase [4, 6] [1, 2])
      (Equiv.swap 0 1 : Equiv.Perm (Fin 2)) := ⟨by decide, by decide⟩
  have hs : RateMonotonic 2 (testCase [4, 6] [1, 2]).periods := by
    intro i j hij hj
    obtain ⟨rfl, rfl⟩ : i = 0 ∧ j = 1 := by omega
    decide
  exact sorted_never_misses ⟨by decide, by decide⟩ he hs (by decide : ∀ s < 2, _ < 7)
    (by decide +kernel) 1000

/-- **EDF and LLF are as good as any scheduler**, even one that knows all arrivals beforehand. -/
theorem never_misses_of_served (h : Positive tc.numServices tc.periods tc.wcets)
    (hmax : ∀ s < tc.numServices, (tc.periods s : ℤ) < intMax) {L : ℕ} (hL : 0 < L)
    (hdvd : ∀ s < tc.numServices, tc.periods s ∣ L) {σ : Schedule (Fin tc.numServices)}
    (hσ : ∀ s : Fin tc.numServices, ∀ k, (k + 1) * tc.periods s ≤ L →
      tc.wcets s ≤ ran σ s (k * tc.periods s) ((k + 1) * tc.periods s)) (M : ℕ) :
    (run .edf tc M).misses = 0 ∧ (run .llf tc M).misses = 0 := by
  have hU : (tasksOf h).utilisation ≤ 1 :=
    Tasks.utilisation_le_one_of_served hL (fun i => hdvd i i.isLt) hσ
  rw [misses_eq_zero_iff h, misses_eq_zero_iff h]
  exact ⟨fun i k _ => Tasks.edf_feasible (edf_earliestDeadline h hmax) hU i k,
    fun i k _ => llf_feasible h hmax hU i k⟩

/-- Two services that take turns. -/
theorem never_misses_of_served_two : (run .edf (testCase [2, 2] [1, 1]) 1000).misses = 0 ∧
    (run .llf (testCase [2, 2] [1, 1]) 1000).misses = 0 := by
  set σ : Schedule (Fin 2) := fun t => if t % 2 = 0 then some 0 else some 1 with hσ
  have hserved : ∀ s : Fin 2, ∀ k, (k + 1) * 2 ≤ 2 → 1 ≤ ran σ s (k * 2) ((k + 1) * 2) := by
    intro s k hk
    obtain rfl : k = 0 := by omega
    revert s
    decide
  have hper : ∀ s : Fin 2, (testCase [2, 2] [1, 1]).periods s = 2 ∧
      (testCase [2, 2] [1, 1]).wcets s = 1 := by decide
  exact never_misses_of_served ⟨by decide, by decide⟩ (by decide) (by decide : 0 < 2) (by decide)
    (fun s => by rw [(hper s).1, (hper s).2]; exact hserved s) 1000

end Ecen5623.Schedule.Optimality
