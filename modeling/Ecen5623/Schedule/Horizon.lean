import Ecen5623.Library.WorkAhead
import Ecen5623.Schedule.DeadlineDriven
import Ecen5623.Schedule.RateMonotonic
import Mathlib.Data.Prod.Lex

/-! # The horizon of the simulator

The program runs `TICKS` ticks, twice the constant `LCM`, whatever the periods. All three protocols
are the same loop with different keys (`choose_eq_scan`), and so their runs follow the keys of the
units of work (`followsKeys`): the protocol's own first, the index of the service for ties. Hence
whether `N` ticks count a miss can be told from the periods and runtimes
(`misses_eq_zero_iff_served`), and the horizon is long enough exactly if all jobs of all services
are served or one that is due within the horizon is not (`horizon_iff`). -/

namespace Ecen5623.Schedule.Horizon

open Ecen5623.Library.SlotSchedule Ecen5623.Library.PeriodicTasks
open Ecen5623.Feasibility.Tests Ecen5623.Schedule.Engine Ecen5623.Schedule.Trace
open Ecen5623.Schedule.DeadlineDriven Ecen5623.Schedule.RateMonotonic

/-- `LCM`. -/
def lcm : ℕ := 10

/-- `TICKS`, "two total periods". -/
def ticks : ℕ := lcm * 2

/-! ### The keys of the units -/

section Keys
variable {n : ℕ} (p : Protocol) (P : Tasks (Fin n))

/-- What the protocol compares: nothing, the deadline, or the laxity as it would be at tick 0. -/
def unitKey (i : Fin n) (k m : ℕ) : ℤ :=
  match p with
  | .rm => 0
  | .edf => ((k + 1) * P.T i : ℕ)
  | .llf => ((k + 1) * P.T i : ℕ) - ((P.C i : ℤ) - m)

theorem unitKey_succ (i : Fin n) (k m : ℕ) : unitKey p P i k m ≤ unitKey p P i k (m + 1) := by
  cases p with
  | rm => exact le_rfl
  | edf => exact le_rfl
  | llf => simp only [unitKey]; omega

/-- The keys of a protocol. A deadline of `INT_MAX` is none that the EDF loop would pick, so a
service of that period has to wait for one tick. -/
def keys : Keys (Fin n) (ℤ ×ₗ Fin n) where
  key i k m := toLex (unitKey p P i k m, i)
  offset i := if p = .edf ∧ (P.T i : ℤ) = intMax then 1 else 0
  mono i k m := Prod.Lex.toLex_le_toLex'.mpr ⟨unitKey_succ p P i k m, fun _ => le_rfl⟩
  inj h := congrArg (fun x => (ofLex x).2) h

end Keys

/-! ### One loop for all protocols -/

/-- The key that the loop of the protocol compares. -/
def schedKey : Protocol → Service → ℤ
  | .rm => fun _ => 0
  | .edf => Service.deadline
  | .llf => Service.laxity

theorem choose_eq_scan (p : Protocol) (services : List Service) :
    choose p services = (scan (schedKey p) services).serviceToRun := by
  cases p with
  | rm => exact runRm_eq_scan services
  | edf => rfl
  | llf => rfl

variable {p : Protocol} {tc : STestCase} (h : Positive tc.numServices tc.periods tc.wcets)
variable {σ : Schedule (Fin tc.numServices)} {t : ℕ}

/-- The keys compared at `t` are those of the next units, all shifted by the same amount. -/
theorem schedKey_serviceAt (i : Fin tc.numServices) : schedKey p (serviceAt tc σ t i) =
    unitKey p (tasksOf h) i (t / tc.periods i) (ran σ i ((tasksOf h).release i t) t) -
      if p = .rm then 0 else (t : ℤ) := by
  have hdeadline : (tasksOf h).deadline i t = (t / tc.periods i + 1) * tc.periods i := by
    rw [Nat.succ_mul]
    rfl
  cases p with
  | rm => rfl
  | edf =>
    rw [schedKey, deadline_serviceAt h, hdeadline]
    rfl
  | llf =>
    rw [schedKey, laxity_serviceAt h, Tasks.laxity, hdeadline]
    simp only [unitKey, tasksOf, reduceCtorEq, if_false]
    omega

variable (hint : ∀ s < tc.numServices, (tc.periods s : ℤ) ≤ intMax)

include hint in
/-- **The loop finds the services that are ready.** -/
theorem ready_iff (i : Fin tc.numServices) :
    (tasksOf h).Ready (keys p (tasksOf h)) σ i t ↔
      (serviceAt tc σ t i).running = true ∧ schedKey p (serviceAt tc σ t i) < intMax := by
  rw [running_iff h, Tasks.Ready]
  refine and_congr_right fun hp => ?_
  have hT := hint i i.isLt
  have hdm := Nat.div_add_mod t (tc.periods i)
  have hlt := Nat.mod_lt t (h.period i i.isLt)
  rw [Nat.mul_comm] at hdm
  have hran : ran σ i (t / tc.periods i * tc.periods i) t < tc.wcets i := hp
  cases p with
  | rm =>
    simp only [Tasks.start, keys, tasksOf, schedKey, intMax, reduceCtorEq, false_and, if_false]
    omega
  | edf =>
    simp only [Tasks.start, keys, tasksOf, schedKey, serviceAt, true_and]
    split_ifs with hmax <;> omega
  | llf =>
    simp only [Tasks.start, keys, tasksOf, schedKey, Service.laxity, serviceAt, reduceCtorEq,
      false_and, if_false]
    omega

include hint in
/-- **Every run follows the keys.** -/
theorem followsKeys (p : Protocol) :
    (tasksOf h).FollowsKeys (keys p (tasksOf h)) (sched p tc) where
  run t i hi := by
    rw [sched_eq_some, choose_eq_scan] at hi
    obtain ⟨sv, hsv, hr, hlt, hfirst⟩ := scan_some_first hi
    obtain ⟨sv', hsv', -, hle⟩ := scan_some hi
    obtain rfl := Option.some.inj (hsv.symm.trans hsv')
    obtain ⟨i', hi', rfl⟩ := getElem?_checked h hsv
    obtain rfl : i' = i := Fin.ext hi'
    refine ⟨(ready_iff h hint i').mpr ⟨hr, hlt⟩, fun j hj => ?_⟩
    have hrj := ((ready_iff h hint j).mp hj).1
    have hij := hle _ (mem_checked h j) hrj
    have hkey := fun j => schedKey_serviceAt (p := p) (σ := sched p tc) (t := t) h j
    refine Prod.Lex.toLex_le_toLex'.mpr ⟨?_, fun heq => ?_⟩
    · rw [hkey, hkey] at hij
      exact (sub_le_sub_iff_right _).mp hij
    · by_contra hji
      have hless := hfirst j (not_le.mp hji) _ (getElem?_checked_fin h j) hrj
      rw [hkey, hkey] at hless
      exact ((sub_lt_sub_iff_right _).mp hless).ne heq
  idle t ht j hj := by
    have hn := sched_eq_none h ht
    rw [choose_eq_scan] at hn
    obtain ⟨hr, hlt⟩ := (ready_iff h hint j).mp hj
    exact scan_ne_none (mem_checked h j) hr hlt hn

/-! ### Misses from the parameters -/

include hint in
/-- **`N` ticks count no miss exactly if all jobs due before `N` are served.** -/
theorem misses_eq_zero_iff_served (p : Protocol) (N : ℕ) : (run p tc N).misses = 0 ↔
    ∀ (i : Fin tc.numServices) (k : ℕ), (k + 1) * tc.periods i < N →
      (tasksOf h).Served (keys p (tasksOf h)) i k := by
  rw [misses_eq_zero_iff h]
  constructor
  · exact fun hmet i k hk => (followsKeys h hint p).served_of_met hmet hk
  · exact fun hserved i k hk => (followsKeys h hint p).met_of_served (hserved i k hk)

/-- Of two services of period 3 and runtime 2 the second one has one slot left. -/
example : let P : Tasks (Fin 2) := ⟨fun _ => 3, fun _ => 2, by decide, by decide⟩
    P.Served (keys .edf P) 0 0 ∧ ¬ P.Served (keys .edf P) 1 0 := by
  decide +kernel

include h in
theorem never_iff_feasible (p : Protocol) :
    (∀ M, (run p tc M).misses = 0) ↔ (tasksOf h).Feasible (sched p tc) := by
  constructor
  · intro hnever i k
    exact (misses_eq_zero_iff h _).mp (hnever _) i k (Nat.lt_succ_self _)
  · exact fun hf M => (misses_eq_zero_iff h M).mpr fun i k _ => hf i k

include hint in
theorem rm_served_iff : (∀ i k, (tasksOf h).Served (keys .rm (tasksOf h)) i k) ↔
    ∀ i, (tasksOf h).Fits i := by
  rw [← (followsKeys h hint .rm).feasible_iff]
  constructor
  · exact fun hf i => (rm_fixedPriority h).fits_of_met (hf i 0) fun j _ k _ => hf j k
  · exact fun hfit i k => (rm_fixedPriority h).met_of_fits (hfit i) k

theorem served_iff_utilisation (hp : p ≠ .rm)
    (hmax : ∀ s < tc.numServices, (tc.periods s : ℤ) < intMax) :
    (∀ i k, (tasksOf h).Served (keys p (tasksOf h)) i k) ↔ (tasksOf h).utilisation ≤ 1 := by
  rw [← (followsKeys h (fun s hs => (hmax s hs).le) p).feasible_iff]
  constructor
  · exact fun hf => utilisation_le_one h (Nat.lt_succ_self _)
      ((never_iff_feasible h p).mpr hf _)
  · intro hU
    cases p with
    | rm => exact absurd rfl hp
    | edf => exact Tasks.edf_feasible (edf_earliestDeadline h hmax) hU
    | llf => exact llf_feasible h hmax hU

/-! ### The horizon -/

/-- **When the horizon is long enough**: all jobs are served, or one that is due in it is not. -/
theorem horizon_iff (h : Positive tc.numServices tc.periods tc.wcets)
    (hint : ∀ s < tc.numServices, (tc.periods s : ℤ) ≤ intMax) (p : Protocol) :
    ((run p tc ticks).misses = 0 ↔ ∀ M, (run p tc M).misses = 0) ↔
      (∀ i k, (tasksOf h).Served (keys p (tasksOf h)) i k) ∨
        ∃ (i : Fin tc.numServices) (k : ℕ), (k + 1) * tc.periods i < ticks ∧
          ¬ (tasksOf h).Served (keys p (tasksOf h)) i k := by
  rw [never_iff_feasible h, (followsKeys h hint p).feasible_iff,
    misses_eq_zero_iff_served h hint]
  constructor
  · intro hiff
    by_cases hall : ∀ (i : Fin tc.numServices) (k : ℕ), (k + 1) * tc.periods i < ticks →
        (tasksOf h).Served (keys p (tasksOf h)) i k
    · exact Or.inl (hiff.mp hall)
    · push Not at hall
      exact Or.inr hall
  · rintro (hserved | ⟨i, k, hk, hnot⟩)
    · exact ⟨fun _ => hserved, fun _ i k _ => hserved i k⟩
    · exact ⟨fun hall => absurd (hall i k hk) hnot, fun hall => absurd (hall i k) hnot⟩

theorem positive_test16 :
    Positive testCase16.numServices testCase16.periods testCase16.wcets :=
  ⟨by decide, by decide⟩

/-- Test case 16, with RM. -/
theorem horizon_iff_test16 :
    ((run .rm testCase16 ticks).misses = 0 ↔ ∀ M, (run .rm testCase16 M).misses = 0) ↔
      (∀ i k, (tasksOf positive_test16).Served (keys .rm (tasksOf positive_test16)) i k) ∨
        ∃ (i : Fin testCase16.numServices) (k : ℕ), (k + 1) * testCase16.periods i < ticks ∧
          ¬ (tasksOf positive_test16).Served (keys .rm (tasksOf positive_test16)) i k :=
  horizon_iff positive_test16 (by decide) .rm

/-- Its third service misses the deadline at tick 100, which is behind the horizon. -/
theorem horizon_too_short :
    Positive testCase16.numServices testCase16.periods testCase16.wcets ∧
      (run .rm testCase16 ticks).misses = 0 ∧ (run .rm testCase16 101).misses = 1 ∧
      ¬ ((run .rm testCase16 ticks).misses = 0 ↔ ∀ M, (run .rm testCase16 M).misses = 0) := by
  have h20 : (run .rm testCase16 ticks).misses = 0 := by decide +kernel
  have h101 : (run .rm testCase16 101).misses = 1 := by decide +kernel
  refine ⟨positive_test16, h20, h101, fun hiff => ?_⟩
  have h0 := hiff.mp h20 101
  rw [h101] at h0
  cases h0

end Ecen5623.Schedule.Horizon
