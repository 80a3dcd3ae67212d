import Ecen5623.Library.Layout
import Ecen5623.Schedule.Horizon

/-! # What the simulator prints about a run

`cpuStatistics` counts the ticks of every service and the idle ones from the events; `cpu_usage` is
a fresh block of memory that nothing clears, so its counters are off by what the block held
(`cpuStatistics_some`). The chart of EDF and LLF prints an `X` for the entries `-1` of `statsBuf`,
which stand for the services without runtime left, and for a laxity of `-1` as well (`statsBuf_eq`).
Such a laxity comes up exactly if, laid out by priority, a unit of work but the last of its job is
late (`xMark_iff`), and so not if the utilisation is at most one (`chart_of_utilisation`). -/

namespace Ecen5623.Schedule.Statistics

open Ecen5623.Library.SlotSchedule Ecen5623.Library.PeriodicTasks
open Ecen5623.Feasibility.Tests Ecen5623.Schedule.Engine Ecen5623.Schedule.Trace
open Ecen5623.Schedule.DeadlineDriven
open Ecen5623.Schedule.Horizon (keys followsKeys)

/-! ### The cpu statistics -/

/-- `cpu_usage` and `cpu_slack`. -/
structure CpuStats where
  cpuUsage : ℕ → ℤ
  cpuSlack : ℤ

/-- Count the event of tick `t`; `none` if the assertion `events[t] < num_services` fails. -/
def countTick (numServices : ℕ) (events : ℕ → Option ℕ) (stats : CpuStats) (t : ℕ) :
    Option CpuStats :=
  match events t with
  | none => some { stats with cpuSlack := stats.cpuSlack + 1 }
  | some s =>
    if s < numServices then
      some { stats with cpuUsage := Function.update stats.cpuUsage s (stats.cpuUsage s + 1) }
    else none

/-- Count up cpu statistics, `cpu_usage` being the block that `malloc` returned. -/
def cpuStatistics (numServices : ℕ) (events : ℕ → Option ℕ) (block : ℕ → ℤ) (ticks : ℕ) :
    Option CpuStats :=
  (List.range ticks).foldlM (countTick numServices events) { cpuUsage := block, cpuSlack := 0 }

/-- The number of ticks in which nothing ran. -/
def idleTicks (events : ℕ → Option ℕ) (ticks : ℕ) : ℕ :=
  ((Finset.Ico 0 ticks).filter fun t => events t = none).card

theorem idleTicks_succ (events : ℕ → Option ℕ) (N : ℕ) :
    idleTicks events (N + 1) = idleTicks events N + if events N = none then 1 else 0 := by
  unfold idleTicks
  rw [Finset.card_filter, Finset.card_filter, Finset.sum_Ico_succ_top (Nat.zero_le N)]

/-- **The counters after the loop.** -/
theorem cpuStatistics_some {n : ℕ} {events : ℕ → Option ℕ} (block : ℕ → ℤ) :
    ∀ {N : ℕ}, (∀ t < N, ∀ s, events t = some s → s < n) →
      ∃ stats, cpuStatistics n events block N = some stats ∧
        (∀ s, stats.cpuUsage s = block s + ran events s 0 N) ∧
        stats.cpuSlack = idleTicks events N
  | 0, _ => ⟨_, rfl, fun s => by simp, by simp [idleTicks]⟩
  | N + 1, hlt => by
    obtain ⟨stats, hstats, husage, hslack⟩ :=
      cpuStatistics_some block fun t ht => hlt t (ht.trans (Nat.lt_succ_self N))
    have hstep : cpuStatistics n events block (N + 1) = countTick n events stats N := by
      unfold cpuStatistics at hstats ⊢
      rw [List.range_succ, List.foldlM_append, hstats]
      simp
    rw [hstep, countTick, idleTicks_succ]
    simp only [ran_succ events _ (Nat.zero_le N)]
    rcases hN : events N with _ | s'
    · refine ⟨_, rfl, fun s => ?_, ?_⟩
      · rw [husage s]; simp
      · rw [hslack]; simp
    · refine ⟨_, if_pos (hlt N (Nat.lt_succ_self N) s' hN), fun s => ?_, ?_⟩
      · by_cases hs : s = s'
        · subst hs
          simp [husage, add_assoc]
        · simp [Function.update_of_ne hs, husage, Ne.symm hs]
      · rw [hslack]; simp

theorem sum_ran_add_idleTicks {n : ℕ} {events : ℕ → Option ℕ} {N : ℕ}
    (hlt : ∀ t < N, ∀ s, events t = some s → s < n) :
    ∑ s ∈ Finset.range n, ran events s 0 N + idleTicks events N = N := by
  have hidle : idleTicks events N =
      ((Finset.Ico 0 N).filter fun t => ¬ ∃ s ∈ Finset.range n, events t = some s).card := by
    unfold idleTicks
    congr 1
    refine Finset.filter_congr fun t ht => ?_
    rw [Finset.mem_Ico] at ht
    rcases hN : events t with _ | s
    · simp
    · simp [hlt t ht.2 s hN]
  rw [sum_ran_eq_card, hidle, Finset.card_filter_add_card_filter_not, Nat.card_Ico, Nat.sub_zero]

variable {p : Protocol} {tc : STestCase}

/-- **When the cpu accounting adds up**: if and only if the block of `cpu_usage` came zeroed. -/
theorem cpuAccounting_iff (p : Protocol) (tc : STestCase) (N : ℕ) (block : ℕ → ℤ) :
    (∃ stats, cpuStatistics tc.numServices (run p tc N).events block N = some stats ∧
        (∀ s < tc.numServices, stats.cpuUsage s = ran (run p tc N).events s 0 N) ∧
        ∑ s ∈ Finset.range tc.numServices, stats.cpuUsage s + stats.cpuSlack = N) ↔
      ∀ s < tc.numServices, block s = 0 := by
  have hlt : ∀ t < N, ∀ s, (run p tc N).events t = some s → s < tc.numServices :=
    fun t ht s hs => run_events_lt ht hs
  obtain ⟨stats, hstats, husage, hslack⟩ := cpuStatistics_some block hlt
  constructor
  · rintro ⟨stats', hstats', hcount, -⟩ s hs
    obtain rfl : stats = stats' := Option.some.inj (hstats.symm.trans hstats')
    have h1 := hcount s hs
    rw [husage s] at h1
    exact left_eq_add.mp (by rw [add_comm]; exact h1.symm)
  · intro hzero
    have hcount : ∀ s < tc.numServices, stats.cpuUsage s = ran (run p tc N).events s 0 N :=
      fun s hs => by rw [husage s, hzero s hs, zero_add]
    refine ⟨stats, hstats, hcount, ?_⟩
    rw [Finset.sum_congr rfl fun s hs => hcount s (Finset.mem_range.mp hs), hslack]
    exact_mod_cast sum_ran_add_idleTicks hlt

/-- A block that holds a one everywhere: the first service of test case 1 is printed with one tick
more than it ran. -/
theorem cpuUsage_off : (cpuStatistics 3 (run .rm testCase1 20).events (fun _ => 1) 20).map
      (fun stats => stats.cpuUsage 0) = some 11 ∧
    ran (run .rm testCase1 20).events 0 0 20 = 10 := by
  decide +kernel

/-! ### The chart of deadlines and laxities -/

/-- What EDF and LLF compare and record: the deadline or the laxity. -/
def recorded (p : Protocol) : Service → ℤ :=
  match p with
  | .llf => Service.laxity
  | _ => Service.deadline

@[simp] theorem runService_statsBuf (t : ℕ) (serviceToRun : Option ℕ) (st : State) :
    (runService t serviceToRun st).statsBuf = st.statsBuf := by
  cases serviceToRun <;> rfl

theorem tick_statsBuf (hp : p ≠ .rm) (t : ℕ) (st : State) :
    (tick p t st).statsBuf = Function.update st.statsBuf t
      ((checkDeadlines st).services.map fun sv => if sv.running then recorded p sv else -1) := by
  cases p with
  | rm => exact absurd rfl hp
  | edf =>
    simp only [tick, clockTick, dispatch, runScan, runService_statsBuf, runEdf, (scan_ok _ _).row]
    rfl
  | llf =>
    simp only [tick, clockTick, dispatch, runScan, runService_statsBuf, runLlf, (scan_ok _ _).row]
    rfl

/-- **The rows of the chart.** -/
theorem statsBuf_eq (hp : p ≠ .rm) {N t : ℕ} (ht : t < N) : (run p tc N).statsBuf t =
    (checked p tc t).map fun sv => if sv.running then recorded p sv else -1 := by
  induction N, ht using Nat.le_induction with
  | base => rw [run, tick_statsBuf hp, Function.update_self]; rfl
  | succ N hN ih => rw [run, tick_statsBuf hp, Function.update_of_ne (by omega), ih]

variable (h : Positive tc.numServices tc.periods tc.wcets)

include h in
theorem deadline_pos {t : ℕ} {sv : Service} (hsv : sv ∈ checked p tc t) : 0 < sv.deadline := by
  rw [checked_services h t] at hsv
  obtain ⟨i, rfl⟩ := List.mem_ofFn.mp hsv
  have hlt := Nat.mod_lt t (h.period i i.isLt)
  simp only [serviceAt]
  omega

theorem entry_iff (p : Protocol) (sv : Service) :
    ((if sv.running then recorded p sv else -1) = -1 ↔ sv.cruntime ≤ sv.runtime) ↔
      ¬ (sv.runtime < sv.cruntime ∧ recorded p sv = -1) := by
  simp only [Service.running, decide_eq_true_eq]
  by_cases hr : sv.runtime < sv.cruntime
  · simp [hr, not_le.mpr hr]
  · simp [hr, not_lt.mp hr]

theorem chart_iff (hp : p ≠ .rm) (N : ℕ) :
    (∀ t < N, ∀ (s : ℕ) (sv : Service), (checked p tc t)[s]? = some sv →
        (((run p tc N).statsBuf t)[s]? = some (-1) ↔ sv.cruntime ≤ sv.runtime)) ↔
      ∀ t < N, ∀ sv ∈ checked p tc t, ¬ (sv.runtime < sv.cruntime ∧ recorded p sv = -1) := by
  refine forall₂_congr fun t ht => ?_
  have hentry : ∀ (s : ℕ) (sv : Service), (checked p tc t)[s]? = some sv →
      ((((run p tc N).statsBuf t)[s]? = some (-1) ↔ sv.cruntime ≤ sv.runtime) ↔
        ¬ (sv.runtime < sv.cruntime ∧ recorded p sv = -1)) := by
    intro s sv hsv
    rw [statsBuf_eq hp ht, List.getElem?_map, hsv, Option.map_some, Option.some.injEq, entry_iff]
  constructor
  · intro hall sv hsv
    obtain ⟨s, hs⟩ := List.getElem?_of_mem hsv
    exact (hentry s sv hs).mp (hall s sv hs)
  · intro hall s sv hsv
    exact (hentry s sv hsv).mpr (hall sv (List.mem_of_getElem? hsv))

include h in
theorem laxity_nonneg (hmax : ∀ s < tc.numServices, (tc.periods s : ℤ) < intMax)
    (hU : (tasksOf h).utilisation ≤ 1) {t : ℕ} {sv : Service} (hsv : sv ∈ checked .llf tc t) :
    0 ≤ sv.laxity := by
  rw [checked_services h t] at hsv
  obtain ⟨i, rfl⟩ := List.mem_ofFn.mp hsv
  rw [laxity_serviceAt h]
  exact (llf_feasible h hmax hU).laxity_nonneg i t

include h in
/-- **With a utilisation of at most one the chart is right.** -/
theorem chart_of_utilisation (hp : p ≠ .rm)
    (hmax : ∀ s < tc.numServices, (tc.periods s : ℤ) < intMax)
    (hU : (tasksOf h).utilisation ≤ 1) (N : ℕ) :
    ∀ t < N, ∀ (s : ℕ) (sv : Service), (checked p tc t)[s]? = some sv →
      (((run p tc N).statsBuf t)[s]? = some (-1) ↔ sv.cruntime ≤ sv.runtime) := by
  refine (chart_iff hp N).mpr fun t _ sv hsv => ?_
  rintro ⟨-, hrec⟩
  cases p with
  | rm => exact hp rfl
  | edf =>
    have hpos := deadline_pos h hsv
    simp only [recorded] at hrec
    omega
  | llf =>
    have hnonneg := laxity_nonneg h hmax hU hsv
    simp only [recorded] at hrec
    omega

include h in
/-- Under LLF `-1` is recorded for a service with runtime left if a job gets to that laxity. -/
theorem laxity_ne_iff (N : ℕ) :
    (∀ t < N, ∀ sv ∈ checked .llf tc t, ¬ (sv.runtime < sv.cruntime ∧ sv.laxity = -1)) ↔
      ∀ (i : Fin tc.numServices), ∀ t < N, (tasksOf h).Pending (sched .llf tc) i t →
        (tasksOf h).laxity (sched .llf tc) i t ≠ -1 := by
  have hentry : ∀ (i : Fin tc.numServices) (t : ℕ),
      ¬ ((serviceAt tc (sched .llf tc) t i).runtime < (serviceAt tc (sched .llf tc) t i).cruntime ∧
        (serviceAt tc (sched .llf tc) t i).laxity = -1) ↔
      ((tasksOf h).Pending (sched .llf tc) i t → (tasksOf h).laxity (sched .llf tc) i t ≠ -1) := by
    intro i t
    rw [← running_iff h, laxity_serviceAt h, not_and, Service.running, decide_eq_true_eq]
  constructor
  · intro hall i t ht
    exact (hentry i t).mp (hall t ht _ (mem_checked h i))
  · intro hall t ht sv hsv
    rw [checked_services h t] at hsv
    obtain ⟨i, rfl⟩ := List.mem_ofFn.mp hsv
    exact (hentry i t).mpr (hall i t ht)

/-- **When an `X` means that a service is not runnable**: always under EDF, and under LLF if and
only if the units of work of every service are laid out in time. -/
theorem xMark_iff (h : Positive tc.numServices tc.periods tc.wcets)
    (hint : ∀ s < tc.numServices, (tc.periods s : ℤ) ≤ intMax) (hp : p ≠ .rm) (N : ℕ) :
    (∀ t < N, ∀ (s : ℕ) (sv : Service), (checked p tc t)[s]? = some sv →
        (((run p tc N).statsBuf t)[s]? = some (-1) ↔ sv.cruntime ≤ sv.runtime)) ↔
      (p = .edf ∨ ∀ i, (tasksOf h).Timely (keys .llf (tasksOf h)) i N) := by
  rw [chart_iff hp]
  cases p with
  | rm => exact absurd rfl hp
  | edf =>
    refine iff_of_true (fun t _ sv hsv => ?_) (Or.inl rfl)
    have := deadline_pos h hsv
    simp only [recorded]
    omega
  | llf =>
    simp only [reduceCtorEq, false_or, recorded]
    rw [laxity_ne_iff h]
    exact forall_congr' fun i => (followsKeys h hint .llf).timely_iff.symm

/-- Of two services of period 2 and runtime 2 only the first one runs its first unit in time. -/
example : let P : Tasks (Fin 2) := ⟨fun _ => 2, fun _ => 2, by decide, by decide⟩
    P.LaidOut (keys .llf P) 0 0 0 1 ∧ ¬ P.LaidOut (keys .llf P) 1 0 0 1 := by
  decide +kernel

theorem positive_test7 : Positive testCase7.numServices testCase7.periods testCase7.wcets :=
  ⟨by decide, by decide⟩

/-- Test case 7, with LLF, for twenty ticks. -/
theorem xMark_iff_test7 :
    (∀ t < 20, ∀ (s : ℕ) (sv : Service), (checked .llf testCase7 t)[s]? = some sv →
        (((run .llf testCase7 20).statsBuf t)[s]? = some (-1) ↔ sv.cruntime ≤ sv.runtime)) ↔
      (Protocol.llf = .edf ∨
        ∀ i, (tasksOf positive_test7).Timely (keys .llf (tasksOf positive_test7)) i 20) :=
  xMark_iff positive_test7 (by decide) (by decide) 20

/-- Two services of period 2 and run time 2: at the second tick the service kept waiting has two
ticks to run and one left, and the chart prints an `X` for it. -/
theorem xMark_runnable :
    ((run .llf (testCase [2, 2] [2, 2]) 20).statsBuf 1)[1]? = some (-1) ∧
      (checked .llf (testCase [2, 2] [2, 2]) 1)[1]? =
        some { tperiod := 2, cruntime := 2, deadline := 1, runtime := 0 } := by
  decide +kernel

end Ecen5623.Schedule.Statistics
