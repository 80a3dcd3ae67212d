import Ecen5623.Schedule.DeadlineDriven
import Ecen5623.Schedule.MissCount

/-! # The invariant of the engine

What the counters say right after the deadline check of a tick, in the terms of the engine: the
deadline counter is the rest of the period, the runtime counter is the number of events of the
service since its release, and it never exceeds the runtime (`counters_checked`). A tick is idle if
and only if all services have used up their runtime (`idle_iff`). -/

namespace Ecen5623.Schedule.Invariant

open Ecen5623.Library.SlotSchedule Ecen5623.Library.PeriodicTasks
open Ecen5623.Feasibility.Tests Ecen5623.Schedule.Engine Ecen5623.Schedule.Trace
open Ecen5623.Schedule.DeadlineDriven Ecen5623.Schedule.MissCount

/-- The counters of service `s` at tick `t`, given the events so far. -/
structure Counters (tc : STestCase) (events : ℕ → Option ℕ) (t s : ℕ) (sv : Service) : Prop where
  tperiod : sv.tperiod = tc.periods s
  cruntime : sv.cruntime = tc.wcets s
  deadline : sv.deadline = sv.tperiod - t % sv.tperiod
  runtime : sv.runtime = ((Finset.Ico (t - t % tc.periods s) t).filter fun u =>
    events u = some s).card
  nonneg : 0 ≤ sv.runtime
  le : sv.runtime ≤ sv.cruntime

/-- What holds after the deadline check of tick `t`, and what the dispatch then does. -/
structure Checked (p : Protocol) (tc : STestCase) (t : ℕ) (st : State) : Prop where
  length : st.services.length = tc.numServices
  counters : ∀ s sv, st.services[s]? = some sv → Counters tc st.events t s sv
  idle : (dispatch p t st).events t = none ↔ ∀ sv ∈ st.services, sv.runtime = sv.cruntime

variable {p : Protocol} {tc : STestCase} {t : ℕ}

section Positive

variable (h : Positive tc.numServices tc.periods tc.wcets)
include h

theorem runtime_le (i : Fin tc.numServices) :
    (serviceAt tc (sched p tc) t i).runtime ≤ (serviceAt tc (sched p tc) t i).cruntime := by
  have hlt := (Tasks.mem_window (P := tasksOf h) (i := i) (t := t)).2
  have hle := Tasks.ran_window_le (sane (p := p) h) i (t / tc.periods i) t hlt.le
  exact Int.ofNat_le.mpr hle

/-- **The counters after the deadline check.** -/
theorem counters_checked {s : ℕ} {sv : Service} (hs : (checked p tc t)[s]? = some sv) :
    Counters tc (checkDeadlines (run p tc t)).events t s sv := by
  obtain ⟨i, rfl, rfl⟩ := getElem?_checked h hs
  have hmod := Nat.mod_lt t (h.period i i.isLt)
  refine ⟨rfl, rfl, ?_, ?_, Int.natCast_nonneg _, runtime_le h i⟩
  · show ((tc.periods i - t % tc.periods i : ℕ) : ℤ) = tc.periods i - t % tc.periods i
    omega
  · have hrelease : t / tc.periods i * tc.periods i = t - t % tc.periods i := by
      have := Nat.div_add_mod t (tc.periods i)
      rw [Nat.mul_comm]
      omega
    have hran := ran_events (p := p) (a := t / tc.periods i * tc.periods i) i (le_refl t)
    rw [hrelease] at hran
    show ((ran (sched p tc) i (t / tc.periods i * tc.periods i) t : ℕ) : ℤ) = _
    rw [hrelease, ← hran]
    rfl

end Positive

/-! ### Idle ticks -/

/-- **No service is chosen exactly if none has runtime left.** -/
theorem choose_eq_none_iff {services : List Service}
    (hdeadline : ∀ sv ∈ services, sv.deadline < intMax)
    (hlaxity : ∀ sv ∈ services, sv.running = true → sv.laxity < intMax) :
    choose p services = none ↔ ∀ sv ∈ services, sv.running = false := by
  constructor
  · intro hnone
    cases p with
    | rm => exact runRm_none hnone
    | edf => exact scan_none hnone fun sv hsv _ => hdeadline sv hsv
    | llf => exact scan_none hnone hlaxity
  · intro hall
    rcases hc : choose p services with _ | s
    · rfl
    · obtain ⟨sv, hsv, hr⟩ := choose_some hc
      rw [hall sv (List.mem_of_getElem? hsv)] at hr
      exact absurd hr Bool.false_ne_true

theorem dispatch_events_eq_none {st : State} (hst : st.events t = none) :
    (dispatch p t st).events t = none ↔ choose p st.services = none := by
  rw [dispatch_events]
  rcases choose p st.services with _ | s
  · exact iff_of_true hst rfl
  · dsimp only
    rw [Function.update_self]

theorem running_eq_false_iff {sv : Service} (hle : sv.runtime ≤ sv.cruntime) :
    sv.running = false ↔ sv.runtime = sv.cruntime := by
  rw [Service.running, decide_eq_false_iff_not]
  omega

theorem idle_iff (h : Positive tc.numServices tc.periods tc.wcets)
    (hmax : ∀ s < tc.numServices, (tc.periods s : ℤ) < intMax) :
    (dispatch p t (checkDeadlines (run p tc t))).events t = none ↔
      ∀ sv ∈ checked p tc t, sv.runtime = sv.cruntime := by
  have hmem : ∀ sv ∈ checked p tc t, ∃ i, sv = serviceAt tc (sched p tc) t i := fun sv hsv => by
    obtain ⟨s, hs⟩ := List.getElem?_of_mem hsv
    obtain ⟨i, -, hi⟩ := getElem?_checked h hs
    exact ⟨i, hi⟩
  have hnone : (checkDeadlines (run p tc t)).events t = none := run_events_none p tc t t le_rfl
  rw [dispatch_events_eq_none hnone]
  refine (choose_eq_none_iff ?_ ?_).trans ?_
  · intro sv hsv
    obtain ⟨i, rfl⟩ := hmem sv hsv
    exact deadline_lt_intMax hmax i
  · intro sv hsv hr
    obtain ⟨i, rfl⟩ := hmem sv hsv
    exact laxity_lt_intMax hmax i hr
  · refine forall₂_congr fun sv hsv => ?_
    obtain ⟨i, rfl⟩ := hmem sv hsv
    exact running_eq_false_iff (runtime_le h i)

/-- **The invariant of the simulator**, at every tick of a run. -/
theorem checked_run (h : Positive tc.numServices tc.periods tc.wcets)
    (hmax : ∀ s < tc.numServices, (tc.periods s : ℤ) < intMax) (p : Protocol) (t : ℕ) :
    Checked p tc t (checkDeadlines (run p tc t)) :=
  ⟨checked_length t, fun _ _ hs => counters_checked h hs, idle_iff h hmax⟩

/-- Test case 7, with LLF, at tick 40. -/
theorem checked_run_test7 : Checked .llf testCase7 40 (checkDeadlines (run .llf testCase7 40)) :=
  checked_run ⟨by decide, by decide⟩ (by decide) .llf 40

end Ecen5623.Schedule.Invariant
