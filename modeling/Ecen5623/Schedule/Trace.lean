import Ecen5623.Schedule.Engine
import Ecen5623.Library.DeadlineDriven

/-! # The schedule of a run

The services that ran form a schedule in the sense of the library (`sched`), and right after the
deadline check of tick `t` the counters of every service are functions of it (`checked_services`):
the deadline counter is the distance to the end of the current period, the runtime counter is the
number of slots run since the release. Hence the misses counted in `N` ticks are none exactly if all
jobs due before `N` are met (`misses_eq_zero_iff`). -/

namespace Ecen5623.Schedule.Trace

open Ecen5623.Library.SlotSchedule Ecen5623.Library.PeriodicTasks
open Ecen5623.Feasibility.Tests Ecen5623.Schedule.Engine

variable (p : Protocol) (tc : STestCase)

/-- The services at tick `t`, right after the deadline check. -/
def checked (t : ℕ) : List Service := (checkDeadlines (run p tc t)).services

/-- What ran: the services of the events recorded. -/
def sched : Schedule (Fin tc.numServices) := fun t =>
  ((run p tc (t + 1)).events t).bind fun s =>
    if h : s < tc.numServices then some ⟨s, h⟩ else none

variable {p tc} (h : Positive tc.numServices tc.periods tc.wcets)
variable {σ : Schedule (Fin tc.numServices)} {t : ℕ}

/-- The counters of service `i` at tick `t` in the schedule `σ`. -/
def serviceAt (tc : STestCase) (σ : Schedule (Fin tc.numServices)) (t : ℕ)
    (i : Fin tc.numServices) : Service where
  tperiod := tc.periods i
  cruntime := tc.wcets i
  deadline := (tc.periods i - t % tc.periods i : ℕ)
  runtime := ran σ i (t / tc.periods i * tc.periods i) t

/-! ### One tick of a service -/

/-- A service after the dispatch and the clock tick; `r` says whether it ran. -/
def ticked (r : Bool) (sv : Service) : Service :=
  { sv with runtime := sv.runtime + (if r then 1 else 0), deadline := sv.deadline - 1 }

theorem mod_succ_cases {period : ℕ} (hpos : 0 < period) (t : ℕ) :
    (t % period + 1 = period ∧ (t + 1) % period = 0 ∧ (t + 1) / period = t / period + 1) ∨
      (t % period + 1 < period ∧ (t + 1) % period = t % period + 1 ∧
        (t + 1) / period = t / period) := by
  have hlt := Nat.mod_lt t hpos
  rcases Nat.lt_or_eq_of_le (Nat.succ_le_of_lt hlt) with h1 | h1
  · right
    refine ⟨h1, ?_, ?_⟩
    · rw [Nat.add_mod, Nat.mod_eq_of_lt (by omega : 1 < period), Nat.mod_eq_of_lt h1]
    · rw [Nat.succ_div_of_not_dvd]
      intro hd
      have h2 := Nat.mod_eq_zero_of_dvd hd
      rw [Nat.add_mod, Nat.mod_eq_of_lt (by omega : 1 < period), Nat.mod_eq_of_lt h1] at h2
      omega
  · left
    have hd : period ∣ t + 1 := by
      refine ⟨t / period + 1, ?_⟩
      have := Nat.div_add_mod t period
      rw [Nat.mul_succ]
      omega
    exact ⟨h1, Nat.mod_eq_zero_of_dvd hd, Nat.succ_div_of_dvd hd⟩

include h in
/-- **One tick of a service**: after the next deadline check its counters are those of `t + 1`. -/
theorem expire_ticked (i : Fin tc.numServices) (t : ℕ) :
    (ticked (σ t = some i) (serviceAt tc σ t i)).expire = serviceAt tc σ (t + 1) i := by
  have hran := ran_succ σ i (Nat.div_mul_le_self t (tc.periods i))
  unfold Service.expire ticked serviceAt
  rcases mod_succ_cases (h.period i i.isLt) t with ⟨h1, h2, h3⟩ | ⟨h1, h2, h3⟩
  · have hrel : (t / tc.periods i + 1) * tc.periods i = t + 1 := by
      have := Nat.div_add_mod t (tc.periods i)
      rw [Nat.succ_mul, Nat.mul_comm]
      omega
    rw [if_pos (by simp only; omega), h2, h3, hrel, ran_self]
    simp
  · rw [if_neg (by simp only; omega), h2, h3, hran]
    simp only [decide_eq_true_eq]
    congr 1
    · omega
    · push_cast
      rfl

include h in
/-- **The miss counted at `t + 1`** is that of the job due there. -/
theorem missed_ticked (i : Fin tc.numServices) (t : ℕ) :
    (ticked (σ t = some i) (serviceAt tc σ t i)).missed = true ↔
      ∃ k, (k + 1) * tc.periods i = t + 1 ∧ ¬ (tasksOf h).Met σ i k := by
  have hran := ran_succ σ i (Nat.div_mul_le_self t (tc.periods i))
  have hdm := Nat.div_add_mod t (tc.periods i)
  rw [Nat.mul_comm] at hdm
  have hT := h.period i i.isLt
  have hend : (serviceAt tc σ t i).deadline - 1 = 0 ↔
      (t / tc.periods i + 1) * tc.periods i = t + 1 := by
    have hlt := Nat.mod_lt t hT
    simp only [serviceAt, Nat.succ_mul]
    omega
  have hrun : (serviceAt tc σ t i).runtime + (if σ t = some i then 1 else 0) =
      (ran σ i (t / tc.periods i * tc.periods i) (t + 1) : ℕ) := by
    simp only [serviceAt, hran]
    push_cast
    rfl
  simp only [Service.missed, ticked, decide_eq_true_eq, hend, hrun]
  constructor
  · rintro ⟨h1, h2⟩
    refine ⟨t / tc.periods i, h1, fun hm => h2 ?_⟩
    rw [← h1]
    exact congrArg Nat.cast hm
  · rintro ⟨k, h1, h2⟩
    have hk : t / tc.periods i = k := Tasks.div_eq_of_window (P := tasksOf h) (i := i)
      (by rw [Nat.succ_mul] at h1; exact (by omega : k * tc.periods i ≤ t)) (by
        exact (by omega : t < (k + 1) * tc.periods i))
    rw [hk]
    refine ⟨h1, fun hm => h2 ?_⟩
    rw [← h1] at hm
    exact Int.ofNat.inj hm

/-! ### The counters of a run -/

theorem choose_some {services : List Service} {s : ℕ} (hc : choose p services = some s) :
    ∃ sv, services[s]? = some sv ∧ sv.running = true := by
  cases p with
  | rm => obtain ⟨sv, h1, h2, -⟩ := runRm_some hc; exact ⟨sv, h1, h2⟩
  | edf => obtain ⟨sv, h1, h2, -⟩ := scan_some hc; exact ⟨sv, h1, h2⟩
  | llf => obtain ⟨sv, h1, h2, -⟩ := scan_some hc; exact ⟨sv, h1, h2⟩

theorem choose_lt {services : List Service} {s : ℕ} (hc : choose p services = some s) :
    s < services.length := by
  obtain ⟨sv, hsv, -⟩ := choose_some hc
  exact (List.getElem?_eq_some_iff.mp hsv).1

theorem run_events (t : ℕ) : (run p tc (t + 1)).events t = choose p (checked p tc t) := by
  have hnone : (checkDeadlines (run p tc t)).events t = none := run_events_none p tc t t le_rfl
  rw [run, tick, clockTick, dispatch_events, checked]
  rcases choose p (checkDeadlines (run p tc t)).services with _ | s
  · exact hnone
  · exact Function.update_self ..

theorem run_events_of_lt {N t : ℕ} (ht : t < N) :
    (run p tc N).events t = choose p (checked p tc t) := by
  induction N, ht using Nat.le_induction with
  | base => exact run_events t
  | succ N hN ih => rw [run, tick_events p N _ t (by omega), ih]

theorem checked_length : ∀ t, (checked p tc t).length = tc.numServices
  | 0 => by simp [checked, checkDeadlines, run, init]
  | t + 1 => by
    have ih := checked_length t
    unfold checked at ih ⊢
    rw [checkDeadlines, run, tick, clockTick, dispatch_services]
    simp only [List.length_map]
    split
    · exact ih
    · rw [List.length_modify]; exact ih

theorem run_events_lt {N t s : ℕ} (ht : t < N) (hs : (run p tc N).events t = some s) :
    s < tc.numServices := by
  rw [run_events_of_lt ht] at hs
  exact (choose_lt hs).trans_eq (checked_length t)

theorem sched_eq_some {i : Fin tc.numServices} :
    sched p tc t = some i ↔ choose p (checked p tc t) = some (i : ℕ) := by
  rw [sched, run_events, Option.bind_eq_some_iff]
  constructor
  · rintro ⟨s, hs, hi⟩
    split_ifs at hi
    cases hi
    exact hs
  · intro hs
    exact ⟨i, hs, dif_pos i.isLt⟩

theorem run_succ_services (hch : checked p tc t = List.ofFn (serviceAt tc (sched p tc) t)) :
    (run p tc (t + 1)).services =
      List.ofFn fun i => ticked (sched p tc t = some i) (serviceAt tc (sched p tc) t i) := by
  have hsome : ∀ i, sched p tc t = some i ↔ choose p (checked p tc t) = some (i : ℕ) :=
    fun i => sched_eq_some
  unfold checked at hch hsome
  rw [run, tick, clockTick, dispatch_services, hch]
  dsimp only
  rw [hch] at hsome
  rcases hc : choose p (List.ofFn (serviceAt tc (sched p tc) t)) with _ | s
  · rw [List.map_ofFn]
    congr 1
    funext i
    have : sched p tc t ≠ some i := fun hi => by rw [hsome, hc] at hi; cases hi
    simp [ticked, this]
  · refine List.ext_getElem (by simp) fun j h1 h2 => ?_
    have hj : j < tc.numServices := by simpa using h2
    have hiff : sched p tc t = some ⟨j, hj⟩ ↔ s = j := by rw [hsome, hc, Option.some.injEq]
    simp only [List.getElem_map, List.getElem_ofFn, ticked, hiff]
    by_cases hsj : s = j
    · simp [hsj]
    · simp [hsj]

include h in
/-- **The counters of a run** after the deadline check of tick `t`. -/
theorem checked_services : ∀ t, checked p tc t = List.ofFn (serviceAt tc (sched p tc) t)
  | 0 => by
    refine List.ext_getElem (by simp [checked, checkDeadlines, run, init]) fun s h1 h2 => ?_
    have hs : s < tc.numServices := by simpa using h2
    simp [checked, checkDeadlines, run, init, Service.expire, serviceAt]
  | t + 1 => by
    rw [checked, checkDeadlines, run_succ_services (checked_services t), List.map_ofFn]
    dsimp only
    congr 1
    funext i
    exact expire_ticked h i t

/-! ### The misses of a run -/

theorem misses_eq_zero_iff_tick : ∀ N, (run p tc N).misses = 0 ↔
    ∀ t < N, ∀ sv ∈ (run p tc t).services, sv.missed = false
  | 0 => by simp [run, init]
  | N + 1 => by
    rw [run, tick_misses, Nat.add_eq_zero_iff, misses_eq_zero_iff_tick N, List.countP_eq_zero]
    simp only [Bool.not_eq_true]
    constructor
    · rintro ⟨h1, h2⟩ t ht
      rcases Nat.lt_succ_iff_lt_or_eq.mp ht with h3 | rfl
      · exact h1 t h3
      · exact h2
    · intro hall
      exact ⟨fun t ht => hall t (by omega), hall N (Nat.lt_succ_self N)⟩

include h in
theorem missed_zero : ∀ sv ∈ (run p tc 0).services, sv.missed = false := by
  intro sv hsv
  simp only [run, init, List.mem_map, List.mem_range] at hsv
  obtain ⟨s, hs, rfl⟩ := hsv
  have hT := h.period s hs
  simp only [Service.missed, decide_eq_false_iff_not, not_and]
  omega

include h in
/-- **No miss is counted in `N` ticks exactly if every job due before `N` is met.** -/
theorem misses_eq_zero_iff (N : ℕ) : (run p tc N).misses = 0 ↔
    ∀ (i : Fin tc.numServices) (k : ℕ), (k + 1) * tc.periods i < N →
      (tasksOf h).Met (sched p tc) i k := by
  rw [misses_eq_zero_iff_tick]
  have htick : ∀ t, (∀ sv ∈ (run p tc (t + 1)).services, sv.missed = false) ↔
      ∀ (i : Fin tc.numServices) (k : ℕ), (k + 1) * tc.periods i = t + 1 →
        (tasksOf h).Met (sched p tc) i k := by
    intro t
    rw [run_succ_services (checked_services h t)]
    simp only [List.mem_ofFn, forall_exists_index, forall_apply_eq_imp_iff]
    refine forall_congr' fun i => ?_
    rw [← Bool.not_eq_true, missed_ticked h i t]
    simp only [not_exists, not_and, not_not]
  constructor
  · intro hall i k hk
    obtain ⟨t, ht⟩ : ∃ t, (k + 1) * tc.periods i = t + 1 := by
      have := h.period i i.isLt
      exact Nat.exists_eq_add_of_le' (Nat.mul_pos (Nat.succ_pos k) this)
    exact (htick t).mp (hall (t + 1) (by omega)) i k ht
  · intro hmet t ht
    cases t with
    | zero => exact missed_zero h
    | succ t => exact (htick t).mpr fun i k hk => hmet i k (by omega)

/-! ### Services with runtime left -/

include h in
theorem running_iff (i : Fin tc.numServices) :
    (serviceAt tc σ t i).running = true ↔ (tasksOf h).Pending σ i t := by
  rw [Service.running, decide_eq_true_eq]
  exact Int.ofNat_lt

include h in
theorem getElem?_checked {s : ℕ} {sv : Service} (hs : (checked p tc t)[s]? = some sv) :
    ∃ i : Fin tc.numServices, (i : ℕ) = s ∧ sv = serviceAt tc (sched p tc) t i := by
  rw [checked_services h t] at hs
  obtain ⟨hlt, rfl⟩ := List.getElem?_eq_some_iff.mp hs
  exact ⟨⟨s, by simpa using hlt⟩, rfl, by simp⟩

include h in
theorem getElem?_checked_fin (i : Fin tc.numServices) :
    (checked p tc t)[(i : ℕ)]? = some (serviceAt tc (sched p tc) t i) := by
  rw [checked_services h t, List.getElem?_ofFn, dif_pos i.isLt]

include h in
theorem mem_checked (i : Fin tc.numServices) :
    serviceAt tc (sched p tc) t i ∈ checked p tc t :=
  List.mem_of_getElem? (getElem?_checked_fin h i)

include h in
/-- **Only services with runtime left run.** -/
theorem sane : (tasksOf h).Sane (sched p tc) := by
  intro t i hi
  obtain ⟨sv, hsv, hr⟩ := choose_some (sched_eq_some.mp hi)
  obtain ⟨i', hi', rfl⟩ := getElem?_checked h hsv
  obtain rfl : i' = i := Fin.ext hi'
  exact (running_iff h i').mp hr

include h in
theorem sched_eq_none (hσ : sched p tc t = none) : choose p (checked p tc t) = none := by
  rcases hc : choose p (checked p tc t) with _ | s
  · rfl
  · have hs := choose_lt hc
    rw [checked_services h t, List.length_ofFn] at hs
    rw [(sched_eq_some (i := ⟨s, hs⟩)).mpr hc] at hσ
    cases hσ

end Ecen5623.Schedule.Trace
