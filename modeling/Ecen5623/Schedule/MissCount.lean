import Ecen5623.Library.Layout
import Ecen5623.Schedule.Horizon

/-! # The misses counted

A deadline is checked at the start of the tick it falls on, so the check of the last deadlines would
be that of the tick after the last one. `missedJobs` are the jobs due in `N` ticks that the events
show unfinished: `misses` counts them one tick later (`card_missedJobs`), and after `N` ticks it has
left out those due at `N` exactly. Whether there are any can be told from the periods and runtimes:
a job is missed if its last unit of work finds no free slot when the units are laid out in the order
of their priorities (`misses_eq_card_iff`). -/

namespace Ecen5623.Schedule.MissCount

open Ecen5623.Library.SlotSchedule Ecen5623.Library.PeriodicTasks
open Ecen5623.Feasibility.Tests Ecen5623.Schedule.Engine Ecen5623.Schedule.Trace
open Ecen5623.Schedule.Horizon (keys followsKeys)

/-- The jobs `(s, k)` with a deadline `(k + 1) T ≤ N` that ran less than their runtime. -/
def missedJobs (tc : STestCase) (events : ℕ → Option ℕ) (N : ℕ) : Finset (ℕ × ℕ) :=
  (Finset.range tc.numServices ×ˢ Finset.range N).filter fun job =>
    (job.2 + 1) * tc.periods job.1 ≤ N ∧
      ran events job.1 (job.2 * tc.periods job.1) ((job.2 + 1) * tc.periods job.1) <
        tc.wcets job.1

variable {p : Protocol} {tc : STestCase} (h : Positive tc.numServices tc.periods tc.wcets)

include h in
theorem mem_missedJobs {events : ℕ → Option ℕ} {N s k : ℕ} : (s, k) ∈ missedJobs tc events N ↔
    s < tc.numServices ∧ (k + 1) * tc.periods s ≤ N ∧
      ran events s (k * tc.periods s) ((k + 1) * tc.periods s) < tc.wcets s := by
  simp only [missedJobs, Finset.mem_filter, Finset.mem_product, Finset.mem_range]
  refine ⟨fun hm => ⟨hm.1.1, hm.2⟩, fun hm => ⟨⟨hm.1, ?_⟩, hm.2⟩⟩
  have hle := Nat.le_mul_of_pos_right (k + 1) (h.period s hm.1)
  have := hm.2.1
  omega

/-! ### The events recorded -/

theorem ran_events {N a b : ℕ} (i : Fin tc.numServices) (hb : b ≤ N) :
    ran (run p tc N).events (i : ℕ) a b = ran (sched p tc) i a b := by
  unfold ran
  congr 1
  refine Finset.filter_congr fun t ht => ?_
  rw [Finset.mem_Ico] at ht
  rw [run_events_of_lt (by omega), sched_eq_some]

include h in
theorem mem_missedJobs_run {N : ℕ} {job : ℕ × ℕ} :
    job ∈ missedJobs tc (run p tc N).events N ↔ ∃ (i : Fin tc.numServices) (k : ℕ),
      job = (↑i, k) ∧ (k + 1) * tc.periods i ≤ N ∧ ¬ (tasksOf h).Met (sched p tc) i k := by
  obtain ⟨s, k⟩ := job
  rw [mem_missedJobs h]
  constructor
  · rintro ⟨hs, hk, hran⟩
    refine ⟨⟨s, hs⟩, k, rfl, hk, (Tasks.not_met_iff (sane h)).mpr ?_⟩
    rwa [ran_events ⟨s, hs⟩ hk] at hran
  · rintro ⟨i, k, hjob, hk, hmet⟩
    cases hjob
    refine ⟨i.isLt, hk, ?_⟩
    rw [ran_events i hk]
    exact (Tasks.not_met_iff (sane h)).mp hmet

/-! ### Counting -/

theorem countP_ofFn {α : Type*} {n : ℕ} (f : Fin n → α) (q : α → Bool) :
    (List.ofFn f).countP q = (Finset.univ.filter fun i => q (f i) = true).card := by
  calc (List.ofFn f).countP q
      = Multiset.countP (fun a => q a = true) (List.ofFn f : Multiset α) := by simp
    _ = Multiset.countP (fun a => q a = true) (Finset.univ.val.map f) := by rw [Fin.univ_val_map]
    _ = (Finset.univ.filter fun i => q (f i) = true).card := Multiset.countP_map ..

include h in
theorem missed_iff (N : ℕ) (i : Fin tc.numServices) :
    (ticked (sched p tc N = some i) (serviceAt tc (sched p tc) N i)).missed = true ↔
      (((N + 1) / tc.periods i - 1 + 1) * tc.periods i = N + 1 ∧
        ¬ (tasksOf h).Met (sched p tc) i ((N + 1) / tc.periods i - 1)) := by
  rw [missed_ticked h i N]
  constructor
  · rintro ⟨k, hk, hmet⟩
    have hdiv : (N + 1) / tc.periods i - 1 = k := by
      rw [← hk, Nat.mul_div_cancel _ (h.period i i.isLt), Nat.add_sub_cancel]
    rw [hdiv]
    exact ⟨hk, hmet⟩
  · rintro ⟨hk, hmet⟩
    exact ⟨_, hk, hmet⟩

include h in
/-- **The deadline check at `N + 1` would count the jobs due there.** -/
theorem card_missedJobs_succ (N : ℕ) :
    (missedJobs tc (run p tc (N + 1)).events (N + 1)).card =
      (missedJobs tc (run p tc N).events N).card +
        (run p tc (N + 1)).services.countP Service.missed := by
  rw [run_succ_services (checked_services h N), countP_ofFn,
    ← Finset.card_filter_add_card_filter_not fun job : ℕ × ℕ => (job.2 + 1) * tc.periods job.1 ≤ N]
  congr 1
  · congr 1
    ext job
    rw [Finset.mem_filter, mem_missedJobs_run h, mem_missedJobs_run h]
    constructor
    · rintro ⟨⟨i, k, rfl, -, hmet⟩, hk⟩
      exact ⟨i, k, rfl, hk, hmet⟩
    · rintro ⟨i, k, rfl, hk, hmet⟩
      exact ⟨⟨i, k, rfl, hk.trans (Nat.le_succ N), hmet⟩, hk⟩
  · -- the jobs due at `N + 1`, one for each service at its deadline
    symm
    refine Finset.card_bij (fun i _ => ((i : ℕ), (N + 1) / tc.periods i - 1)) ?_ ?_ ?_
    · intro i hi
      obtain ⟨hk, hmet⟩ := (missed_iff h N i).mp (Finset.mem_filter.mp hi).2
      refine Finset.mem_filter.mpr ⟨(mem_missedJobs_run h).mpr ⟨i, _, rfl, hk.le, hmet⟩, ?_⟩
      simp only [hk]
      exact Nat.not_succ_le_self N
    · intro i _ j _ hij
      exact Fin.ext (congrArg Prod.fst hij)
    · intro job hjob
      obtain ⟨hmem, hlt⟩ := Finset.mem_filter.mp hjob
      obtain ⟨i, k, rfl, hk, hmet⟩ := (mem_missedJobs_run h).mp hmem
      have hdue : (k + 1) * tc.periods i = N + 1 := by simp only [not_le] at hlt; omega
      have hmissed := (missed_ticked h i N).mpr ⟨k, hdue, hmet⟩
      refine ⟨i, Finset.mem_filter.mpr ⟨Finset.mem_univ i, hmissed⟩, ?_⟩
      rw [← hdue, Nat.mul_div_cancel _ (h.period i i.isLt), Nat.add_sub_cancel]

include h in
/-- **One tick later all jobs due by `N` have been counted.** -/
theorem card_missedJobs : ∀ N, (missedJobs tc (run p tc N).events N).card =
    (run p tc N).misses + (run p tc N).services.countP Service.missed
  | 0 => by
    have h0 : (run p tc 0).services.countP Service.missed = 0 := by
      rw [List.countP_eq_zero]
      exact fun sv hsv => by rw [missed_zero h sv hsv]; exact Bool.false_ne_true
    rw [h0]
    simp [missedJobs, run, init]
  | N + 1 => by
    rw [card_missedJobs_succ h, card_missedJobs N, run, tick_misses]

include h in
theorem countP_missed_eq_zero_iff (N : ℕ) : (run p tc N).services.countP Service.missed = 0 ↔
    ∀ (i : Fin tc.numServices) (k : ℕ), (k + 1) * tc.periods i = N →
      (tasksOf h).Met (sched p tc) i k := by
  rw [List.countP_eq_zero]
  cases N with
  | zero =>
    refine iff_of_true (fun sv hsv => ?_) fun i k hk => ?_
    · rw [missed_zero h sv hsv]
      exact Bool.false_ne_true
    · exact absurd hk (Nat.mul_pos (Nat.succ_pos k) (h.period i i.isLt)).ne'
  | succ N =>
    rw [run_succ_services (checked_services h N)]
    simp only [List.mem_ofFn, forall_exists_index, forall_apply_eq_imp_iff, missed_ticked h,
      not_exists, not_and, not_not]

/-- **When every missed deadline in `N` ticks is counted**: if and only if each job due at `N` finds
a free slot for its last unit of work. -/
theorem misses_eq_card_iff (h : Positive tc.numServices tc.periods tc.wcets)
    (hint : ∀ s < tc.numServices, (tc.periods s : ℤ) ≤ intMax) (p : Protocol) (N : ℕ) :
    (run p tc N).misses = (missedJobs tc (run p tc N).events N).card ↔
      ∀ (i : Fin tc.numServices) (k : ℕ), (k + 1) * tc.periods i = N →
        (tasksOf h).LaidOut (keys p (tasksOf h)) i k (tc.wcets i - 1) N := by
  rw [card_missedJobs h, left_eq_add, countP_missed_eq_zero_iff h]
  refine forall₂_congr fun i k => forall_congr' fun hk => ?_
  rw [(followsKeys h hint p).met_iff_laidOut, ← hk]
  rfl

theorem positive_test1 : Positive testCase1.numServices testCase1.periods testCase1.wcets :=
  ⟨by decide, by decide⟩

/-- Test case 1, for the ticks of the program. -/
theorem misses_eq_card_iff_test1 :
    (run .rm testCase1 20).misses = (missedJobs testCase1 (run .rm testCase1 20).events 20).card ↔
      ∀ (i : Fin testCase1.numServices) (k : ℕ), (k + 1) * testCase1.periods i = 20 →
        (tasksOf positive_test1).LaidOut (keys .rm (tasksOf positive_test1)) i k
          (testCase1.wcets i - 1) 20 :=
  misses_eq_card_iff positive_test1 (by decide) .rm 20

/-- Periods 10 and 20 with run times 5 and 11: the second service misses its first deadline, which
is the end of the 20 ticks, and no miss is counted. -/
theorem misses_not_counted :
    (run .rm (testCase [10, 20] [5, 11]) 20).misses = 0 ∧
      missedJobs (testCase [10, 20] [5, 11])
        (run .rm (testCase [10, 20] [5, 11]) 20).events 20 = {(1, 0)} := by
  decide +kernel

end Ecen5623.Schedule.MissCount
