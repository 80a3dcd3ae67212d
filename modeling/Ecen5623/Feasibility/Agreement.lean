import Ecen5623.Feasibility.Tests

/-! # The two schedulability tests agree

Both tests decide whether the demand of every service fits (`Tasks.Fits`): the scheduling-point test
by trying the multiples of the periods (`itFits_iff`), the completion-time test by the least fixed
point of the response time (`completionTime_le_iff`). Hence they agree
(`completionTime_iff_schedulingPoint`), and a set that they accept is accepted with longer periods
and shorter run times (`schedulingPoint_sustainable`). -/

namespace Ecen5623.Feasibility.Agreement

open Ecen5623.Library Ecen5623.Library.PeriodicTasks Ecen5623.Feasibility.Tests

variable {n : ℕ} {period wcet : ℕ → ℕ}

/-! ### Sums over the services down to one -/

theorem foldl_add_eq (f : ℕ → ℕ) (b : ℕ) :
    ∀ n, (List.range n).foldl (fun a j => a + f j) b = b + ∑ j ∈ Finset.range n, f j
  | 0 => by simp
  | n + 1 => by
    rw [List.range_succ, List.foldl_append, foldl_add_eq f b n, Finset.sum_range_succ]
    simp [Nat.add_assoc]

theorem sum_lt_eq {M : Type*} [AddCommMonoid M] (i : Fin n) (f : ℕ → M) :
    ∑ j ∈ Finset.univ.filter (· < i), f j = ∑ j ∈ Finset.range i, f j := by
  refine Finset.sum_bij (fun j _ => (j : ℕ)) ?_ ?_ ?_ fun _ _ => rfl
  · intro j hj; simpa using hj
  · intro j _ j' _ h; exact Fin.ext h
  · intro j hj
    rw [Finset.mem_range] at hj
    exact ⟨⟨j, hj.trans i.isLt⟩, Finset.mem_filter.mpr ⟨Finset.mem_univ _, hj⟩, rfl⟩

theorem sum_le_eq (i : Fin n) (f : ℕ → ℕ) :
    ∑ j ∈ Finset.univ.filter (· ≤ i), f j = ∑ j ∈ Finset.range (i + 1), f j := by
  rw [Tasks.sum_filter_le i fun j : Fin n => f j, sum_lt_eq, Finset.sum_range_succ, Nat.add_comm]

theorem any_point (period : ℕ → ℕ) (q : ℕ → Bool) (s2 : ℕ) :
    ((List.range (s2 + 1)).any fun s => (List.range (period s2 / period s)).any fun k =>
        q ((k + 1) * period s)) = true ↔
      ∃ s ≤ s2, ∃ l, 1 ≤ l ∧ l ≤ period s2 / period s ∧ q (l * period s) = true := by
  simp only [List.any_eq_true, List.mem_range]
  constructor
  · rintro ⟨s, hs, k, hk, hq⟩
    exact ⟨s, Nat.le_of_lt_succ hs, k + 1, Nat.le_add_left 1 k, hk, hq⟩
  · rintro ⟨s, hs, l, h1, h2, hq⟩
    obtain ⟨k, rfl⟩ := Nat.exists_eq_add_of_le' h1
    exact ⟨s, Nat.lt_succ_of_le hs, k, h2, hq⟩

theorem itFits_iff_point (s2 : ℕ) : itFits period wcet s2 = true ↔
    ∃ s ≤ s2, ∃ l, 1 ≤ l ∧ l ≤ period s2 / period s ∧
      tempAt period wcet s2 (l * period s) ≤ l * period s := by
  refine (any_point period (fun t => tempAt period wcet s2 t ≤ t) s2).trans ?_
  simp only [decide_eq_true_eq]

section Tests
variable (h : Positive n period wcet) (i : Fin n)

theorem anStart_eq : anStart wcet i = ∑ j ∈ Finset.univ.filter (· ≤ i), (tasksOf h).C j := by
  rw [anStart, foldl_add_eq, Nat.zero_add]
  exact (sum_le_eq i wcet).symm

theorem anNext_eq : anNext period wcet i = (tasksOf h).response i := by
  funext an
  rw [anNext, foldl_add_eq, Tasks.response]
  exact congrArg _ (sum_lt_eq i fun j => an ⌈/⌉ period j * wcet j).symm

theorem tempAt_eq (t : ℕ) : tempAt period wcet i t = (tasksOf h).demand i t := by
  rw [tempAt, foldl_add_eq, Nat.zero_add, Tasks.demand]
  refine Eq.trans ?_ (sum_le_eq i fun j => t ⌈/⌉ period j * wcet j).symm
  exact Finset.sum_congr rfl fun j _ => Nat.mul_comm _ _

/-- **What the inner loops of the scheduling-point test decide.** -/
theorem itFits_iff : itFits period wcet i = true ↔ (tasksOf h).Fits i := by
  rw [Tasks.fits_iff_point, itFits_iff_point]
  constructor
  · rintro ⟨s, hs, l, h1, h2, hle⟩
    refine ⟨⟨s, hs.trans_lt i.isLt⟩, hs, l, h1, h2, ?_⟩
    rwa [tempAt_eq h] at hle
  · rintro ⟨j, hj, l, h1, h2, hle⟩
    refine ⟨j, hj, l, h1, h2, ?_⟩
    rw [tempAt_eq h]
    exact hle

/-- **What the loop of the completion-time test decides.** -/
theorem completionTime_le_iff {fuel an : ℕ} (ha : completionTime fuel period wcet i = some an) :
    an ≤ period i ↔ (tasksOf h).Fits i := by
  rw [completionTime, anNext_eq h, anStart_eq h] at ha
  obtain ⟨hfix, hleast⟩ := iterFix_spec (Tasks.response_mono i) ha
  exact Tasks.le_period_iff_fits hfix hleast

end Tests

/-! ### The loops over the services -/

theorem foldl_rc (p : ℕ → Bool) (rc : Bool) :
    ∀ n, (List.range n).foldl (fun rc s => if p s then rc else false) rc = true ↔
      rc = true ∧ ∀ s < n, p s = true
  | 0 => by simp
  | n + 1 => by
    rw [List.range_succ, List.foldl_append, List.foldl_cons, List.foldl_nil]
    have ih := foldl_rc p rc n
    constructor
    · intro hrc
      split_ifs at hrc with hp
      obtain ⟨h1, h2⟩ := ih.mp hrc
      refine ⟨h1, fun s hs => ?_⟩
      rcases Nat.lt_succ_iff_lt_or_eq.mp hs with h3 | rfl
      · exact h2 s h3
      · exact hp
    · rintro ⟨h1, h2⟩
      rw [if_pos (h2 n (Nat.lt_succ_self n)), ih]
      exact ⟨h1, fun s hs => h2 s (hs.trans (Nat.lt_succ_self n))⟩

/-- **The scheduling-point test**: every service fits. -/
theorem schedulingPoint_iff (h : Positive n period wcet) (deadline : ℕ → ℕ) :
    schedulingPointFeasibility n period wcet deadline = true ↔ ∀ i, (tasksOf h).Fits i := by
  rw [schedulingPointFeasibility, foldl_rc]
  simp only [true_and]
  exact ⟨fun hs i => (itFits_iff h i).mp (hs i i.isLt),
    fun hf s hs => (itFits_iff h ⟨s, hs⟩).mpr (hf ⟨s, hs⟩)⟩

theorem foldlM_setFeasible {f : ℕ → Option ℕ} {deadline : ℕ → ℕ} :
    ∀ {n : ℕ} {b : Bool}, (List.range n).foldlM (fun setFeasible i => do
        let an ← f i
        return if an > deadline i then false else setFeasible) true = some b →
      (∀ i < n, ∃ an, f i = some an) ∧
        (b = true ↔ ∀ i < n, ∀ an, f i = some an → an ≤ deadline i)
  | 0, b, h => by
    simp only [List.range_zero, List.foldlM_nil, Option.pure_def, Option.some.injEq] at h
    simp [← h]
  | n + 1, b, h => by
    rw [List.range_succ, List.foldlM_append, Option.bind_eq_bind, Option.bind_eq_some_iff] at h
    obtain ⟨b', hb', h⟩ := h
    simp only [List.foldlM_cons, List.foldlM_nil, Option.bind_eq_bind, Option.pure_def,
      Option.bind_eq_some_iff, Option.some.injEq] at h
    obtain ⟨b'', ⟨an, han, rfl⟩, rfl⟩ := h
    obtain ⟨ih1, ih2⟩ := foldlM_setFeasible hb'
    constructor
    · intro i hi
      rcases Nat.lt_succ_iff_lt_or_eq.mp hi with h1 | rfl
      · exact ih1 i h1
      · exact ⟨an, han⟩
    · constructor
      · intro hb i hi x hx
        split_ifs at hb with hgt
        rcases Nat.lt_succ_iff_lt_or_eq.mp hi with h1 | rfl
        · exact ih2.mp hb i h1 x hx
        · rw [han] at hx
          cases hx
          exact not_lt.mp hgt
      · intro hall
        rw [if_neg (not_lt.mpr (hall n (Nat.lt_succ_self n) an han)), ih2]
        exact fun i hi => hall i (hi.trans (Nat.lt_succ_self n))

/-- **The two tests agree.** Whenever the completion-time test returns, its answer is the one of the
scheduling-point test. -/
theorem completionTime_iff_schedulingPoint (h : Positive n period wcet) {fuel : ℕ} {b : Bool}
    (hret : Updated.completionTimeFeasibility fuel n period wcet = some b) :
    b = true ↔ Updated.schedulingPointFeasibility n period wcet = true := by
  rw [Updated.schedulingPointFeasibility, schedulingPoint_iff h]
  obtain ⟨hend, hb⟩ := foldlM_setFeasible hret
  rw [hb]
  constructor
  · intro hle i
    obtain ⟨an, han⟩ := hend i i.isLt
    exact (completionTime_le_iff h i han).mp (hle i i.isLt an han)
  · intro hf i hi an han
    exact (completionTime_le_iff h ⟨i, hi⟩ han).mpr (hf ⟨i, hi⟩)

/-- Test case 1, which both tests reject. -/
theorem completionTime_iff_schedulingPoint_test1 :
    false = true ↔
      Updated.schedulingPointFeasibility 3 testCase1.periods testCase1.wcets = true :=
  completionTime_iff_schedulingPoint ⟨by decide, by decide⟩ (by decide :
    Updated.completionTimeFeasibility 8 3 testCase1.periods testCase1.wcets = some false)

/-! ### Longer periods and shorter run times -/

/-- **The scheduling-point test is sustainable**, in both files: a set that it accepts is accepted
with longer periods and shorter run times, although the points tried are others. -/
theorem schedulingPoint_sustainable {period' wcet' : ℕ → ℕ} (h : Positive n period wcet)
    (h' : Positive n period' wcet') (hT : ∀ s < n, period s ≤ period' s)
    (hC : ∀ s < n, wcet' s ≤ wcet s) (deadline deadline' : ℕ → ℕ) :
    (schedulingPointFeasibility n period wcet deadline = true →
        schedulingPointFeasibility n period' wcet' deadline' = true) ∧
      (Updated.schedulingPointFeasibility n period wcet = true →
        Updated.schedulingPointFeasibility n period' wcet' = true) := by
  have hfits : (∀ i, (tasksOf h).Fits i) → ∀ i, (tasksOf h').Fits i := fun hf i =>
    Tasks.Fits.sustainable (P := tasksOf h) (fun j => hT j j.isLt) (fun j => hC j j.isLt) (hf i)
  unfold Updated.schedulingPointFeasibility
  simp only [schedulingPoint_iff h, schedulingPoint_iff h']
  exact ⟨hfits, hfits⟩

/-- Test case 7 and a set with a longer second period and a shorter last run time. -/
theorem schedulingPoint_sustainable_test7 :
    (schedulingPointFeasibility 3 testCase7.periods testCase7.wcets testCase7.periods = true →
        schedulingPointFeasibility 3 (testCase [3, 7, 15] [1, 2, 3]).periods
          (testCase [3, 7, 15] [1, 2, 3]).wcets (testCase [3, 7, 15] [1, 2, 3]).periods = true) ∧
      (Updated.schedulingPointFeasibility 3 testCase7.periods testCase7.wcets = true →
        Updated.schedulingPointFeasibility 3 (testCase [3, 7, 15] [1, 2, 3]).periods
          (testCase [3, 7, 15] [1, 2, 3]).wcets = true) :=
  schedulingPoint_sustainable ⟨by decide, by decide⟩ ⟨by decide, by decide⟩ (by decide)
    (by decide) _ _

end Ecen5623.Feasibility.Agreement
