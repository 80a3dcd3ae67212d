import Ecen5623.Library.Demand

/-! # Fixed priorities: the critical instant

Tasks are ordered by priority, the smallest first, and the processor always runs the pending task of
the highest priority.

* `saturated_of_not_met`: no job is worse off than the first one, released together with all higher
  priorities.
* `met_of_fits`: if the demand of `i` fits then no job of `i` misses its deadline.
* `fits_of_met`: conversely, if the first job of `i` is met then the demand is served at its
  completion time. -/

namespace Ecen5623.Library.PeriodicTasks.Tasks

open Ecen5623.Library.SlotSchedule

variable {ι : Type*} [LinearOrder ι] (P : Tasks ι)

/-- The pending task of the highest priority runs; the processor idles if nothing is pending. -/
structure FixedPriority (σ : Schedule ι) : Prop where
  run : ∀ t i, σ t = some i → P.Pending σ i t ∧ ∀ j < i, ¬ P.Pending σ j t
  idle : ∀ t, σ t = none → ∀ j, ¬ P.Pending σ j t

/-- `g` slots of `i` and the demand of the higher priorities fill every initial part of its
period. -/
def Saturated [Fintype ι] (i : ι) (g : ℕ) : Prop :=
  ∀ x, 1 ≤ x → x ≤ P.T i → x ≤ g + ∑ j ∈ Finset.univ.filter (· < i), x ⌈/⌉ P.T j * P.C j

variable {P} {σ : Schedule ι} {i : ι}

namespace FixedPriority

variable (h : P.FixedPriority σ)
include h

theorem sane : P.Sane σ := fun t i ht => (h.run t i ht).1

theorem exists_le_of_pending {t : ℕ} (hp : P.Pending σ i t) : ∃ j ≤ i, σ t = some j := by
  rcases hσ : σ t with _ | j
  · exact absurd hp (h.idle t hσ i)
  · refine ⟨j, not_lt.mp fun hij => (h.run t j hσ).2 i hij hp, rfl⟩

/-- **The start of the busy period before `a`**: nothing of a higher priority than `i` is left over
at `b`, and from `b` to `a` only higher priorities run. -/
theorem exists_busy_start (i : ι) :
    ∀ a, ∃ b ≤ a, (∀ j < i, P.T j ∣ b ∨ ¬ P.Pending σ j b) ∧
      ∀ t, b ≤ t → t < a → ∃ j < i, σ t = some j
  | 0 => ⟨0, le_rfl, fun j _ => Or.inl (dvd_zero _), fun t _ ht => absurd ht (Nat.not_lt_zero t)⟩
  | a + 1 => by
    by_cases hq : ∀ j < i, P.T j ∣ a + 1 ∨ ¬ P.Pending σ j (a + 1)
    · exact ⟨a + 1, le_rfl, hq, fun t h1 h2 => absurd h1 (by omega)⟩
    · -- a job left over at `a + 1` was pending at `a`, so slot `a` went to a higher priority
      push Not at hq
      obtain ⟨j, hji, hdvd, hpend⟩ := hq
      obtain ⟨b, hb, hquiet, hbusy⟩ := exists_busy_start i a
      have hrel : P.release j (a + 1) ≤ a := by
        rcases Nat.lt_or_ge a (P.release j (a + 1)) with hlt | hge
        · have heq : P.release j (a + 1) = a + 1 := le_antisymm release_le hlt
          exact absurd (Dvd.intro_left _ heq) hdvd
        · exact hge
      obtain ⟨j', hj', hrun⟩ := h.exists_le_of_pending (hpend.of_le hrel (Nat.le_succ a))
      refine ⟨b, by omega, hquiet, fun t h1 h2 => ?_⟩
      rcases Nat.lt_succ_iff_lt_or_eq.mp h2 with h3 | rfl
      · exact hbusy t h1 h3
      · exact ⟨j', lt_of_le_of_lt hj' hji, hrun⟩

variable [Fintype ι]

/-- **The critical instant.** What `i` runs in the window of a job it misses, together with the
demand of the higher priorities from a common release, fills every initial part of its period. -/
theorem saturated_of_not_met {k : ℕ} (hmet : ¬ P.Met σ i k) :
    P.Saturated i (ran σ i (k * P.T i) ((k + 1) * P.T i)) := by
  rw [not_met_iff h.sane] at hmet
  intro x hx hxT
  set a := k * P.T i with ha
  have hend : (k + 1) * P.T i = a + P.T i := Nat.succ_mul _ _
  obtain ⟨b, hb, hquiet, hbusy⟩ := h.exists_busy_start i a
  -- the first `x` slots of the busy period go to priorities down to `i`
  have hslots : ∑ j ∈ Finset.univ.filter (· ≤ i), ran σ j b (b + x) = x := by
    refine (sum_ran_eq _ fun t h1 h2 => ?_).trans (by omega)
    rcases Nat.lt_or_ge t a with hta | hta
    · obtain ⟨j, hj, hrun⟩ := hbusy t h1 hta
      exact ⟨j, by simp [hj.le], hrun⟩
    · obtain ⟨j, hj, hrun⟩ := h.exists_le_of_pending (pending_of_lt hmet hta (by omega))
      exact ⟨j, by simp [hj], hrun⟩
  have hlow : ran σ i b (b + x) ≤ ran σ i a ((k + 1) * P.T i) := by
    have hzero : ran σ i b a = 0 := ran_eq_zero fun t h1 h2 hi => by
      obtain ⟨j, hj, hrun⟩ := hbusy t h1 h2
      rw [hi] at hrun
      exact absurd (Option.some.inj hrun) hj.ne'
    have h1 : ran σ i b (b + x) ≤ ran σ i b (a + P.T i) := ran_mono_right (by omega)
    rw [← ran_add σ i hb (Nat.le_add_right a _), hzero, Nat.zero_add, ← hend] at h1
    exact h1
  have hhigh : ∑ j ∈ Finset.univ.filter (· < i), ran σ j b (b + x) ≤
      ∑ j ∈ Finset.univ.filter (· < i), x ⌈/⌉ P.T j * P.C j :=
    Finset.sum_le_sum fun j hj => ran_le_of_quiet h.sane (hquiet j (Finset.mem_filter.mp hj).2)
  rw [sum_filter_le] at hslots
  omega

/-- **If the demand of `i` fits once, every job of `i` is met.** -/
theorem met_of_fits (hfit : P.Fits i) (k : ℕ) : P.Met σ i k := by
  obtain ⟨x, hx, hxT, hd⟩ := hfit
  by_contra hmiss
  have hsat := h.saturated_of_not_met hmiss x hx hxT
  rw [not_met_iff h.sane] at hmiss
  rw [demand_eq_response hx hxT, response] at hd
  omega

/-- **The demand of `i` fits if its first job is met**, provided the jobs of higher priorities due
before `T i` are met: it is served at the completion time of the job. -/
theorem fits_of_met (h0 : P.Met σ i 0)
    (hhp : ∀ j < i, ∀ k, (k + 1) * P.T j < P.T i → P.Met σ j k) : P.Fits i := by
  have hC := P.C_pos i
  have hex : ∃ x, P.C i ≤ ran σ i 0 x := ⟨P.T i, by
    unfold Met at h0; rw [Nat.zero_mul, Nat.zero_add, Nat.one_mul] at h0; omega⟩
  obtain ⟨x, hx, hmin⟩ : ∃ x, P.C i ≤ ran σ i 0 x ∧ ∀ y < x, ran σ i 0 y < P.C i :=
    ⟨Nat.find hex, Nat.find_spec hex, fun y hy => not_le.mp (Nat.find_min hex hy)⟩
  have hxT : x ≤ P.T i := by
    by_contra hlt
    unfold Met at h0
    rw [Nat.zero_mul, Nat.zero_add, Nat.one_mul] at h0
    have := hmin (P.T i) (by omega)
    omega
  obtain ⟨y, rfl⟩ : ∃ y, x = y + 1 := by
    cases x with
    | zero => rw [ran_self] at hx; omega
    | succ y => exact ⟨y, rfl⟩
  have hlast : σ y = some i := by
    by_contra hne
    rw [ran_succ σ i (Nat.zero_le y), if_neg hne] at hx
    have := hmin y (Nat.lt_succ_self y)
    omega
  have hslots : ∑ j ∈ Finset.univ.filter (· ≤ i), ran σ j 0 (y + 1) = y + 1 := by
    refine (sum_ran_eq _ fun t _ ht => ?_).trans (by omega)
    have hp : P.Pending σ i t := by
      unfold Pending
      rw [release, Nat.div_eq_of_lt (by omega), Nat.zero_mul]
      exact hmin t ht
    obtain ⟨j, hj, hrun⟩ := h.exists_le_of_pending hp
    exact ⟨j, by simp [hj], hrun⟩
  refine ⟨y + 1, by omega, hxT, ?_⟩
  calc P.demand i (y + 1) ≤ ∑ j ∈ Finset.univ.filter (· ≤ i), ran σ j 0 (y + 1) :=
        Finset.sum_le_sum fun j hj => ?_
    _ ≤ y + 1 := hslots.le
  rw [ceilDiv_succ]
  rcases eq_or_lt_of_le (Finset.mem_filter.mp hj).2 with rfl | hji
  · rw [Nat.div_eq_of_lt (by omega)]; omega
  · -- `i` runs at `y`, so the job of `j` current at `y` is done, and the ones before it are met
    have hdone := (h.run y i hlast).2 j hji
    unfold Pending at hdone
    have hrel : y / P.T j * P.T j ≤ y := Nat.div_mul_le_self _ _
    have hprev := ran_windows_eq (σ := σ) (P := P) j 0 (y / P.T j) fun k' _ hk => hhp j hji k' <| by
      have : (k' + 1) * P.T j ≤ y / P.T j * P.T j := Nat.mul_le_mul_right _ (by omega)
      omega
    rw [Nat.zero_mul, Nat.zero_add] at hprev
    have hadd := ran_add σ j (Nat.zero_le _) hrel
    have hstep : ran σ j 0 y ≤ ran σ j 0 (y + 1) := ran_mono_right (Nat.le_succ y)
    rw [Nat.succ_mul]
    unfold release at hdone
    omega

end FixedPriority

end Ecen5623.Library.PeriodicTasks.Tasks
