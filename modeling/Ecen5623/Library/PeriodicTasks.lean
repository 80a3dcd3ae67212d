import Ecen5623.Library.SlotSchedule
import Mathlib.Algebra.BigOperators.Ring.Finset
import Mathlib.Algebra.Order.Field.Rat
import Mathlib.Algebra.Order.Floor.Div
import Mathlib.Data.Nat.Cast.Field
import Mathlib.Tactic.Ring

/-! # Periodic tasks with implicit deadlines

Task `i` releases a job of `C i` slots at every multiple of its period `T i`; the job has to run
before the next one is released and is dropped then. `k` counts the jobs of a task: job `k` owns
the window `[k T, (k + 1) T)`. At slot `t` the current job of `i` was released at `release i t`, has
its deadline at `deadline i t` and is `Pending` if it has not run `C i` slots yet.

* `Sane`: only pending jobs run, so no job gets more than `C i` slots (`ran_window_le`).
* `ran_le_of_quiet`: from a slot at which nothing is left over, `x` slots hold at most
  `C i ⌈x / T i⌉` slots of `i`.
* `ran_within_le`: what runs in jobs with release and deadline in `[a, b]`.
* `utilisation_le_one_of_met`: jobs all met up to a common multiple of the periods use at most the
  whole processor. -/

namespace Ecen5623.Library.PeriodicTasks

open Ecen5623.Library.SlotSchedule

/-- Periods and run times. -/
structure Tasks (ι : Type*) where
  T : ι → ℕ
  C : ι → ℕ
  T_pos : ∀ i, 0 < T i
  C_pos : ∀ i, 0 < C i

namespace Tasks

variable {ι : Type*} (P : Tasks ι) (i : ι)

/-- The release of the job that is current at slot `t`. -/
def release (t : ℕ) : ℕ := t / P.T i * P.T i

/-- Its deadline. -/
def deadline (t : ℕ) : ℕ := P.release i t + P.T i

variable {P i} {t u k n : ℕ}

theorem release_le : P.release i t ≤ t := Nat.div_mul_le_self _ _

theorem lt_deadline : t < P.deadline i t := by
  have h := Nat.lt_div_mul_add (a := t) (P.T_pos i)
  exact h

theorem div_eq_of_window (h1 : k * P.T i ≤ t) (h2 : t < (k + 1) * P.T i) : t / P.T i = k :=
  Nat.div_eq_of_lt_le h1 h2

theorem release_of_window (h1 : k * P.T i ≤ t) (h2 : t < (k + 1) * P.T i) :
    P.release i t = k * P.T i := by
  rw [release, div_eq_of_window h1 h2]

theorem deadline_of_window (h1 : k * P.T i ≤ t) (h2 : t < (k + 1) * P.T i) :
    P.deadline i t = (k + 1) * P.T i := by
  rw [deadline, release_of_window h1 h2, Nat.succ_mul]

theorem release_congr (h1 : P.release i t ≤ u) (h2 : u < P.deadline i t) :
    P.release i u = P.release i t :=
  release_of_window h1 (by rw [Nat.succ_mul]; exact h2)

theorem deadline_congr (h1 : P.release i t ≤ u) (h2 : u < P.deadline i t) :
    P.deadline i u = P.deadline i t := by
  rw [deadline, release_congr h1 h2, deadline]

theorem mem_window : t / P.T i * P.T i ≤ t ∧ t < (t / P.T i + 1) * P.T i :=
  ⟨release_le, by rw [Nat.succ_mul]; exact lt_deadline⟩

/-! ### Pending jobs -/

variable [DecidableEq ι] {σ : Schedule ι}

variable (P) in
/-- The current job of `i` at `t` has slots left to run. -/
def Pending (σ : Schedule ι) (i : ι) (t : ℕ) : Prop := ran σ i (P.release i t) t < P.C i

instance (σ : Schedule ι) (i : ι) (t : ℕ) : Decidable (P.Pending σ i t) :=
  inferInstanceAs (Decidable (_ < _))

variable (P) in
/-- Only pending jobs run. -/
def Sane (σ : Schedule ι) : Prop := ∀ t i, σ t = some i → P.Pending σ i t

variable (P) in
/-- Job `k` of `i` meets its deadline. -/
def Met (σ : Schedule ι) (i : ι) (k : ℕ) : Prop :=
  ran σ i (k * P.T i) ((k + 1) * P.T i) = P.C i

variable (P) in
/-- Every job meets its deadline. -/
def Feasible (σ : Schedule ι) : Prop := ∀ i k, P.Met σ i k

theorem Pending.of_le (h : P.Pending σ i u) (h1 : P.release i u ≤ t) (h2 : t ≤ u) :
    P.Pending σ i t := by
  unfold Pending at h ⊢
  rw [release_congr h1 (lt_of_le_of_lt h2 lt_deadline)]
  exact lt_of_le_of_lt (ran_mono_right h2) h

theorem pending_of_lt (h : ran σ i (k * P.T i) ((k + 1) * P.T i) < P.C i) (h1 : k * P.T i ≤ t)
    (h2 : t < (k + 1) * P.T i) : P.Pending σ i t := by
  unfold Pending
  rw [release_of_window h1 h2]
  exact lt_of_le_of_lt (ran_mono_right h2.le) h

section Sane
variable (hs : P.Sane σ)
include hs

/-- **No job runs more than its run time.** -/
theorem ran_window_le (i : ι) (k : ℕ) :
    ∀ u, u ≤ (k + 1) * P.T i → ran σ i (k * P.T i) u ≤ P.C i
  | 0, _ => by rw [ran_of_le (Nat.zero_le _)]; exact Nat.zero_le _
  | u + 1, hu => by
    rcases Nat.lt_or_ge u (k * P.T i) with h | h
    · rw [ran_of_le h]; exact Nat.zero_le _
    · rw [ran_succ σ i h]
      split_ifs with hi
      · have hp := hs u i hi
        unfold Pending at hp
        rw [release_of_window h hu] at hp
        omega
      · exact ran_window_le i k u (by omega)

theorem ran_windows_le (i : ι) (k : ℕ) :
    ∀ n, ran σ i (k * P.T i) ((k + n) * P.T i) ≤ n * P.C i
  | 0 => by simp
  | n + 1 => by
    have h1 := ran_windows_le i k n
    have h2 := ran_window_le hs i (k + n) _ le_rfl
    rw [← ran_add σ i (Nat.mul_le_mul_right _ (Nat.le_add_right k n))
      (Nat.mul_le_mul_right (P.T i) (by omega : k + n ≤ k + (n + 1)))]
    rw [show k + (n + 1) = k + n + 1 by ring, Nat.succ_mul n]
    omega

theorem not_met_iff : ¬ P.Met σ i k ↔ ran σ i (k * P.T i) ((k + 1) * P.T i) < P.C i := by
  have h := ran_window_le hs i k _ le_rfl
  unfold Met
  omega

theorem ran_le_of_release (i : ι) (k x : ℕ) :
    ran σ i (k * P.T i) (k * P.T i + x) ≤ x ⌈/⌉ P.T i * P.C i := by
  refine le_trans (ran_mono_right ?_) (ran_windows_le hs i k (x ⌈/⌉ P.T i))
  rw [Nat.add_mul]
  have h := le_smul_ceilDiv (P.T_pos i) (b := x)
  rw [smul_eq_mul, Nat.mul_comm] at h
  omega

/-- Nothing is left over at `b`: `b` is a release, or the current job is done. **From `b` on, `x`
slots hold at most `C ⌈x / T⌉`.** -/
theorem ran_le_of_quiet {b x : ℕ} (hq : P.T i ∣ b ∨ ¬ P.Pending σ i b) :
    ran σ i b (b + x) ≤ x ⌈/⌉ P.T i * P.C i := by
  by_cases hd : P.T i ∣ b
  · obtain ⟨k, rfl⟩ := hd
    rw [Nat.mul_comm]
    exact ran_le_of_release hs i k x
  · -- the current job is done, so `i` does not run before its next release `e`
    have hdone := hq.resolve_left hd
    have hlt : b < P.deadline i b := lt_deadline
    have hle : P.release i b ≤ b := release_le
    have hzero : ran σ i b (P.deadline i b) = 0 := by
      have h1 := ran_window_le hs i (b / P.T i) (P.deadline i b)
        (by rw [Nat.succ_mul]; exact le_rfl)
      have h2 := ran_add σ i hle hlt.le
      unfold Pending at hdone
      unfold release at *
      omega
    have h3 := ran_le_of_release hs i (b / P.T i + 1) x
    rw [show (b / P.T i + 1) * P.T i = P.deadline i b by rw [Nat.succ_mul]; rfl] at h3
    have h4 : ran σ i b (b + x) ≤ ran σ i b (P.deadline i b + x) := ran_mono_right (by omega)
    rw [← ran_add σ i hlt.le (Nat.le_add_right _ x), hzero, Nat.zero_add] at h4
    exact h4.trans h3

end Sane

theorem ran_windows_eq (i : ι) (k : ℕ) :
    ∀ n, (∀ k', k ≤ k' → k' < k + n → P.Met σ i k') →
      ran σ i (k * P.T i) ((k + n) * P.T i) = n * P.C i
  | 0, _ => by simp
  | n + 1, h => by
    have h1 := ran_windows_eq i k n fun k' ha hb => h k' ha (by omega)
    have h2 := h (k + n) (by omega) (by omega)
    unfold Met at h2
    rw [← ran_add σ i (Nat.mul_le_mul_right _ (Nat.le_add_right k n))
      (Nat.mul_le_mul_right (P.T i) (by omega : k + n ≤ k + (n + 1))), h1,
      show k + (n + 1) = k + n + 1 by ring, h2, Nat.succ_mul]

/-! ### Utilisation -/

section Utilisation
variable [Fintype ι]

omit [DecidableEq ι] in
variable (P) in
/-- The share of the processor the tasks ask for. -/
def utilisation : ℚ := ∑ i, (P.C i : ℚ) / P.T i

/-- **Jobs met up to a common multiple of the periods leave the processor enough.** -/
theorem utilisation_le_one_of_met {L : ℕ} (hL : 0 < L) (hdvd : ∀ i, P.T i ∣ L)
    (hm : ∀ i k, (k + 1) * P.T i ≤ L → P.Met σ i k) : P.utilisation ≤ 1 := by
  have hran : ∀ i, ran σ i 0 L = L / P.T i * P.C i := by
    intro i
    have h := ran_windows_eq (σ := σ) (P := P) i 0 (L / P.T i) fun k' _ hk => hm i k' <| by
      calc (k' + 1) * P.T i ≤ L / P.T i * P.T i := Nat.mul_le_mul_right _ (by omega)
        _ ≤ L := Nat.div_mul_le_self _ _
    rwa [Nat.zero_mul, Nat.zero_add, Nat.div_mul_cancel (hdvd i)] at h
  have hsum : (∑ i, (L / P.T i * P.C i : ℕ)) ≤ L := by
    have h := sum_ran_le σ Finset.univ 0 L
    rw [Finset.sum_congr rfl fun i _ => hran i] at h
    omega
  have hcast : (L : ℚ) * P.utilisation = ((∑ i, (L / P.T i * P.C i : ℕ) : ℕ) : ℚ) := by
    rw [utilisation, Finset.mul_sum, Nat.cast_sum]
    refine Finset.sum_congr rfl fun i _ => ?_
    have hT : (P.T i : ℚ) ≠ 0 := Nat.cast_ne_zero.mpr (P.T_pos i).ne'
    rw [Nat.cast_mul, Nat.cast_div (hdvd i) hT]
    ring
  have hLq : (0 : ℚ) < L := by exact_mod_cast hL
  have hle : (L : ℚ) * P.utilisation ≤ L * 1 := by
    rw [hcast, mul_one]; exact_mod_cast hsum
  exact le_of_mul_le_mul_left hle hLq

end Utilisation

end Tasks

end Ecen5623.Library.PeriodicTasks
