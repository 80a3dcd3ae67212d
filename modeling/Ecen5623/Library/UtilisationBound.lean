import Ecen5623.Library.FixedPriority
import Mathlib.Analysis.MeanInequalities
import Mathlib.NumberTheory.Real.Irrational

/-! # Utilisation bounds for fixed priorities

Priorities follow the periods: the shorter the period, the higher the priority. `g` slots *saturate*
task `i` if together with the demand of the higher priorities they fill every initial part of its
period (`Tasks.Saturated`).

* `Saturated.two_le_prod`: then `∏ (1 + uⱼ) ≥ 2` over the shares `uⱼ` of the priorities down to `i`,
with `g / T i` for that of `i`. The last multiples of the periods up to `T i` are tried in their
order; each of them multiplies the demand by at most its factor, and all of them together have to
double it (`add_sum_le_mul_prod`). * `fits_of_prod_le`: hence tasks with `∏ (1 + Cⱼ / Tⱼ) ≤ 2` fit.
* `two_le_prod_share`: and in a schedule of tasks that do not all fit, the shares really used have
`∏ (1 + uⱼ) ≥ 2`, although missed jobs are dropped. * `le_sum_of_two_le_prod`: such shares add up to
at least `n (2 ^ (1 / n) - 1)`, which is no rational number from `n = 2` on (`ne_of_two_le`). -/

namespace Ecen5623.Library

/-! ### Doubling a demand -/

/-- **Points in their order.** If every point `t m` is at most `S` and what was added at the points
before it, then all that is added multiplies `S` by at most the factors of the points. -/
theorem add_sum_le_mul_prod {ι : Type*} [DecidableEq ι] {t c : ι → ℕ} (S : ℕ) (s : Finset ι)
    (ht : ∀ j ∈ s, 0 < t j) (h : ∀ m ∈ s, t m ≤ S + ∑ j ∈ s.filter (t · < t m), c j) :
    (S : ℚ) + ∑ j ∈ s, (c j : ℚ) ≤ S * ∏ j ∈ s, (1 + (c j : ℚ) / t j) := by
  -- the induction adds the latest point
  induction s using Finset.induction_on_max_value t with
  | empty => simp
  | insert a s ha hmax ih =>
    have hold : ∀ m ∈ s, t m ≤ S + ∑ j ∈ s.filter (t · < t m), c j := by
      intro m hm
      have h1 := h m (Finset.mem_insert_of_mem hm)
      rwa [Finset.filter_insert, if_neg (not_lt.mpr (hmax m hm))] at h1
    have hlast : t a ≤ S + ∑ j ∈ s, c j := by
      refine (h a (Finset.mem_insert_self a s)).trans (Nat.add_le_add_left ?_ S)
      rw [Finset.filter_insert, if_neg (lt_irrefl _)]
      exact Finset.sum_le_sum_of_subset (Finset.filter_subset _ s)
    have hlastq : (t a : ℚ) ≤ S + ∑ j ∈ s, (c j : ℚ) := by exact_mod_cast hlast
    have hta : (0 : ℚ) < t a := Nat.cast_pos.mpr (ht a (Finset.mem_insert_self a s))
    have hfac : (0 : ℚ) ≤ 1 + (c a : ℚ) / t a := by positivity
    have hc : (c a : ℚ) ≤ (S + ∑ j ∈ s, (c j : ℚ)) * (c a / t a) := by
      calc (c a : ℚ) = t a * (c a / t a) := by rw [mul_div_cancel₀ _ hta.ne']
        _ ≤ (S + ∑ j ∈ s, (c j : ℚ)) * (c a / t a) :=
          mul_le_mul_of_nonneg_right hlastq (by positivity)
    rw [Finset.sum_insert ha, Finset.prod_insert ha]
    calc (S : ℚ) + (c a + ∑ j ∈ s, (c j : ℚ))
        ≤ (S + ∑ j ∈ s, (c j : ℚ)) * (1 + c a / t a) := by linarith
      _ ≤ (S * ∏ j ∈ s, (1 + (c j : ℚ) / t j)) * (1 + c a / t a) :=
        mul_le_mul_of_nonneg_right (ih (fun j hj => ht j (Finset.mem_insert_of_mem hj)) hold) hfac
      _ = S * ((1 + (c a : ℚ) / t a) * ∏ j ∈ s, (1 + (c j : ℚ) / t j)) := by ring

/-! ### The sum of the shares -/

section Mean
variable {ι : Type*} [Fintype ι] [Nonempty ι] {u : ι → ℝ} (hu : ∀ i, 0 ≤ u i)
include hu

theorem root_prod_le : (∏ i, (1 + u i)) ^ (1 / (Fintype.card ι : ℝ)) ≤
    1 + (∑ i, u i) / Fintype.card ι := by
  have hpos : (0 : ℝ) < Fintype.card ι := Nat.cast_pos.mpr Fintype.card_pos
  have hmean := Real.geom_mean_le_arith_mean Finset.univ (fun _ : ι => 1) (fun i => 1 + u i)
    (fun _ _ => zero_le_one) (by simpa using hpos) fun i _ => by linarith [hu i]
  simp only [Real.rpow_one, Finset.sum_const, Finset.card_univ, nsmul_eq_mul, mul_one, one_mul,
    Finset.sum_add_distrib] at hmean
  rwa [add_div, div_self hpos.ne', ← one_div] at hmean

/-- **The least upper bound**: shares whose factors reach two add up to at least
`n (2 ^ (1 / n) - 1)`. -/
theorem le_sum_of_two_le_prod (h : 2 ≤ ∏ i, (1 + u i)) :
    (Fintype.card ι : ℝ) * (2 ^ (1 / (Fintype.card ι : ℝ)) - 1) ≤ ∑ i, u i := by
  have hpos : (0 : ℝ) < Fintype.card ι := Nat.cast_pos.mpr Fintype.card_pos
  have hroot : (2 : ℝ) ^ (1 / (Fintype.card ι : ℝ)) - 1 ≤ (∑ i, u i) / Fintype.card ι := by
    have h1 := Real.rpow_le_rpow zero_le_two h (one_div_nonneg.mpr hpos.le)
    linarith [root_prod_le hu]
  rw [le_div_iff₀ hpos] at hroot
  linarith

theorem prod_le_two_of_sum_le
    (h : ∑ i, u i ≤ (Fintype.card ι : ℝ) * (2 ^ (1 / (Fintype.card ι : ℝ)) - 1)) :
    ∏ i, (1 + u i) ≤ 2 := by
  have hpos : (0 : ℝ) < Fintype.card ι := Nat.cast_pos.mpr Fintype.card_pos
  have hprod : (0 : ℝ) ≤ ∏ i, (1 + u i) := Finset.prod_nonneg fun i _ => by linarith [hu i]
  rw [← div_le_iff₀' hpos] at h
  rw [← Real.rpow_le_rpow_iff hprod zero_le_two (one_div_pos.mpr hpos)]
  linarith [root_prod_le hu]

end Mean

/-- The bound is no rational number, unless for one task. -/
theorem ne_of_two_le {n : ℕ} (hn : 2 ≤ n) (q : ℚ) : (n : ℝ) * (2 ^ (1 / (n : ℝ)) - 1) ≠ q := by
  intro heq
  have hn0 : (n : ℝ) ≠ 0 := Nat.cast_ne_zero.mpr (by omega)
  have hpow : ((2 : ℝ) ^ (1 / (n : ℝ))) ^ n = (2 : ℤ) := by
    rw [one_div, Real.rpow_inv_natCast_pow zero_le_two (by omega)]
    norm_num
  have hroot : (2 : ℝ) ^ (1 / (n : ℝ)) = ((q / n + 1 : ℚ) : ℝ) := by
    push_cast
    rw [← heq, mul_div_cancel_left₀ _ hn0, sub_add_cancel]
  refine irrational_nrt_of_notint_nrt n 2 hpow ?_ (by omega) ⟨_, hroot.symm⟩
  -- an integer whose `n`th power is two would lie between one and two
  rintro ⟨z, hz⟩
  rw [hz] at hpow
  have hz2 : z ^ n = 2 := by exact_mod_cast hpow
  have hz0 : (0 : ℝ) < z := hz ▸ Real.rpow_pos_of_pos zero_lt_two _
  have hz1 : 1 ≤ z := by exact_mod_cast hz0
  rcases hz1.eq_or_lt with rfl | hlt
  · rw [one_pow] at hz2
    omega
  · have h1 : (2 : ℤ) ^ n ≤ z ^ n := pow_le_pow_left₀ zero_le_two hlt n
    have h2 : (2 : ℤ) ^ 2 ≤ 2 ^ n := pow_le_pow_right₀ one_le_two hn
    omega

namespace PeriodicTasks.Tasks

open Ecen5623.Library.SlotSchedule

variable {ι : Type*} [LinearOrder ι] [Fintype ι] {P : Tasks ι} {i : ι}

/-! ### Saturated tasks -/

theorem saturated_of_not_fits (h : ¬ P.Fits i) : P.Saturated i (P.C i - 1) := by
  intro x hx hxT
  have hlt : x < P.demand i x := by
    by_contra hle
    exact h ⟨x, hx, hxT, not_lt.mp hle⟩
  rw [demand_eq_response hx hxT, response] at hlt
  have := P.C_pos i
  omega

/-- The last multiple of the period of `j` up to the period of `i`. -/
def lastPoint (P : Tasks ι) (i j : ι) : ℕ := P.T i / P.T j * P.T j

omit [LinearOrder ι] [Fintype ι] in
/-- A point `x` up to the period of `i` meets one more release of `j` than the last multiple, if it
lies beyond it. -/
theorem ceilDiv_mul_le {j : ι} {x : ℕ} (hx : x ≤ P.T i) (hT : P.T j ≤ P.T i) :
    x ⌈/⌉ P.T j * P.C j ≤ P.T i / P.T j * P.C j +
      if P.lastPoint i j < x then P.T i / P.T j * P.C j else 0 := by
  have hTj := P.T_pos j
  have hk : 1 ≤ P.T i / P.T j := Nat.div_pos hT hTj
  split_ifs with hlt
  · have hceil : x ⌈/⌉ P.T j ≤ P.T i / P.T j + 1 := by
      refine ceilDiv_le_of_le_mul (hx.trans ?_)
      rw [Nat.succ_mul]
      exact (Nat.lt_div_mul_add hTj).le
    calc x ⌈/⌉ P.T j * P.C j ≤ (P.T i / P.T j + 1) * P.C j := Nat.mul_le_mul_right _ hceil
      _ = P.T i / P.T j * P.C j + 1 * P.C j := Nat.add_mul _ _ _
      _ ≤ _ := Nat.add_le_add_left (Nat.mul_le_mul_right _ hk) _
  · exact Nat.mul_le_mul_right _ (ceilDiv_le_of_le_mul (not_lt.mp hlt))

/-- **Saturated tasks have factors that reach two.** -/
theorem Saturated.two_le_prod {g : ℕ} (h : P.Saturated i g) (hT : ∀ j < i, P.T j ≤ P.T i) :
    2 ≤ (1 + (g : ℚ) / P.T i) *
      ∏ j ∈ Finset.univ.filter (· < i), (1 + (P.C j : ℚ) / P.T j) := by
  have hTi := P.T_pos i
  set s := Finset.univ.filter (· ≤ i) with hs
  set c : ι → ℕ := fun j => if j = i then g else P.T i / P.T j * P.C j with hc
  have hci : c i = g := if_pos rfl
  have hcj : ∀ j < i, c j = P.T i / P.T j * P.C j := fun j hj => if_neg hj.ne
  have hti : P.lastPoint i i = P.T i := by rw [lastPoint, Nat.div_self hTi, Nat.one_mul]
  have hle : ∀ j ≤ i, P.T j ≤ P.T i := fun j hj =>
    hj.eq_or_lt.elim (fun h => h ▸ le_rfl) (hT j)
  have hk : ∀ j ≤ i, 1 ≤ P.T i / P.T j := fun j hj => Nat.div_pos (hle j hj) (P.T_pos j)
  -- every point is at most the demand up to it
  have hpoint : ∀ m ∈ s, P.lastPoint i m ≤
      ∑ j ∈ s, c j + ∑ j ∈ s.filter (P.lastPoint i · < P.lastPoint i m), c j := by
    intro m hm
    have hmi : m ≤ i := (Finset.mem_filter.mp hm).2
    have hx1 : 1 ≤ P.lastPoint i m := Nat.mul_pos (hk m hmi) (P.T_pos m)
    have hxT : P.lastPoint i m ≤ P.T i := Nat.div_mul_le_self _ _
    have hsum : ∑ j ∈ Finset.univ.filter (· < i), P.lastPoint i m ⌈/⌉ P.T j * P.C j ≤
        ∑ j ∈ Finset.univ.filter (· < i),
          (c j + if P.lastPoint i j < P.lastPoint i m then c j else 0) := by
      refine Finset.sum_le_sum fun j hj => ?_
      have hji := (Finset.mem_filter.mp hj).2
      rw [hcj j hji]
      exact ceilDiv_mul_le hxT (hT j hji)
    rw [Finset.sum_add_distrib] at hsum
    have hx := h _ hx1 hxT
    rw [Finset.sum_filter (P.lastPoint i · < P.lastPoint i m) c, hs, sum_filter_le i c,
      sum_filter_le i fun j => if P.lastPoint i j < P.lastPoint i m then c j else 0, hci]
    omega
  have hpos : 0 < ∑ j ∈ s, c j := by
    by_contra hzero
    have h1 := hpoint i (Finset.mem_filter.mpr ⟨Finset.mem_univ i, le_rfl⟩)
    have h2 : ∑ j ∈ s.filter (P.lastPoint i · < P.lastPoint i i), c j ≤ ∑ j ∈ s, c j :=
      Finset.sum_le_sum_of_subset (Finset.filter_subset _ s)
    omega
  have hdouble := add_sum_le_mul_prod (t := P.lastPoint i) (∑ j ∈ s, c j) s
    (fun j hj => Nat.mul_pos (hk j (Finset.mem_filter.mp hj).2) (P.T_pos j)) hpoint
  have hposq : (0 : ℚ) < ∑ j ∈ s, (c j : ℚ) := by exact_mod_cast hpos
  -- the factor of a point is that of its task
  have hprod : ∏ j ∈ s, (1 + (c j : ℚ) / P.lastPoint i j) = (1 + (g : ℚ) / P.T i) *
      ∏ j ∈ Finset.univ.filter (· < i), (1 + (P.C j : ℚ) / P.T j) := by
    rw [hs, filter_le_eq, Finset.prod_insert (by simp), hci, hti]
    refine congrArg _ (Finset.prod_congr rfl fun j hj => ?_)
    have hji := (Finset.mem_filter.mp hj).2
    have hkq : ((P.T i / P.T j : ℕ) : ℚ) ≠ 0 := by have := hk j hji.le; positivity
    rw [hcj j hji, lastPoint, Nat.cast_mul, Nat.cast_mul, mul_div_mul_left _ _ hkq]
  rw [hprod, Nat.cast_sum, ← two_mul, mul_comm] at hdouble
  exact le_of_mul_le_mul_left hdouble hposq

/-- **The hyperbolic bound.** -/
theorem fits_of_prod_le (hT : ∀ j < i, P.T j ≤ P.T i)
    (h : ∏ j ∈ Finset.univ.filter (· ≤ i), (1 + (P.C j : ℚ) / P.T j) ≤ 2) : P.Fits i := by
  by_contra hfit
  have h2 := (saturated_of_not_fits hfit).two_le_prod hT
  rw [filter_le_eq, Finset.prod_insert (by simp)] at h
  have hTi : (0 : ℚ) < P.T i := Nat.cast_pos.mpr (P.T_pos i)
  have hlt : ((P.C i - 1 : ℕ) : ℚ) / P.T i < P.C i / P.T i := by
    refine div_lt_div_of_pos_right (Nat.cast_lt.mpr ?_) hTi
    have := P.C_pos i
    omega
  have hpos : 0 < ∏ j ∈ Finset.univ.filter (· < i), (1 + (P.C j : ℚ) / P.T j) :=
    Finset.prod_pos fun j _ => by positivity
  have h3 := mul_lt_mul_of_pos_right (add_lt_add_right hlt 1) hpos
  linarith

/-! ### The shares used in a schedule -/

section Windows
variable {σ : Schedule ι} {L : ℕ}

omit [Fintype ι] in
theorem mul_le_ran {g : ℕ} : ∀ n, (∀ k < n, g ≤ ran σ i (k * P.T i) ((k + 1) * P.T i)) →
    n * g ≤ ran σ i 0 (n * P.T i)
  | 0, _ => by simp
  | n + 1, hg => by
    have h1 := mul_le_ran n fun k hk => hg k (Nat.lt_succ_of_lt hk)
    have h2 := hg n (Nat.lt_succ_self n)
    have hle : n * P.T i ≤ (n + 1) * P.T i := Nat.mul_le_mul_right _ (Nat.le_succ n)
    rw [← ran_add σ i (Nat.zero_le _) hle, Nat.succ_mul n g]
    omega

omit [Fintype ι] in
theorem div_le_share {g : ℕ} (hL : 0 < L) (hdvd : P.T i ∣ L)
    (hg : ∀ k, (k + 1) * P.T i ≤ L → g ≤ ran σ i (k * P.T i) ((k + 1) * P.T i)) :
    (g : ℚ) / P.T i ≤ (ran σ i 0 L : ℚ) / L := by
  have hLq : (0 : ℚ) < L := Nat.cast_pos.mpr hL
  have hTq : (0 : ℚ) < P.T i := Nat.cast_pos.mpr (P.T_pos i)
  have hran : L / P.T i * g ≤ ran σ i 0 L := by
    have h1 := mul_le_ran (σ := σ) (P := P) (i := i) (g := g) (L / P.T i) fun k hk => hg k <| by
      calc (k + 1) * P.T i ≤ L / P.T i * P.T i := Nat.mul_le_mul_right _ hk
        _ ≤ L := Nat.div_mul_le_self _ _
    rwa [Nat.div_mul_cancel hdvd] at h1
  have hcancel : ((L / P.T i : ℕ) : ℚ) * P.T i = L := by
    exact_mod_cast Nat.div_mul_cancel hdvd
  rw [div_le_div_iff₀ hTq hLq, ← hcancel]
  have hranq : ((L / P.T i : ℕ) : ℚ) * g ≤ ran σ i 0 L := by exact_mod_cast hran
  nlinarith [hTq]

/-- **A schedule that serves every job** up to a common multiple of the periods shows that the tasks
use at most the whole processor, whatever else it does. -/
theorem utilisation_le_one_of_served (hL : 0 < L) (hdvd : ∀ i, P.T i ∣ L)
    (hserved : ∀ i k, (k + 1) * P.T i ≤ L → P.C i ≤ ran σ i (k * P.T i) ((k + 1) * P.T i)) :
    P.utilisation ≤ 1 := by
  have hLq : (0 : ℚ) < L := Nat.cast_pos.mpr hL
  calc P.utilisation ≤ ∑ i, (ran σ i 0 L : ℚ) / L :=
        Finset.sum_le_sum fun i _ => div_le_share hL (hdvd i) (hserved i)
    _ = ((∑ i, ran σ i 0 L : ℕ) : ℚ) / L := by rw [Nat.cast_sum, Finset.sum_div]
    _ ≤ 1 := by
        rw [div_le_one hLq]
        exact_mod_cast sum_ran_le σ Finset.univ 0 L

end Windows

section Share
variable {σ : Schedule ι} (h : P.FixedPriority σ)
include h

/-- **Every window of a task that does not fit is saturated** by what the task runs in it. -/
theorem saturated_ran (hfit : ¬ P.Fits i) (k : ℕ) :
    P.Saturated i (ran σ i (k * P.T i) ((k + 1) * P.T i)) := by
  by_cases hmet : P.Met σ i k
  · intro x hx hxT
    have h1 := saturated_of_not_fits hfit x hx hxT
    unfold Met at hmet
    omega
  exact h.saturated_of_not_met hmet

/-- **Tasks that do not all fit use shares whose factors reach two**, over any common multiple of
the periods and although the rest of a missed job is dropped. -/
theorem two_le_prod_share (hT : ∀ i j, i < j → P.T i ≤ P.T j) (hfit : ¬ ∀ i, P.Fits i) {L : ℕ}
    (hL : 0 < L) (hdvd : ∀ i, P.T i ∣ L) : 2 ≤ ∏ i, (1 + (ran σ i 0 L : ℚ) / L) := by
  -- the highest priority that does not fit, and the window in which it runs least
  obtain ⟨i, hi, hmin⟩ : ∃ i, ¬ P.Fits i ∧ ∀ j < i, P.Fits j := by
    push Not at hfit
    obtain ⟨i, hi, hmin⟩ := WellFounded.has_min wellFounded_lt {i | ¬ P.Fits i} hfit
    exact ⟨i, hi, fun j hj => by_contra fun hn => hmin j hn hj⟩
  obtain ⟨k, hk⟩ : ∃ k, ∀ k', ran σ i (k * P.T i) ((k + 1) * P.T i) ≤
      ran σ i (k' * P.T i) ((k' + 1) * P.T i) :=
    ⟨_, fun k' => not_lt.mp (Function.not_lt_argmin
      (fun k => ran σ i (k * P.T i) ((k + 1) * P.T i)) k')⟩
  have hhigh : ∀ j < i, (P.C j : ℚ) / P.T j ≤ (ran σ j 0 L : ℚ) / L := fun j hj =>
    div_le_share hL (hdvd j) fun k' _ => (h.met_of_fits (hmin j hj) k').ge
  have hlow := div_le_share hL (hdvd i) fun k' _ => hk k'
  have hone : ∀ j, (1 : ℚ) ≤ 1 + (ran σ j 0 L : ℚ) / L := fun j =>
    le_add_of_nonneg_right (by positivity)
  calc (2 : ℚ) ≤ (1 + (ran σ i (k * P.T i) ((k + 1) * P.T i) : ℚ) / P.T i) *
        ∏ j ∈ Finset.univ.filter (· < i), (1 + (P.C j : ℚ) / P.T j) :=
        (saturated_ran h hi k).two_le_prod fun j hj => hT j i hj
    _ ≤ (1 + (ran σ i 0 L : ℚ) / L) *
        ∏ j ∈ Finset.univ.filter (· < i), (1 + (ran σ j 0 L : ℚ) / L) := by
        refine mul_le_mul (by linarith) ?_ (Finset.prod_nonneg fun j _ => by positivity)
          (by positivity)
        refine Finset.prod_le_prod (fun j _ => by positivity) fun j hj => ?_
        have := hhigh j (Finset.mem_filter.mp hj).2
        linarith
    _ = ∏ j ∈ Finset.univ.filter (· ≤ i), (1 + (ran σ j 0 L : ℚ) / L) := by
        rw [filter_le_eq, Finset.prod_insert (by simp)]
    _ ≤ ∏ j, (1 + (ran σ j 0 L : ℚ) / L) :=
        Finset.prod_le_prod_of_subset_of_one_le (Finset.filter_subset _ _)
          (fun j _ => by positivity) fun j _ _ => hone j

end Share

/-! ### Harmonic periods -/

/-- **Periods that divide each other fit up to the whole processor.** -/
theorem fits_of_dvd (hdvd : ∀ j < i, P.T j ∣ P.T i)
    (hU : ∑ j ∈ Finset.univ.filter (· ≤ i), (P.C j : ℚ) / P.T j ≤ 1) : P.Fits i := by
  have hTi := P.T_pos i
  refine ⟨P.T i, hTi, le_rfl, ?_⟩
  have hle : (P.demand i (P.T i) : ℚ) ≤ P.T i := by
    calc (P.demand i (P.T i) : ℚ)
        ≤ P.T i * ∑ j ∈ Finset.univ.filter (· ≤ i), (P.C j : ℚ) / P.T j := by
          rw [demand, Nat.cast_sum, Finset.mul_sum]
          refine Finset.sum_le_sum fun j hj => ?_
          obtain ⟨q, hq⟩ : P.T j ∣ P.T i := (Finset.mem_filter.mp hj).2.eq_or_lt.elim
            (fun h => h ▸ dvd_rfl) (hdvd j)
          have hceil : P.T i ⌈/⌉ P.T j ≤ q := ceilDiv_le_of_le_mul (by rw [hq, Nat.mul_comm])
          have hTj : (P.T j : ℚ) ≠ 0 := Nat.cast_ne_zero.mpr (P.T_pos j).ne'
          calc ((P.T i ⌈/⌉ P.T j * P.C j : ℕ) : ℚ) ≤ (q * P.C j : ℕ) :=
                Nat.cast_le.mpr (Nat.mul_le_mul_right _ hceil)
            _ = P.T i * (P.C j / P.T j) := by
                rw [hq, Nat.cast_mul, Nat.cast_mul]
                field_simp
      _ ≤ P.T i := mul_le_of_le_one_right (Nat.cast_nonneg _) hU
  exact_mod_cast hle

end PeriodicTasks.Tasks

end Ecen5623.Library
