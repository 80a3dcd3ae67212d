import Ecen5623.Feasibility.Agreement

/-! # The scheduling-point test in 32 bits

The test adds `wcet[i] * ceiling_T1_Tn` up in the `int` `temp` and compares it, as an unsigned
number, with the point `num_periods*period[S]`: all of it is modulo `2 ^ 32`. A service passes if
its demand fits at some point, or if at some point the demand is so large that its residue is below
the point (`Slips`, `itFits32_iff`). The answer TRUE is wrong exactly if every service passes and
one of them does not fit (`noFalseFeasible_iff`). -/

namespace Ecen5623.Feasibility.Wraparound

open Ecen5623.Library Ecen5623.Library.PeriodicTasks
open Ecen5623.Feasibility.Tests Ecen5623.Feasibility.Agreement

/-- The bits of `temp` at the point `t`. -/
def tempAt32 (period wcet : ℕ → ℕ) (s2 t : ℕ) : ℕ :=
  (List.range (s2 + 1)).foldl
    (fun temp i => (temp + wcet i * (t ⌈/⌉ period i) % 2 ^ 32) % 2 ^ 32) 0

/-- `status` of service `s2`, in 32 bits. -/
def itFits32 (period wcet : ℕ → ℕ) (s2 : ℕ) : Bool :=
  (List.range (s2 + 1)).any fun s =>
    (List.range (period s2 / period s)).any fun k =>
      tempAt32 period wcet s2 ((k + 1) * period s) ≤ (k + 1) * period s % 2 ^ 32

/-- `scheduling_point_feasibility`, in 32 bits. -/
def schedulingPointFeasibility32 (numServices : ℕ) (period wcet : ℕ → ℕ) : Bool :=
  (List.range numServices).foldl (fun rc s2 => if itFits32 period wcet s2 then rc else false) true

/-- The demand of service `s2` fits at some exact instant of its period. -/
def Fits (period wcet : ℕ → ℕ) (s2 : ℕ) : Prop :=
  ∃ t, 1 ≤ t ∧ t ≤ period s2 ∧ ∑ i ∈ Finset.range (s2 + 1), wcet i * (t ⌈/⌉ period i) ≤ t

/-- At some scheduling point `t` of service `s2` the demand exceeds a positive multiple of `2 ^ 32`
by at most `t`. -/
def Slips (period wcet : ℕ → ℕ) (s2 : ℕ) : Prop :=
  ∃ s ≤ s2, ∃ l, 1 ≤ l ∧ l ≤ period s2 / period s ∧ ∃ m, 1 ≤ m ∧
    m * 2 ^ 32 ≤ ∑ i ∈ Finset.range (s2 + 1), wcet i * ((l * period s) ⌈/⌉ period i) ∧
    ∑ i ∈ Finset.range (s2 + 1), wcet i * ((l * period s) ⌈/⌉ period i) ≤
      m * 2 ^ 32 + l * period s

variable {n : ℕ} {period wcet : ℕ → ℕ}

theorem tempAt_eq_sum (s2 t : ℕ) : tempAt period wcet s2 t =
    ∑ i ∈ Finset.range (s2 + 1), wcet i * (t ⌈/⌉ period i) := by
  rw [tempAt, foldl_add_eq, Nat.zero_add]

theorem foldl_add_mod (f : ℕ → ℕ) (m : ℕ) : ∀ n,
    (List.range n).foldl (fun a i => (a + f i % m) % m) 0 = (∑ i ∈ Finset.range n, f i) % m
  | 0 => by simp
  | n + 1 => by
    rw [List.range_succ, List.foldl_append, foldl_add_mod f m n, Finset.sum_range_succ]
    simp [Nat.add_mod]

theorem tempAt32_eq (s2 t : ℕ) : tempAt32 period wcet s2 t =
    (∑ i ∈ Finset.range (s2 + 1), wcet i * (t ⌈/⌉ period i)) % 2 ^ 32 :=
  foldl_add_mod (fun i => wcet i * (t ⌈/⌉ period i)) (2 ^ 32) (s2 + 1)

theorem mod_le_iff {d t : ℕ} (ht : t < 2 ^ 32) :
    d % 2 ^ 32 ≤ t ↔ d ≤ t ∨ ∃ m, 1 ≤ m ∧ m * 2 ^ 32 ≤ d ∧ d ≤ m * 2 ^ 32 + t := by
  constructor
  · intro h
    rcases Nat.lt_or_ge d (2 ^ 32) with hd | hd
    · exact Or.inl (by omega)
    · exact Or.inr ⟨d / 2 ^ 32, by omega, by omega, by omega⟩
  · rintro (h | ⟨m, -, h1, h2⟩) <;> omega

section Tests
variable (h : Positive n period wcet)
include h

theorem fits_iff_itFits {s2 : ℕ} (hs2 : s2 < n) :
    Fits period wcet s2 ↔ itFits period wcet s2 = true := by
  rw [itFits_iff h ⟨s2, hs2⟩, Tasks.Fits]
  simp only [← tempAt_eq h ⟨s2, hs2⟩, tempAt_eq_sum]
  rfl

theorem not_fits_of_lt_sum {s2 : ℕ} (hs2 : s2 < n)
    (hlt : period s2 < ∑ i ∈ Finset.range (s2 + 1), wcet i) : ¬ Fits period wcet s2 := by
  rintro ⟨t, h1, h2, hle⟩
  have hsum : ∑ i ∈ Finset.range (s2 + 1), wcet i ≤
      ∑ i ∈ Finset.range (s2 + 1), wcet i * (t ⌈/⌉ period i) := by
    refine Finset.sum_le_sum fun i hi => Nat.le_mul_of_pos_right _ ?_
    have hin : i < n := (Nat.lt_succ_iff.mp (Finset.mem_range.mp hi)).trans_lt hs2
    exact Tasks.one_le_ceilDiv (P := tasksOf h) (i := ⟨i, hin⟩) h1
  omega

variable (hT : ∀ i < n, period i < 2 ^ 32)
include hT

/-- **What the 32-bit loops of a service decide.** -/
theorem itFits32_iff {s2 : ℕ} (hs2 : s2 < n) :
    itFits32 period wcet s2 = true ↔ Fits period wcet s2 ∨ Slips period wcet s2 := by
  have hpoint : ∀ s ≤ s2, ∀ l ≤ period s2 / period s, l * period s < 2 ^ 32 := by
    intro s hs l hl
    rw [Nat.le_div_iff_mul_le (h.period s (hs.trans_lt hs2))] at hl
    exact hl.trans_lt (hT s2 hs2)
  rw [fits_iff_itFits h hs2, itFits_iff_point]
  refine (any_point period
    (fun t => tempAt32 period wcet s2 t ≤ t % 2 ^ 32) s2).trans ?_
  simp only [decide_eq_true_eq, tempAt32_eq, tempAt_eq_sum]
  constructor
  · rintro ⟨s, hs, l, h1, h2, hle⟩
    rw [Nat.mod_eq_of_lt (hpoint s hs l h2), mod_le_iff (hpoint s hs l h2)] at hle
    rcases hle with hle | ⟨m, hm⟩
    · exact Or.inl ⟨s, hs, l, h1, h2, hle⟩
    · exact Or.inr ⟨s, hs, l, h1, h2, m, hm⟩
  · rintro (⟨s, hs, l, h1, h2, hle⟩ | ⟨s, hs, l, h1, h2, m, hm⟩) <;>
      refine ⟨s, hs, l, h1, h2, ?_⟩ <;>
      rw [Nat.mod_eq_of_lt (hpoint s hs l h2), mod_le_iff (hpoint s hs l h2)]
    · exact Or.inl hle
    · exact Or.inr ⟨m, hm⟩

/-- **The 32-bit test**: every service fits or slips through. -/
theorem schedulingPoint32_iff : schedulingPointFeasibility32 n period wcet = true ↔
    ∀ s2 < n, Fits period wcet s2 ∨ Slips period wcet s2 := by
  rw [schedulingPointFeasibility32, foldl_rc]
  simp only [true_and]
  exact forall₂_congr fun s2 hs2 => itFits32_iff h hT hs2

end Tests

/-- **When the answer TRUE of the 32-bit test is right**: if and only if no service slips through
without fitting, or some service neither fits nor slips through. -/
theorem noFalseFeasible_iff (h : Positive n period wcet) (hT : ∀ i < n, period i < 2 ^ 32) :
    (schedulingPointFeasibility32 n period wcet = true → ∀ s2 < n, ∃ t, 1 ≤ t ∧ t ≤ period s2 ∧
        ∑ i ∈ Finset.range (s2 + 1), wcet i * (t ⌈/⌉ period i) ≤ t) ↔
      ((∀ s2 < n, Slips period wcet s2 → Fits period wcet s2) ∨
        ∃ s2 < n, ¬ Fits period wcet s2 ∧ ¬ Slips period wcet s2) := by
  rw [schedulingPoint32_iff h hT]
  change (_ → ∀ s2 < n, Fits period wcet s2) ↔ _
  constructor
  · intro himp
    by_cases hall : ∀ s2 < n, Fits period wcet s2 ∨ Slips period wcet s2
    · exact Or.inl fun s2 hs2 _ => himp hall s2 hs2
    · push Not at hall
      exact Or.inr hall
  · rintro (hslip | ⟨s2, hs2, hfit, hslip⟩) hall
    · intro s2 hs2
      exact (hall s2 hs2).elim id (hslip s2 hs2)
    · exact ((hall s2 hs2).elim hfit hslip).elim

/-- Test case 7. -/
theorem noFalseFeasible_iff_test7 :
    (schedulingPointFeasibility32 3 testCase7.periods testCase7.wcets = true →
        ∀ s2 < 3, ∃ t, 1 ≤ t ∧ t ≤ testCase7.periods s2 ∧
          ∑ i ∈ Finset.range (s2 + 1), testCase7.wcets i * (t ⌈/⌉ testCase7.periods i) ≤ t) ↔
      ((∀ s2 < 3, Slips testCase7.periods testCase7.wcets s2 →
          Fits testCase7.periods testCase7.wcets s2) ∨
        ∃ s2 < 3, ¬ Fits testCase7.periods testCase7.wcets s2 ∧
          ¬ Slips testCase7.periods testCase7.wcets s2) :=
  noFalseFeasible_iff ⟨by decide, by decide⟩ (by decide)

/-- Two services of period `2 ^ 32 - 1` and run time `2 ^ 31`: their sum wraps to zero. -/
def wrapping : STestCase := testCase [4294967295, 4294967295] [2147483648, 2147483648]

/-- The test accepts them, and the second one fits nowhere. -/
theorem falseFeasible : Positive 2 wrapping.periods wrapping.wcets ∧
    (∀ i < 2, wrapping.periods i < 2 ^ 32) ∧
    schedulingPointFeasibility32 2 wrapping.periods wrapping.wcets = true ∧
    ¬ ∃ t, 1 ≤ t ∧ t ≤ wrapping.periods 1 ∧
      ∑ i ∈ Finset.range 2, wrapping.wcets i * (t ⌈/⌉ wrapping.periods i) ≤ t := by
  have hpos : Positive 2 wrapping.periods wrapping.wcets := ⟨by decide, by decide⟩
  exact ⟨hpos, by decide, by decide +kernel, not_fits_of_lt_sum hpos (by decide) (by decide)⟩

end Ecen5623.Feasibility.Wraparound
