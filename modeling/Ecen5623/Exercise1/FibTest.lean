import Mathlib.Data.Nat.Fib.Basic
import Mathlib.Tactic.SplitIfs

/-! # The load of the services

`FIB_TEST` of `ex0.c` is the work of a service: `iterCnt` times, the Fibonacci numbers up to
`seqCnt`. The variables are declared before the loop of the service and `jdx` is never set back, so
that the numbers are computed in the very first of the iterations, and every later one, of this call
and of all calls after it, only adds `fib0` and `fib1` once more (`fibTest_run`). The name of
`FIB_LIMIT_FOR_32_BIT` is right about `fib1`, which is the Fibonacci number `seqCnt`; `fib` is one
ahead and has wrapped around. -/

namespace Ecen5623.Exercise1.FibTest

/-- The variables of a service. -/
structure Vars where
  idx : UInt32
  jdx : UInt32
  fib : UInt32
  fib0 : UInt32
  fib1 : UInt32
  deriving DecidableEq, Repr

/-- `fibS1` and `fibS2` before their loops. -/
def init : Vars := { idx := 0, jdx := 1, fib := 0, fib0 := 0, fib1 := 1 }

theorem toNat_succ_of_lt {a b : UInt32} (h : a < b) : (a + 1).toNat = a.toNat + 1 := by
  have h1 := UInt32.lt_iff_toNat_lt.mp h
  have h2 := b.toNat_lt
  rw [UInt32.toNat_add, UInt32.toNat_one]
  omega

/-- `while (jdx < seqCnt)`. -/
def whileJdx (seqCnt : UInt32) (v : Vars) : Vars :=
  if v.jdx < seqCnt then
    whileJdx seqCnt
      { v with fib0 := v.fib1, fib1 := v.fib, fib := v.fib1 + v.fib, jdx := v.jdx + 1 }
  else v
termination_by seqCnt.toNat - v.jdx.toNat
decreasing_by
  have h1 := UInt32.lt_iff_toNat_lt.mp ‹v.jdx < seqCnt›
  have h2 := toNat_succ_of_lt ‹v.jdx < seqCnt›
  omega

/-- `for (; idx < iterCnt; idx++)`. -/
def forIdx (seqCnt iterCnt : UInt32) (v : Vars) : Vars :=
  if v.idx < iterCnt then
    let w := whileJdx seqCnt { v with fib := v.fib0 + v.fib1 }
    forIdx seqCnt iterCnt { w with idx := v.idx + 1 }
  else v
termination_by iterCnt.toNat - v.idx.toNat
decreasing_by
  have h1 := UInt32.lt_iff_toNat_lt.mp ‹v.idx < iterCnt›
  have h2 := toNat_succ_of_lt ‹v.idx < iterCnt›
  omega

/-- `FIB_TEST`. -/
def fibTest (seqCnt iterCnt : UInt32) (v : Vars) : Vars := forIdx seqCnt iterCnt { v with idx := 0 }

/-! ### The loops -/

/-- `fib0` and `fib1` are the Fibonacci numbers around `jdx`, up to the wrap-around. -/
structure Along (v : Vars) : Prop where
  pos : 0 < v.jdx.toNat
  fib0 : v.fib0.toNat = Nat.fib (v.jdx.toNat - 1) % 2 ^ 32
  fib1 : v.fib1.toNat = Nat.fib v.jdx.toNat % 2 ^ 32

/-- `fib` is one ahead. -/
def Ahead (v : Vars) : Prop := v.fib.toNat = Nat.fib (v.jdx.toNat + 1) % 2 ^ 32

variable {seqCnt iterCnt : UInt32} {v : Vars}

theorem along_init : Along init := ⟨by decide, rfl, rfl⟩

theorem toNat_add_fib {a b : UInt32} {n : ℕ} (ha : a.toNat = Nat.fib n % 2 ^ 32)
    (hb : b.toNat = Nat.fib (n + 1) % 2 ^ 32) : (a + b).toNat = Nat.fib (n + 2) % 2 ^ 32 := by
  rw [UInt32.toNat_add, ha, hb, ← Nat.add_mod, ← Nat.fib_add_two]

theorem Along.ahead (h : Along v) : Ahead { v with fib := v.fib0 + v.fib1 } := by
  have hpos := h.pos
  have hjdx : v.jdx.toNat - 1 + 1 = v.jdx.toNat := by omega
  have hsum := toNat_add_fib h.fib0 (by rw [hjdx]; exact h.fib1)
  rwa [show v.jdx.toNat - 1 + 2 = v.jdx.toNat + 1 by omega] at hsum

theorem whileJdx_spec (h : Along v) (ha : Ahead v) :
    Along (whileJdx seqCnt v) ∧ Ahead (whileJdx seqCnt v) ∧
      (whileJdx seqCnt v).jdx.toNat = max v.jdx.toNat seqCnt.toNat := by
  induction v using whileJdx.induct seqCnt with
  | case1 v hlt ih =>
    have hjdx := toNat_succ_of_lt hlt
    have hnat := UInt32.lt_iff_toNat_lt.mp hlt
    have hpos := h.pos
    obtain ⟨h1, h2, h3⟩ := ih
      ⟨by rw [hjdx]; omega, by rw [hjdx, Nat.add_sub_cancel]; exact h.fib1, by rw [hjdx]; exact ha⟩
      (by unfold Ahead; rw [hjdx]; exact toNat_add_fib h.fib1 ha)
    rw [whileJdx, if_pos hlt]
    exact ⟨h1, h2, by rw [h3, hjdx]; omega⟩
  | case2 v hge =>
    have hnat := mt UInt32.lt_iff_toNat_lt.mpr hge
    rw [whileJdx, if_neg hge]
    exact ⟨h, ha, by omega⟩

/-- The numbers have been computed. -/
structure Settled (seqCnt : UInt32) (v : Vars) : Prop where
  along : Along v
  ahead : Ahead v
  jdx : v.jdx.toNat = max 1 seqCnt.toNat

/-- **One iteration computes the numbers, the others change nothing.** -/
theorem forIdx_spec (h : Along v) (hjdx : v.jdx.toNat ≤ max 1 seqCnt.toNat)
    (hlt : v.idx < iterCnt) : Settled seqCnt (forIdx seqCnt iterCnt v) ∧
      (forIdx seqCnt iterCnt v).idx = iterCnt := by
  induction v using forIdx.induct seqCnt iterCnt with
  | case1 v _ w ih =>
    have hidx := toNat_succ_of_lt hlt
    have hnat := UInt32.lt_iff_toNat_lt.mp hlt
    have hpos := h.pos
    have hfib : Along { v with fib := v.fib0 + v.fib1 } := ⟨h.pos, h.fib0, h.fib1⟩
    obtain ⟨h1, h2, h3⟩ := whileJdx_spec hfib h.ahead
    have hsettled : Settled seqCnt { w with idx := v.idx + 1 } :=
      ⟨⟨h1.pos, h1.fib0, h1.fib1⟩, h2, h3.trans (by dsimp only; omega)⟩
    rw [forIdx, if_pos hlt]
    by_cases hnext : v.idx + 1 < iterCnt
    · exact ih hsettled.along hsettled.jdx.le hnext
    · have hge := mt UInt32.lt_iff_toNat_lt.mpr hnext
      rw [forIdx, if_neg hnext]
      exact ⟨hsettled, UInt32.toNat_inj.mp (by dsimp only; omega)⟩
  | case2 v hge => exact absurd hlt hge

/-! ### Calls -/

theorem fibTest_spec (hiter : 0 < iterCnt) (h : Along v)
    (hjdx : v.jdx.toNat ≤ max 1 seqCnt.toNat) :
    Settled seqCnt (fibTest seqCnt iterCnt v) ∧ (fibTest seqCnt iterCnt v).idx = iterCnt :=
  forIdx_spec ⟨h.pos, h.fib0, h.fib1⟩ hjdx hiter

theorem fib_lt_iff (n : ℕ) : Nat.fib n < 2 ^ 32 ↔ n ≤ 47 := by
  have h47 : Nat.fib 47 < 2 ^ 32 := by decide +kernel
  have h48 : 2 ^ 32 ≤ Nat.fib 48 := by decide +kernel
  constructor
  · intro h
    by_contra hn
    have hle : Nat.fib 48 ≤ Nat.fib n := Nat.fib_mono (not_le.mp hn)
    omega
  · exact fun h => (Nat.fib_mono h).trans_lt h47

theorem mod_eq_iff (n : ℕ) : Nat.fib n % 2 ^ 32 = Nat.fib n ↔ n ≤ 47 := by
  rw [← fib_lt_iff]
  constructor
  · exact fun h => h ▸ Nat.mod_lt _ (by decide)
  · exact Nat.mod_eq_of_lt

/-- **After any number of calls** the numbers stand where the first one has left them, so that the
inner loop has ended for good; `fib1` is the Fibonacci number `seqCnt` if that is at most 47, and
`fib` the next one if it is at most 46. -/
theorem fibTest_run (hseq : 0 < seqCnt) (hiter : 0 < iterCnt) (n : ℕ) :
    ∃ v, v = (fibTest seqCnt iterCnt)^[n + 1] init ∧ v.idx = iterCnt ∧ v.jdx = seqCnt ∧
      v.fib1.toNat = Nat.fib seqCnt.toNat % 2 ^ 32 ∧
      v.fib.toNat = Nat.fib (seqCnt.toNat + 1) % 2 ^ 32 ∧
      (v.fib1.toNat = Nat.fib seqCnt.toNat ↔ seqCnt.toNat ≤ 47) ∧
      (v.fib.toNat = Nat.fib (seqCnt.toNat + 1) ↔ seqCnt.toNat ≤ 46) := by
  have hpos : 0 < seqCnt.toNat := UInt32.lt_iff_toNat_lt.mp hseq
  have hrun : ∀ n, Settled seqCnt ((fibTest seqCnt iterCnt)^[n + 1] init) ∧
      ((fibTest seqCnt iterCnt)^[n + 1] init).idx = iterCnt := by
    intro n
    induction n with
    | zero => exact fibTest_spec hiter along_init (Nat.le_max_left _ _)
    | succ n ih =>
      rw [Function.iterate_succ_apply']
      exact fibTest_spec hiter ih.1.along ih.1.jdx.le
  obtain ⟨hsettled, hidx⟩ := hrun n
  have hjdx : ((fibTest seqCnt iterCnt)^[n + 1] init).jdx = seqCnt :=
    UInt32.toNat_inj.mp (hsettled.jdx.trans (by omega))
  have hfib1 := hsettled.along.fib1
  have hfib : Ahead _ := hsettled.ahead
  unfold Ahead at hfib
  rw [hjdx] at hfib1 hfib
  refine ⟨_, rfl, hidx, hjdx, hfib1, hfib, ?_, ?_⟩
  · rw [hfib1, mod_eq_iff]
  · rw [hfib, mod_eq_iff]
    omega

/-- The arguments of `ex0.c`: `fib` is not the Fibonacci number 48. -/
theorem fibTest_run_ex0 : ∃ v, v = (fibTest 47 800000)^[26] init ∧ v.fib1 = 2971215073 ∧
    v.fib = 512559680 := by
  obtain ⟨v, hv, -, -, hfib1, hfib, -⟩ :=
    fibTest_run (by decide : (0 : UInt32) < 47) (by decide : (0 : UInt32) < 800000) 25
  exact ⟨v, hv, UInt32.toNat_inj.mp (hfib1.trans (by decide +kernel)),
    UInt32.toNat_inj.mp (hfib.trans (by decide +kernel))⟩

end Ecen5623.Exercise1.FibTest
