import Mathlib.Tactic.SplitIfs
import Mathlib.Data.Nat.Notation
import Mathlib.Data.Int.Notation

/-! # The difference of two times

`timespec_subtract` of `timetools.c`. It moves whole seconds between the fields of `y` before it
subtracts, so that a later call meets a `y` with a negative `tv_nsec`. Seconds and nanoseconds are
exact integers; what is stored in an `int` is reduced to 32 bits (`toInt`).

Both corrections keep the instant of `y` (`total_carry`, `total_borrow`), and so the result is the
difference of the two instants (`total_subtract`). The nanoseconds are off if and only if they
differ by exactly one second after the first correction, which the second test leaves out
(`exact_iff`). -/

namespace Ecen5623.Clock.TimespecSubtract

/-- `struct timespec`. -/
structure Timespec where
  tvSec : ℤ
  tvNsec : ℤ
  deriving DecidableEq, Repr

namespace Timespec

/-- The instant in nanoseconds. -/
def total (t : Timespec) : ℤ := t.tvSec * 1000000000 + t.tvNsec

/-- What `clock_gettime` stores. -/
structure Normalized (t : Timespec) : Prop where
  nonneg : 0 ≤ t.tvNsec
  lt : t.tvNsec < 1000000000

/-- What a call may leave in `y`. -/
structure Reusable (t : Timespec) : Prop where
  gt : -1000000000 < t.tvNsec
  lt : t.tvNsec < 1000000000

theorem Normalized.eq {t u : Timespec} (ht : t.Normalized) (hu : u.Normalized)
    (h : t.total = u.total) : t = u := by
  have h1 := ht.nonneg
  have h2 := ht.lt
  have h3 := hu.nonneg
  have h4 := hu.lt
  unfold total at h
  rcases t with ⟨ts, tn⟩
  rcases u with ⟨us, un⟩
  dsimp only at *
  obtain rfl : ts = us := by omega
  obtain rfl : tn = un := by omega
  rfl

theorem Normalized.reusable {t : Timespec} (h : t.Normalized) : t.Reusable :=
  ⟨by have := h.nonneg; omega, h.lt⟩

end Timespec

open Timespec

/-- The conversion to a 32-bit `int`. -/
def toInt (n : ℤ) : ℤ := n.bmod 4294967296

theorem toInt_of_range {n : ℤ} (h1 : -2147483648 ≤ n) (h2 : n < 2147483648) : toInt n = n := by
  unfold toInt
  rw [Int.bmod_def]
  split_ifs <;> omega

/-- The objects behind the three pointers. -/
structure Objects where
  result : Timespec
  x : Timespec
  y : Timespec
  deriving DecidableEq, Repr

/-- `y` after the first correction, which lets `y` have no more nanoseconds than `x`. -/
def carry (x y : Timespec) : Timespec :=
  if x.tvNsec < y.tvNsec then
    let nsec := toInt ((y.tvNsec - x.tvNsec).tdiv 1000000000 + 1)
    { tvSec := y.tvSec + nsec, tvNsec := y.tvNsec - 1000000000 * nsec }
  else y

/-- `y` after the second correction, for nanoseconds more than a second apart. -/
def borrow (x y : Timespec) : Timespec :=
  if x.tvNsec - y.tvNsec > 1000000000 then
    let nsec := toInt ((x.tvNsec - y.tvNsec).tdiv 1000000000)
    { tvSec := y.tvSec - nsec, tvNsec := y.tvNsec + 1000000000 * nsec }
  else y

/-- Subtract `y` from `x`; the return value is 1 if the difference is negative, otherwise 0. -/
def timespecSubtract (o : Objects) : Objects × ℤ :=
  let y := borrow o.x (carry o.x o.y)
  let result := { tvSec := o.x.tvSec - y.tvSec, tvNsec := o.x.tvNsec - y.tvNsec }
  ({ o with result := result, y := y }, if o.x.tvSec < y.tvSec then 1 else 0)

variable {o : Objects} {x y : Timespec}

/-! ### The corrections -/

theorem total_carry (x y : Timespec) : (carry x y).total = y.total := by
  unfold carry total
  split_ifs
  · simp only
    omega
  · rfl

theorem total_borrow (x y : Timespec) : (borrow x y).total = y.total := by
  unfold borrow total
  split_ifs
  · simp only
    omega
  · rfl

/-- **The instant of `y` stays.** -/
theorem total_y (o : Objects) : (timespecSubtract o).1.y.total = o.y.total :=
  (total_borrow _ _).trans (total_carry _ _)

/-- **The result is the difference of the instants.** -/
theorem total_subtract (o : Objects) :
    (timespecSubtract o).1.result.total = o.x.total - o.y.total := by
  rw [← total_y o]
  simp only [timespecSubtract, total]
  omega

section Range
variable (hx : x.Normalized) (hy : y.Reusable)
include hx hy

theorem carry_eq : carry x y =
    if x.tvNsec < y.tvNsec then ⟨y.tvSec + 1, y.tvNsec - 1000000000⟩ else y := by
  have h1 := hx.nonneg
  have h2 := hy.lt
  unfold carry
  split_ifs with h
  · have hdiv : (y.tvNsec - x.tvNsec).tdiv 1000000000 = 0 :=
      Int.tdiv_eq_zero_of_lt (by omega) (by omega)
    rw [hdiv, toInt_of_range (by omega) (by omega)]
    rfl
  · rfl

theorem carry_range : (carry x y).Reusable ∧ 0 ≤ x.tvNsec - (carry x y).tvNsec ∧
    x.tvNsec - (carry x y).tvNsec < 2000000000 := by
  have h1 := hx.nonneg
  have h2 := hx.lt
  have h3 := hy.gt
  have h4 := hy.lt
  rw [carry_eq hx hy]
  split_ifs with h
  · exact ⟨⟨by simp only; omega, by simp only; omega⟩, by simp only; omega, by simp only; omega⟩
  · exact ⟨hy, by omega, by omega⟩

end Range

theorem borrow_eq (h : x.tvNsec - y.tvNsec < 2000000000) : borrow x y =
    if 1000000000 < x.tvNsec - y.tvNsec then ⟨y.tvSec - 1, y.tvNsec + 1000000000⟩ else y := by
  unfold borrow
  split_ifs with h1
  · have hdiv : (x.tvNsec - y.tvNsec).tdiv 1000000000 = 1 := by
      rw [Int.tdiv_eq_ediv_of_nonneg (by omega)]
      omega
    rw [hdiv, toInt_of_range (by omega) (by omega)]
    rfl
  · rfl

/-! ### The call -/

/-- What a call is for: `x` and the instant of `y` stay, the result is normalized and the
difference, and the return value tells which of the two is earlier. -/
structure Exact (o : Objects) : Prop where
  x : (timespecSubtract o).1.x = o.x
  instant : (timespecSubtract o).1.y.total = o.y.total
  normalized : (timespecSubtract o).1.result.Normalized
  difference : (timespecSubtract o).1.result.total = o.x.total - o.y.total
  negative : (timespecSubtract o).2 = 1 ↔ o.x.total < o.y.total

section Call
variable (hx : o.x.Normalized) (hy : o.y.Reusable)
include hx hy

theorem tvNsec_subtract : (timespecSubtract o).1.result.tvNsec =
    if o.x.tvNsec < o.y.tvNsec then o.x.tvNsec - o.y.tvNsec + 1000000000
    else if 1000000000 < o.x.tvNsec - o.y.tvNsec then o.x.tvNsec - o.y.tvNsec - 1000000000
    else o.x.tvNsec - o.y.tvNsec := by
  have h1 := hy.lt
  have h2 := hx.nonneg
  obtain ⟨-, -, h3⟩ := carry_range hx hy
  unfold timespecSubtract
  dsimp only
  rw [borrow_eq h3, carry_eq hx hy]
  by_cases hlt : o.x.tvNsec < o.y.tvNsec
  · rw [if_pos hlt, if_pos hlt, if_neg (by dsimp only; omega)]
    dsimp only
    omega
  · rw [if_neg hlt, if_neg hlt]
    split_ifs
    · dsimp only
      omega
    · rfl

/-- **The `y` that a call leaves is fit for another one.** -/
theorem reusable_y : (timespecSubtract o).1.y.Reusable := by
  have h1 := hx.nonneg
  have h2 := hx.lt
  obtain ⟨hc, h3, h4⟩ := carry_range hx hy
  have h5 := hc.gt
  have h6 := hc.lt
  simp only [timespecSubtract, borrow_eq h4]
  split_ifs
  · exact ⟨by simp only; omega, by simp only; omega⟩
  · exact hc

end Call

theorem ret_eq_zero_iff (o : Objects) :
    (timespecSubtract o).2 = 0 ↔ ¬ (timespecSubtract o).2 = 1 := by
  simp only [timespecSubtract]
  split_ifs <;> decide

theorem negative_iff (h : (timespecSubtract o).1.result.Normalized) :
    (timespecSubtract o).2 = 1 ↔ o.x.total < o.y.total := by
  have hdiff := total_subtract o
  have h1 := h.nonneg
  have h2 := h.lt
  have hret : (timespecSubtract o).2 = 1 ↔ (timespecSubtract o).1.result.tvSec < 0 := by
    simp only [timespecSubtract]
    split_ifs
    · exact iff_of_true rfl (by omega)
    · exact iff_of_false (by decide) (by omega)
  rw [hret]
  unfold total at hdiff ⊢
  omega

theorem exact_of_ne (hx : o.x.Normalized) (hy : o.y.Reusable)
    (hne : o.x.tvNsec - o.y.tvNsec ≠ 1000000000) : Exact o := by
  have hnsec := tvNsec_subtract hx hy
  have h1 := hx.nonneg
  have h2 := hx.lt
  have h3 := hy.gt
  have h4 := hy.lt
  have hnorm : (timespecSubtract o).1.result.Normalized := by
    refine ⟨?_, ?_⟩ <;> rw [hnsec] <;> split_ifs <;> omega
  exact ⟨rfl, total_y o, hnorm, total_subtract o, negative_iff hnorm⟩

theorem exact_of_normalized (hx : o.x.Normalized) (hy : o.y.Normalized) : Exact o := by
  refine exact_of_ne hx hy.reusable ?_
  have h1 := hx.lt
  have h2 := hy.nonneg
  omega

/-- **When the call is exact**: unless `x` has exactly one second more in its nanoseconds. -/
theorem exact_iff (hx : o.x.Normalized) (hy : o.y.Reusable) :
    Exact o ↔ o.x.tvNsec - o.y.tvNsec ≠ 1000000000 := by
  constructor
  · intro h heq
    have h1 := hx.nonneg
    have h2 := hy.lt
    have hlt := h.normalized.lt
    rw [tvNsec_subtract hx hy, if_neg (by omega), if_neg (by omega)] at hlt
    omega
  · exact exact_of_ne hx hy

/-- A second call with the `y` of a first one. -/
theorem exact_iff_reused : Exact ⟨⟨0, 0⟩, ⟨2, 600000000⟩, ⟨1, -500000000⟩⟩ ↔
    (600000000 : ℤ) - -500000000 ≠ 1000000000 :=
  exact_iff (o := ⟨⟨0, 0⟩, ⟨2, 600000000⟩, ⟨1, -500000000⟩⟩) ⟨by decide, by decide⟩
    ⟨by decide, by decide⟩

/-- The call that subtracts 0.5 s from 1 s leaves -500000000 ns in `y`. With that `y` the difference
to 1.5 s has a whole second of nanoseconds, and the difference to 0.5 s, the same instant, is called
negative. -/
theorem not_exact :
    (timespecSubtract ⟨⟨0, 0⟩, ⟨1, 0⟩, ⟨0, 500000000⟩⟩).1.y = ⟨1, -500000000⟩ ∧
      (timespecSubtract ⟨⟨0, 500000000⟩, ⟨1, 500000000⟩, ⟨1, -500000000⟩⟩).1.result =
        ⟨0, 1000000000⟩ ∧
      (timespecSubtract ⟨⟨0, 500000000⟩, ⟨0, 500000000⟩, ⟨1, -500000000⟩⟩).2 = 1 ∧
      ¬ Exact ⟨⟨0, 500000000⟩, ⟨1, 500000000⟩, ⟨1, -500000000⟩⟩ := by
  have hresult : (timespecSubtract ⟨⟨0, 500000000⟩, ⟨1, 500000000⟩, ⟨1, -500000000⟩⟩).1.result =
      ⟨0, 1000000000⟩ := by decide
  refine ⟨by decide, hresult, by decide, fun h => ?_⟩
  have hlt := h.normalized.lt
  rw [hresult] at hlt
  exact absurd hlt (by decide)

end Ecen5623.Clock.TimespecSubtract
