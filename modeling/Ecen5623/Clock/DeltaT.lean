import Ecen5623.Clock.TimespecSubtract
import Mathlib.Tactic.ByContra

/-! # The two elapsed-time routines

`delta_t` of `posix_clock.c` takes its cases on the signs of both differences, `timespec_subtract`
rewrites `y`. They agree on which of two times is earlier (`deltaT_ok_iff`). Where `delta_t` borrows
a second it subtracts the negative difference instead of adding it, so the two agree exactly on the
pairs for which it does not come to that (`agree_iff`). -/

namespace Ecen5623.Clock.DeltaT

open Ecen5623.Clock.TimespecSubtract

/-- `NSEC_PER_SEC`. -/
abbrev nsecPerSec : ℤ := 1000000000

/-- `ERROR`. -/
abbrev error : ℤ := -1

/-- `OK`. -/
abbrev ok : ℤ := 0

/-- The return value and what `delta_t` points to afterwards. -/
def deltaT (stop start deltaT : Timespec) : ℤ × Timespec :=
  let dtSec := toInt (stop.tvSec - start.tvSec)
  let dtNsec := toInt (stop.tvNsec - start.tvNsec)
  if dtSec < 0 then (error, deltaT)
  else if dtSec = 0 ∧ dtNsec < 0 then (error, deltaT)
  else if 0 ≤ dtNsec then (ok, { tvSec := dtSec, tvNsec := dtNsec })
  else (ok, { tvSec := dtSec - 1, tvNsec := nsecPerSec - dtNsec })

/-- The routines tell the same pairs from the others and store the same difference. -/
structure Agree (stop start d r : Timespec) : Prop where
  ok : (deltaT stop start d).1 = ok ↔ (timespecSubtract ⟨r, stop, start⟩).2 = 0
  eq : (deltaT stop start d).1 = DeltaT.ok →
    (deltaT stop start d).2 = (timespecSubtract ⟨r, stop, start⟩).1.result

section Cases

variable {stop start d r : Timespec} (hstop : stop.Normalized) (hstart : start.Normalized)
variable (hmin : -2147483648 ≤ stop.tvSec - start.tvSec)
variable (hmax : stop.tvSec - start.tvSec < 2147483648)
include hstop hstart hmin hmax

theorem deltaT_eq : deltaT stop start d =
    if stop.tvSec - start.tvSec < 0 then (error, d)
    else if stop.tvSec - start.tvSec = 0 ∧ stop.tvNsec - start.tvNsec < 0 then (error, d)
    else if 0 ≤ stop.tvNsec - start.tvNsec then
      (ok, ⟨stop.tvSec - start.tvSec, stop.tvNsec - start.tvNsec⟩)
    else
      (ok, ⟨stop.tvSec - start.tvSec - 1, nsecPerSec - (stop.tvNsec - start.tvNsec)⟩) := by
  have h1 := hstop.nonneg
  have h2 := hstop.lt
  have h3 := hstart.nonneg
  have h4 := hstart.lt
  unfold deltaT
  dsimp only
  rw [toInt_of_range hmin hmax, toInt_of_range (by omega) (by omega)]

/-- **`delta_t` returns `OK` if `stop` is not the earlier one.** -/
theorem deltaT_ok_iff : (deltaT stop start d).1 = ok ↔ ¬ stop.total < start.total := by
  have h1 := hstop.nonneg
  have h2 := hstop.lt
  have h3 := hstart.nonneg
  have h4 := hstart.lt
  rw [deltaT_eq hstop hstart hmin hmax]
  unfold Timespec.total
  split_ifs
  · exact iff_of_false (show error ≠ ok by decide) (by omega)
  · exact iff_of_false (show error ≠ ok by decide) (by omega)
  · exact iff_of_true rfl (by omega)
  · exact iff_of_true rfl (by omega)

omit hmin hmax in
theorem timespecSubtract_ok_iff :
    (timespecSubtract ⟨r, stop, start⟩).2 = 0 ↔ ¬ stop.total < start.total := by
  rw [ret_eq_zero_iff, (exact_of_normalized (o := ⟨r, stop, start⟩) hstop hstart).negative]

/-- **When the routines agree**: unless `delta_t` borrows a second. -/
theorem agree_iff : Agree stop start d r ↔
    stop.tvSec ≤ start.tvSec ∨ start.tvNsec ≤ stop.tvNsec := by
  have hexact := exact_of_normalized (o := ⟨r, stop, start⟩) hstop hstart
  have h1 := hstop.nonneg
  have h2 := hstop.lt
  have h3 := hstart.nonneg
  have h4 := hstart.lt
  have hd := deltaT_eq (d := d) hstop hstart hmin hmax
  constructor
  · intro h
    by_contra hne
    rw [if_neg (by omega), if_neg (by omega), if_neg (by omega)] at hd
    -- what is stored has more than a second of nanoseconds
    have heq := h.eq (congrArg Prod.fst hd)
    have hlt := hexact.normalized.lt
    rw [← heq, hd] at hlt
    dsimp only [nsecPerSec] at hlt
    omega
  · intro hcase
    refine ⟨?_, fun hok => ?_⟩
    · rw [deltaT_ok_iff hstop hstart hmin hmax, timespecSubtract_ok_iff hstop hstart]
    · -- no borrow, so the two differences are stored as they are
      have hle := (deltaT_ok_iff hstop hstart hmin hmax).mp hok
      unfold Timespec.total at hle
      rw [if_neg (by omega), if_neg (by omega), if_pos (by omega)] at hd
      rw [hd]
      refine Timespec.Normalized.eq ⟨by dsimp only; omega, by dsimp only; omega⟩
        hexact.normalized ?_
      rw [hexact.difference]
      simp only [Timespec.total]
      omega

end Cases

/-- Two times without a borrow. -/
theorem agree_iff_second : Agree ⟨5, 700000000⟩ ⟨2, 300000000⟩ ⟨0, 0⟩ ⟨0, 0⟩ ↔
    (5 : ℤ) ≤ 2 ∨ (300000000 : ℤ) ≤ 700000000 :=
  agree_iff ⟨by decide, by decide⟩ ⟨by decide, by decide⟩ (by decide) (by decide)

/-- From 1.8 s to 3.3 s it is 1.5 s, and `delta_t` says 1 s and 1500000000 ns. -/
theorem not_agree :
    deltaT ⟨3, 300000000⟩ ⟨1, 800000000⟩ ⟨0, 0⟩ = (ok, ⟨1, 1500000000⟩) ∧
      timespecSubtract ⟨⟨0, 0⟩, ⟨3, 300000000⟩, ⟨1, 800000000⟩⟩ =
        (⟨⟨1, 500000000⟩, ⟨3, 300000000⟩, ⟨2, -200000000⟩⟩, 0) ∧
      ¬ Agree ⟨3, 300000000⟩ ⟨1, 800000000⟩ ⟨0, 0⟩ ⟨0, 0⟩ := by
  refine ⟨by decide, by decide, fun h => ?_⟩
  exact absurd (h.eq (by decide)) (by decide)

end Ecen5623.Clock.DeltaT
