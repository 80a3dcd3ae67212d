import Ecen5623.Clock.Jitter
import Mathlib.Tactic.Linarith
import Mathlib.Tactic.NormNum
import Mathlib.Algebra.Order.Field.Basic
import Mathlib.Data.Rat.Cast.Order

/-! # The profile of the frames

`frame` of `capture.c` under `PROFILE_FRAMES`. It adds up the milliseconds between the frames, each
interval rounded down, and counts them until there are `PROFILE_ITERS`; from the seventh frame on it
compares the nanoseconds of the interval with the jitter extremes. The average it prints is below
the mean interval by less than a millisecond, over any number of frames (`average_run`). -/

namespace Ecen5623.Clock.FrameProfile

open Ecen5623.Clock.TimespecSubtract Ecen5623.Clock.Jitter

/-- `PROFILE_ITERS`. -/
abbrev profileIters : ℕ := 500

/-- The local variables of the profile, and `running`. -/
structure Profile where
  timestampLast : Timespec
  diff : Timespec
  averageMs : ℤ
  averageCount : ℕ
  jitterDelayCount : ℕ
  jitterMax : ℤ
  jitterMin : ℤ
  running : Bool
  deriving DecidableEq, Repr

/-- The interval to the last frame; a negative one is reported and not counted. -/
def interval (s : Profile) (timestamp : Timespec) : Profile :=
  if s.timestampLast.tvSec ≠ 0 then
    let (o, ret) := timespecSubtract ⟨s.diff, timestamp, s.timestampLast⟩
    if ret = 0 then
      { s with
        diff := o.result
        averageMs := s.averageMs + (o.result.tvSec * 1000 + o.result.tvNsec.tdiv 1000000)
        averageCount := s.averageCount + 1 }
    else { s with diff := o.result }
  else s

/-- The comparison with the extremes, which the first six frames do not take part in. -/
def judge (s : Profile) : Profile :=
  if s.jitterDelayCount > 5 then
    { s with
      jitterDelayCount := s.jitterDelayCount + 1
      jitterMax := if s.diff.tvNsec > s.jitterMax then s.diff.tvNsec else s.jitterMax
      jitterMin := if s.diff.tvNsec < s.jitterMin then s.diff.tvNsec else s.jitterMin }
  else { s with jitterDelayCount := s.jitterDelayCount + 1 }

/-- A frame with its time. -/
def frameStep (s : Profile) (timestamp : Timespec) : Profile :=
  let s' := judge { interval s timestamp with timestampLast := timestamp }
  { s' with running := if s'.averageCount = profileIters then false else s'.running }

/-- The frames until `running` is cleared. -/
def loop (s : Profile) : List Timespec → Profile
  | [] => s
  | t :: ts => if s.running then loop (frameStep s t) ts else s

/-- `timestamp_last` after the `memset`; `diff` holds what the stack held. -/
def start (diff : Timespec) : Profile where
  timestampLast := ⟨0, 0⟩
  diff := diff
  averageMs := 0
  averageCount := 0
  jitterDelayCount := 0
  jitterMax := intMin
  jitterMin := intMax
  running := true

/-- **What the profile says of the frames it has seen**, the first at `t` and the others at `us`. -/
structure Profiled (t : Timespec) (us : List Timespec) (s : Profile) : Prop where
  count : s.averageCount = us.length
  lower : 1000000 * s.averageMs ≤ (us.getLastD t).total - t.total
  upper : (us.getLastD t).total - t.total ≤ 1000000 * s.averageMs + 999999 * s.averageCount
  jitterMax : s.jitterMax = (((gaps t us).drop 5).map (· % 1000000000)).foldl max intMin
  jitterMin : s.jitterMin = (((gaps t us).drop 5).map (· % 1000000000)).foldl min intMax
  running : s.running = true ↔ us.length ≠ profileIters

/-- The average frame time that is printed, in milliseconds. -/
def average (s : Profile) : ℚ := s.averageMs / s.averageCount

/-- The mean interval in milliseconds. -/
def mean (t : Timespec) (us : List Timespec) : ℚ :=
  ((us.getLastD t).total - t.total : ℤ) / (1000000 * us.length)

/-- The variables that the next frame looks at. -/
structure Ready (t : Timespec) (us : List Timespec) (s : Profile) : Prop where
  profiled : Profiled t us s
  timestampLast : s.timestampLast = us.getLastD t
  jitterDelayCount : s.jitterDelayCount = us.length + 1

variable {s : Profile} {t u : Timespec} {us vs : List Timespec}

/-! ### The intervals -/

theorem length_gaps (t : Timespec) (us : List Timespec) : (gaps t us).length = us.length := by
  induction us generalizing t with
  | nil => rfl
  | cons u us ih => rw [gaps, List.length_cons, ih, List.length_cons]

theorem gaps_concat (t : Timespec) (us : List Timespec) (u : Timespec) :
    gaps t (us ++ [u]) = gaps t us ++ [u.total - (us.getLastD t).total] := by
  induction us generalizing t with
  | nil => rfl
  | cons v us ih => rw [List.cons_append, gaps, ih, gaps, List.cons_append, List.getLastD_cons]

/-! ### One frame -/

theorem judge_eq (s : Profile) : judge s =
    { s with
      jitterDelayCount := s.jitterDelayCount + 1
      jitterMax := if s.jitterDelayCount > 5 then max s.jitterMax s.diff.tvNsec else s.jitterMax
      jitterMin := if s.jitterDelayCount > 5 then min s.jitterMin s.diff.tvNsec
        else s.jitterMin } := by
  unfold judge
  split_ifs <;> simp only [Profile.mk.injEq, true_and, and_true] <;> omega

theorem interval_next (hlast : s.timestampLast = t) (ht : Tick t) (hu : Tick u)
    (hle : t.total ≤ u.total) :
    ∃ d r, interval s u =
        { s with diff := d, averageMs := s.averageMs + r, averageCount := s.averageCount + 1 } ∧
      1000000 * r ≤ u.total - t.total ∧ u.total - t.total ≤ 1000000 * r + 999999 ∧
      d.tvNsec = (u.total - t.total) % 1000000000 := by
  subst hlast
  have hexact := exact_of_normalized (o := ⟨s.diff, u, s.timestampLast⟩) hu.normalized ht.normalized
  have hret : (timespecSubtract ⟨s.diff, u, s.timestampLast⟩).2 = 0 := by
    rw [ret_eq_zero_iff, hexact.negative]
    exact not_lt.mpr hle
  have h1 := hexact.normalized.nonneg
  have h2 := hexact.normalized.lt
  have h3 := hexact.difference
  have hnsec := tvNsec_emod (o := ⟨s.diff, u, s.timestampLast⟩) hu.normalized ht.normalized
  have hstep : interval s u =
      { s with
        diff := (timespecSubtract ⟨s.diff, u, s.timestampLast⟩).1.result
        averageMs := s.averageMs +
          ((timespecSubtract ⟨s.diff, u, s.timestampLast⟩).1.result.tvSec * 1000 +
            (timespecSubtract ⟨s.diff, u, s.timestampLast⟩).1.result.tvNsec.tdiv 1000000)
        averageCount := s.averageCount + 1 } := by
    rw [interval, if_pos ht.sec]
    exact if_pos hret
  refine ⟨_, _, hstep, ?_, ?_, hnsec⟩
  · rw [Int.tdiv_eq_ediv_of_nonneg h1]
    unfold Timespec.total at h3 ⊢
    dsimp only at h3
    omega
  · rw [Int.tdiv_eq_ediv_of_nonneg h1]
    unfold Timespec.total at h3 ⊢
    dsimp only at h3
    omega

theorem ready_first (diff : Timespec) (t : Timespec) : Ready t [] (frameStep (start diff) t) := by
  refine ⟨⟨rfl, ?_, ?_, rfl, rfl, ?_⟩, rfl, rfl⟩
  · simp [frameStep, judge, interval, start]
  · simp [frameStep, judge, interval, start]
  · simp [frameStep, judge, interval, start]

/-- **A frame**. -/
theorem ready_frameStep (h : Ready t us s) (ht : Tick (us.getLastD t)) (hu : Tick u)
    (hle : (us.getLastD t).total ≤ u.total) (hlt : us.length < profileIters) :
    Ready t (us ++ [u]) (frameStep s u) := by
  obtain ⟨⟨hcount, hlower, hupper, hmax, hmin, hrun⟩, hlast, hdelay⟩ := h
  obtain ⟨d, r, heq, hr1, hr2, hd⟩ := interval_next hlast ht hu hle
  have hdrop : (gaps t (us ++ [u])).drop 5 = (gaps t us).drop 5 ++
      if us.length + 1 > 5 then [u.total - (us.getLastD t).total] else [] := by
    rw [gaps_concat, List.drop_append, length_gaps]
    congr 1
    split_ifs with h5
    · rw [Nat.sub_eq_zero_of_le (by omega), List.drop_zero]
    · exact List.drop_eq_nil_of_le (by rw [List.length_singleton]; omega)
  have hstep : frameStep s u =
      { timestampLast := u
        diff := d
        averageMs := s.averageMs + r
        averageCount := us.length + 1
        jitterDelayCount := us.length + 1 + 1
        jitterMax := if us.length + 1 > 5 then max s.jitterMax d.tvNsec else s.jitterMax
        jitterMin := if us.length + 1 > 5 then min s.jitterMin d.tvNsec else s.jitterMin
        running := if us.length + 1 = profileIters then false else true } := by
    simp only [frameStep, judge_eq, heq, hcount, hdelay, hrun.mpr (by omega : us.length ≠ _)]
  rw [hstep]
  refine ⟨⟨?_, ?_, ?_, ?_, ?_, ?_⟩, ?_, ?_⟩
  · simp
  · rw [List.getLastD_concat]
    dsimp only
    omega
  · rw [List.getLastD_concat]
    dsimp only
    omega
  · rw [hdrop, List.map_append, List.foldl_append, ← hmax]
    dsimp only
    split_ifs <;> simp [hd]
  · rw [hdrop, List.map_append, List.foldl_append, ← hmin]
    dsimp only
    split_ifs <;> simp [hd]
  · simp
  · simp
  · simp

/-! ### All frames -/

theorem profiled_loop (h : Ready t vs s) (ht : Tick (vs.getLastD t)) (hus : ∀ u ∈ us, Tick u)
    (hmono : (vs.getLastD t :: us).Pairwise fun u v => u.total ≤ v.total)
    (hle : vs.length ≤ profileIters) :
    Profiled t (vs ++ us.take (profileIters - vs.length)) (loop s us) := by
  induction us generalizing vs s with
  | nil => simpa [loop] using h.profiled
  | cons u us ih =>
    obtain ⟨hfirst, hrest⟩ := List.pairwise_cons.mp hmono
    have hu := hus u List.mem_cons_self
    unfold loop
    by_cases hstop : vs.length = profileIters
    · have hrun : ¬ s.running = true := by rw [h.profiled.running, not_not, hstop]
      rw [if_neg hrun, hstop, Nat.sub_self, List.take_zero, List.append_nil]
      exact h.profiled
    · have hlast : (vs ++ [u]).getLastD t = u := List.getLastD_concat
      have hlen : (vs ++ [u]).length = vs.length + 1 := List.length_append
      have hready := ready_frameStep h ht hu (hfirst u List.mem_cons_self) (by omega)
      have hafter := ih hready (by rwa [hlast]) (fun v hv => hus v (List.mem_cons_of_mem u hv))
        (by rwa [hlast]) (by omega)
      have htake : (u :: us).take (profileIters - vs.length) =
          u :: us.take (profileIters - (vs ++ [u]).length) := by
        rw [hlen, show profileIters - vs.length = profileIters - (vs.length + 1) + 1 by omega,
          List.take_succ_cons]
      rw [if_pos (h.profiled.running.mpr hstop), htake]
      rwa [List.append_assoc, List.singleton_append] at hafter

/-- **The average is below the mean by less than a millisecond.** -/
theorem Profiled.average (h : Profiled t us s) (hne : us ≠ []) :
    average s ≤ mean t us ∧ mean t us < average s + 1 := by
  have hpos : (0 : ℚ) < us.length := by exact_mod_cast List.length_pos_iff.mpr hne
  have hlower : (1000000 * s.averageMs : ℚ) ≤ ((us.getLastD t).total - t.total : ℤ) := by
    exact_mod_cast h.lower
  have hupper : (((us.getLastD t).total - t.total : ℤ) : ℚ) ≤
      1000000 * s.averageMs + 999999 * us.length := by
    have := h.upper
    rw [h.count] at this
    exact_mod_cast this
  unfold FrameProfile.average mean
  rw [h.count]
  constructor
  · rw [div_le_div_iff₀ hpos (by linarith)]
    nlinarith
  · rw [div_add_one hpos.ne', div_lt_div_iff₀ (by linarith) hpos]
    nlinarith

/-- **The profile of the frames**: of the first one and of up to `PROFILE_ITERS` after it. -/
theorem average_run (diff : Timespec) (ht : Tick t) (hus : ∀ u ∈ us, Tick u)
    (hmono : (t :: us).Pairwise fun u v => u.total ≤ v.total) :
    Profiled t (us.take profileIters) (loop (start diff) (t :: us)) ∧
      (us ≠ [] → average (loop (start diff) (t :: us)) ≤ mean t (us.take profileIters) ∧
        mean t (us.take profileIters) < average (loop (start diff) (t :: us)) + 1) := by
  have hprofiled : Profiled t (us.take profileIters) (loop (start diff) (t :: us)) :=
    profiled_loop (ready_first diff t) ht hus hmono (Nat.zero_le _)
  refine ⟨hprofiled, fun hne => hprofiled.average ?_⟩
  rw [ne_eq, List.take_eq_nil_iff]
  simpa using hne

/-- Three frames, 33.4 ms and 33.9 ms apart: two times 33 ms. -/
theorem average_run_three : Profiled ⟨1, 0⟩ [⟨1, 33400000⟩, ⟨1, 67300000⟩]
      (loop (start ⟨0, 0⟩) [⟨1, 0⟩, ⟨1, 33400000⟩, ⟨1, 67300000⟩]) ∧
    average (loop (start ⟨0, 0⟩) [⟨1, 0⟩, ⟨1, 33400000⟩, ⟨1, 67300000⟩]) = 33 := by
  have hticks : ∀ u ∈ [(⟨1, 33400000⟩ : Timespec), ⟨1, 67300000⟩], Tick u := by
    intro u hu
    simp only [List.mem_cons, List.not_mem_nil, or_false] at hu
    rcases hu with rfl | rfl
    all_goals exact ⟨⟨by decide, by decide⟩, by decide⟩
  obtain ⟨h, -⟩ := average_run (t := ⟨1, 0⟩) ⟨0, 0⟩ ⟨⟨by decide, by decide⟩, by decide⟩ hticks
    (by decide)
  refine ⟨h, ?_⟩
  have hms : (loop (start ⟨0, 0⟩) [⟨1, 0⟩, ⟨1, 33400000⟩, ⟨1, 67300000⟩]).averageMs = 66 := by
    decide
  have hcount := h.count
  unfold average
  rw [hms, hcount]
  norm_num

end Ecen5623.Clock.FrameProfile
