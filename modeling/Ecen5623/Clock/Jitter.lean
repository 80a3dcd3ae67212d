import Ecen5623.Clock.TimespecSubtract
import Mathlib.Order.Bounds.Basic
import Mathlib.Tactic.ByContra

/-! # The extremes of the jitter

The frame thread of `jitter/sequencer.c`. At every wake-up it takes the time, subtracts the time of
the wake-up before and compares the nanoseconds of the difference with `jitter_max` and
`jitter_min`. The seconds of the difference are printed nowhere and compared with nothing, so an
interval enters as its remainder modulo a second (`loop_posted`), and the extremes are those of the
intervals if and only if no interval reaches a second (`extremes_iff`). -/

namespace Ecen5623.Clock.Jitter

open Ecen5623.Clock.TimespecSubtract

/-- `INT_MAX`. -/
abbrev intMax : ℤ := 2147483647

/-- `INT_MIN`. -/
abbrev intMin : ℤ := -2147483648

/-- The local times of `frame` and the two globals. -/
structure Frame where
  tickPrev : Timespec
  diff : Timespec
  jitterMax : ℤ
  jitterMin : ℤ
  deriving DecidableEq, Repr

/-- One return of `sem_wait`: the time read after it, and whether the wait failed with `EINTR`. -/
structure Wake where
  tick : Timespec
  eintr : Bool
  deriving DecidableEq, Repr

/-- A wake-up by `sem_post`. -/
def Wake.posted (tick : Timespec) : Wake := ⟨tick, false⟩

/-- The comparison with the time before; `timespec_subtract` rewrites `tick_prev`. -/
def compare (s : Frame) (tick : Timespec) : Frame :=
  if s.tickPrev.tvSec ≠ 0 then
    let o := (timespecSubtract ⟨s.diff, tick, s.tickPrev⟩).1
    { tickPrev := o.y
      diff := o.result
      jitterMax := if o.result.tvNsec > s.jitterMax then o.result.tvNsec else s.jitterMax
      jitterMin := if o.result.tvNsec < s.jitterMin then o.result.tvNsec else s.jitterMin }
  else s

/-- One pass of the loop; after an interrupted wait it goes on without `tick_prev = tick`. -/
def pass (s : Frame) (w : Wake) : Frame :=
  let s' := compare s w.tick
  if w.eintr then s' else { s' with tickPrev := w.tick }

/-- The passes until `running` is cleared. -/
def loop (s : Frame) (ws : List Wake) : Frame := ws.foldl pass s

/-- `tick_prev` after the `memset`; `diff` holds what the stack held. -/
def start (diff : Timespec) : Frame := ⟨⟨0, 0⟩, diff, intMin, intMax⟩

/-- `frame`. -/
def frame (diff : Timespec) (ws : List Wake) : Frame := loop (start diff) ws

/-! ### Intervals -/

/-- The intervals in nanoseconds from `t` on. -/
def gaps (t : Timespec) : List Timespec → List ℤ
  | [] => []
  | u :: us => (u.total - t.total) :: gaps u us

/-- The intervals between consecutive times. -/
def intervals : List Timespec → List ℤ
  | [] => []
  | t :: ts => gaps t ts

/-- What `jitter_max` and `jitter_min` are for. -/
structure Extremes (ds : List ℤ) (s : Frame) : Prop where
  max : IsGreatest {d | d ∈ ds} s.jitterMax
  min : IsLeast {d | d ∈ ds} s.jitterMin

/-- The times `clock_gettime` gives: normalized and never in the first second. -/
structure Tick (t : Timespec) : Prop where
  normalized : t.Normalized
  sec : t.tvSec ≠ 0

variable {s : Frame} {t u : Timespec} {ts : List Timespec}

/-! ### One pass -/

theorem tvNsec_emod {o : Objects} (hx : o.x.Normalized) (hy : o.y.Normalized) :
    (timespecSubtract o).1.result.tvNsec = (o.x.total - o.y.total) % 1000000000 := by
  have hexact := exact_of_normalized hx hy
  have h1 := hexact.normalized.nonneg
  have h2 := hexact.normalized.lt
  have h3 := hexact.difference
  unfold Timespec.total at h3 ⊢
  omega

@[simp] theorem pass_posted_tickPrev (s : Frame) (u : Timespec) :
    (pass s (Wake.posted u)).tickPrev = u := rfl

theorem pass_first (h : s.tickPrev.tvSec = 0) :
    pass s (Wake.posted u) = { s with tickPrev := u } := by
  simp only [pass, Wake.posted, compare, h, ne_eq, not_true_eq_false, if_false, Bool.false_eq_true]

theorem pass_next (hs : s.tickPrev = t) (ht : Tick t) (hu : Tick u) :
    (pass s (Wake.posted u)).jitterMax = max s.jitterMax ((u.total - t.total) % 1000000000) ∧
    (pass s (Wake.posted u)).jitterMin = min s.jitterMin ((u.total - t.total) % 1000000000) := by
  subst hs
  have hn := tvNsec_emod (o := ⟨s.diff, u, s.tickPrev⟩) hu.normalized ht.normalized
  dsimp only at hn
  simp only [pass, Wake.posted, compare, ht.sec, ne_eq, not_false_eq_true, if_true,
    Bool.false_eq_true, if_false, hn]
  constructor
  · split_ifs <;> omega
  · split_ifs <;> omega

/-! ### The whole loop -/

theorem loop_cons (s : Frame) (w : Wake) (ws : List Wake) :
    loop s (w :: ws) = loop (pass s w) ws := rfl

/-- **The largest and the smallest remainder**, together with what was there before. -/
theorem loop_posted (hs : s.tickPrev = t) (ht : Tick t) (hts : ∀ u ∈ ts, Tick u) :
    (loop s (ts.map Wake.posted)).jitterMax =
      ((gaps t ts).map (· % 1000000000)).foldl max s.jitterMax ∧
    (loop s (ts.map Wake.posted)).jitterMin =
      ((gaps t ts).map (· % 1000000000)).foldl min s.jitterMin := by
  induction ts generalizing s t with
  | nil => exact ⟨rfl, rfl⟩
  | cons u us ih =>
    have hu := hts u List.mem_cons_self
    obtain ⟨hmax, hmin⟩ := pass_next hs ht hu
    obtain ⟨ihmax, ihmin⟩ := ih (pass_posted_tickPrev s u) hu
      fun v hv => hts v (List.mem_cons_of_mem u hv)
    rw [List.map_cons, loop_cons]
    constructor
    · rw [ihmax, hmax]
      rfl
    · rw [ihmin, hmin]
      rfl

/-! ### The extremes -/

theorem isGreatest_foldl {ds : List ℤ} {a : ℤ} (hne : ds ≠ []) (h : ∀ d ∈ ds, a ≤ d) :
    IsGreatest {d | d ∈ ds} (ds.foldl max a) := by
  obtain ⟨d, ds, rfl⟩ := List.exists_cons_of_ne_nil hne
  rw [List.foldl_cons, max_eq_right (h d List.mem_cons_self)]
  have hmax : (d :: ds).max? = some (ds.foldl max d) := List.max?_cons'
  exact List.max?_eq_some_iff.mp hmax

theorem isLeast_foldl {ds : List ℤ} {a : ℤ} (hne : ds ≠ []) (h : ∀ d ∈ ds, d ≤ a) :
    IsLeast {d | d ∈ ds} (ds.foldl min a) := by
  obtain ⟨d, ds, rfl⟩ := List.exists_cons_of_ne_nil hne
  rw [List.foldl_cons, min_eq_right (h d List.mem_cons_self)]
  have hmin : (d :: ds).min? = some (ds.foldl min d) := List.min?_cons'
  exact List.min?_eq_some_iff.mp hmin

theorem gaps_pos (h : (t :: ts).Pairwise fun u v => u.total < v.total) :
    ∀ d ∈ gaps t ts, 0 < d := by
  induction ts generalizing t with
  | nil => exact fun d hd => absurd hd List.not_mem_nil
  | cons u us ih =>
    obtain ⟨hlt, hus⟩ := List.pairwise_cons.mp h
    intro d hd
    rcases List.mem_cons.mp hd with rfl | hd
    · have := hlt u List.mem_cons_self
      omega
    · exact ih hus d hd

/-- **The extremes of the remainders**: what a run with a later wake-up stores. -/
theorem extremes_emod (diff : Timespec) (hne : ts ≠ []) (ht : Tick t) (hts : ∀ u ∈ ts, Tick u) :
    Extremes ((gaps t ts).map (· % 1000000000)) (frame diff ((t :: ts).map Wake.posted)) := by
  have hlist : (gaps t ts).map (· % 1000000000) ≠ [] := by
    obtain ⟨u, us, rfl⟩ := List.exists_cons_of_ne_nil hne
    exact List.cons_ne_nil _ _
  have hrange : ∀ d ∈ (gaps t ts).map (· % 1000000000), intMin ≤ d ∧ d ≤ intMax := by
    intro d hd
    obtain ⟨e, -, rfl⟩ := List.mem_map.mp hd
    dsimp only [intMin, intMax]
    omega
  -- the first wake-up only fills `tick_prev`
  have hframe : frame diff ((t :: ts).map Wake.posted) =
      loop { start diff with tickPrev := t } (ts.map Wake.posted) := by
    rw [frame, List.map_cons, loop_cons, pass_first rfl]
  obtain ⟨hmax, hmin⟩ := loop_posted (s := { start diff with tickPrev := t }) rfl ht hts
  rw [hframe]
  constructor
  · rw [hmax]
    exact isGreatest_foldl hlist fun d hd => (hrange d hd).1
  · rw [hmin]
    exact isLeast_foldl hlist fun d hd => (hrange d hd).2

/-- **When the extremes are right**: if every interval is less than a second. -/
theorem extremes_iff (diff : Timespec) {ticks : List Timespec} (hlen : 2 ≤ ticks.length)
    (hticks : ∀ t ∈ ticks, Tick t) (hlt : ticks.Pairwise fun u v => u.total < v.total) :
    Extremes (intervals ticks) (frame diff (ticks.map Wake.posted)) ↔
      ∀ d ∈ intervals ticks, d < 1000000000 := by
  obtain ⟨t, ts, rfl⟩ : ∃ t ts, ticks = t :: ts :=
    List.exists_cons_of_length_pos (by omega)
  have hne : ts ≠ [] := by
    rintro rfl
    simp only [List.length_singleton] at hlen
    omega
  have hemod := extremes_emod diff hne (hticks t List.mem_cons_self)
    fun u hu => hticks u (List.mem_cons_of_mem t hu)
  constructor
  · intro h d hd
    -- what is stored is a remainder, so it is below a second, and no interval is above it
    obtain ⟨e, -, he⟩ := List.mem_map.mp hemod.max.1
    have hle := h.max.2 hd
    omega
  · intro h
    have hpos := gaps_pos hlt
    have hmap : (gaps t ts).map (· % 1000000000) = (gaps t ts).map fun d => d :=
      List.map_congr_left fun d hd => Int.emod_eq_of_lt (hpos d hd).le (h d hd)
    rw [hmap, List.map_id'] at hemod
    exact hemod

/-- Three wake-ups, 10 ms and 12 ms apart. -/
theorem extremes_iff_quiet :
    Extremes (intervals [⟨1, 985000000⟩, ⟨1, 995000000⟩, ⟨2, 7000000⟩]) (frame ⟨0, 0⟩
        ([⟨1, 985000000⟩, ⟨1, 995000000⟩, ⟨2, 7000000⟩].map Wake.posted)) ↔
      ∀ d ∈ intervals [⟨1, 985000000⟩, ⟨1, 995000000⟩, ⟨2, 7000000⟩], d < 1000000000 := by
  refine extremes_iff ⟨0, 0⟩ (by decide) ?_ (by decide)
  intro t ht
  simp only [List.mem_cons, List.not_mem_nil, or_false] at ht
  rcases ht with rfl | rfl | rfl
  all_goals exact ⟨⟨by decide, by decide⟩, by decide⟩

/-- A stall of 1.5 s counts as one of 0.5 s. -/
theorem not_extremes :
    intervals [⟨1, 0⟩, ⟨2, 500000000⟩] = [1500000000] ∧
      (frame ⟨0, 0⟩ [Wake.posted ⟨1, 0⟩, Wake.posted ⟨2, 500000000⟩]).jitterMax = 500000000 ∧
      (frame ⟨0, 0⟩ [Wake.posted ⟨1, 0⟩, Wake.posted ⟨2, 500000000⟩]).jitterMin = 500000000 ∧
      ¬ Extremes (intervals [⟨1, 0⟩, ⟨2, 500000000⟩])
        (frame ⟨0, 0⟩ [Wake.posted ⟨1, 0⟩, Wake.posted ⟨2, 500000000⟩]) := by
  refine ⟨by decide, by decide, by decide, fun h => ?_⟩
  exact absurd h.max.1 (by decide)

end Ecen5623.Clock.Jitter
