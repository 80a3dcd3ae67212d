import Ecen5623.Library.LockedSections
import Ecen5623.Sieve.Threads

/-! # The sieve under its mutex

Between `LOCK` and `UNLOCK` a thread of `eratosthenes.c` reads one flag and then clears the
multiples one by one, while the other threads wait for the mutex. Taking the passes for single
turns, as `Threads.step` does, is no loss: with the mutex free the threads and the array are exactly
what runs of whole passes make of them (`turns_iff`). -/

namespace Ecen5623.Sieve.Locking

open Ecen5623.Library Ecen5623.Library.LockedSections
open Ecen5623.Sieve.Eratosthenes Ecen5623.Sieve.Threads

/-- Where a thread stands, with its `i` and the `j` of the inner loop. -/
inductive Place where
  | outside (i : ℕ)
  | locked (i : ℕ)
  | skipped (i : ℕ)
  | striking (i j : ℕ)
  deriving DecidableEq, Repr

/-- The threads. A turn of an `i` below 2 does not lock. -/
def code (args : List ThreadArgs) : Code ℕ Place Memory where
  lock
    | k, .outside i => args[k]?.bind fun a =>
      if max i 2 ≤ a.stop then some (.locked (max i 2)) else none
    | _, _ => none
  access
    | _, .locked i, s =>
      let s' := { s with indexed := i :: s.indexed }
      if s.isprimes i = isPrime then
        if i ^ 2 ≤ intMax then some (.striking i (i ^ 2), s') else none
      else some (.skipped i, s')
    | k, .striking i j, s => args[k]?.bind fun a =>
      if j ≤ a.stop then some (.striking i (j + i), strike s j) else none
    | _, _, _ => none
  unlock
    | _, .skipped i => some (.outside (i + 1))
    | k, .striking i j => args[k]?.bind fun a =>
      if j ≤ a.stop then none else some (.outside (i + 1))
    | _, _ => none

/-- The threads between two of their turns. -/
def between (s : Threads.State) : Config ℕ Place Memory where
  locals k := .outside (s.next k)
  mem := s.mem

variable {args : List ThreadArgs} {a : ThreadArgs} {k i : ℕ} {s : Memory}

theorem between_set (t : Threads.State) (k i : ℕ) (mem : Memory) :
    (between t).set k (.outside i) mem = between ⟨mem, Function.update t.next k i⟩ := by
  simp only [between, Config.set, Config.mk.injEq, and_true]
  funext j
  by_cases hj : j = k
  · subst hj
    rw [Function.update_self, Function.update_self]
  · rw [Function.update_of_ne hj, Function.update_of_ne hj]

/-! ### A section is a pass -/

/-- The array after `t` turns of the inner loop. -/
def struck (i t : ℕ) (s : Memory) : Memory :=
  ((List.range t).map fun t => i ^ 2 + i * t).foldl strike { s with indexed := i :: s.indexed }

theorem struck_succ (i t : ℕ) (s : Memory) :
    struck i (t + 1) s = strike (struck i t s) (i ^ 2 + i * t) := by
  simp [struck, List.range_succ]

/-- What a thread can be within its section. -/
inductive Progress (a : ThreadArgs) (i : ℕ) (s : Memory) : Place × Memory → Prop where
  | locked : Progress a i s (.locked i, s)
  | skipped (h : s.isprimes i ≠ isPrime) :
    Progress a i s (.skipped i, { s with indexed := i :: s.indexed })
  | striking (t : ℕ) (h : s.isprimes i = isPrime) (hmax : i ^ 2 ≤ intMax)
    (ht : ∀ t' < t, i ^ 2 + i * t' ≤ a.stop) :
    Progress a i s (.striking i (i ^ 2 + i * t), struck i t s)

theorem progress (ha : args[k]? = some a) {p : Place × Memory}
    (h : Accesses (code args) k (.locked i, s) p) : Progress a i s p := by
  induction h with
  | refl => exact .locked
  | tail _ hacc ih =>
    cases ih with
    | locked =>
      simp only [code] at hacc
      split_ifs at hacc with hflag hmax
      · cases hacc
        exact .striking 0 hflag hmax fun t' ht' => absurd ht' (Nat.not_lt_zero t')
      · cases hacc
        exact .skipped hflag
    | skipped => cases hacc
    | striking t hflag hmax ht =>
      simp only [code, ha, Option.bind_some] at hacc
      split_ifs at hacc with hj
      cases hacc
      rw [← struck_succ, Nat.add_assoc, ← Nat.mul_succ]
      refine .striking (t + 1) hflag hmax fun t' ht' => ?_
      rcases Nat.lt_succ_iff_lt_or_eq.mp ht' with hlt | rfl
      · exact ht t' hlt
      · exact hj

theorem accesses_striking (ha : args[k]? = some a) :
    ∀ t, (∀ t' < t, i ^ 2 + i * t' ≤ a.stop) →
      Accesses (code args) k (.striking i (i ^ 2), struck i 0 s)
        (.striking i (i ^ 2 + i * t), struck i t s)
  | 0, _ => .refl
  | t + 1, ht => by
    refine (accesses_striking ha t fun t' ht' => ht t' (by omega)).tail ?_
    simp only [code, ha, Option.bind_some]
    rw [if_pos (ht t (Nat.lt_succ_self t)), struck_succ, Nat.add_assoc, ← Nat.mul_succ]

theorem passes_iff (hi : 0 < i) {t : ℕ} (ht : ∀ t' < t, i ^ 2 + i * t' ≤ a.stop) :
    a.stop < i ^ 2 + i * t ↔ t = passes (i ^ 2) (a.stop + 1) i := by
  have hlt (t : ℕ) : t < passes (i ^ 2) (a.stop + 1) i ↔ i ^ 2 + i * t < a.stop + 1 :=
    lt_passes_iff hi
  constructor
  · intro h
    refine le_antisymm ?_ (not_lt.mp fun hn => ?_)
    · by_contra hn
      have h1 := ht (passes (i ^ 2) (a.stop + 1) i) (not_le.mp hn)
      have h2 := (hlt _).mpr (Nat.lt_succ_of_le h1)
      exact absurd h2 (lt_irrefl _)
    · have := (hlt t).mp hn
      omega
  · intro h
    by_contra hn
    have := (hlt t).mpr (by omega)
    omega

/-- **A section is a pass of the outer loop.** -/
theorem section_iff (ha : args[k]? = some a) (h2 : 2 ≤ i) {q : Place × Memory} :
    Section (code args) k (.outside i, s) q ↔
      i ≤ a.stop ∧ q.1 = .outside (i + 1) ∧ pass a.stop s i = some q.2 := by
  obtain ⟨l', s'⟩ := q
  have hmax2 : max i 2 = i := by omega
  have hpass : pass a.stop s i = if s.isprimes i = isPrime then
      if i ^ 2 ≤ intMax then some (struck i (passes (i ^ 2) (a.stop + 1) i) s) else none
    else some { s with indexed := i :: s.indexed } := by
    unfold Eratosthenes.pass struck forRange
    rw [if_neg (by omega)]
  have hlock : ∀ l, (code args).lock k (.outside i) = some l ↔ i ≤ a.stop ∧ l = .locked i := by
    intro l
    simp only [code, ha, Option.bind_some, hmax2, Option.ite_none_right_eq_some, Option.some.injEq]
    exact and_congr_right fun _ => eq_comm
  constructor
  · rintro ⟨l₁, l₂, h1, hacc, hunlock⟩
    obtain ⟨hstop, rfl⟩ := (hlock l₁).mp h1
    refine ⟨hstop, ?_⟩
    rw [hpass]
    have hp := progress ha hacc
    dsimp only at hp hunlock ⊢
    cases hp with
    | locked => cases hunlock
    | skipped hflag =>
      cases hunlock
      exact ⟨rfl, if_neg hflag⟩
    | striking t hflag hmax ht =>
      simp only [code, ha, Option.bind_some] at hunlock
      split_ifs at hunlock with hj
      cases hunlock
      rw [if_pos hflag, if_pos hmax, (passes_iff (by omega) ht).mp (not_le.mp hj)]
      exact ⟨rfl, rfl⟩
  · rintro ⟨hstop, h1, h3⟩
    dsimp only at h1 h3
    subst h1
    refine ⟨.locked i, ?_⟩
    rw [hpass] at h3
    split_ifs at h3 with hflag hmax
    · cases h3
      have ht : ∀ t' < passes (i ^ 2) (a.stop + 1) i, i ^ 2 + i * t' ≤ a.stop := fun t' ht' =>
        Nat.le_of_lt_succ ((lt_passes_iff (by omega)).mp ht')
      have hflagged : Accesses (code args) k (.locked i, s)
          (.striking i (i ^ 2), struck i 0 s) := by
        refine .single ?_
        simp only [code]
        rw [if_pos hflag, if_pos hmax]
        rfl
      refine ⟨.striking i (i ^ 2 + i * passes (i ^ 2) (a.stop + 1) i), (hlock _).mpr ⟨hstop, rfl⟩,
        hflagged.trans (accesses_striking ha _ ht), ?_⟩
      · simp only [code, ha, Option.bind_some]
        rw [if_neg (not_le.mpr ((passes_iff (by omega) ht).mpr rfl))]
    · cases h3
      refine ⟨.skipped i, (hlock _).mpr ⟨hstop, rfl⟩, .single ?_, rfl⟩
      simp only [code]
      rw [if_neg hflag]

/-! ### Runs -/

section Run
variable (hstart : ∀ a ∈ args, 2 ≤ a.start) {m : ℕ → ℕ}
include hstart

theorem two_le_init {k : ℕ} (ha : args[k]? = some a) : 2 ≤ (Threads.init args m).next k := by
  simp only [Threads.init, ha, Option.map_some, Option.getD_some]
  exact hstart a (List.mem_of_getElem? ha)

theorem two_le_reach {t : Threads.State}
    (h : Reach (Threads.step args) Any (Threads.init args m) t) :
    ∀ k a, args[k]? = some a → 2 ≤ t.next k := by
  induction h with
  | init => exact fun k a ha => two_le_init hstart ha
  | @step s s' k' _ _ hs ih =>
    intro k a ha
    obtain ⟨r, mem, hr, -, -, rfl⟩ := step_eq_some hs
    dsimp only
    by_cases hk : k = k'
    · subst hk
      rw [Function.update_self]
      have := ih k a ha
      omega
    · rw [Function.update_of_ne hk]
      exact ih k a ha

/-- **Single accesses under the mutex are as good as whole passes**: the states with a free mutex
are exactly those that runs of passes reach. -/
theorem turns_iff (c : Config ℕ Place Memory) :
    Reach (LockedSections.step (code args)) Any (between (Threads.init args m)).start c.start ↔
      ∃ t, Reach (Threads.step args) Any (Threads.init args m) t ∧ c = between t := by
  constructor
  · intro h
    have hserial : Serial (code args) (between (Threads.init args m)) c := serial_of_reach h rfl
    induction hserial with
    | init => exact ⟨_, .init, rfl⟩
    | @sect c k q hc hs ih =>
      obtain ⟨t, ht, rfl⟩ := ih (reach_of_serial hc)
      rcases hk : args[k]? with _ | a
      · obtain ⟨l, -, hlock, -⟩ := hs
        simp [code, between, hk] at hlock
      · obtain ⟨hstop, hq, hpass⟩ := (section_iff hk (two_le_reach hstart ht k a hk)).mp hs
        refine ⟨⟨q.2, Function.update t.next k (t.next k + 1)⟩, ht.step (a := k) trivial ?_, ?_⟩
        · unfold Threads.step
          rw [hk]
          dsimp only
          rw [if_pos hstop, show pass a.stop t.mem (t.next k) = some q.2 from hpass]
          rfl
        · rw [hq, between_set]
  · rintro ⟨t, ht, rfl⟩
    refine reach_of_serial ?_
    induction ht with
    | init => exact .init
    | @step t t' k ht _ hs ih =>
      obtain ⟨a, mem, ha, hle, hpass, rfl⟩ := step_eq_some hs
      have hsect : Section (code args) k ((between t).locals k, (between t).mem)
          (.outside (t.next k + 1), mem) :=
        (section_iff ha (two_le_reach hstart ht k a ha)).mpr ⟨hle, rfl, hpass⟩
      rw [← between_set]
      exact ih.sect hsect

end Run

/-- With the ranges of `main`, after the pass of 2 and one of another thread. -/
theorem turns_iff_main : ∃ t, exec (Threads.step mainArgs) Any
    (Threads.init mainArgs fun _ => isPrime) [0, 1] = some t ∧
      (Reach (LockedSections.step (code mainArgs)) Any
          (between (Threads.init mainArgs fun _ => isPrime)).start (between t).start ↔
        ∃ t', Reach (Threads.step mainArgs) Any (Threads.init mainArgs fun _ => isPrime) t' ∧
          between t = between t') :=
  Reach.exists_exec (by decide) fun t _ => turns_iff (by decide) (between t)

end Ecen5623.Sieve.Locking
