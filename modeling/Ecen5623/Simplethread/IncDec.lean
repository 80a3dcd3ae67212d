import Ecen5623.Library.Transition
import Mathlib.Algebra.BigOperators.Intervals
import Mathlib.Algebra.Order.BigOperators.Group.Finset
import Mathlib.Tactic.Linarith

/-! # A sum without a lock

`incdecthread.c`: one thread adds 0, 1, ... to `gsum` and the other one subtracts the same numbers,
each with a read and a write that the other thread can come between. Either thread can overwrite
what the other one has done since the read, and nothing else can go wrong: the values that `gsum`
can have in the end are exactly those between minus the whole sum and the whole sum (`final_iff`).
The arithmetic is exact; by the bounds `int` is wide enough for the program's `COUNT`. -/

namespace Ecen5623.Simplethread.IncDec

open Ecen5623.Library

/-- `incThread` and `decThread`. -/
inductive Thread where
  | inc
  | dec
  deriving DecidableEq, Repr

/-- What the thread makes of the `gsum` it has read, in turn `i` of its loop. -/
def Thread.apply : Thread → ℤ → ℕ → ℤ
  | .inc, reg, i => reg + i
  | .dec, reg, i => reg - i

/-- Where a thread is: at the head of its loop, about to write `gsum`, or about to print it. -/
inductive Pc where
  | test
  | store (reg : ℤ)
  | print
  | returned
  deriving DecidableEq, Repr

/-- The program; `printed` is the output of both threads, the last line first. -/
structure State where
  gsum : ℤ
  i : Thread → ℕ
  pc : Thread → Pc
  printed : List (Thread × ℤ)

/-- Thread `t` goes on to `l`. -/
def State.goto (s : State) (t : Thread) (l : Pc) : State :=
  { s with pc := Function.update s.pc t l }

/-- One access of a thread to `gsum`, or its return; `count` is `COUNT`. -/
def step (count : ℕ) (s : State) (t : Thread) : Option State :=
  match s.pc t with
  | .test => some (s.goto t (if s.i t < count then .store s.gsum else .returned))
  | .store reg => some ({ s with gsum := t.apply reg (s.i t) }.goto t .print)
  | .print =>
    some ({ s with printed := (t, s.gsum) :: s.printed,
                   i := Function.update s.i t (s.i t + 1) }.goto t .test)
  | .returned => none

def init : State where
  gsum := 0
  i _ := 0
  pc _ := .test
  printed := []

/-- The sum of the numbers below `n`. -/
def total (n : ℕ) : ℕ := ∑ i ∈ Finset.range n, i

variable {count : ℕ} {s s' : State} {t : Thread}

/-! ### The bounds -/

/-- The writes that a thread has made. -/
def stored (s : State) (t : Thread) : ℕ := s.i t + if s.pc t = .print then 1 else 0

/-- What `gsum` can be by now: each write moves it by no more than its number. -/
def Within (s : State) (x : ℤ) : Prop :=
  -(total (stored s .dec) : ℤ) ≤ x ∧ x ≤ total (stored s .inc)

structure Inv (count : ℕ) (s : State) : Prop where
  gsum : Within s s.gsum
  reg : ∀ t reg, s.pc t = .store reg → Within s reg
  printed : ∀ l ∈ s.printed, Within s l.2
  stored_le : ∀ t, stored s t ≤ count
  storing : ∀ t reg, s.pc t = .store reg → s.i t < count
  returned : ∀ t, s.pc t = .returned → s.i t = count

theorem total_succ (n : ℕ) : total (n + 1) = total n + n := Finset.sum_range_succ ..

/-- The sum of the program is far below `INT_MAX`. -/
example : total 1000 = 499500 := by decide +kernel

theorem total_mono {m n : ℕ} (h : m ≤ n) : total m ≤ total n :=
  Finset.sum_le_sum_of_subset (Finset.range_mono h)

theorem Within.mono {x : ℤ} (h : Within s x) (hle : ∀ t, stored s t ≤ stored s' t) :
    Within s' x := by
  have h1 := total_mono (hle .inc)
  have h2 := total_mono (hle .dec)
  unfold Within at *
  omega

theorem inv_init : Inv count init := by
  constructor <;> simp [init, Within, stored, total]

theorem Inv.turn (hs : Inv count s) {l : Pc} {k : ℕ}
    (hi : s'.i = Function.update s.i t k) (hpc : s'.pc = Function.update s.pc t l)
    (hle : stored s t ≤ stored s' t) (hcount : stored s' t ≤ count) (hg : Within s' s'.gsum)
    (hreg : ∀ reg, l = .store reg → Within s' reg ∧ k < count)
    (hprinted : ∀ p ∈ s'.printed, p ∈ s.printed ∨ p.2 = s.gsum)
    (hreturned : l = .returned → k = count) : Inv count s' := by
  have hother : ∀ t' ≠ t, s'.i t' = s.i t' ∧ s'.pc t' = s.pc t' := by
    intro t' ht
    rw [hi, hpc, Function.update_of_ne ht, Function.update_of_ne ht]
    exact ⟨rfl, rfl⟩
  have hself : s'.i t = k ∧ s'.pc t = l := by rw [hi, hpc]; simp
  have hmono : ∀ t', stored s t' ≤ stored s' t' := by
    intro t'
    by_cases ht : t' = t
    · rwa [ht]
    · rw [stored, stored, (hother t' ht).1, (hother t' ht).2]
  refine ⟨hg, fun t' reg h => ?_, fun p hp => ?_, fun t' => ?_, fun t' reg h => ?_, fun t' h => ?_⟩
  · by_cases ht : t' = t
    · subst ht
      exact (hreg reg (hself.2.symm.trans h)).1
    · exact (hs.reg t' reg ((hother t' ht).2.symm.trans h)).mono hmono
  · obtain hp | hp := hprinted p hp
    · exact (hs.printed p hp).mono hmono
    · rw [hp]
      exact hs.gsum.mono hmono
  · by_cases ht : t' = t
    · rwa [ht]
    · rw [stored, (hother t' ht).1, (hother t' ht).2]
      exact hs.stored_le t'
  · by_cases ht : t' = t
    · subst ht
      rw [hself.1]
      exact (hreg reg (hself.2.symm.trans h)).2
    · rw [(hother t' ht).1]
      exact hs.storing t' reg ((hother t' ht).2.symm.trans h)
  · by_cases ht : t' = t
    · subst ht
      rw [hself.1]
      exact hreturned (hself.2.symm.trans h)
    · rw [(hother t' ht).1]
      exact hs.returned t' ((hother t' ht).2.symm.trans h)

theorem inv_step (hs : Inv count s) (h : step count s t = some s') : Inv count s' := by
  have hcount := hs.stored_le t
  unfold step at h
  cases hpc : s.pc t with
  | test =>
    simp only [hpc, Option.some.injEq] at h
    subst h
    have hsame : stored (s.goto t (if s.i t < count then .store s.gsum else .returned)) =
        stored s := by
      funext t'
      by_cases ht : t' = t
      · subst ht
        simp only [stored, State.goto, Function.update_self, hpc]
        split_ifs <;> simp_all
      · simp [stored, State.goto, ht]
    have hwithin : ∀ x, Within s x →
        Within (s.goto t (if s.i t < count then .store s.gsum else .returned)) x := by
      intro x hx
      rwa [Within, hsame]
    refine hs.turn (k := s.i t) (by simp [State.goto]) rfl (by rw [hsame]) (by rwa [hsame])
      (hwithin _ hs.gsum) (fun reg hreg => ?_) (fun p hp => .inl hp) fun hret => ?_
    · split_ifs at hreg with hlt
      obtain rfl := Pc.store.inj hreg
      exact ⟨hwithin _ hs.gsum, hlt⟩
    · split_ifs at hret with hlt
      rw [stored, hpc] at hcount
      simp at hcount
      omega
  | store reg =>
    simp only [hpc, Option.some.injEq] at h
    subst h
    obtain ⟨hlow, hhigh⟩ := hs.reg t reg hpc
    have hlt := hs.storing t reg hpc
    have hsucc := total_succ (s.i t)
    refine hs.turn (l := .print) (k := s.i t) (by simp [State.goto]) rfl ?_ ?_ ?_ (by simp)
      (fun p hp => .inl hp) (by simp)
    · simp [stored, State.goto, hpc]
    · simpa [stored, State.goto] using hlt
    · cases t with
      | inc =>
        simp only [stored, hpc, reduceCtorEq, if_false, Nat.add_zero] at hlow hhigh
        constructor <;> simp [stored, State.goto, Thread.apply] <;> omega
      | dec =>
        simp only [stored, hpc, reduceCtorEq, if_false, Nat.add_zero] at hlow hhigh
        constructor <;> simp [stored, State.goto, Thread.apply] <;> omega
  | print =>
    simp only [hpc, Option.some.injEq] at h
    subst h
    have hsame : ∀ t', stored ({ s with
        printed := (t, s.gsum) :: s.printed,
        i := Function.update s.i t (s.i t + 1) }.goto t .test) t' = stored s t' := by
      intro t'
      by_cases ht : t' = t
      · subst ht
        simp [stored, State.goto, hpc]
      · simp [stored, State.goto, ht]
    refine hs.turn (l := .test) (k := s.i t + 1) rfl rfl (hsame t).ge
      ((hsame t).trans_le hcount) ?_ (by simp) (fun p hp => ?_) (by simp)
    · obtain ⟨hlow, hhigh⟩ := hs.gsum
      rw [Within, hsame, hsame]
      exact ⟨hlow, hhigh⟩
    · obtain rfl | hp := List.mem_cons.mp hp
      · exact .inr rfl
      · exact .inl hp
  | returned => simp [hpc] at h

/-! ### Every value within the bounds -/

/-- Both threads are at the head of their loops for the same number. -/
structure At (k : ℕ) (g : ℤ) (s : State) : Prop where
  gsum : s.gsum = g
  i : ∀ t, s.i t = k
  pc : ∀ t, s.pc t = .test

/-- One turn of each loop: one after the other, or all of one between the read and the write of the
other, which is then as if it had not been. -/
theorem exists_round {k : ℕ} {g d : ℤ} (hk : k < count) (hs : At k g s)
    (hd : d = 0 ∨ d = -k ∨ d = k) : ∃ s', Reach (step count) Any s s' ∧ At (k + 1) (g + d) s' := by
  obtain ⟨g', i, pc, out⟩ := s
  obtain rfl : g' = g := hs.gsum
  obtain rfl : i = fun _ => k := funext hs.i
  obtain rfl : pc = fun _ => .test := funext hs.pc
  have hexec : ∀ as s', exec (step count) Any ⟨g', fun _ => k, fun _ => .test, out⟩ as = some s' →
      s'.gsum = g' + d → (∀ t, s'.i t = k + 1 ∧ s'.pc t = .test) →
      ∃ s', Reach (step count) Any ⟨g', fun _ => k, fun _ => .test, out⟩ s' ∧
        At (k + 1) (g' + d) s' :=
    fun as s' h hg ht => ⟨s', .of_exec h, hg, fun t => (ht t).1, fun t => (ht t).2⟩
  obtain rfl | rfl | rfl := hd
  · refine hexec [.inc, .inc, .inc, .dec, .dec, .dec] _
      (by simp [exec, step, State.goto, hk, Any]; rfl) (by simp [Thread.apply]) fun t => ?_
    cases t <;> simp
  · refine hexec [.dec, .inc, .inc, .inc, .dec, .dec] _
      (by simp [exec, step, State.goto, hk, Any]; rfl) (by simp [Thread.apply]; omega) fun t => ?_
    cases t <;> simp
  · refine hexec [.inc, .dec, .dec, .dec, .inc, .inc] _
      (by simp [exec, step, State.goto, hk, Any]; rfl) (by simp [Thread.apply]) fun t => ?_
    cases t <;> simp

theorem le_two_mul_total (k : ℕ) : k ≤ 2 * total k + 1 := by
  induction k with
  | zero => simp
  | succ k ih =>
    rw [total_succ]
    omega

/-- The last number makes up what the numbers before it cannot. -/
theorem exists_at {k : ℕ} (hk : k ≤ count) {v : ℤ} (hv : |v| ≤ total k) :
    ∃ s, Reach (step count) Any init s ∧ At k v s := by
  induction k generalizing v with
  | zero =>
    obtain rfl : v = 0 := by simpa [total] using hv
    exact ⟨init, .init, rfl, fun _ => rfl, fun _ => rfl⟩
  | succ k ih =>
    have hle := le_two_mul_total k
    rw [total_succ] at hv
    rw [abs_le] at hv
    have hd : ∃ d : ℤ, (d = 0 ∨ d = -k ∨ d = k) ∧ |v - d| ≤ total k := by
      by_cases h1 : v ≤ total k
      · by_cases h2 : -(total k : ℤ) ≤ v
        · exact ⟨0, .inl rfl, by rw [abs_le]; omega⟩
        · exact ⟨-k, .inr (.inl rfl), by rw [abs_le]; omega⟩
      · exact ⟨k, .inr (.inr rfl), by rw [abs_le]; omega⟩
    obtain ⟨d, hd, hvd⟩ := hd
    obtain ⟨s, h, hs⟩ := ih (by omega) hvd
    obtain ⟨s', hround, hs'⟩ : ∃ s', Reach (step count) Any s s' ∧ At (k + 1) (v - d + d) s' :=
      exists_round (by omega) hs hd
    exact ⟨s', h.trans hround, by rwa [sub_add_cancel] at hs'⟩

/-- **What the race makes of the sum**: `gsum` can end with every value between minus the whole sum
and the whole sum, and with no other; and nothing else is printed on the way. -/
theorem final_iff :
    (∀ v : ℤ, (∃ s, Reach (step count) Any init s ∧ (∀ t, s.pc t = .returned) ∧ s.gsum = v) ↔
      |v| ≤ total count) ∧
    ∀ s, Reach (step count) Any init s → ∀ p ∈ s.printed, |p.2| ≤ total count := by
  have hinv : ∀ {s}, Reach (step count) Any init s → Inv count s := fun h =>
    h.invariant inv_init fun hs _ hstep => inv_step hs hstep
  have hwithin : ∀ {s x}, Inv count s → Within s x → |x| ≤ total count := by
    intro s x hs ⟨hlow, hhigh⟩
    have h1 := total_mono (hs.stored_le .inc)
    have h2 := total_mono (hs.stored_le .dec)
    rw [abs_le]
    omega
  refine ⟨fun v => ⟨?_, fun hv => ?_⟩, fun s h p hp => hwithin (hinv h) ((hinv h).printed p hp)⟩
  · rintro ⟨s, h, -, rfl⟩
    exact hwithin (hinv h) (hinv h).gsum
  · obtain ⟨s, h, hs⟩ := exists_at le_rfl hv
    obtain ⟨g, i, pc, out⟩ := s
    obtain rfl : i = fun _ => count := funext hs.i
    obtain rfl : pc = fun _ => .test := funext hs.pc
    have hlast : exec (step count) Any ⟨g, fun _ => count, fun _ => .test, out⟩ [.inc, .dec] =
        some ⟨g, fun _ => count, Function.update (Function.update (fun _ => .test) .inc .returned)
          .dec .returned, out⟩ := by
      simp [exec, step, State.goto, Any]
    refine ⟨_, h.trans (.of_exec hlast), fun t => ?_, hs.gsum⟩
    cases t <;> simp

end Ecen5623.Simplethread.IncDec
