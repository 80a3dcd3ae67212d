import Ecen5623.Library.Transition
import Ecen5623.Sieve.Eratosthenes

/-! # The sieve in threads

`main` of `eratosthenes.c` gives each thread a range of its own. A turn is one pass of the outer
loop of `invalidate`, whose accesses to `isprimes` are all between `LOCK` and `UNLOCK`. A thread
writes above the number whose turn it is and up to the end of its range, so the flags of a range are
those of its own thread (`Sifting`), in whatever order the threads take their turns. They are not
those of the sequential sieve: a thread strikes out no multiples of numbers before its range. That
goes unnoticed only if every later range is a single prime (`threaded_iff`). -/

namespace Ecen5623.Sieve.Threads

open Ecen5623.Library Ecen5623.Sieve.Eratosthenes

/-- `start` and `end` of `threadArgsType`; `idx` is the place in the list. -/
structure ThreadArgs where
  start : ℕ
  stop : ℕ
  deriving DecidableEq, Repr

/-- Consecutive ranges that make up the numbers from the first one to the last one. -/
def Consecutive : ℕ → ℕ → List ThreadArgs → Prop
  | a, N, [] => a = N + 1
  | a, N, r :: rs => r.start = a ∧ r.start ≤ r.stop ∧ Consecutive (r.stop + 1) N rs

/-- The array, and the `i` of each thread. -/
structure State where
  mem : Memory
  next : ℕ → ℕ

/-- The threads before their first pass. -/
def init (args : List ThreadArgs) (m : ℕ → ℕ) : State where
  mem := ⟨m, []⟩
  next k := (args[k]?.map ThreadArgs.start).getD 0

/-- The next pass of a thread, if its loop has not ended. -/
def step (args : List ThreadArgs) (s : State) (k : ℕ) : Option State :=
  match args[k]? with
  | none => none
  | some a =>
    if s.next k ≤ a.stop then
      (pass a.stop s.mem (s.next k)).map fun mem =>
        { mem := mem, next := Function.update s.next k (s.next k + 1) }
    else none

/-- All threads have returned. -/
def Joined (args : List ThreadArgs) (s : State) : Prop :=
  ∀ k a, args[k]? = some a → a.stop < s.next k

/-- The flags are those of the primes, and those of the sequential sieve. -/
structure Agrees (N : ℕ) (m : ℕ → ℕ) (s : State) : Prop where
  prime : ∀ n, 2 ≤ n → n ≤ N → (s.mem.isprimes n = isPrime ↔ n.Prime)
  sequential : ∀ t, invalidate 2 N ⟨m, []⟩ = some t → ∀ n, 2 ≤ n → n ≤ N →
    (s.mem.isprimes n = isPrime ↔ t.isprimes n = isPrime)

variable {args : List ThreadArgs} {a N n k : ℕ} {m : ℕ → ℕ} {s s' : State}

/-! ### Splits -/

namespace Consecutive

theorem le (h : Consecutive a N args) :
    ∀ r ∈ args, a ≤ r.start ∧ r.start ≤ r.stop ∧ r.stop ≤ N := by
  induction args generalizing a with
  | nil => exact fun r hr => absurd hr List.not_mem_nil
  | cons r rs ih =>
    obtain ⟨hstart, hle, hrest⟩ := h
    have hN : r.stop ≤ N := by
      obtain _ | ⟨r', rs⟩ := rs
      · exact (Nat.succ.inj hrest).le
      · obtain ⟨h1, h2, h3⟩ := ih hrest r' List.mem_cons_self
        omega
    intro r' hr'
    rcases List.mem_cons.mp hr' with rfl | hr'
    · omega
    · obtain ⟨h1, h2, h3⟩ := ih hrest r' hr'
      omega

theorem exists_range (h : Consecutive a N args) (hn : a ≤ n) (hN : n ≤ N) :
    ∃ r ∈ args, r.start ≤ n ∧ n ≤ r.stop := by
  induction args generalizing a with
  | nil =>
    have : a = N + 1 := h
    omega
  | cons r rs ih =>
    obtain ⟨hstart, -, hrest⟩ := h
    rcases Nat.lt_or_ge r.stop n with hlt | hge
    · obtain ⟨r', hr', hin⟩ := ih hrest hlt
      exact ⟨r', List.mem_cons_of_mem r hr', hin⟩
    · exact ⟨r, List.mem_cons_self, by omega, hge⟩

theorem pairwise (h : Consecutive a N args) : args.Pairwise fun r r' => r.stop < r'.start := by
  induction args generalizing a with
  | nil => exact .nil
  | cons r rs ih =>
    obtain ⟨-, -, hrest⟩ := h
    exact .cons (fun r' hr' => (hrest.le r' hr').1) (ih hrest)

theorem apart (h : Consecutive a N args) {k l : ℕ} {r r' : ThreadArgs} (hne : k ≠ l)
    (hk : args[k]? = some r) (hl : args[l]? = some r') : r.stop < r'.start ∨ r'.stop < r.start := by
  obtain ⟨hk', rfl⟩ := List.getElem?_eq_some_iff.mp hk
  obtain ⟨hl', rfl⟩ := List.getElem?_eq_some_iff.mp hl
  have hpair := List.pairwise_iff_getElem.mp h.pairwise
  rcases Nat.lt_or_gt_of_ne hne with hlt | hlt
  · exact .inl (hpair k l hk' hl' hlt)
  · exact .inr (hpair l k hl' hk' hlt)

end Consecutive

/-! ### A turn -/

theorem step_eq_some (h : step args s k = some s') : ∃ r mem, args[k]? = some r ∧
    s.next k ≤ r.stop ∧ pass r.stop s.mem (s.next k) = some mem ∧
    s' = { mem := mem, next := Function.update s.next k (s.next k + 1) } := by
  unfold step at h
  split at h
  · exact absurd h (by simp)
  · next r hr =>
    split_ifs at h with hle
    obtain ⟨mem, hmem, rfl⟩ := Option.map_eq_some_iff.mp h
    exact ⟨r, mem, hr, hle, hmem, rfl⟩

/-- Each thread is in its range, whose flags are those of the numbers that have had their turn
in it. -/
structure Sifting (args : List ThreadArgs) (s : State) : Prop where
  le : ∀ k r, args[k]? = some r → r.start ≤ s.next k ∧ s.next k ≤ r.stop + 1
  flags : ∀ k r, args[k]? = some r → Flags r.start r.stop (s.next k) s.mem

section Run

variable (hmax : N ≤ 46340) (hsplit : Consecutive 2 N args)
include hsplit

theorem sifting_init (hm : ∀ n ≤ N, m n = isPrime) : Sifting args (init args m) := by
  have hnext : ∀ k r, args[k]? = some r → (init args m).next k = r.start := fun k r hr => by
    simp only [init, hr, Option.map_some, Option.getD_some]
  refine ⟨fun k r hr => ?_, fun k r hr n hn hn' => ?_⟩
  · have := hsplit.le r (List.mem_of_getElem? hr)
    rw [hnext k r hr]
    omega
  · have := hsplit.le r (List.mem_of_getElem? hr)
    rw [hnext k r hr]
    exact iff_of_true (hm n (by omega)) (survives_self r.start n)

include hmax

theorem passed_turn {r : ThreadArgs} (h : Sifting args s) (hr : args[k]? = some r)
    (hle : s.next k ≤ r.stop) :
    ∃ mem, pass r.stop s.mem (s.next k) = some mem ∧ Passed r.stop (s.next k) s.mem mem := by
  have hrange := hsplit.le r (List.mem_of_getElem? hr)
  have hnext := (h.le k r hr).1
  exact passed (by omega) hle (sq_le_intMax (by omega)) s.mem

/-- **A turn keeps the flags of all ranges.** -/
theorem sifting_step (h : Sifting args s) (hs : step args s k = some s') : Sifting args s' := by
  obtain ⟨r, mem, hr, hle, hmem, rfl⟩ := step_eq_some hs
  obtain ⟨mem', hmem', hp⟩ := passed_turn hmax hsplit h hr hle
  obtain rfl := Option.some.inj (hmem.symm.trans hmem')
  have hrange := hsplit.le r (List.mem_of_getElem? hr)
  have hstart := (h.le k r hr).1
  constructor
  · intro l r' hl
    dsimp only
    by_cases hlk : l = k
    · subst hlk
      obtain rfl := Option.some.inj (hr.symm.trans hl)
      rw [Function.update_self]
      omega
    · rw [Function.update_of_ne hlk]
      exact h.le l r' hl
  · intro l r' hl
    dsimp only
    by_cases hlk : l = k
    · subst hlk
      obtain rfl := Option.some.inj (hr.symm.trans hl)
      rw [Function.update_self]
      exact hp.flags hstart hle (h.flags l r hr)
    · -- the range of another thread is before `i` or after the end of this one
      rw [Function.update_of_ne hlk]
      have hapart := hsplit.apart hlk hl hr
      intro n hn hn'
      rw [hp.kept (by omega) (by omega)]
      exact h.flags l r' hl n hn hn'

theorem sifting_reach (hm : ∀ n ≤ N, m n = isPrime)
    (hs : Reach (step args) Any (init args m) s) : Sifting args s :=
  hs.invariant (sifting_init hsplit hm) fun h _ hstep => sifting_step hmax hsplit h hstep

/-! ### The end -/

theorem exists_returned {r : ThreadArgs} (hr : args[k]? = some r) {d : ℕ}
    (hd : r.stop + 1 - s.next k = d) (h : Sifting args s) :
    ∃ s', Reach (step args) Any s s' ∧ Sifting args s' ∧ r.stop < s'.next k ∧
      ∀ l, l ≠ k → s'.next l = s.next l := by
  induction d generalizing s with
  | zero => exact ⟨s, .init, h, by omega, fun _ _ => rfl⟩
  | succ d ih =>
    obtain ⟨mem, hmem, -⟩ := passed_turn hmax hsplit h hr (by omega)
    have hstep : step args s k =
        some { mem := mem, next := Function.update s.next k (s.next k + 1) } := by
      unfold step
      rw [hr]
      dsimp only
      rw [if_pos (by omega), hmem]
      rfl
    obtain ⟨s', hreach, hsift, hlt, hother⟩ := ih (by
      dsimp only
      rw [Function.update_self]
      omega) (sifting_step hmax hsplit h hstep)
    refine ⟨s', (Reach.single trivial hstep).trans hreach, hsift, hlt, fun l hl => ?_⟩
    rw [hother l hl]
    exact Function.update_of_ne hl _ _

/-- **All threads return**, whatever has run so far. -/
theorem exists_joined (h : Sifting args s) : ∃ s', Reach (step args) Any s s' ∧ Joined args s' := by
  have hfirst : ∀ j, ∃ s', Reach (step args) Any s s' ∧ Sifting args s' ∧
      ∀ k < j, ∀ r, args[k]? = some r → r.stop < s'.next k := fun j => by
    induction j with
    | zero => exact ⟨s, .init, h, fun k hk => absurd hk (Nat.not_lt_zero k)⟩
    | succ j ih =>
      obtain ⟨s₁, hreach, hsift, hdone⟩ := ih
      rcases hj : args[j]? with _ | r
      · refine ⟨s₁, hreach, hsift, fun k hk r hr => ?_⟩
        obtain hlt | rfl := Nat.lt_succ_iff_lt_or_eq.mp hk
        · exact hdone k hlt r hr
        · exact absurd (hj.symm.trans hr) (by simp)
      · obtain ⟨s₂, hreach', hsift', hlt, hother⟩ := exists_returned hmax hsplit hj rfl hsift
        refine ⟨s₂, hreach.trans hreach', hsift', fun k hk r' hr => ?_⟩
        obtain hkj | rfl := Nat.lt_succ_iff_lt_or_eq.mp hk
        · rw [hother k (by omega)]
          exact hdone k hkj r' hr
        · obtain rfl := Option.some.inj (hj.symm.trans hr)
          exact hlt
  obtain ⟨s', hreach, -, hdone⟩ := hfirst args.length
  refine ⟨s', hreach, fun k r hr => hdone k ?_ r hr⟩
  exact (List.getElem?_eq_some_iff.mp hr).1

theorem isprimes_joined (hm : ∀ n ≤ N, m n = isPrime)
    (hs : Reach (step args) Any (init args m) s) (hjoined : Joined args s) {r : ThreadArgs}
    (hr : r ∈ args) (hn : r.start ≤ n) (hn' : n ≤ r.stop) :
    s.mem.isprimes n = isPrime ↔ Survives r.start (r.stop + 1) n := by
  obtain ⟨k, hk⟩ := List.getElem?_of_mem hr
  have hsift := sifting_reach hmax hsplit hm hs
  have hnext : s.next k = r.stop + 1 := by
    have := hsift.le k r hk
    have := hjoined k r hk
    omega
  have hflags := hsift.flags k r hk n hn hn'
  rwa [hnext] at hflags

omit hsplit in
theorem agrees_iff_prime (hN : 2 ≤ N) (hm : ∀ n ≤ N, m n = isPrime) : Agrees N m s ↔
    ∀ n, 2 ≤ n → n ≤ N → (s.mem.isprimes n = isPrime ↔ n.Prime) := by
  obtain ⟨t, ht, hsifted⟩ := sifted_invalidate le_rfl hmax (fun n _ hn => hm n hn)
    (show 2 ≤ N + 1 by omega)
  refine ⟨Agrees.prime, fun h => ⟨h, fun t' ht' n hn hn' => ?_⟩⟩
  obtain rfl := Option.some.inj (ht.symm.trans ht')
  rw [h n hn hn', hsifted.flags n hn hn', survives_two_iff hn (by omega)]

theorem agrees_iff_ranges (hN : 2 ≤ N) (hm : ∀ n ≤ N, m n = isPrime)
    (hs : Reach (step args) Any (init args m) s) (hjoined : Joined args s) : Agrees N m s ↔
      ∀ r ∈ args, ∀ n, r.start ≤ n → n ≤ r.stop →
        (Survives r.start (r.stop + 1) n ↔ n.Prime) := by
  rw [agrees_iff_prime hmax hN hm]
  constructor
  · intro h r hr n hn hn'
    have hrange := hsplit.le r hr
    rw [← isprimes_joined hmax hsplit hm hs hjoined hr hn hn']
    exact h n (by omega) (by omega)
  · intro h n hn hn'
    obtain ⟨r, hr, hin, hin'⟩ := hsplit.exists_range hn hn'
    rw [isprimes_joined hmax hsplit hm hs hjoined hr hin hin']
    exact h r hr n hin hin'

end Run

/-- **When the threads agree with the sequential sieve**: if every range that does not begin at 2 is
a single prime. -/
theorem threaded_iff (hN : 2 ≤ N) (hmax : N ≤ 46340) (hsplit : Consecutive 2 N args) {size : ℕ}
    (hsize : N < size) (hm : ∀ n < size, m n = isPrime) :
    (∃ s, Reach (step args) Any (init args m) s ∧ Joined args s) ∧
      ∀ s, Reach (step args) Any (init args m) s → Joined args s →
        (Agrees N m s ↔ ∀ r ∈ args, r.start = 2 ∨ r.start = r.stop ∧ r.start.Prime) := by
  have hm' : ∀ n ≤ N, m n = isPrime := fun n hn => hm n (by omega)
  refine ⟨exists_joined hmax hsplit (sifting_init hsplit hm'), fun s hs hjoined => ?_⟩
  rw [agrees_iff_ranges hmax hsplit hN hm' hs hjoined]
  refine forall₂_congr fun r hr => stretch_iff ?_ ?_
  · exact (hsplit.le r hr).1
  · exact (hsplit.le r hr).2.1

/-- Two threads, the second one with the number 3 only. -/
theorem threaded_iff_three :
    (∃ s, Reach (step [⟨2, 2⟩, ⟨3, 3⟩]) Any (init [⟨2, 2⟩, ⟨3, 3⟩] fun _ => isPrime) s ∧
        Joined [⟨2, 2⟩, ⟨3, 3⟩] s) ∧
      ∀ s, Reach (step [⟨2, 2⟩, ⟨3, 3⟩]) Any (init [⟨2, 2⟩, ⟨3, 3⟩] fun _ => isPrime) s →
        Joined [⟨2, 2⟩, ⟨3, 3⟩] s → (Agrees 3 (fun _ => isPrime) s ↔
          ∀ r ∈ [ThreadArgs.mk 2 2, ⟨3, 3⟩], r.start = 2 ∨ r.start = r.stop ∧ r.start.Prime) :=
  threaded_iff (by decide) (by decide) ⟨rfl, by decide, rfl, by decide, rfl⟩
    (show 3 < 4 by decide) fun _ _ => rfl

/-- The ranges of `main`. -/
def mainArgs : List ThreadArgs := [⟨2, 99⟩, ⟨100, 168⟩, ⟨169, 224⟩, ⟨225, 400⟩]

/-- With the ranges of `main` the threads leave 100 flagged. -/
theorem not_agrees_main :
    Consecutive 2 400 mainArgs ∧
      ∃ s, Reach (step mainArgs) Any (init mainArgs fun _ => isPrime) s ∧ Joined mainArgs s ∧
        s.mem.isprimes 100 = isPrime ∧ ¬ Agrees 400 (fun _ => isPrime) s := by
  have hsplit : Consecutive 2 400 mainArgs :=
    ⟨rfl, by decide, rfl, by decide, rfl, by decide, rfl, by decide, rfl⟩
  obtain ⟨s, hs, hjoined⟩ := exists_joined (by decide) hsplit
    (sifting_init hsplit (m := fun _ => isPrime) fun _ _ => rfl)
  have h100 : s.mem.isprimes 100 = isPrime := by
    have hr : ⟨100, 168⟩ ∈ mainArgs := List.mem_cons_of_mem _ List.mem_cons_self
    rw [isprimes_joined (by decide) hsplit (fun _ _ => rfl) hs hjoined hr (by decide) (by decide)]
    exact survives_of_lt (show 100 < 100 * 100 by decide)
  refine ⟨hsplit, s, hs, hjoined, h100, fun h => ?_⟩
  exact absurd ((h.prime 100 (by decide) (by decide)).mp h100) (by decide)

end Ecen5623.Sieve.Threads
