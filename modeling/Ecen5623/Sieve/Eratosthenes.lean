import Ecen5623.Library.Sieving
import Ecen5623.Library.WriteLog

/-! # The sieve

`invalidate` of `eratosthenes.c`. `pow(i, 2)` is exact, and there is no pass if it does not fit the
`int` that it is stored in. The indices at which `isprimes` is read or written are recorded in
`indexed`. After the turns of all numbers below `i` the flags of the range are those of the numbers
that survive them (`Flags`); a pass brings that from `i` to `i + 1` (`Passed.flags`), whether it
strikes out anything or not, and leaves the rest of the array alone (`Passed.kept`). -/

namespace Ecen5623.Sieve.Eratosthenes

open Ecen5623.Library

/-- `IS_PRIME`. -/
abbrev isPrime : ℕ := 1

/-- `NOT_PRIME`. -/
abbrev notPrime : ℕ := 0

/-- `INT_MAX`. -/
abbrev intMax : ℕ := 2147483647

/-- The array and the record of its indices. -/
structure Memory where
  isprimes : ℕ → ℕ
  indexed : List ℕ

/-- `isprimes[j] = NOT_PRIME`. -/
def strike (s : Memory) (j : ℕ) : Memory where
  isprimes := Function.update s.isprimes j notPrime
  indexed := j :: s.indexed

/-- One pass of the outer loop, from `LOCK` to `UNLOCK`. -/
def pass (stop : ℕ) (s : Memory) (i : ℕ) : Option Memory :=
  if i < 2 then some s
  else
    let s := { s with indexed := i :: s.indexed }
    if s.isprimes i = isPrime then
      if i ^ 2 ≤ intMax then some ((forRange (i ^ 2) (stop + 1) i).foldl strike s) else none
    else some s

/-- `invalidate`, from `start` to `stop`, which is `end` in the source. -/
def invalidate (start stop : ℕ) (s : Memory) : Option Memory :=
  (forRange start (stop + 1) 1).foldlM (pass stop) s

/-- The flags of the range from `start` to `stop` when the numbers below `i` have had their turn. -/
def Flags (start stop i : ℕ) (s : Memory) : Prop :=
  ∀ n, start ≤ n → n ≤ stop → (s.isprimes n = isPrime ↔ Survives start i n)

variable {s s' : Memory} {start stop i n : ℕ}

/-! ### The inner loop -/

theorem foldl_strike_isprimes {js : List ℕ} (s : Memory) (n : ℕ) :
    (js.foldl strike s).isprimes n = if n ∈ js then notPrime else s.isprimes n := by
  induction js generalizing s with
  | nil => rfl
  | cons j js ih =>
    rw [List.foldl_cons, ih, strike]
    dsimp only
    by_cases hmem : n ∈ js
    · rw [if_pos hmem, if_pos (List.mem_cons_of_mem j hmem)]
    · rw [if_neg hmem]
      by_cases hj : n = j
      · subst hj
        rw [Function.update_self, if_pos List.mem_cons_self]
      · rw [Function.update_of_ne hj, if_neg fun h => (List.mem_cons.mp h).elim hj hmem]

theorem mem_foldl_strike {js : List ℕ} (s : Memory) :
    n ∈ (js.foldl strike s).indexed ↔ n ∈ js ∨ n ∈ s.indexed := by
  induction js generalizing s with
  | nil => simp
  | cons j js ih =>
    rw [List.foldl_cons, ih, strike, List.mem_cons, List.mem_cons]
    tauto

theorem mem_multiples (hi : 0 < i) :
    n ∈ forRange (i ^ 2) (stop + 1) i ↔ (i ∣ n ∧ i * i ≤ n) ∧ n ≤ stop := by
  rw [mem_forRange hi, Nat.pow_two]
  constructor
  · rintro ⟨t, rfl, hlt⟩
    exact ⟨⟨⟨i + t, by rw [Nat.mul_add]⟩, Nat.le_add_right _ _⟩, by omega⟩
  · rintro ⟨⟨⟨k, rfl⟩, hle⟩, hlt⟩
    have hik : i ≤ k := Nat.le_of_mul_le_mul_left hle hi
    exact ⟨k - i, by rw [← Nat.mul_add, Nat.add_sub_cancel' hik], by omega⟩

/-! ### One pass -/

theorem sq_le_intMax (h : i ≤ 46340) : i ^ 2 ≤ intMax :=
  (Nat.pow_le_pow_left h 2).trans (by decide)

/-- What a pass does: if `i` is flagged, its multiples in the range are struck out. -/
structure Passed (stop i : ℕ) (s s' : Memory) : Prop where
  isprimes : ∀ n, s'.isprimes n =
    if s.isprimes i = isPrime ∧ (i ∣ n ∧ i * i ≤ n) ∧ n ≤ stop then notPrime else s.isprimes n
  indexed : ∀ n ∈ s'.indexed, n ∈ s.indexed ∨ i ≤ n ∧ n ≤ stop

theorem passed (h2 : 2 ≤ i) (hstop : i ≤ stop) (hmax : i ^ 2 ≤ intMax) (s : Memory) :
    ∃ s', pass stop s i = some s' ∧ Passed stop i s s' := by
  have hi : 0 < i := by omega
  unfold pass
  rw [if_neg (by omega)]
  dsimp only
  by_cases hflag : s.isprimes i = isPrime
  · rw [if_pos hflag, if_pos hmax]
    refine ⟨_, rfl, fun n => ?_, fun n hn => ?_⟩
    · rw [foldl_strike_isprimes]
      refine if_congr ?_ rfl rfl
      rw [mem_multiples hi]
      exact (and_iff_right hflag).symm
    · rcases (mem_foldl_strike _).mp hn with hn | hn
      · obtain ⟨⟨-, hle⟩, hlt⟩ := (mem_multiples hi).mp hn
        have := Nat.le_mul_of_pos_left i hi
        exact .inr ⟨by omega, hlt⟩
      · rcases List.mem_cons.mp hn with rfl | hn
        · exact .inr ⟨le_rfl, hstop⟩
        · exact .inl hn
  · rw [if_neg hflag]
    refine ⟨_, rfl, fun n => ?_, fun n hn => ?_⟩
    · rw [if_neg fun h => hflag h.1]
    · rcases List.mem_cons.mp hn with rfl | hn
      · exact .inr ⟨le_rfl, hstop⟩
      · exact .inl hn

namespace Passed

variable (h : Passed stop i s s')
include h

/-- **The numbers of the other ranges keep their flags.** -/
theorem kept (h2 : 2 ≤ i) (hn : n ≤ i ∨ stop < n) : s'.isprimes n = s.isprimes n := by
  rw [h.isprimes, if_neg]
  rintro ⟨-, ⟨-, hle⟩, hlt⟩
  have : 2 * i ≤ i * i := Nat.mul_le_mul_right i h2
  omega

/-- **The flags after the turn of `i`.** If it has been struck out, so have its multiples. -/
theorem flags (hle : start ≤ i) (hstop : i ≤ stop) (hflags : Flags start stop i s) :
    Flags start stop (i + 1) s' := by
  intro n hn hn'
  rw [h.isprimes, survives_succ_iff hle, ← hflags n hn hn']
  by_cases hmult : i ∣ n ∧ i * i ≤ n
  · by_cases hflag : s.isprimes i = isPrime
    · rw [if_pos ⟨hflag, hmult, hn'⟩]
      exact iff_of_false (by decide) fun h => h.2 hmult
    · have hstruck : ¬ Survives start i n :=
        not_survives_of_dvd (fun h => hflag ((hflags i hle hstop).mpr h)) hmult.1 hmult.2
      rw [if_neg fun h => hflag h.1]
      exact iff_of_false (fun h => hstruck ((hflags n hn hn').mp h)) fun h => h.2 hmult
  · rw [if_neg fun h => hmult h.2.1]
    exact (and_iff_left hmult).symm

end Passed

/-! ### The whole call -/

/-- What has been done when the numbers from `start` to `i - 1` have had their turn. -/
structure Sifted (start stop i : ℕ) (m : ℕ → ℕ) (s : Memory) : Prop where
  flags : Flags start stop i s
  kept : ∀ n, n < start ∨ stop < n → s.isprimes n = m n
  indexed : ∀ n ∈ s.indexed, start ≤ n ∧ n ≤ stop

theorem sifted_pass {m : ℕ → ℕ} (h2 : 2 ≤ start) (hle : start ≤ i) (hstop : i ≤ stop)
    (hmax : i ^ 2 ≤ intMax) (h : Sifted start stop i m s) :
    ∃ s', pass stop s i = some s' ∧ Sifted start stop (i + 1) m s' := by
  obtain ⟨s', hs', hp⟩ := passed (by omega) hstop hmax s
  refine ⟨s', hs', hp.flags hle hstop h.flags, fun n hn => ?_, fun n hn => ?_⟩
  · rw [hp.kept (by omega) (by omega), h.kept n hn]
  · rcases hp.indexed n hn with hn | hn
    · exact h.indexed n hn
    · omega

section Range

variable {m : ℕ → ℕ} (h2 : 2 ≤ start) (hmax : stop ≤ 46340)
variable (hm : ∀ n, start ≤ n → n ≤ stop → m n = isPrime)
include h2 hmax hm

/-- **After each pass of the outer loop** the numbers before it have had their turn. -/
theorem sifted_passes (hle : start ≤ i) (hi : i ≤ stop + 1) :
    ∃ s, (forRange start i 1).foldlM (pass stop) ⟨m, []⟩ = some s ∧ Sifted start stop i m s := by
  induction i, hle using Nat.le_induction with
  | base =>
    rw [forRange_one_self]
    refine ⟨_, rfl, fun n hn hn' => ?_, fun n _ => rfl, fun n hn => absurd hn List.not_mem_nil⟩
    exact iff_of_true (hm n hn hn') (survives_self start n)
  | succ i hle ih =>
    obtain ⟨s, hs, h⟩ := ih (by omega)
    obtain ⟨s', hs', h'⟩ := sifted_pass h2 hle (by omega) (sq_le_intMax (by omega)) h
    refine ⟨s', ?_, h'⟩
    rw [forRange_one_succ hle, List.foldlM_append, hs]
    exact (bind_pure _).trans hs'

theorem sifted_invalidate (hle : start ≤ stop + 1) :
    ∃ s, invalidate start stop ⟨m, []⟩ = some s ∧ Sifted start stop (stop + 1) m s :=
  sifted_passes h2 hmax hm hle le_rfl

end Range

theorem invalidate_one (h : 1 ≤ stop) (s : Memory) :
    invalidate 1 stop s = invalidate 2 stop s := by
  unfold invalidate
  rw [forRange_one_cons (by omega), List.foldlM_cons]
  rfl

/-- The primes from 2 to `stop` are flagged, the rest of the array is as before, and no index has
been outside. -/
structure Correct (stop : ℕ) (m : ℕ → ℕ) (s : Memory) : Prop where
  prime : ∀ n, 2 ≤ n → n ≤ stop → (s.isprimes n = isPrime ↔ n.Prime)
  kept : ∀ n, n < 2 ∨ stop < n → s.isprimes n = m n
  indexed : ∀ n ∈ s.indexed, n ≤ stop

/-- **The sieve is correct.** -/
theorem invalidate_correct (h2 : 2 ≤ stop) (hmax : stop ≤ 46340) (hstart : start = 1 ∨ start = 2)
    {size : ℕ} (hsize : stop < size) {m : ℕ → ℕ} (hm : ∀ n < size, m n = isPrime) :
    ∃ s, invalidate start stop ⟨m, []⟩ = some s ∧ Correct stop m s := by
  have hone : invalidate start stop ⟨m, []⟩ = invalidate 2 stop ⟨m, []⟩ := by
    rcases hstart with rfl | rfl
    · exact invalidate_one (by omega) _
    · rfl
  obtain ⟨s, hs, h⟩ := sifted_invalidate le_rfl hmax (fun n _ hn => hm n (by omega))
    (show 2 ≤ stop + 1 by omega)
  refine ⟨s, hone.trans hs, fun n hn hn' => ?_, h.kept, fun n hn => (h.indexed n hn).2⟩
  rw [h.flags n hn hn', survives_two_iff hn (by omega)]

/-- The single-threaded version of the program, with an array that is long enough. -/
theorem invalidate_correct_400 :
    ∃ s, invalidate 1 400 ⟨fun _ => isPrime, []⟩ = some s ∧ Correct 400 (fun _ => isPrime) s :=
  invalidate_correct (by decide) (by decide) (.inl rfl) (show 400 < 401 by decide) fun _ _ => rfl

end Ecen5623.Sieve.Eratosthenes
