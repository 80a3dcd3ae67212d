import Ecen5623.Exercise1.FibTest
import Ecen5623.Library.Transition
import Mathlib.Data.Nat.Notation

/-! # The sequencer of the first exercise

`Sequencer` of `ex0.c` creates the two services, posts their semaphores in five rounds of ten slots
each, sets `abortTest` and posts each semaphore once more; `ctrl_c` sets `abortTest` at any moment
and may interrupt a service in its `sem_wait`, whose result nobody looks at. Whatever the order of
the steps, every run is finite and ends with all threads returned, the rounds of a service number at
most the posts of its semaphore, and the logs are freed after the last of them (`finishes`). The one
exception is `main`, which joins the services without knowing whether `Sequencer` has created them:
a join of a thread that does not exist is undefined. -/

namespace Ecen5623.Exercise1.Sequencer

open Ecen5623.Library Ecen5623.Exercise1.FibTest

/-- `fibS1` and `fibS2`. -/
inductive Service where
  | s1
  | s2
  deriving DecidableEq, Repr

/-- A service: not created, at its test of `abortTest`, at `semTake`, in a round, returned. -/
inductive Pc where
  | unborn
  | test
  | wait
  | round
  | exited
  deriving DecidableEq, Repr

/-- `Sequencer`. Slots are counted from 0. -/
inductive SeqPc where
  | unborn
  | init
  | spawn (k : Service)
  | test
  | slot (n : ℕ)
  | abort
  | give (k : Service)
  | exited
  deriving DecidableEq, Repr

inductive MainPc where
  | clear
  | spawn
  | join (k : Service)
  | joinSequencer
  | free
  | done
  | undefined
  deriving DecidableEq, Repr

/-- `cnt` are `fib1Cnt` and `fib2Cnt`, `vars` the variables of the services. -/
structure State where
  main : MainPc
  seq : SeqPc
  iters : ℕ
  abortTest : Bool
  pc : Service → Pc
  sem : Service → ℕ
  cnt : Service → ℕ
  vars : Service → Vars

/-- After `sigaction` and the logs. -/
def init : State where
  main := .clear
  seq := .unborn
  iters := 5
  abortTest := false
  pc _ := .unborn
  sem _ := 0
  cnt _ := 0
  vars _ := FibTest.init

def seqIterations : UInt32 := 47

/-- `C1` and `C2`. -/
def C : Service → UInt32
  | .s1 => 800000
  | .s2 => 800000

/-! ### The steps -/

/-- Join a service, and go on. -/
def joinService (s : State) (k : Service) (next : MainPc) : Option State :=
  match s.pc k with
  | .unborn => some { s with main := .undefined }
  | .exited => some { s with main := next }
  | _ => none

def stepMain (s : State) : Option State :=
  match s.main with
  | .clear => some { s with abortTest := false, main := .spawn }
  | .spawn => some { s with seq := .init, main := .join .s1 }
  | .join .s1 => joinService s .s1 (.join .s2)
  | .join .s2 => joinService s .s2 .joinSequencer
  | .joinSequencer => if s.seq = .exited then some { s with main := .free } else none
  | .free => some { s with main := .done }
  | .done => none
  | .undefined => none

/-- `semGive`. -/
def semGive (s : State) (k : Service) : State :=
  { s with sem := Function.update s.sem k (s.sem k + 1) }

/-- Whose semaphore slot `n` posts. -/
def slotOf (n : ℕ) : Service := if n % 2 = 0 then .s1 else .s2

def stepSeq (s : State) : Option State :=
  match s.seq with
  | .unborn => none
  | .init => some { s with sem := fun _ => 0, seq := .spawn .s1 }
  | .spawn .s1 => some { s with pc := Function.update s.pc .s1 .test, seq := .spawn .s2 }
  | .spawn .s2 => some { s with pc := Function.update s.pc .s2 .test, seq := .test }
  | .test => some { s with seq := if s.abortTest = false ∧ s.iters ≠ 0 then .slot 0 else .abort }
  | .slot n =>
    if n < 9 then some { semGive s (slotOf n) with seq := .slot (n + 1) }
    else some { s with iters := s.iters - 1, seq := .test }
  | .abort => some { s with abortTest := true, seq := .give .s1 }
  | .give .s1 => some { semGive s .s1 with seq := .give .s2 }
  | .give .s2 => some { semGive s .s2 with seq := .exited }
  | .exited => none

/-- One step of `fibS1` or `fibS2`. -/
def stepService (s : State) (k : Service) : Option State :=
  match s.pc k with
  | .unborn => none
  | .test =>
    some { s with pc := Function.update s.pc k (if s.abortTest then .exited else .wait) }
  | .wait =>
    if 0 < s.sem k then
      some { s with
        sem := Function.update s.sem k (s.sem k - 1)
        pc := Function.update s.pc k .round }
    else none
  | .round =>
    some { s with
      cnt := Function.update s.cnt k (s.cnt k + 1)
      vars := Function.update s.vars k (fibTest seqIterations (C k) (s.vars k))
      pc := Function.update s.pc k .test }
  | .exited => none

/-- `ctrl_c`, on the stack of a service that is blocked in `sem_wait`, or elsewhere. -/
def ctrlC (s : State) : Option Service → Option State
  | none => some { s with abortTest := true }
  | some k =>
    if s.pc k = .wait ∧ s.sem k = 0 then
      some { s with abortTest := true, pc := Function.update s.pc k .round }
    else none

inductive Action where
  | main
  | seq
  | service (k : Service)
  | ctrlC (interrupted : Option Service)
  deriving DecidableEq, Repr

/-- After an undefined join nothing is said about the program any more. -/
def step (s : State) (a : Action) : Option State :=
  if s.main = .undefined then none
  else match a with
    | .main => stepMain s
    | .seq => stepSeq s
    | .service k => stepService s k
    | .ctrlC interrupted => ctrlC s interrupted

variable {s s' : State} {k : Service} {a : Action}

/-! ### The invariant -/

/-- The service has not been created. -/
def Before (k : Service) : SeqPc → Prop
  | .unborn => True
  | .init => True
  | .spawn .s1 => True
  | .spawn .s2 => k = .s2
  | _ => False

/-- The last post of the service's semaphore is over. -/
def Given (k : Service) : SeqPc → Prop
  | .give .s2 => k = .s1
  | .exited => True
  | _ => False

/-- The posts of a round of `Sequencer`, and those of it from slot `n` on. -/
def perRound : Service → ℕ
  | .s1 => 5
  | .s2 => 4

def leftInRound (n : ℕ) : Service → ℕ
  | .s1 => (10 - n) / 2
  | .s2 => (9 - n) / 2

/-- The posts of the service's semaphore that are still to come, if nothing aborts the rounds. -/
def left (k : Service) (iters : ℕ) : SeqPc → ℕ
  | .test => iters * perRound k + 1
  | .slot n => (iters - 1) * perRound k + leftInRound n k + 1
  | .abort => 1
  | .give .s1 => 1
  | .give .s2 => if k = .s1 then 0 else 1
  | .exited => 0
  | _ => iters * perRound k + 1

/-- All posts of the service's semaphore. -/
def posts (k : Service) : ℕ := 5 * perRound k + 1

def held : Pc → ℕ
  | .round => 1
  | _ => 0

/-- The rounds of the service and the posts it has not used. -/
def account (s : State) (k : Service) : ℕ :=
  s.cnt k + held (s.pc k) + s.sem k + left k s.iters s.seq

structure SeqOk (s : State) : Prop where
  iters : s.iters ≤ 5
  slot : ∀ n, s.seq = .slot n → n ≤ 9 ∧ 1 ≤ s.iters
  aborted : (∃ k, s.seq = .give k) ∨ s.seq = .exited → s.abortTest = true

/-- `paid`: the rounds are paid for by posts; one of them may have been begun by an interrupt, and
then the service does not wait any more and leaves a post over. -/
structure ServiceOk (s : State) (k : Service) : Prop where
  born : s.pc k = .unborn ↔ Before k s.seq
  fresh : Before k s.seq → s.sem k = 0 ∧ s.cnt k = 0
  awake : Given k s.seq → s.pc k = .wait → 0 < s.sem k
  vars : s.vars k = (fibTest seqIterations (C k))^[s.cnt k] FibTest.init
  paid : account s k ≤ posts k ∨ (s.abortTest = true ∧ s.pc k ≠ .wait ∧
    1 ≤ s.sem k + left k s.iters s.seq ∧ account s k ≤ posts k + 1)

/-- What `main` knows by its place. -/
def MainOk (s : State) : MainPc → Prop
  | .clear => s.seq = .unborn
  | .spawn => s.seq = .unborn
  | .join .s1 => s.seq ≠ .unborn
  | .join .s2 => s.seq ≠ .unborn ∧ s.pc .s1 = .exited
  | .joinSequencer => s.seq ≠ .unborn ∧ ∀ k, s.pc k = .exited
  | .free => s.seq = .exited ∧ ∀ k, s.pc k = .exited
  | .done => s.seq = .exited ∧ ∀ k, s.pc k = .exited
  | .undefined => True

structure Inv (s : State) : Prop where
  seq : SeqOk s
  service : ∀ k, ServiceOk s k
  main : MainOk s s.main

theorem inv_init : Inv init where
  seq := ⟨le_rfl, nofun, by rintro (⟨_, h⟩ | h) <;> cases h⟩
  service k := ⟨by simp [init, Before], fun _ => ⟨rfl, rfl⟩, nofun, rfl,
    .inl (by cases k <;> decide)⟩
  main := rfl

/-! ### The steps of the sequencer -/

theorem SeqOk.stepSeq (h : SeqOk s) (hs : stepSeq s = some s') : SeqOk s' := by
  have hiters := h.iters
  unfold Sequencer.stepSeq at hs
  split at hs
  · cases hs
  · cases hs
    exact ⟨hiters, nofun, by rintro (⟨_, h⟩ | h) <;> cases h⟩
  · cases hs
    exact ⟨hiters, nofun, by rintro (⟨_, h⟩ | h) <;> cases h⟩
  · cases hs
    exact ⟨hiters, nofun, by rintro (⟨_, h⟩ | h) <;> cases h⟩
  · cases hs
    refine ⟨hiters, ?_, ?_⟩
    · dsimp only
      split_ifs with hrun
      · rintro _ ⟨⟩
        exact ⟨by omega, by omega⟩
      · nofun
    · dsimp only
      split_ifs <;> rintro (⟨_, h⟩ | h) <;> cases h
  · next n hn =>
    obtain ⟨h9, h1⟩ := h.slot n hn
    split_ifs at hs <;> cases hs
    · refine ⟨hiters, ?_, by rintro (⟨_, h⟩ | h) <;> cases h⟩
      rintro _ ⟨⟩
      exact ⟨by omega, h1⟩
    · exact ⟨by dsimp only; omega, nofun, by rintro (⟨_, h⟩ | h) <;> cases h⟩
  · cases hs
    exact ⟨hiters, nofun, fun _ => rfl⟩
  · next hk =>
    cases hs
    exact ⟨hiters, nofun, fun _ => h.aborted (.inl ⟨_, hk⟩)⟩
  · next hk =>
    cases hs
    exact ⟨hiters, nofun, fun _ => h.aborted (.inl ⟨_, hk⟩)⟩
  · cases hs

/-- The posts that are made or to come. -/
def supply (s : State) (k : Service) : ℕ := s.sem k + left k s.iters s.seq

/-- A step of the sequencer, as a service sees it: the posts made and to come stay the same unless
the rounds are aborted. -/
structure Supplied (s s' : State) (k : Service) : Prop where
  cnt : s'.cnt k = s.cnt k
  vars : s'.vars k = s.vars k
  abortTest : s.abortTest = true → s'.abortTest = true
  supply : supply s' k = supply s k ∨
    (s.seq = .test ∧ s.abortTest = true ∧ supply s' k = s.sem k + 1)

theorem Supplied.le (h : Supplied s s' k) : Sequencer.supply s' k ≤ Sequencer.supply s k := by
  rcases h.supply with heq | ⟨htest, -, heq⟩
  · exact heq.le
  · rw [heq, Sequencer.supply, htest, left]
    omega

theorem Supplied.pos (h : Supplied s s' k) (hpos : 1 ≤ Sequencer.supply s k) :
    1 ≤ Sequencer.supply s' k := by
  rcases h.supply with heq | ⟨-, -, heq⟩ <;> omega

theorem ServiceOk.paid_of_supplied (h : ServiceOk s k) (hs : Supplied s s' k)
    (hheld : held (s'.pc k) = held (s.pc k)) (hwait : s'.pc k = .wait → s.pc k = .wait) :
    account s' k ≤ posts k ∨ (s'.abortTest = true ∧ s'.pc k ≠ .wait ∧
      1 ≤ s'.sem k + left k s'.iters s'.seq ∧ account s' k ≤ posts k + 1) := by
  have hcnt := hs.cnt
  have hle := hs.le
  have hpos := hs.pos
  unfold supply at hle hpos
  unfold account
  rcases h.paid with hp | ⟨h1, h2, h3, h4⟩
  · unfold account at hp
    exact .inl (by omega)
  · unfold account at h4
    exact .inr ⟨hs.abortTest h1, fun hw => h2 (hwait hw), hpos h3, by omega⟩

theorem supply_slot {n : ℕ} (hn : n < 9) (hslot : s.seq = .slot n) (k : Service) :
    supply { semGive s (slotOf n) with seq := .slot (n + 1) } k = supply s k := by
  unfold supply semGive slotOf
  rw [hslot]
  rcases Nat.mod_two_eq_zero_or_one n with h | h
  · rw [if_pos h]
    cases k
    · simp only [Function.update_self, left, leftInRound]
      omega
    · simp only [Function.update_of_ne (by decide : Service.s2 ≠ .s1), left, leftInRound]
      omega
  · rw [if_neg (by omega)]
    cases k
    · simp only [Function.update_of_ne (by decide : Service.s1 ≠ .s2), left, leftInRound]
      omega
    · simp only [Function.update_self, left, leftInRound]
      omega

theorem supply_test (hseq : s.seq = .test) (hiters : s.iters ≠ 0) (k : Service) :
    supply { s with seq := .slot 0 } k = supply s k := by
  have hmul : s.iters * perRound k = (s.iters - 1) * perRound k + perRound k := by
    rw [← Nat.succ_mul, Nat.succ_eq_add_one, Nat.sub_add_cancel (Nat.pos_of_ne_zero hiters)]
  unfold supply
  rw [hseq]
  simp only [left, hmul]
  cases k <;> simp only [perRound, leftInRound]

theorem supplied_stepSeq (h : ServiceOk s k) (hseq : SeqOk s) (hs : stepSeq s = some s') :
    Supplied s s' k := by
  have hfresh := h.fresh
  unfold stepSeq at hs
  split at hs <;> rename_i hpc <;> rw [hpc] at hfresh
  · cases hs
  · -- the semaphores are set to 0, which they are
    cases hs
    have hsem := (hfresh trivial).1
    exact ⟨rfl, rfl, id, .inl (by simp only [supply, hpc, left, hsem])⟩
  · cases hs
    exact ⟨rfl, rfl, id, .inl (by simp only [supply, hpc, left])⟩
  · cases hs
    exact ⟨rfl, rfl, id, .inl (by simp only [supply, hpc, left])⟩
  · cases hs
    by_cases hiters : s.iters = 0
    · rw [if_neg fun hrun => hrun.2 hiters]
      exact ⟨rfl, rfl, id, .inl (by simp only [supply, hpc, left, hiters, Nat.zero_mul])⟩
    · by_cases habort : s.abortTest = false
      · rw [if_pos ⟨habort, hiters⟩]
        exact ⟨rfl, rfl, id, .inl (supply_test hpc hiters k)⟩
      · rw [if_neg fun hrun => habort hrun.1]
        exact ⟨rfl, rfl, id, .inr ⟨hpc, by simpa using habort, rfl⟩⟩
  · next n =>
    obtain ⟨h9, h1⟩ := hseq.slot n hpc
    split_ifs at hs with hn <;> cases hs
    · exact ⟨rfl, rfl, id, .inl (supply_slot hn hpc k)⟩
    · obtain rfl : n = 9 := by omega
      exact ⟨rfl, rfl, id, .inl (by cases k <;> simp only [supply, hpc, left, leftInRound])⟩
  · cases hs
    exact ⟨rfl, rfl, fun _ => rfl, .inl (by simp only [supply, hpc, left])⟩
  · cases hs
    exact ⟨rfl, rfl, id, .inl (by cases k <;> simp [supply, semGive, hpc, left])⟩
  · cases hs
    exact ⟨rfl, rfl, id, .inl (by cases k <;> simp [supply, semGive, hpc, left])⟩
  · cases hs

theorem ServiceOk.of_supplied (h : ServiceOk s k) (hs : Supplied s s' k) (hpc : s'.pc k = s.pc k)
    (hb : ¬ Before k s.seq) (hb' : ¬ Before k s'.seq)
    (hgiven : Given k s'.seq → s'.pc k = .wait → 0 < s'.sem k) : ServiceOk s' k where
  born := by
    rw [hpc, h.born]
    exact iff_of_false hb hb'
  fresh hbefore := absurd hbefore hb'
  awake := hgiven
  vars := by rw [hs.vars, hs.cnt, h.vars]
  paid := h.paid_of_supplied hs (by rw [hpc]) (by rw [hpc]; exact id)

theorem ServiceOk.stepSeq (h : ServiceOk s k) (hseq : SeqOk s) (hs : stepSeq s = some s') :
    ServiceOk s' k := by
  have hborn := h.born
  have hfresh := h.fresh
  have hawake := h.awake
  have hsup := supplied_stepSeq h hseq hs
  unfold Sequencer.stepSeq at hs
  split at hs <;> rename_i hpc <;> rw [hpc] at hborn hfresh hawake
  · cases hs
  · cases hs
    exact ⟨hborn, fun _ => ⟨rfl, (hfresh trivial).2⟩, nofun, h.vars,
      h.paid_of_supplied hsup rfl id⟩
  · cases hs
    have hunborn : s.pc k = .unborn := hborn.mpr trivial
    cases k
    · refine ⟨by simp [Before], nofun, nofun, h.vars, h.paid_of_supplied hsup ?_ ?_⟩
      · simp [hunborn, held]
      · simp
    · exact ⟨by simp [Before, hunborn], fun _ => hfresh trivial, nofun, h.vars,
        h.paid_of_supplied hsup rfl id⟩
  · cases hs
    cases k
    · exact h.of_supplied hsup rfl (by rw [hpc]; nofun) nofun nofun
    · have hunborn : s.pc .s2 = .unborn := hborn.mpr rfl
      refine ⟨by simp [Before], nofun, nofun, h.vars, h.paid_of_supplied hsup ?_ ?_⟩
      · simp [hunborn, held]
      · simp
  · cases hs
    refine h.of_supplied hsup rfl (by rw [hpc]; nofun) ?_ ?_ <;> dsimp only <;> split_ifs <;> nofun
  · split_ifs at hs <;> cases hs <;> exact h.of_supplied hsup rfl (by rw [hpc]; nofun) nofun nofun
  · cases hs
    exact h.of_supplied hsup rfl (by rw [hpc]; nofun) nofun nofun
  · cases hs
    refine h.of_supplied hsup rfl (by rw [hpc]; nofun) nofun fun hk _ => ?_
    obtain rfl : k = .s1 := hk
    simp only [semGive, Function.update_self]
    omega
  · cases hs
    refine h.of_supplied hsup rfl (by rw [hpc]; nofun) nofun fun _ hw => ?_
    cases k
    · exact hawake rfl hw
    · simp only [semGive, Function.update_self]
      omega
  · cases hs

/-! ### The other steps -/

theorem ServiceOk.congr (h : ServiceOk s k) (hpc : s'.pc k = s.pc k) (hsem : s'.sem k = s.sem k)
    (hcnt : s'.cnt k = s.cnt k) (hvars : s'.vars k = s.vars k) (hseq : s'.seq = s.seq)
    (hiters : s'.iters = s.iters) (habort : s.abortTest = true → s'.abortTest = true) :
    ServiceOk s' k := by
  obtain ⟨h1, h2, h3, h4, h5⟩ := h
  unfold account at h5
  constructor
  · rwa [hpc, hseq]
  · rwa [hsem, hcnt, hseq]
  · rwa [hpc, hsem, hseq]
  · rwa [hvars, hcnt]
  · unfold account
    rw [hpc, hsem, hcnt, hseq, hiters]
    exact h5.imp_right fun h => ⟨habort h.1, h.2⟩

theorem one_le_left (hg : ¬ Given k s.seq) : 1 ≤ left k s.iters s.seq := by
  unfold Given at hg
  unfold left
  split <;> simp_all

theorem ServiceOk.stepService (h : ServiceOk s k) (hseq : SeqOk s)
    (hs : stepService s k = some s') : ServiceOk s' k := by
  have hborn := h.born
  have hawake := h.awake
  have hpaid := h.paid
  unfold account at hpaid
  unfold Sequencer.stepService at hs
  split at hs <;> rename_i hpc <;> rw [hpc] at hborn hawake hpaid
  · cases hs
  · cases hs
    have hb : ¬ Before k s.seq := fun hb => by cases hborn.mpr hb
    refine ⟨?_, fun hbefore => absurd hbefore hb, fun hg hw => ?_, h.vars, ?_⟩
    · simp only [Function.update_self]
      exact iff_of_false (by split_ifs <;> nofun) hb
    · -- all posts are made, so the rounds are over
      have habort : s.abortTest = true := hseq.aborted (by
        unfold Given at hg
        split at hg <;> simp_all)
      simp only [Function.update_self, if_pos habort] at hw
      cases hw
    · simp only [account, Function.update_self]
      rcases hpaid with hp | ⟨h1, -, h3, h4⟩
      · left
        split_ifs <;> exact hp
      · right
        rw [if_pos h1]
        exact ⟨h1, nofun, h3, h4⟩
  · split_ifs at hs with hpos
    cases hs
    have hb : ¬ Before k s.seq := fun hb => by cases hborn.mpr hb
    refine ⟨?_, fun hbefore => absurd hbefore hb, fun _ hw => ?_, h.vars, .inl ?_⟩
    · simp only [Function.update_self]
      exact iff_of_false nofun hb
    · simp only [Function.update_self] at hw
      cases hw
    · have hp := hpaid.resolve_right fun h => h.2.1 rfl
      simp only [held] at hp
      simp only [account, Function.update_self, held]
      omega
  · cases hs
    have hb : ¬ Before k s.seq := fun hb => by cases hborn.mpr hb
    refine ⟨?_, fun hbefore => absurd hbefore hb, fun _ hw => ?_, ?_, ?_⟩
    · simp only [Function.update_self]
      exact iff_of_false nofun hb
    · simp only [Function.update_self] at hw
      cases hw
    · simp only [Function.update_self, Function.iterate_succ_apply', h.vars]
    · simp only [held] at hpaid
      simp only [account, Function.update_self, held]
      refine hpaid.imp (fun hp => by omega) fun ⟨h1, _, h3, h4⟩ => ⟨h1, nofun, h3, by omega⟩
  · cases hs

/-- An interrupted service has begun a round without a post, and leaves one over. -/
theorem ServiceOk.interrupt (h : ServiceOk s k) (hwait : s.pc k = .wait) (hsem : s.sem k = 0) :
    ServiceOk { s with abortTest := true, pc := Function.update s.pc k .round } k := by
  have hb : ¬ Before k s.seq := fun hb => by
    have := h.born.mpr hb
    rw [hwait] at this
    cases this
  have hleft : 1 ≤ left k s.iters s.seq := one_le_left fun hg => by
    have := h.awake hg hwait
    omega
  have hp := h.paid.resolve_right fun h => h.2.1 hwait
  unfold account at hp
  rw [hwait] at hp
  refine ⟨?_, fun hbefore => absurd hbefore hb, fun _ hw => ?_, h.vars, .inr ⟨rfl, ?_, ?_, ?_⟩⟩
  · simp only [Function.update_self]
    exact iff_of_false nofun hb
  · simp only [Function.update_self] at hw
    cases hw
  · simp only [Function.update_self]
    nofun
  · dsimp only
    omega
  · simp only [held] at hp
    simp only [account, Function.update_self, held]
    omega

theorem MainOk.mono {m : MainPc} (h : MainOk s m) (hunborn : s'.seq = .unborn ↔ s.seq = .unborn)
    (hseq : s.seq = .exited → s'.seq = .exited)
    (hpc : ∀ k, s.pc k = .exited → s'.pc k = .exited) : MainOk s' m := by
  have hall : (∀ k, s.pc k = .exited) → ∀ k, s'.pc k = .exited := fun h k => hpc k (h k)
  unfold MainOk at h ⊢
  split at h
  · exact hunborn.mpr h
  · exact hunborn.mpr h
  · exact mt hunborn.mp h
  · exact ⟨mt hunborn.mp h.1, hpc _ h.2⟩
  · exact ⟨mt hunborn.mp h.1, hall h.2⟩
  · exact ⟨hseq h.1, hall h.2⟩
  · exact ⟨hseq h.1, hall h.2⟩
  · trivial

/-! ### All steps -/

theorem Inv.setMain (h : Inv s) {m : MainPc} (hm : MainOk s m) : Inv { s with main := m } where
  seq := ⟨h.seq.iters, h.seq.slot, h.seq.aborted⟩
  service k := (h.service k).congr rfl rfl rfl rfl rfl rfl id
  main := hm.mono Iff.rfl id fun _ => id

theorem inv_stepMain (h : Inv s) (hs : stepMain s = some s') : Inv s' := by
  have hmain := h.main
  unfold stepMain at hs
  split at hs <;> rename_i hpc <;> rw [hpc] at hmain
  · -- a `ctrl_c` that came before is forgotten
    cases hs
    have hun : s.seq = .unborn := hmain
    refine ⟨⟨h.seq.iters, h.seq.slot, ?_⟩, fun k => ?_, hmain⟩
    · rw [hun]
      rintro (⟨_, h⟩ | h) <;> cases h
    · obtain ⟨h1, h2, h3, h4, -⟩ := h.service k
      have hb : Before k s.seq := by rw [hun]; trivial
      have hiters : s.iters * perRound k ≤ 5 * perRound k :=
        Nat.mul_le_mul_right _ h.seq.iters
      have hleft : left k s.iters s.seq = s.iters * perRound k + 1 := by rw [hun]; rfl
      refine ⟨h1, h2, h3, h4, .inl ?_⟩
      simp only [account, posts, h1.mpr hb, (h2 hb).1, (h2 hb).2, held, hleft]
      omega
  · cases hs
    have hun : s.seq = .unborn := hmain
    refine ⟨⟨h.seq.iters, nofun, by rintro (⟨_, h⟩ | h) <;> cases h⟩, fun k => ?_, nofun⟩
    obtain ⟨h1, h2, -, h4, h5⟩ := h.service k
    unfold account at h5
    rw [hun] at h1 h2 h5
    exact ⟨h1, h2, nofun, h4, h5⟩
  · unfold joinService at hs
    split at hs <;> cases hs
    · exact h.setMain trivial
    · next hex => exact h.setMain ⟨hmain, hex⟩
  · unfold joinService at hs
    split at hs <;> cases hs
    · exact h.setMain trivial
    · next hex => exact h.setMain ⟨hmain.1, fun k => by cases k <;> [exact hmain.2; exact hex]⟩
  · split_ifs at hs with hex
    cases hs
    exact h.setMain ⟨hex, hmain.2⟩
  · cases hs
    exact h.setMain hmain
  · cases hs
  · cases hs

theorem stepSeq_frame (hs : stepSeq s = some s') : s'.main = s.main ∧ s.seq ≠ .unborn ∧
    s'.seq ≠ .unborn ∧ s.seq ≠ .exited ∧
    (s'.abortTest = s.abortTest ∨ s'.seq = .give .s1) ∧
    ∀ k, s'.pc k = s.pc k ∨ Before k s.seq ∧ s'.pc k = .test := by
  unfold stepSeq at hs
  split at hs <;> rename_i hpc <;> rw [hpc]
  · cases hs
  · cases hs
    exact ⟨rfl, nofun, nofun, nofun, .inl rfl, fun _ => .inl rfl⟩
  · cases hs
    refine ⟨rfl, nofun, nofun, nofun, .inl rfl, fun k => ?_⟩
    cases k
    · exact .inr ⟨trivial, rfl⟩
    · exact .inl rfl
  · cases hs
    refine ⟨rfl, nofun, nofun, nofun, .inl rfl, fun k => ?_⟩
    cases k
    · exact .inl rfl
    · exact .inr ⟨rfl, rfl⟩
  · cases hs
    refine ⟨rfl, nofun, ?_, nofun, .inl rfl, fun _ => .inl rfl⟩
    dsimp only
    split_ifs <;> nofun
  · split_ifs at hs <;> cases hs <;> exact ⟨rfl, nofun, nofun, nofun, .inl rfl, fun _ => .inl rfl⟩
  · cases hs
    exact ⟨rfl, nofun, nofun, nofun, .inr rfl, fun _ => .inl rfl⟩
  · cases hs
    exact ⟨rfl, nofun, nofun, nofun, .inl rfl, fun _ => .inl rfl⟩
  · cases hs
    exact ⟨rfl, nofun, nofun, nofun, .inl rfl, fun _ => .inl rfl⟩
  · cases hs

theorem stepService_frame (hs : stepService s k = some s') : s'.main = s.main ∧ s'.seq = s.seq ∧
    s'.iters = s.iters ∧ s'.abortTest = s.abortTest ∧ s.pc k ≠ .exited ∧ s.pc k ≠ .unborn ∧
    ∀ j, j ≠ k → s'.pc j = s.pc j ∧ s'.sem j = s.sem j ∧ s'.cnt j = s.cnt j ∧
      s'.vars j = s.vars j := by
  unfold stepService at hs
  split at hs <;> rename_i hpc <;> rw [hpc]
  · cases hs
  · cases hs
    exact ⟨rfl, rfl, rfl, rfl, nofun, nofun,
      fun j hj => ⟨Function.update_of_ne hj _ _, rfl, rfl, rfl⟩⟩
  · split_ifs at hs
    cases hs
    exact ⟨rfl, rfl, rfl, rfl, nofun, nofun,
      fun j hj => ⟨Function.update_of_ne hj _ _, Function.update_of_ne hj _ _, rfl, rfl⟩⟩
  · cases hs
    exact ⟨rfl, rfl, rfl, rfl, nofun, nofun, fun j hj => ⟨Function.update_of_ne hj _ _, rfl,
      Function.update_of_ne hj _ _, Function.update_of_ne hj _ _⟩⟩
  · cases hs

theorem inv_step (h : Inv s) (hs : step s a = some s') : Inv s' := by
  unfold step at hs
  split_ifs at hs
  cases a with
  | main => exact inv_stepMain h hs
  | seq =>
    replace hs : stepSeq s = some s' := hs
    obtain ⟨hm, h1, h2, h3, -, hpc⟩ := stepSeq_frame hs
    refine ⟨h.seq.stepSeq hs, fun k => (h.service k).stepSeq h.seq hs, ?_⟩
    rw [hm]
    refine h.main.mono (iff_of_false h2 h1) (fun hex => absurd hex h3) fun k hex => ?_
    rcases hpc k with heq | ⟨hb, -⟩
    · rw [heq, hex]
    · have := (h.service k).born.mpr hb
      rw [hex] at this
      cases this
  | service k =>
    replace hs : stepService s k = some s' := hs
    obtain ⟨hm, hseq, hiters, habort, hex, -, hother⟩ := stepService_frame hs
    refine ⟨⟨by rw [hiters]; exact h.seq.iters, by rw [hseq, hiters]; exact h.seq.slot,
      by rw [hseq, habort]; exact h.seq.aborted⟩, fun j => ?_, ?_⟩
    · by_cases hj : j = k
      · subst hj
        exact (h.service j).stepService h.seq hs
      · obtain ⟨h1, h2, h3, h4⟩ := hother j hj
        exact (h.service j).congr h1 h2 h3 h4 hseq hiters (by rw [habort]; exact id)
    · rw [hm]
      refine h.main.mono (by rw [hseq]) (by rw [hseq]; exact id) fun j hj => ?_
      have hjk : j ≠ k := by
        rintro rfl
        exact hex hj
      rw [(hother j hjk).1, hj]
  | ctrlC interrupted =>
    replace hs : ctrlC s interrupted = some s' := hs
    unfold ctrlC at hs
    split at hs
    · cases hs
      exact ⟨⟨h.seq.iters, h.seq.slot, fun _ => rfl⟩,
        fun k => (h.service k).congr rfl rfl rfl rfl rfl rfl fun _ => rfl,
        h.main.mono Iff.rfl id fun _ => id⟩
    · next k =>
      split_ifs at hs with hk
      cases hs
      refine ⟨⟨h.seq.iters, h.seq.slot, fun _ => rfl⟩, fun j => ?_, ?_⟩
      · by_cases hj : j = k
        · subst hj
          exact (h.service j).interrupt hk.1 hk.2
        · exact (h.service j).congr (Function.update_of_ne hj _ _) rfl rfl rfl rfl rfl fun _ => rfl
      · refine h.main.mono Iff.rfl id fun j hj => ?_
        have hjk : j ≠ k := by
          rintro rfl
          rw [hk.1] at hj
          cases hj
        rw [← hj]
        exact Function.update_of_ne hjk _ _

theorem inv_reach (h : Reach step Any init s) : Inv s :=
  h.invariant inv_init fun hi _ hs => inv_step hi hs

/-! ### Runs are finite -/

def MainPc.rank : MainPc → ℕ
  | .clear => 6
  | .spawn => 5
  | .join .s1 => 4
  | .join .s2 => 3
  | .joinSequencer => 2
  | .free => 1
  | .done => 0
  | .undefined => 0

/-- The steps of the sequencer that are to come. -/
def SeqPc.rank (iters : ℕ) : SeqPc → ℕ
  | .unborn => 11 * iters + 7
  | .init => 11 * iters + 7
  | .spawn .s1 => 11 * iters + 6
  | .spawn .s2 => 11 * iters + 5
  | .test => 11 * iters + 4
  | .slot n => 11 * (iters - 1) + 4 + (10 - n)
  | .abort => 3
  | .give .s1 => 2
  | .give .s2 => 1
  | .exited => 0

def Pc.rank : Pc → ℕ
  | .unborn => 0
  | .test => 1
  | .wait => 0
  | .round => 2
  | .exited => 0

/-- A post is worth the three steps of a round. -/
def serviceRank (s : State) (k : Service) : ℕ := 3 * s.sem k + (s.pc k).rank

def rank (s : State) : ℕ :=
  s.main.rank + 4 * s.seq.rank s.iters + serviceRank s .s1 + serviceRank s .s2

/-- What a `ctrl_c` can add. -/
def cost : Action → ℕ
  | .ctrlC _ => 3
  | _ => 0

theorem serviceRank_update (hs : stepService s k = some s') :
    serviceRank s' k < serviceRank s k := by
  unfold stepService at hs
  split at hs <;> rename_i hpc
  · cases hs
  · cases hs
    simp only [serviceRank, hpc, Function.update_self]
    split_ifs <;> simp [Pc.rank]
  · split_ifs at hs
    cases hs
    simp only [serviceRank, hpc, Function.update_self, Pc.rank]
    omega
  · cases hs
    simp only [serviceRank, hpc, Function.update_self, Pc.rank]
    omega
  · cases hs

theorem rank_stepMain (h : Inv s) (hs : stepMain s = some s') : rank s' < rank s := by
  have hmain := h.main
  unfold stepMain joinService at hs
  split at hs <;> rename_i hpc <;> rw [hpc] at hmain
  · cases hs
    simp only [rank, serviceRank, hpc, MainPc.rank]
    omega
  · have hun : s.seq = .unborn := hmain
    cases hs
    simp only [rank, serviceRank, hpc, hun, MainPc.rank, SeqPc.rank]
    omega
  · split at hs <;> cases hs <;> simp only [rank, serviceRank, hpc, MainPc.rank] <;> omega
  · split at hs <;> cases hs <;> simp only [rank, serviceRank, hpc, MainPc.rank] <;> omega
  · split_ifs at hs
    cases hs
    simp only [rank, serviceRank, hpc, MainPc.rank]
    omega
  · cases hs
    simp only [rank, serviceRank, hpc, MainPc.rank]
    omega
  · cases hs
  · cases hs

/-- A post adds less to the services than the sequencer gives up for it. -/
theorem serviceRank_semGive (s : State) (j : Service) :
    serviceRank (semGive s j) .s1 + serviceRank (semGive s j) .s2 =
      serviceRank s .s1 + serviceRank s .s2 + 3 := by
  cases j <;> simp [serviceRank, semGive] <;> omega

theorem rank_stepSeq (h : Inv s) (hs : stepSeq s = some s') : rank s' < rank s := by
  unfold stepSeq at hs
  split at hs <;> rename_i hpc
  · cases hs
  · cases hs
    simp only [rank, serviceRank, hpc, SeqPc.rank]
    omega
  · have hborn : s.pc .s1 = .unborn := (h.service .s1).born.mpr (by rw [hpc]; trivial)
    cases hs
    simp [rank, serviceRank, hpc, hborn, SeqPc.rank, Pc.rank]
    omega
  · have hborn : s.pc .s2 = .unborn := (h.service .s2).born.mpr (by rw [hpc]; rfl)
    cases hs
    simp [rank, serviceRank, hpc, hborn, SeqPc.rank, Pc.rank]
    omega
  · cases hs
    simp only [rank, serviceRank, hpc]
    split_ifs with hrun <;> simp only [SeqPc.rank] <;> omega
  · next n =>
    obtain ⟨h9, h1⟩ := h.seq.slot n hpc
    split_ifs at hs <;> cases hs
    · have hgive := serviceRank_semGive s (slotOf n)
      simp only [rank, hpc, SeqPc.rank, serviceRank, semGive] at hgive ⊢
      omega
    · simp only [rank, serviceRank, hpc, SeqPc.rank]
      omega
  · cases hs
    simp only [rank, serviceRank, hpc, SeqPc.rank]
    omega
  · have hgive := serviceRank_semGive s .s1
    cases hs
    simp only [rank, hpc, SeqPc.rank, serviceRank, semGive] at hgive ⊢
    omega
  · have hgive := serviceRank_semGive s .s2
    cases hs
    simp only [rank, hpc, SeqPc.rank, serviceRank, semGive] at hgive ⊢
    omega
  · cases hs

theorem rank_step (h : Inv s) (hs : step s a = some s') : rank s' < rank s + cost a := by
  unfold step at hs
  split_ifs at hs
  cases a with
  | main => exact rank_stepMain h hs
  | seq => exact rank_stepSeq h hs
  | service k =>
    replace hs : stepService s k = some s' := hs
    have hk := serviceRank_update hs
    obtain ⟨hm, hseq, hiters, -, -, -, hother⟩ := stepService_frame hs
    simp only [rank, hm, hseq, hiters, cost]
    cases k
    · obtain ⟨hpc, hsem, -⟩ := hother .s2 nofun
      simp only [serviceRank, hpc, hsem] at hk ⊢
      omega
    · obtain ⟨hpc, hsem, -⟩ := hother .s1 nofun
      simp only [serviceRank, hpc, hsem] at hk ⊢
      omega
  | ctrlC interrupted =>
    replace hs : ctrlC s interrupted = some s' := hs
    unfold ctrlC at hs
    split at hs
    · cases hs
      exact Nat.lt_add_of_pos_right (by decide)
    · next k =>
      split_ifs at hs with hk
      cases hs
      cases k <;> simp [rank, serviceRank, hk.1, Pc.rank, cost] <;> omega

/-- **Every run is finite**, but for what `ctrl_c` can add. -/
theorem length_le {as : List Action} (hrun : exec step Any init as = some s) :
    as.length ≤ 254 + (as.map cost).sum := by
  have hle := length_add_rank_le cost (fun hi _ hs => inv_step hi hs)
    (fun hi _ hs => rank_step hi hs) inv_init hrun
  have hrank : rank init = 254 := by decide
  omega

/-! ### How runs end -/

/-- All threads have returned, and the logs are freed. -/
structure Finished (s : State) : Prop where
  main : s.main = .done
  seq : s.seq = .exited
  exited : ∀ k, s.pc k = .exited

theorem stepSeq_eq_none (hs : stepSeq s = none) : s.seq = .unborn ∨ s.seq = .exited := by
  unfold stepSeq at hs
  split at hs <;> rename_i hpc
  · exact .inl hpc
  all_goals try cases hs
  · split_ifs at hs
  · exact .inr hpc

theorem stepService_eq_none (hs : stepService s k = none) :
    s.pc k = .unborn ∨ s.pc k = .exited ∨ s.pc k = .wait ∧ s.sem k = 0 := by
  unfold stepService at hs
  split at hs <;> rename_i hpc
  · exact .inl hpc
  · cases hs
  · split_ifs at hs with hpos
    exact .inr (.inr ⟨hpc, by omega⟩)
  · cases hs
  · exact .inr (.inl hpc)

/-- **Only the end is an end**: where no step of a thread is possible, everything has returned. -/
theorem finished_of_stuck (h : Inv s) (hmain : stepMain s = none) (hseq : stepSeq s = none)
    (hservice : ∀ k, stepService s k = none) (hdef : s.main ≠ .undefined) : Finished s := by
  have hm := h.main
  have hexited : s.seq = .exited → ∀ k, s.pc k = .exited := by
    intro hex k
    have hs := h.service k
    rcases stepService_eq_none (hservice k) with hpc | hpc | ⟨hpc, hsem⟩
    · have := hs.born.mp hpc
      rw [hex] at this
      cases this
    · exact hpc
    · have := hs.awake (by rw [hex]; trivial) hpc
      omega
  rcases stepSeq_eq_none hseq with hun | hex
  · -- `main` creates the sequencer
    unfold stepMain at hmain
    split at hmain <;> rename_i hpc <;> rw [hpc] at hm
    · cases hmain
    · cases hmain
    · exact absurd hun hm
    · exact absurd hun hm.1
    · exact absurd hun hm.1
    · cases hmain
    · rw [hm.1] at hun
      cases hun
    · exact absurd hpc hdef
  · have hall := hexited hex
    unfold stepMain joinService at hmain
    rw [hall, hall] at hmain
    split at hmain <;> rename_i hpc
    any_goals cases hmain
    · rw [if_pos hex] at hmain
      cases hmain
    · exact ⟨hpc, hex, hall⟩
    · exact absurd hpc hdef

/-! ### Without `ctrl_c` -/

/-- Only the threads take steps. -/
def Undisturbed (_ : State) (a : Action) : Prop := cost a = 0

instance (s : State) (a : Action) : Decidable (Undisturbed s a) :=
  inferInstanceAs (Decidable (_ = _))

/-- Nothing aborts the rounds, and every post is accounted for. -/
structure Exact (s : State) : Prop where
  aborted : s.abortTest = true → (∃ k, s.seq = .give k) ∨ s.seq = .exited
  account : ∀ k, account s k = posts k

theorem exact_init : Exact init := ⟨nofun, fun k => by cases k <;> decide⟩

theorem account_stepService (hs : stepService s k = some s') : account s' k = account s k := by
  obtain ⟨-, hseq, hiters, -⟩ := stepService_frame hs
  unfold account
  rw [hseq, hiters]
  unfold stepService at hs
  split at hs <;> rename_i hpc
  · cases hs
  · cases hs
    simp only [hpc, Function.update_self]
    split_ifs <;> rfl
  · split_ifs at hs
    cases hs
    simp only [hpc, Function.update_self, held]
    omega
  · cases hs
    simp only [hpc, Function.update_self, held]
  · cases hs

theorem account_stepSeq (h : Inv s) (he : Exact s) (hs : stepSeq s = some s') (k : Service) :
    account s' k = account s k := by
  have hsup := supplied_stepSeq (h.service k) h.seq hs
  have hsupply : supply s' k = supply s k := hsup.supply.resolve_right fun ⟨htest, habort, _⟩ => by
    rcases he.aborted habort with ⟨_, hk⟩ | hk <;> rw [htest] at hk <;> cases hk
  have hheld : held (s'.pc k) = held (s.pc k) := by
    rcases (stepSeq_frame hs).2.2.2.2.2 k with heq | ⟨hb, heq⟩
    · rw [heq]
    · rw [heq, (h.service k).born.mpr hb]
      rfl
  have hcnt := hsup.cnt
  unfold supply at hsupply
  unfold account
  omega

theorem aborted_stepSeq (he : Exact s) (hs : stepSeq s = some s') (habort : s'.abortTest = true) :
    (∃ k, s'.seq = .give k) ∨ s'.seq = .exited := by
  rcases (stepSeq_frame hs).2.2.2.2.1 with heq | hgive
  · rcases he.aborted (heq ▸ habort) with ⟨k, hk⟩ | hk
    · unfold stepSeq at hs
      rw [hk] at hs
      cases k <;> cases hs
      · exact .inl ⟨_, rfl⟩
      · exact .inr rfl
    · exact absurd hk (stepSeq_frame hs).2.2.2.1
  · exact .inl ⟨_, hgive⟩

theorem exact_step (h : Inv s) (he : Exact s) (hok : Undisturbed s a) (hs : step s a = some s') :
    Exact s' := by
  unfold step at hs
  split_ifs at hs
  cases a with
  | main =>
    replace hs : stepMain s = some s' := hs
    have hmain := h.main
    unfold stepMain joinService at hs
    split at hs <;> rename_i hpc <;> rw [hpc] at hmain
    · cases hs
      exact ⟨nofun, he.account⟩
    · have hun : s.seq = .unborn := hmain
      cases hs
      refine ⟨fun habort => ?_, fun k => ?_⟩
      · rcases he.aborted habort with ⟨_, hk⟩ | hk <;> rw [hun] at hk <;> cases hk
      · rw [← he.account k]
        simp only [account, hun, left]
    · split at hs <;> cases hs <;> exact ⟨he.aborted, he.account⟩
    · split at hs <;> cases hs <;> exact ⟨he.aborted, he.account⟩
    · split_ifs at hs
      cases hs
      exact ⟨he.aborted, he.account⟩
    · cases hs
      exact ⟨he.aborted, he.account⟩
    · cases hs
    · cases hs
  | seq =>
    exact ⟨aborted_stepSeq he hs, fun k => (account_stepSeq h he hs k).trans (he.account k)⟩
  | service k =>
    replace hs : stepService s k = some s' := hs
    obtain ⟨-, hseq, hiters, habort, -, -, hother⟩ := stepService_frame hs
    refine ⟨by rw [habort, hseq]; exact he.aborted, fun j => ?_⟩
    by_cases hj : j = k
    · subst hj
      exact (account_stepService hs).trans (he.account j)
    · obtain ⟨h1, h2, h3, -⟩ := hother j hj
      rw [← he.account j]
      simp only [account, h1, h2, h3, hseq, hiters]
  | ctrlC => cases hok

theorem exact_reach (h : Reach step Undisturbed init s) : Exact s := by
  refine (h.invariant (P := fun s => Inv s ∧ Exact s) ⟨inv_init, exact_init⟩ ?_).2
  exact fun hi hok hs => ⟨inv_step hi.1 hs, exact_step hi.1 hi.2 hok hs⟩

/-! ### The results -/

theorem cnt_le (h : Inv s) (k : Service) : s.cnt k ≤ posts k := by
  have hpaid := (h.service k).paid
  unfold account at hpaid
  omega

/-- Both services exist, and no join has failed. -/
structure Underway (s : State) : Prop where
  inv : Inv s
  main : s.main ≠ .undefined
  born : ∀ k, s.pc k ≠ .unborn

theorem Underway.step (h : Underway s) (hok : Undisturbed s a)
    (hs : Sequencer.step s a = some s') : Underway s' := by
  have hinv := inv_step h.inv hs
  unfold Sequencer.step at hs
  split_ifs at hs
  cases a with
  | main =>
    replace hs : stepMain s = some s' := hs
    unfold stepMain joinService at hs
    split at hs
    · cases hs
      exact ⟨hinv, nofun, h.born⟩
    · cases hs
      exact ⟨hinv, nofun, h.born⟩
    · split at hs <;> cases hs
      · next hun => exact absurd hun (h.born .s1)
      · exact ⟨hinv, nofun, h.born⟩
    · split at hs <;> cases hs
      · next hun => exact absurd hun (h.born .s2)
      · exact ⟨hinv, nofun, h.born⟩
    · split_ifs at hs
      cases hs
      exact ⟨hinv, nofun, h.born⟩
    · cases hs
      exact ⟨hinv, nofun, h.born⟩
    · cases hs
    · cases hs
  | seq =>
    obtain ⟨hm, -, -, -, -, hpc⟩ := stepSeq_frame hs
    refine ⟨hinv, by rw [hm]; exact h.main, fun k => ?_⟩
    rcases hpc k with heq | ⟨-, heq⟩ <;> rw [heq]
    · exact h.born k
    · nofun
  | service k =>
    obtain ⟨hm, hseq, -⟩ := stepService_frame hs
    refine ⟨hinv, by rw [hm]; exact h.main, fun j hj => ?_⟩
    have hb := (hinv.service j).born.mp hj
    rw [hseq] at hb
    exact h.born j ((h.inv.service j).born.mpr hb)
  | ctrlC => cases hok

theorem Underway.exists_step (h : Underway s) (hn : ¬ Finished s) :
    ∃ a s', Undisturbed s a ∧ Sequencer.step s a = some s' := by
  by_contra hstuck
  have hnone : ∀ a, Undisturbed s a → Sequencer.step s a = none := fun a ha =>
    Option.eq_none_iff_forall_ne_some.mpr fun s' hs => hstuck ⟨a, s', ha, hs⟩
  unfold Sequencer.step at hnone
  simp only [if_neg h.main] at hnone
  exact hn (finished_of_stuck h.inv (hnone .main rfl) (hnone .seq rfl)
    (fun k => hnone (.service k) rfl) h.main)

/-- **Once the services exist** the threads can always be brought to their ends. -/
theorem exists_finished (h : Underway s) : ∃ s', Reach step Undisturbed s s' ∧ Finished s' := by
  induction hr : rank s using Nat.strong_induction_on generalizing s with
  | _ r ih =>
    by_cases hn : Finished s
    · exact ⟨s, .init, hn⟩
    · obtain ⟨a, s₁, hok, hs⟩ := h.exists_step hn
      have hlt : rank s₁ < r := by
        have := rank_step h.inv hs
        rw [show cost a = 0 from hok] at this
        omega
      obtain ⟨s', hreach, hfin⟩ := ih _ hlt (h.step hok hs) rfl
      exact ⟨s', (Reach.single hok hs).trans hreach, hfin⟩

/-- The services are created before `main` joins the first one. -/
def creation : List Action := [.main, .main, .seq, .seq, .seq]

/-- **The end of every run.** A run is at most 254 steps long, but for three more for each `ctrl_c`,
and a state in which no thread can take a step is the end of all threads. No service works off more
rounds than its semaphore is posted in all, and the logs are freed when both have returned. Only a
join of a service that has not been created is undefined, and nothing prevents it. -/
theorem finishes :
    (∀ as s, exec step Any init as = some s → as.length ≤ 254 + (as.map cost).sum) ∧
      (∀ s, Reach step Any init s → s.main ≠ .undefined →
        (∀ a, Undisturbed s a → step s a = none) → Finished s) ∧
      (∀ s, Reach step Any init s → ∀ k, s.cnt k ≤ posts k ∧
        s.vars k = (fibTest seqIterations (C k))^[s.cnt k] FibTest.init ∧
        (s.main = .free ∨ s.main = .done → s.pc k = .exited)) ∧
      (∃ s, Reach step Undisturbed init s ∧ s.main = .undefined) := by
  refine ⟨fun as s hrun => length_le hrun, fun s hs hdef hstuck => ?_, fun s hs k => ?_, ?_⟩
  · have hinv := inv_reach hs
    unfold Undisturbed step at hstuck
    simp only [if_neg hdef] at hstuck
    exact finished_of_stuck hinv (hstuck .main rfl) (hstuck .seq rfl)
      (fun k => hstuck (.service k) rfl) hdef
  · have hinv := inv_reach hs
    refine ⟨cnt_le hinv k, (hinv.service k).vars, ?_⟩
    have hmain := hinv.main
    rintro (h | h) <;> rw [h] at hmain <;> exact hmain.2 k
  · have hrun : (exec step Undisturbed init [.main, .main, .main]).map State.main =
        some .undefined := rfl
    obtain ⟨s, hs, heq⟩ := Reach.exists_of_exec hrun
    exact ⟨s, hs, heq⟩

/-- **Without `ctrl_c`** the rounds of a service and the posts it leaves are those of `Sequencer`,
26 and 21, and such runs do come to an end. -/
theorem rounds_undisturbed :
    (∀ s, Reach step Undisturbed init s → Finished s → ∀ k, s.cnt k + s.sem k = posts k) ∧
      ∃ s, Reach step Undisturbed init s ∧ Finished s := by
  constructor
  · intro s hs hfin k
    have haccount := (exact_reach hs).account k
    simp only [account, hfin.exited, hfin.seq, held, left] at haccount
    omega
  · have hrun : (exec step Undisturbed init creation).map
        (fun s => (s.main, s.pc .s1, s.pc .s2)) = some (.join .s1, .test, .test) := rfl
    obtain ⟨s, hs, heq⟩ := Reach.exists_of_exec hrun
    simp only [Prod.mk.injEq] at heq
    obtain ⟨hm, h1, h2⟩ := heq
    have hborn : ∀ k, s.pc k ≠ .unborn := by
      intro k
      cases k
      · rw [h1]; nofun
      · rw [h2]; nofun
    obtain ⟨s', hreach, hfin⟩ :=
      exists_finished ⟨inv_reach (hs.mono fun _ _ _ => trivial), by rw [hm]; nofun, hborn⟩
    exact ⟨s', hs.trans hreach, hfin⟩

example : posts .s1 = 26 ∧ posts .s2 = 21 := by decide

end Ecen5623.Exercise1.Sequencer
