import Ecen5623.Library.Transition
import Mathlib.Algebra.BigOperators.Ring.Finset
import Mathlib.Algebra.Ring.Int.Defs
import Mathlib.Data.Fintype.Basic

/-! # The counter of the write-out queue

`enqueue_P` and `dequeue_P` of `simple-capture/queue.c`, called on `writeout_Q` by any number of
threads. The load and the store of a counter update, the test of the counter and each operation on
the POSIX queue are one step each. A send succeeds when the queue has room; a receive takes the
oldest message, and has no step while the queue is empty unless it fails. -/

namespace Ecen5623.Capture.WriteoutQueue

open Ecen5623.Library

/-- `NUM_WO_BUF`, which is also `WRITEOUT_Q_SIZE`. -/
abbrev numWoBuf : ℕ := 300

/-- How the last call of a thread has ended. -/
inductive Return (α : Type*) where
  | start
  | sent
  | full
  | failed
  | received (b : α)
  deriving DecidableEq, Repr

/-- What the call returned. -/
def Return.rc {α : Type*} : Return α → ℤ
  | .start => 0
  | .sent => 0
  | .full => -1
  | .failed => -1
  | .received _ => 0

/-- Where a thread is. The argument `p` of `enqueue_P` is `none` for `NULL`; `reg` is the value a
counter update has loaded; `b` is the local buffer. -/
inductive Pc (α : Type*) where
  | idle (ret : Return α)
  | test (p : Option α)
  | up (p : Option α) (reg : Option ℤ)
  | copy (p : Option α)
  | send (b : α)
  | down (reg : Option ℤ)
  | receive
  | copyOut (b : α)
  deriving DecidableEq, Repr

/-- The counter, the POSIX queue and the threads. -/
structure State (Tid α : Type*) where
  enqueuePCount : ℤ
  queue : List α
  pc : Tid → Pc α

/-- What an operation on the POSIX queue returns: success, `EAGAIN`, or a time-out or other
error. -/
inductive Rc where
  | ok
  | eagain
  | error
  deriving DecidableEq, Repr

/-- A thread calls one of the functions or goes on in its call. Only the operations on the POSIX
queue look at what they return. -/
inductive Act (α : Type*) where
  | enqueueP (p : Option α)
  | dequeueP
  | go (rc : Rc)
  deriving DecidableEq, Repr

variable {Tid α : Type*} [DecidableEq Tid]

def State.goto (s : State Tid α) (t : Tid) (pc : Pc α) : State Tid α :=
  { s with pc := Function.update s.pc t pc }

/-- The queue is empty and no call is in progress. -/
def init : State Tid α where
  enqueuePCount := 0
  queue := []
  pc _ := .idle .start

/-- A thread that is in no call enters one. -/
def call (s : State Tid α) (t : Tid) (pc : Pc α) : Option (State Tid α) :=
  match s.pc t with
  | .idle _ => some (s.goto t pc)
  | _ => none

/-- A thread goes on in its call. -/
def goOn (s : State Tid α) (t : Tid) (rc : Rc) : Pc α → Option (State Tid α)
  | .idle _ => none
  | .test p =>
    if s.enqueuePCount = numWoBuf then some (s.goto t (.idle .full))
    else some (s.goto t (.up p none))
  | .up p none => some (s.goto t (.up p (some s.enqueuePCount)))
  | .up p (some v) => some ({ s with enqueuePCount := v + 1 }.goto t (.copy p))
  | .copy none => some (s.goto t (.idle .failed))
  | .copy (some b) => some (s.goto t (.send b))
  | .send b =>
    match rc with
    | .ok =>
      if s.queue.length < numWoBuf then
        some ({ s with queue := s.queue ++ [b] }.goto t (.idle .sent))
      else none
    | _ => some (s.goto t (.idle .failed))
  | .down none => some (s.goto t (.down (some s.enqueuePCount)))
  | .down (some v) => some ({ s with enqueuePCount := v - 1 }.goto t .receive)
  | .receive =>
    match rc with
    | .ok =>
      match s.queue with
      | [] => none
      | b :: q => some ({ s with queue := q }.goto t (.copyOut b))
    | .eagain => some s
    | .error => some (s.goto t (.idle .failed))
  | .copyOut b => some (s.goto t (.idle (.received b)))

/-- One step of one thread. -/
def step (s : State Tid α) (a : Tid × Act α) : Option (State Tid α) :=
  match a.2 with
  | .enqueueP p => call s a.1 (.test p)
  | .dequeueP => call s a.1 (.down none)
  | .go rc => goOn s a.1 rc (s.pc a.1)

theorem State.goto_pc_self (s : State Tid α) (t : Tid) (pc : Pc α) : (s.goto t pc).pc t = pc :=
  Function.update_self ..

theorem State.goto_pc_ne {s : State Tid α} {t u : Tid} (hu : u ≠ t) (pc : Pc α) :
    (s.goto t pc).pc u = s.pc u :=
  Function.update_of_ne hu _ _

theorem eq_goto_of_call {s s' : State Tid α} {t : Tid} {pc : Pc α} (h : call s t pc = some s') :
    s' = s.goto t pc := by
  unfold call at h
  split at h
  · cases h
    rfl
  · cases h

theorem step_pc_ne {s s' : State Tid α} {a : Tid × Act α} {u : Tid} (hu : u ≠ a.1)
    (h : step s a = some s') : s'.pc u = s.pc u := by
  obtain ⟨t, a⟩ := a
  cases a with
  | enqueueP p =>
    rw [eq_goto_of_call h]
    exact State.goto_pc_ne hu _
  | dequeueP =>
    rw [eq_goto_of_call h]
    exact State.goto_pc_ne hu _
  | go rc =>
    simp only [step] at h
    unfold goOn at h
    repeat' split at h
    all_goals first
      | cases h; rfl
      | cases h; exact State.goto_pc_ne hu _
      | cases h

/-! ### What the counter should say -/

def Pc.Idle : Pc α → Prop
  | .idle _ => True
  | _ => False

instance (pc : Pc α) : Decidable pc.Idle := by cases pc <;> unfold Pc.Idle <;> infer_instance

/-- `enqueue_P` finds the counter at its bound. -/
def ReportsFull (s : State Tid α) (a : Tid × Act α) : Prop :=
  (∃ p rc, s.pc a.1 = .test p ∧ a.2 = .go rc) ∧ s.enqueuePCount = numWoBuf

/-- Between the calls the counter is the number of messages, and `enqueue_P` reports a full queue
only when it is full. -/
structure Truthful (ok : State Tid α → Tid × Act α → Prop) (s : State Tid α) : Prop where
  count : (∀ t, (s.pc t).Idle) → s.enqueuePCount = s.queue.length
  full : ∀ a, ok s a → ReportsFull s a → s.queue.length = numWoBuf

/-! ### The calls in flight -/

/-- Between the increment of the counter and the send. -/
def Pc.sending : Pc α → Bool
  | .copy _ => true
  | .send _ => true
  | _ => false

/-- Between the decrement of the counter and the receive. -/
def Pc.receiving : Pc α → Bool
  | .receive => true
  | _ => false

/-- What a call in flight adds to the counter. -/
def Pc.ahead : Pc α → ℤ
  | .copy _ => 1
  | .send _ => 1
  | .receive => -1
  | _ => 0

variable [Fintype Tid] {s s' : State Tid α} {t : Tid} {a : Tid × Act α}

/-- The calls between the increment and the send. -/
def sending (s : State Tid α) : ℕ := (Finset.univ.filter fun t => (s.pc t).sending).card

/-- The calls between the decrement and the receive. -/
def receiving (s : State Tid α) : ℕ := (Finset.univ.filter fun t => (s.pc t).receiving).card

/-- The counter runs ahead of the queue by the calls in flight. -/
structure Inv (s : State Tid α) : Prop where
  count : s.enqueuePCount = s.queue.length + ∑ t, (s.pc t).ahead
  room : s.queue.length ≤ numWoBuf

omit [DecidableEq Tid] in
theorem sum_ahead (s : State Tid α) : ∑ t, (s.pc t).ahead = sending s - receiving s := by
  have hpc : ∀ pc : Pc α,
      pc.ahead = (if pc.sending then 1 else 0) - if pc.receiving then 1 else 0 :=
    fun pc => by cases pc <;> rfl
  simp only [hpc, sending, receiving, Finset.sum_sub_distrib, Finset.sum_boole]

omit [DecidableEq Tid] in
theorem sum_ahead_of_idle (hidle : ∀ t, (s.pc t).Idle) : ∑ t, (s.pc t).ahead = 0 := by
  refine Finset.sum_eq_zero fun t _ => ?_
  have ht := hidle t
  cases hpc : s.pc t <;> simp_all [Pc.Idle, Pc.ahead]

theorem sum_ahead_goto (s : State Tid α) (t : Tid) (pc : Pc α) :
    ∑ u, ((s.goto t pc).pc u).ahead = ∑ u, (s.pc u).ahead + (pc.ahead - (s.pc t).ahead) := by
  have hs : ∀ u, ((s.goto t pc).pc u).ahead =
      Function.update (fun u => (s.pc u).ahead) t pc.ahead u := fun u => by
    by_cases hu : u = t
    · subst hu
      simp [State.goto]
    · simp [State.goto, hu]
  have hsum := Finset.sum_update_of_mem (Finset.mem_univ t) (fun u => (s.pc u).ahead) pc.ahead
  have herase := Finset.add_sum_erase Finset.univ (fun u => (s.pc u).ahead) (Finset.mem_univ t)
  rw [Finset.sum_congr rfl fun u _ => hs u, hsum, Finset.sdiff_singleton_eq_erase]
  omega

theorem Inv.goto (hs : Inv s) {c : ℤ} {q : List α} {pc : Pc α}
    (hc : c + s.queue.length + (s.pc t).ahead = s.enqueuePCount + q.length + pc.ahead)
    (hq : q.length ≤ numWoBuf) :
    Inv ({ s with enqueuePCount := c, queue := q }.goto t pc) where
  count := by
    have hcount := hs.count
    have hsum := sum_ahead_goto { s with enqueuePCount := c, queue := q } t pc
    rw [hsum]
    simp only [State.goto]
    omega
  room := hq

omit [DecidableEq Tid] in
theorem inv_init : Inv (init : State Tid α) := ⟨by simp [init, Pc.ahead], by simp [init]⟩

/-! ### The steps that are sound -/

/-- No call fails on the way, a store finds the counter as it was loaded, and `enqueue_P` does not
find the counter at its bound while more calls are sending than receiving. -/
def Sound (s : State Tid α) (a : Tid × Act α) : Prop :=
  match s.pc a.1, a.2 with
  | .test _, .go _ => s.enqueuePCount = numWoBuf → sending s ≤ receiving s
  | .up _ (some v), .go _ => v = s.enqueuePCount
  | .down (some v), .go _ => v = s.enqueuePCount
  | .copy none, .go _ => False
  | .send _, .go rc => rc = .ok
  | .receive, .go rc => rc ≠ .error
  | _, _ => True

instance (s : State Tid α) (a : Tid × Act α) : Decidable (Sound s a) := by
  unfold Sound
  split <;> infer_instance

theorem inv_call {pc : Pc α} (hs : Inv s) (hpc : pc.ahead = 0) (h : call s t pc = some s') :
    Inv s' := by
  unfold call at h
  split at h
  · next ret ht =>
    cases h
    exact hs.goto (by rw [ht, hpc]; rfl) hs.room
  · cases h

theorem inv_goOn {rc : Rc} (hs : Inv s) (hok : Sound s (t, .go rc))
    (h : goOn s t rc (s.pc t) = some s') : Inv s' := by
  have hroom := hs.room
  unfold Sound at hok
  cases hpc : s.pc t with
  | idle ret => simp [hpc, goOn] at h
  | test p =>
    simp only [hpc, goOn] at h
    split_ifs at h with hfull
    · cases h
      exact hs.goto (by rw [hpc]; rfl) hroom
    · cases h
      exact hs.goto (by rw [hpc]; rfl) hroom
  | up p reg =>
    cases reg with
    | none =>
      simp only [hpc, goOn] at h
      cases h
      exact hs.goto (by rw [hpc]; rfl) hroom
    | some v =>
      simp only [hpc, goOn] at h hok
      cases h
      refine hs.goto ?_ hroom
      simp only [hpc, hok, Pc.ahead]
      omega
  | copy p =>
    cases p with
    | none => simp [hpc] at hok
    | some b =>
      simp only [hpc, goOn] at h
      cases h
      exact hs.goto (by rw [hpc]; rfl) hroom
  | send b =>
    simp only [hpc] at hok
    subst hok
    simp only [hpc, goOn] at h
    split_ifs at h with hlen
    cases h
    refine hs.goto ?_ (by rw [List.length_append]; exact hlen)
    simp only [hpc, Pc.ahead, List.length_append, List.length_singleton]
    omega
  | down reg =>
    cases reg with
    | none =>
      simp only [hpc, goOn] at h
      cases h
      exact hs.goto (by rw [hpc]; rfl) hroom
    | some v =>
      simp only [hpc, goOn] at h hok
      cases h
      refine hs.goto ?_ hroom
      simp only [hpc, hok, Pc.ahead]
      omega
  | receive =>
    simp only [hpc, goOn] at h
    cases rc with
    | ok =>
      cases hq : s.queue with
      | nil => simp [hq] at h
      | cons b q =>
        simp only [hq, Option.some.injEq] at h
        subst h
        rw [hq, List.length_cons] at hroom
        refine hs.goto ?_ (by omega)
        simp only [hpc, hq, Pc.ahead, List.length_cons]
        omega
    | eagain =>
      cases h
      exact hs
    | error => simp [hpc] at hok
  | copyOut b =>
    simp only [hpc, goOn] at h
    cases h
    exact hs.goto (by rw [hpc]; rfl) hroom

theorem inv_step (hs : Inv s) (hok : Sound s a) (h : step s a = some s') : Inv s' := by
  obtain ⟨t, a⟩ := a
  cases a with
  | enqueueP p => exact inv_call hs rfl h
  | dequeueP => exact inv_call hs rfl h
  | go rc => exact inv_goOn hs hok h

/-! ### The runs -/

omit [DecidableEq Tid] in
theorem Inv.truthful (hs : Inv s) : Truthful Sound s where
  count hidle := by rw [hs.count, sum_ahead_of_idle hidle, add_zero]
  full a hok hfull := by
    obtain ⟨⟨p, rc, hp, hrc⟩, hcount⟩ := hfull
    have hle : sending s ≤ receiving s := by
      simp only [Sound, hp, hrc] at hok
      exact hok hcount
    have hc := hs.count
    have hroom := hs.room
    rw [sum_ahead, hcount] at hc
    omega

/-- **In the runs whose steps are sound the counter tells the truth.** -/
theorem truthful_of_sound (h : Reach step Sound init s) : Truthful Sound s :=
  (h.invariant inv_init inv_step).truthful

/-- One message goes into the queue and out of it. -/
theorem truthful_of_sound_message : ∃ s : State (Fin 2) Unit,
    exec step Sound init ((0, .enqueueP (some ())) :: List.replicate 5 (0, .go .ok) ++
      (1, .dequeueP) :: List.replicate 4 (1, .go .ok)) = some s ∧ Truthful Sound s :=
  Reach.exists_exec (by decide) fun _ h => truthful_of_sound h

/-- The counter is left behind by a call with `NULL`. -/
theorem not_truthful : ¬ ∀ s : State (Fin 2) Unit, Reach step Any init s → Truthful Any s := by
  have hrun : ∃ s : State (Fin 2) Unit, exec step Any init
      [(0, .enqueueP none), (0, .go .ok), (0, .go .ok), (0, .go .ok), (0, .go .ok)] = some s ∧
      (∀ t, (s.pc t).Idle) ∧ s.enqueuePCount = 1 ∧ s.queue = [] :=
    ⟨_, rfl, by decide, rfl, rfl⟩
  obtain ⟨s, hs, hidle, hcount, hqueue⟩ := hrun
  intro h
  have hc := (h s (Reach.of_exec hs)).count hidle
  rw [hcount, hqueue] at hc
  exact absurd hc (by decide)

/-! ### What goes wrong otherwise -/

/-- `enqueue_P` or `dequeue_P` fails in this step, after it has moved the counter. -/
def FailsLate (s : State Tid α) (a : Tid × Act α) : Prop :=
  match s.pc a.1, a.2 with
  | .copy none, .go _ => True
  | .send _, .go rc => rc ≠ .ok
  | .receive, .go rc => rc = .error
  | _, _ => False

omit [Fintype Tid] in
theorem step_of_failsLate (hfail : FailsLate s a) (h : step s a = some s') :
    s' = s.goto a.1 (.idle .failed) ∧ (s.pc a.1).ahead ≠ 0 := by
  obtain ⟨t, a⟩ := a
  cases a with
  | enqueueP p => cases hpc : s.pc t <;> simp [FailsLate, hpc] at hfail
  | dequeueP => cases hpc : s.pc t <;> simp [FailsLate, hpc] at hfail
  | go rc =>
    simp only [step] at h
    unfold FailsLate at hfail
    cases hpc : s.pc t with
    | copy p =>
      cases p with
      | none =>
        simp only [hpc, goOn, Option.some.injEq] at h
        exact ⟨h.symm, by simp [Pc.ahead]⟩
      | some b => simp [hpc] at hfail
    | send b =>
      simp only [hpc] at hfail
      refine ⟨?_, by simp [Pc.ahead]⟩
      cases rc with
      | ok => exact absurd rfl hfail
      | _ =>
        simp only [hpc, goOn, Option.some.injEq] at h
        exact h.symm
    | receive =>
      simp only [hpc] at hfail
      subst hfail
      simp only [hpc, goOn, Option.some.injEq] at h
      exact ⟨h.symm, by simp [Pc.ahead]⟩
    | _ => simp [hpc] at hfail

/-- **A call that fails alone leaves the counter off.** -/
theorem not_truthful_of_failsLate (hs : Inv s) (hidle : ∀ t ≠ a.1, (s.pc t).Idle)
    (hfail : FailsLate s a) (h : step s a = some s') : ¬ Truthful Any s' := by
  obtain ⟨rfl, hahead⟩ := step_of_failsLate hfail h
  intro ht
  have hidle' : ∀ t, ((s.goto a.1 (.idle .failed)).pc t).Idle := fun t => by
    by_cases hta : t = a.1
    · subst hta
      simp [State.goto, Pc.Idle]
    · simpa [State.goto, hta] using hidle t hta
  have hcount : s.enqueuePCount = s.queue.length := ht.count hidle'
  have hsum := sum_ahead_goto s a.1 (.idle .failed)
  have hzero : (Pc.idle .failed : Pc α).ahead = 0 := rfl
  rw [sum_ahead_of_idle hidle', hzero] at hsum
  have hc := hs.count
  omega

omit [DecidableEq Tid] in
/-- **A report made while more calls are sending than receiving is wrong.** -/
theorem not_truthful_of_ahead (hs : Inv s) (hfull : ReportsFull s a)
    (hlt : receiving s < sending s) : ¬ Truthful Any s := by
  intro ht
  have hlen := ht.full a trivial hfull
  have hc := hs.count
  rw [sum_ahead, hfull.2] at hc
  omega

end Ecen5623.Capture.WriteoutQueue
