import Ecen5623.Pipeline.Conservation

/-! # The end of `exam2`

The services and the handler `sequencer`, which take the steps of `Threads`, together with the
handler `ctrl_c`, which runs once, and with calls that fail. `sem_wait`, `mq_timedsend` and
`mq_receive` may return `-1`; a failed operation on a queue is reported and ignored, and a thread
whose `sem_wait` has failed may return at the end of its round. `ctrl_c` posts before it clears
`running`, so that a post can be used up too early.

A semaphore is provided if it has been posted, if the handler is about to post it, or if `W1` or
`W2` is in the last round, at the end of which it posts, and gets the messages it still has to
receive. -/

namespace Ecen5623.Pipeline.Shutdown

open Ecen5623.Library Ecen5623.Pipeline.Channel
open Ecen5623.Pipeline.Threads (Party S1Pc S1 W1Pc W1 W2 Sems afterEnqueueS1 afterDequeueW1
  afterEnqueueW1 afterDequeueW2 stepS1 stepW1 stepW2 stepSequencer)
open Ecen5623.Pipeline.Conservation (enqueueS1 enqueueW1)

/-- Where `ctrl_c` is. -/
inductive CtrlCPc where
  | idle
  | postS1
  | postW1
  | postW2
  | clear
  | finished
  deriving DecidableEq, Repr

/-- `failed` says whether the last `sem_wait` at the start of a round has returned `-1`. -/
structure State where
  threads : Threads.State
  ctrlC : CtrlCPc
  failed : Party → Bool

def init (b₁ b₂ : ℤ) : State where
  threads := Threads.init b₁ b₂
  ctrlC := .idle
  failed _ := false

/-! ### The steps -/

/-- The thread is at the `sem_wait` at the start of its round. -/
def AtWait (t : Threads.State) : Party → Prop
  | .s1 => t.s1.pc = .wait
  | .w1 => t.w1.pc = .wait
  | .w2 => t.w2.pc = .wait
  | .sequencer => False

instance (t : Threads.State) (p : Party) : Decidable (AtWait t p) := by
  cases p <;> unfold AtWait <;> infer_instance

/-- A call in `S1` returns `-1`. -/
def failS1 (t : Threads.State) : Option Threads.State :=
  match t.s1.pc with
  | .wait => some { t with s1 := { pc := .enqueue .test, count := t.s1.count + 1 } }
  | .enqueue .send => some { t with s1 := { t.s1 with pc := afterEnqueueS1 t.s1 none } }
  | .waitW1 => some { t with s1 := { t.s1 with pc := .waitW2 } }
  | .waitW2 => some { t with s1 := { t.s1 with pc := .stop } }
  | _ => none

/-- A call in `W1` returns `-1`; after a failed `dequeue_P` the number is what it was. -/
def failW1 (t : Threads.State) : Option Threads.State :=
  match t.w1.pc with
  | .wait => some { t with w1 := { t.w1 with pc := .dequeue false .down } }
  | .dequeue second .receive =>
    some { t with
      w1 := afterDequeueW1 t.w1 second (.inr (if second then t.w1.num2 else t.w1.num1)) }
  | .enqueue .send => some { t with w1 := { t.w1 with pc := afterEnqueueW1 t.w1 none } }
  | _ => none

/-- A call in `W2` returns `-1`; after a failed `dequeue_P` the number is what it was, `get`. -/
def failW2 (get : ℤ) (t : Threads.State) : Option Threads.State :=
  match t.w2.pc with
  | .wait => some { t with w2 := { t.w2 with pc := .dequeue .down } }
  | .dequeue .receive => some { t with w2 := afterDequeueW2 t.w2 (.inr get) }
  | _ => none

def failStep (get : ℤ) (t : Threads.State) : Party → Option Threads.State
  | .s1 => failS1 t
  | .w1 => failW1 t
  | .w2 => failW2 get t
  | .sequencer => none

/-- `if (errno == EINTR) return`, at the end of a round; in `W1` and `W2` before the post. -/
def giveUp (t : Threads.State) : Party → Option Threads.State
  | .s1 => if t.s1.pc = .loop then some { t with s1 := { t.s1 with pc := .done } } else none
  | .w1 =>
    if t.w1.pc = .loop ∨ t.w1.pc = .post then some { t with w1 := { t.w1 with pc := .done } }
    else none
  | .w2 =>
    if t.w2.pc = .loop ∨ t.w2.pc = .post then some { t with w2 := { t.w2 with pc := .done } }
    else none
  | .sequencer => none

/-- One step of `ctrl_c`. -/
def stepCtrlC (s : State) : Option State :=
  let t := s.threads
  match s.ctrlC with
  | .idle => some { s with ctrlC := .postS1 }
  | .postS1 =>
    some { s with
      threads := { t with sems := { t.sems with semS1 := t.sems.semS1 + 1 } }
      ctrlC := .postW1 }
  | .postW1 =>
    some { s with
      threads := { t with sems := { t.sems with semW1 := t.sems.semW1 + 1 } }
      ctrlC := .postW2 }
  | .postW2 =>
    some { s with
      threads := { t with sems := { t.sems with semW2 := t.sems.semW2 + 1 } }
      ctrlC := .clear }
  | .clear => some { s with threads := { t with running := false }, ctrlC := .finished }
  | .finished => none

inductive Turn where
  | party (p : Party)
  | fail (p : Party) (get : ℤ)
  | giveUp (p : Party)
  | ctrlC
  deriving DecidableEq, Repr

/-- What the `sem_wait` at the start of a round has returned. -/
def setFailed (s : State) (p : Party) (b : Bool) : Party → Bool :=
  if AtWait s.threads p then Function.update s.failed p b else s.failed

/-- One turn. -/
def step (sizeofPtr : ℕ) (s : State) : Turn → Option State
  | .party p => (Threads.step sizeofPtr s.threads p).map fun t =>
      { s with threads := t, failed := setFailed s p false }
  | .fail p get => (failStep get s.threads p).map fun t =>
      { s with threads := t, failed := setFailed s p true }
  | .giveUp p =>
    if s.failed p then (giveUp s.threads p).map fun t => { s with threads := t } else none
  | .ctrlC => stepCtrlC s

/-! ### What should not happen -/

inductive Sem where
  | semS1
  | semW1
  | semW2
  | runningW1
  | runningW2
  deriving DecidableEq, Repr

def value (t : Threads.State) : Sem → ℕ
  | .semS1 => t.sems.semS1
  | .semW1 => t.sems.semW1
  | .semW2 => t.sems.semW2
  | .runningW1 => t.sems.runningW1
  | .runningW2 => t.sems.runningW2

/-- A thread is at its `sem_wait(&x)`. -/
def Waits (t : Threads.State) : Sem → Prop
  | .semS1 => t.s1.pc = .wait
  | .semW1 => t.w1.pc = .wait
  | .semW2 => t.w2.pc = .wait
  | .runningW1 => t.s1.pc = .waitW1
  | .runningW2 => t.s1.pc = .waitW2

/-- No call fails. -/
def NoFail (_ : State) : Turn → Prop
  | .fail _ _ => False
  | _ => True

/-- After the shutdown, a thread waits for a semaphore that nobody posts any more, as long as no
call fails. -/
structure Stranded (sizeofPtr : ℕ) (s : State) : Prop where
  finished : s.ctrlC = .finished
  running : s.threads.running = false
  waits : ∃ x, Waits s.threads x ∧
    ∀ s', Reach (step sizeofPtr) NoFail s s' → value s'.threads x = 0

/-! ### The condition -/

/-- `S1` is in its last round, before it waits for the other threads. -/
def LastRoundS1 (s1 : S1) : Prop :=
  s1.pc = .wait ∧ s1.count = 199 ∨ (∃ pc, s1.pc = .enqueue pc) ∧ s1.count = 200

/-- A thread waits for `x`, or is going to without a test of `running` in between. -/
def WillWait (t : Threads.State) : Sem → Prop
  | .semS1 => t.s1.pc = .wait
  | .semW1 => t.w1.pc = .wait
  | .semW2 => t.w2.pc = .wait
  | .runningW1 => LastRoundS1 t.s1 ∨ t.s1.pc = .waitW1
  | .runningW2 => LastRoundS1 t.s1 ∨ t.s1.pc = .waitW1 ∨ t.s1.pc = .waitW2

/-- The messages `S1` still sends in its round. -/
def sendsS1 (s1 : S1) : ℕ :=
  match s1.pc with
  | .wait => 1
  | .enqueue _ => 1
  | _ => 0

/-- The messages a call of `dequeue_P` still receives. -/
def receives (pc : DequeuePc) : ℕ := if pc = .copyOut then 0 else 1

/-- The messages `W1` still receives in its round. -/
def needsW1 (w1 : W1) : ℕ :=
  match w1.pc with
  | .wait => 2
  | .dequeue second pc => (if second then 0 else 1) + receives pc
  | _ => 0

/-- The messages `W2` still receives in its round. -/
def needsW2 (w2 : W2) : ℕ :=
  match w2.pc with
  | .wait => 1
  | .dequeue pc => receives pc
  | _ => 0

/-- What `W1` still receives is in its queue, or `S1` still sends it. -/
def SuppliedW1 (t : Threads.State) : Prop :=
  needsW1 t.w1 ≤ t.w1Q.messages.length + sendsS1 t.s1

instance (t : Threads.State) : Decidable (SuppliedW1 t) :=
  inferInstanceAs (Decidable (_ ≤ _))

/-- `1` if `W1` has not yet sent the sum of its round. -/
def inRoundW1 (w1 : W1) : ℕ :=
  match w1.pc with
  | .wait => 1
  | .dequeue _ _ => 1
  | .enqueue _ => 1
  | _ => 0

/-- The messages `W1` still sends in its round. -/
def sendsW1 (t : Threads.State) : ℕ := if SuppliedW1 t then inRoundW1 t.w1 else 0

/-- What `W2` still receives is in its queue, or `W1` still sends it. -/
def SuppliedW2 (t : Threads.State) : Prop := needsW2 t.w2 ≤ t.w2Q.messages.length + sendsW1 t

/-- `W1` is in its last round, on the way to its post. -/
def LastRoundW1 (w1 : W1) : Prop :=
  match w1.pc with
  | .wait => 196 < w1.w2DequeueCount
  | .dequeue _ _ => 196 < w1.w2DequeueCount
  | .enqueue _ => 198 < w1.w2DequeueCount
  | .post => True
  | _ => False

/-- `W2` is in its last round, on the way to its post. -/
def LastRoundW2 (w2 : W2) : Prop :=
  match w2.pc with
  | .wait => w2.totalCount = 99
  | .dequeue _ => w2.totalCount = 99
  | .post => True
  | _ => False

/-- `x` is about to be posted, by a handler that has tested `running` or by a thread in its last
round, which gets what it still receives. -/
def WillPost (t : Threads.State) : Sem → Prop
  | .semS1 => t.sequencer.pc = .postS1 ∧ t.sequencer.seqCount % 5 = 0
  | .semW1 => (t.sequencer.pc = .postS1 ∨ t.sequencer.pc = .postW1) ∧
      t.sequencer.seqCount % 10 = 0
  | .semW2 => (t.sequencer.pc = .postS1 ∨ t.sequencer.pc = .postW1 ∨
      t.sequencer.pc = .postW2) ∧ t.sequencer.seqCount % 100 = 0
  | .runningW1 => LastRoundW1 t.w1 ∧ SuppliedW1 t
  | .runningW2 => LastRoundW2 t.w2 ∧ SuppliedW2 t

/-- `x` has been posted or is about to be. -/
def Provided (t : Threads.State) (x : Sem) : Prop := 0 < value t x ∨ WillPost t x

/-- When `ctrl_c` clears `running`, every semaphore that a thread is going to wait for is provided.
Afterwards no `mq_timedsend` fails whose message is still needed on the way to a post `S1` waits
for, and `W1` and `W2` do not return in front of such a post. -/
def Prepared (s : State) : Turn → Prop
  | .ctrlC => s.ctrlC = .clear → ∀ x, WillWait s.threads x → Provided s.threads x
  | .fail .s1 _ => s.ctrlC = .finished → s.threads.s1.pc = .enqueue .send →
      WillWait s.threads .runningW1 → needsW1 s.threads.w1 ≤ s.threads.w1Q.messages.length
  | .fail .w1 _ => s.ctrlC = .finished → s.threads.w1.pc = .enqueue .send →
      WillWait s.threads .runningW2 → needsW2 s.threads.w2 ≤ s.threads.w2Q.messages.length
  | .giveUp .w1 => s.ctrlC = .finished → s.threads.w1.pc = .post →
      ¬ WillWait s.threads .runningW1
  | .giveUp .w2 => s.ctrlC = .finished → s.threads.w2.pc = .post →
      ¬ WillWait s.threads .runningW2
  | _ => True

variable {sizeofPtr : ℕ} {s s' : State} {t t' : Threads.State} {a : Turn} {b₁ b₂ : ℤ} {x : Sem}

theorem giveUp_eq_some {p : Party} (h : step sizeofPtr s (.giveUp p) = some s') :
    s.failed p = true ∧ ∃ t, giveUp s.threads p = some t ∧ s' = { s with threads := t } := by
  simp only [step, Option.ite_none_right_eq_some] at h
  obtain ⟨hfailed, h⟩ := h
  obtain ⟨t, ht, hs'⟩ := Option.map_eq_some_iff.1 h
  exact ⟨hfailed, t, ht, hs'.symm⟩

/-! ### The queues have room -/

/-- A queue whose sender is at `e` and has begun to send `n` times. -/
structure Fits (q : Queue) (e : Option EnqueuePc) (n : ℕ) : Prop where
  count : q.count + (if e = some .test ∨ e = some .up then 1 else 0) ≤ n
  length : q.messages.length + (if e = none then 0 else 1) ≤ n

variable {q q' : Queue} {e : Option EnqueuePc} {n : ℕ}

theorem Fits.enter (h : Fits q none n) : Fits q (some .test) (n + 1) where
  count := by simpa using h.count
  length := by simpa using h.length

theorem Fits.leave (h : Fits q e n) : Fits q none n where
  count := by
    have hcount := h.count
    simp only [reduceCtorEq, or_self, if_false]
    split_ifs at hcount <;> omega
  length := by
    have hlength := h.length
    simp only [if_true]
    split_ifs at hlength <;> omega

theorem Fits.enqueueStep {p : ℤ} {pc : EnqueuePc} (h : Fits q (some pc) n)
    (hstep : enqueueStep sizeofPtr q p pc = some (q', e)) : Fits q' e n := by
  have hcount := h.count
  have hlength := h.length
  cases pc with
  | test =>
    simp only [Channel.enqueueStep] at hstep
    split_ifs at hstep
    · cases hstep
      exact h.leave
    · cases hstep
      exact ⟨by simpa using hcount, by simpa using hlength⟩
  | up =>
    cases hstep
    exact ⟨by simpa using hcount, by simpa using hlength⟩
  | copy =>
    cases hstep
    exact ⟨by simpa using hcount, by simpa using hlength⟩
  | send =>
    simp only [Channel.enqueueStep] at hstep
    split_ifs at hstep
    cases hstep
    exact ⟨by simpa using hcount, by simpa using hlength⟩

theorem Fits.dequeueStep {pc : DequeuePc} {y : DequeuePc ⊕ ℤ} (h : Fits q e n)
    (hstep : dequeueStep sizeofPtr q pc = some (q', y)) : Fits q' e n := by
  have hcount := h.count
  have hlength := h.length
  cases pc with
  | down =>
    simp only [Channel.dequeueStep] at hstep
    split_ifs at hstep
    cases hstep
    exact ⟨by dsimp only; omega, hlength⟩
  | receive =>
    cases hq : q.messages with
    | nil => simp [Channel.dequeueStep, hq] at hstep
    | cons m messages =>
      simp only [Channel.dequeueStep, hq, Option.some.injEq, Prod.mk.injEq] at hstep
      obtain ⟨rfl, -⟩ := hstep
      rw [hq, List.length_cons] at hlength
      exact ⟨hcount, by dsimp only; omega⟩
  | copyOut =>
    cases hstep
    exact h

theorem Fits.count_ne (h : Fits q (some .test) n) (hn : n ≤ numElems) : q.count ≠ numElems := by
  have hcount := h.count
  simp only [true_or, if_true] at hcount
  omega

theorem Fits.length_lt {pc : EnqueuePc} (h : Fits q (some pc) n) (hn : n ≤ numElems) :
    q.messages.length < numElems := by
  have hlength := h.length
  simp only [reduceCtorEq, if_false] at hlength
  omega

/-- What `S1` may still add to its count in its round. -/
def leftS1 (running : Bool) (s1 : S1) : ℕ :=
  match s1.pc with
  | .loop => if running then 1 else 0
  | .wait => 1
  | _ => 0

/-- What `W1` may still add to its count in its round. -/
def leftW1 (w1 : W1) : ℕ :=
  match w1.pc with
  | .loop => 2
  | .wait => 2
  | .dequeue _ _ => 2
  | _ => 0

/-- Neither queue is ever full, and `S1` goes on behind the assertion only if it holds. -/
structure Room (sizeofPtr : ℕ) (t : Threads.State) : Prop where
  s1 : t.s1.count + leftS1 t.running t.s1 ≤ 200
  w1 : t.w1.w2DequeueCount + leftW1 t.w1 ≤ 200
  w1Q : Fits t.w1Q (enqueueS1 t.s1) t.s1.count
  w2Q : Fits t.w2Q (enqueueW1 t.w1) (t.w1.w2DequeueCount / 2)
  asserted : sizeofPtr = maxPayloadSize ∨ t.s1.pc ∈ [.loop, .wait, .enqueue .test, .done]

theorem room_init : Room sizeofPtr (Threads.init b₁ b₂) where
  s1 := by simp [Threads.init, leftS1]
  w1 := by simp [Threads.init, leftW1]
  w1Q := ⟨by simp [Threads.init, enqueueS1], by simp [Threads.init, enqueueS1]⟩
  w2Q := ⟨by simp [Threads.init, enqueueW1], by simp [Threads.init, enqueueW1]⟩
  asserted := .inr (by simp [Threads.init])

theorem Room.setS1 {running : Bool} {sems : Sems} {s1 : S1} {sent : List ℤ}
    (h : Room sizeofPtr t) (hs1 : s1.count + leftS1 running s1 ≤ 200)
    (hq : Fits q (enqueueS1 s1) s1.count)
    (hasserted : sizeofPtr = maxPayloadSize ∨ s1.pc ∈ [.loop, .wait, .enqueue .test, .done]) :
    Room sizeofPtr { t with
      running := running, sems := sems, s1 := s1, w1Q := q, sent := sent } :=
  ⟨hs1, h.w1, hq, h.w2Q, hasserted⟩

theorem Room.inEnqueueS1 {pc : EnqueuePc} {sent : List ℤ} (h : Room sizeofPtr t)
    (hpc : t.s1.pc = .enqueue pc) (hq : Fits q e t.s1.count)
    (hsize : sizeofPtr = maxPayloadSize) :
    Room sizeofPtr { t with
      w1Q := q, s1 := { t.s1 with pc := afterEnqueueS1 t.s1 e }, sent := sent } := by
  have hcount := h.s1
  simp only [leftS1, hpc] at hcount
  cases e with
  | none =>
    by_cases hlast : t.s1.count = 200
    · have hs1 : afterEnqueueS1 t.s1 none = .waitW1 := if_pos hlast
      rw [hs1]
      exact h.setS1 hcount hq (.inl hsize)
    · have hs1 : afterEnqueueS1 t.s1 none = .loop := if_neg hlast
      rw [hs1]
      refine h.setS1 ?_ hq (.inl hsize)
      simp only [leftS1]
      split_ifs <;> omega
  | some pc => exact h.setS1 hcount hq (.inl hsize)

theorem Room.roundS1 {sems : Sems} (h : Room sizeofPtr t) (hpc : t.s1.pc = .wait) :
    Room sizeofPtr { t with
      sems := sems, s1 := { pc := .enqueue .test, count := t.s1.count + 1 } } := by
  have hcount := h.s1
  have hq := h.w1Q
  simp only [leftS1, enqueueS1, hpc] at hcount hq
  exact h.setS1 hcount hq.enter (.inr (by simp))

theorem Room.leaveS1 {running : Bool} {sems : Sems} {pc : S1Pc} (h : Room sizeofPtr t)
    (hleft : leftS1 running { t.s1 with pc := pc } ≤ leftS1 t.running t.s1)
    (henq : enqueueS1 { t.s1 with pc := pc } = none)
    (hasserted : sizeofPtr = maxPayloadSize ∨ pc ∈ [.loop, .wait, .enqueue .test, .done]) :
    Room sizeofPtr { t with running := running, sems := sems, s1 := { t.s1 with pc := pc } } := by
  refine h.setS1 (le_trans (Nat.add_le_add_left hleft _) h.s1) ?_ hasserted
  rw [henq]
  exact h.w1Q.leave

theorem room_stepS1 (h : Room sizeofPtr t) (hstep : stepS1 sizeofPtr t = some t') :
    Room sizeofPtr t' := by
  have hasserted := h.asserted
  cases hpc : t.s1.pc with
  | loop =>
    simp only [stepS1, hpc, Option.some.injEq] at hstep
    subst hstep
    cases hrunning : t.running with
    | true => exact h.leaveS1 (by simp [leftS1, hpc, hrunning]) rfl (.inr (by decide))
    | false => exact h.leaveS1 (by simp [leftS1]) rfl (.inr (by decide))
  | wait =>
    simp only [stepS1, hpc, Option.ite_none_right_eq_some, Option.some.injEq] at hstep
    obtain ⟨-, rfl⟩ := hstep
    exact h.roundS1 hpc
  | enqueue pc =>
    have hq := h.w1Q
    simp only [enqueueS1, hpc] at hq
    simp only [stepS1, hpc] at hstep
    split at hstep
    · cases hstep
    · next q next hnext =>
      cases hstep
      refine h.inEnqueueS1 hpc (hq.enqueueStep hnext) ?_
      refine hasserted.elim id fun hmem => ?_
      obtain rfl : pc = .test := by simpa [hpc] using hmem
      simp only [Channel.enqueueStep] at hnext
      split_ifs at hnext with hsize <;> exact hsize
  | waitW1 =>
    simp only [stepS1, hpc, Option.ite_none_right_eq_some, Option.some.injEq] at hstep
    obtain ⟨-, rfl⟩ := hstep
    exact h.leaveS1 (Nat.zero_le _) rfl (.inl (by simpa [hpc] using hasserted))
  | waitW2 =>
    simp only [stepS1, hpc, Option.ite_none_right_eq_some, Option.some.injEq] at hstep
    obtain ⟨-, rfl⟩ := hstep
    exact h.leaveS1 (Nat.zero_le _) rfl (.inl (by simpa [hpc] using hasserted))
  | stop =>
    simp only [stepS1, hpc, Option.some.injEq] at hstep
    subst hstep
    exact h.leaveS1 (by simp [leftS1]) rfl (.inr (by simp))
  | done => simp [stepS1, hpc] at hstep

theorem room_failS1 (h : Room sizeofPtr t) (hfail : failS1 t = some t') : Room sizeofPtr t' := by
  have hasserted := h.asserted
  unfold failS1 at hfail
  split at hfail
  · next hpc =>
    cases hfail
    exact h.roundS1 hpc
  · next hpc =>
    cases hfail
    exact h.inEnqueueS1 hpc h.w1Q.leave (by simpa [hpc] using hasserted)
  · next hpc =>
    cases hfail
    exact h.leaveS1 (Nat.zero_le _) rfl (.inl (by simpa [hpc] using hasserted))
  · next hpc =>
    cases hfail
    exact h.leaveS1 (Nat.zero_le _) rfl (.inl (by simpa [hpc] using hasserted))
  · cases hfail

theorem Room.setW1 {sems : Sems} {w1 : W1} {q₁ q₂ : Queue} (h : Room sizeofPtr t)
    (hw1 : w1.w2DequeueCount + leftW1 w1 ≤ 200) (hq₁ : Fits q₁ (enqueueS1 t.s1) t.s1.count)
    (hq₂ : Fits q₂ (enqueueW1 w1) (w1.w2DequeueCount / 2)) :
    Room sizeofPtr { t with sems := sems, w1 := w1, w1Q := q₁, w2Q := q₂ } :=
  ⟨h.s1, hw1, hq₁, hq₂, h.asserted⟩

theorem Room.inDequeueW1 {second : Bool} {pc : DequeuePc} {y : DequeuePc ⊕ ℤ}
    (h : Room sizeofPtr t) (hpc : t.w1.pc = .dequeue second pc)
    (hq : Fits q (enqueueS1 t.s1) t.s1.count) :
    Room sizeofPtr { t with w1Q := q, w1 := afterDequeueW1 t.w1 second y } := by
  have hw1 := h.w1
  have hw2Q := h.w2Q
  simp only [leftW1, enqueueW1, hpc] at hw1 hw2Q
  cases y with
  | inl pc => exact h.setW1 hw1 hq (by simpa only [afterDequeueW1, enqueueW1] using hw2Q)
  | inr num =>
    cases second with
    | false => exact h.setW1 hw1 hq hw2Q
    | true =>
      have hn : (t.w1.w2DequeueCount + 2) / 2 = t.w1.w2DequeueCount / 2 + 1 := by omega
      refine h.setW1 hw1 hq ?_
      simp only [afterDequeueW1, if_true, enqueueW1, hn]
      exact hw2Q.enter

theorem Room.inEnqueueW1 {pc : EnqueuePc} (h : Room sizeofPtr t) (hpc : t.w1.pc = .enqueue pc)
    (hq : Fits q e (t.w1.w2DequeueCount / 2)) :
    Room sizeofPtr { t with w2Q := q, w1 := { t.w1 with pc := afterEnqueueW1 t.w1 e } } := by
  have hw1 := h.w1
  simp only [leftW1, hpc] at hw1
  cases e with
  | none =>
    by_cases hlast : 198 < t.w1.w2DequeueCount
    · have hpost : afterEnqueueW1 t.w1 none = .post := if_pos hlast
      rw [hpost]
      exact h.setW1 hw1 h.w1Q hq
    · have hloop : afterEnqueueW1 t.w1 none = .loop := if_neg hlast
      rw [hloop]
      exact h.setW1 (by simp only [leftW1]; omega) h.w1Q hq
  | some pc => exact h.setW1 hw1 h.w1Q hq

theorem Room.moveW1 {sems : Sems} {pc : W1Pc} (h : Room sizeofPtr t)
    (hleft : leftW1 { t.w1 with pc := pc } ≤ leftW1 t.w1)
    (henq : enqueueW1 { t.w1 with pc := pc } = none) :
    Room sizeofPtr { t with sems := sems, w1 := { t.w1 with pc := pc } } := by
  refine h.setW1 (le_trans (Nat.add_le_add_left hleft _) h.w1) h.w1Q ?_
  rw [henq]
  exact h.w2Q.leave

theorem room_stepW1 (h : Room sizeofPtr t) (hstep : stepW1 sizeofPtr t = some t') :
    Room sizeofPtr t' := by
  cases hpc : t.w1.pc with
  | loop =>
    simp only [stepW1, hpc, Option.some.injEq] at hstep
    subst hstep
    refine h.moveW1 ?_ ?_
    · split_ifs <;> simp [leftW1, hpc]
    · split_ifs <;> rfl
  | wait =>
    simp only [stepW1, hpc, Option.ite_none_right_eq_some, Option.some.injEq] at hstep
    obtain ⟨-, rfl⟩ := hstep
    exact h.moveW1 (by simp [leftW1, hpc]) rfl
  | dequeue second pc =>
    simp only [stepW1, hpc] at hstep
    split at hstep
    · cases hstep
    · next q y hnext =>
      cases hstep
      exact h.inDequeueW1 hpc (h.w1Q.dequeueStep hnext)
  | enqueue pc =>
    have hq := h.w2Q
    simp only [enqueueW1, hpc] at hq
    simp only [stepW1, hpc] at hstep
    split at hstep
    · cases hstep
    · next q next hnext =>
      cases hstep
      exact h.inEnqueueW1 hpc (hq.enqueueStep hnext)
  | post =>
    simp only [stepW1, hpc, Option.some.injEq] at hstep
    subst hstep
    exact h.moveW1 (Nat.zero_le _) rfl
  | done => simp [stepW1, hpc] at hstep

theorem room_failW1 (h : Room sizeofPtr t) (hfail : failW1 t = some t') : Room sizeofPtr t' := by
  unfold failW1 at hfail
  split at hfail
  · next hpc =>
    cases hfail
    exact h.moveW1 (by simp [leftW1, hpc]) rfl
  · next hpc =>
    cases hfail
    exact h.inDequeueW1 hpc h.w1Q
  · next hpc =>
    cases hfail
    exact h.inEnqueueW1 hpc h.w2Q.leave
  · cases hfail

theorem Room.setW2 {sems : Sems} {w2 : W2} {got : List ℤ} (h : Room sizeofPtr t)
    (hq : Fits q (enqueueW1 t.w1) (t.w1.w2DequeueCount / 2)) :
    Room sizeofPtr { t with sems := sems, w2 := w2, w2Q := q, got := got } :=
  ⟨h.s1, h.w1, h.w1Q, hq, h.asserted⟩

theorem room_stepW2 (h : Room sizeofPtr t) (hstep : stepW2 sizeofPtr t = some t') :
    Room sizeofPtr t' := by
  unfold stepW2 at hstep
  split at hstep
  · cases hstep
    exact h.setW2 h.w2Q
  · split_ifs at hstep
    cases hstep
    exact h.setW2 h.w2Q
  · split at hstep
    · cases hstep
    · next hnext =>
      cases hstep
      exact h.setW2 (h.w2Q.dequeueStep hnext)
  · cases hstep
    exact h.setW2 h.w2Q
  · cases hstep

theorem room_failW2 {get : ℤ} (h : Room sizeofPtr t) (hfail : failW2 get t = some t') :
    Room sizeofPtr t' := by
  unfold failW2 at hfail
  split at hfail <;> cases hfail <;> exact h.setW2 h.w2Q

theorem room_stepSequencer (h : Room sizeofPtr t) : Room sizeofPtr (stepSequencer t) := by
  unfold stepSequencer
  split <;> exact ⟨h.s1, h.w1, h.w1Q, h.w2Q, h.asserted⟩

theorem room_giveUp {p : Party} (h : Room sizeofPtr t) (hgive : giveUp t p = some t') :
    Room sizeofPtr t' := by
  cases p with
  | s1 =>
    simp only [giveUp, Option.ite_none_right_eq_some, Option.some.injEq] at hgive
    obtain ⟨-, rfl⟩ := hgive
    exact h.leaveS1 (Nat.zero_le _) rfl (.inr (by simp))
  | w1 =>
    simp only [giveUp, Option.ite_none_right_eq_some, Option.some.injEq] at hgive
    obtain ⟨-, rfl⟩ := hgive
    exact h.moveW1 (Nat.zero_le _) rfl
  | w2 =>
    simp only [giveUp, Option.ite_none_right_eq_some, Option.some.injEq] at hgive
    obtain ⟨-, rfl⟩ := hgive
    exact h.setW2 h.w2Q
  | sequencer => cases hgive

theorem room_stepCtrlC (h : Room sizeofPtr s.threads) (hstep : stepCtrlC s = some s') :
    Room sizeofPtr s'.threads := by
  unfold stepCtrlC at hstep
  cases hpc : s.ctrlC <;> simp only [hpc, Option.some.injEq, reduceCtorEq] at hstep
  case clear =>
    subst hstep
    have hleft : leftS1 false s.threads.s1 ≤ leftS1 s.threads.running s.threads.s1 := by
      unfold leftS1
      split
      · exact Nat.zero_le _
      · exact le_rfl
      · exact le_rfl
    exact ⟨le_trans (Nat.add_le_add_left hleft _) h.s1, h.w1, h.w1Q, h.w2Q, h.asserted⟩
  all_goals
    subst hstep
    exact ⟨h.s1, h.w1, h.w1Q, h.w2Q, h.asserted⟩

theorem room_step (h : Room sizeofPtr s.threads) (hstep : step sizeofPtr s a = some s') :
    Room sizeofPtr s'.threads := by
  cases a with
  | party p =>
    obtain ⟨t, ht, rfl⟩ := Option.map_eq_some_iff.1 hstep
    cases p with
    | s1 => exact room_stepS1 h ht
    | w1 => exact room_stepW1 h ht
    | w2 => exact room_stepW2 h ht
    | sequencer =>
      cases ht
      exact room_stepSequencer h
  | fail p get =>
    obtain ⟨t, ht, rfl⟩ := Option.map_eq_some_iff.1 hstep
    cases p with
    | s1 => exact room_failS1 h ht
    | w1 => exact room_failW1 h ht
    | w2 => exact room_failW2 h ht
    | sequencer => cases ht
  | giveUp p =>
    obtain ⟨-, t, ht, rfl⟩ := giveUp_eq_some hstep
    exact room_giveUp h ht
  | ctrlC => exact room_stepCtrlC h hstep

theorem room_of_reach {ok : State → Turn → Prop}
    (h : Reach (step sizeofPtr) ok (init b₁ b₂) s) : Room sizeofPtr s.threads :=
  h.invariant (P := fun s => Room sizeofPtr s.threads) room_init fun hs _ hstep =>
    room_step hs hstep


end Ecen5623.Pipeline.Shutdown
