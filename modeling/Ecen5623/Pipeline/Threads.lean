import Ecen5623.Library.Transition
import Ecen5623.Pipeline.Channel

/-! # The three services of `exam2`

`S1`, `W1`, `W2` and the handler `sequencer` of `exam2/sequencer.c` as four parties that take turns.
A turn is one statement on shared data, together with the statements on local variables that follow
it; a `sem_wait` has no step while its semaphore is `0`. `sem_wait` succeeds and there is no
`ctrl_c`. Logging and printing have no effect on the state. The numbers that `S1` has sent and those
that `W2` has received are recorded in `sent` and `got`. -/

namespace Ecen5623.Pipeline.Threads

open Ecen5623.Library Ecen5623.Pipeline.Channel

/-! ### The variables of the parties -/

/-- Where `S1` is. -/
inductive S1Pc where
  | loop
  | wait
  | enqueue (pc : EnqueuePc)
  | waitW1
  | waitW2
  | stop
  | done
  deriving DecidableEq, Repr

structure S1 where
  pc : S1Pc
  count : ℕ
  deriving DecidableEq, Repr

/-- Where `W1` is; `dequeue false` is its first call of `dequeue_P` and `dequeue true` its
second. -/
inductive W1Pc where
  | loop
  | wait
  | dequeue (second : Bool) (pc : DequeuePc)
  | enqueue (pc : EnqueuePc)
  | post
  | done
  deriving DecidableEq, Repr

structure W1 where
  pc : W1Pc
  sum : ℤ
  num1 : ℤ
  num2 : ℤ
  w2DequeueCount : ℕ
  deriving DecidableEq, Repr

/-- Where `W2` is. -/
inductive W2Pc where
  | loop
  | wait
  | dequeue (pc : DequeuePc)
  | post
  | done
  deriving DecidableEq, Repr

structure W2 where
  pc : W2Pc
  totalSum : ℤ
  totalCount : ℕ
  deriving DecidableEq, Repr

/-- Where the handler is, `idle` between two signals. -/
inductive SeqPc where
  | idle
  | postS1
  | postW1
  | postW2
  | advance
  deriving DecidableEq, Repr

structure Sequencer where
  pc : SeqPc
  seqCount : ℕ
  deriving DecidableEq, Repr

/-- The semaphores. -/
structure Sems where
  semS1 : ℕ
  semW1 : ℕ
  semW2 : ℕ
  runningW1 : ℕ
  runningW2 : ℕ
  deriving DecidableEq, Repr

structure State where
  w1Q : Queue
  w2Q : Queue
  sems : Sems
  running : Bool
  s1 : S1
  w1 : W1
  w2 : W2
  sequencer : Sequencer
  sent : List ℤ
  got : List ℤ
  deriving DecidableEq, Repr

/-- The queues have been flushed; their buffers, fresh from `malloc`, hold anything. `get` and the
other uninitialised variables are set before they are used. -/
def init (b₁ b₂ : ℤ) : State where
  w1Q := { messages := [], b := b₁, count := 0 }
  w2Q := { messages := [], b := b₂, count := 0 }
  sems := { semS1 := 0, semW1 := 0, semW2 := 0, runningW1 := 0, runningW2 := 0 }
  running := true
  s1 := { pc := .loop, count := 0 }
  w1 := { pc := .loop, sum := 0, num1 := 0, num2 := 0, w2DequeueCount := 0 }
  w2 := { pc := .loop, totalSum := 0, totalCount := 0 }
  sequencer := { pc := .idle, seqCount := 0 }
  sent := []
  got := []

/-! ### The steps -/

/-- The number `S1` sends in a step of `enqueue_P`, if any. -/
def logSent (s1 : S1) (pc : EnqueuePc) : List ℤ := if pc = .send then [(s1.count : ℤ)] else []

/-- Where `S1` is after a step of `enqueue_P`. -/
def afterEnqueueS1 (s1 : S1) : Option EnqueuePc → S1Pc
  | some pc => .enqueue pc
  | none => if s1.count = 200 then .waitW1 else .loop

def stepS1 (sizeofPtr : ℕ) (s : State) : Option State :=
  match s.s1.pc with
  | .loop => some { s with s1 := { s.s1 with pc := if s.running then .wait else .done } }
  | .wait =>
    if 0 < s.sems.semS1 then
      some { s with
        sems := { s.sems with semS1 := s.sems.semS1 - 1 }
        s1 := { pc := .enqueue .test, count := s.s1.count + 1 } }
    else none
  | .enqueue pc =>
    match enqueueStep sizeofPtr s.w1Q s.s1.count pc with
    | none => none
    | some (q, next) =>
      some { s with
        w1Q := q
        s1 := { s.s1 with pc := afterEnqueueS1 s.s1 next }
        sent := s.sent ++ logSent s.s1 pc }
  | .waitW1 =>
    if 0 < s.sems.runningW1 then
      some { s with
        sems := { s.sems with runningW1 := s.sems.runningW1 - 1 }
        s1 := { s.s1 with pc := .waitW2 } }
    else none
  | .waitW2 =>
    if 0 < s.sems.runningW2 then
      some { s with
        sems := { s.sems with runningW2 := s.sems.runningW2 - 1 }
        s1 := { s.s1 with pc := .stop } }
    else none
  | .stop => some { s with running := false, s1 := { s.s1 with pc := .loop } }
  | .done => none

/-- `W1` after a step of `dequeue_P`, whose value goes into `num1` or `num2`. -/
def afterDequeueW1 (w1 : W1) (second : Bool) : DequeuePc ⊕ ℤ → W1
  | .inl pc => { w1 with pc := .dequeue second pc }
  | .inr num =>
    if second then
      { pc := .enqueue .test
        sum := w1.num1 + num
        num1 := w1.num1
        num2 := num
        w2DequeueCount := w1.w2DequeueCount + 2 }
    else { w1 with pc := .dequeue true .down, num1 := num }

/-- Where `W1` is after a step of `enqueue_P`. -/
def afterEnqueueW1 (w1 : W1) : Option EnqueuePc → W1Pc
  | some pc => .enqueue pc
  | none => if w1.w2DequeueCount > 198 then .post else .loop

def stepW1 (sizeofPtr : ℕ) (s : State) : Option State :=
  match s.w1.pc with
  | .loop => some { s with w1 := { s.w1 with pc := if s.running then .wait else .done } }
  | .wait =>
    if 0 < s.sems.semW1 then
      some { s with
        sems := { s.sems with semW1 := s.sems.semW1 - 1 }
        w1 := { s.w1 with pc := .dequeue false .down } }
    else none
  | .dequeue second pc =>
    match dequeueStep sizeofPtr s.w1Q pc with
    | none => none
    | some (q, x) => some { s with w1Q := q, w1 := afterDequeueW1 s.w1 second x }
  | .enqueue pc =>
    match enqueueStep sizeofPtr s.w2Q s.w1.sum pc with
    | none => none
    | some (q, next) =>
      some { s with
        w2Q := q
        w1 := { s.w1 with pc := afterEnqueueW1 s.w1 next } }
  | .post =>
    some { s with
      sems := { s.sems with runningW1 := s.sems.runningW1 + 1 }
      w1 := { s.w1 with pc := .done } }
  | .done => none

/-- `W2` after a step of `dequeue_P`, whose value it adds to its total. -/
def afterDequeueW2 (w2 : W2) : DequeuePc ⊕ ℤ → W2
  | .inl pc => { w2 with pc := .dequeue pc }
  | .inr get =>
    { pc := if w2.totalCount + 1 = 100 then .post else .loop
      totalSum := w2.totalSum + get
      totalCount := w2.totalCount + 1 }

/-- The number `W2` got, if any. -/
def logGot : DequeuePc ⊕ ℤ → List ℤ
  | .inl _ => []
  | .inr get => [get]

def stepW2 (sizeofPtr : ℕ) (s : State) : Option State :=
  match s.w2.pc with
  | .loop => some { s with w2 := { s.w2 with pc := if s.running then .wait else .done } }
  | .wait =>
    if 0 < s.sems.semW2 then
      some { s with
        sems := { s.sems with semW2 := s.sems.semW2 - 1 }
        w2 := { s.w2 with pc := .dequeue .down } }
    else none
  | .dequeue pc =>
    match dequeueStep sizeofPtr s.w2Q pc with
    | none => none
    | some (q, x) =>
      some { s with w2Q := q, w2 := afterDequeueW2 s.w2 x, got := s.got ++ logGot x }
  | .post =>
    some { s with
      sems := { s.sems with runningW2 := s.sems.runningW2 + 1 }
      w2 := { s.w2 with pc := .done } }
  | .done => none

/-- `if (n % d == 0) sem_post(&sem)`. -/
def postEvery (n d sem : ℕ) : ℕ := if n % d = 0 then sem + 1 else sem

theorem le_postEvery (n d sem : ℕ) : sem ≤ postEvery n d sem := by
  unfold postEvery
  split_ifs
  · exact Nat.le_succ sem
  · exact le_rfl

theorem postEvery_pos {n d sem : ℕ} : 0 < postEvery n d sem ↔ 0 < sem ∨ n % d = 0 := by
  unfold postEvery
  split_ifs with h
  · exact iff_of_true (Nat.succ_pos sem) (.inr h)
  · exact (or_iff_left h).symm

/-- One step of the handler; at `idle` the next signal arrives. -/
def stepSequencer (s : State) : State :=
  let n := s.sequencer.seqCount
  match s.sequencer.pc with
  | .idle =>
    { s with sequencer := { s.sequencer with pc := if s.running then .postS1 else .idle } }
  | .postS1 =>
    { s with
      sems := { s.sems with semS1 := postEvery n 5 s.sems.semS1 }
      sequencer := { s.sequencer with pc := .postW1 } }
  | .postW1 =>
    { s with
      sems := { s.sems with semW1 := postEvery n 10 s.sems.semW1 }
      sequencer := { s.sequencer with pc := .postW2 } }
  | .postW2 =>
    { s with
      sems := { s.sems with semW2 := postEvery n 100 s.sems.semW2 }
      sequencer := { s.sequencer with pc := .advance } }
  | .advance =>
    { s with sequencer := { pc := .idle, seqCount := if n + 1 = 500 then 0 else n + 1 } }

inductive Party where
  | s1
  | w1
  | w2
  | sequencer
  deriving DecidableEq, Repr

/-- One turn. -/
def step (sizeofPtr : ℕ) (s : State) : Party → Option State
  | .s1 => stepS1 sizeofPtr s
  | .w1 => stepW1 sizeofPtr s
  | .w2 => stepW2 sizeofPtr s
  | .sequencer => some (stepSequencer s)

/-! ### What the pipeline is for -/

/-- What `W1` has received and not yet sent on, with `b` in the buffer of its queue. -/
def w1InHand (w1 : W1) (b : ℤ) : ℤ :=
  match w1.pc with
  | .dequeue false .copyOut => b
  | .dequeue true .copyOut => w1.num1 + b
  | .dequeue true _ => w1.num1
  | .enqueue _ => w1.sum
  | _ => 0

/-- What `W2` has received and not yet added, with `b` in the buffer of its queue. -/
def w2InHand (w2 : W2) (b : ℤ) : ℤ := if w2.pc = .dequeue .copyOut then b else 0

/-- Nothing is lost or made up, the numbers come in order, the guards do not fire, and the total is
right in the end. -/
structure Conserved (s : State) : Prop where
  balance : s.w2.totalSum + w2InHand s.w2 s.w2Q.b + s.w2Q.messages.sum +
    w1InHand s.w1 s.w1Q.b + s.w1Q.messages.sum = s.sent.sum
  order : ∀ k (hk : k < s.got.length), s.got[k] = 4 * (k + 1) - 1
  s1Room : s.s1.pc = .enqueue .test → s.w1Q.count ≠ numElems
  w1Room : s.w1.pc = .enqueue .test → s.w2Q.count ≠ numElems
  total : s.w2.pc = .post → s.w2.totalSum = ∑ k ∈ Finset.range 201, (k : ℤ)

end Ecen5623.Pipeline.Threads
