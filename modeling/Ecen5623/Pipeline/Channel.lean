import Mathlib.Algebra.BigOperators.Group.List.Basic
import Mathlib.Algebra.BigOperators.Intervals
import Mathlib.Algebra.Order.Ring.Int
import Mathlib.Data.Nat.Notation

/-! # A queue between two threads

`enqueue_P` and `dequeue_P` of `exam2/queue.c`, statement by statement, on a `queue_container_t`
that passes `int`s. A counter update is one step, operations on the POSIX queue succeed, and the
send and the receive have no step while the queue is full or empty. Both functions go through the
buffer `b` of the container. `sizeofPtr` is the size of a pointer, which the assertion compares with
the payload size; a failed assertion has no step.

With one sender and one receiver, `Link` says what the container holds after `n` sends and `r`
receives of the messages `f 1, f 2, ...`. Each step keeps it as long as neither thread writes to `b`
while the other one still needs it. -/

namespace Ecen5623.Pipeline.Channel

/-- `EXAM2_Q_SZ`, the `num_elems` of both queues. -/
abbrev numElems : ℕ := 200

/-- `sizeof(int)`, the `max_payload_size` of both queues. -/
abbrev maxPayloadSize : ℕ := 4

/-- A `queue_container_t`: the messages of its POSIX queue, the buffer and the counter. -/
structure Queue where
  messages : List ℤ
  b : ℤ
  count : ℤ
  deriving DecidableEq, Repr

/-- Where a thread is in `enqueue_P`. -/
inductive EnqueuePc where
  | test
  | up
  | copy
  | send
  deriving DecidableEq, Repr

/-- Where a thread is in `dequeue_P`. -/
inductive DequeuePc where
  | down
  | receive
  | copyOut
  deriving DecidableEq, Repr

/-- One step of `enqueue_P(q, &p)`: the container after it, and where the thread is then, `none`
after the return. -/
def enqueueStep (sizeofPtr : ℕ) (q : Queue) (p : ℤ) : EnqueuePc → Option (Queue × Option EnqueuePc)
  | .test =>
    if sizeofPtr = maxPayloadSize then
      if q.count = numElems then some (q, none) else some (q, some .up)
    else none
  | .up => some ({ q with count := q.count + 1 }, some .copy)
  | .copy => some ({ q with b := p }, some .send)
  | .send =>
    if q.messages.length < numElems then some ({ q with messages := q.messages ++ [q.b] }, none)
    else none

/-- One step of `dequeue_P(q, &p)`: the container after it, and where the thread is then, or the
value of `p` after the return. -/
def dequeueStep (sizeofPtr : ℕ) (q : Queue) : DequeuePc → Option (Queue × (DequeuePc ⊕ ℤ))
  | .down =>
    if sizeofPtr = maxPayloadSize then some ({ q with count := q.count - 1 }, .inl .receive)
    else none
  | .receive =>
    match q.messages with
    | [] => none
    | m :: messages => some ({ q with messages := messages, b := m }, .inl .copyOut)
  | .copyOut => some (q, .inr q.b)

/-! ### The two ends -/

/-- `n` messages sent and `r` received, with the sender at `e` and the receiver at `d`. -/
structure Link (f : ℕ → ℤ) (q : Queue) (n r : ℕ) (e : Option EnqueuePc) (d : Option DequeuePc) :
    Prop where
  le : r ≤ n
  messages : q.messages = (List.range' (r + 1) (n - r)).map f
  count : q.count = n - r + (if e = some .copy ∨ e = some .send then 1 else 0) -
    (if d = some .receive then 1 else 0)
  loaded : e = some .send → q.b = f (n + 1)
  holding : d = some .copyOut → q.b = f r

variable {f : ℕ → ℤ} {q q' : Queue} {n r sizeofPtr : ℕ} {e : Option EnqueuePc}
  {d : Option DequeuePc} {p : ℤ}

theorem link_empty (b : ℤ) : Link f { messages := [], b := b, count := 0 } 0 0 none none where
  le := le_rfl
  messages := rfl
  count := by simp
  loaded h := by cases h
  holding h := by cases h

theorem Link.length (h : Link f q n r e d) : (q.messages.length : ℤ) = n - r := by
  have hle := h.le
  rw [h.messages, List.length_map, List.length_range']
  omega

theorem Link.cons {m : ℤ} {messages : List ℤ} (h : Link f q n r e d)
    (hq : q.messages = m :: messages) :
    r + 1 ≤ n ∧ m = f (r + 1) ∧ messages = (List.range' (r + 1 + 1) (n - (r + 1))).map f := by
  have hlen := h.length
  rw [hq, List.length_cons] at hlen
  have hsub : n - r = (n - (r + 1)) + 1 := by omega
  have hmsg := h.messages
  rw [hq, hsub, List.range'_succ, List.map_cons, List.cons.injEq] at hmsg
  exact ⟨by omega, hmsg⟩

theorem Link.enter (h : Link f q n r none d) : Link f q n r (some .test) d where
  le := h.le
  messages := h.messages
  count := by simpa using h.count
  loaded h := by cases h
  holding := h.holding

theorem Link.enterDequeue (h : Link f q n r e none) : Link f q n r e (some .down) where
  le := h.le
  messages := h.messages
  count := by simpa using h.count
  loaded := h.loaded
  holding h := by cases h

theorem Link.count_ne (h : Link f q n r (some .test) d) (hn : n < numElems) :
    q.count ≠ numElems := by
  have hc := h.count
  simp only [Option.some.injEq, reduceCtorEq, or_self, if_false] at hc
  split_ifs at hc <;> omega

/-- **A step of the sender.** -/
theorem Link.enqueueStep {pc : EnqueuePc} {e' : Option EnqueuePc} (h : Link f q n r (some pc) d)
    (hp : p = f (n + 1)) (hn : n < numElems) (hd : pc = .copy → d ≠ some .copyOut)
    (hstep : enqueueStep sizeofPtr q p pc = some (q', e')) :
    Link f q' (if pc = .send then n + 1 else n) r e' d ∧
      (pc ≠ .send → e' ≠ none) ∧ (pc = .send → e' = none) := by
  have hle := h.le
  have hcount := h.count
  cases pc with
  | test =>
    simp only [Channel.enqueueStep, if_neg (h.count_ne hn)] at hstep
    split_ifs at hstep
    cases hstep
    exact ⟨⟨hle, h.messages, by simpa using hcount, by simp, h.holding⟩, by simp, by simp⟩
  | up =>
    cases hstep
    refine ⟨⟨hle, h.messages, ?_, by simp, h.holding⟩, by simp, by simp⟩
    simp only [Option.some.injEq, reduceCtorEq, or_self, or_false, if_true, if_false] at hcount ⊢
    omega
  | copy =>
    cases hstep
    refine ⟨⟨hle, h.messages, by simpa using hcount, fun _ => hp, fun he => ?_⟩, by simp, by simp⟩
    exact absurd he (hd rfl)
  | send =>
    simp only [Channel.enqueueStep] at hstep
    split_ifs at hstep with hlen
    cases hstep
    refine ⟨⟨by simp only [if_true]; omega, ?_, ?_, by simp, h.holding⟩, by simp, by simp⟩
    · have hsub : n + 1 - r = (n - r) + 1 := by omega
      have hlast : r + 1 + (n - r) = n + 1 := by omega
      simp only [if_true, h.messages, h.loaded rfl]
      rw [hsub, List.range'_1_concat, List.map_append, hlast]
      rfl
    · simp only [Option.some.injEq, reduceCtorEq, or_true, or_self, if_true, if_false] at hcount ⊢
      omega

/-- **A step of the receiver.** -/
theorem Link.dequeueStep {pc : DequeuePc} {x : DequeuePc ⊕ ℤ} (h : Link f q n r e (some pc))
    (he : pc = .receive → e ≠ some .send) (hstep : dequeueStep sizeofPtr q pc = some (q', x)) :
    (pc = .down ∧ x = .inl .receive ∧ Link f q' n r e (some .receive)) ∨
    (pc = .receive ∧ x = .inl .copyOut ∧ Link f q' n (r + 1) e (some .copyOut)) ∨
    (pc = .copyOut ∧ x = .inr (f r) ∧ Link f q' n r e none) := by
  have hle := h.le
  have hcount := h.count
  cases pc with
  | down =>
    simp only [Channel.dequeueStep] at hstep
    split_ifs at hstep
    cases hstep
    refine .inl ⟨rfl, rfl, hle, h.messages, ?_, h.loaded, by simp⟩
    simp only [Option.some.injEq, reduceCtorEq, if_true, if_false] at hcount ⊢
    omega
  | receive =>
    cases hq : q.messages with
    | nil => simp [Channel.dequeueStep, hq] at hstep
    | cons m messages =>
      simp only [Channel.dequeueStep, hq, Option.some.injEq, Prod.mk.injEq] at hstep
      obtain ⟨rfl, rfl⟩ := hstep
      obtain ⟨hlt, hm, hmessages⟩ := h.cons hq
      refine .inr (.inl ⟨rfl, rfl, hlt, hmessages, ?_, fun hs => absurd hs (he rfl), fun _ => hm⟩)
      simp only [Option.some.injEq, reduceCtorEq, if_true, if_false] at hcount ⊢
      omega
  | copyOut =>
    cases hstep
    refine .inr (.inr ⟨rfl, ?_, hle, h.messages, by simpa using hcount, h.loaded, by simp⟩)
    rw [h.holding rfl]

/-! ### How long a call is -/

/-- The steps of a call of `dequeue_P`. -/
def rankDequeue : DequeuePc → ℕ
  | .down => 3
  | .receive => 2
  | .copyOut => 1

/-- The steps of a call of `enqueue_P`. -/
def rankEnqueue : EnqueuePc → ℕ
  | .test => 4
  | .up => 3
  | .copy => 2
  | .send => 1

theorem rank_enqueueStep {pc : EnqueuePc} (h : enqueueStep sizeofPtr q p pc = some (q', e)) :
    e.elim 0 rankEnqueue < rankEnqueue pc := by
  cases pc with
  | test =>
    simp only [enqueueStep] at h
    split_ifs at h <;> cases h <;> decide
  | send =>
    simp only [enqueueStep] at h
    split_ifs at h
    cases h
    decide
  | _ =>
    cases h
    decide

theorem rank_dequeueStep {pc : DequeuePc} {x : DequeuePc ⊕ ℤ}
    (h : dequeueStep sizeofPtr q pc = some (q', x)) :
    x.elim rankDequeue (fun _ => 0) < rankDequeue pc := by
  cases pc with
  | down =>
    simp only [dequeueStep] at h
    split_ifs at h
    cases h
    decide
  | receive =>
    simp only [dequeueStep] at h
    split at h <;> cases h
    decide
  | copyOut =>
    cases h
    exact Nat.zero_lt_one

theorem isSome_enqueueStep (p : ℤ) (pc : EnqueuePc)
    (hlt : pc = .send → q.messages.length < numElems) :
    (enqueueStep maxPayloadSize q p pc).isSome := by
  cases pc with
  | test =>
    simp only [enqueueStep, if_true]
    split_ifs <;> rfl
  | up => rfl
  | copy => rfl
  | send => simp [enqueueStep, hlt rfl]

theorem isSome_dequeueStep {pc : DequeuePc} (hne : pc = .receive → q.messages ≠ []) :
    (dequeueStep maxPayloadSize q pc).isSome := by
  cases pc with
  | down => rfl
  | copyOut => rfl
  | receive =>
    cases hq : q.messages with
    | nil => exact absurd hq (hne rfl)
    | cons m messages => simp [dequeueStep, hq]

/-! ### The sum of the messages -/

/-- The sum of the first `n` messages. -/
def total (f : ℕ → ℤ) (n : ℕ) : ℤ := ∑ k ∈ Finset.range n, f (k + 1)

theorem total_succ (f : ℕ → ℤ) (n : ℕ) : total f (n + 1) = total f n + f (n + 1) :=
  Finset.sum_range_succ _ _

theorem sum_range'_map (f : ℕ → ℤ) (r : ℕ) : ∀ k,
    ((List.range' (r + 1) k).map f).sum = total f (r + k) - total f r
  | 0 => by simp
  | k + 1 => by
    have hlast : r + 1 + k = r + k + 1 := by omega
    rw [List.range'_1_concat, List.map_append, List.sum_append, sum_range'_map f r k, hlast,
      ← Nat.add_assoc, total_succ]
    simp
    omega

/-- **The messages on the way are those sent less those received.** -/
theorem Link.sum (h : Link f q n r e d) : q.messages.sum = total f n - total f r := by
  rw [h.messages, sum_range'_map, Nat.add_sub_cancel' h.le]

end Ecen5623.Pipeline.Channel
