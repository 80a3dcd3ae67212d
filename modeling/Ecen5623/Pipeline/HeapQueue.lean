import Ecen5623.Library.Transition
import Mathlib.Data.Nat.Notation

/-! # Heap buffers in a queue

`send_func`, `receive_func` and `ctrl_c` of `msg_queue/heap_mq.c`, as parties that take turns after
the queue has been flushed. A turn is one call or one access to `running`. A buffer is the number of
the `malloc` that returned it, and a message is the pointer to one, so it has bytes. A send succeeds
when the queue has room and a receive when it is not empty; either may fail. Each thread has an
`errno` of its own, which only a failed receive sets to `ETIMEDOUT` in the receive thread.

No buffer is ever in two hands (`sound_reach`). It is in none when the sender returns from a
failed send, and it is never freed when it is still queued as the last thread returns
(`owned_iff`). -/

namespace Ecen5623.Pipeline.HeapQueue

open Ecen5623.Library

/-- `MAX_QUEUE_SIZE`. -/
abbrev maxQueueSize : ℕ := 10

/-- What a call returns: success, or a failure with `ETIMEDOUT` or another `errno`. -/
inductive Rc where
  | ok
  | etimedout
  | error
  deriving DecidableEq, Repr

/-- Where `send_func` is; `p` is its variable. At `stop` it has left the failed call. -/
inductive SendPc where
  | test
  | malloc
  | send (p : ℕ)
  | stop (p : ℕ)
  | exited
  deriving DecidableEq, Repr

/-- Where `receive_func` is; `p` is the pointer in its message. -/
inductive ReceivePc where
  | test
  | receive
  | check (p : ℕ)
  | free (p : ℕ)
  | stop
  | exited
  deriving DecidableEq, Repr

/-- `allocated` counts the buffers so far, `timedOut` says whether `errno` is `ETIMEDOUT` in the
receive thread, and `freed` lists the buffers freed. -/
structure State where
  running : Bool
  allocated : ℕ
  sender : SendPc
  queue : List ℕ
  receiver : ReceivePc
  timedOut : Bool
  freed : List ℕ
  deriving DecidableEq, Repr

def init : State where
  running := true
  allocated := 0
  sender := .test
  queue := []
  receiver := .test
  timedOut := false
  freed := []

/-- A turn, with what the call in it returns. -/
inductive Turn where
  | ctrlC
  | sender (rc : Rc)
  | receiver (rc : Rc)
  deriving DecidableEq, Repr

/-- One step of `send_func`. -/
def stepSender (s : State) (rc : Rc) : Option State :=
  match s.sender with
  | .test => some { s with sender := if s.running then .malloc else .exited }
  | .malloc =>
    if rc = .ok then some { s with sender := .send s.allocated, allocated := s.allocated + 1 }
    else some { s with sender := .test }
  | .send p =>
    if rc = .ok then
      if s.queue.length < maxQueueSize then
        some { s with sender := .test, queue := s.queue ++ [p] }
      else none
    else some { s with sender := .stop p }
  | .stop _ => some { s with running := false, sender := .exited }
  | .exited => none

/-- One step of `receive_func`. -/
def stepReceiver (s : State) (rc : Rc) : Option State :=
  match s.receiver with
  | .test => some { s with receiver := if s.running then .receive else .exited }
  | .receive =>
    if rc = .ok then
      match s.queue with
      | [] => none
      | p :: queue => some { s with queue := queue, receiver := .check p }
    else some { s with receiver := .stop, timedOut := rc = .etimedout }
  | .check p => some { s with receiver := if s.timedOut then .test else .free p }
  | .free p => some { s with freed := s.freed ++ [p], receiver := .test }
  | .stop => some { s with running := false, receiver := .exited }
  | .exited => none

/-- One turn. -/
def step (s : State) : Turn → Option State
  | .ctrlC => some { s with running := false }
  | .sender rc => stepSender s rc
  | .receiver rc => stepReceiver s rc

/-! ### Owners -/

/-- The buffer that the sender holds. -/
def SendPc.held : SendPc → List ℕ
  | .send p => [p]
  | .stop p => [p]
  | _ => []

/-- The buffer that the receiver holds. -/
def ReceivePc.held : ReceivePc → List ℕ
  | .check p => [p]
  | .free p => [p]
  | _ => []

/-- In how many places a buffer is: with the sender, in messages, with the receiver, freed. -/
def State.owners (s : State) (b : ℕ) : ℕ :=
  s.sender.held.count b + s.queue.count b + s.receiver.held.count b + s.freed.count b

/-- Both threads have returned. -/
def State.Returned (s : State) : Prop := s.sender = .exited ∧ s.receiver = .exited

/-- Every buffer has one owner, and in the end has been freed once. -/
structure Owned (s : State) : Prop where
  one : ∀ b < s.allocated, s.owners b = 1
  freed : s.Returned → ∀ b < s.allocated, s.freed.count b = 1

/-- The sender is about to return from a failed send. -/
def SendPc.failed : SendPc → Bool
  | .stop _ => true
  | _ => false

/-- After the turn both threads have returned. -/
def Last (s : State) : Turn → Prop
  | .ctrlC => s.Returned
  | .sender _ => (s.sender = .test ∧ s.running = false ∨ s.sender.failed) ∧ s.receiver = .exited
  | .receiver _ =>
    (s.receiver = .test ∧ s.running = false ∨ s.receiver = .stop) ∧ s.sender = .exited

instance (s : State) : (a : Turn) → Decidable (Last s a)
  | .ctrlC => inferInstanceAs (Decidable (s.sender = .exited ∧ s.receiver = .exited))
  | .sender _ => inferInstanceAs (Decidable (_ ∧ _))
  | .receiver _ => inferInstanceAs (Decidable (_ ∧ _))

/-- The sender returns from a failed send. -/
def givesUp (s : State) : Turn → Bool
  | .sender _ => s.sender.failed
  | _ => false

/-- The sender does not return from a failed send, and the thread that returns last leaves no
message. -/
def Clean (s : State) (a : Turn) : Prop := givesUp s a = false ∧ (Last s a → s.queue = [])

instance (s : State) (a : Turn) : Decidable (Clean s a) := inferInstanceAs (Decidable (_ ∧ _))

/-- The buffers that a turn makes. -/
def made (s : State) : Turn → List ℕ
  | .sender .ok => if s.sender = .malloc then [s.allocated] else []
  | _ => []

/-- The buffers that a turn forgets: the sender returns from a failed send, or the receiver takes
an old `errno` for a new one. -/
def dropped (s : State) : Turn → List ℕ
  | .sender _ => match s.sender with
    | .stop p => [p]
    | _ => []
  | .receiver _ => match s.receiver with
    | .check p => if s.timedOut then [p] else []
    | _ => []
  | .ctrlC => []

variable {s s' : State} {a : Turn} {b : ℕ}

/-! ### What a turn does -/

theorem stepSender_cases {rc : Rc} (h : stepSender s rc = some s') :
    (s.sender = .test ∧ s' = { s with sender := if s.running then .malloc else .exited }) ∨
    (s.sender = .malloc ∧ rc = .ok ∧
      s' = { s with sender := .send s.allocated, allocated := s.allocated + 1 }) ∨
    (s.sender = .malloc ∧ rc ≠ .ok ∧ s' = { s with sender := .test }) ∨
    (∃ p, s.sender = .send p ∧ s' = { s with sender := .test, queue := s.queue ++ [p] }) ∨
    (∃ p, s.sender = .send p ∧ s' = { s with sender := .stop p }) ∨
    (∃ p, s.sender = .stop p ∧ s' = { s with running := false, sender := .exited }) := by
  unfold stepSender at h
  split at h
  · next hpc => exact .inl ⟨hpc, (Option.some.inj h).symm⟩
  · next hpc =>
    split_ifs at h with hrc
    · exact .inr (.inl ⟨hpc, hrc, (Option.some.inj h).symm⟩)
    · exact .inr (.inr (.inl ⟨hpc, hrc, (Option.some.inj h).symm⟩))
  · next p hpc =>
    split_ifs at h
    · exact .inr (.inr (.inr (.inl ⟨p, hpc, (Option.some.inj h).symm⟩)))
    · exact .inr (.inr (.inr (.inr (.inl ⟨p, hpc, (Option.some.inj h).symm⟩))))
  · next p hpc => exact .inr (.inr (.inr (.inr (.inr ⟨p, hpc, (Option.some.inj h).symm⟩))))
  · cases h

theorem stepReceiver_cases {rc : Rc} (h : stepReceiver s rc = some s') :
    (s.receiver = .test ∧ s' = { s with receiver := if s.running then .receive else .exited }) ∨
    (∃ p queue, s.receiver = .receive ∧ s.queue = p :: queue ∧
      s' = { s with queue := queue, receiver := .check p }) ∨
    (s.receiver = .receive ∧ s' = { s with receiver := .stop, timedOut := rc = .etimedout }) ∨
    (∃ p, s.receiver = .check p ∧
      s' = { s with receiver := if s.timedOut then .test else .free p }) ∨
    (∃ p, s.receiver = .free p ∧ s' = { s with freed := s.freed ++ [p], receiver := .test }) ∨
    (s.receiver = .stop ∧ s' = { s with running := false, receiver := .exited }) := by
  unfold stepReceiver at h
  split at h
  · next hpc => exact .inl ⟨hpc, (Option.some.inj h).symm⟩
  · next hpc =>
    split_ifs at h
    · split at h
      · cases h
      · next p queue hqueue =>
        exact .inr (.inl ⟨p, queue, hpc, hqueue, (Option.some.inj h).symm⟩)
    · exact .inr (.inr (.inl ⟨hpc, (Option.some.inj h).symm⟩))
  · next p hpc => exact .inr (.inr (.inr (.inl ⟨p, hpc, (Option.some.inj h).symm⟩)))
  · next p hpc => exact .inr (.inr (.inr (.inr (.inl ⟨p, hpc, (Option.some.inj h).symm⟩))))
  · next hpc => exact .inr (.inr (.inr (.inr (.inr ⟨hpc, (Option.some.inj h).symm⟩))))
  · cases h

/-- What a turn does to the owners of the buffers. -/
structure Moves (s s' : State) (a : Turn) : Prop where
  owners : ∀ b, s'.owners b + (dropped s a).count b = s.owners b + (made s a).count b
  allocated : s'.allocated = s.allocated + (made s a).length

theorem made_of_ne {rc : Rc} (h : s.sender = .malloc → rc ≠ .ok) : made s (.sender rc) = [] := by
  cases rc with
  | ok => exact if_neg fun hpc => h hpc rfl
  | etimedout | error => rfl

theorem moves_of_made_nil (hmade : made s a = []) (hallocated : s'.allocated = s.allocated)
    (howners : ∀ b, s'.owners b + (dropped s a).count b = s.owners b) : Moves s s' a := by
  refine ⟨fun b => ?_, ?_⟩
  · rw [hmade]
    exact howners b
  · rw [hmade]
    exact hallocated

theorem moves_stepSender {rc : Rc} (h : stepSender s rc = some s') : Moves s s' (.sender rc) := by
  rcases stepSender_cases h with ⟨hpc, rfl⟩ | ⟨hpc, rfl, rfl⟩ | ⟨hpc, hrc, rfl⟩ | ⟨p, hpc, rfl⟩ |
    ⟨p, hpc, rfl⟩ | ⟨p, hpc, rfl⟩
  · refine moves_of_made_nil (made_of_ne (by simp [hpc])) rfl fun b => ?_
    cases s.running <;> simp [State.owners, dropped, hpc, SendPc.held]
  · -- the new buffer is the next number, and the sender holds it
    constructor
    · intro b
      simp [State.owners, dropped, made, hpc, SendPc.held]
      omega
    · simp [made, hpc]
  · refine moves_of_made_nil (made_of_ne fun _ => hrc) rfl fun b => ?_
    simp [State.owners, dropped, hpc, SendPc.held]
  · refine moves_of_made_nil (made_of_ne (by simp [hpc])) rfl fun b => ?_
    simp [State.owners, dropped, hpc, SendPc.held, List.count_append]
    omega
  · refine moves_of_made_nil (made_of_ne (by simp [hpc])) rfl fun b => ?_
    simp [State.owners, dropped, hpc, SendPc.held]
  · refine moves_of_made_nil (made_of_ne (by simp [hpc])) rfl fun b => ?_
    simp [State.owners, dropped, hpc, SendPc.held]
    omega

theorem moves_stepReceiver {rc : Rc} (h : stepReceiver s rc = some s') :
    Moves s s' (.receiver rc) := by
  rcases stepReceiver_cases h with ⟨hpc, rfl⟩ | ⟨p, queue, hpc, hqueue, rfl⟩ | ⟨hpc, rfl⟩ |
    ⟨p, hpc, rfl⟩ | ⟨p, hpc, rfl⟩ | ⟨hpc, rfl⟩
  all_goals refine moves_of_made_nil rfl rfl fun b => ?_
  · cases s.running <;> simp [State.owners, dropped, hpc, ReceivePc.held]
  · simp [State.owners, dropped, hpc, hqueue, ReceivePc.held, List.count_cons]
    omega
  · simp [State.owners, dropped, hpc, ReceivePc.held]
  · cases herrno : s.timedOut <;> simp [State.owners, dropped, hpc, herrno, ReceivePc.held]
    omega
  · simp [State.owners, dropped, hpc, ReceivePc.held, List.count_append]
    omega
  · simp [State.owners, dropped, hpc, ReceivePc.held]

/-- **A turn moves the buffers** apart from those it makes and those it forgets. -/
theorem moves_step (h : step s a = some s') : Moves s s' a := by
  cases a with
  | ctrlC =>
    obtain rfl := Option.some.inj h
    exact moves_of_made_nil rfl rfl fun b => rfl
  | sender rc => exact moves_stepSender h
  | receiver rc => exact moves_stepReceiver h

theorem returned_step (h : step s a = some s') :
    (s'.Returned ↔ Last s a) ∧ (s'.Returned → s'.queue = s.queue) := by
  unfold State.Returned
  cases a with
  | ctrlC =>
    obtain rfl := Option.some.inj h
    exact ⟨Iff.rfl, fun _ => rfl⟩
  | sender rc =>
    rcases stepSender_cases h with ⟨hpc, rfl⟩ | ⟨hpc, -, rfl⟩ | ⟨hpc, -, rfl⟩ | ⟨p, hpc, rfl⟩ |
      ⟨p, hpc, rfl⟩ | ⟨p, hpc, rfl⟩
    · cases hrun : s.running <;> simp [Last, hpc, hrun, SendPc.failed]
    all_goals simp [Last, hpc, SendPc.failed]
  | receiver rc =>
    rcases stepReceiver_cases h with ⟨hpc, rfl⟩ | ⟨p, queue, hpc, -, rfl⟩ | ⟨hpc, rfl⟩ |
      ⟨p, hpc, rfl⟩ | ⟨p, hpc, rfl⟩ | ⟨hpc, rfl⟩
    · cases hrun : s.running <;> simp [Last, hpc, hrun, and_comm]
    · simp [Last, hpc]
    · simp [Last, hpc]
    · cases herrno : s.timedOut <;> simp [Last, hpc]
    · simp [Last, hpc]
    · simp [Last, hpc]

/-! ### What holds in any case -/

/-- No buffer is in two places, those not made yet are in none, and `errno` is `ETIMEDOUT` only when
the receiver has stopped. -/
structure Sound (s : State) : Prop where
  le : ∀ b, s.owners b ≤ 1
  fresh : ∀ b, s.allocated ≤ b → s.owners b = 0
  errno : s.timedOut = true → s.receiver = .stop ∨ s.receiver = .exited

theorem sound_init : Sound init :=
  ⟨fun _ => Nat.zero_le 1, fun _ _ => rfl, fun h => absurd h Bool.false_ne_true⟩

theorem count_made (s : State) (a : Turn) (b : ℕ) :
    (made s a).count b = if b = s.allocated then (made s a).length else 0 := by
  unfold made
  split
  · split_ifs with hpc hb hb
    · rw [hb, List.count_singleton_self]
      rfl
    · rw [List.count_singleton, if_neg (by simpa using Ne.symm hb)]
    · rfl
    · rfl
  · split_ifs <;> rfl

theorem length_made (s : State) (a : Turn) : (made s a).length ≤ 1 := by
  unfold made
  split
  · split_ifs
    · exact Nat.le_refl 1
    · exact Nat.zero_le 1
  · exact Nat.zero_le 1

theorem errno_step (hs : Sound s) (h : step s a = some s') (herrno : s'.timedOut = true) :
    s'.receiver = .stop ∨ s'.receiver = .exited := by
  cases a with
  | ctrlC =>
    obtain rfl := Option.some.inj h
    exact hs.errno herrno
  | sender rc =>
    rcases stepSender_cases h with ⟨-, rfl⟩ | ⟨-, -, rfl⟩ | ⟨-, -, rfl⟩ | ⟨p, -, rfl⟩ |
      ⟨p, -, rfl⟩ | ⟨p, -, rfl⟩
    all_goals exact hs.errno herrno
  | receiver rc =>
    rcases stepReceiver_cases h with ⟨hpc, rfl⟩ | ⟨p, queue, hpc, -, rfl⟩ | ⟨hpc, rfl⟩ |
      ⟨p, hpc, rfl⟩ | ⟨p, hpc, rfl⟩ | ⟨hpc, rfl⟩
    · simpa [hpc] using hs.errno herrno
    · simpa [hpc] using hs.errno herrno
    · exact .inl rfl
    · simpa [hpc] using hs.errno herrno
    · simpa [hpc] using hs.errno herrno
    · exact .inr rfl

theorem sound_step (hs : Sound s) (h : step s a = some s') : Sound s' := by
  obtain ⟨howners, hallocated⟩ := moves_step h
  have hlength := length_made s a
  refine ⟨fun b => ?_, fun b hb => ?_, errno_step hs h⟩
  · have hmoved := howners b
    rw [count_made] at hmoved
    have hle := hs.le b
    split_ifs at hmoved with heq
    · have := hs.fresh b (Nat.le_of_eq heq.symm)
      omega
    · omega
  · have hmoved := howners b
    have hfresh := hs.fresh b (by omega)
    rw [count_made] at hmoved
    split_ifs at hmoved with heq
    · omega
    · omega

/-- **No buffer is ever in two hands**, and none is freed twice. -/
theorem sound_reach (h : Reach step Any init s) : Sound s :=
  h.invariant sound_init fun hs _ hstep => sound_step hs hstep

/-! ### When every buffer has an owner -/

/-- Nothing but the queue keeps a buffer from being freed when both threads have returned. -/
theorem owned_iff_queue (hs : Sound s) : Owned s ↔
    (∀ b < s.allocated, s.owners b = 1) ∧ (s.Returned → s.queue = []) := by
  have hreturned : s.Returned → ∀ b, s.owners b = s.queue.count b + s.freed.count b :=
    fun ⟨h1, h2⟩ b => by simp [State.owners, h1, h2, SendPc.held, ReceivePc.held]
  constructor
  · intro h
    refine ⟨h.one, fun hret => List.eq_nil_iff_forall_not_mem.mpr fun b hb => ?_⟩
    have hpos : 0 < s.queue.count b := List.count_pos_iff.mpr hb
    have howners := hreturned hret b
    rcases Nat.lt_or_ge b s.allocated with hlt | hge
    · have h1 := h.one b hlt
      have h2 := h.freed hret b hlt
      omega
    · have h0 := hs.fresh b hge
      omega
  · rintro ⟨hone, hqueue⟩
    refine ⟨hone, fun hret b hb => ?_⟩
    have howners := hreturned hret b
    rw [hqueue hret, List.count_nil, hone b hb] at howners
    omega

theorem mem_dropped (h : b ∈ dropped s a) : 0 < s.owners b := by
  unfold dropped at h
  split at h
  · split at h
    · next p hpc =>
      obtain rfl := List.mem_singleton.mp h
      simp only [State.owners, hpc, SendPc.held, List.count_singleton_self]
      omega
    · exact absurd h List.not_mem_nil
  · split at h
    · next p hpc =>
      split_ifs at h
      · obtain rfl := List.mem_singleton.mp h
        simp only [State.owners, hpc, ReceivePc.held, List.count_singleton_self]
        omega
      · exact absurd h List.not_mem_nil
    · exact absurd h List.not_mem_nil
  · exact absurd h List.not_mem_nil

theorem dropped_eq_nil_iff (hs : Sound s) (a : Turn) : dropped s a = [] ↔ givesUp s a = false := by
  cases a with
  | ctrlC => exact iff_of_true rfl rfl
  | sender rc => cases hpc : s.sender <;> simp [dropped, givesUp, hpc, SendPc.failed]
  | receiver rc =>
    refine iff_of_true ?_ rfl
    cases hpc : s.receiver <;> simp only [dropped, hpc]
    next p =>
      refine if_neg fun herrno => ?_
      simpa [hpc] using hs.errno herrno

/-- **When a turn keeps the owners.** -/
theorem owned_step (hs : Sound s) (ho : Owned s) (h : step s a = some s') :
    Owned s' ↔ Clean s a := by
  obtain ⟨howners, hallocated⟩ := moves_step h
  obtain ⟨hret, hqueue⟩ := returned_step h
  rw [owned_iff_queue (sound_step hs h), Clean, ← dropped_eq_nil_iff hs]
  constructor
  · rintro ⟨hone, hempty⟩
    refine ⟨List.eq_nil_iff_forall_not_mem.mpr fun b hb => ?_, fun hlast => ?_⟩
    · -- a buffer that is forgotten has had its only owner
      have hpos := mem_dropped hb
      have hlt : b < s.allocated := by
        by_contra hge
        have := hs.fresh b (by omega)
        omega
      have hmoved := howners b
      have hcount : 0 < (dropped s a).count b := List.count_pos_iff.mpr hb
      rw [count_made, if_neg (by omega), ho.one b hlt, hone b (by omega)] at hmoved
      omega
    · rw [← hqueue (hret.mpr hlast)]
      exact hempty (hret.mpr hlast)
  · rintro ⟨hdropped, hlast⟩
    refine ⟨fun b hb => ?_, fun hr => ?_⟩
    · have hmoved := howners b
      have hlength := length_made s a
      rw [hdropped, List.count_nil, count_made] at hmoved
      rcases Nat.lt_or_ge b s.allocated with hlt | hge
      · rw [if_neg (by omega), ho.one b hlt] at hmoved
        omega
      · rw [if_pos (by omega), hs.fresh b hge] at hmoved
        omega
    · rw [hqueue hr]
      exact hlast (hret.mp hr)

theorem owned_init : Owned init :=
  ⟨fun b hb => absurd hb (Nat.not_lt_zero b), fun _ b hb => absurd hb (Nat.not_lt_zero b)⟩

/-- **When every buffer of a run has its owner**: if the sender never returns from a failed send and
no message is left by the thread that returns last. -/
theorem owned_iff {as : List Turn} (h : exec step Any init as = some s) :
    (∀ bs t, bs <+: as → exec step Any init bs = some t → Owned t) ↔
      exec step Clean init as = some s := by
  have hstep : ∀ {s a s'}, Sound s ∧ Owned s → step s a = some s' →
      (Sound s' ∧ Owned s' ↔ Clean s a) := fun {s a s'} ho hs =>
    (and_iff_right (sound_step ho.1 hs)).trans (owned_step ho.1 ho.2 hs)
  rw [← forall_prefix_iff hstep ⟨sound_init, owned_init⟩ h]
  refine forall₂_congr fun bs t => forall₂_congr fun _ ht => ?_
  exact (and_iff_right (sound_reach (Reach.of_exec ht))).symm

/-- The sender takes three steps, and the last call in them returns `rc`. -/
def sendTurns (rc : Rc) : List Turn := [.sender .ok, .sender .ok, .sender rc]

/-- `ctrl_c`, and both threads go on to the end of a round. -/
def stopTurns : List Turn := [.ctrlC, .sender .ok, .receiver .ok]

/-- One buffer goes from the sender to the receiver, who frees it, and then both stop. -/
theorem owned_iff_one :
    (∀ bs t, bs <+: sendTurns .ok ++ List.replicate 4 (.receiver .ok) ++ stopTurns →
        exec step Any init bs = some t → Owned t) ↔
      exec step Clean init (sendTurns .ok ++ List.replicate 4 (.receiver .ok) ++ stopTurns) =
        some ⟨false, 1, .exited, [], .exited, false, [0]⟩ :=
  owned_iff (by decide)

/-- A buffer whose send fails has no owner when the sender has returned. A buffer still queued when
both threads have been stopped is not freed. -/
theorem not_owned :
    (∃ s, exec step Any init (sendTurns .error ++ [.sender .ok]) = some s ∧
      s.allocated = 1 ∧ s.owners 0 = 0 ∧ ¬ Owned s) ∧
    ∃ s, exec step Any init (sendTurns .ok ++ stopTurns) = some s ∧
      s.Returned ∧ s.queue = [0] ∧ s.freed = [] ∧ ¬ Owned s := by
  constructor
  · refine ⟨⟨false, 1, .exited, [], .test, false, []⟩, by decide, rfl, rfl, fun h => ?_⟩
    exact absurd (h.one 0 Nat.one_pos) (by decide)
  · refine ⟨⟨false, 1, .exited, [0], .exited, false, []⟩, by decide, ⟨rfl, rfl⟩, rfl, rfl,
      fun h => ?_⟩
    exact absurd (h.freed ⟨rfl, rfl⟩ 0 Nat.one_pos) (by decide)

end Ecen5623.Pipeline.HeapQueue
