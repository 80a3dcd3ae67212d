import Ecen5623.Library.Transition
import Mathlib.Data.Int.Notation
import Mathlib.Data.Nat.Notation

/-! # The count of the buffers that the driver has

`enqueue_buf` and `dequeue_buf` of `buffer.c`. Both change `enqueue_count` whatever `ioctl` returns,
so the count is that of the queued buffers as long as no `ioctl` fails, and no longer
(`follows_iff`). -/

namespace Ecen5623.Capture.DriverQueue

open Ecen5623.Library

/-- `enqueue_count` and the queue of the driver. -/
structure State where
  enqueueCount : ℤ
  queue : List ℕ
  deriving DecidableEq, Repr

/-- A call, and whether `ioctl` succeeds in it. -/
inductive Call where
  | enqueue (index : ℕ) (succeeds : Bool)
  | dequeue (succeeds : Bool)
  deriving DecidableEq, Repr

/-- `enqueue_buf`: the return value and the state after it. -/
def enqueueBuf (index : ℕ) (succeeds : Bool) (s : State) : ℤ × State :=
  if succeeds then (0, { enqueueCount := s.enqueueCount + 1, queue := s.queue ++ [index] })
  else (-1, { s with enqueueCount := s.enqueueCount + 1 })

/-- `dequeue_buf`, `none` if `VIDIOC_DQBUF` waits for a buffer although none is queued. -/
def dequeueBuf (succeeds : Bool) (s : State) : Option (ℤ × State) :=
  if s.enqueueCount = 0 then some (-1, s)
  else if succeeds then
    match s.queue with
    | [] => none
    | _ :: queue => some (0, { enqueueCount := s.enqueueCount - 1, queue := queue })
  else some (-1, { s with enqueueCount := s.enqueueCount - 1 })

def step (s : State) : Call → Option State
  | .enqueue index succeeds => some (enqueueBuf index succeeds s).2
  | .dequeue succeeds => (dequeueBuf succeeds s).map Prod.snd

def init : State := { enqueueCount := 0, queue := [] }

/-- `dequeue_buf` returns without a call of `ioctl`. -/
def Refuses (s : State) : Prop := ∀ succeeds, dequeueBuf succeeds s = some (-1, s)

/-- The count follows the queue. -/
structure Follows (s : State) : Prop where
  count : s.enqueueCount = s.queue.length
  refuses : Refuses s ↔ s.queue = []
  nonneg : 0 ≤ s.enqueueCount

/-- The `ioctl` of the call, if it comes to one, succeeds. -/
def Succeeds (s : State) : Call → Prop
  | .enqueue _ succeeds => succeeds = true
  | .dequeue succeeds => s.enqueueCount = 0 ∨ succeeds = true

instance (s : State) : (c : Call) → Decidable (Succeeds s c)
  | .enqueue _ succeeds => inferInstanceAs (Decidable (succeeds = true))
  | .dequeue succeeds => inferInstanceAs (Decidable (s.enqueueCount = 0 ∨ succeeds = true))

variable {s s' : State} {c : Call}

theorem refuses_iff : Refuses s ↔ s.enqueueCount = 0 := by
  unfold Refuses dequeueBuf
  constructor
  · intro h
    by_contra hne
    have := h false
    rw [if_neg hne, if_neg Bool.false_ne_true, Option.some.injEq, Prod.mk.injEq] at this
    have hcount := congrArg State.enqueueCount this.2
    dsimp only at hcount
    omega
  · intro h succeeds
    rw [if_pos h]

theorem follows_iff_count : Follows s ↔ s.enqueueCount = s.queue.length := by
  constructor
  · exact Follows.count
  · intro h
    refine ⟨h, ?_, by omega⟩
    rw [refuses_iff, h, Int.natCast_eq_zero, List.length_eq_zero_iff]

/-- **One call.** -/
theorem follows_step (hs : Follows s) (hstep : step s c = some s') :
    Follows s' ↔ Succeeds s c := by
  have hcount := hs.count
  rw [follows_iff_count]
  cases c with
  | enqueue index succeeds =>
    cases hstep
    unfold enqueueBuf Succeeds
    split_ifs with h
    · refine iff_of_true ?_ h
      rw [List.length_append, hcount]
      rfl
    · refine iff_of_false (fun h' => ?_) h
      dsimp only at h'
      omega
  | dequeue succeeds =>
    obtain ⟨⟨ret, t⟩, hdeq, rfl⟩ := Option.map_eq_some_iff.mp hstep
    unfold dequeueBuf at hdeq
    unfold Succeeds
    split_ifs at hdeq with h0 h
    · cases hdeq
      exact iff_of_true hcount (.inl h0)
    · split at hdeq
      · cases hdeq
      · next queue hqueue =>
        cases hdeq
        rw [hqueue, List.length_cons] at hcount
        exact iff_of_true (by dsimp only; omega) (.inr h)
    · cases hdeq
      exact iff_of_false (fun h' => by dsimp only at h'; omega) fun h' => h'.elim h0 h

/-- **The count follows the queue throughout a run if and only if no `ioctl` fails in it.** -/
theorem follows_iff {cs : List Call} (h : exec step Any init cs = some s) :
    (∀ ds t, ds <+: cs → exec step Any init ds = some t → Follows t) ↔
      exec step Succeeds init cs = some s :=
  forall_prefix_iff follows_step (follows_iff_count.mpr rfl) h

/-- Two buffers are queued and one of them is dequeued. -/
theorem follows_iff_two :
    (∀ ds t, ds <+: [.enqueue 0 true, .enqueue 1 true, .dequeue true] →
      exec step Any init ds = some t → Follows t) ↔
        exec step Succeeds init [.enqueue 0 true, .enqueue 1 true, .dequeue true] =
          some { enqueueCount := 1, queue := [1] } :=
  follows_iff (by decide)

/-- After a failed `VIDIOC_QBUF` nothing keeps `dequeue_buf` from waiting for ever, and after a
failed `VIDIOC_DQBUF` it refuses although a buffer is queued. -/
theorem not_follows :
    (exec step Any init [.enqueue 0 false] = some { enqueueCount := 1, queue := [] } ∧
      dequeueBuf true { enqueueCount := 1, queue := [] } = none ∧
      ¬ Follows { enqueueCount := 1, queue := [] }) ∧
    exec step Any init [.enqueue 0 true, .dequeue false] =
        some { enqueueCount := 0, queue := [0] } ∧
      Refuses { enqueueCount := 0, queue := [0] } ∧
      ¬ Follows { enqueueCount := 0, queue := [0] } := by
  refine ⟨⟨by decide, rfl, fun h => ?_⟩, by decide, refuses_iff.mpr rfl, fun h => ?_⟩
  · exact absurd h.count (by decide)
  · exact absurd h.count (by decide)

end Ecen5623.Capture.DriverQueue
