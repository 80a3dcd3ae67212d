import Ecen5623.Capture.Motion
import Ecen5623.Library.Ring
import Ecen5623.Library.Transition

/-! # The ring of scanned frames

The frame thread of `capture.c` copies every captured frame into `scan_buffer` and advances
`scan_buffer_index`; the processing thread of `processing.c` starts at that index and walks the ring
until it finds a tick. The frames are numbered in the order of their capture, and a slot that no
frame was copied to holds `none`. The copy, the increment of the index, its wrap-around, the read of
the index and each round of the inner loop are one step each. What `frame_changes` counts is an
input of the step. -/

namespace Ecen5623.Capture.ScanRing

open Ecen5623.Library Ecen5623.Capture.Motion

/-- `SCAN_BUF_SIZE`. -/
abbrev scanBufSize : ℕ := 30

/-- Where the frame thread is. -/
inductive FramePc where
  | copy
  | advance
  | wrap
  deriving DecidableEq, Repr

/-- Where the processing thread is: at its `sem_wait` or in the inner loop. -/
inductive ProcPc where
  | wait
  | scan
  deriving DecidableEq, Repr

/-- The ring and the two threads. `captured` is the number of frames copied so far, and `compared`
the contents of the two buffers of each call of `frame_changes`. -/
structure State where
  scanBuffer : ℕ → Option ℕ
  scanBufferIndex : ℕ
  captured : ℕ
  framePc : FramePc
  procPc : ProcPc
  lastBufferIndex : ℕ
  currentIndex : ℕ
  didFrameTick : Bool
  motion : Detector
  compared : List (Option ℕ × Option ℕ)

/-- Both threads are before their first round. `last_buffer_index` is `-1` in the source, and is
set before it is used. -/
def init : State where
  scanBuffer _ := none
  scanBufferIndex := 0
  captured := 0
  framePc := .copy
  procPc := .wait
  lastBufferIndex := 0
  currentIndex := 0
  didFrameTick := false
  motion := Motion.init
  compared := []

/-- `if (i == SCAN_BUF_SIZE) i = 0`. -/
def wrap (i : ℕ) : ℕ := if i = scanBufSize then 0 else i

/-- One step of the frame thread. -/
def frameStep (s : State) : State :=
  match s.framePc with
  | .copy =>
    { s with
      scanBuffer := Function.update s.scanBuffer s.scanBufferIndex (some s.captured)
      captured := s.captured + 1
      framePc := .advance }
  | .advance => { s with scanBufferIndex := s.scanBufferIndex + 1, framePc := .wrap }
  | .wrap => { s with scanBufferIndex := wrap s.scanBufferIndex, framePc := .copy }

/-- The processing thread has been released: it reads the index and enters the inner loop, unless a
tick was found before. -/
def wakeStep (s : State) : State :=
  { s with
    lastBufferIndex := s.scanBufferIndex
    currentIndex := wrap (s.scanBufferIndex + 1)
    procPc := if s.didFrameTick then .wait else .scan }

/-- One round of the inner loop. -/
def compareStep (s : State) (changedPixels : ℕ) : State :=
  let (tick, motion) := isMotion changedPixels s.motion
  { s with
    compared := s.compared ++ [(s.scanBuffer s.lastBufferIndex, s.scanBuffer s.currentIndex)]
    didFrameTick := tick
    motion := motion
    lastBufferIndex := s.currentIndex
    currentIndex := wrap (s.currentIndex + 1)
    procPc := if tick then .wait else .scan }

inductive Turn where
  | frame
  | wake
  | compare (changedPixels : ℕ)
  deriving DecidableEq, Repr

def step (s : State) : Turn → Option State
  | .frame => some (frameStep s)
  | .wake => if s.procPc = .wait then some (wakeStep s) else none
  | .compare n => if s.procPc = .scan then some (compareStep s n) else none

/-- The two buffers hold a frame and the next one. -/
def Consecutive (q : Option ℕ × Option ℕ) : Prop := ∃ n, q = (some n, some (n + 1))

/-- Every pair of buffers compared so far was consecutive. -/
def Sound (s : State) : Prop := ∀ q ∈ s.compared, Consecutive q

/-! ### The invariant -/

variable {s s' : State} {a : Turn} {i n : ℕ}

/-- The index against the number of frames copied. -/
def IndexOk (s : State) : Prop :=
  match s.framePc with
  | .copy => s.scanBufferIndex = s.captured % scanBufSize
  | .advance => 0 < s.captured ∧ s.scanBufferIndex = (s.captured - 1) % scanBufSize
  | .wrap => 0 < s.captured ∧ s.scanBufferIndex = (s.captured - 1) % scanBufSize + 1

/-- The ring holds the last frames, and the two indices of the inner loop are neighbours. -/
structure Inv (s : State) : Prop where
  index : IndexOk s
  slots : Holds s.scanBuffer scanBufSize s.captured
  scan : s.procPc = .scan → s.currentIndex = wrap (s.lastBufferIndex + 1)

theorem wrap_succ (hi : i < scanBufSize) : wrap (i + 1) = (i + 1) % scanBufSize := by
  unfold wrap
  rw [succ_mod hi]

theorem inv_init : Inv init where
  index := rfl
  slots := holds_zero fun _ => rfl
  scan h := by cases h

theorem Inv.frame (hs : Inv s) : Inv (frameStep s) := by
  have hindex := hs.index
  unfold IndexOk at hindex
  unfold frameStep
  cases hpc : s.framePc with
  | copy =>
    simp only [hpc] at hindex ⊢
    exact ⟨⟨Nat.succ_pos _, hindex⟩, hs.slots.write (by decide) hindex, hs.scan⟩
  | advance =>
    simp only [hpc] at hindex ⊢
    exact ⟨⟨hindex.1, by rw [hindex.2]⟩, hs.slots, hs.scan⟩
  | wrap =>
    simp only [hpc] at hindex ⊢
    refine ⟨?_, hs.slots, hs.scan⟩
    have hlt : (s.captured - 1) % scanBufSize < scanBufSize := Nat.mod_lt _ (by decide)
    simp only [IndexOk]
    rw [hindex.2, wrap_succ hlt, Nat.mod_add_mod, Nat.sub_add_cancel hindex.1]

theorem inv_step (hs : Inv s) (h : step s a = some s') : Inv s' := by
  cases a with
  | frame =>
    cases h
    exact hs.frame
  | wake =>
    simp only [step, Option.ite_none_right_eq_some, Option.some.injEq] at h
    obtain ⟨-, rfl⟩ := h
    exact ⟨hs.index, hs.slots, fun _ => rfl⟩
  | compare n =>
    simp only [step, Option.ite_none_right_eq_some, Option.some.injEq] at h
    obtain ⟨-, rfl⟩ := h
    exact ⟨hs.index, hs.slots, fun _ => rfl⟩

/-! ### The comparisons -/

/-- The inner loop is at a slot of the ring that the next frame does not go to, and both slots have
been written. -/
def Fresh (s : State) : Turn → Prop
  | .compare _ => s.currentIndex < scanBufSize ∧ s.currentIndex ≠ s.captured % scanBufSize ∧
      (scanBufSize ≤ s.captured ∨ 0 < s.currentIndex ∧ s.currentIndex < s.captured)
  | _ => True

instance (s : State) (a : Turn) : Decidable (Fresh s a) := by
  cases a <;> unfold Fresh <;> infer_instance

/-- **A comparison is of consecutive frames exactly if it is fresh.** -/
theorem Inv.consecutive_iff (hs : Inv s) (hpc : s.procPc = .scan) (n : ℕ) :
    Consecutive (s.scanBuffer s.lastBufferIndex, s.scanBuffer s.currentIndex) ↔
      Fresh s (.compare n) := by
  have hscan := hs.scan hpc
  simp only [Consecutive, Prod.mk.injEq, Fresh]
  by_cases hlast : s.lastBufferIndex < scanBufSize
  · rw [wrap_succ hlast] at hscan
    have hlt : s.currentIndex < scanBufSize := hscan ▸ Nat.mod_lt _ (by decide)
    rw [hs.slots.neighbours_iff hlast hscan]
    exact (and_iff_right hlt).symm
  · constructor
    · rintro ⟨m, hm, -⟩
      exact absurd (hs.slots.lt_size (by decide) hm) hlast
    · rintro ⟨hlt, -⟩
      unfold wrap at hscan
      split_ifs at hscan <;> omega

/-- **In every state a run reaches, the next comparison is of consecutive frames exactly if it is
fresh.** -/
theorem consecutive_iff_fresh (h : Reach step Any init s) (hpc : s.procPc = .scan) (n : ℕ) :
    Consecutive (s.scanBuffer s.lastBufferIndex, s.scanBuffer s.currentIndex) ↔
      Fresh s (.compare n) :=
  (h.invariant inv_init fun hs _ => inv_step hs).consecutive_iff hpc n

theorem sound_step (hs : Inv s) (hsound : Sound s) (hok : Fresh s a) (h : step s a = some s') :
    Sound s' := by
  cases a with
  | frame =>
    cases h
    unfold frameStep
    cases s.framePc <;> exact hsound
  | wake =>
    simp only [step, Option.ite_none_right_eq_some, Option.some.injEq] at h
    obtain ⟨-, rfl⟩ := h
    exact hsound
  | compare n =>
    simp only [step, Option.ite_none_right_eq_some, Option.some.injEq] at h
    obtain ⟨hpc, rfl⟩ := h
    intro q hq
    rcases List.mem_append.1 hq with hq | hq
    · exact hsound q hq
    · rw [List.mem_singleton.1 hq]
      exact (hs.consecutive_iff hpc n).2 hok

/-- **In the runs whose comparisons are fresh every pair compared is consecutive.** -/
theorem sound_of_fresh (h : Reach step Fresh init s) : Sound s := by
  have hinv : Inv s ∧ Sound s := h.invariant (P := fun s => Inv s ∧ Sound s)
    ⟨inv_init, by simp [Sound, init]⟩
    fun hs hok hstep => ⟨inv_step hs.1 hstep, sound_step hs.1 hs.2 hok hstep⟩
  exact hinv.2

/-- The processing thread is released behind the first two frames. -/
theorem sound_of_fresh_two : ∃ s, exec step Fresh init
    ([.wake] ++ List.replicate 6 .frame ++ [.compare 100]) = some s ∧ Sound s :=
  Reach.exists_exec (by decide) fun _ h => sound_of_fresh h

/-- Not every run is sound: here the processing thread is released before the first frame. -/
theorem not_sound : ¬ ∀ s, Reach step Any init s → Sound s := by
  have hrun : ∃ s, exec step Any init [.wake, .compare 0] = some s ∧
      s.compared = [(none, none)] := ⟨_, rfl, rfl⟩
  obtain ⟨s, hs, hcompared⟩ := hrun
  intro h
  obtain ⟨n, hn⟩ := h s (Reach.of_exec hs) (none, none) (by simp [hcompared])
  cases hn

end Ecen5623.Capture.ScanRing
