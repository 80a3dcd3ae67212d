import Ecen5623.Capture.System

/-! # From the selected frame to the buffer written out

The messages of `writeout_Q` say which of the `wo_buffers` to write out, and nobody copies a frame
into these. What is sent is what was selected, in order and unchanged, in the runs in which the
buffer happens to hold the pixels of the frame that reports a tick (`faithful_of_matching`). -/

namespace Ecen5623.Capture.Selection

open Ecen5623.Library Ecen5623.Capture.System
open Ecen5623.Capture.Motion (Detector Image frameChanges)
open Ecen5623.Capture.WriteoutQueue (Rc)

variable {H β : Type*} [DecidableEq H] {fc : β → β → ℕ} {camera : ℕ → β} {s s' : State H β}
  {a : Turn H} {rc : Rc} {scanBuffer woBuffers w : ℕ → β} {selected enqueued transformed : List β}
  {q q' : WriteoutQueue.State Caller ℕ} {wo : ℕ}

/-- The buffers sent hold the pixels of the frames that reported a tick, and those passed to
`do_transformations` still hold them. -/
structure Faithful (s : State H β) : Prop where
  enqueued : s.log.enqueued <+: s.log.selected
  transformed : s.log.transformed <+: s.log.enqueued

/-- The next comparison reports a tick. -/
def Ticks (fc : β → β → ℕ) (s : State H β) : Prop :=
  (Motion.isMotion (fc (s.scanBuffer s.processing.lastBufferIndex)
    (s.scanBuffer s.processing.currentIndex)) s.motion).1 = true

instance (fc : β → β → ℕ) (s : State H β) : Decidable (Ticks fc s) :=
  inferInstanceAs (Decidable (_ = true))

/-- When a comparison reports a tick, the next of the `wo_buffers` already holds the pixels of the
frame. -/
def Matching (fc : β → β → ℕ) (s : State H β) : Turn H → Prop
  | .processing _ => s.processing.pc = .compare → Ticks fc s →
      s.scanBuffer s.processing.currentIndex = s.woBuffers s.processing.woBufferIndex
  | _ => True

instance [DecidableEq β] (fc : β → β → ℕ) (s : State H β) (a : Turn H) :
    Decidable (Matching fc s a) :=
  match a with
  | .processing _ => inferInstanceAs (Decidable (_ → Ticks fc s → _ = _))
  | .ctrlC | .expire | .deliver _ | .sequencer _ | .frame _ | .writeout _ => .isTrue trivial

/-! ### The invariant -/

/-- What the processing thread has selected and sent, by where it is in its own code and in that of
`enqueue_P`. -/
def Sender (w : ℕ → β) (selected enqueued : List β) (wo : ℕ) : ProcPc → WriteoutQueue.Pc ℕ → Prop
  | .call, _ => selected = enqueued ++ [w wo]
  | .enqueue, .test (some b) => selected = enqueued ++ [w b]
  | .enqueue, .up (some b) _ => selected = enqueued ++ [w b]
  | .enqueue, .copy (some b) => selected = enqueued ++ [w b]
  | .enqueue, .send b => selected = enqueued ++ [w b]
  | .enqueue, .idle ret => if ret.rc = -1 then enqueued <+: selected else selected = enqueued
  | .enqueue, _ => False
  | .exited, _ => enqueued <+: selected
  | _, _ => selected = enqueued

/-- What the writeout thread has received, by where it is in its own code and in that of
`dequeue_P`. -/
def Receiver (w : ℕ → β) (enqueued transformed : List β) (queue : List ℕ) :
    WriteoutPc → WriteoutQueue.Pc ℕ → Prop
  | .dequeue, .copyOut b => enqueued = transformed ++ w b :: queue.map w
  | .dequeue, .idle (.received b) => enqueued = transformed ++ w b :: queue.map w
  | .dequeue, .idle _ => enqueued = transformed ++ queue.map w
  | .dequeue, .down _ => enqueued = transformed ++ queue.map w
  | .dequeue, .receive => enqueued = transformed ++ queue.map w
  | .dequeue, _ => False
  | _, _ => enqueued = transformed ++ queue.map w

structure Inv (s : State H β) : Prop where
  sender : Sender s.woBuffers s.log.selected s.log.enqueued s.processing.woBufferIndex
    s.processing.pc (s.writeoutQ.pc .processing)
  receiver : Receiver s.woBuffers s.log.enqueued s.log.transformed s.writeoutQ.queue s.writeout
    (s.writeoutQ.pc .writeout)

/-! ### The calls -/

theorem Sender.ordered {pc : ProcPc} {qpc : WriteoutQueue.Pc ℕ}
    (h : Sender w selected enqueued wo pc qpc) : enqueued <+: selected := by
  unfold Sender at h
  split at h
  case h_6 =>
    split_ifs at h
    · exact h
    · exact h ▸ List.prefix_rfl
  case h_7 => exact h.elim
  case h_8 => exact h
  case h_9 => exact h ▸ List.prefix_rfl
  all_goals exact h ▸ List.prefix_append _ _

theorem Receiver.ordered {queue : List ℕ} {pc : WriteoutPc} {qpc : WriteoutQueue.Pc ℕ}
    (h : Receiver w enqueued transformed queue pc qpc) : transformed <+: enqueued := by
  unfold Receiver at h
  split at h
  case h_6 => exact h.elim
  all_goals exact h ▸ List.prefix_append _ _

theorem Receiver.append {queue bs : List ℕ} {pc : WriteoutPc} {qpc : WriteoutQueue.Pc ℕ}
    (h : Receiver w enqueued transformed queue pc qpc) :
    Receiver w (enqueued ++ bs.map w) transformed (queue ++ bs) pc qpc := by
  unfold Receiver at h ⊢
  split at h
  case h_6 => exact h.elim
  all_goals
    subst h
    simp

theorem Sender.lost {ret : WriteoutQueue.Return ℕ} (h : enqueued <+: selected)
    (hret : ret.rc = -1) : Sender w selected enqueued wo .enqueue (.idle ret) := by
  rw [Sender, if_pos hret]
  exact h

theorem Sender.goto {c : ℤ} {pc qpc : WriteoutQueue.Pc ℕ}
    (h : Sender w selected enqueued wo .enqueue pc) (hsent : sent w qpc rc = []) :
    Sender w selected (enqueued ++ sent w qpc rc) wo .enqueue
        (({ q with enqueuePCount := c }.goto .processing pc).pc .processing) ∧
      ∃ bs, bs.map w = sent w qpc rc ∧
        ({ q with enqueuePCount := c }.goto .processing pc).queue = q.queue ++ bs := by
  rw [hsent, List.append_nil, WriteoutQueue.State.goto_pc_self]
  exact ⟨h, [], rfl, (List.append_nil _).symm⟩

theorem Sender.go (h : Sender w selected enqueued wo .enqueue (q.pc .processing))
    (hbusy : ∀ ret, q.pc .processing ≠ .idle ret)
    (hq : WriteoutQueue.step q (.processing, .go rc) = some q') :
    Sender w selected (enqueued ++ sent w (q.pc .processing) rc) wo .enqueue (q'.pc .processing) ∧
      ∃ bs, bs.map w = sent w (q.pc .processing) rc ∧ q'.queue = q.queue ++ bs := by
  have hprefix := h.ordered
  simp only [WriteoutQueue.step] at hq
  cases hpc : q.pc .processing with
  | idle ret => exact absurd hpc (hbusy ret)
  | test p =>
    cases p with
    | none => simp [hpc, Sender] at h
    | some b =>
      simp only [hpc, Sender] at h
      simp only [hpc, WriteoutQueue.goOn] at hq
      split_ifs at hq
      · cases hq
        exact (Sender.lost hprefix rfl).goto rfl
      · cases hq
        exact Sender.goto h rfl
  | up p reg =>
    cases p with
    | none => simp [hpc, Sender] at h
    | some b =>
      simp only [hpc, Sender] at h
      cases reg with
      | none =>
        simp only [hpc, WriteoutQueue.goOn] at hq
        cases hq
        exact Sender.goto h rfl
      | some v =>
        simp only [hpc, WriteoutQueue.goOn] at hq
        cases hq
        exact Sender.goto h rfl
  | copy p =>
    cases p with
    | none => simp [hpc, Sender] at h
    | some b =>
      simp only [hpc, Sender] at h
      simp only [hpc, WriteoutQueue.goOn] at hq
      cases hq
      exact Sender.goto h rfl
  | send b =>
    simp only [hpc, Sender] at h
    simp only [hpc, WriteoutQueue.goOn] at hq
    cases rc with
    | ok =>
      simp only [Option.ite_none_right_eq_some] at hq
      obtain ⟨-, hq⟩ := hq
      cases hq
      refine ⟨?_, [b], rfl, rfl⟩
      rw [WriteoutQueue.State.goto_pc_self]
      simpa [Sender, sent, WriteoutQueue.Return.rc] using h
    | _ =>
      cases hq
      exact (Sender.lost hprefix rfl).goto rfl
  | _ => simp [hpc, Sender] at h

theorem Receiver.go (h : Receiver w enqueued transformed q.queue .dequeue (q.pc .writeout))
    (hbusy : ∀ ret, q.pc .writeout ≠ .idle ret)
    (hq : WriteoutQueue.step q (.writeout, .go rc) = some q') :
    Receiver w enqueued transformed q'.queue .dequeue (q'.pc .writeout) := by
  simp only [WriteoutQueue.step] at hq
  cases hpc : q.pc .writeout with
  | idle ret => exact absurd hpc (hbusy ret)
  | down reg =>
    simp only [hpc, Receiver] at h
    cases reg with
    | none =>
      simp only [hpc, WriteoutQueue.goOn] at hq
      cases hq
      rw [WriteoutQueue.State.goto_pc_self]
      exact h
    | some v =>
      simp only [hpc, WriteoutQueue.goOn] at hq
      cases hq
      rw [WriteoutQueue.State.goto_pc_self]
      exact h
  | receive =>
    simp only [hpc, Receiver] at h
    simp only [hpc, WriteoutQueue.goOn] at hq
    cases rc with
    | ok =>
      cases hqueue : q.queue with
      | nil => simp [hqueue] at hq
      | cons b bs =>
        simp only [hqueue, Option.some.injEq] at hq
        subst hq
        rw [WriteoutQueue.State.goto_pc_self]
        simpa [hqueue, Receiver, WriteoutQueue.State.goto] using h
    | eagain =>
      cases hq
      rw [hpc]
      exact h
    | error =>
      cases hq
      rw [WriteoutQueue.State.goto_pc_self]
      exact h
  | copyOut b =>
    simp only [hpc, Receiver] at h
    simp only [hpc, WriteoutQueue.goOn] at hq
    cases hq
    rw [WriteoutQueue.State.goto_pc_self]
    exact h
  | _ => simp [hpc, Receiver] at h

/-! ### The steps -/

omit [DecidableEq H] in
theorem inv_init : Inv (System.init scanBuffer woBuffers : State H β) := ⟨rfl, rfl⟩

omit [DecidableEq H] in
theorem Inv.congr (hs : Inv s) (hwo : s'.woBuffers = s.woBuffers)
    (hprocessing : s'.processing = s.processing) (hwriteout : s'.writeout = s.writeout)
    (hq : s'.writeoutQ = s.writeoutQ) (hlog : s'.log = s.log) : Inv s' := by
  obtain ⟨hsender, hreceiver⟩ := hs
  exact ⟨by rwa [hwo, hprocessing, hq, hlog], by rwa [hwo, hwriteout, hq, hlog]⟩

omit [DecidableEq H] in
theorem inv_afterMotion (hs : Inv s) (hpc : s.processing.pc = .compare) (tick : Bool)
    (motion : Detector)
    (hmatch : tick = true →
      s.scanBuffer s.processing.currentIndex = s.woBuffers s.processing.woBufferIndex) :
    Inv (afterMotion s tick motion) := by
  have hsender : s.log.selected = s.log.enqueued := by simpa [hpc, Sender] using hs.sender
  cases tick with
  | true =>
    refine ⟨?_, hs.receiver⟩
    simp [afterMotion, Sender, hsender, hmatch rfl]
  | false => exact ⟨hsender, hs.receiver⟩

omit [DecidableEq H] in
theorem inv_stepProcessing (hs : Inv s) (hok : Matching fc s (.processing rc))
    (h : stepProcessing fc s rc = some s') : Inv s' := by
  have hsender := hs.sender
  have hreceiver := hs.receiver
  have hne : Caller.writeout ≠ Caller.processing := by decide
  cases hpc : s.processing.pc <;> simp only [hpc] at hsender <;>
    simp only [stepProcessing, hpc] at h
  case test =>
    cases h
    split_ifs
    · exact ⟨hsender, hreceiver⟩
    · exact ⟨hsender ▸ List.prefix_rfl, hreceiver⟩
  case wait =>
    rcases semWait_eq_some h with ⟨-, rfl⟩ | ⟨-, rfl⟩
    · exact ⟨hsender ▸ List.prefix_rfl, hreceiver⟩
    · exact ⟨hsender, hreceiver⟩
  case start =>
    cases h
    refine ⟨?_, hreceiver⟩
    cases s.processing.didFrameTick <;> exact hsender
  case compare =>
    cases h
    exact inv_afterMotion hs hpc _ _ (hok hpc)
  case call =>
    obtain ⟨q, hq, rfl⟩ := Option.map_eq_some_iff.1 h
    obtain rfl := WriteoutQueue.eq_goto_of_call hq
    refine ⟨?_, ?_⟩
    · simp only [WriteoutQueue.State.goto_pc_self]
      exact hsender
    · simp only [WriteoutQueue.State.goto_pc_ne hne]
      exact hreceiver
  case enqueue =>
    split at h
    · next ret hret =>
      rw [hret] at hsender
      simp only [Sender] at hsender
      split_ifs at h hsender with hrc
      · cases h
        exact ⟨hsender, hreceiver⟩
      · cases h
        refine ⟨?_, hreceiver⟩
        cases s.processing.didFrameTick <;> exact hsender
    · next hbusy =>
      obtain ⟨q, hq, rfl⟩ := Option.map_eq_some_iff.1 h
      obtain ⟨hsend, bs, hbs, hqueue⟩ := hsender.go hbusy hq
      refine ⟨?_, ?_⟩
      · simp only [hpc]
        exact hsend
      · simp only [hqueue, ← hbs, WriteoutQueue.step_pc_ne hne hq]
        exact hreceiver.append
  case exited => cases h

omit [DecidableEq H] in
theorem inv_stepWriteout (hs : Inv s) (h : stepWriteout s rc = some s') : Inv s' := by
  have hsender : Sender s'.woBuffers s'.log.selected s'.log.enqueued s'.processing.woBufferIndex
      s'.processing.pc (s'.writeoutQ.pc .processing) := by
    have hkept := keptByWriteout h
    rw [hkept.woBuffers, hkept.processing, hkept.pc, hkept.log]
    exact hs.sender
  refine ⟨hsender, ?_⟩
  have hreceiver := hs.receiver
  cases hpc : s.writeout <;> simp only [hpc] at hreceiver <;> simp only [stepWriteout, hpc] at h
  case wait =>
    rcases semWait_eq_some h with ⟨-, rfl⟩ | ⟨-, rfl⟩ <;> exact hreceiver
  case test =>
    split_ifs at h
    · obtain ⟨q, hq, rfl⟩ := Option.map_eq_some_iff.1 h
      obtain rfl := WriteoutQueue.eq_goto_of_call hq
      simp only [WriteoutQueue.State.goto_pc_self]
      exact hreceiver
    · cases h
      exact hreceiver
  case dequeue =>
    split at h
    · next b hb =>
      cases h
      rw [hb] at hreceiver
      simpa [Receiver, State.writeoutTo] using hreceiver
    · next ret hne hret =>
      cases h
      rw [hret] at hreceiver
      cases ret with
      | received b => exact (hne b rfl).elim
      | _ => exact hreceiver
    · next hidle hbusy =>
      obtain ⟨q, hq, rfl⟩ := Option.map_eq_some_iff.1 h
      have hgo := hreceiver.go (fun ret => hbusy ret) hq
      simpa [hpc] using hgo
  case exited => cases h

theorem inv_step (hs : Inv s) (hok : Matching fc s a) (h : step fc camera s a = some s') :
    Inv s' := by
  cases a with
  | ctrlC =>
    cases h
    exact hs.congr rfl rfl rfl rfl rfl
  | expire =>
    obtain ⟨-, rfl⟩ := expire_eq_some h
    exact hs.congr rfl rfl rfl rfl rfl
  | deliver i =>
    obtain ⟨-, rfl⟩ := deliver_eq_some h
    exact hs.congr rfl rfl rfl rfl rfl
  | sequencer i =>
    have hkept := keptBySequencer h
    exact hs.congr hkept.woBuffers hkept.processing hkept.writeout hkept.writeoutQ hkept.log
  | frame rc =>
    have hkept := keptByFrame h
    exact hs.congr hkept.woBuffers hkept.processing hkept.writeout hkept.writeoutQ hkept.log
  | processing rc => exact inv_stepProcessing hs hok h
  | writeout rc => exact inv_stepWriteout hs h

/-! ### The runs -/

/-- **What is written out is what was selected, in the runs in which every frame that reports a tick
meets a buffer with its pixels.** -/
theorem faithful_of_matching {camera scanBuffer woBuffers : ℕ → Image} {s : State H Image}
    (h : Reach (step frameChanges camera) (Matching frameChanges)
      (System.init scanBuffer woBuffers) s) : Faithful s where
  enqueued := (h.invariant inv_init inv_step).sender.ordered
  transformed := (h.invariant inv_init inv_step).receiver.ordered

omit [DecidableEq H] in
theorem matching_shade {s : State H Bool} (h : Matching shadeChanges s a) :
    Matching frameChanges (s.map shade) a := by
  cases a with
  | processing rc =>
    intro hpc htick
    refine congrArg shade (h hpc ?_)
    have hfc := frameChanges_shade (s.scanBuffer s.processing.lastBufferIndex)
      (s.scanBuffer s.processing.currentIndex)
    rw [Ticks, ← hfc]
    exact htick
  | _ => trivial

/-- A dark frame reports the tick, and the buffers are dark. -/
theorem faithful_of_matching_dark : ∃ s : State Unit Image,
    s.log.transformed = [shade false] ∧ Faithful s := by
  have hrun : (exec (step shadeChanges fun _ => true) (Matching shadeChanges)
      (System.init (fun _ => false) fun _ => false)
      (signalTurns ++ frameTurns 8 ++ processingTurns 46 ++ List.replicate 7 (.writeout .ok))).map
      (fun s => s.log.transformed) = some [false] := by decide +kernel
  obtain ⟨s, hs, hend⟩ := Reach.exists_of_exec hrun
  exact ⟨s.map shade, congrArg (List.map shade) hend,
    faithful_of_matching (reach_shade matching_shade hs)⟩

/-- Seven bright frames have been captured, and the last of them reports a tick; the buffer that is
sent is dark. -/
theorem not_faithful : ¬ ∀ s : State Unit Image,
    Reach (step frameChanges (shade ∘ fun _ => true)) Any
      (System.init (shade ∘ fun _ => false) (shade ∘ fun _ => false)) s → Faithful s := by
  have hrun : (exec (step shadeChanges fun _ => true) Any
      (System.init (fun _ => false) fun _ => false)
      ((List.replicate 25 signalTurns).flatten ++ frameTurns 56 ++ processingTurns 38)).map
      (fun s => (s.log.selected, s.log.enqueued)) = some ([true], [false]) := by decide +kernel
  obtain ⟨s, hs, hend⟩ := Reach.exists_of_exec hrun
  obtain ⟨hselected, henqueued⟩ := Prod.mk.inj hend
  intro h
  have hprefix := (h _ (reach_shade (fun _ => trivial) hs)).enqueued
  simp only [State.map, hselected, henqueued, List.map_cons, List.map_nil] at hprefix
  have hshade : shade false = shade true := by simpa using hprefix
  exact absurd (congrFun hshade 0) (by decide)

end Ecen5623.Capture.Selection
