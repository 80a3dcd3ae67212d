import Ecen5623.Capture.System

/-! # The processing thread and the ticks

`did_frame_tick` outlives the round of the outer loop that set it. As long as no tick has been
reported, every return of `sem_wait(&sem_processing)` leads to comparisons (`detects_of_silent`);
after the first tick none does, so that a run reports one tick at most (`selected_le_one`). -/

namespace Ecen5623.Capture.Detection

open Ecen5623.Library Ecen5623.Capture.System
open Ecen5623.Capture.Motion (Detector Image frameChanges)
open Ecen5623.Capture.WriteoutQueue (Rc)

variable {H β : Type*} [DecidableEq H] {fc : β → β → ℕ} {camera : ℕ → β} {s s' : State H β}
  {a : Turn H} {scanBuffer woBuffers : ℕ → β}

/-- At the next `sem_wait` there has been a comparison since the last one, and each tick has led to
one call of `enqueue_P`. -/
structure Detects (s : State H β) : Prop where
  compared : s.processing.pc = .wait → s.log.comparisons ≠ some 0
  calls : s.log.selected.length = s.log.calls + if s.processing.pc = .call then 1 else 0

/-- `sem_processing` is taken, with `running` set, only while no tick has been reported. -/
def Silent (s : State H β) : Turn H → Prop
  | .processing rc => s.processing.pc = .wait → rc ≠ .error → s.running = true →
      s.processing.didFrameTick = false
  | _ => True

instance (s : State H β) (a : Turn H) : Decidable (Silent s a) := by
  cases a <;> unfold Silent <;> infer_instance

/-! ### The invariant -/

/-- Only a thread that finds `running` cleared next can be past a round without comparisons. -/
structure Inv (s : State H β) : Prop where
  start : s.processing.pc = .start → s.running = true → s.processing.didFrameTick = false
  compared : s.processing.pc ≠ .start → s.processing.pc ≠ .compare →
    s.processing.pc = .wait ∨ s.running = true → s.log.comparisons ≠ some 0
  calls : s.log.selected.length = s.log.calls + if s.processing.pc = .call then 1 else 0

omit [DecidableEq H] in
theorem inv_init : Inv (System.init scanBuffer woBuffers : State H β) :=
  ⟨by rintro ⟨⟩, fun _ _ _ => by rintro ⟨⟩, rfl⟩

/-- What only the processing thread changes. -/
structure OwnKept (s s' : State H β) : Prop where
  processing : s'.processing = s.processing
  comparisons : s'.log.comparisons = s.log.comparisons
  calls : s'.log.calls = s.log.calls
  selected : s'.log.selected = s.log.selected

theorem ownKept_of_step (ha : ∀ rc, a ≠ .processing rc) (h : step fc camera s a = some s') :
    OwnKept s s' := by
  cases a with
  | ctrlC =>
    cases h
    exact ⟨rfl, rfl, rfl, rfl⟩
  | expire =>
    obtain ⟨-, rfl⟩ := expire_eq_some h
    exact ⟨rfl, rfl, rfl, rfl⟩
  | deliver i =>
    obtain ⟨-, rfl⟩ := deliver_eq_some h
    exact ⟨rfl, rfl, rfl, rfl⟩
  | sequencer i =>
    have hkept := keptBySequencer h
    exact ⟨hkept.processing, by rw [hkept.log], by rw [hkept.log], by rw [hkept.log]⟩
  | frame rc =>
    have hkept := keptByFrame h
    exact ⟨hkept.processing, by rw [hkept.log], by rw [hkept.log], by rw [hkept.log]⟩
  | processing rc => exact absurd rfl (ha rc)
  | writeout rc =>
    have hkept := keptByWriteout h
    exact ⟨hkept.processing, by rw [hkept.log], by rw [hkept.log], by rw [hkept.log]⟩

omit [DecidableEq H] in
theorem Inv.kept (hs : Inv s) (hkept : OwnKept s s')
    (hrunning : s'.running = true → s.running = true) : Inv s' := by
  obtain ⟨hstart, hcompared, hcount⟩ := hs
  refine ⟨fun hpc hrun => ?_, fun hpc hpc' hrun => ?_, ?_⟩
  · rw [hkept.processing] at hpc ⊢
    exact hstart hpc (hrunning hrun)
  · rw [hkept.processing] at hpc hpc' hrun
    rw [hkept.comparisons]
    exact hcompared hpc hpc' (hrun.imp id hrunning)
  · rwa [hkept.processing, hkept.calls, hkept.selected]

theorem loopPc_ne_start (tick : Bool) : loopPc tick ≠ .start := by cases tick <;> decide

theorem loopPc_ne_wait (tick : Bool) : loopPc tick ≠ .wait := by cases tick <;> decide

theorem loopPc_ne_call (tick : Bool) : loopPc tick ≠ .call := by cases tick <;> decide

omit [DecidableEq H] in
theorem inv_afterMotion (hs : Inv s) (hpc : s.processing.pc = .compare) (tick : Bool)
    (motion : Detector) : Inv (afterMotion s tick motion) := by
  have hcalls : s.log.selected.length = s.log.calls := by simpa [hpc] using hs.calls
  have hsucc : s.log.comparisons.map (· + 1) ≠ some 0 := by simp
  cases tick with
  | true => exact ⟨by rintro ⟨⟩, fun _ _ _ => hsucc, by simpa [afterMotion] using hcalls⟩
  | false => exact ⟨by rintro ⟨⟩, fun _ _ _ => hsucc, hcalls⟩

omit [DecidableEq H] in
theorem inv_stepProcessing {rc : Rc} (hs : Inv s) (hok : Silent s (.processing rc))
    (h : stepProcessing fc s rc = some s') : Inv s' := by
  have hstart := hs.start
  have hcompared := hs.compared
  have hcalls := hs.calls
  simp only [Silent] at hok
  cases hpc : s.processing.pc <;> simp only [hpc] at hok hstart hcompared hcalls <;>
    simp only [stepProcessing, hpc] at h
  case test =>
    cases h
    cases hrunning : s.running with
    | true =>
      have hne := hcompared (by decide) (by decide) (.inr hrunning)
      exact ⟨by rintro ⟨⟩, fun _ _ _ => hne, hcalls⟩
    | false =>
      have hstopped : s.running ≠ true := by simp [hrunning]
      exact ⟨by rintro ⟨⟩, fun _ _ hrun => absurd (hrun.resolve_left (by rintro ⟨⟩)) hstopped,
        hcalls⟩
  case wait =>
    rcases semWait_eq_some h with ⟨-, rfl⟩ | ⟨⟨hrc, -⟩, rfl⟩
    · have hne := hcompared (by decide) (by decide) (.inl trivial)
      exact ⟨by rintro ⟨⟩, fun _ _ _ => hne, hcalls⟩
    · exact ⟨fun _ => hok trivial hrc, fun hne => absurd rfl hne, hcalls⟩
  case start =>
    cases h
    refine ⟨fun hpc' => absurd hpc' (loopPc_ne_start _), fun _ hne hrun => ?_, ?_⟩
    · have htick := hstart trivial (hrun.resolve_left (loopPc_ne_wait _))
      exact absurd (by rw [htick]; rfl) hne
    · simpa [loopPc_ne_call] using hcalls
  case compare =>
    cases h
    exact inv_afterMotion hs hpc _ _
  case call =>
    obtain ⟨q, -, rfl⟩ := Option.map_eq_some_iff.1 h
    refine ⟨by rintro ⟨⟩, fun _ _ hrun => ?_, hcalls⟩
    exact hcompared (by decide) (by decide) (.inr (hrun.resolve_left (by rintro ⟨⟩)))
  case enqueue =>
    have hne : s.running = true → s.log.comparisons ≠ some 0 := fun hrun =>
      hcompared (by decide) (by decide) (.inr hrun)
    split at h
    · split_ifs at h
      · cases h
        exact ⟨by rintro ⟨⟩, fun _ _ hrun => by simp [State.processingTo, State.stop] at hrun,
          hcalls⟩
      · cases h
        refine ⟨fun hpc' => absurd hpc' (loopPc_ne_start _), fun _ _ hrun => ?_, ?_⟩
        · exact hne (hrun.resolve_left (loopPc_ne_wait _))
        · simpa [loopPc_ne_call] using hcalls
    · obtain ⟨q, -, rfl⟩ := Option.map_eq_some_iff.1 h
      refine ⟨fun hpc' => absurd (hpc.symm.trans hpc') (by decide), fun _ _ hrun => ?_, ?_⟩
      · exact hne (hrun.resolve_left fun hpc' => absurd (hpc.symm.trans hpc') (by decide))
      · simpa [hpc] using hcalls
  case exited => cases h

theorem inv_step (hs : Inv s) (hok : Silent s a) (h : step fc camera s a = some s') : Inv s' := by
  by_cases ha : ∃ rc, a = .processing rc
  · obtain ⟨rc, rfl⟩ := ha
    exact inv_stepProcessing hs hok h
  · exact hs.kept (ownKept_of_step (fun rc hrc => ha ⟨rc, hrc⟩) h) (running_of_step h)

/-! ### The runs -/

/-- **As long as no tick has been reported when `sem_processing` is taken, detection goes on.** -/
theorem detects_of_silent {camera scanBuffer woBuffers : ℕ → Image} {s : State H Image}
    (h : Reach (step frameChanges camera) Silent (System.init scanBuffer woBuffers) s) :
    Detects s where
  compared hpc := (h.invariant inv_init inv_step).compared (by simp [hpc]) (by simp [hpc])
    (.inl hpc)
  calls := (h.invariant inv_init inv_step).calls

/-- A bright frame goes to the first of 30 dark buffers, and is seen when the ring is scanned. -/
theorem detects_of_silent_tick : ∃ s : State Unit Image,
    s.processing.pc = .wait ∧ s.log.calls = 1 ∧ Detects s := by
  have hrun : (exec (step shadeChanges fun _ => true) Silent
      (System.init (fun _ => false) fun _ => false)
      (signalTurns ++ frameTurns 8 ++ processingTurns 47)).map
      (fun s => (s.processing.pc, s.log.calls)) = some (.wait, 1) := by decide +kernel
  obtain ⟨s, hs, hend⟩ := Reach.exists_of_exec hrun
  have hsilent : ∀ {s : State Unit Bool} {a}, Silent s a → Silent (s.map shade) a :=
    fun {s a} hok => by cases a <;> exact hok
  exact ⟨s.map shade, congrArg Prod.fst hend, congrArg Prod.snd hend,
    detects_of_silent (reach_shade hsilent hs)⟩

/-- When `sem_processing` is taken again after that tick, nothing is compared. -/
theorem not_detects : ¬ ∀ s : State Unit Image,
    Reach (step frameChanges (shade ∘ fun _ => true)) Any
      (System.init (shade ∘ fun _ => false) (shade ∘ fun _ => false)) s → Detects s := by
  have hrun : (exec (step shadeChanges fun _ => true) Any
      (System.init (fun _ => false) fun _ => false)
      ((List.replicate 11 signalTurns).flatten ++ frameTurns 8 ++ processingTurns 50)).map
      (fun s => (s.processing.pc, s.log.comparisons)) = some (.wait, some 0) := by decide +kernel
  obtain ⟨s, hs, hend⟩ := Reach.exists_of_exec hrun
  intro h
  exact (h _ (reach_shade (fun _ => trivial) hs)).compared (congrArg Prod.fst hend)
    (congrArg Prod.snd hend)

/-! ### What goes wrong otherwise -/

/-- **Once a tick has been reported, taking `sem_processing` leads to no comparison.** -/
theorem not_detects_of_tick (hpc : s.processing.pc = .wait) (hsem : 0 < s.sems .processing)
    (htick : s.processing.didFrameTick = true) (hrunning : s.running = true) :
    ∃ s', Reach (step fc camera) Any s s' ∧ ¬ Detects s' := by
  let s₁ : State H β :=
    { (s.take .processing).processingTo .start with log := { s.log with comparisons := some 0 } }
  let s₂ : State H β :=
    { s₁ with
      processing := { s₁.processing with
        pc := .test
        lastBufferIndex := s.scanBufferIndex
        currentIndex := wrapAt ScanRing.scanBufSize (s.scanBufferIndex + 1) } }
  have h₁ : step fc camera s (.processing .ok) = some s₁ := by
    simp only [step, stepProcessing, hpc, semWait, reduceCtorEq, if_false, if_pos hsem]
    rfl
  have h₂ : step fc camera s₁ (.processing .ok) = some s₂ := by
    have hloop : loopPc s.processing.didFrameTick = .test := by rw [htick]; rfl
    exact congrArg some (by simp only [s₂, s₁, ← hloop]; rfl)
  have h₃ : step fc camera s₂ (.processing .ok) = some (s₂.processingTo .wait) :=
    congrArg (fun pc => some (s₂.processingTo pc)) (if_pos hrunning)
  refine ⟨_, (Reach.single trivial h₁).trans ((Reach.single trivial h₂).trans
    (Reach.single trivial h₃)), fun h => h.compared rfl rfl⟩

/-- At most one tick has been reported, and none before `did_frame_tick` is set. -/
structure OneTick (s : State H β) : Prop where
  silent : s.processing.didFrameTick = false → s.log.selected = []
  compare : s.processing.pc = .compare → s.processing.didFrameTick = false
  le_one : s.log.selected.length ≤ 1

omit [DecidableEq H] in
theorem OneTick.kept (hs : OneTick s) (hkept : OwnKept s s') : OneTick s' := by
  obtain ⟨hsilent, hcompare, hle⟩ := hs
  exact ⟨by rwa [hkept.processing, hkept.selected], by rwa [hkept.processing],
    by rwa [hkept.selected]⟩

omit [DecidableEq H] in
theorem oneTick_init : OneTick (System.init scanBuffer woBuffers : State H β) :=
  ⟨fun _ => rfl, by rintro ⟨⟩, Nat.zero_le 1⟩

omit [DecidableEq H] in
theorem oneTick_afterMotion (hnil : s.log.selected = []) (tick : Bool) (motion : Detector) :
    OneTick (afterMotion s tick motion) := by
  cases tick with
  | true => exact ⟨by rintro ⟨⟩, by rintro ⟨⟩, by simp [afterMotion, hnil]⟩
  | false => exact ⟨fun _ => hnil, fun _ => rfl, by simp [afterMotion, hnil]⟩

theorem tick_of_loopPc {tick : Bool} (h : loopPc tick = .compare) : tick = false := by
  cases tick with
  | true => cases h
  | false => rfl

omit [DecidableEq H] in
theorem oneTick_stepProcessing {rc : Rc} (hs : OneTick s)
    (h : stepProcessing fc s rc = some s') : OneTick s' := by
  obtain ⟨hsilent, hcompare, hle⟩ := hs
  cases hpc : s.processing.pc <;> simp only [hpc] at hcompare <;>
    simp only [stepProcessing, hpc] at h
  case test =>
    cases h
    split_ifs <;> exact ⟨hsilent, by rintro ⟨⟩, hle⟩
  case wait =>
    rcases semWait_eq_some h with ⟨-, rfl⟩ | ⟨-, rfl⟩ <;> exact ⟨hsilent, by rintro ⟨⟩, hle⟩
  case start =>
    cases h
    exact ⟨hsilent, tick_of_loopPc, hle⟩
  case compare =>
    cases h
    exact oneTick_afterMotion (hsilent (hcompare trivial)) _ _
  case call =>
    obtain ⟨q, -, rfl⟩ := Option.map_eq_some_iff.1 h
    exact ⟨hsilent, by rintro ⟨⟩, hle⟩
  case enqueue =>
    split at h
    · split_ifs at h
      · cases h
        exact ⟨hsilent, by rintro ⟨⟩, hle⟩
      · cases h
        exact ⟨hsilent, tick_of_loopPc, hle⟩
    · obtain ⟨q, -, rfl⟩ := Option.map_eq_some_iff.1 h
      exact ⟨hsilent, fun hpc' => absurd (hpc.symm.trans hpc') (by decide), hle⟩
  case exited => cases h

theorem oneTick_step (hs : OneTick s) (h : step fc camera s a = some s') : OneTick s' := by
  by_cases ha : ∃ rc, a = .processing rc
  · obtain ⟨rc, rfl⟩ := ha
    exact oneTick_stepProcessing hs h
  · exact hs.kept (ownKept_of_step (fun rc hrc => ha ⟨rc, hrc⟩) h)

/-- **A run reports one tick at most.** -/
theorem selected_le_one (h : Reach (step fc camera) Any (System.init scanBuffer woBuffers) s) :
    s.log.selected.length ≤ 1 :=
  (h.invariant oneTick_init fun hs _ hstep => oneTick_step hs hstep).le_one

end Ecen5623.Capture.Detection
