import Ecen5623.Capture.System

/-! # The end of `simple-capture`

When `running` is `0`, the handler `sequencer` disarms the timer and posts every semaphore once.
That is enough for the threads that wait for a semaphore: none of them comes to its `sem_wait`
again. It does nothing for a writeout thread inside `mq_receive`. No thread is stranded in the runs
in which `running` is not cleared while that thread is in `dequeue_P` and the queue is empty
(`not_stranded_of_fed`). -/

namespace Ecen5623.Capture.Teardown

open Ecen5623.Library Ecen5623.Capture.System
open Ecen5623.Capture.Motion (Image frameChanges)
open Ecen5623.Capture.WriteoutQueue (Rc)

variable {H β : Type*} [DecidableEq H] {fc : β → β → ℕ} {camera : ℕ → β} {s s' : State H β}
  {a : Turn H} {rc : Rc} {scanBuffer woBuffers : ℕ → β} {x y : Sem}

/-! ### What should not happen -/

/-- `running` is `0`, and a handler has gone through the branch that shuts down. -/
structure ShutDown (s : State H β) : Prop where
  running : s.running = false
  posted : 0 < s.sems .teardown
  disarmed : s.timerArmed = false

/-- A worker is at its `sem_wait(&x)`. -/
def AtWait (s : State H β) : Sem → Prop
  | .framegrab => s.frame.pc = .wait
  | .processing => s.processing.pc = .wait
  | .writeout => s.writeout = .wait
  | .teardown => False

/-- The writeout thread is inside `mq_receive`, and no turn can fill the queue any more. -/
structure Starved (fc : β → β → ℕ) (camera : ℕ → β) (s : State H β) : Prop where
  dequeue : s.writeout = .dequeue
  receive : s.writeoutQ.pc .writeout = .receive
  empty : ∀ s', Reach (step fc camera) Any s s' → s'.writeoutQ.queue = []

/-- A worker hangs after the shutdown. -/
def Stranded (fc : β → β → ℕ) (camera : ℕ → β) (s : State H β) : Prop :=
  ShutDown s ∧ ((∃ x, AtWait s x ∧ s.sems x = 0) ∨ Starved fc camera s)

/-! ### The condition -/

/-- The turn clears `running`. -/
def Clears (fc : β → β → ℕ) (camera : ℕ → β) (s : State H β) (a : Turn H) : Prop :=
  s.running = true ∧ (step fc camera s a).any (fun s' => !s'.running) = true

/-- In `dequeue_P`, before its message. -/
def beforeMessage : WriteoutQueue.Pc ℕ → Bool
  | .down _ => true
  | .receive => true
  | _ => false

/-- The writeout thread has called `dequeue_P` and has not got a message. -/
def Awaiting (s : State H β) : Prop :=
  s.writeout = .dequeue ∧ beforeMessage (s.writeoutQ.pc .writeout) = true

/-- When `running` is cleared, a writeout thread that is in `dequeue_P` has a message to receive. -/
def Fed (fc : β → β → ℕ) (camera : ℕ → β) (s : State H β) (a : Turn H) : Prop :=
  Clears fc camera s a → Awaiting s → s.writeoutQ.queue ≠ []

instance (fc : β → β → ℕ) (camera : ℕ → β) (s : State H β) (a : Turn H) :
    Decidable (Fed fc camera s a) :=
  inferInstanceAs (Decidable (_ ∧ _ = true → _ ∧ _ = true → _ ≠ _))

/-! ### The semaphores -/

/-- The order of the posts in the branch that shuts down. -/
def rank : Sem → ℕ
  | .framegrab => 0
  | .processing => 1
  | .writeout => 2
  | .teardown => 3

/-- The handler is in the branch that shuts down. -/
def SeqPc.shuts : SeqPc → Bool
  | .disarm => true
  | .shut _ => true
  | _ => false

/-- Some handler has posted `x` in the branch that shuts down. -/
def Posted (s : State H β) (x : Sem) : Prop :=
  0 < s.sems .teardown ∨ ∃ h y, s.handler h = .shut y ∧ rank x < rank y

/-- The semaphore posted for the shutdown is still there for a worker that waits for it. -/
structure SemOk (s : State H β) : Prop where
  stopped : (0 < s.sems .teardown ∨ ∃ h, SeqPc.shuts (s.handler h) = true) → s.running = false
  posted : ∀ x, Posted s x → AtWait s x → 0 < s.sems x

/-- What a turn of the worker that waits for `x` does to the semaphores. -/
structure WorkerStep (x : Sem) (s s' : State H β) : Prop where
  teardown : x ≠ .teardown
  running : s'.running = true → s.running = true
  handler : s'.handler = s.handler
  sems : ∀ y, y ≠ x → s'.sems y = s.sems y
  others : ∀ y, y ≠ x → (AtWait s' y ↔ AtWait s y)
  wait : AtWait s' x → s.running = true ∨ AtWait s x ∧ s'.sems x = s.sems x

omit [DecidableEq H] in
/-- **A worker does not come to its `sem_wait` again after the shutdown.** -/
theorem SemOk.worker (hs : SemOk s) (h : WorkerStep x s s') : SemOk s' := by
  have hteardown := h.sems .teardown (Ne.symm h.teardown)
  have hstopped : (0 < s'.sems .teardown ∨ ∃ i, SeqPc.shuts (s'.handler i) = true) →
      s'.running = false := by
    rw [hteardown, h.handler]
    intro hshut
    have hrunning := hs.stopped hshut
    cases hrun : s'.running with
    | false => rfl
    | true => exact absurd (h.running hrun) (by rw [hrunning]; decide)
  refine ⟨hstopped, fun y hposted hwait => ?_⟩
  have hposted' : Posted s y := by rwa [Posted, hteardown, h.handler] at hposted
  by_cases hy : y = x
  · subst hy
    rcases h.wait hwait with hrunning | ⟨hwait', hsem⟩
    · have hshut : 0 < s.sems .teardown ∨ ∃ i, SeqPc.shuts (s.handler i) = true := by
        rcases hposted' with hpos | ⟨i, z, hi, -⟩
        · exact .inl hpos
        · exact .inr ⟨i, by rw [hi]; rfl⟩
      exact absurd (hs.stopped hshut) (by rw [hrunning]; decide)
    · rw [hsem]
      exact hs.posted y hposted' hwait'
  · rw [h.sems y hy]
    exact hs.posted y hposted' ((h.others y hy).1 hwait)

theorem SemOk.sequencer {h : H} {pc : SeqPc} (hs : SemOk s) (hkept : KeptBySequencer s s')
    (hhandler : s'.handler = Function.update s.handler h pc) (hsems : ∀ x, s.sems x ≤ s'.sems x)
    (hstop : SeqPc.shuts pc = true ∨ s.sems .teardown < s'.sems .teardown → s.running = false)
    (hpost : ∀ x, (∃ y, pc = .shut y ∧ rank x < rank y) ∨
      s.sems .teardown < s'.sems .teardown → Posted s x ∨ 0 < s'.sems x) : SemOk s' := by
  have hteardown : 0 < s'.sems .teardown →
      0 < s.sems .teardown ∨ s.sems .teardown < s'.sems .teardown := by omega
  refine ⟨?_, fun x hposted hwait => ?_⟩
  · rw [hkept.running]
    rintro (hpos | ⟨i, hi⟩)
    · rcases hteardown hpos with hpos | hlt
      · exact hs.stopped (.inl hpos)
      · exact hstop (.inr hlt)
    · rw [hhandler] at hi
      by_cases hih : i = h
      · subst hih
        rw [Function.update_self] at hi
        exact hstop (.inl hi)
      · rw [Function.update_of_ne hih] at hi
        exact hs.stopped (.inr ⟨i, hi⟩)
  · have hwait' : AtWait s x := by
      unfold AtWait at hwait ⊢
      rwa [hkept.frame, hkept.processing, hkept.writeout] at hwait
    have hposted' : Posted s x ∨ 0 < s'.sems x := by
      rcases hposted with hpos | ⟨i, y, hi, hlt⟩
      · rcases hteardown hpos with hpos | hlt
        · exact .inl (.inl hpos)
        · exact hpost x (.inr hlt)
      · rw [hhandler] at hi
        by_cases hih : i = h
        · subst hih
          rw [Function.update_self] at hi
          exact hpost x (.inl ⟨y, hi, hlt⟩)
        · rw [Function.update_of_ne hih] at hi
          exact .inl (.inr ⟨i, y, hi, hlt⟩)
    rcases hposted' with hposted' | hpos
    · exact Nat.lt_of_lt_of_le (hs.posted x hposted' hwait') (hsems x)
    · exact hpos

omit [DecidableEq H] in
theorem le_post (s : State H β) (x y : Sem) : s.sems y ≤ (s.post x).sems y := by
  by_cases hy : y = x
  · subst hy
    simp [State.post]
  · simp [State.post, hy]

omit [DecidableEq H] in
theorem le_postEvery (s : State H β) (n : ℕ) (x y : Sem) : s.sems y ≤ (s.postEvery n x).sems y := by
  unfold State.postEvery
  split_ifs
  · exact le_post s x y
  · exact le_rfl

omit [DecidableEq H] in
theorem teardown_post (s : State H β) (hx : x ≠ .teardown) :
    (s.post x).sems .teardown = s.sems .teardown := Function.update_of_ne (Ne.symm hx) _ _

omit [DecidableEq H] in
theorem teardown_postEvery (s : State H β) (n : ℕ) (hx : x ≠ .teardown) :
    (s.postEvery n x).sems .teardown = s.sems .teardown := by
  unfold State.postEvery
  split_ifs
  · exact teardown_post s hx
  · rfl

theorem semOk_shut {h : H} (hs : SemOk s) (hpc : s.handler h = .shut x)
    (hkept : KeptBySequencer s s') (hsems : s'.sems = (s.post x).sems)
    (hhandler : s'.handler = Function.update s.handler h (afterShut x)) : SemOk s' := by
  have hstopped : s.running = false := hs.stopped (.inr ⟨h, by rw [hpc]; rfl⟩)
  refine hs.sequencer hkept hhandler (fun y => by rw [hsems]; exact le_post s x y)
    (fun _ => hstopped) fun z hz => ?_
  by_cases hzx : rank z < rank x
  · exact .inl (.inr ⟨h, x, hpc, hzx⟩)
  · have hle : rank z ≤ rank x := by
      rcases hz with ⟨y, hy, hlt⟩ | hlt
      · cases x <;> simp only [afterShut, SeqPc.shut.injEq, reduceCtorEq] at hy <;> subst hy <;>
          simp only [rank] at hlt ⊢ <;> omega
      · have hx : x = .teardown := by
          by_contra hne
          rw [hsems, teardown_post s hne] at hlt
          exact lt_irrefl _ hlt
        subst hx
        cases z <;> decide
    have hzx' : z = x := by
      cases z <;> cases x <;> simp only [rank] at hle hzx <;> first | rfl | omega
    subst hzx'
    rw [hsems]
    exact .inr (by simp [State.post])

theorem SemOk.outside {h : H} {pc : SeqPc} (hs : SemOk s) (hkept : KeptBySequencer s s')
    (hhandler : s'.handler = Function.update s.handler h pc) (hsems : ∀ x, s.sems x ≤ s'.sems x)
    (hteardown : s'.sems .teardown = s.sems .teardown)
    (hpc : ∀ y, pc = .shut y → rank y = 0) (hstop : SeqPc.shuts pc = true → s.running = false) :
    SemOk s' := by
  refine hs.sequencer hkept hhandler hsems (fun hshut => ?_) fun x hx => ?_
  · rcases hshut with hshut | hlt
    · exact hstop hshut
    · exact absurd hteardown (Nat.ne_of_gt hlt)
  · rcases hx with ⟨y, hy, hlt⟩ | hlt
    · exact absurd hlt (by rw [hpc y hy]; exact Nat.not_lt_zero _)
    · exact absurd hteardown (Nat.ne_of_gt hlt)

theorem SemOk.apart {h : H} {pc : SeqPc} (hs : SemOk s) (hkept : KeptBySequencer s s')
    (hhandler : s'.handler = Function.update s.handler h pc) (hsems : ∀ x, s.sems x ≤ s'.sems x)
    (hteardown : s'.sems .teardown = s.sems .teardown) (hpc : SeqPc.shuts pc = false) :
    SemOk s' := by
  refine hs.outside hkept hhandler hsems hteardown (fun y hy => ?_) fun hshuts => ?_
  · rw [hy] at hpc
    cases hpc
  · rw [hpc] at hshuts
    cases hshuts

theorem semOk_stepSequencer {h : H} (hs : SemOk s) (hstep : stepSequencer s h = some s') :
    SemOk s' := by
  have hkept := keptBySequencer hstep
  unfold stepSequencer at hstep
  cases hpc : s.handler h <;> simp only [hpc, Option.some.injEq, reduceCtorEq] at hstep <;>
    subst hstep
  case postWriteout =>
    exact hs.apart hkept rfl (le_post s _) (teardown_post (x := .writeout) s (by decide)) rfl
  case test =>
    refine hs.outside hkept rfl (fun _ => le_rfl) rfl (fun y hy => ?_) fun hshut => ?_
    · split_ifs at hy
    · cases hrunning : s.running with
      | false => rfl
      | true => simp [hrunning, SeqPc.shuts] at hshut
  case postFramegrab =>
    exact hs.apart hkept rfl (le_postEvery s 4 _)
      (teardown_postEvery (x := .framegrab) s 4 (by decide)) rfl
  case postProcessing =>
    exact hs.apart hkept rfl (le_postEvery s 10 _)
      (teardown_postEvery (x := .processing) s 10 (by decide)) rfl
  case advance => exact hs.apart hkept rfl (fun _ => le_rfl) rfl rfl
  case wrap => exact hs.apart hkept rfl (fun _ => le_rfl) rfl rfl
  case disarm =>
    refine hs.outside hkept rfl (fun _ => le_rfl) rfl (fun y hy => ?_) fun _ => ?_
    · cases hy
      rfl
    · exact hs.stopped (.inr ⟨h, by rw [hpc]; rfl⟩)
  case shut x => exact semOk_shut hs hpc hkept rfl rfl

/-! ### The workers -/

omit [DecidableEq H] in
theorem workerStep_of_sems (hx : x ≠ .teardown) (hrunning : s'.running = true → s.running = true)
    (hhandler : s'.handler = s.handler) (hothers : ∀ y, y ≠ x → (AtWait s' y ↔ AtWait s y))
    (hsems : s'.sems = s.sems) (hwait : AtWait s' x → s.running = true ∨ AtWait s x) :
    WorkerStep x s s' where
  teardown := hx
  running := hrunning
  handler := hhandler
  sems y _ := by rw [hsems]
  others := hothers
  wait h := (hwait h).imp id fun hx => ⟨hx, by rw [hsems]⟩

omit [DecidableEq H] in
theorem workerStep_stepFrame (h : stepFrame camera s rc = some s') :
    WorkerStep .framegrab s s' := by
  have hkept := keptByFrame h
  have hothers : ∀ y, y ≠ .framegrab → (AtWait s' y ↔ AtWait s y) := fun y hy => by
    cases y with
    | framegrab => exact absurd rfl hy
    | processing => rw [AtWait, AtWait, hkept.processing]
    | writeout => rw [AtWait, AtWait, hkept.writeout]
    | teardown => exact Iff.rfl
  have hmove : s'.sems = s.sems →
      (AtWait s' .framegrab → s.running = true ∨ AtWait s .framegrab) →
      WorkerStep .framegrab s s' :=
    workerStep_of_sems (by decide) hkept.running hkept.handler hothers
  cases hpc : s.frame.pc <;> simp only [stepFrame, hpc] at h
  case test =>
    cases h
    refine hmove rfl fun hwait => .inl ?_
    cases hrunning : s.running with
    | true => rfl
    | false => simp [AtWait, State.frameTo, hrunning] at hwait
  case wait =>
    rcases semWait_eq_some h with ⟨-, rfl⟩ | ⟨-, rfl⟩
    · exact hmove rfl (by rintro ⟨⟩)
    · exact ⟨by decide, hkept.running, rfl, fun y hy => Function.update_of_ne hy _ _, hothers,
        by rintro ⟨⟩⟩
  case dequeue =>
    split at h
    · cases h
      exact hmove rfl (by rintro ⟨⟩)
    · cases h
      exact hmove rfl .inr
    · cases h
      exact hmove rfl (by rintro ⟨⟩)
  case requeue => split_ifs at h <;> cases h <;> exact hmove rfl (by rintro ⟨⟩)
  case exited => cases h
  all_goals cases h
  all_goals exact hmove rfl (by rintro ⟨⟩)

omit [DecidableEq H] in
theorem workerStep_stepProcessing (h : stepProcessing fc s rc = some s') :
    WorkerStep .processing s s' := by
  have hkept := keptByProcessing h
  have hothers : ∀ y, y ≠ .processing → (AtWait s' y ↔ AtWait s y) := fun y hy => by
    cases y with
    | framegrab => rw [AtWait, AtWait, hkept.frame]
    | processing => exact absurd rfl hy
    | writeout => rw [AtWait, AtWait, hkept.writeout]
    | teardown => exact Iff.rfl
  have hmove : s'.sems = s.sems →
      (AtWait s' .processing → s.running = true ∨ AtWait s .processing) →
      WorkerStep .processing s s' :=
    workerStep_of_sems (by decide) hkept.running hkept.handler hothers
  have hloop : ∀ tick, loopPc tick ≠ .wait := by decide
  cases hpc : s.processing.pc <;> simp only [stepProcessing, hpc] at h
  case test =>
    cases h
    refine hmove rfl fun hwait => .inl ?_
    cases hrunning : s.running with
    | true => rfl
    | false => simp [AtWait, State.processingTo, hrunning] at hwait
  case wait =>
    rcases semWait_eq_some h with ⟨-, rfl⟩ | ⟨-, rfl⟩
    · exact hmove rfl (by rintro ⟨⟩)
    · exact ⟨by decide, hkept.running, rfl, fun y hy => Function.update_of_ne hy _ _, hothers,
        by rintro ⟨⟩⟩
  case start =>
    cases h
    exact hmove rfl fun hwait => absurd hwait (hloop _)
  case compare =>
    cases h
    refine hmove rfl fun hwait => ?_
    simp only [AtWait, compareStep, afterMotion] at hwait
    split_ifs at hwait
    exact absurd hwait (hloop _)
  case call =>
    obtain ⟨q, -, rfl⟩ := Option.map_eq_some_iff.1 h
    exact hmove rfl (by rintro ⟨⟩)
  case enqueue =>
    split at h
    · split_ifs at h
      · cases h
        exact hmove rfl (by rintro ⟨⟩)
      · cases h
        exact hmove rfl fun hwait => absurd hwait (hloop _)
    · obtain ⟨q, -, rfl⟩ := Option.map_eq_some_iff.1 h
      exact hmove rfl .inr
  case exited => cases h

omit [DecidableEq H] in
theorem workerStep_stepWriteout (h : stepWriteout s rc = some s') :
    WorkerStep .writeout s s' := by
  have hkept := keptByWriteout h
  have hothers : ∀ y, y ≠ .writeout → (AtWait s' y ↔ AtWait s y) := fun y hy => by
    cases y with
    | framegrab => rw [AtWait, AtWait, hkept.frame]
    | processing => rw [AtWait, AtWait, hkept.processing]
    | writeout => exact absurd rfl hy
    | teardown => exact Iff.rfl
  have hmove : s'.sems = s.sems →
      (AtWait s' .writeout → s.running = true ∨ AtWait s .writeout) → WorkerStep .writeout s s' :=
    workerStep_of_sems (by decide) hkept.running hkept.handler hothers
  cases hpc : s.writeout <;> simp only [stepWriteout, hpc] at h
  case wait =>
    rcases semWait_eq_some h with ⟨-, rfl⟩ | ⟨-, rfl⟩
    · exact hmove rfl (by rintro ⟨⟩)
    · exact ⟨by decide, hkept.running, rfl, fun y hy => Function.update_of_ne hy _ _, hothers,
        by rintro ⟨⟩⟩
  case test =>
    split_ifs at h
    · obtain ⟨q, -, rfl⟩ := Option.map_eq_some_iff.1 h
      exact hmove rfl (by rintro ⟨⟩)
    · cases h
      exact hmove rfl (by rintro ⟨⟩)
  case dequeue =>
    split at h
    · cases h
      exact hmove rfl (by rintro ⟨⟩)
    · cases h
      exact hmove rfl (by rintro ⟨⟩)
    · obtain ⟨q, -, rfl⟩ := Option.map_eq_some_iff.1 h
      exact hmove rfl (by rintro ⟨⟩)
  case exited => cases h

omit [DecidableEq H] in
theorem semOk_init : SemOk (System.init scanBuffer woBuffers : State H β) where
  stopped h := by
    rcases h with hpos | ⟨i, hi⟩
    · exact absurd hpos (lt_irrefl 0)
    · cases hi
  posted x hposted _ := by
    rcases hposted with hpos | ⟨i, y, hi, -⟩
    · exact absurd hpos (lt_irrefl 0)
    · cases hi

theorem semOk_step (hs : SemOk s) (h : step fc camera s a = some s') : SemOk s' := by
  cases a with
  | ctrlC =>
    cases h
    exact ⟨fun _ => rfl, hs.posted⟩
  | expire =>
    obtain ⟨-, rfl⟩ := expire_eq_some h
    exact ⟨hs.stopped, hs.posted⟩
  | deliver i =>
    obtain ⟨-, rfl⟩ := deliver_eq_some h
    exact hs.apart ⟨rfl, rfl, rfl, rfl, rfl, rfl, rfl⟩ rfl (fun _ => le_rfl) rfl rfl
  | sequencer i => exact semOk_stepSequencer hs h
  | frame rc => exact hs.worker (workerStep_stepFrame h)
  | processing rc => exact hs.worker (workerStep_stepProcessing h)
  | writeout rc => exact hs.worker (workerStep_stepWriteout h)

/-! ### The queue -/

/-- In `dequeue_P`, before its message or behind it. -/
def inDequeue : WriteoutQueue.Pc ℕ → Bool
  | .down _ => true
  | .receive => true
  | .copyOut _ => true
  | _ => false

section Queue

variable {q q' : WriteoutQueue.State Caller ℕ} {t : Caller}

theorem prefix_of_goOn (hq : WriteoutQueue.step q (t, .go rc) = some q')
    (hpc : inDequeue (q.pc t) = false) :
    inDequeue (q'.pc t) = false ∧ q.queue <+: q'.queue := by
  simp only [WriteoutQueue.step] at hq
  cases ht : q.pc t with
  | idle ret => simp [ht, WriteoutQueue.goOn] at hq
  | test p =>
    simp only [ht, WriteoutQueue.goOn] at hq
    split_ifs at hq <;> cases hq <;> simp [WriteoutQueue.State.goto, inDequeue]
  | up p reg =>
    cases reg <;> simp only [ht, WriteoutQueue.goOn] at hq <;> cases hq <;>
      simp [WriteoutQueue.State.goto, inDequeue]
  | copy p =>
    cases p <;> simp only [ht, WriteoutQueue.goOn] at hq <;> cases hq <;>
      simp [WriteoutQueue.State.goto, inDequeue]
  | send b =>
    cases rc with
    | ok =>
      simp only [ht, WriteoutQueue.goOn, Option.ite_none_right_eq_some] at hq
      obtain ⟨-, hq⟩ := hq
      cases hq
      simp [WriteoutQueue.State.goto, inDequeue]
    | _ =>
      simp only [ht, WriteoutQueue.goOn] at hq
      cases hq
      simp [WriteoutQueue.State.goto, inDequeue]
  | _ => simp [ht, inDequeue] at hpc

theorem beforeMessage_of_goOn (hq : WriteoutQueue.step q (t, .go rc) = some q')
    (hpc : beforeMessage (q'.pc t) = true) :
    beforeMessage (q.pc t) = true ∧ q'.queue = q.queue := by
  simp only [WriteoutQueue.step] at hq
  cases ht : q.pc t with
  | idle ret => simp [ht, WriteoutQueue.goOn] at hq
  | test p =>
    simp only [ht, WriteoutQueue.goOn] at hq
    split_ifs at hq <;> cases hq <;> simp [WriteoutQueue.State.goto, beforeMessage] at hpc
  | up p reg =>
    cases reg <;> simp only [ht, WriteoutQueue.goOn] at hq <;> cases hq <;>
      simp [WriteoutQueue.State.goto, beforeMessage] at hpc
  | copy p =>
    cases p <;> simp only [ht, WriteoutQueue.goOn] at hq <;> cases hq <;>
      simp [WriteoutQueue.State.goto, beforeMessage] at hpc
  | send b =>
    cases rc with
    | ok =>
      simp only [ht, WriteoutQueue.goOn, Option.ite_none_right_eq_some] at hq
      obtain ⟨-, hq⟩ := hq
      cases hq
      simp [WriteoutQueue.State.goto, beforeMessage] at hpc
    | _ =>
      simp only [ht, WriteoutQueue.goOn] at hq
      cases hq
      simp [WriteoutQueue.State.goto, beforeMessage] at hpc
  | down reg =>
    cases reg <;> simp only [ht, WriteoutQueue.goOn] at hq <;> cases hq <;> exact ⟨rfl, rfl⟩
  | receive =>
    simp only [ht, WriteoutQueue.goOn] at hq
    cases rc with
    | ok =>
      cases hqueue : q.queue with
      | nil => simp [hqueue] at hq
      | cons b bs =>
        simp only [hqueue, Option.some.injEq] at hq
        subst hq
        simp [WriteoutQueue.State.goto, beforeMessage] at hpc
    | eagain =>
      cases hq
      exact ⟨rfl, rfl⟩
    | error =>
      cases hq
      simp [WriteoutQueue.State.goto, beforeMessage] at hpc
  | copyOut b =>
    simp only [ht, WriteoutQueue.goOn] at hq
    cases hq
    simp [WriteoutQueue.State.goto, beforeMessage] at hpc

end Queue

/-- The processing thread does not receive; after the stop, a writeout thread that waits for a
message has one. -/
structure QueueOk (s : State H β) : Prop where
  sender : inDequeue (s.writeoutQ.pc .processing) = false
  fed : s.running = false → Awaiting s → s.writeoutQ.queue ≠ []

omit [DecidableEq H] in
theorem queueOk_init : QueueOk (System.init scanBuffer woBuffers : State H β) := ⟨rfl, by rintro ⟨⟩⟩

omit [DecidableEq H] in
theorem sender_stepProcessing (hs : QueueOk s) (h : stepProcessing fc s rc = some s') :
    inDequeue (s'.writeoutQ.pc .processing) = false ∧
      s.writeoutQ.queue <+: s'.writeoutQ.queue := by
  have hsender := hs.sender
  cases hpc : s.processing.pc <;> simp only [stepProcessing, hpc] at h
  case wait =>
    rcases semWait_eq_some h with ⟨-, rfl⟩ | ⟨-, rfl⟩ <;> exact ⟨hsender, List.prefix_rfl⟩
  case call =>
    obtain ⟨q, hq, rfl⟩ := Option.map_eq_some_iff.1 h
    obtain rfl := WriteoutQueue.eq_goto_of_call hq
    exact ⟨by simp [WriteoutQueue.State.goto, inDequeue], List.prefix_rfl⟩
  case enqueue =>
    split at h
    · split_ifs at h <;> cases h <;> exact ⟨hsender, List.prefix_rfl⟩
    · obtain ⟨q, hq, rfl⟩ := Option.map_eq_some_iff.1 h
      exact prefix_of_goOn hq hsender
  all_goals cases h
  all_goals exact ⟨hsender, List.prefix_rfl⟩

omit [DecidableEq H] in
theorem awaiting_stepWriteout (h : stepWriteout s rc = some s') (hrunning : s'.running = false)
    (hawaiting : Awaiting s') : Awaiting s ∧ s'.writeoutQ.queue = s.writeoutQ.queue := by
  obtain ⟨hdequeue, hbefore⟩ := hawaiting
  cases hpc : s.writeout <;> simp only [stepWriteout, hpc] at h
  case wait =>
    rcases semWait_eq_some h with ⟨-, rfl⟩ | ⟨-, rfl⟩ <;> cases hdequeue
  case test =>
    split_ifs at h with hrun
    · obtain ⟨q, -, rfl⟩ := Option.map_eq_some_iff.1 h
      exact absurd (hrunning.symm.trans hrun) Bool.false_ne_true
    · cases h
      cases hdequeue
  case dequeue =>
    split at h
    · cases h
      cases hdequeue
    · cases h
      cases hdequeue
    · obtain ⟨q, hq, rfl⟩ := Option.map_eq_some_iff.1 h
      obtain ⟨hbefore', hqueue⟩ := beforeMessage_of_goOn hq hbefore
      exact ⟨⟨hpc, hbefore'⟩, hqueue⟩
  case exited => cases h

/-- Nobody takes the message that a waiting writeout thread has, and it does not come to wait after
the stop. -/
theorem awaiting_of_step (hs : QueueOk s) (h : step fc camera s a = some s')
    (hrunning : s'.running = false) (hawaiting : Awaiting s') :
    Awaiting s ∧ s.writeoutQ.queue <+: s'.writeoutQ.queue := by
  cases a with
  | ctrlC =>
    cases h
    exact ⟨hawaiting, List.prefix_rfl⟩
  | expire =>
    obtain ⟨-, rfl⟩ := expire_eq_some h
    exact ⟨hawaiting, List.prefix_rfl⟩
  | deliver i =>
    obtain ⟨-, rfl⟩ := deliver_eq_some h
    exact ⟨hawaiting, List.prefix_rfl⟩
  | sequencer i =>
    have hkept := keptBySequencer h
    rw [Awaiting, hkept.writeout, hkept.writeoutQ] at hawaiting
    exact ⟨hawaiting, by rw [hkept.writeoutQ]⟩
  | frame rc =>
    have hkept := keptByFrame h
    rw [Awaiting, hkept.writeout, hkept.writeoutQ] at hawaiting
    exact ⟨hawaiting, by rw [hkept.writeoutQ]⟩
  | processing rc =>
    have hkept := keptByProcessing h
    rw [Awaiting, hkept.writeout, hkept.pc] at hawaiting
    exact ⟨hawaiting, (sender_stepProcessing hs h).2⟩
  | writeout rc =>
    obtain ⟨hawaiting', hqueue⟩ := awaiting_stepWriteout h hrunning hawaiting
    exact ⟨hawaiting', by rw [hqueue]⟩

theorem sender_of_step (hs : QueueOk s) (h : step fc camera s a = some s') :
    inDequeue (s'.writeoutQ.pc .processing) = false := by
  have hsender := hs.sender
  cases a with
  | ctrlC =>
    cases h
    exact hsender
  | expire =>
    obtain ⟨-, rfl⟩ := expire_eq_some h
    exact hsender
  | deliver i =>
    obtain ⟨-, rfl⟩ := deliver_eq_some h
    exact hsender
  | sequencer i => rwa [(keptBySequencer h).writeoutQ]
  | frame rc => rwa [(keptByFrame h).writeoutQ]
  | processing rc => exact (sender_stepProcessing hs h).1
  | writeout rc => rwa [(keptByWriteout h).pc]

theorem queueOk_step (hs : QueueOk s) (hok : Fed fc camera s a)
    (h : step fc camera s a = some s') : QueueOk s' := by
  refine ⟨sender_of_step hs h, fun hrunning hawaiting hempty => ?_⟩
  obtain ⟨hawaiting', hprefix⟩ := awaiting_of_step hs h hrunning hawaiting
  rw [hempty, List.prefix_nil] at hprefix
  cases hrun : s.running with
  | false => exact hs.fed hrun hawaiting' hprefix
  | true =>
    -- this is the turn that clears `running`
    have hclears : Clears fc camera s a := ⟨hrun, by rw [h]; simp [hrunning]⟩
    exact hok hclears hawaiting' hprefix

/-! ### The runs -/

/-- The timer expires, and a thread goes through the branch that shuts down. -/
def shutTurns : List (Turn Unit) := .expire :: .deliver () :: List.replicate 7 (.sequencer ())

/-- The processing thread has left, and the writeout thread has not got a message. -/
structure Abandoned (s : State H β) : Prop where
  exited : s.processing.pc = .exited
  empty : s.writeoutQ.queue = []
  writeout : s.writeout = .exited ∨ s.writeout = .dequeue ∧
    (s.writeoutQ.pc .writeout = .receive ∨ s.writeoutQ.pc .writeout = .idle .failed)

omit [DecidableEq H] in
theorem abandoned_stepWriteout (hs : Abandoned s) (h : stepWriteout s rc = some s') :
    Abandoned s' := by
  have hexited : s'.processing.pc = .exited := by
    rw [(keptByWriteout h).processing]
    exact hs.exited
  rcases hs.writeout with hpc | ⟨hpc, hreceive | hfailed⟩
  · simp [stepWriteout, hpc] at h
  · cases rc with
    | ok =>
      simp [stepWriteout, hpc, hreceive, WriteoutQueue.step, WriteoutQueue.goOn, hs.empty] at h
    | eagain =>
      simp only [stepWriteout, hpc, hreceive, WriteoutQueue.step, WriteoutQueue.goOn,
        Option.map_some, Option.some.injEq] at h
      subst h
      exact ⟨hexited, hs.empty, .inr ⟨rfl, .inl hreceive⟩⟩
    | error =>
      simp only [stepWriteout, hpc, hreceive, WriteoutQueue.step, WriteoutQueue.goOn,
        Option.map_some, Option.some.injEq] at h
      subst h
      exact ⟨hexited, hs.empty, .inr ⟨rfl, .inr (WriteoutQueue.State.goto_pc_self _ _ _)⟩⟩
  · simp only [stepWriteout, hpc, hfailed, Option.some.injEq] at h
    subst h
    exact ⟨hexited, hs.empty, .inl rfl⟩

/-- Without the processing thread nobody fills the queue. -/
theorem abandoned_step (hs : Abandoned s) (h : step fc camera s a = some s') : Abandoned s' := by
  obtain ⟨hexited, hempty, hwriteout⟩ := hs
  cases a with
  | ctrlC =>
    cases h
    exact ⟨hexited, hempty, hwriteout⟩
  | expire =>
    obtain ⟨-, rfl⟩ := expire_eq_some h
    exact ⟨hexited, hempty, hwriteout⟩
  | deliver i =>
    obtain ⟨-, rfl⟩ := deliver_eq_some h
    exact ⟨hexited, hempty, hwriteout⟩
  | sequencer i =>
    have hkept := keptBySequencer h
    exact ⟨by rwa [hkept.processing], by rwa [hkept.writeoutQ],
      by rwa [hkept.writeout, hkept.writeoutQ]⟩
  | frame rc =>
    have hkept := keptByFrame h
    exact ⟨by rwa [hkept.processing], by rwa [hkept.writeoutQ],
      by rwa [hkept.writeout, hkept.writeoutQ]⟩
  | processing rc => simp [step, stepProcessing, hexited] at h
  | writeout rc => exact abandoned_stepWriteout ⟨hexited, hempty, hwriteout⟩ h

theorem starved_of_exited (hdequeue : s.writeout = .dequeue)
    (hreceive : s.writeoutQ.pc .writeout = .receive) (hexited : s.processing.pc = .exited)
    (hempty : s.writeoutQ.queue = []) : Starved fc camera s where
  dequeue := hdequeue
  receive := hreceive
  empty _ h := (h.invariant (P := Abandoned) ⟨hexited, hempty, .inr ⟨hdequeue, .inl hreceive⟩⟩
    fun hs _ hstep => abandoned_step hs hstep).empty

end Ecen5623.Capture.Teardown
