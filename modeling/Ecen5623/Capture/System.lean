import Ecen5623.Capture.ScanRing
import Ecen5623.Capture.WriteoutQueue

/-! # The whole of `simple-capture`

The frame, processing and writeout threads and the handlers `sequencer` and `ctrl_c`, as parties
that take turns from the moment `main` has installed the timer. A turn is one statement on shared
data, together with the statements on local variables that follow it; the calls of `enqueue_P` and
`dequeue_P` take the steps of `WriteoutQueue`. A `sem_wait` has no step while its semaphore is `0`,
unless it fails. The timer has at most one signal pending; any of the threads `H` may handle it. The
camera delivers the frames `camera 0, camera 1, ...`, and `fc` is `frame_changes`. `main`, which
waits for `sem_teardown`, and logging and printing have no effect on the state. -/

namespace Ecen5623.Capture.System

open Ecen5623.Library Ecen5623.Capture.Motion
open Ecen5623.Capture.ScanRing (scanBufSize)
open Ecen5623.Capture.WriteoutQueue (Rc numWoBuf)

/-- `PROFILE_ITERS`. -/
abbrev profileIters : ℕ := 500

/-! ### The variables of the parties -/

/-- `sem_framegrab` and so on. -/
inductive Sem where
  | framegrab
  | processing
  | writeout
  | teardown
  deriving DecidableEq, Repr

/-- Where a handler of the timer signal is; `shut x` posts `x` in the branch that shuts down. -/
inductive SeqPc where
  | idle
  | postWriteout
  | test
  | postFramegrab
  | postProcessing
  | advance
  | wrap
  | disarm
  | shut (x : Sem)
  deriving DecidableEq, Repr

/-- Where the frame thread is. -/
inductive FramePc where
  | test
  | wait
  | dequeue
  | profile
  | copy
  | advance
  | wrap
  | requeue
  | exited
  deriving DecidableEq, Repr

/-- `captured` is the number of frames copied so far. -/
structure Frame where
  pc : FramePc
  averageCount : ℕ
  captured : ℕ
  deriving DecidableEq, Repr

/-- Where the processing thread is. -/
inductive ProcPc where
  | test
  | wait
  | start
  | compare
  | call
  | enqueue
  | exited
  deriving DecidableEq, Repr

structure Processing where
  pc : ProcPc
  lastBufferIndex : ℕ
  currentIndex : ℕ
  didFrameTick : Bool
  woBufferIndex : ℕ
  deriving DecidableEq, Repr

/-- Where the writeout thread is. -/
inductive WriteoutPc where
  | wait
  | test
  | dequeue
  | exited
  deriving DecidableEq, Repr

/-- The threads that use `writeout_Q`. -/
inductive Caller where
  | processing
  | writeout
  deriving DecidableEq, Repr

/-- What is recorded of a run: the comparisons since `sem_processing` was last taken, the calls of
`enqueue_P`, and the pixels of the frames that reported a tick, of the buffers sent and of the
buffers passed to `do_transformations`, oldest first. -/
structure Log (β : Type*) where
  comparisons : Option ℕ
  calls : ℕ
  selected : List β
  enqueued : List β
  transformed : List β

/-- The messages of `writeout_Q` are indices into `wo_buffers`. -/
structure State (H β : Type*) where
  running : Bool
  sems : Sem → ℕ
  timerArmed : Bool
  pending : Bool
  sequence : ℕ
  handler : H → SeqPc
  scanBuffer : ℕ → β
  scanBufferIndex : ℕ
  woBuffers : ℕ → β
  frame : Frame
  processing : Processing
  motion : Detector
  writeout : WriteoutPc
  writeoutQ : WriteoutQueue.State Caller ℕ
  log : Log β

variable {H β : Type*}

/-- The threads have met at the barrier; their buffers, fresh from `malloc`, hold anything.
`last_buffer_index` is `-1` in the source, and is set before it is used. -/
def init (scanBuffer woBuffers : ℕ → β) : State H β where
  running := true
  sems _ := 0
  timerArmed := true
  pending := false
  sequence := 0
  handler _ := .idle
  scanBuffer := scanBuffer
  scanBufferIndex := 0
  woBuffers := woBuffers
  frame := { pc := .test, averageCount := 0, captured := 0 }
  processing :=
    { pc := .test, lastBufferIndex := 0, currentIndex := 0, didFrameTick := false
      woBufferIndex := 0 }
  motion := Motion.init
  writeout := .wait
  writeoutQ := WriteoutQueue.init
  log := { comparisons := none, calls := 0, selected := [], enqueued := [], transformed := [] }

/-! ### The steps -/

namespace State

/-- `sem_post`. -/
def post (s : State H β) (x : Sem) : State H β :=
  { s with sems := Function.update s.sems x (s.sems x + 1) }

/-- `if (sequence % n == 0) sem_post(&x)`. -/
def postEvery (s : State H β) (n : ℕ) (x : Sem) : State H β :=
  { s with sems := if s.sequence % n = 0 then (s.post x).sems else s.sems }

/-- The semaphore of a `sem_wait` that succeeds. -/
def take (s : State H β) (x : Sem) : State H β :=
  { s with sems := Function.update s.sems x (s.sems x - 1) }

def frameTo (s : State H β) (pc : FramePc) : State H β :=
  { s with frame := { s.frame with pc := pc } }

def processingTo (s : State H β) (pc : ProcPc) : State H β :=
  { s with processing := { s.processing with pc := pc } }

def writeoutTo (s : State H β) (pc : WriteoutPc) : State H β := { s with writeout := pc }

/-- `running = 0`, which is also the first statement of `error_exit`. -/
def stop (s : State H β) : State H β := { s with running := false }

variable [DecidableEq H]

def handlerTo (s : State H β) (h : H) (pc : SeqPc) : State H β :=
  { s with handler := Function.update s.handler h pc }

end State

/-- `sem_wait(&x)`, after which the thread goes on with `next`, or with `fail` if it returns
`-1`. -/
def semWait (s : State H β) (x : Sem) (rc : Rc) (next fail : State H β → State H β) :
    Option (State H β) :=
  if rc = .error then some (fail s) else if 0 < s.sems x then some (next (s.take x)) else none

/-- `if (i == n) i = 0`. -/
def wrapAt (n i : ℕ) : ℕ := if i = n then 0 else i

/-- One step of `frame`. At `profile` the frame is counted unless it is the first one or its time is
before that of the last one. -/
def stepFrame (camera : ℕ → β) (s : State H β) (rc : Rc) : Option (State H β) :=
  match s.frame.pc with
  | .test => some (s.frameTo (if s.running then .wait else .exited))
  | .wait => semWait s .framegrab rc (·.frameTo .dequeue) (·.stop.frameTo .exited)
  | .dequeue =>
    match rc with
    | .ok => some (s.frameTo .profile)
    | .eagain => some s
    | .error => some (s.stop.frameTo .exited)
  | .profile =>
    let n := if rc = .ok then s.frame.averageCount + 1 else s.frame.averageCount
    some { s with
      running := if n = profileIters then false else s.running
      frame := { s.frame with pc := .copy, averageCount := n } }
  | .copy =>
    some { s with
      scanBuffer := Function.update s.scanBuffer s.scanBufferIndex (camera s.frame.captured)
      frame := { s.frame with pc := .advance, captured := s.frame.captured + 1 } }
  | .advance => some { s.frameTo .wrap with scanBufferIndex := s.scanBufferIndex + 1 }
  | .wrap =>
    some { s.frameTo .requeue with scanBufferIndex := wrapAt scanBufSize s.scanBufferIndex }
  | .requeue => if rc = .error then some (s.stop.frameTo .exited) else some (s.frameTo .test)
  | .exited => none

/-- `while(did_frame_tick == 0)`, and behind it `while(running)`. -/
def loopPc (didFrameTick : Bool) : ProcPc := if didFrameTick then .test else .compare

/-- What a step of `enqueue_P` sends. -/
def sent (woBuffers : ℕ → β) : WriteoutQueue.Pc ℕ → Rc → List β
  | .send b, .ok => [woBuffers b]
  | _, _ => []

/-- The rest of the round after `is_motion`, up to the call of `enqueue_P`. -/
def afterMotion (s : State H β) (tick : Bool) (motion : Detector) : State H β :=
  let p := s.processing
  { s with
    motion := motion
    processing :=
      { pc := if tick then .call else loopPc tick
        lastBufferIndex := p.currentIndex
        currentIndex := wrapAt scanBufSize (p.currentIndex + 1)
        didFrameTick := tick
        woBufferIndex := if tick then p.woBufferIndex else wrapAt numWoBuf (p.woBufferIndex + 1) }
    log := { s.log with
      comparisons := s.log.comparisons.map (· + 1)
      selected := if tick then s.log.selected ++ [s.scanBuffer p.currentIndex]
        else s.log.selected } }

/-- One round of the inner loop of `processing`. -/
def compareStep (fc : β → β → ℕ) (s : State H β) : State H β :=
  let p := s.processing
  let changedPixels := fc (s.scanBuffer p.lastBufferIndex) (s.scanBuffer p.currentIndex)
  afterMotion s (isMotion changedPixels s.motion).1 (isMotion changedPixels s.motion).2

/-- One step of `processing`. -/
def stepProcessing (fc : β → β → ℕ) (s : State H β) (rc : Rc) : Option (State H β) :=
  let p := s.processing
  match p.pc with
  | .test => some (s.processingTo (if s.running then .wait else .exited))
  | .wait =>
    semWait s .processing rc
      (fun s => { s.processingTo .start with log := { s.log with comparisons := some 0 } })
      (·.stop.processingTo .exited)
  | .start =>
    some { s with
      processing := { p with
        pc := loopPc p.didFrameTick
        lastBufferIndex := s.scanBufferIndex
        currentIndex := wrapAt scanBufSize (s.scanBufferIndex + 1) } }
  | .compare => some (compareStep fc s)
  | .call =>
    (WriteoutQueue.step s.writeoutQ (.processing, .enqueueP (some p.woBufferIndex))).map fun q =>
      { s.processingTo .enqueue with
        writeoutQ := q
        log := { s.log with calls := s.log.calls + 1 } }
  | .enqueue =>
    match s.writeoutQ.pc .processing with
    | .idle ret =>
      if ret.rc = -1 then some (s.stop.processingTo .exited)
      else some { s with
        processing := { p with
          pc := loopPc p.didFrameTick
          woBufferIndex := wrapAt numWoBuf (p.woBufferIndex + 1) } }
    | pc =>
      (WriteoutQueue.step s.writeoutQ (.processing, .go rc)).map fun q =>
        { s with
          writeoutQ := q
          log := { s.log with enqueued := s.log.enqueued ++ sent s.woBuffers pc rc } }
  | .exited => none

/-- One step of `writeout`. -/
def stepWriteout (s : State H β) (rc : Rc) : Option (State H β) :=
  match s.writeout with
  | .wait => semWait s .writeout rc (·.writeoutTo .test) (·.stop.writeoutTo .exited)
  | .test =>
    if s.running then
      (WriteoutQueue.step s.writeoutQ (.writeout, .dequeueP)).map fun q =>
        { s.writeoutTo .dequeue with writeoutQ := q }
    else some (s.writeoutTo .exited)
  | .dequeue =>
    match s.writeoutQ.pc .writeout with
    | .idle (.received b) =>
      some { s.writeoutTo .test with
        log := { s.log with transformed := s.log.transformed ++ [s.woBuffers b] } }
    | .idle _ => some (s.stop.writeoutTo .exited)
    | _ =>
      (WriteoutQueue.step s.writeoutQ (.writeout, .go rc)).map fun q => { s with writeoutQ := q }
  | .exited => none

/-- Where the handler goes on after `shut x`. -/
def afterShut : Sem → SeqPc
  | .framegrab => .shut .processing
  | .processing => .shut .writeout
  | .writeout => .shut .teardown
  | .teardown => .idle

variable [DecidableEq H]

/-- One step of `sequencer`. `timer_settime` succeeds. -/
def stepSequencer (s : State H β) (h : H) : Option (State H β) :=
  match s.handler h with
  | .idle => none
  | .postWriteout => some ((s.post .writeout).handlerTo h .test)
  | .test => some (s.handlerTo h (if s.running then .postFramegrab else .disarm))
  | .postFramegrab => some ((s.postEvery 4 .framegrab).handlerTo h .postProcessing)
  | .postProcessing => some ((s.postEvery 10 .processing).handlerTo h .advance)
  | .advance => some ({ s with sequence := s.sequence + 1 }.handlerTo h .wrap)
  | .wrap => some ({ s with sequence := wrapAt 300 s.sequence }.handlerTo h .idle)
  | .disarm => some ({ s with timerArmed := false }.handlerTo h (.shut .framegrab))
  | .shut x => some ((s.post x).handlerTo h (afterShut x))

/-- The parties, the timer and the delivery of its signal. The turn of a thread carries what
`sem_wait`, the camera driver or the POSIX queue returns in it. -/
inductive Turn (H : Type*) where
  | ctrlC
  | expire
  | deliver (h : H)
  | sequencer (h : H)
  | frame (rc : Rc)
  | processing (rc : Rc)
  | writeout (rc : Rc)
  deriving DecidableEq, Repr

/-- One turn. -/
def step (fc : β → β → ℕ) (camera : ℕ → β) (s : State H β) : Turn H → Option (State H β)
  | .ctrlC => some s.stop
  | .expire => if s.timerArmed then some { s with pending := true } else none
  | .deliver h =>
    if s.pending ∧ s.handler h = .idle then
      some ({ s with pending := false }.handlerTo h .postWriteout)
    else none
  | .sequencer h => stepSequencer s h
  | .frame rc => stepFrame camera s rc
  | .processing rc => stepProcessing fc s rc
  | .writeout rc => stepWriteout s rc

/-! ### What a turn leaves alone -/

section Kept

variable {fc : β → β → ℕ} {camera : ℕ → β} {s s' : State H β} {a : Turn H} {x : Sem} {rc : Rc}
  {next fail : State H β → State H β} {h : H}

omit [DecidableEq H] in
theorem semWait_eq_some (hs : semWait s x rc next fail = some s') :
    rc = .error ∧ s' = fail s ∨ (rc ≠ .error ∧ 0 < s.sems x) ∧ s' = next (s.take x) := by
  unfold semWait at hs
  split_ifs at hs with herror hpos
  · cases hs
    exact .inl ⟨herror, rfl⟩
  · cases hs
    exact .inr ⟨⟨herror, hpos⟩, rfl⟩

theorem expire_eq_some (hs : step fc camera s .expire = some s') :
    s.timerArmed = true ∧ s' = { s with pending := true } := by
  simp only [step, Option.ite_none_right_eq_some] at hs
  exact ⟨hs.1, (Option.some.inj hs.2).symm⟩

theorem deliver_eq_some (hs : step fc camera s (.deliver h) = some s') :
    (s.pending = true ∧ s.handler h = .idle) ∧
      s' = { s with pending := false }.handlerTo h .postWriteout := by
  simp only [step, Option.ite_none_right_eq_some] at hs
  exact ⟨hs.1, (Option.some.inj hs.2).symm⟩

/-- What only the threads change. -/
structure KeptBySequencer (s s' : State H β) : Prop where
  running : s'.running = s.running
  woBuffers : s'.woBuffers = s.woBuffers
  frame : s'.frame = s.frame
  processing : s'.processing = s.processing
  writeout : s'.writeout = s.writeout
  writeoutQ : s'.writeoutQ = s.writeoutQ
  log : s'.log = s.log

theorem keptBySequencer (hs : stepSequencer s h = some s') : KeptBySequencer s s' := by
  unfold stepSequencer at hs
  split at hs <;> cases hs <;> exact ⟨rfl, rfl, rfl, rfl, rfl, rfl, rfl⟩

/-- What the frame thread leaves alone. -/
structure KeptByFrame (s s' : State H β) : Prop where
  woBuffers : s'.woBuffers = s.woBuffers
  processing : s'.processing = s.processing
  writeout : s'.writeout = s.writeout
  writeoutQ : s'.writeoutQ = s.writeoutQ
  log : s'.log = s.log
  handler : s'.handler = s.handler
  timerArmed : s'.timerArmed = s.timerArmed
  running : s'.running = true → s.running = true

omit [DecidableEq H] in
theorem keptByFrame (hs : stepFrame camera s rc = some s') : KeptByFrame s s' := by
  cases hpc : s.frame.pc <;> simp only [stepFrame, hpc] at hs
  case wait =>
    rcases semWait_eq_some hs with ⟨-, rfl⟩ | ⟨-, rfl⟩
    · exact ⟨rfl, rfl, rfl, rfl, rfl, rfl, rfl, by rintro ⟨⟩⟩
    · exact ⟨rfl, rfl, rfl, rfl, rfl, rfl, rfl, id⟩
  case dequeue =>
    split at hs <;> cases hs
    · exact ⟨rfl, rfl, rfl, rfl, rfl, rfl, rfl, id⟩
    · exact ⟨rfl, rfl, rfl, rfl, rfl, rfl, rfl, id⟩
    · exact ⟨rfl, rfl, rfl, rfl, rfl, rfl, rfl, by rintro ⟨⟩⟩
  case profile =>
    cases hs
    refine ⟨rfl, rfl, rfl, rfl, rfl, rfl, rfl, fun hrunning => ?_⟩
    split_ifs at hrunning <;> exact hrunning
  case requeue =>
    split_ifs at hs <;> cases hs
    · exact ⟨rfl, rfl, rfl, rfl, rfl, rfl, rfl, by rintro ⟨⟩⟩
    · exact ⟨rfl, rfl, rfl, rfl, rfl, rfl, rfl, id⟩
  all_goals cases hs
  all_goals exact ⟨rfl, rfl, rfl, rfl, rfl, rfl, rfl, id⟩

/-- What the processing thread leaves alone. -/
structure KeptByProcessing (s s' : State H β) : Prop where
  woBuffers : s'.woBuffers = s.woBuffers
  frame : s'.frame = s.frame
  writeout : s'.writeout = s.writeout
  pc : s'.writeoutQ.pc .writeout = s.writeoutQ.pc .writeout
  transformed : s'.log.transformed = s.log.transformed
  handler : s'.handler = s.handler
  timerArmed : s'.timerArmed = s.timerArmed
  running : s'.running = true → s.running = true

omit [DecidableEq H] in
theorem keptByProcessing (hs : stepProcessing fc s rc = some s') : KeptByProcessing s s' := by
  have hne : Caller.writeout ≠ Caller.processing := by decide
  cases hpc : s.processing.pc <;> simp only [stepProcessing, hpc] at hs
  case wait =>
    rcases semWait_eq_some hs with ⟨-, rfl⟩ | ⟨-, rfl⟩
    · exact ⟨rfl, rfl, rfl, rfl, rfl, rfl, rfl, by rintro ⟨⟩⟩
    · exact ⟨rfl, rfl, rfl, rfl, rfl, rfl, rfl, id⟩
  case call =>
    obtain ⟨q, hq, rfl⟩ := Option.map_eq_some_iff.1 hs
    exact ⟨rfl, rfl, rfl, WriteoutQueue.step_pc_ne hne hq, rfl, rfl, rfl, id⟩
  case enqueue =>
    split at hs
    · split_ifs at hs <;> cases hs
      · exact ⟨rfl, rfl, rfl, rfl, rfl, rfl, rfl, by rintro ⟨⟩⟩
      · exact ⟨rfl, rfl, rfl, rfl, rfl, rfl, rfl, id⟩
    · obtain ⟨q, hq, rfl⟩ := Option.map_eq_some_iff.1 hs
      exact ⟨rfl, rfl, rfl, WriteoutQueue.step_pc_ne hne hq, rfl, rfl, rfl, id⟩
  all_goals cases hs
  all_goals exact ⟨rfl, rfl, rfl, rfl, rfl, rfl, rfl, id⟩

/-- What the writeout thread leaves alone. -/
structure KeptByWriteout (s s' : State H β) : Prop where
  woBuffers : s'.woBuffers = s.woBuffers
  frame : s'.frame = s.frame
  processing : s'.processing = s.processing
  pc : s'.writeoutQ.pc .processing = s.writeoutQ.pc .processing
  log : s'.log = { s.log with transformed := s'.log.transformed }
  handler : s'.handler = s.handler
  timerArmed : s'.timerArmed = s.timerArmed
  running : s'.running = true → s.running = true

omit [DecidableEq H] in
theorem keptByWriteout (hs : stepWriteout s rc = some s') : KeptByWriteout s s' := by
  have hne : Caller.processing ≠ Caller.writeout := by decide
  cases hpc : s.writeout <;> simp only [stepWriteout, hpc] at hs
  case wait =>
    rcases semWait_eq_some hs with ⟨-, rfl⟩ | ⟨-, rfl⟩
    · exact ⟨rfl, rfl, rfl, rfl, rfl, rfl, rfl, by rintro ⟨⟩⟩
    · exact ⟨rfl, rfl, rfl, rfl, rfl, rfl, rfl, id⟩
  case test =>
    split_ifs at hs
    · obtain ⟨q, hq, rfl⟩ := Option.map_eq_some_iff.1 hs
      exact ⟨rfl, rfl, rfl, WriteoutQueue.step_pc_ne hne hq, rfl, rfl, rfl, id⟩
    · cases hs
      exact ⟨rfl, rfl, rfl, rfl, rfl, rfl, rfl, id⟩
  case dequeue =>
    split at hs
    · cases hs
      exact ⟨rfl, rfl, rfl, rfl, rfl, rfl, rfl, id⟩
    · cases hs
      exact ⟨rfl, rfl, rfl, rfl, rfl, rfl, rfl, by rintro ⟨⟩⟩
    · obtain ⟨q, hq, rfl⟩ := Option.map_eq_some_iff.1 hs
      exact ⟨rfl, rfl, rfl, WriteoutQueue.step_pc_ne hne hq, rfl, rfl, rfl, id⟩
  case exited => cases hs

/-- **`running` is never set again.** -/
theorem running_of_step (hs : step fc camera s a = some s') (hrunning : s'.running = true) :
    s.running = true := by
  cases a with
  | ctrlC =>
    cases hs
    exact absurd hrunning Bool.false_ne_true
  | expire =>
    obtain ⟨-, rfl⟩ := expire_eq_some hs
    exact hrunning
  | deliver i =>
    obtain ⟨-, rfl⟩ := deliver_eq_some hs
    exact hrunning
  | sequencer i => rwa [(keptBySequencer hs).running] at hrunning
  | frame rc => exact (keptByFrame hs).running hrunning
  | processing rc => exact (keptByProcessing hs).running hrunning
  | writeout rc => exact (keptByWriteout hs).running hrunning

end Kept

/-! ### Other contents of the buffers -/

section Map

variable {γ : Type*} {g : β → γ} {fc : γ → γ → ℕ} {camera : ℕ → β} {s s' : State H β} {a : Turn H}
  {x : Sem} {rc : Rc}

/-- The same state with other contents in the buffers. -/
def State.map (g : β → γ) (s : State H β) : State H γ :=
  { s with
    scanBuffer := g ∘ s.scanBuffer
    woBuffers := g ∘ s.woBuffers
    log := { s.log with
      selected := s.log.selected.map g
      enqueued := s.log.enqueued.map g
      transformed := s.log.transformed.map g } }

omit [DecidableEq H] in
theorem map_semWait {next fail : State H β → State H β} {next' fail' : State H γ → State H γ}
    (hnext : ∀ s, next' (s.map g) = (next s).map g) (hfail : ∀ s, fail' (s.map g) = (fail s).map g)
    (hs : semWait s x rc next fail = some s') :
    semWait (s.map g) x rc next' fail' = some (s'.map g) := by
  unfold semWait at hs ⊢
  split_ifs at hs with herror hpos
  · cases hs
    rw [if_pos herror, hfail]
  · cases hs
    rw [← hnext]
    exact (if_neg herror).trans (if_pos hpos)

omit [DecidableEq H] in
theorem map_sent (woBuffers : ℕ → β) (pc : WriteoutQueue.Pc ℕ) :
    sent (g ∘ woBuffers) pc rc = (sent woBuffers pc rc).map g := by
  unfold sent
  split <;> rfl

omit [DecidableEq H] in
theorem map_afterMotion (s : State H β) (tick : Bool) (motion : Detector) :
    afterMotion (s.map g) tick motion = (afterMotion s tick motion).map g := by
  cases tick <;> simp [afterMotion, State.map]

omit [DecidableEq H] in
theorem map_compareStep (s : State H β) :
    compareStep fc (s.map g) = (compareStep (fun x y => fc (g x) (g y)) s).map g :=
  map_afterMotion s _ _

omit [DecidableEq H] in
theorem map_stepFrame (hs : stepFrame camera s rc = some s') :
    stepFrame (g ∘ camera) (s.map g) rc = some (s'.map g) := by
  have hpc' : (s.map g).frame.pc = s.frame.pc := rfl
  cases hpc : s.frame.pc <;> simp only [stepFrame, hpc', hpc] at hs ⊢
  case wait => exact map_semWait (fun _ => rfl) (fun _ => rfl) hs
  case copy =>
    cases hs
    simp only [State.map, Function.comp_update]
    rfl
  case dequeue => split at hs <;> cases hs <;> rfl
  case requeue => split_ifs at hs ⊢ <;> cases hs <;> rfl
  all_goals cases hs
  all_goals rfl

omit [DecidableEq H] in
theorem map_stepProcessing (hs : stepProcessing (fun x y => fc (g x) (g y)) s rc = some s') :
    stepProcessing fc (s.map g) rc = some (s'.map g) := by
  have hpc' : (s.map g).processing.pc = s.processing.pc := rfl
  have hq' : (s.map g).writeoutQ = s.writeoutQ := rfl
  cases hpc : s.processing.pc <;> simp only [stepProcessing, hpc', hpc] at hs ⊢
  case wait => exact map_semWait (fun _ => rfl) (fun _ => rfl) hs
  case compare =>
    cases hs
    rw [map_compareStep]
  case call =>
    obtain ⟨q, hq, rfl⟩ := Option.map_eq_some_iff.1 hs
    exact Option.map_eq_some_iff.2 ⟨q, hq, rfl⟩
  case enqueue =>
    rw [hq']
    split at hs
    · split_ifs at hs ⊢ <;> cases hs <;> rfl
    · obtain ⟨q, hq, rfl⟩ := Option.map_eq_some_iff.1 hs
      refine Option.map_eq_some_iff.2 ⟨q, hq, ?_⟩
      simp only [State.map, map_sent, List.map_append]
  all_goals cases hs
  all_goals rfl

omit [DecidableEq H] in
theorem map_stepWriteout (hs : stepWriteout s rc = some s') :
    stepWriteout (s.map g) rc = some (s'.map g) := by
  have hpc' : (s.map g).writeout = s.writeout := rfl
  have hq' : (s.map g).writeoutQ = s.writeoutQ := rfl
  cases hpc : s.writeout <;> simp only [stepWriteout, hpc', hq', hpc] at hs ⊢
  case wait => exact map_semWait (fun _ => rfl) (fun _ => rfl) hs
  case test =>
    split_ifs at hs with hrun
    · obtain ⟨q, hq, rfl⟩ := Option.map_eq_some_iff.1 hs
      exact (if_pos hrun).trans (Option.map_eq_some_iff.2 ⟨q, hq, rfl⟩)
    · cases hs
      exact if_neg hrun
  case dequeue =>
    split at hs
    · cases hs
      simp only [State.map, State.writeoutTo, List.map_append]
      rfl
    · cases hs
      rfl
    · obtain ⟨q, hq, rfl⟩ := Option.map_eq_some_iff.1 hs
      exact Option.map_eq_some_iff.2 ⟨q, hq, rfl⟩
  case exited => cases hs

theorem map_stepSequencer {h : H} (hs : stepSequencer s h = some s') :
    stepSequencer (s.map g) h = some (s'.map g) := by
  have hpc' : (s.map g).handler = s.handler := rfl
  cases hpc : s.handler h <;> simp only [stepSequencer, hpc', hpc] at hs ⊢ <;> cases hs <;> rfl

/-- **The contents of the buffers only matter to `frame_changes`.** -/
theorem map_step (hs : step (fun x y => fc (g x) (g y)) camera s a = some s') :
    step fc (g ∘ camera) (s.map g) a = some (s'.map g) := by
  cases a with
  | ctrlC =>
    cases hs
    rfl
  | expire =>
    obtain ⟨harmed, rfl⟩ := expire_eq_some hs
    exact if_pos harmed
  | deliver h =>
    obtain ⟨hpending, rfl⟩ := deliver_eq_some hs
    exact if_pos hpending
  | sequencer h => exact map_stepSequencer hs
  | frame rc => exact map_stepFrame hs
  | processing rc => exact map_stepProcessing hs
  | writeout rc => exact map_stepWriteout hs

end Map

/-- A frame that is all dark or all bright. -/
def shade (bright : Bool) : Image := fun _ => if bright then 255#8 else 0#8

/-- `frame_changes` on such frames. -/
def shadeChanges (x y : Bool) : ℕ := if x = y then 0 else frameSize

theorem frameChanges_shade (x y : Bool) : frameChanges (shade x) (shade y) = shadeChanges x y := by
  unfold shade
  rw [frameChanges_const]
  cases x <;> cases y <;> rfl

theorem reach_shade {ok : State H Bool → Turn H → Prop} {okImage : State H Image → Turn H → Prop}
    {camera : ℕ → Bool} {s₀ s : State H Bool} (hok : ∀ {s a}, ok s a → okImage (s.map shade) a)
    (hs : Reach (step shadeChanges camera) ok s₀ s) :
    Reach (step frameChanges (shade ∘ camera)) okImage (s₀.map shade) (s.map shade) := by
  have hfc : (fun x y => frameChanges (shade x) (shade y)) = shadeChanges := by
    funext x y
    exact frameChanges_shade x y
  rw [← hfc] at hs
  exact hs.map (State.map shade) map_step hok

/-- The timer expires, and a thread handles its signal while `running` is set. -/
def signalTurns : List (Turn Unit) := .expire :: .deliver () :: List.replicate 6 (.sequencer ())

/-- The processing thread takes the next `n` steps, and nothing fails. -/
def processingTurns (n : ℕ) : List (Turn Unit) := List.replicate n (.processing .ok)

/-- The frame thread takes the next `n` steps, and nothing fails. -/
def frameTurns (n : ℕ) : List (Turn Unit) := List.replicate n (.frame .ok)

end Ecen5623.Capture.System
