import Ecen5623.Library.Transition
import Mathlib.Data.Fintype.Basic

/-! # From the barrier to the last `free`

What the threads of `simple-capture` have to do with the lifetimes of the buffers. Each worker
allocates its buffers, waits at the barrier for `main` and the other workers, and works as long as
`running` is set; one whose allocation has failed waits at the barrier too, and clears `running` and
returns after it. When the run is over `main` joins the workers in turn, each for five seconds, and
then frees what belongs to those that it has joined.

Only live buffers are used in the runs in which no allocation fails, no join times out and the frame
thread does not clean up by itself (`lifetimes`). All three are needed: the workers that got through
begin before a failed one has cleared `running`, `main` frees the buffers of a worker it has joined
while one that it has not joined still uses them, and the frame thread frees what the writeout
thread may be using. The mapped buffers of the camera are those of `CameraInit`. -/

namespace Ecen5623.Capture.Lifetime

open Ecen5623.Library

/-- The threads besides `main`. -/
inductive Worker where
  | frame
  | processing
  | writeout
  deriving DecidableEq, Repr

/-- `wo_buffer` with `sharpen_buffer`, `scan_buffer` and `wo_buffers`. -/
inductive Buffer where
  | other
  | scan
  | wo
  deriving DecidableEq, Repr

/-- Whose start allocates the buffer, and whose join lets `main` free it. -/
def Buffer.owner : Buffer → Worker
  | .other => .frame
  | .scan => .processing
  | .wo => .writeout

/-- The buffers that the loop of a worker reads or writes. -/
def Worker.uses : Worker → List Buffer
  | .frame => [.scan]
  | .processing => [.scan]
  | .writeout => [.wo, .other]

inductive Life where
  | absent
  | live
  | freed
  deriving DecidableEq, Repr

/-- Where a worker is; `waiting` and `go` are before and after the barrier, and carry whether the
allocation has succeeded. -/
inductive Phase where
  | starting
  | waiting (ok : Bool)
  | go (ok : Bool)
  | body
  | returned
  deriving DecidableEq, Repr

/-- Where `main` is: before the barrier, waiting at it, waiting for `sem_teardown`, at one of the
joins, or freeing what belongs to one of the workers. -/
inductive Main where
  | creating
  | waiting
  | teardown
  | joining (w : Worker)
  | freeing (w : Worker)
  | finished
  deriving DecidableEq, Repr

structure State where
  main : Main
  phase : Worker → Phase
  life : Buffer → Life
  joined : Worker → Bool
  running : Bool

def init : State where
  main := .creating
  phase _ := .starting
  life _ := .absent
  joined _ := false
  running := true

/-- Turns of `main`, with what the join returns, and of the workers; `stop` is a turn in which the
loop of a worker clears `running` and returns, and `ctrlC` one of a signal handler. In `cleanup` the
`sem_wait` of the frame thread has failed with another error than `EINTR`. -/
inductive Action where
  | main (timeout : Bool)
  | allocate (w : Worker) (ok : Bool)
  | worker (w : Worker)
  | stop (w : Worker)
  | cleanup
  | ctrlC
  deriving DecidableEq, Repr

/-- All four parties have called `pthread_barrier_wait`. -/
def Open (s : State) : Prop := s.main ≠ .creating ∧ ∀ w, s.phase w ≠ .starting

instance : Fintype Worker := ⟨{.frame, .processing, .writeout}, fun w => by cases w <;> decide⟩

instance (s : State) : Decidable (Open s) := inferInstanceAs (Decidable (_ ∧ _))

/-- The worker goes on to `p`. -/
def State.goto (s : State) (w : Worker) (p : Phase) : State :=
  { s with phase := Function.update s.phase w p }

/-- The buffers of a worker come to another stage of their life. -/
def State.set (s : State) (w : Worker) (l : Life) : State :=
  { s with life := fun b => if b.owner = w then l else s.life b }

/-- After the join of `w`, and after freeing what belongs to it. -/
def next : Worker → Option Worker
  | .frame => some .processing
  | .processing => some .writeout
  | .writeout => none

/-- A turn of `main`. -/
def mainStep (timeout : Bool) (s : State) : Option State :=
  match s.main with
  | .creating => some { s with main := .waiting }
  | .waiting => if Open s then some { s with main := .teardown } else none
  | .teardown => if s.running then none else some { s with main := .joining .frame }
  | .joining w =>
    let after := ((next w).map Main.joining).getD (.freeing .frame)
    if s.phase w = .returned then
      if timeout then none
      else some { s with main := after, joined := Function.update s.joined w true }
    else if timeout then some { s with main := after }
    else none
  | .freeing w =>
    let after := ((next w).map Main.freeing).getD .finished
    if s.joined w then some { s.set w .freed with main := after }
    else some { s with main := after }
  | .finished => none

/-- A turn of a worker that has allocated its buffers. -/
def workerStep (s : State) (w : Worker) : Option State :=
  match s.phase w with
  | .starting => none
  | .waiting ok => if Open s then some (s.goto w (.go ok)) else none
  | .go true => some (s.goto w (if s.running then .body else .returned))
  | .go false => some { s.goto w .returned with running := false }
  | .body => some (s.goto w (.go true))
  | .returned => none

def step (s : State) : Action → Option State
  | .main timeout => mainStep timeout s
  | .allocate w ok =>
    if s.phase w = .starting then
      some ((if ok then s.set w .live else s).goto w (.waiting ok))
    else none
  | .worker w => workerStep s w
  | .stop w => if s.phase w = .body then some { s.goto w .returned with running := false } else none
  | .cleanup =>
    if s.phase .frame = .body then
      some { (s.set .frame .freed).goto .frame .returned with running := false }
    else none
  | .ctrlC => some { s with running := false }

/-- **No worker uses a buffer that is not there**, or not any more. -/
def Live (s : State) : Prop := ∀ w, s.phase w = .body → ∀ b ∈ w.uses, s.life b = .live

/-- No allocation fails. -/
def Allocated (_ : State) : Action → Prop
  | .allocate _ ok => ok = true
  | _ => True

/-- No join times out. -/
def InTime (_ : State) : Action → Prop
  | .main timeout => timeout = false
  | _ => True

/-- The frame thread does not clean up by itself. -/
def Signalled (_ : State) : Action → Prop
  | .cleanup => False
  | _ => True

/-- None of the three goes wrong. -/
def Regular (s : State) (a : Action) : Prop := Allocated s a ∧ InTime s a ∧ Signalled s a

instance (s : State) (a : Action) : Decidable (Allocated s a) := by
  cases a <;> unfold Allocated <;> infer_instance

instance (s : State) (a : Action) : Decidable (InTime s a) := by
  cases a <;> unfold InTime <;> infer_instance

instance (s : State) (a : Action) : Decidable (Signalled s a) := by
  cases a <;> unfold Signalled <;> infer_instance

/-! ### Regular runs -/

/-- `main` is past the join of `w`. -/
def Main.past : Main → Worker → Bool
  | .joining .processing, .frame => true
  | .joining .writeout, .frame => true
  | .joining .writeout, .processing => true
  | .freeing _, _ => true
  | .finished, _ => true
  | _, _ => false

/-- The worker is past the barrier. -/
def Phase.past : Phase → Bool
  | .starting => false
  | .waiting _ => false
  | _ => true

structure Inv (s : State) : Prop where
  ok : ∀ w, s.phase w ≠ .waiting false ∧ s.phase w ≠ .go false
  past : ∀ w, (s.phase w).past = true → Open s
  joined : ∀ w, s.main.past w = true → s.phase w = .returned
  live : ∀ b, s.phase b.owner ≠ .starting → (∀ w, s.main.past w = true) ∨ s.life b = .live

variable {s s' : State} {w : Worker}

theorem Inv.allLive (h : Inv s) : Live s := by
  intro w hw b _
  have hopen := h.past w (by rw [hw]; rfl)
  refine (h.live b (hopen.2 b.owner)).resolve_left fun hall => ?_
  have := h.joined w (hall w)
  rw [hw] at this
  cases this

theorem inv_init : Inv init where
  ok w := ⟨nofun, nofun⟩
  past w h := by cases h
  joined w h := by cases w <;> cases h
  live b h := absurd rfl h

theorem Inv.goto (h : Inv s) {p : Phase} (hw : s.phase w ≠ .starting)
    (hret : s.phase w ≠ .returned) (hp : p ≠ .starting ∧ p ≠ .waiting false ∧ p ≠ .go false)
    (hopen : p.past = true → Open s) : Inv (s.goto w p) := by
  have hother : ∀ w', w' ≠ w → (s.goto w p).phase w' = s.phase w' := fun w' hne =>
    Function.update_of_ne hne ..
  have hself : (s.goto w p).phase w = p := Function.update_self ..
  have hopen' : Open s → Open (s.goto w p) := fun ho => ⟨ho.1, fun w' => by
    by_cases hne : w' = w
    · subst hne
      rw [hself]
      exact hp.1
    · rw [hother w' hne]
      exact ho.2 w'⟩
  refine ⟨fun w' => ?_, fun w' hpast => hopen' ?_, fun w' hpast => ?_, fun b hb => ?_⟩
  · by_cases hne : w' = w
    · subst hne
      rw [hself]
      exact hp.2
    · rw [hother w' hne]
      exact h.ok w'
  · by_cases hne : w' = w
    · subst hne
      rw [hself] at hpast
      exact hopen hpast
    · rw [hother w' hne] at hpast
      exact h.past w' hpast
  · by_cases hne : w' = w
    · subst hne
      exact absurd (h.joined w' hpast) hret
    · rw [hother w' hne]
      exact h.joined w' hpast
  · refine h.live b fun hb' => hb ?_
    by_cases hne : b.owner = w
    · exact absurd (hne ▸ hb') hw
    · rw [hother _ hne]
      exact hb'

theorem inv_allocate (h : Inv s) (hw : s.phase w = .starting) :
    Inv ((s.set w .live).goto w (.waiting true)) := by
  have hclosed : ¬ Open s := fun ho => ho.2 w hw
  have hphase : ∀ w', ((s.set w .live).goto w (.waiting true)).phase w' =
      if w' = w then .waiting true else s.phase w' := fun w' => Function.update_apply ..
  refine ⟨fun w' => ?_, fun w' hpast => absurd ?_ hclosed, fun w' hpast => ?_, fun b hb => ?_⟩
  · rw [hphase]
    split_ifs
    · exact ⟨by simp, by simp⟩
    · exact h.ok w'
  · rw [hphase] at hpast
    split_ifs at hpast
    · cases hpast
    · exact h.past w' hpast
  · have hret := h.joined w' hpast
    rw [hphase]
    split_ifs with hne
    · rw [hne, hw] at hret
      cases hret
    · exact hret
  · rw [hphase] at hb
    by_cases hne : b.owner = w
    · exact .inr (if_pos hne)
    · rw [if_neg hne] at hb
      refine (h.live b hb).imp_right fun hl => ?_
      exact (if_neg hne).trans hl

theorem inv_worker (h : Inv s) (hs : workerStep s w = some s') : Inv s' := by
  unfold workerStep at hs
  split at hs <;> rename_i hw
  · cases hs
  · next ok =>
    obtain rfl : ok = true := by
      cases ok
      · exact absurd hw (h.ok w).1
      · rfl
    split_ifs at hs with hopen
    cases hs
    exact h.goto (by simp [hw]) (by simp [hw]) (by simp) fun _ => hopen
  · cases hs
    exact h.goto (by simp [hw]) (by simp [hw]) (by split_ifs <;> simp) fun _ =>
      h.past w (by rw [hw]; rfl)
  · exact absurd hw (h.ok w).2
  · cases hs
    exact h.goto (by simp [hw]) (by simp [hw]) (by simp) fun _ => h.past w (by rw [hw]; rfl)
  · cases hs

theorem Inv.advance (h : Inv s) {m : Main} (hm : m ≠ .creating)
    (hpast : ∀ w, m.past w = true → s.phase w = .returned)
    (hmono : ∀ w, s.main.past w = true → m.past w = true) (joined : Worker → Bool) :
    Inv { s with main := m, joined := joined } where
  ok := h.ok
  past w hw := ⟨hm, (h.past w hw).2⟩
  joined := hpast
  live b hb := (h.live b hb).imp_left fun hall w => hmono w (hall w)

/-- `main` is not past a join. -/
def Main.Early (m : Main) : Prop :=
  m = .creating ∨ m = .waiting ∨ m = .teardown ∨ m = .joining .frame

theorem Main.Early.past {m : Main} (h : m.Early) (w : Worker) : m.past w = false := by
  rcases h with rfl | rfl | rfl | rfl <;> cases w <;> rfl

theorem Inv.early (h : Inv s) {m : Main} (hm : m ≠ .creating) (hs : s.main.Early) (hm' : m.Early) :
    Inv { s with main := m } :=
  h.advance hm (fun w hw => by rw [hm'.past w] at hw; cases hw)
    (fun w hw => by rw [hs.past w] at hw; cases hw) s.joined

theorem inv_main (h : Inv s) (hs : mainStep false s = some s') : Inv s' := by
  unfold mainStep at hs
  split at hs <;> rename_i hm
  · cases hs
    exact h.early (m := .waiting) nofun (.inl hm) (.inr (.inl rfl))
  · split_ifs at hs
    cases hs
    exact h.early (m := .teardown) nofun (.inr (.inl hm)) (.inr (.inr (.inl rfl)))
  · split_ifs at hs
    cases hs
    exact h.early (m := .joining .frame) nofun (.inr (.inr (.inl hm))) (.inr (.inr (.inr rfl)))
  · next w =>
    simp only [Bool.false_eq_true, if_false, Option.ite_none_right_eq_some] at hs
    obtain ⟨hret, hs⟩ := hs
    cases hs
    have hjoined := h.joined
    rw [hm] at hjoined
    refine h.advance (by cases w <;> simp [next]) (fun w' hw' => ?_) (fun w' hw' => ?_) _
    · by_cases hne : w' = w
      · exact hne ▸ hret
      · refine hjoined w' ?_
        cases w <;> cases w' <;> first | rfl | exact absurd rfl hne | cases hw'
    · rw [hm] at hw'
      cases w <;> cases w' <;> first | rfl | cases hw'
  · next w =>
    have hall : ∀ w', s.phase w' = .returned := fun w' => h.joined w' (by rw [hm]; rfl)
    have hnext : ∀ w', (((next w).map Main.freeing).getD .finished).past w' = true := fun w' => by
      cases w <;> rfl
    dsimp only at hs
    split_ifs at hs
    · cases hs
      refine ⟨h.ok, fun w' hw' => ⟨by cases w <;> simp [next], (h.past w' hw').2⟩,
        fun w' _ => hall w', fun b _ => .inl hnext⟩
    · cases hs
      exact h.advance (by cases w <;> simp [next]) (fun w' _ => hall w') (fun w' _ => hnext w') _
  · cases hs

theorem inv_step (h : Inv s) {a : Action} (hok : Regular s a) (hs : step s a = some s') :
    Inv s' := by
  obtain ⟨hallocated, hinTime, hsignalled⟩ := hok
  cases a with
  | allocate w ok =>
    obtain rfl : ok = true := hallocated
    simp only [step] at hs
    split_ifs at hs with hw
    cases hs
    exact inv_allocate h hw
  | worker w => exact inv_worker h hs
  | stop w =>
    simp only [step] at hs
    split_ifs at hs with hw
    cases hs
    have h' := h.goto (w := w) (p := .returned) (by simp [hw]) (by simp [hw]) (by simp) fun _ =>
      h.past w (by rw [hw]; rfl)
    exact ⟨h'.ok, h'.past, h'.joined, h'.live⟩
  | cleanup => exact absurd hsignalled id
  | ctrlC =>
    cases hs
    exact ⟨h.ok, h.past, h.joined, h.live⟩
  | main timeout =>
    obtain rfl : timeout = false := hinTime
    exact inv_main h hs

theorem inv_reach (h : Reach step Regular init s) : Inv s :=
  h.invariant inv_init fun h hok hs => inv_step h hok hs

/-! ### Irregular runs -/

/-- The three allocations and the barrier. -/
def toBarrier : List Action :=
  [.allocate .frame true, .allocate .processing true, .allocate .writeout true, .main false,
    .worker .frame, .worker .processing, .worker .writeout, .main false]

/-- `scan_buffer` is not there, but the frame thread begins. -/
def toAbsent : List Action :=
  [.allocate .frame true, .allocate .processing false, .allocate .writeout true, .main false,
    .worker .frame, .worker .frame]

/-- The frame thread still works when `main` gives up waiting for it; the processing thread has
returned, and its buffers are freed. -/
def toFreed : List Action :=
  toBarrier ++ [.worker .frame, .worker .processing, .stop .processing, .worker .writeout,
    .main false, .main true, .main false, .main false, .main false, .main false]

/-- The writeout thread works when the `sem_wait` of the frame thread fails. -/
def toCleanup : List Action :=
  toBarrier ++ [.worker .frame, .worker .writeout, .cleanup]

theorem not_live_of_life {b : Buffer} (h : s.phase w = .body) (hb : b ∈ w.uses)
    (hl : s.life b ≠ .live) : ¬ Live s := fun hlive => hl (hlive w h b hb)

end Ecen5623.Capture.Lifetime
