import Ecen5623.Pipeline.Provided

/-! # Who is stranded at the end of `exam2`

While a thread waits for a semaphore that is provided, somebody else can take a step that brings the
post nearer (`exists_forward`), so that no thread is stranded in the runs that `Prepared` allows
(`not_stranded_of_prepared`). Where something that a thread is going to wait for is not provided,
the thread comes to wait for it and nobody posts it (`never_stranded_iff`). -/

namespace Ecen5623.Pipeline.Stranding

open Ecen5623.Library Ecen5623.Pipeline.Channel Ecen5623.Pipeline.Shutdown
open Ecen5623.Pipeline.Provided
open Ecen5623.Pipeline.Threads (Party S1Pc W1Pc W1 W2Pc W2 SeqPc afterEnqueueS1 afterDequeueW1
  afterEnqueueW1 afterDequeueW2 stepS1 stepW1 stepW2 stepSequencer)
open Ecen5623.Pipeline.Conservation (enqueueS1 enqueueW1)

variable {sizeofPtr : ℕ} {s s' : State} {t t' : Threads.State} {a : Turn} {b₁ b₂ : ℤ} {x : Sem}

/-! ### The runs -/

/-- Once `ctrl_c` has finished, every semaphore that a thread is going to wait for is provided. -/
structure Inv (sizeofPtr : ℕ) (s : State) : Prop where
  room : Room sizeofPtr s.threads
  running : s.ctrlC = .finished → s.threads.running = false
  provided : s.ctrlC = .finished → ∀ x, WillWait s.threads x → Provided s.threads x

theorem finished_of_step (hfinished : s'.ctrlC = .finished) (h : step sizeofPtr s a = some s') :
    s.ctrlC = .finished ∨ a = .ctrlC ∧ s.ctrlC = .clear ∧
      s' = { s with threads := { s.threads with running := false }, ctrlC := .finished } := by
  cases a with
  | party p =>
    obtain ⟨t, -, rfl⟩ := Option.map_eq_some_iff.1 h
    exact .inl hfinished
  | fail p get =>
    obtain ⟨t, -, rfl⟩ := Option.map_eq_some_iff.1 h
    exact .inl hfinished
  | giveUp p =>
    obtain ⟨-, t, -, rfl⟩ := giveUp_eq_some h
    exact .inl hfinished
  | ctrlC =>
    cases hpc : s.ctrlC <;> simp only [step, stepCtrlC, hpc, Option.some.injEq, reduceCtorEq] at h
    case clear =>
      subst h
      exact .inr ⟨rfl, rfl, rfl⟩
    all_goals
      subst h
      cases hfinished

theorem inv_init : Inv sizeofPtr (init b₁ b₂) where
  room := room_init
  running := nofun
  provided := nofun

theorem inv_step (hs : Inv sizeofPtr s) (hok : Prepared s a) (h : step sizeofPtr s a = some s') :
    Inv sizeofPtr s' := by
  have hroom := room_step hs.room h
  by_cases hfinished' : s'.ctrlC = .finished
  · rcases finished_of_step hfinished' h with hfinished | ⟨rfl, hclear, rfl⟩
    · have hprovided := hs.provided hfinished
      obtain ⟨hkeeps, hrunning⟩ := keeps_step hs.room (hs.running hfinished) hfinished hok h
      refine ⟨hroom, fun _ => hrunning, fun _ x hx => ?_⟩
      obtain ⟨hwill, hkeep⟩ := hkeeps x hx
      exact hkeep (hprovided x hwill)
    · -- `ctrl_c` has just cleared `running`
      refine ⟨hroom, fun _ => rfl, fun _ x hx => ?_⟩
      have hwill : WillWait s.threads x := by cases x <;> exact hx
      refine (hok hclear x hwill).imp (fun hpos => ?_) fun hpost => ?_
      · cases x <;> exact hpos
      · cases x <;> exact hpost
  · exact ⟨hroom, fun hfinished => absurd hfinished hfinished',
      fun hfinished => absurd hfinished hfinished'⟩

/-! ### What is about to be posted is posted -/

def rankW1 : W1Pc → ℕ
  | .wait => 12
  | .dequeue false pc => 8 + rankDequeue pc
  | .dequeue true pc => 5 + rankDequeue pc
  | .enqueue pc => 1 + rankEnqueue pc
  | .post => 1
  | _ => 0

def rankW2 : W2Pc → ℕ
  | .wait => 5
  | .dequeue pc => 1 + rankDequeue pc
  | .post => 1
  | _ => 0

def rankSequencer : SeqPc → ℕ
  | .postS1 => 4
  | .postW1 => 3
  | .postW2 => 2
  | .advance => 1
  | .idle => 0

/-- The steps that `W1`, `W2` and the handler have left in their rounds. -/
def rank (t : Threads.State) : ℕ :=
  rankW1 t.w1.pc + rankW2 t.w2.pc + rankSequencer t.sequencer.pc

/-- One of them can take a step. -/
def Forward (sizeofPtr : ℕ) (t : Threads.State) : Prop :=
  ∃ p t', Threads.step sizeofPtr t p = some t' ∧ rank t' < rank t

theorem forward_sequencer (h : t.sequencer.pc ≠ .idle) : Forward sizeofPtr t := by
  refine ⟨.sequencer, stepSequencer t, rfl, ?_⟩
  unfold stepSequencer
  cases hpc : t.sequencer.pc <;> simp [rank, rankSequencer, hpc] at h ⊢

theorem forward_of_provided (hx : x = .semS1 ∨ x = .semW1 ∨ x = .semW2) (hzero : value t x = 0)
    (h : Provided t x) : Forward sizeofPtr t := by
  refine forward_sequencer fun hidle => ?_
  rcases h with hpos | hpost
  · exact absurd hzero hpos.ne'
  · rcases hx with rfl | rfl | rfl <;> simp [WillPost, hidle] at hpost

theorem rankW1_afterDequeue {w1 : W1} {second : Bool} {pc : DequeuePc} {q q' : Queue}
    {y : DequeuePc ⊕ ℤ} (h : dequeueStep sizeofPtr q pc = some (q', y)) :
    rankW1 (afterDequeueW1 w1 second y).pc < rankW1 (.dequeue second pc) := by
  have hlt := rank_dequeueStep h
  cases y with
  | inl pc' => cases second <;> exact Nat.add_lt_add_left hlt _
  | inr num => cases second <;> exact Nat.lt_add_of_pos_right hlt

theorem rankW1_afterEnqueue {w1 : W1} {pc : EnqueuePc} {q q' : Queue} {p : ℤ}
    {next : Option EnqueuePc} (h : enqueueStep sizeofPtr q p pc = some (q', next)) :
    rankW1 (afterEnqueueW1 w1 next) < rankW1 (.enqueue pc) := by
  have hlt := rank_enqueueStep h
  cases next with
  | none =>
    have hle : rankW1 (afterEnqueueW1 w1 none) ≤ 1 := by
      simp only [afterEnqueueW1]
      split_ifs <;> decide
    exact hle.trans_lt (Nat.lt_add_of_pos_right hlt)
  | some pc' => exact Nat.add_lt_add_left hlt _

theorem rankW2_afterDequeue {w2 : W2} {pc : DequeuePc} {q q' : Queue} {y : DequeuePc ⊕ ℤ}
    (h : dequeueStep sizeofPtr q pc = some (q', y)) :
    rankW2 (afterDequeueW2 w2 y).pc < rankW2 (.dequeue pc) := by
  have hlt := rank_dequeueStep h
  cases y with
  | inl pc' => exact Nat.add_lt_add_left hlt _
  | inr get =>
    have hle : rankW2 (afterDequeueW2 w2 (.inr get)).pc ≤ 1 := by
      simp only [afterDequeueW2]
      split_ifs <;> decide
    exact hle.trans_lt (Nat.lt_add_of_pos_right hlt)

theorem forward_stepW1 (hloop : t.w1.pc ≠ .loop) (h : (stepW1 sizeofPtr t).isSome) :
    Forward sizeofPtr t := by
  obtain ⟨t', ht⟩ := Option.isSome_iff_exists.1 h
  refine ⟨.w1, t', ht, ?_⟩
  suffices hlt : rankW1 t'.w1.pc < rankW1 t.w1.pc ∧ t'.w2 = t.w2 ∧
      t'.sequencer = t.sequencer by
    obtain ⟨hlt, hw2, hsequencer⟩ := hlt
    unfold rank
    rw [hw2, hsequencer]
    omega
  cases hpc : t.w1.pc with
  | loop => exact absurd hpc hloop
  | wait =>
    simp only [stepW1, hpc, Option.ite_none_right_eq_some, Option.some.injEq] at ht
    obtain ⟨-, rfl⟩ := ht
    exact ⟨by simp [rankW1, rankDequeue], rfl, rfl⟩
  | dequeue second pc =>
    simp only [stepW1, hpc] at ht
    split at ht
    · cases ht
    · next hstep =>
      cases ht
      exact ⟨rankW1_afterDequeue hstep, rfl, rfl⟩
  | enqueue pc =>
    simp only [stepW1, hpc] at ht
    split at ht
    · cases ht
    · next hstep =>
      cases ht
      exact ⟨rankW1_afterEnqueue hstep, rfl, rfl⟩
  | post =>
    simp only [stepW1, hpc, Option.some.injEq] at ht
    subst ht
    exact ⟨by simp [rankW1], rfl, rfl⟩
  | done => simp [stepW1, hpc] at ht

theorem forward_stepW2 (hloop : t.w2.pc ≠ .loop) (h : (stepW2 sizeofPtr t).isSome) :
    Forward sizeofPtr t := by
  obtain ⟨t', ht⟩ := Option.isSome_iff_exists.1 h
  refine ⟨.w2, t', ht, ?_⟩
  suffices hlt : rankW2 t'.w2.pc < rankW2 t.w2.pc ∧ t'.w1 = t.w1 ∧
      t'.sequencer = t.sequencer by
    obtain ⟨hlt, hw1, hsequencer⟩ := hlt
    unfold rank
    rw [hw1, hsequencer]
    omega
  cases hpc : t.w2.pc with
  | loop => exact absurd hpc hloop
  | wait =>
    simp only [stepW2, hpc, Option.ite_none_right_eq_some, Option.some.injEq] at ht
    obtain ⟨-, rfl⟩ := ht
    exact ⟨by simp [rankW2, rankDequeue], rfl, rfl⟩
  | dequeue pc =>
    simp only [stepW2, hpc] at ht
    split at ht
    · cases ht
    · next hstep =>
      cases ht
      exact ⟨rankW2_afterDequeue hstep, rfl, rfl⟩
  | post =>
    simp only [stepW2, hpc, Option.some.injEq] at ht
    subst ht
    exact ⟨by simp [rankW2], rfl, rfl⟩
  | done => simp [stepW2, hpc] at ht

theorem forward_w1 (hroom : Room maxPayloadSize t) (hs1 : sendsS1 t.s1 = 0)
    (hsem : t.w1.pc = .wait → Provided t .semW1) (hmsg : SuppliedW1 t) (hloop : t.w1.pc ≠ .loop)
    (hdone : t.w1.pc ≠ .done) : Forward maxPayloadSize t := by
  cases hpc : t.w1.pc with
  | loop => exact absurd hpc hloop
  | wait =>
    by_cases hzero : t.sems.semW1 = 0
    · exact forward_of_provided (.inr (.inl rfl)) hzero (hsem hpc)
    · exact forward_stepW1 hloop (by simp [stepW1, hpc, Nat.pos_of_ne_zero hzero])
  | dequeue second pc =>
    have hne : pc = .receive → t.w1Q.messages ≠ [] := by
      rintro rfl hnil
      unfold SuppliedW1 at hmsg
      rw [hs1, hnil] at hmsg
      simp [needsW1, receives, hpc] at hmsg
    obtain ⟨⟨q, y⟩, hstep⟩ := Option.isSome_iff_exists.1 (isSome_dequeueStep hne)
    exact forward_stepW1 hloop (by simp [stepW1, hpc, hstep])
  | enqueue pc =>
    have hw2Q := hroom.w2Q
    have hcount := hroom.w1
    simp only [enqueueW1, hpc] at hw2Q
    have hlt := hw2Q.length_lt (by simp only [numElems]; omega)
    obtain ⟨⟨q, next⟩, hstep⟩ :=
      Option.isSome_iff_exists.1 (isSome_enqueueStep t.w1.sum pc fun _ => hlt)
    exact forward_stepW1 hloop (by simp [stepW1, hpc, hstep])
  | post => exact forward_stepW1 hloop (by simp [stepW1, hpc])
  | done => exact absurd hpc hdone

/-- `W2` goes on, or `W1` does, which is to send it the sum. -/
theorem forward_w2 (hroom : Room maxPayloadSize t) (hs1 : sendsS1 t.s1 = 0)
    (hsem₁ : t.w1.pc = .wait → Provided t .semW1) (hsem₂ : t.w2.pc = .wait → Provided t .semW2)
    (hlast : LastRoundW2 t.w2) (hmsg : SuppliedW2 t) : Forward maxPayloadSize t := by
  have hloop : t.w2.pc ≠ .loop := fun hpc => by simp [LastRoundW2, hpc] at hlast
  cases hpc : t.w2.pc with
  | wait =>
    by_cases hzero : t.sems.semW2 = 0
    · exact forward_of_provided (.inr (.inr rfl)) hzero (hsem₂ hpc)
    · exact forward_stepW2 hloop (by simp [stepW2, hpc, Nat.pos_of_ne_zero hzero])
  | dequeue pc =>
    by_cases hblocked : pc = .receive ∧ t.w2Q.messages = []
    · obtain ⟨rfl, hnil⟩ := hblocked
      have hsends : sendsW1 t ≠ 0 := fun hzero => by
        unfold SuppliedW2 at hmsg
        rw [hnil, hzero] at hmsg
        simp [needsW2, receives, hpc] at hmsg
      have hsupplied : SuppliedW1 t := by
        by_contra hnot
        exact hsends (if_neg hnot)
      refine forward_w1 hroom hs1 hsem₁ hsupplied (fun hw1 => hsends ?_) fun hw1 => hsends ?_ <;>
        exact Nat.le_zero.1 ((sendsW1_le t).trans (by simp only [inRoundW1, hw1, le_rfl]))
    · have hne : pc = .receive → t.w2Q.messages ≠ [] := fun hr hnil => hblocked ⟨hr, hnil⟩
      obtain ⟨⟨q, y⟩, hstep⟩ := Option.isSome_iff_exists.1 (isSome_dequeueStep hne)
      exact forward_stepW2 hloop (by simp [stepW2, hpc, hstep])
  | post => exact forward_stepW2 hloop (by simp [stepW2, hpc])
  | _ => simp [LastRoundW2, hpc] at hlast

/-- **Somebody goes on while a thread waits for what is provided.** -/
theorem exists_forward (hroom : Room sizeofPtr t) (h : ∀ x, WillWait t x → Provided t x)
    (hwaits : Waits t x) (hzero : value t x = 0) : Forward sizeofPtr t := by
  have hasserted := hroom.asserted
  cases x with
  | semS1 => exact forward_of_provided (.inl rfl) hzero (h _ hwaits)
  | semW1 => exact forward_of_provided (.inr (.inl rfl)) hzero (h _ hwaits)
  | semW2 => exact forward_of_provided (.inr (.inr rfl)) hzero (h _ hwaits)
  | runningW1 =>
    have hs1 : t.s1.pc = .waitW1 := hwaits
    obtain rfl : sizeofPtr = maxPayloadSize := by simpa [hs1] using hasserted
    obtain hpos | ⟨hlast, hmsg⟩ := h .runningW1 (.inr hs1)
    · exact absurd hzero hpos.ne'
    · refine forward_w1 hroom (by simp [sendsS1, hs1]) (h .semW1) hmsg (fun hw1 => ?_)
        fun hw1 => ?_
      · simp [LastRoundW1, hw1] at hlast
      · simp [LastRoundW1, hw1] at hlast
  | runningW2 =>
    have hs1 : t.s1.pc = .waitW2 := hwaits
    obtain rfl : sizeofPtr = maxPayloadSize := by simpa [hs1] using hasserted
    obtain hpos | ⟨hlast, hmsg⟩ := h .runningW2 (.inr (.inr hs1))
    · exact absurd hzero hpos.ne'
    · exact forward_w2 hroom (by simp [sendsS1, hs1]) (h .semW1) (h .semW2) hlast hmsg

theorem others_stepS1 (h : stepS1 sizeofPtr t = some t') : t'.w1 = t.w1 ∧ t'.w2 = t.w2 := by
  unfold stepS1 at h
  repeat' split at h
  all_goals cases h <;> exact ⟨rfl, rfl⟩

theorem others_stepW1 (h : stepW1 sizeofPtr t = some t') : t'.s1 = t.s1 ∧ t'.w2 = t.w2 := by
  unfold stepW1 at h
  repeat' split at h
  all_goals cases h <;> exact ⟨rfl, rfl⟩

theorem others_stepW2 (h : stepW2 sizeofPtr t = some t') : t'.s1 = t.s1 ∧ t'.w1 = t.w1 := by
  unfold stepW2 at h
  repeat' split at h
  all_goals cases h <;> exact ⟨rfl, rfl⟩

theorem waits_step {p : Party} (hwaits : Waits t x) (hzero : value t x = 0)
    (h : Threads.step sizeofPtr t p = some t') : Waits t' x := by
  cases p with
  | s1 =>
    obtain ⟨hw1, hw2⟩ := others_stepS1 h
    cases x <;> simp only [Waits, value] at hwaits hzero ⊢
    case semW1 => rwa [hw1]
    case semW2 => rwa [hw2]
    all_goals simp [Threads.step, stepS1, hwaits, hzero] at h
  | w1 =>
    obtain ⟨hs1, hw2⟩ := others_stepW1 h
    cases x <;> simp only [Waits, value] at hwaits hzero ⊢
    case semW1 => simp [Threads.step, stepW1, hwaits, hzero] at h
    case semW2 => rwa [hw2]
    all_goals rwa [hs1]
  | w2 =>
    obtain ⟨hs1, hw1⟩ := others_stepW2 h
    cases x <;> simp only [Waits, value] at hwaits hzero ⊢
    case semW1 => rwa [hw1]
    case semW2 => simp [Threads.step, stepW2, hwaits, hzero] at h
    all_goals rwa [hs1]
  | sequencer =>
    cases h
    unfold stepSequencer
    split <;> cases x <;> exact hwaits

theorem step_party {p : Party} (h : Threads.step sizeofPtr s.threads p = some t) :
    step sizeofPtr s (.party p) = some { s with threads := t, failed := setFailed s p false } :=
  Option.map_eq_some_iff.2 ⟨t, h, rfl⟩

theorem Inv.not_stranded (hinv : Inv sizeofPtr s) : ¬ Stranded sizeofPtr s := by
  rintro ⟨hfinished, -, x, hwaits, hzero⟩
  have hforward : ∀ s, s.ctrlC = .finished ∧ Inv sizeofPtr s ∧ Waits s.threads x →
      0 < value s.threads x ∨ ∃ a s', NoFail s a ∧ step sizeofPtr s a = some s' ∧
        (s'.ctrlC = .finished ∧ Inv sizeofPtr s' ∧ Waits s'.threads x) ∧
        rank s'.threads < rank s.threads := by
    rintro s ⟨hfinished, hinv, hwaits⟩
    by_cases hpos : value s.threads x = 0
    · obtain ⟨p, t, ht, hlt⟩ := exists_forward hinv.room (hinv.provided hfinished) hwaits hpos
      have hstep := step_party ht
      have hinv' := inv_step (a := .party p) hinv trivial hstep
      exact .inr ⟨.party p, _, trivial, hstep,
        ⟨hfinished, hinv', waits_step hwaits hpos ht⟩, hlt⟩
    · exact .inl (Nat.pos_of_ne_zero hpos)
  obtain ⟨s', hreach, -, hpos⟩ :=
    Reach.exists_of_rank (fun s : State => rank s.threads) hforward ⟨hfinished, hinv, hwaits⟩
  exact absurd (hzero s' hreach) hpos.ne'

/-- **No thread is stranded in the runs in which every semaphore that a thread is going to wait for
is provided when `ctrl_c` clears `running`, and no message and no post on the way to `S1` is lost
afterwards.** -/
theorem not_stranded_of_prepared (h : Reach (step sizeofPtr) Prepared (init b₁ b₂) s) :
    ¬ Stranded sizeofPtr s :=
  Inv.not_stranded (h.invariant inv_init inv_step)

/-- All three services wait for their semaphores when `ctrl_c` is called. -/
theorem not_stranded_of_prepared_wait : ∃ s, s.ctrlC = .finished ∧ s.threads.s1.pc = .wait ∧
    ¬ Stranded maxPayloadSize s := by
  have hrun : (exec (step maxPayloadSize)
      (fun s a => s.ctrlC ≠ .finished ∧ (a = .ctrlC → s.ctrlC ≠ .clear)) (init 0 0)
      ([.party .s1, .party .w1, .party .w2] ++ List.replicate 4 .ctrlC)).map
      (fun s => (s.ctrlC, s.threads.s1, s.threads.sems)) =
        some (.clear, { pc := .wait, count := 0 }, ⟨1, 1, 1, 0, 0⟩) := by decide
  obtain ⟨s, hs, hend⟩ := Reach.exists_of_exec hrun
  simp only [Prod.mk.injEq] at hend
  obtain ⟨hclear, hs1, hsems⟩ := hend
  have hreach : Reach (step maxPayloadSize) Prepared (init 0 0) s :=
    hs.mono fun s a ⟨hfinished, hok⟩ => by
      cases a with
      | ctrlC => exact fun hclear => absurd hclear (hok rfl)
      | party p => trivial
      | fail p get => cases p <;> first | trivial | exact fun h => absurd h hfinished
      | giveUp p => cases p <;> first | trivial | exact fun h => absurd h hfinished
  have hprepared : Prepared s .ctrlC := fun _ x hx => by
    refine .inl ?_
    cases x <;> simp [WillWait, LastRoundS1, hs1] at hx <;> simp [value, hsems]
  have hstep : step maxPayloadSize s .ctrlC =
      some { s with threads := { s.threads with running := false }, ctrlC := .finished } := by
    simp only [step, stepCtrlC, hclear]
  exact ⟨_, rfl, by simp [hs1], not_stranded_of_prepared (hreach.step hprepared hstep)⟩

/-! ### What goes wrong otherwise -/

/-- A thread is going to wait for `x`, and nobody is going to post it. -/
structure Lost (sizeofPtr : ℕ) (x : Sem) (s : State) : Prop where
  finished : s.ctrlC = .finished
  running : s.threads.running = false
  room : Room sizeofPtr s.threads
  willWait : WillWait s.threads x
  silent : ¬ Provided s.threads x

theorem Lost.zero (h : Lost sizeofPtr x s) : value s.threads x = 0 :=
  Nat.eq_zero_of_not_pos fun hpos => h.silent (.inl hpos)

theorem Lost.other {y : Sem} (h : Lost sizeofPtr x s) (hy : WillWait s.threads y)
    (hnot : ¬ Provided s.threads y) : Lost sizeofPtr y s :=
  ⟨h.finished, h.running, h.room, hy, hnot⟩

theorem Lost.party {p : Party} {f : Party → Bool} (hs : Lost sizeofPtr x s)
    (h : Threads.step sizeofPtr s.threads p = some t) (hwill : WillWait t x) :
    Lost sizeofPtr x { s with threads := t, failed := f } := by
  have hroom : Room sizeofPtr t := room_step (a := .party p) hs.room (step_party h)
  obtain ⟨hsteady, hrunning⟩ := steady_step hs.room hs.running h
  exact ⟨hs.finished, hrunning, hroom, hwill, fun hp => hs.silent ((hsteady x hwill).2.1 hp)⟩

theorem willWait_of_waits (h : Waits t x) : WillWait t x := by
  cases x with
  | runningW1 => exact .inr h
  | runningW2 => exact .inr (.inr h)
  | _ => exact h

theorem waits_giveUp {p : Party} (hwaits : Waits t x) (h : giveUp t p = some t') :
    Waits t' x := by
  cases p <;> simp only [giveUp, Option.ite_none_right_eq_some, reduceCtorEq] at h
  all_goals
    obtain ⟨hpc, h⟩ := h
    cases h
    cases x <;> simp only [Waits] at hwaits ⊢ <;> simp [hwaits] at hpc ⊢

theorem provided_giveUp {p : Party} (h : giveUp t p = some t') (hx : WillWait t' x)
    (hp : Provided t' x) : Provided t x := by
  cases p with
  | s1 =>
    simp only [giveUp, Option.ite_none_right_eq_some, Option.some.injEq] at h
    obtain ⟨hpc, rfl⟩ := h
    have hsteady : Steady t { t with s1 := { t.s1 with pc := .done } } :=
      steady_leaveS1 ⟨rfl, rfl, rfl, rfl, rfl, rfl⟩ rfl (by simp [sendsS1, hpc]) (.inr (.inr rfl))
    exact (hsteady x hx).2.1 hp
  | w1 =>
    simp only [giveUp, Option.ite_none_right_eq_some, Option.some.injEq] at h
    obtain ⟨hpc, rfl⟩ := h
    obtain ⟨-, rfl | ⟨hvalue, rfl | hpost⟩⟩ := (keptByW1_done t).frame (by simp) hx
    · exact hp.imp id fun hpost => hpost.1.elim
    · exact hp.imp id fun hpost => ⟨hpost.1, (suppliedW2_done hpc).1 hpost.2⟩
    · exact (provided_congr hvalue hpost).1 hp
  | w2 =>
    simp only [giveUp, Option.ite_none_right_eq_some, Option.some.injEq] at h
    obtain ⟨hpc, rfl⟩ := h
    obtain ⟨-, rfl | hprovided⟩ := (keptByW2_done t).frame (by simp) hx
    · exact hp.imp id fun hpost => hpost.1.elim
    · exact hprovided.1 hp
  | sequencer => cases h

theorem lost_step (hs : Lost sizeofPtr x s ∧ Waits s.threads x) (hok : NoFail s a)
    (h : step sizeofPtr s a = some s') : Lost sizeofPtr x s' ∧ Waits s'.threads x := by
  obtain ⟨hlost, hwaits⟩ := hs
  have hroom := room_step hlost.room h
  cases a with
  | party p =>
    obtain ⟨t, ht, rfl⟩ := Option.map_eq_some_iff.1 h
    have hwaits' : Waits t x := waits_step hwaits hlost.zero ht
    exact ⟨hlost.party ht (willWait_of_waits hwaits'), hwaits'⟩
  | fail p get => exact absurd hok id
  | giveUp p =>
    obtain ⟨-, t, ht, rfl⟩ := giveUp_eq_some h
    have hwaits' : Waits t x := waits_giveUp hwaits ht
    have hwill := willWait_of_waits hwaits'
    exact ⟨⟨hlost.finished, running_giveUp hlost.running ht, hroom, hwill, fun hp =>
      hlost.silent (provided_giveUp ht hwill hp)⟩, hwaits'⟩
  | ctrlC => simp [step, stepCtrlC, hlost.finished] at h

/-- **A thread that waits for what is not provided is stranded.** -/
theorem Lost.stranded (hs : Lost sizeofPtr x s) (hwaits : Waits s.threads x) :
    Stranded sizeofPtr s where
  finished := hs.finished
  running := hs.running
  waits := ⟨x, hwaits, fun _ hreach =>
    (hreach.invariant (P := fun s => Lost sizeofPtr x s ∧ Waits s.threads x) ⟨hs, hwaits⟩
      fun hP hok hstep => lost_step hP hok hstep).1.zero⟩

/-! ### The condition is exact -/

/-- The parties take turns, no call fails and no thread gives up. -/
def OnlyParties (_ : State) : Turn → Prop
  | .party _ => True
  | _ => False

/-- The steps `S1` has left in its last round. -/
def rankS1 : S1Pc → ℕ
  | .wait => 7
  | .enqueue pc => 2 + rankEnqueue pc
  | .waitW1 => 2
  | .waitW2 => 1
  | _ => 0

theorem lastRound_stepS1 (hlast : LastRoundS1 t.s1) (h : stepS1 sizeofPtr t = some t') :
    (LastRoundS1 t'.s1 ∨ t'.s1.pc = .waitW1) ∧ rankS1 t'.s1.pc < rankS1 t.s1.pc ∧
      rank t' = rank t := by
  obtain ⟨hpc, hcount⟩ | ⟨⟨pc, hpc⟩, hcount⟩ := hlast
  · simp only [stepS1, hpc, Option.ite_none_right_eq_some, Option.some.injEq] at h
    obtain ⟨-, rfl⟩ := h
    exact ⟨.inl (.inr ⟨⟨_, rfl⟩, congrArg (· + 1) hcount⟩),
      by simp [rankS1, rankEnqueue, hpc], rfl⟩
  · simp only [stepS1, hpc] at h
    split at h
    · cases h
    · next q next hstep =>
      cases h
      have hlt := rank_enqueueStep hstep
      cases next with
      | none =>
        have hwaitW1 : afterEnqueueS1 t.s1 none = .waitW1 := if_pos hcount
        refine ⟨.inr hwaitW1, ?_, rfl⟩
        simp only [hwaitW1, hpc]
        exact Nat.lt_add_of_pos_right hlt
      | some pc' =>
        refine ⟨.inl (.inr ⟨⟨pc', rfl⟩, hcount⟩), ?_, rfl⟩
        simp only [afterEnqueueS1, hpc]
        exact Nat.add_lt_add_left hlt _

theorem s1_of_waits {p : Party} (hx : x = .semS1 ∨ x = .runningW1) (hwaits : Waits t x)
    (hzero : value t x = 0) (h : Threads.step sizeofPtr t p = some t') : t'.s1 = t.s1 := by
  cases p with
  | s1 =>
    rcases hx with rfl | rfl <;> simp only [Waits, value] at hwaits hzero <;>
      simp [Threads.step, stepS1, hwaits, hzero] at h
  | w1 => exact (others_stepW1 h).1
  | w2 => exact (others_stepW2 h).1
  | sequencer =>
    cases h
    unfold stepSequencer
    split <;> rfl

theorem Lost.forward_of_waits {y : Sem} (hs : Lost maxPayloadSize x s)
    (hx : x = .runningW1 ∨ x = .runningW2) (hy : y = .semS1 ∨ y = .runningW1)
    (hwaits : Waits s.threads y) (hzero : value s.threads y = 0)
    (hforward : Forward maxPayloadSize s.threads) :
    ∃ p t, Threads.step maxPayloadSize s.threads p = some t ∧ WillWait t x ∧
      rankS1 t.s1.pc + rank t < rankS1 s.threads.s1.pc + rank s.threads := by
  obtain ⟨p, t, ht, hlt⟩ := hforward
  have hs1 := s1_of_waits hy hwaits hzero ht
  refine ⟨p, t, ht, ?_, by rw [hs1]; omega⟩
  have hwill := hs.willWait
  rcases hx with rfl | rfl <;> simpa only [WillWait, hs1] using hwill

theorem Lost.forward_of_lastRound (hs : Lost maxPayloadSize x s)
    (hx : x = .runningW1 ∨ x = .runningW2) (hlast : LastRoundS1 s.threads.s1)
    (hsome : (stepS1 maxPayloadSize s.threads).isSome) :
    ∃ p t, Threads.step maxPayloadSize s.threads p = some t ∧ WillWait t x ∧
      rankS1 t.s1.pc + rank t < rankS1 s.threads.s1.pc + rank s.threads := by
  obtain ⟨t, ht⟩ := Option.isSome_iff_exists.1 hsome
  obtain ⟨hwill, hlt, hrank⟩ := lastRound_stepS1 hlast ht
  refine ⟨.s1, t, ht, ?_, by omega⟩
  rcases hx with rfl | rfl
  · exact hwill
  · exact hwill.imp id .inl

/-- Where `S1` is on the way to a wait for what nobody posts, it comes there, unless a thread is
stranded before. -/
theorem Lost.forward (hs : Lost maxPayloadSize x s) : Stranded maxPayloadSize s ∨
    ∃ p t, Threads.step maxPayloadSize s.threads p = some t ∧ WillWait t x ∧
      rankS1 t.s1.pc + rank t < rankS1 s.threads.s1.pc + rank s.threads := by
  by_cases hwaits : Waits s.threads x
  · exact .inl (hs.stranded hwaits)
  have hx : x = .runningW1 ∨ x = .runningW2 := by
    cases x with
    | runningW1 => exact .inl rfl
    | runningW2 => exact .inr rfl
    | _ => exact absurd hs.willWait hwaits
  have hpc : LastRoundS1 s.threads.s1 ∨ x = .runningW2 ∧ s.threads.s1.pc = .waitW1 := by
    have hwill := hs.willWait
    rcases hx with rfl | rfl
    · exact .inl (hwill.resolve_right hwaits)
    · rcases hwill with hlast | hpc | hpc
      · exact .inl hlast
      · exact .inr ⟨rfl, hpc⟩
      · exact absurd hpc hwaits
  obtain (⟨hpc, hcount⟩ | ⟨⟨pc, hpc⟩, hcount⟩) | ⟨rfl, hpc⟩ := hpc
  · -- the last wait for the handler
    by_cases hzero : s.threads.sems.semS1 = 0
    · by_cases hp : Provided s.threads .semS1
      · exact .inr (hs.forward_of_waits hx (.inl rfl) hpc hzero
          (forward_of_provided (.inl rfl) hzero hp))
      · exact .inl ((hs.other (y := .semS1) hpc hp).stranded hpc)
    · exact .inr (hs.forward_of_lastRound hx (.inl ⟨hpc, hcount⟩)
        (by simp [stepS1, hpc, Nat.pos_of_ne_zero hzero]))
  · have hw1Q := hs.room.w1Q
    simp only [enqueueS1, hpc] at hw1Q
    obtain ⟨⟨q, next⟩, hstep⟩ := Option.isSome_iff_exists.1
      (isSome_enqueueStep s.threads.s1.count pc fun _ => hw1Q.length_lt hcount.le)
    exact .inr (hs.forward_of_lastRound hx (.inr ⟨⟨pc, hpc⟩, hcount⟩)
      (by simp [stepS1, hpc, hstep]))
  · by_cases hzero : s.threads.sems.runningW1 = 0
    · by_cases hp : Provided s.threads .runningW1
      · obtain ⟨hlast, hmsg⟩ := hp.resolve_left hzero.not_gt
        by_cases hsem : s.threads.w1.pc = .wait → Provided s.threads .semW1
        · refine .inr (hs.forward_of_waits (.inr rfl) (.inr rfl) hpc hzero (forward_w1 hs.room
            (by simp [sendsS1, hpc]) hsem hmsg (fun hw1 => ?_) fun hw1 => ?_)) <;>
            simp [LastRoundW1, hw1] at hlast
        · obtain ⟨hw1, hnot⟩ := Classical.not_imp.1 hsem
          exact .inl ((hs.other (y := .semW1) hw1 hnot).stranded hw1)
      · exact .inl ((hs.other (y := .runningW1) (.inr hpc) hp).stranded hpc)
    · have ht : stepS1 maxPayloadSize s.threads = some { s.threads with
          sems := { s.threads.sems with runningW1 := s.threads.sems.runningW1 - 1 }
          s1 := { s.threads.s1 with pc := .waitW2 } } := by
        simp only [stepS1, hpc, if_pos (Nat.pos_of_ne_zero hzero)]
      exact .inr ⟨.s1, _, ht, .inr (.inr rfl), by simp [rank, rankS1, hpc]⟩

/-- **The condition is exact**: once `ctrl_c` has finished, the parties can come to a state with a
stranded thread unless everything that a thread is going to wait for is provided. -/
theorem never_stranded_iff (h : Reach (step maxPayloadSize) Any (init b₁ b₂) s)
    (hfinished : s.ctrlC = .finished) (hrunning : s.threads.running = false) :
    (∀ s', Reach (step maxPayloadSize) OnlyParties s s' → ¬ Stranded maxPayloadSize s') ↔
      ∀ x, WillWait s.threads x → Provided s.threads x := by
  constructor
  · intro hnever x hwill
    by_contra hnot
    have hforward : ∀ s, Lost maxPayloadSize x s → Stranded maxPayloadSize s ∨
        ∃ a s', OnlyParties s a ∧ step maxPayloadSize s a = some s' ∧ Lost maxPayloadSize x s' ∧
          rankS1 s'.threads.s1.pc + rank s'.threads < rankS1 s.threads.s1.pc + rank s.threads := by
      intro s hs
      refine hs.forward.imp id fun ⟨p, t, ht, hwill, hlt⟩ => ?_
      exact ⟨.party p, _, trivial, step_party ht, hs.party ht hwill, hlt⟩
    obtain ⟨s', hreach, -, hstranded⟩ := Reach.exists_of_rank
      (fun s : State => rankS1 s.threads.s1.pc + rank s.threads) hforward
      ⟨hfinished, hrunning, room_of_reach h, hwill, hnot⟩
    exact hnever s' hreach hstranded
  · intro hprovided s' hreach
    have hinv : Inv maxPayloadSize s := ⟨room_of_reach h, fun _ => hrunning, fun _ => hprovided⟩
    refine Inv.not_stranded (hreach.invariant hinv fun {s a s'} hs hok hstep => ?_)
    cases a with
    | party p => exact inv_step (a := .party p) hs trivial hstep
    | _ => exact absurd hok id

/-- `S1` takes the post of `ctrl_c` and comes back to its `sem_wait` before `running` is cleared. -/
theorem stranded_of_ctrl_c : ¬ ∀ s, Reach (step maxPayloadSize) Any (init 0 0) s →
    ¬ Stranded maxPayloadSize s := by
  have hrun : (exec (step maxPayloadSize) Any (init 0 0)
      ([.party .s1] ++ List.replicate 2 .ctrlC ++ List.replicate 6 (.party .s1) ++
        List.replicate 3 .ctrlC)).map
      (fun s => ((s.ctrlC, s.threads.running), s.threads.s1.pc, s.threads.sems.semS1,
        s.threads.sequencer.pc)) = some ((.finished, false), .wait, 0, .idle) := by decide
  obtain ⟨s, hs, hend⟩ := Reach.exists_of_exec hrun
  simp only [Prod.mk.injEq] at hend
  obtain ⟨⟨hfinished, hrunning⟩, hwait, hzero, hidle⟩ := hend
  have hnot : ¬ Provided s.threads .semS1 := by
    simp [Provided, value, WillPost, hzero, hidle]
  have hlost : Lost maxPayloadSize .semS1 s :=
    ⟨hfinished, hrunning, room_of_reach hs, hwait, hnot⟩
  exact fun h => h s hs (hlost.stranded hwait)

end Ecen5623.Pipeline.Stranding
