import Ecen5623.Pipeline.Shutdown

/-! # What stays provided after the shutdown

After `ctrl_c` has finished, a thread that does not return goes through its round, and what it is
going to wait for is as provided as before (`steady_step`): a step takes from a queue what it no
longer needs, and puts into one what it was going to send. A call that fails may lose a message,
and a thread that gives up a post; in the runs that `Prepared` allows these are not needed
(`keeps_step`). -/

namespace Ecen5623.Pipeline.Provided

open Ecen5623.Library Ecen5623.Pipeline.Channel Ecen5623.Pipeline.Shutdown
open Ecen5623.Pipeline.Threads (Party S1 W1 W2 Sems afterEnqueueS1 afterDequeueW1 afterEnqueueW1
  afterDequeueW2 stepS1 stepW1 stepW2 stepSequencer)
open Ecen5623.Pipeline.Conservation (enqueueS1 enqueueW1)

variable {sizeofPtr : ℕ} {s s' : State} {t t' : Threads.State} {a : Turn} {b₁ b₂ : ℤ} {x : Sem}

/-- What is provided stays so for a thread that is going to wait. -/
def Keeps (t t' : Threads.State) : Prop :=
  ∀ x, WillWait t' x → WillWait t x ∧ (Provided t x → Provided t' x)

/-- What a thread is going to wait for is as provided as before. -/
def Steady (t t' : Threads.State) : Prop :=
  ∀ x, WillWait t' x → WillWait t x ∧ (Provided t' x ↔ Provided t x)

theorem Steady.keeps (h : Steady t t') : Keeps t t' := fun x hx => ⟨(h x hx).1, (h x hx).2.2⟩

theorem provided_congr (hvalue : value t' x = value t x) (hpost : WillPost t' x ↔ WillPost t x) :
    Provided t' x ↔ Provided t x := by
  unfold Provided
  rw [hvalue, hpost]

/-! ### S1 -/

/-- What `S1` leaves alone. -/
structure KeptByS1 (t t' : Threads.State) : Prop where
  w1 : t'.w1 = t.w1
  w2 : t'.w2 = t.w2
  w2Q : t'.w2Q = t.w2Q
  sequencer : t'.sequencer = t.sequencer
  semW1 : t'.sems.semW1 = t.sems.semW1
  semW2 : t'.sems.semW2 = t.sems.semW2

theorem KeptByS1.symm (h : KeptByS1 t t') : KeptByS1 t' t :=
  ⟨h.w1.symm, h.w2.symm, h.w2Q.symm, h.sequencer.symm, h.semW1.symm, h.semW2.symm⟩

theorem KeptByS1.suppliedW2 (hkept : KeptByS1 t t') (hmsg : SuppliedW1 t → SuppliedW1 t')
    (h : SuppliedW2 t) : SuppliedW2 t' := by
  have hsends : sendsW1 t ≤ sendsW1 t' := by
    unfold sendsW1
    rw [hkept.w1]
    by_cases hsupplied : SuppliedW1 t
    · rw [if_pos hsupplied, if_pos (hmsg hsupplied)]
    · rw [if_neg hsupplied]
      exact Nat.zero_le _
  unfold SuppliedW2 at h ⊢
  rw [hkept.w2, hkept.w2Q]
  omega

theorem KeptByS1.willPost (hkept : KeptByS1 t t') (hx : x = .runningW1 ∨ x = .runningW2)
    (hmsg : SuppliedW1 t → SuppliedW1 t') (h : WillPost t x) : WillPost t' x := by
  rcases hx with rfl | rfl
  · exact ⟨hkept.w1 ▸ h.1, hmsg h.2⟩
  · exact ⟨hkept.w2 ▸ h.1, hkept.suppliedW2 hmsg h.2⟩

/-- `S1` moves on, without a test of `running`. -/
structure MovesS1 (t t' : Threads.State) : Prop where
  kept : KeptByS1 t t'
  wait : t'.s1.pc ≠ .wait
  running : ∀ x, x = .runningW1 ∨ x = .runningW2 → WillWait t' x →
    WillWait t x ∧ value t' x = value t x

theorem MovesS1.frame (h : MovesS1 t t') (hx : WillWait t' x) :
    WillWait t x ∧ value t' x = value t x ∧
      ((x = .runningW1 ∨ x = .runningW2) ∨ (WillPost t' x ↔ WillPost t x)) := by
  obtain ⟨hkept, hwait, hrunning⟩ := h
  cases x with
  | semS1 => exact absurd hx hwait
  | semW1 =>
    simp only [WillWait, hkept.w1] at hx
    exact ⟨hx, hkept.semW1, .inr (by simp only [WillPost, hkept.sequencer])⟩
  | semW2 =>
    simp only [WillWait, hkept.w2] at hx
    exact ⟨hx, hkept.semW2, .inr (by simp only [WillPost, hkept.sequencer])⟩
  | runningW1 =>
    obtain ⟨hwill, hvalue⟩ := hrunning _ (.inl rfl) hx
    exact ⟨hwill, hvalue, .inl (.inl rfl)⟩
  | runningW2 =>
    obtain ⟨hwill, hvalue⟩ := hrunning _ (.inr rfl) hx
    exact ⟨hwill, hvalue, .inl (.inr rfl)⟩

theorem MovesS1.steady (h : MovesS1 t t') (hmsg : SuppliedW1 t' ↔ SuppliedW1 t) :
    Steady t t' := by
  intro x hx
  obtain ⟨hwill, hvalue, hrunning | hpost⟩ := h.frame hx
  · exact ⟨hwill, provided_congr hvalue
      ⟨h.kept.symm.willPost hrunning hmsg.1, h.kept.willPost hrunning hmsg.2⟩⟩
  · exact ⟨hwill, provided_congr hvalue hpost⟩

theorem MovesS1.keeps (h : MovesS1 t t') (hmsg : WillWait t' .runningW2 → SuppliedW1 t') :
    Keeps t t' := by
  intro x hx
  obtain ⟨hwill, hvalue, hrunning | hpost⟩ := h.frame hx
  · refine ⟨hwill, fun hp => hp.imp (fun hpos => hvalue ▸ hpos) fun hpost => ?_⟩
    refine h.kept.willPost hrunning (fun _ => hmsg ?_) hpost
    rcases hrunning with rfl | rfl
    · exact hx.imp id .inl
    · exact hx
  · exact ⟨hwill, (provided_congr hvalue hpost).2⟩

theorem moves_enqueueS1 {pc : EnqueuePc} {next : Option EnqueuePc} {q : Queue} {sent : List ℤ}
    (hpc : t.s1.pc = .enqueue pc) :
    MovesS1 t { t with
      w1Q := q, s1 := { t.s1 with pc := afterEnqueueS1 t.s1 next }, sent := sent } := by
  have hpc' : afterEnqueueS1 t.s1 next = .loop ∨
      afterEnqueueS1 t.s1 next = .waitW1 ∧ t.s1.count = 200 ∨
      ∃ pc, afterEnqueueS1 t.s1 next = .enqueue pc := by
    cases next with
    | none =>
      by_cases hcount : t.s1.count = 200
      · exact .inr (.inl ⟨if_pos hcount, hcount⟩)
      · exact .inl (if_neg hcount)
    | some pc => exact .inr (.inr ⟨pc, rfl⟩)
  have hlast : t.s1.count = 200 → LastRoundS1 t.s1 := fun hcount => .inr ⟨⟨pc, hpc⟩, hcount⟩
  refine ⟨⟨rfl, rfl, rfl, rfl, rfl, rfl⟩, ?_, ?_⟩
  · rcases hpc' with hpc' | ⟨hpc', -⟩ | ⟨pc', hpc'⟩ <;> simp [hpc']
  · rintro x (rfl | rfl) hx <;> refine ⟨.inl (hlast ?_), rfl⟩ <;>
      rcases hpc' with hpc' | ⟨hpc', hcount⟩ | ⟨pc', hpc'⟩ <;>
        simp [WillWait, LastRoundS1, hpc'] at hx <;> assumption

theorem moves_roundS1 {sems : Sems} (hpc : t.s1.pc = .wait)
    (hsems : sems = { t.sems with semS1 := sems.semS1 }) :
    MovesS1 t { t with
      sems := sems, s1 := { pc := .enqueue .test, count := t.s1.count + 1 } } := by
  rw [hsems]
  refine ⟨⟨rfl, rfl, rfl, rfl, rfl, rfl⟩, by simp, ?_⟩
  rintro x (rfl | rfl) hx <;> simp [WillWait, LastRoundS1] at hx
  · exact ⟨.inl (.inl ⟨hpc, hx⟩), rfl⟩
  · exact ⟨.inl (.inl ⟨hpc, hx⟩), rfl⟩

theorem moves_waitW2 {sems : Sems} (hpc : t.s1.pc = .waitW1)
    (hsems : sems = { t.sems with runningW1 := sems.runningW1 }) :
    MovesS1 t { t with sems := sems, s1 := { t.s1 with pc := .waitW2 } } := by
  rw [hsems]
  refine ⟨⟨rfl, rfl, rfl, rfl, rfl, rfl⟩, by simp, ?_⟩
  rintro x (rfl | rfl) hx
  · simp [WillWait, LastRoundS1] at hx
  · exact ⟨.inr (.inl hpc), rfl⟩

theorem moves_leaveS1 (hkept : KeptByS1 t t')
    (hpc : t'.s1.pc = .loop ∨ t'.s1.pc = .stop ∨ t'.s1.pc = .done) : MovesS1 t t' := by
  refine ⟨hkept, ?_, ?_⟩
  · rcases hpc with hpc | hpc | hpc <;> simp [hpc]
  · rintro x (rfl | rfl) hx <;> rcases hpc with hpc | hpc | hpc <;>
      simp [WillWait, LastRoundS1, hpc] at hx

theorem suppliedW1_congr (hw1 : t'.w1 = t.w1)
    (hsupply : t'.w1Q.messages.length + sendsS1 t'.s1 = t.w1Q.messages.length + sendsS1 t.s1) :
    SuppliedW1 t' ↔ SuppliedW1 t := by
  unfold SuppliedW1
  rw [hw1, hsupply]

theorem steady_leaveS1 (hkept : KeptByS1 t t') (hw1Q : t'.w1Q = t.w1Q) (hsends : sendsS1 t.s1 = 0)
    (hpc : t'.s1.pc = .loop ∨ t'.s1.pc = .stop ∨ t'.s1.pc = .done) : Steady t t' := by
  refine (moves_leaveS1 hkept hpc).steady (suppliedW1_congr hkept.w1 ?_)
  have hsends' : sendsS1 t'.s1 = 0 := by
    unfold sendsS1
    rcases hpc with hpc | hpc | hpc <;> rw [hpc]
  rw [hw1Q, hsends, hsends']

theorem length_enqueueStep {q q' : Queue} {p : ℤ} {pc : EnqueuePc} {next : Option EnqueuePc}
    (hcount : pc = .test → q.count ≠ numElems)
    (h : enqueueStep sizeofPtr q p pc = some (q', next)) :
    q'.messages.length + (if next = none then 0 else 1) = q.messages.length + 1 := by
  cases pc with
  | test =>
    simp only [enqueueStep, if_neg (hcount rfl)] at h
    split_ifs at h
    cases h
    rfl
  | send =>
    simp only [enqueueStep] at h
    split_ifs at h
    cases h
    simp
  | _ =>
    cases h
    rfl

theorem sendsS1_afterEnqueue (s1 : S1) (next : Option EnqueuePc) :
    sendsS1 { s1 with pc := afterEnqueueS1 s1 next } = if next = none then 0 else 1 := by
  cases next with
  | none =>
    simp only [sendsS1, afterEnqueueS1]
    split_ifs <;> rfl
  | some pc => rfl

/-- **A step of `S1` after the shutdown.** -/
theorem steady_stepS1 (hroom : Room sizeofPtr t) (hrunning : t.running = false)
    (h : stepS1 sizeofPtr t = some t') : Steady t t' := by
  cases hpc : t.s1.pc with
  | loop =>
    simp only [stepS1, hpc, hrunning, Option.some.injEq] at h
    subst h
    exact steady_leaveS1 ⟨rfl, rfl, rfl, rfl, rfl, rfl⟩ rfl (by simp [sendsS1, hpc])
      (.inr (.inr rfl))
  | wait =>
    simp only [stepS1, hpc, Option.ite_none_right_eq_some, Option.some.injEq] at h
    obtain ⟨-, rfl⟩ := h
    exact (moves_roundS1 hpc rfl).steady (suppliedW1_congr rfl (by simp [sendsS1, hpc]))
  | enqueue pc =>
    simp only [stepS1, hpc] at h
    split at h
    · cases h
    · next q next hstep =>
      cases h
      refine (moves_enqueueS1 hpc).steady (suppliedW1_congr rfl ?_)
      have hfits := hroom.w1Q
      have hcount : t.s1.count ≤ numElems := le_trans (Nat.le_add_right _ _) hroom.s1
      have hlength := length_enqueueStep (fun htest => by
        subst htest
        simp only [enqueueS1, hpc] at hfits
        exact hfits.count_ne hcount) hstep
      rw [sendsS1_afterEnqueue]
      simpa only [sendsS1, hpc] using hlength
  | waitW1 =>
    simp only [stepS1, hpc, Option.ite_none_right_eq_some, Option.some.injEq] at h
    obtain ⟨-, rfl⟩ := h
    exact (moves_waitW2 hpc rfl).steady (suppliedW1_congr rfl (by simp [sendsS1, hpc]))
  | waitW2 =>
    simp only [stepS1, hpc, Option.ite_none_right_eq_some, Option.some.injEq] at h
    obtain ⟨-, rfl⟩ := h
    exact steady_leaveS1 ⟨rfl, rfl, rfl, rfl, rfl, rfl⟩ rfl (by simp [sendsS1, hpc])
      (.inr (.inl rfl))
  | stop =>
    simp only [stepS1, hpc, Option.some.injEq] at h
    subst h
    exact steady_leaveS1 ⟨rfl, rfl, rfl, rfl, rfl, rfl⟩ rfl (by simp [sendsS1, hpc]) (.inl rfl)
  | done => simp [stepS1, hpc] at h

theorem keeps_failS1 (h : failS1 t = some t')
    (hsend : t.s1.pc = .enqueue .send → WillWait t .runningW1 →
      needsW1 t.w1 ≤ t.w1Q.messages.length) : Keeps t t' := by
  unfold failS1 at h
  split at h
  · next hpc =>
    cases h
    exact ((moves_roundS1 hpc rfl).steady (suppliedW1_congr rfl (by simp [sendsS1, hpc]))).keeps
  · next hpc =>
    cases h
    have hmoves : MovesS1 t { t with s1 := { t.s1 with pc := afterEnqueueS1 t.s1 none } } :=
      moves_enqueueS1 hpc
    refine hmoves.keeps fun hx => Nat.le_add_right_of_le (hsend hpc (.inl ?_))
    simpa [WillWait, hpc] using (hmoves.running _ (.inr rfl) hx).1
  · next hpc =>
    cases h
    exact ((moves_waitW2 hpc rfl).steady (suppliedW1_congr rfl (by simp [sendsS1, hpc]))).keeps
  · next hpc =>
    cases h
    exact Steady.keeps (steady_leaveS1 ⟨rfl, rfl, rfl, rfl, rfl, rfl⟩ rfl
      (by simp [sendsS1, hpc]) (.inr (.inl rfl)))
  · cases h

/-! ### W1 -/

/-- What `W1` leaves alone. -/
structure KeptByW1 (t t' : Threads.State) : Prop where
  s1 : t'.s1 = t.s1
  w2 : t'.w2 = t.w2
  sequencer : t'.sequencer = t.sequencer
  semS1 : t'.sems.semS1 = t.sems.semS1
  semW2 : t'.sems.semW2 = t.sems.semW2
  runningW2 : t'.sems.runningW2 = t.sems.runningW2

/-- `W1` moves on, without a test of `running`, and takes from its queue what it no longer needs. -/
structure MovesW1 (t t' : Threads.State) : Prop where
  kept : KeptByW1 t t'
  wait : t'.w1.pc ≠ .wait
  needs : needsW1 t'.w1 + t.w1Q.messages.length = needsW1 t.w1 + t'.w1Q.messages.length
  sends : t'.w2Q.messages.length + inRoundW1 t'.w1 = t.w2Q.messages.length + inRoundW1 t.w1
  last : t.w1.pc ≠ .post → (LastRoundW1 t'.w1 ↔ LastRoundW1 t.w1)
  posts : t'.sems.runningW1 = t.sems.runningW1 + if t.w1.pc = .post then 1 else 0

theorem inRoundW1_of_needs {w1 : W1} (h : 0 < needsW1 w1) : inRoundW1 w1 = 1 := by
  unfold needsW1 at h
  unfold inRoundW1
  split at h
  · next hpc => rw [hpc]
  · next hpc => rw [hpc]
  · exact absurd h (lt_irrefl 0)

theorem MovesW1.suppliedW1 (h : MovesW1 t t') : SuppliedW1 t' ↔ SuppliedW1 t := by
  have hneeds := h.needs
  unfold SuppliedW1
  rw [h.kept.s1]
  omega

theorem needsW1_pos (h : ¬ SuppliedW1 t) : 0 < needsW1 t.w1 := by
  unfold SuppliedW1 at h
  omega

theorem MovesW1.suppliedW2 (h : MovesW1 t t') : SuppliedW2 t' ↔ SuppliedW2 t := by
  have hsends := h.sends
  have hsupply : t'.w2Q.messages.length + sendsW1 t' = t.w2Q.messages.length + sendsW1 t := by
    unfold sendsW1
    by_cases hmsg : SuppliedW1 t
    · rw [if_pos hmsg, if_pos (h.suppliedW1.2 hmsg)]
      exact hsends
    · -- `W1` has not yet come to its `enqueue_P`
      have hmsg' : ¬ SuppliedW1 t' := mt h.suppliedW1.1 hmsg
      rw [inRoundW1_of_needs (needsW1_pos hmsg), inRoundW1_of_needs (needsW1_pos hmsg')] at hsends
      rw [if_neg hmsg, if_neg hmsg']
      omega
  unfold SuppliedW2
  rw [h.kept.w2, hsupply]

theorem KeptByW1.frame (h : KeptByW1 t t') (hwait : t'.w1.pc ≠ .wait) (hx : WillWait t' x) :
    WillWait t x ∧ (x = .runningW1 ∨ value t' x = value t x ∧
      (x = .runningW2 ∨ (WillPost t' x ↔ WillPost t x))) := by
  cases x with
  | semS1 =>
    simp only [WillWait, h.s1] at hx
    exact ⟨hx, .inr ⟨h.semS1, .inr (by simp only [WillPost, h.sequencer])⟩⟩
  | semW1 => exact absurd hx hwait
  | semW2 =>
    simp only [WillWait, h.w2] at hx
    exact ⟨hx, .inr ⟨h.semW2, .inr (by simp only [WillPost, h.sequencer])⟩⟩
  | runningW1 =>
    simp only [WillWait, h.s1] at hx
    exact ⟨hx, .inl rfl⟩
  | runningW2 =>
    simp only [WillWait, h.s1] at hx
    exact ⟨hx, .inr ⟨h.runningW2, .inl rfl⟩⟩

theorem MovesW1.runningW1 (h : MovesW1 t t') :
    Provided t' .runningW1 ↔ Provided t .runningW1 := by
  have hposts := h.posts
  by_cases hpost : t.w1.pc = .post
  · rw [if_pos hpost] at hposts
    refine iff_of_true (.inl (by simp only [value]; omega)) (.inr ⟨?_, ?_⟩)
    · simp only [LastRoundW1, hpost]
    · simp only [SuppliedW1, needsW1, hpost, Nat.zero_le]
  · rw [if_neg hpost] at hposts
    exact provided_congr hposts (and_congr (h.last hpost) h.suppliedW1)

theorem MovesW1.steady (h : MovesW1 t t') : Steady t t' := by
  intro x hx
  obtain ⟨hwill, rfl | ⟨hvalue, rfl | hpost⟩⟩ := h.kept.frame h.wait hx
  · exact ⟨hwill, h.runningW1⟩
  · refine ⟨hwill, provided_congr hvalue (and_congr ?_ h.suppliedW2)⟩
    rw [h.kept.w2]
  · exact ⟨hwill, provided_congr hvalue hpost⟩

theorem length_dequeueStep {q q' : Queue} {pc : DequeuePc} {y : DequeuePc ⊕ ℤ}
    (h : dequeueStep sizeofPtr q pc = some (q', y)) :
    Sum.elim receives (fun _ => 0) y + q.messages.length = receives pc + q'.messages.length := by
  cases pc with
  | down =>
    simp only [dequeueStep] at h
    split_ifs at h
    cases h
    rfl
  | receive =>
    cases hq : q.messages with
    | nil => simp [dequeueStep, hq] at h
    | cons m messages =>
      simp only [dequeueStep, hq, Option.some.injEq, Prod.mk.injEq] at h
      obtain ⟨rfl, rfl⟩ := h
      simp [receives]
      omega
  | copyOut =>
    cases h
    rfl

theorem needsW1_afterDequeue (w1 : W1) (second : Bool) (y : DequeuePc ⊕ ℤ) :
    needsW1 (afterDequeueW1 w1 second y) =
      (if second then 0 else 1) + Sum.elim receives (fun _ => 0) y := by
  cases y <;> cases second <;> rfl

theorem needsW1_afterEnqueue (w1 : W1) (next : Option EnqueuePc) :
    needsW1 { w1 with pc := afterEnqueueW1 w1 next } = 0 := by
  cases next with
  | none =>
    simp only [needsW1, afterEnqueueW1]
    split_ifs <;> rfl
  | some pc => rfl

theorem inRoundW1_afterDequeue (w1 : W1) (second : Bool) (y : DequeuePc ⊕ ℤ) :
    inRoundW1 (afterDequeueW1 w1 second y) = 1 := by
  cases y <;> cases second <;> rfl

theorem inRoundW1_afterEnqueue (w1 : W1) (next : Option EnqueuePc) :
    inRoundW1 { w1 with pc := afterEnqueueW1 w1 next } = if next = none then 0 else 1 := by
  cases next with
  | none =>
    simp only [inRoundW1, afterEnqueueW1]
    split_ifs <;> rfl
  | some pc => rfl

theorem lastRoundW1_afterDequeue {w1 : W1} {second : Bool} {pc : DequeuePc}
    (hpc : w1.pc = .dequeue second pc) (y : DequeuePc ⊕ ℤ) :
    LastRoundW1 (afterDequeueW1 w1 second y) ↔ LastRoundW1 w1 := by
  have hadd : 198 < w1.w2DequeueCount + 2 ↔ 196 < w1.w2DequeueCount := by omega
  cases y <;> cases second <;> simp [LastRoundW1, afterDequeueW1, hpc, hadd]

theorem lastRoundW1_afterEnqueue {w1 : W1} {pc : EnqueuePc} (hpc : w1.pc = .enqueue pc)
    (next : Option EnqueuePc) :
    LastRoundW1 { w1 with pc := afterEnqueueW1 w1 next } ↔ LastRoundW1 w1 := by
  cases next with
  | none =>
    by_cases hcount : 198 < w1.w2DequeueCount <;>
      simp [LastRoundW1, afterEnqueueW1, hpc, hcount]
  | some pc => simp [LastRoundW1, afterEnqueueW1, hpc]

theorem afterDequeueW1_ne_wait (w1 : W1) (second : Bool) (y : DequeuePc ⊕ ℤ) :
    (afterDequeueW1 w1 second y).pc ≠ .wait := by
  cases y <;> cases second <;> simp [afterDequeueW1]

theorem afterEnqueueW1_ne_wait (w1 : W1) (next : Option EnqueuePc) :
    afterEnqueueW1 w1 next ≠ .wait := by
  cases next with
  | none =>
    simp only [afterEnqueueW1]
    split_ifs <;> simp
  | some pc => simp [afterEnqueueW1]

theorem moves_roundW1 {sems : Sems} (hpc : t.w1.pc = .wait)
    (hsems : sems = { t.sems with semW1 := sems.semW1 }) :
    MovesW1 t { t with sems := sems, w1 := { t.w1 with pc := .dequeue false .down } } := by
  rw [hsems]
  exact ⟨⟨rfl, rfl, rfl, rfl, rfl, rfl⟩, by simp, by simp [needsW1, receives, hpc],
    by simp [inRoundW1, hpc], by simp [LastRoundW1, hpc], by simp [hpc]⟩

/-- **A step of `W1` after the shutdown.** -/
theorem moves_stepW1 (hroom : Room sizeofPtr t) (hrunning : t.running = false)
    (h : stepW1 sizeofPtr t = some t') : MovesW1 t t' := by
  cases hpc : t.w1.pc with
  | loop =>
    simp only [stepW1, hpc, hrunning, Option.some.injEq] at h
    subst h
    exact ⟨⟨rfl, rfl, rfl, rfl, rfl, rfl⟩, by simp, by simp [needsW1, hpc],
      by simp [inRoundW1, hpc], by simp [LastRoundW1, hpc], by simp [hpc]⟩
  | wait =>
    simp only [stepW1, hpc, Option.ite_none_right_eq_some, Option.some.injEq] at h
    obtain ⟨-, rfl⟩ := h
    exact moves_roundW1 hpc rfl
  | dequeue second pc =>
    simp only [stepW1, hpc] at h
    split at h
    · cases h
    · next q y hstep =>
      cases h
      have hlength := length_dequeueStep hstep
      refine ⟨⟨rfl, rfl, rfl, rfl, rfl, rfl⟩, afterDequeueW1_ne_wait _ _ _, ?_, ?_,
        fun _ => lastRoundW1_afterDequeue hpc y, by simp [hpc]⟩
      · rw [needsW1_afterDequeue]
        simp only [needsW1, hpc]
        omega
      · rw [inRoundW1_afterDequeue]
        simp only [inRoundW1, hpc]
  | enqueue pc =>
    simp only [stepW1, hpc] at h
    split at h
    · cases h
    · next q next hstep =>
      cases h
      have hfits := hroom.w2Q
      have hcount : t.w1.w2DequeueCount / 2 ≤ numElems := by
        have hw1 := hroom.w1
        simp only [numElems]
        omega
      have hlength := length_enqueueStep (fun htest => by
        subst htest
        simp only [enqueueW1, hpc] at hfits
        exact hfits.count_ne hcount) hstep
      refine ⟨⟨rfl, rfl, rfl, rfl, rfl, rfl⟩, afterEnqueueW1_ne_wait _ _, ?_, ?_,
        fun _ => lastRoundW1_afterEnqueue hpc next, by simp [hpc]⟩
      · rw [needsW1_afterEnqueue]
        simp only [needsW1, hpc]
      · rw [inRoundW1_afterEnqueue]
        simpa only [inRoundW1, hpc] using hlength
  | post =>
    simp only [stepW1, hpc, Option.some.injEq] at h
    subst h
    exact ⟨⟨rfl, rfl, rfl, rfl, rfl, rfl⟩, by simp, by simp [needsW1, hpc],
      by simp [inRoundW1, hpc], fun hpost => absurd hpc hpost, by simp [hpc]⟩
  | done => simp [stepW1, hpc] at h

theorem KeptByW1.keeps (h : KeptByW1 t t') (hwait : t'.w1.pc ≠ .wait)
    (hrunningW1 : WillWait t .runningW1 → Provided t .runningW1 → Provided t' .runningW1)
    (hmsg : WillWait t .runningW2 → SuppliedW2 t → SuppliedW2 t') : Keeps t t' := by
  intro x hx
  obtain ⟨hwill, rfl | ⟨hvalue, rfl | hpost⟩⟩ := h.frame hwait hx
  · exact ⟨hwill, hrunningW1 hwill⟩
  · exact ⟨hwill, fun hp => hp.imp (fun hpos => hvalue ▸ hpos) fun hpost =>
      ⟨h.w2 ▸ hpost.1, hmsg hwill hpost.2⟩⟩
  · exact ⟨hwill, (provided_congr hvalue hpost).2⟩

theorem keeps_skipW1 {second : Bool} {pc : DequeuePc} (hpc : t.w1.pc = .dequeue second pc)
    (num : ℤ) : Keeps t { t with w1 := afterDequeueW1 t.w1 second (.inr num) } := by
  have hmsg : SuppliedW1 t →
      SuppliedW1 { t with w1 := afterDequeueW1 t.w1 second (.inr num) } := by
    unfold SuppliedW1
    rw [needsW1_afterDequeue]
    simp only [needsW1, hpc, Sum.elim_inr]
    omega
  refine KeptByW1.keeps ⟨rfl, rfl, rfl, rfl, rfl, rfl⟩ (afterDequeueW1_ne_wait _ _ _)
    (fun _ hp => hp.imp id fun hpost => ⟨(lastRoundW1_afterDequeue hpc _).2 hpost.1,
      hmsg hpost.2⟩) fun _ hsupplied => le_trans hsupplied (Nat.add_le_add_left ?_ _)
  unfold sendsW1
  by_cases hsupplied : SuppliedW1 t
  · rw [if_pos hsupplied, if_pos (hmsg hsupplied), inRoundW1_afterDequeue]
    simp only [inRoundW1, hpc, le_rfl]
  · rw [if_neg hsupplied]
    exact Nat.zero_le _

theorem keeps_failW1 (h : failW1 t = some t')
    (hsend : t.w1.pc = .enqueue .send → WillWait t .runningW2 →
      needsW2 t.w2 ≤ t.w2Q.messages.length) : Keeps t t' := by
  unfold failW1 at h
  split at h
  · next hpc =>
    cases h
    exact (moves_roundW1 hpc rfl).steady.keeps
  · next second hpc =>
    cases h
    exact keeps_skipW1 hpc _
  · next hpc =>
    cases h
    refine KeptByW1.keeps ⟨rfl, rfl, rfl, rfl, rfl, rfl⟩ (afterEnqueueW1_ne_wait _ none)
      (fun _ hp => hp.imp id fun hpost => ⟨(lastRoundW1_afterEnqueue hpc none).2 hpost.1, ?_⟩)
      fun hwill _ => Nat.le_add_right_of_le (hsend hpc hwill)
    unfold SuppliedW1
    rw [needsW1_afterEnqueue]
    exact Nat.zero_le _
  · cases h

/-! ### W2 -/

/-- What `W2` leaves alone. -/
structure KeptByW2 (t t' : Threads.State) : Prop where
  s1 : t'.s1 = t.s1
  w1 : t'.w1 = t.w1
  w1Q : t'.w1Q = t.w1Q
  sequencer : t'.sequencer = t.sequencer
  semS1 : t'.sems.semS1 = t.sems.semS1
  semW1 : t'.sems.semW1 = t.sems.semW1
  runningW1 : t'.sems.runningW1 = t.sems.runningW1

/-- `W2` moves on, without a test of `running`, and takes from its queue what it no longer needs. -/
structure MovesW2 (t t' : Threads.State) : Prop where
  kept : KeptByW2 t t'
  wait : t'.w2.pc ≠ .wait
  needs : needsW2 t'.w2 + t.w2Q.messages.length = needsW2 t.w2 + t'.w2Q.messages.length
  last : t.w2.pc ≠ .post → (LastRoundW2 t'.w2 ↔ LastRoundW2 t.w2)
  posts : t'.sems.runningW2 = t.sems.runningW2 + if t.w2.pc = .post then 1 else 0

theorem KeptByW2.suppliedW1 (h : KeptByW2 t t') : SuppliedW1 t' ↔ SuppliedW1 t := by
  unfold SuppliedW1
  rw [h.s1, h.w1, h.w1Q]

theorem KeptByW2.sendsW1 (h : KeptByW2 t t') : sendsW1 t' = sendsW1 t := by
  simp only [Shutdown.sendsW1, h.suppliedW1, h.w1]

theorem KeptByW2.frame (h : KeptByW2 t t') (hwait : t'.w2.pc ≠ .wait) (hx : WillWait t' x) :
    WillWait t x ∧ (x = .runningW2 ∨ (Provided t' x ↔ Provided t x)) := by
  cases x with
  | semS1 =>
    simp only [WillWait, h.s1] at hx
    exact ⟨hx, .inr (provided_congr h.semS1 (by simp only [WillPost, h.sequencer]))⟩
  | semW1 =>
    simp only [WillWait, h.w1] at hx
    exact ⟨hx, .inr (provided_congr h.semW1 (by simp only [WillPost, h.sequencer]))⟩
  | semW2 => exact absurd hx hwait
  | runningW1 =>
    simp only [WillWait, h.s1] at hx
    exact ⟨hx, .inr (provided_congr h.runningW1 (by simp only [WillPost, h.w1, h.suppliedW1]))⟩
  | runningW2 =>
    simp only [WillWait, h.s1] at hx
    exact ⟨hx, .inl rfl⟩

theorem MovesW2.steady (h : MovesW2 t t') : Steady t t' := by
  intro x hx
  obtain ⟨hwill, rfl | hprovided⟩ := h.kept.frame h.wait hx
  · refine ⟨hwill, ?_⟩
    have hposts := h.posts
    by_cases hpost : t.w2.pc = .post
    · rw [if_pos hpost] at hposts
      refine iff_of_true (.inl (by simp only [value]; omega)) (.inr ⟨?_, ?_⟩)
      · simp only [LastRoundW2, hpost]
      · simp only [SuppliedW2, needsW2, hpost, Nat.zero_le]
    · rw [if_neg hpost] at hposts
      refine provided_congr hposts (and_congr (h.last hpost) ?_)
      have hneeds := h.needs
      unfold SuppliedW2
      rw [h.kept.sendsW1]
      omega
  · exact ⟨hwill, hprovided⟩

theorem afterDequeueW2_ne_wait (w2 : W2) (y : DequeuePc ⊕ ℤ) :
    (afterDequeueW2 w2 y).pc ≠ .wait := by
  cases y with
  | inl pc => simp [afterDequeueW2]
  | inr get =>
    simp only [afterDequeueW2]
    split_ifs <;> simp

theorem needsW2_afterDequeue (w2 : W2) (y : DequeuePc ⊕ ℤ) :
    needsW2 (afterDequeueW2 w2 y) = Sum.elim receives (fun _ => 0) y := by
  cases y with
  | inl pc => rfl
  | inr get =>
    simp only [needsW2, afterDequeueW2]
    split_ifs <;> rfl

theorem lastRoundW2_afterDequeue {w2 : W2} {pc : DequeuePc} (hpc : w2.pc = .dequeue pc)
    (y : DequeuePc ⊕ ℤ) : LastRoundW2 (afterDequeueW2 w2 y) ↔ LastRoundW2 w2 := by
  cases y with
  | inl pc => simp [LastRoundW2, afterDequeueW2, hpc]
  | inr get => by_cases hcount : w2.totalCount = 99 <;>
      simp [LastRoundW2, afterDequeueW2, hpc, hcount]

theorem moves_roundW2 {sems : Sems} (hpc : t.w2.pc = .wait)
    (hsems : sems = { t.sems with semW2 := sems.semW2 }) :
    MovesW2 t { t with sems := sems, w2 := { t.w2 with pc := .dequeue .down } } := by
  rw [hsems]
  exact ⟨⟨rfl, rfl, rfl, rfl, rfl, rfl, rfl⟩, by simp, by simp [needsW2, receives, hpc],
    by simp [LastRoundW2, hpc], by simp [hpc]⟩

/-- **A step of `W2` after the shutdown.** -/
theorem moves_stepW2 (hrunning : t.running = false) (h : stepW2 sizeofPtr t = some t') :
    MovesW2 t t' := by
  cases hpc : t.w2.pc with
  | loop =>
    simp only [stepW2, hpc, hrunning, Option.some.injEq] at h
    subst h
    exact ⟨⟨rfl, rfl, rfl, rfl, rfl, rfl, rfl⟩, by simp, by simp [needsW2, hpc],
      by simp [LastRoundW2, hpc], by simp [hpc]⟩
  | wait =>
    simp only [stepW2, hpc, Option.ite_none_right_eq_some, Option.some.injEq] at h
    obtain ⟨-, rfl⟩ := h
    exact moves_roundW2 hpc rfl
  | dequeue pc =>
    simp only [stepW2, hpc] at h
    split at h
    · cases h
    · next q y hstep =>
      cases h
      refine ⟨⟨rfl, rfl, rfl, rfl, rfl, rfl, rfl⟩, afterDequeueW2_ne_wait _ y, ?_,
        fun _ => lastRoundW2_afterDequeue hpc y, by simp [hpc]⟩
      rw [needsW2_afterDequeue]
      simpa only [needsW2, hpc] using length_dequeueStep hstep
  | post =>
    simp only [stepW2, hpc, Option.some.injEq] at h
    subst h
    exact ⟨⟨rfl, rfl, rfl, rfl, rfl, rfl, rfl⟩, by simp, by simp [needsW2, hpc],
      fun hpost => absurd hpc hpost, by simp [hpc]⟩
  | done => simp [stepW2, hpc] at h

theorem KeptByW2.keeps (h : KeptByW2 t t') (hwait : t'.w2.pc ≠ .wait)
    (hrunningW2 : WillWait t .runningW2 → Provided t .runningW2 → Provided t' .runningW2) :
    Keeps t t' := by
  intro x hx
  obtain ⟨hwill, rfl | hprovided⟩ := h.frame hwait hx
  · exact ⟨hwill, hrunningW2 hwill⟩
  · exact ⟨hwill, hprovided.2⟩

theorem keeps_failW2 {get : ℤ} (h : failW2 get t = some t') : Keeps t t' := by
  unfold failW2 at h
  split at h
  · next hpc =>
    cases h
    exact (moves_roundW2 hpc rfl).steady.keeps
  · next hpc =>
    cases h
    refine KeptByW2.keeps ⟨rfl, rfl, rfl, rfl, rfl, rfl, rfl⟩ (afterDequeueW2_ne_wait _ (.inr get))
      fun _ hp => hp.imp id fun hpost => ⟨(lastRoundW2_afterDequeue hpc _).2 hpost.1, ?_⟩
    unfold SuppliedW2
    rw [needsW2_afterDequeue]
    exact Nat.zero_le _
  · cases h

/-! ### The other turns -/

theorem steady_stepSequencer (hrunning : t.running = false) : Steady t (stepSequencer t) := by
  intro x hx
  unfold stepSequencer at hx ⊢
  cases hpc : t.sequencer.pc <;> simp only [hpc] at hx ⊢ <;> cases x <;>
    refine ⟨hx, ?_⟩ <;> first
      | exact Iff.rfl
      | simp [Provided, value, WillPost, Threads.postEvery_pos, hpc, hrunning]

theorem sendsW1_le (t : Threads.State) : sendsW1 t ≤ inRoundW1 t.w1 := by
  unfold sendsW1
  split_ifs
  · exact le_rfl
  · exact Nat.zero_le _

theorem keptByW1_done (t : Threads.State) :
    KeptByW1 t { t with w1 := { t.w1 with pc := .done } } := ⟨rfl, rfl, rfl, rfl, rfl, rfl⟩

theorem keptByW2_done (t : Threads.State) :
    KeptByW2 t { t with w2 := { t.w2 with pc := .done } } := ⟨rfl, rfl, rfl, rfl, rfl, rfl, rfl⟩

theorem suppliedW2_done (hpc : t.w1.pc = .loop ∨ t.w1.pc = .post) :
    SuppliedW2 { t with w1 := { t.w1 with pc := .done } } ↔ SuppliedW2 t := by
  have hsends : sendsW1 t = 0 := by
    refine Nat.le_zero.1 ((sendsW1_le t).trans ?_)
    unfold inRoundW1
    rcases hpc with hpc | hpc <;> rw [hpc]
  have hsends' : sendsW1 { t with w1 := { t.w1 with pc := .done } } = 0 :=
    Nat.le_zero.1 (sendsW1_le _)
  unfold SuppliedW2
  rw [hsends, hsends']

theorem keeps_giveUp {p : Party} (h : giveUp t p = some t')
    (hw1 : p = .w1 → t.w1.pc = .post → ¬ WillWait t .runningW1)
    (hw2 : p = .w2 → t.w2.pc = .post → ¬ WillWait t .runningW2) : Keeps t t' := by
  cases p with
  | s1 =>
    simp only [giveUp, Option.ite_none_right_eq_some, Option.some.injEq] at h
    obtain ⟨hpc, rfl⟩ := h
    exact Steady.keeps (steady_leaveS1 ⟨rfl, rfl, rfl, rfl, rfl, rfl⟩ rfl
      (by simp [sendsS1, hpc]) (.inr (.inr rfl)))
  | w1 =>
    simp only [giveUp, Option.ite_none_right_eq_some, Option.some.injEq] at h
    obtain ⟨hpc, rfl⟩ := h
    refine (keptByW1_done t).keeps (by simp) (fun hwill hp => ?_) fun _ => (suppliedW2_done hpc).2
    rcases hpc with hpc | hpc
    · refine hp.imp id fun hpost => ?_
      simp [WillPost, LastRoundW1, hpc] at hpost
    · exact absurd hwill (hw1 rfl hpc)
  | w2 =>
    simp only [giveUp, Option.ite_none_right_eq_some, Option.some.injEq] at h
    obtain ⟨hpc, rfl⟩ := h
    refine (keptByW2_done t).keeps (by simp) fun hwill hp => ?_
    rcases hpc with hpc | hpc
    · refine hp.imp id fun hpost => ?_
      simp [WillPost, LastRoundW2, hpc] at hpost
    · exact absurd hwill (hw2 rfl hpc)
  | sequencer => cases h

/-! ### All turns -/

theorem running_stepS1 (hrunning : t.running = false) (h : stepS1 sizeofPtr t = some t') :
    t'.running = false := by
  unfold stepS1 at h
  repeat' split at h
  all_goals cases h <;> first | exact hrunning | rfl

theorem running_stepW1 (hrunning : t.running = false) (h : stepW1 sizeofPtr t = some t') :
    t'.running = false := by
  unfold stepW1 at h
  repeat' split at h
  all_goals cases h <;> exact hrunning

theorem running_stepW2 (hrunning : t.running = false) (h : stepW2 sizeofPtr t = some t') :
    t'.running = false := by
  unfold stepW2 at h
  repeat' split at h
  all_goals cases h <;> exact hrunning

theorem running_stepSequencer (hrunning : t.running = false) :
    (stepSequencer t).running = false := by
  unfold stepSequencer
  split <;> exact hrunning

theorem running_failStep {p : Party} {get : ℤ} (hrunning : t.running = false)
    (h : failStep get t p = some t') : t'.running = false := by
  cases p <;> simp only [failStep, failS1, failW1, failW2] at h
  case sequencer => cases h
  all_goals split at h <;> cases h <;> exact hrunning

theorem running_giveUp {p : Party} (hrunning : t.running = false) (h : giveUp t p = some t') :
    t'.running = false := by
  cases p <;> simp only [giveUp, Option.ite_none_right_eq_some, reduceCtorEq] at h
  all_goals
    obtain ⟨-, h⟩ := h
    cases h
    exact hrunning

theorem steady_step {p : Party} (hroom : Room sizeofPtr t) (hrunning : t.running = false)
    (h : Threads.step sizeofPtr t p = some t') : Steady t t' ∧ t'.running = false := by
  cases p with
  | s1 => exact ⟨steady_stepS1 hroom hrunning h, running_stepS1 hrunning h⟩
  | w1 => exact ⟨(moves_stepW1 hroom hrunning h).steady, running_stepW1 hrunning h⟩
  | w2 => exact ⟨(moves_stepW2 hrunning h).steady, running_stepW2 hrunning h⟩
  | sequencer =>
    cases h
    exact ⟨steady_stepSequencer hrunning, running_stepSequencer hrunning⟩

theorem keeps_step (hroom : Room sizeofPtr s.threads) (hrunning : s.threads.running = false)
    (hfinished : s.ctrlC = .finished) (hok : Prepared s a) (h : step sizeofPtr s a = some s') :
    Keeps s.threads s'.threads ∧ s'.threads.running = false := by
  cases a with
  | party p =>
    obtain ⟨t, ht, rfl⟩ := Option.map_eq_some_iff.1 h
    obtain ⟨hsteady, hrunning'⟩ := steady_step hroom hrunning ht
    exact ⟨hsteady.keeps, hrunning'⟩
  | fail p get =>
    obtain ⟨t, ht, rfl⟩ := Option.map_eq_some_iff.1 h
    refine ⟨?_, running_failStep hrunning ht⟩
    cases p with
    | s1 => exact keeps_failS1 ht (hok hfinished)
    | w1 => exact keeps_failW1 ht (hok hfinished)
    | w2 => exact keeps_failW2 ht
    | sequencer => cases ht
  | giveUp p =>
    obtain ⟨-, t, ht, rfl⟩ := giveUp_eq_some h
    refine ⟨keeps_giveUp ht ?_ ?_, running_giveUp hrunning ht⟩
    · rintro rfl
      exact hok hfinished
    · rintro rfl
      exact hok hfinished
  | ctrlC => simp [step, stepCtrlC, hfinished] at h

end Ecen5623.Pipeline.Provided
