import Ecen5623.Pipeline.Conservation

/-! # The pipeline comes to its end

From every state of a run whose threads keep apart, the run can go on to the end: `S1`, `W1` and
`W2` have returned, both queues are empty with their counters at `0`, and the total is the sum of
the numbers up to 200 (`completes`). There is a step that brings a service forward as long as one
has not returned (`exists_forward`): `S1` first, and `W1` and `W2` when it waits for them; where a
semaphore is `0` the sequencer is run until it posts, and where a thread would write to a buffer
that is still needed, the other thread is run. `rank` counts the steps the services have left. -/

namespace Ecen5623.Pipeline.Completion

open Ecen5623.Library Ecen5623.Pipeline.Channel Ecen5623.Pipeline.Threads
open Ecen5623.Pipeline.Conservation

/-- The assertion on the size of a pointer holds. -/
abbrev step : State → Party → Option State := Threads.step maxPayloadSize

/-- `s'` comes after `s` in a run whose threads keep apart. -/
abbrev After (s s' : State) : Prop := Reach step Apart s s'

variable {s s' s'' : State} {p : Party} {b₁ b₂ : ℤ}

/-! ### Running the sequencer -/

/-- Only the sequencer has taken steps. -/
structure Ticked (s s' : State) : Prop where
  w1Q : s'.w1Q = s.w1Q
  w2Q : s'.w2Q = s.w2Q
  running : s'.running = s.running
  s1 : s'.s1 = s.s1
  w1 : s'.w1 = s.w1
  w2 : s'.w2 = s.w2
  semS1 : s.sems.semS1 ≤ s'.sems.semS1
  semW1 : s.sems.semW1 ≤ s'.sems.semW1
  semW2 : s.sems.semW2 ≤ s'.sems.semW2
  after : After s s'

theorem Ticked.refl (s : State) : Ticked s s :=
  ⟨rfl, rfl, rfl, rfl, rfl, rfl, le_rfl, le_rfl, le_rfl, .init⟩

theorem Ticked.trans (h : Ticked s s') (h' : Ticked s' s'') : Ticked s s'' where
  w1Q := h'.w1Q.trans h.w1Q
  w2Q := h'.w2Q.trans h.w2Q
  running := h'.running.trans h.running
  s1 := h'.s1.trans h.s1
  w1 := h'.w1.trans h.w1
  w2 := h'.w2.trans h.w2
  semS1 := h.semS1.trans h'.semS1
  semW1 := h.semW1.trans h'.semW1
  semW2 := h.semW2.trans h'.semW2
  after := h.after.trans h'.after

theorem ticked_step (s : State) : Ticked s (stepSequencer s) := by
  have hafter : After s (stepSequencer s) := Reach.single (a := .sequencer) trivial rfl
  unfold stepSequencer at hafter ⊢
  split at hafter <;> exact ⟨rfl, rfl, rfl, rfl, rfl, rfl,
    by first | exact le_rfl | exact le_postEvery _ _ _,
    by first | exact le_rfl | exact le_postEvery _ _ _,
    by first | exact le_rfl | exact le_postEvery _ _ _, hafter⟩

theorem ticked_iterate (s : State) : ∀ n, Ticked s (stepSequencer^[n] s)
  | 0 => .refl s
  | n + 1 => by
    rw [Function.iterate_succ_apply']
    exact (ticked_iterate s n).trans (ticked_step _)

theorem exists_idle (s : State) : ∃ s', Ticked s s' ∧ s'.sequencer.pc = .idle := by
  cases hpc : s.sequencer.pc with
  | idle => exact ⟨s, .refl s, hpc⟩
  | postS1 => exact ⟨_, ticked_iterate s 4, by simp [stepSequencer, hpc]⟩
  | postW1 => exact ⟨_, ticked_iterate s 3, by simp [stepSequencer, hpc]⟩
  | postW2 => exact ⟨_, ticked_iterate s 2, by simp [stepSequencer, hpc]⟩
  | advance => exact ⟨_, ticked_iterate s 1, by simp [stepSequencer, hpc]⟩

theorem posts_of_dvd (hrun : s.running = true) (hpc : s.sequencer.pc = .idle)
    (hn : s.sequencer.seqCount % 100 = 0) :
    ∃ s', Ticked s s' ∧ 0 < s'.sems.semS1 ∧ 0 < s'.sems.semW1 ∧ 0 < s'.sems.semW2 := by
  refine ⟨_, ticked_iterate s 4, ?_⟩
  simp only [Function.iterate_succ, Function.iterate_zero, Function.comp_apply, id, stepSequencer,
    hpc, hrun, if_true]
  exact ⟨postEvery_pos.2 (.inr (by omega)), postEvery_pos.2 (.inr (by omega)),
    postEvery_pos.2 (.inr hn)⟩

/-- **The sequencer posts** as long as the services run. -/
theorem exists_posts (hrun : s.running = true) :
    ∃ s', Ticked s s' ∧ 0 < s'.sems.semS1 ∧ 0 < s'.sems.semW1 ∧ 0 < s'.sems.semW2 := by
  -- the signals that are left until the count is a multiple of 100
  have hleft : ∀ n s, s.running = true → s.sequencer.pc = .idle →
      (100 - s.sequencer.seqCount % 100) % 100 = n →
      ∃ s', Ticked s s' ∧ 0 < s'.sems.semS1 ∧ 0 < s'.sems.semW1 ∧ 0 < s'.sems.semW2 := by
    intro n
    induction n with
    | zero => exact fun s hrun hpc hn => posts_of_dvd hrun hpc (by omega)
    | succ n ih =>
      intro s hrun hpc hn
      have htick := ticked_iterate s 5
      have hseq : (stepSequencer^[5] s).sequencer =
          { pc := .idle
            seqCount := if s.sequencer.seqCount + 1 = 500 then 0
              else s.sequencer.seqCount + 1 } := by
        simp [stepSequencer, hpc, hrun]
      obtain ⟨s', hs', hposts⟩ := ih _ (htick.running.trans hrun) (by rw [hseq])
        (by rw [hseq]; split_ifs <;> dsimp only <;> omega)
      exact ⟨s', htick.trans hs', hposts⟩
  obtain ⟨s₁, h₁, hidle⟩ := exists_idle s
  obtain ⟨s₂, h₂, hposts⟩ := hleft _ s₁ (h₁.running.trans hrun) hidle rfl
  exact ⟨s₂, h₁.trans h₂, hposts⟩

/-! ### The steps that are left -/

/-- A round of `S1` has six steps, and four follow the last one. -/
def rankS1 (running : Bool) (s1 : S1) : ℕ :=
  match s1.pc with
  | .loop => if running then 6 * (200 - s1.count) + 4 else 1
  | .wait => 6 * (200 - s1.count) + 3
  | .enqueue .test => 6 * (200 - s1.count) + 8
  | .enqueue .up => 6 * (200 - s1.count) + 7
  | .enqueue .copy => 6 * (200 - s1.count) + 6
  | .enqueue .send => 6 * (200 - s1.count) + 5
  | .waitW1 => 4
  | .waitW2 => 3
  | .stop => 2
  | .done => 0

/-- A round of `W1` has twelve steps, and one follows the last one. -/
def rankW1 (w1 : W1) : ℕ :=
  match w1.pc with
  | .loop => 6 * (200 - w1.w2DequeueCount) + 1
  | .wait => 6 * (200 - w1.w2DequeueCount)
  | .dequeue false pc => 6 * (200 - w1.w2DequeueCount) - 4 + rankDequeue pc
  | .dequeue true pc => 6 * (200 - w1.w2DequeueCount) - 7 + rankDequeue pc
  | .enqueue pc => 6 * (200 - w1.w2DequeueCount) + 1 + rankEnqueue pc
  | .post => 1
  | .done => 0

/-- A round of `W2` has five steps, and one follows the last one. -/
def rankW2 (w2 : W2) : ℕ :=
  match w2.pc with
  | .loop => 5 * (100 - w2.totalCount) + 1
  | .wait => 5 * (100 - w2.totalCount)
  | .dequeue pc => 5 * (100 - w2.totalCount) - 4 + rankDequeue pc
  | .post => 1
  | .done => 0

def rank (s : State) : ℕ := rankS1 s.running s.s1 + rankW1 s.w1 + rankW2 s.w2

/-! ### The last rounds -/

/-- `S1` has taken the post of `W1`. -/
def TookW1 (s : State) : Prop := s.s1.pc = .waitW2 ∨ s.s1.pc = .stop ∨ s.running = false

/-- `S1` has taken the post of `W2`. -/
def TookW2 (s : State) : Prop := s.s1.pc = .stop ∨ s.running = false

/-- The last round of `S1`, and what follows it. -/
structure S1Ends (running : Bool) (s1 : S1) : Prop where
  stopped : running = false → s1.count = 200 ∧ (s1.pc = .loop ∨ s1.pc = .done)
  done : s1.pc = .done → running = false
  last : s1.pc = .waitW1 ∨ s1.pc = .waitW2 ∨ s1.pc = .stop → s1.count = 200

/-- `W1` returns after 100 rounds. -/
structure W1Ends (w1 : W1) : Prop where
  going : w1.pc = .loop ∨ w1.pc = .wait ∨ (∃ second pc, w1.pc = .dequeue second pc) →
    w1.w2DequeueCount ≤ 198
  le : w1.w2DequeueCount ≤ 200
  last : w1.pc = .post ∨ w1.pc = .done → w1.w2DequeueCount = 200

/-- `W2` returns after 100 rounds. -/
structure W2Ends (w2 : W2) : Prop where
  going : w2.pc = .loop ∨ w2.pc = .wait ∨ (∃ pc, w2.pc = .dequeue pc) → w2.totalCount ≤ 99
  last : w2.pc = .post ∨ w2.pc = .done → w2.totalCount = 100

/-- How the services end: `W1` and `W2` return with their posts, which `S1` takes before it clears
`running`. -/
structure Ends (s : State) : Prop where
  s1 : S1Ends s.running s.s1
  w1 : W1Ends s.w1
  w2 : W2Ends s.w2
  doneW1 : s.w1.pc = .done ↔ 0 < s.sems.runningW1 ∨ TookW1 s
  doneW2 : s.w2.pc = .done ↔ 0 < s.sems.runningW2 ∨ TookW2 s

theorem ends_init : Ends (init b₁ b₂) := by
  refine ⟨⟨nofun, nofun, by simp [init]⟩, ⟨fun _ => by simp [init], by simp [init], by simp [init]⟩,
    ⟨fun _ => by simp [init], by simp [init]⟩, ?_, ?_⟩ <;> simp [init, TookW1, TookW2]

theorem Ends.running_of_s1 (he : Ends s) (h1 : s.s1.pc ≠ .loop) (h2 : s.s1.pc ≠ .done) :
    s.running = true := by
  by_contra hr
  rcases (he.s1.stopped (by simpa using hr)).2 with h | h
  · exact h1 h
  · exact h2 h

theorem Ends.running_of_w1 (he : Ends s) (h : s.w1.pc ≠ .done) : s.running = true := by
  by_contra hr
  exact h (he.doneW1.mpr (.inr (.inr (.inr (by simpa using hr)))))

theorem Ends.running_of_w2 (he : Ends s) (h : s.w2.pc ≠ .done) : s.running = true := by
  by_contra hr
  exact h (he.doneW2.mpr (.inr (.inr (by simpa using hr))))

theorem Ends.setS1 (he : Ends s) {sems : Sems} {s1 : S1} {q : Queue} {sent : List ℤ}
    (hok : S1Ends s.running s1) (h1 : sems.runningW1 = s.sems.runningW1)
    (h2 : sems.runningW2 = s.sems.runningW2)
    (hwait : s1.pc = .waitW2 ↔ s.s1.pc = .waitW2) (hstop : s1.pc = .stop ↔ s.s1.pc = .stop) :
    Ends { s with sems := sems, s1 := s1, w1Q := q, sent := sent } where
  s1 := hok
  w1 := he.w1
  w2 := he.w2
  doneW1 := by
    rw [he.doneW1]
    simp only [h1, TookW1, hwait, hstop]
  doneW2 := by
    rw [he.doneW2]
    simp only [h2, TookW2, hstop]

theorem ends_stepS1 (he : Ends s) (h : stepS1 maxPayloadSize s = some s') :
    Ends s' := by
  obtain ⟨hstopped, hdone, hlast⟩ := he.s1
  unfold stepS1 at h
  split at h <;> rename_i hpc
  · cases h
    refine he.setS1 ?_ rfl rfl ?_ ?_
    · split_ifs with hrun
      · exact ⟨by simp [hrun], by simp, by simp⟩
      · exact ⟨fun hr => ⟨(hstopped hr).1, .inr rfl⟩, fun _ => by simpa using hrun, by simp⟩
    · split_ifs <;> simp [hpc]
    · split_ifs <;> simp [hpc]
  · have hrun := he.running_of_s1 (by simp [hpc]) (by simp [hpc])
    split_ifs at h
    cases h
    refine he.setS1 ⟨by simp [hrun], by simp, by simp⟩ rfl rfl ?_ ?_ <;> simp [hpc]
  · have hrun := he.running_of_s1 (by simp [hpc]) (by simp [hpc])
    split at h
    · cases h
    · next pc _ _ q next hstep =>
      cases h
      refine he.setS1 ⟨by simp [hrun], ?_, ?_⟩ rfl rfl ?_ ?_
      · cases next with
        | some => simp [afterEnqueueS1]
        | none => simp only [afterEnqueueS1]; split_ifs <;> simp
      · cases next with
        | some => simp [afterEnqueueS1]
        | none => simp only [afterEnqueueS1]; split_ifs <;> simp_all
      · cases next with
        | some => simp [afterEnqueueS1, hpc]
        | none => simp only [afterEnqueueS1, hpc]; split_ifs <;> simp
      · cases next with
        | some => simp [afterEnqueueS1, hpc]
        | none => simp only [afterEnqueueS1, hpc]; split_ifs <;> simp
  · -- the post of `W1`
    have hrun := he.running_of_s1 (by simp [hpc]) (by simp [hpc])
    split_ifs at h with hpos
    cases h
    have hw1 : s.w1.pc = .done := he.doneW1.mpr (.inl hpos)
    refine ⟨⟨by simp [hrun], by simp, fun _ => hlast (.inl hpc)⟩, he.w1, he.w2, ?_, ?_⟩
    · exact iff_of_true hw1 (.inr (.inl rfl))
    · rw [he.doneW2]
      simp [TookW2, hpc, hrun]
  · -- the post of `W2`
    have hrun := he.running_of_s1 (by simp [hpc]) (by simp [hpc])
    split_ifs at h with hpos
    cases h
    have hw1 : s.w1.pc = .done := he.doneW1.mpr (.inr (.inl hpc))
    have hw2 : s.w2.pc = .done := he.doneW2.mpr (.inl hpos)
    refine ⟨⟨by simp [hrun], by simp, fun _ => hlast (.inr (.inl hpc))⟩, he.w1, he.w2, ?_, ?_⟩
    · exact iff_of_true hw1 (.inr (.inr (.inl rfl)))
    · exact iff_of_true hw2 (.inr (.inl rfl))
  · cases h
    have hw1 : s.w1.pc = .done := he.doneW1.mpr (.inr (.inr (.inl hpc)))
    have hw2 : s.w2.pc = .done := he.doneW2.mpr (.inr (.inl hpc))
    refine ⟨⟨fun _ => ⟨hlast (.inr (.inr hpc)), .inl rfl⟩, by simp, by simp⟩, he.w1, he.w2, ?_, ?_⟩
    · exact iff_of_true hw1 (.inr (.inr (.inr rfl)))
    · exact iff_of_true hw2 (.inr (.inr rfl))
  · cases h

theorem Ends.setW1 (he : Ends s) {sems : Sems} {w1 : W1} {q₁ q₂ : Queue} (hok : W1Ends w1)
    (h1 : sems.runningW1 = s.sems.runningW1) (h2 : sems.runningW2 = s.sems.runningW2)
    (hdone : w1.pc = .done ↔ s.w1.pc = .done) :
    Ends { s with sems := sems, w1 := w1, w1Q := q₁, w2Q := q₂ } where
  s1 := he.s1
  w1 := hok
  w2 := he.w2
  doneW1 := by
    rw [hdone, he.doneW1]
    simp only [h1, TookW1]
  doneW2 := by
    rw [he.doneW2]
    simp only [h2, TookW2]

theorem ends_stepW1 (hs : Inv s) (he : Ends s) (h : stepW1 maxPayloadSize s = some s') :
    Ends s' := by
  obtain ⟨hgoing, hle, hlast⟩ := he.w1
  have heven := hs.w1.even
  unfold stepW1 at h
  split at h <;> rename_i hpc
  · cases h
    have hle' := hgoing (.inl hpc)
    have hrun : s.running = true := he.running_of_w1 (by simp [hpc])
    rw [if_pos hrun]
    refine he.setW1 ⟨fun _ => hle', hle, by simp⟩ rfl rfl ?_
    simp [hpc]
  · split_ifs at h
    cases h
    refine he.setW1 ⟨fun _ => hgoing (.inr (.inl hpc)), hle, by simp⟩ rfl rfl ?_
    simp [hpc]
  · split at h
    · cases h
    · next second pc _ _ q x hstep =>
      cases h
      have hle' := hgoing (.inr (.inr ⟨_, _, hpc⟩))
      refine he.setW1 ?_ rfl rfl ?_
      · unfold afterDequeueW1
        split
        · exact ⟨fun _ => hle', hle, by simp⟩
        · split_ifs
          · exact ⟨by simp, by dsimp only; omega, by simp⟩
          · exact ⟨fun _ => hle', hle, by simp⟩
      · unfold afterDequeueW1
        split
        · simp [hpc]
        · split_ifs <;> simp [hpc]
  · split at h
    · cases h
    · next pc _ _ q next hstep =>
      cases h
      refine he.setW1 ?_ rfl rfl ?_
      · unfold afterEnqueueW1
        split
        · exact ⟨by simp, hle, by simp⟩
        · split_ifs
          · exact ⟨by simp, hle, fun _ => by dsimp only; omega⟩
          · exact ⟨fun _ => by dsimp only; omega, hle, by simp⟩
      · unfold afterEnqueueW1
        split
        · simp [hpc]
        · split_ifs <;> simp [hpc]
  · cases h
    refine ⟨he.s1, ⟨by simp, hle, fun _ => hlast (.inl hpc)⟩, he.w2, ?_, ?_⟩
    · exact iff_of_true rfl (.inl (Nat.succ_pos _))
    · rw [he.doneW2]
      simp only [TookW2]
  · cases h

theorem Ends.setW2 (he : Ends s) {sems : Sems} {w2 : W2} {q : Queue} {got : List ℤ}
    (hok : W2Ends w2) (h1 : sems.runningW1 = s.sems.runningW1)
    (h2 : sems.runningW2 = s.sems.runningW2) (hdone : w2.pc = .done ↔ s.w2.pc = .done) :
    Ends { s with sems := sems, w2 := w2, w2Q := q, got := got } where
  s1 := he.s1
  w1 := he.w1
  w2 := hok
  doneW1 := by
    rw [he.doneW1]
    simp only [h1, TookW1]
  doneW2 := by
    rw [hdone, he.doneW2]
    simp only [h2, TookW2]

theorem ends_stepW2 (he : Ends s) (h : stepW2 maxPayloadSize s = some s') : Ends s' := by
  obtain ⟨hgoing, hlast⟩ := he.w2
  unfold stepW2 at h
  split at h <;> rename_i hpc
  · cases h
    have hle' := hgoing (.inl hpc)
    have hrun : s.running = true := he.running_of_w2 (by simp [hpc])
    rw [if_pos hrun]
    refine he.setW2 ⟨fun _ => hle', by simp⟩ rfl rfl ?_
    simp [hpc]
  · split_ifs at h
    cases h
    refine he.setW2 ⟨fun _ => hgoing (.inr (.inl hpc)), by simp⟩ rfl rfl ?_
    simp [hpc]
  · split at h
    · cases h
    · next pc _ _ q x hstep =>
      cases h
      have hle' := hgoing (.inr (.inr ⟨_, hpc⟩))
      refine he.setW2 ?_ rfl rfl ?_
      · unfold afterDequeueW2
        split
        · exact ⟨fun _ => hle', by simp⟩
        · constructor
          · dsimp only
            split_ifs
            · simp
            · exact fun _ => by omega
          · dsimp only
            split_ifs with hcount
            · exact fun _ => hcount
            · simp
      · unfold afterDequeueW2
        split
        · simp [hpc]
        · dsimp only
          split_ifs <;> simp [hpc]
  · cases h
    refine ⟨he.s1, he.w1, ⟨by simp, fun _ => hlast (.inl hpc)⟩, ?_, ?_⟩
    · rw [he.doneW1]
      simp only [TookW1]
    · exact iff_of_true rfl (.inl (Nat.succ_pos _))
  · cases h

theorem ends_stepSequencer (he : Ends s) : Ends (stepSequencer s) := by
  unfold stepSequencer
  cases s.sequencer.pc <;> exact ⟨he.s1, he.w1, he.w2, he.doneW1, he.doneW2⟩

theorem ends_step (hs : Inv s) (he : Ends s) (h : step s p = some s') : Ends s' := by
  cases p with
  | s1 => exact ends_stepS1 he h
  | w1 => exact ends_stepW1 hs he h
  | w2 => exact ends_stepW2 he h
  | sequencer =>
    cases h
    exact ends_stepSequencer he

/-! ### Every step of a service counts -/

theorem rankS1_afterEnqueue {running : Bool} {s1 : S1} {pc : EnqueuePc} {q q' : Queue}
    {next : Option EnqueuePc} (hpc : s1.pc = .enqueue pc)
    (h : enqueueStep maxPayloadSize q s1.count pc = some (q', next)) :
    rankS1 running { s1 with pc := afterEnqueueS1 s1 next } < rankS1 running s1 := by
  have hret : rankS1 running { s1 with pc := afterEnqueueS1 s1 none } <
      6 * (200 - s1.count) + 5 := by
    simp only [rankS1, afterEnqueueS1]
    split_ifs <;> dsimp only <;> omega
  have henter : ∀ pc', rankS1 running { s1 with pc := afterEnqueueS1 s1 (some pc') } =
      6 * (200 - s1.count) + 4 + rankEnqueue pc' := fun pc' => by cases pc' <;> rfl
  have hrank : rankS1 running s1 = 6 * (200 - s1.count) + 4 + rankEnqueue pc := by
    unfold rankS1
    rw [hpc]
    cases pc <;> rfl
  have hlt := rank_enqueueStep h
  rw [hrank]
  cases next with
  | none => exact hret.trans_le (Nat.add_le_add_left hlt _)
  | some pc' =>
    rw [henter]
    exact Nat.add_lt_add_left hlt _

theorem rank_stepS1 (hs : Inv s) (h : stepS1 maxPayloadSize s = some s') : rank s' < rank s := by
  suffices hlt : rankS1 s'.running s'.s1 < rankS1 s.running s.s1 ∧ s'.w1 = s.w1 ∧ s'.w2 = s.w2 by
    obtain ⟨hlt, hw1, hw2⟩ := hlt
    unfold rank
    rw [hw1, hw2]
    omega
  unfold stepS1 at h
  split at h <;> rename_i hpc
  · cases h
    refine ⟨?_, rfl, rfl⟩
    cases hrun : s.running <;> simp [rankS1, hpc]
  · split_ifs at h
    cases h
    have hlt := hs.s1.wait hpc
    refine ⟨?_, rfl, rfl⟩
    simp only [rankS1, hpc]
    omega
  · split at h
    · cases h
    · next hstep =>
      cases h
      exact ⟨rankS1_afterEnqueue hpc hstep, rfl, rfl⟩
  · split_ifs at h
    cases h
    exact ⟨by simp [rankS1, hpc], rfl, rfl⟩
  · split_ifs at h
    cases h
    exact ⟨by simp [rankS1, hpc], rfl, rfl⟩
  · cases h
    exact ⟨by simp [rankS1, hpc], rfl, rfl⟩
  · cases h

theorem rankW1_afterDequeue {w1 : W1} {second : Bool} {pc : DequeuePc} {q q' : Queue}
    {x : DequeuePc ⊕ ℤ} (hpc : w1.pc = .dequeue second pc) (hle : w1.w2DequeueCount ≤ 198)
    (h : dequeueStep maxPayloadSize q pc = some (q', x)) :
    rankW1 (afterDequeueW1 w1 second x) < rankW1 w1 := by
  have hrank : rankW1 w1 =
      6 * (200 - w1.w2DequeueCount) - (if second then 7 else 4) + rankDequeue pc := by
    unfold rankW1
    rw [hpc]
    cases second <;> rfl
  have henter : ∀ pc', rankW1 (afterDequeueW1 w1 second (.inl pc')) =
      6 * (200 - w1.w2DequeueCount) - (if second then 7 else 4) + rankDequeue pc' := fun pc' => by
    cases second <;> rfl
  have hret : ∀ num, rankW1 (afterDequeueW1 w1 second (.inr num)) <
      6 * (200 - w1.w2DequeueCount) - (if second then 7 else 4) + 1 := fun num => by
    cases second <;> simp only [rankW1, afterDequeueW1, rankDequeue, rankEnqueue, if_true,
      Bool.false_eq_true, if_false] <;> omega
  have hlt := rank_dequeueStep h
  rw [hrank]
  cases x with
  | inl pc' =>
    rw [henter]
    exact Nat.add_lt_add_left hlt _
  | inr num => exact (hret num).trans_le (Nat.add_le_add_left hlt _)

theorem rankW1_afterEnqueue {w1 : W1} {pc : EnqueuePc} {q q' : Queue} {next : Option EnqueuePc}
    (hpc : w1.pc = .enqueue pc)
    (h : enqueueStep maxPayloadSize q w1.sum pc = some (q', next)) :
    rankW1 { w1 with pc := afterEnqueueW1 w1 next } < rankW1 w1 := by
  have hret : rankW1 { w1 with pc := afterEnqueueW1 w1 none } ≤
      6 * (200 - w1.w2DequeueCount) + 1 := by
    simp only [rankW1, afterEnqueueW1]
    split_ifs <;> dsimp only <;> omega
  have henter : ∀ pc', rankW1 { w1 with pc := afterEnqueueW1 w1 (some pc') } =
      6 * (200 - w1.w2DequeueCount) + 1 + rankEnqueue pc' := fun _ => rfl
  have hrank : rankW1 w1 = 6 * (200 - w1.w2DequeueCount) + 1 + rankEnqueue pc := by
    unfold rankW1
    rw [hpc]
  have hlt := rank_enqueueStep h
  rw [hrank]
  cases next with
  | none => exact hret.trans_lt (Nat.lt_add_of_pos_right hlt)
  | some pc' =>
    rw [henter]
    exact Nat.add_lt_add_left hlt _

theorem rank_stepW1 (he : Ends s) (h : stepW1 maxPayloadSize s = some s') : rank s' < rank s := by
  suffices hlt : rankW1 s'.w1 < rankW1 s.w1 ∧ s'.running = s.running ∧ s'.s1 = s.s1 ∧
      s'.w2 = s.w2 by
    obtain ⟨hlt, hrun, hs1, hw2⟩ := hlt
    unfold rank
    rw [hrun, hs1, hw2]
    omega
  unfold stepW1 at h
  split at h <;> rename_i hpc
  · cases h
    refine ⟨?_, rfl, rfl, rfl⟩
    cases hrun : s.running <;> simp [rankW1, hpc]
  · split_ifs at h
    cases h
    have hle := he.w1.going (.inr (.inl hpc))
    refine ⟨?_, rfl, rfl, rfl⟩
    simp only [rankW1, rankDequeue, hpc]
    omega
  · split at h
    · cases h
    · next hstep =>
      cases h
      exact ⟨rankW1_afterDequeue hpc (he.w1.going (.inr (.inr ⟨_, _, hpc⟩))) hstep, rfl, rfl, rfl⟩
  · split at h
    · cases h
    · next hstep =>
      cases h
      exact ⟨rankW1_afterEnqueue hpc hstep, rfl, rfl, rfl⟩
  · cases h
    exact ⟨by simp [rankW1, hpc], rfl, rfl, rfl⟩
  · cases h

theorem rankW2_afterDequeue {w2 : W2} {pc : DequeuePc} {q q' : Queue} {x : DequeuePc ⊕ ℤ}
    (hpc : w2.pc = .dequeue pc) (hle : w2.totalCount ≤ 99)
    (h : dequeueStep maxPayloadSize q pc = some (q', x)) :
    rankW2 (afterDequeueW2 w2 x) < rankW2 w2 := by
  have hrank : rankW2 w2 = 5 * (100 - w2.totalCount) - 4 + rankDequeue pc := by
    unfold rankW2
    rw [hpc]
  have henter : ∀ pc', rankW2 (afterDequeueW2 w2 (.inl pc')) =
      5 * (100 - w2.totalCount) - 4 + rankDequeue pc' := fun _ => rfl
  have hret : ∀ get, rankW2 (afterDequeueW2 w2 (.inr get)) <
      5 * (100 - w2.totalCount) - 4 + 1 := fun get => by
    unfold rankW2 afterDequeueW2
    dsimp only
    split_ifs <;> dsimp only <;> omega
  have hlt := rank_dequeueStep h
  rw [hrank]
  cases x with
  | inl pc' =>
    rw [henter]
    exact Nat.add_lt_add_left hlt _
  | inr num => exact (hret num).trans_le (Nat.add_le_add_left hlt _)

theorem rank_stepW2 (he : Ends s) (h : stepW2 maxPayloadSize s = some s') : rank s' < rank s := by
  suffices hlt : rankW2 s'.w2 < rankW2 s.w2 ∧ s'.running = s.running ∧ s'.s1 = s.s1 ∧
      s'.w1 = s.w1 by
    obtain ⟨hlt, hrun, hs1, hw1⟩ := hlt
    unfold rank
    rw [hrun, hs1, hw1]
    omega
  unfold stepW2 at h
  split at h <;> rename_i hpc
  · cases h
    refine ⟨?_, rfl, rfl, rfl⟩
    cases hrun : s.running <;> simp [rankW2, hpc]
  · split_ifs at h
    cases h
    have hle := he.w2.going (.inr (.inl hpc))
    refine ⟨?_, rfl, rfl, rfl⟩
    simp only [rankW2, rankDequeue, hpc]
    omega
  · split at h
    · cases h
    · next hstep =>
      cases h
      exact ⟨rankW2_afterDequeue hpc (he.w2.going (.inr (.inr ⟨_, hpc⟩))) hstep, rfl, rfl, rfl⟩
  · cases h
    exact ⟨by simp [rankW2, hpc], rfl, rfl, rfl⟩
  · cases h

theorem rank_step (hs : Inv s) (he : Ends s) (hp : p ≠ .sequencer) (h : step s p = some s') :
    rank s' < rank s := by
  cases p with
  | s1 => exact rank_stepS1 hs h
  | w1 => exact rank_stepW1 he h
  | w2 => exact rank_stepW2 he h
  | sequencer => exact absurd rfl hp

theorem Ticked.rank_eq (h : Ticked s s') : rank s' = rank s := by
  unfold rank
  rw [h.running, h.s1, h.w1, h.w2]

/-! ### There is always a step that counts -/

/-- The run can go on so that fewer steps are left. -/
def Forward (s : State) : Prop := ∃ s', After s s' ∧ rank s' < rank s

theorem Forward.of_ticked (h : Ticked s s') (hf : Forward s') : Forward s := by
  obtain ⟨s'', hafter, hlt⟩ := hf
  exact ⟨s'', h.after.trans hafter, h.rank_eq ▸ hlt⟩

theorem forward_of_step (hs : Inv s) (he : Ends s) (hp : p ≠ .sequencer) (hok : Apart s p)
    (h : (step s p).isSome) : Forward s := by
  obtain ⟨s', hs'⟩ := Option.isSome_iff_exists.1 h
  exact ⟨s', Reach.single hok hs', rank_step hs he hp hs'⟩

theorem after_invariant (hs : Inv s) (he : Ends s) (h : After s s') : Inv s' ∧ Ends s' :=
  h.invariant (P := fun s => Inv s ∧ Ends s) ⟨hs, he⟩
    fun hP hok hstep => ⟨inv_step hP.1 hok hstep, ends_step hP.1 hP.2 hstep⟩

theorem forward_copyOutW2 (hs : Inv s) (he : Ends s) (h : dequeueW2 s.w2 = some .copyOut) :
    Forward s := by
  unfold dequeueW2 at h
  split at h
  · next hpc =>
    cases h
    refine forward_of_step hs he (p := .w2) (by simp) (fun hr => ?_) ?_
    · rw [hpc] at hr
      cases hr
    · simp [step, Threads.step, stepW2, hpc, dequeueStep]
  · cases h

theorem forward_copyOutW1 (hs : Inv s) (he : Ends s) (h : dequeueW1 s.w1 = some .copyOut) :
    Forward s := by
  have hok : Apart s .w1 := by
    refine ⟨fun hr => ?_, fun hc => ?_⟩
    · rw [h] at hr
      cases hr
    · rw [dequeueW1, hc] at h
      cases h
  refine forward_of_step hs he (p := .w1) (by simp) hok ?_
  unfold dequeueW1 at h
  split at h
  · next hpc =>
    cases h
    simp [step, Threads.step, stepW1, hpc, dequeueStep]
  · cases h

theorem exists_send {f : ℕ → ℤ} {q : Queue} {n r : ℕ} {e : Option EnqueuePc}
    {d : Option DequeuePc} (h : Link f q n r e d) (hn : n < numElems) (pc : EnqueuePc) (m : ℤ) :
    (enqueueStep maxPayloadSize q m pc).isSome := by
  have hlen := h.length
  exact isSome_enqueueStep m _ fun _ => by omega

theorem exists_receive {f : ℕ → ℤ} {q : Queue} {n r : ℕ} {e : Option EnqueuePc}
    {d : Option DequeuePc} (h : Link f q n r e d) (pc : DequeuePc) (hlt : pc = .receive → r < n) :
    (dequeueStep maxPayloadSize q pc).isSome := by
  refine isSome_dequeueStep fun hpc hq => ?_
  have hlen := h.length
  have hne := hlt hpc
  rw [hq, List.length_nil] at hlen
  omega

theorem forward_enqueueS1 (hs : Inv s) (he : Ends s) {pc : EnqueuePc}
    (hpc : s.s1.pc = .enqueue pc) : Forward s := by
  by_cases hblocked : pc = .copy ∧ dequeueW1 s.w1 = some .copyOut
  · exact forward_copyOutW1 hs he hblocked.2
  · have hle := hs.s1.le
    have hone := hs.s1.enqueue _ hpc
    have hlink := hs.w1Q
    simp only [sentS1, hpc] at hlink
    have hsome := exists_send hlink (by unfold numElems; omega) pc s.s1.count
    obtain ⟨⟨q, next⟩, hstep⟩ := Option.isSome_iff_exists.1 hsome
    refine forward_of_step hs he (p := .s1) (by simp) (fun hc hd => hblocked ⟨?_, hd⟩) ?_
    · rw [hpc] at hc
      cases hc
      rfl
    · simp [step, Threads.step, stepS1, hpc, hstep]

theorem forward_enqueueW1 (hs : Inv s) (he : Ends s) {pc : EnqueuePc}
    (hpc : s.w1.pc = .enqueue pc) : Forward s := by
  by_cases hblocked : pc = .copy ∧ dequeueW2 s.w2 = some .copyOut
  · exact forward_copyOutW2 hs he hblocked.2
  · have hle := he.w1.le
    have htwo := hs.w1.enqueue _ hpc
    have hlink := hs.w2Q
    simp only [sentW1, hpc] at hlink
    have hsome := exists_send hlink (by unfold numElems; omega) pc s.w1.sum
    obtain ⟨⟨q, next⟩, hstep⟩ := Option.isSome_iff_exists.1 hsome
    refine forward_of_step hs he (p := .w1) (by simp)
      ⟨fun hr => ?_, fun hc hd => hblocked ⟨?_, hd⟩⟩ ?_
    · simp [dequeueW1, hpc] at hr
    · rw [hpc] at hc
      cases hc
      rfl
    · simp [step, Threads.step, stepW1, hpc, hstep]

theorem forward_w1 (hs : Inv s) (he : Ends s) (hdone : s.w1.pc ≠ .done)
    (hsent : dequeueW1 s.w1 = some .receive → receivedW1 s.w1 < sentS1 s.s1) : Forward s := by
  have hrun := he.running_of_w1 hdone
  cases hpc : s.w1.pc with
  | loop =>
    refine forward_of_step hs he (p := .w1) (by simp) ?_ (by simp [step, Threads.step, stepW1, hpc])
    simp [Apart, dequeueW1, hpc]
  | wait =>
    obtain ⟨s', htick, -, hpos, -⟩ := exists_posts hrun
    obtain ⟨hs', he'⟩ := after_invariant hs he htick.after
    have hpc' : s'.w1.pc = .wait := by rw [htick.w1, hpc]
    refine .of_ticked htick (forward_of_step hs' he' (p := .w1) (by simp) ?_ ?_)
    · simp [Apart, dequeueW1, hpc']
    · simp [step, Threads.step, stepW1, hpc', hpos]
  | dequeue second pc =>
    by_cases hblocked : pc = .receive ∧ enqueueS1 s.s1 = some .send
    · have henq := hblocked.2
      unfold enqueueS1 at henq
      split at henq
      · next hs1 => exact forward_enqueueS1 hs he hs1
      · cases henq
    · have hsome := exists_receive hs.w1Q pc fun hr => hsent (by rw [dequeueW1, hpc, hr])
      obtain ⟨⟨q, x⟩, hstep⟩ := Option.isSome_iff_exists.1 hsome
      refine forward_of_step hs he (p := .w1) (by simp) ⟨fun hr hd => hblocked ⟨?_, hd⟩, ?_⟩ ?_
      · simpa [dequeueW1, hpc] using hr
      · simp [hpc]
      · simp [step, Threads.step, stepW1, hpc, hstep]
  | enqueue pc => exact forward_enqueueW1 hs he hpc
  | post =>
    refine forward_of_step hs he (p := .w1) (by simp) ?_ (by simp [step, Threads.step, stepW1, hpc])
    simp [Apart, dequeueW1, hpc]
  | done => exact absurd hpc hdone

theorem forward_w2 (hs : Inv s) (he : Ends s) (hdone : s.w2.pc ≠ .done)
    (hsent : dequeueW2 s.w2 = some .receive → receivedW2 s.w2 < sentW1 s.w1) : Forward s := by
  have hrun := he.running_of_w2 hdone
  cases hpc : s.w2.pc with
  | loop =>
    refine forward_of_step hs he (p := .w2) (by simp) ?_ (by simp [step, Threads.step, stepW2, hpc])
    simp [Apart, hpc]
  | wait =>
    obtain ⟨s', htick, -, -, hpos⟩ := exists_posts hrun
    obtain ⟨hs', he'⟩ := after_invariant hs he htick.after
    have hpc' : s'.w2.pc = .wait := by rw [htick.w2, hpc]
    refine .of_ticked htick (forward_of_step hs' he' (p := .w2) (by simp) ?_ ?_)
    · simp [Apart, hpc']
    · simp [step, Threads.step, stepW2, hpc', hpos]
  | dequeue pc =>
    by_cases hblocked : pc = .receive ∧ enqueueW1 s.w1 = some .send
    · have henq := hblocked.2
      unfold enqueueW1 at henq
      split at henq
      · next hw1 => exact forward_enqueueW1 hs he hw1
      · cases henq
    · have hsome := exists_receive hs.w2Q pc fun hr => hsent (by rw [dequeueW2, hpc, hr])
      obtain ⟨⟨q, x⟩, hstep⟩ := Option.isSome_iff_exists.1 hsome
      refine forward_of_step hs he (p := .w2) (by simp) (fun hr hd => hblocked ⟨?_, hd⟩) ?_
      · simpa [hpc] using hr
      · simp [step, Threads.step, stepW2, hpc, hstep]
  | post =>
    refine forward_of_step hs he (p := .w2) (by simp) ?_ (by simp [step, Threads.step, stepW2, hpc])
    simp [Apart, hpc]
  | done => exact absurd hpc hdone

/-- The last numbers are on their way when `S1` waits for `W1`. -/
theorem forward_waitW1 (hs : Inv s) (he : Ends s) (hpc : s.s1.pc = .waitW1) : Forward s := by
  by_cases hdone : s.w1.pc = .done
  · have hrun := he.running_of_s1 (by simp [hpc]) (by simp [hpc])
    have hpos : 0 < s.sems.runningW1 := by simpa [TookW1, hpc, hrun] using he.doneW1.mp hdone
    exact forward_of_step hs he (p := .s1) (by simp) (by simp [Apart, hpc])
      (by simp [step, Threads.step, stepS1, hpc, hpos])
  · refine forward_w1 hs he hdone fun hr => ?_
    have hcount := he.s1.last (.inl hpc)
    unfold dequeueW1 at hr
    split at hr
    · next second pc hw1 =>
      cases hr
      have hle := he.w1.going (.inr (.inr ⟨_, _, hw1⟩))
      cases second <;> simp only [receivedW1, sentS1, hw1, hpc] <;> omega
    · cases hr

theorem forward_waitW2 (hs : Inv s) (he : Ends s) (hpc : s.s1.pc = .waitW2) : Forward s := by
  by_cases hdone : s.w2.pc = .done
  · have hrun := he.running_of_s1 (by simp [hpc]) (by simp [hpc])
    have hpos : 0 < s.sems.runningW2 := by simpa [TookW2, hpc, hrun] using he.doneW2.mp hdone
    exact forward_of_step hs he (p := .s1) (by simp) (by simp [Apart, hpc])
      (by simp [step, Threads.step, stepS1, hpc, hpos])
  · have hw1 : s.w1.pc = .done := he.doneW1.mpr (.inr (.inl hpc))
    have hcount := he.w1.last (.inr hw1)
    refine forward_w2 hs he hdone fun hr => ?_
    unfold dequeueW2 at hr
    split at hr
    · next pc hw2 =>
      cases hr
      have hle := he.w2.going (.inr (.inr ⟨_, hw2⟩))
      simp only [receivedW2, sentW1, hw1, hw2]
      omega
    · cases hr

/-- **As long as `S1` has not returned the services can be brought forward.** -/
theorem exists_forward (hs : Inv s) (he : Ends s) (hdone : s.s1.pc ≠ .done) : Forward s := by
  cases hpc : s.s1.pc with
  | loop =>
    exact forward_of_step hs he (p := .s1) (by simp) (by simp [Apart, hpc])
      (by simp [step, Threads.step, stepS1, hpc])
  | wait =>
    obtain ⟨s', htick, hpos, -⟩ := exists_posts (he.running_of_s1 (by simp [hpc]) hdone)
    obtain ⟨hs', he'⟩ := after_invariant hs he htick.after
    have hpc' : s'.s1.pc = .wait := by rw [htick.s1, hpc]
    exact .of_ticked htick (forward_of_step hs' he' (p := .s1) (by simp) (by simp [Apart, hpc'])
      (by simp [step, Threads.step, stepS1, hpc', hpos]))
  | enqueue pc => exact forward_enqueueS1 hs he hpc
  | waitW1 => exact forward_waitW1 hs he hpc
  | waitW2 => exact forward_waitW2 hs he hpc
  | stop =>
    exact forward_of_step hs he (p := .s1) (by simp) (by simp [Apart, hpc])
      (by simp [step, Threads.step, stepS1, hpc])
  | done => exact absurd hpc hdone

/-! ### The end -/

/-- The services have returned, the queues are empty and the total is that of the numbers up to
200. -/
structure Ended (s : State) : Prop where
  s1 : s.s1.pc = .done
  w1 : s.w1.pc = .done
  w2 : s.w2.pc = .done
  running : s.running = false
  w1Q : s.w1Q.messages = [] ∧ s.w1Q.count = 0
  w2Q : s.w2Q.messages = [] ∧ s.w2Q.count = 0
  total : s.w2.totalSum = ∑ k ∈ Finset.range 201, (k : ℤ)

theorem ended_of_done (hs : Inv s) (he : Ends s) (hdone : s.s1.pc = .done) : Ended s := by
  have hrun := he.s1.done hdone
  have hw1 : s.w1.pc = .done := he.doneW1.mpr (.inr (.inr (.inr hrun)))
  have hw2 : s.w2.pc = .done := he.doneW2.mpr (.inr (.inr hrun))
  have hcount := (he.s1.stopped hrun).1
  have hcount1 := he.w1.last (.inr hw1)
  have hcount2 := he.w2.last (.inr hw2)
  have hlink1 := hs.w1Q
  have hlink2 := hs.w2Q
  simp only [sentS1, receivedW1, enqueueS1, dequeueW1, hdone, hw1, hcount, hcount1] at hlink1
  simp only [sentW1, receivedW2, enqueueW1, dequeueW2, hw1, hw2, hcount1, hcount2] at hlink2
  refine ⟨hdone, hw1, hw2, hrun, ⟨hlink1.messages, ?_⟩, ⟨hlink2.messages, ?_⟩, ?_⟩
  · simpa using hlink1.count
  · simpa using hlink2.count
  · rw [hs.w2.totalSum, hcount2, ← total_pairSum, Finset.sum_range_succ']
    simp [Channel.total, num]

theorem completes_of_inv (hs : Inv s) (he : Ends s) : ∃ s', After s s' ∧ Ended s' := by
  induction hn : rank s using Nat.strong_induction_on generalizing s with
  | _ n ih =>
    subst hn
    by_cases hdone : s.s1.pc = .done
    · exact ⟨s, .init, ended_of_done hs he hdone⟩
    · obtain ⟨s₁, hafter, hlt⟩ := exists_forward hs he hdone
      obtain ⟨hs₁, he₁⟩ := after_invariant hs he hafter
      obtain ⟨s', hafter', hended⟩ := ih _ hlt hs₁ he₁ rfl
      exact ⟨s', hafter.trans hafter', hended⟩

/-! ### How long a run is -/

/-- A step of the sequencer. -/
def isSequencer (p : Party) : ℕ := if p = .sequencer then 1 else 0

theorem sum_isSequencer (ps : List Party) : (ps.map isSequencer).sum = ps.count .sequencer := by
  induction ps with
  | nil => rfl
  | cons p ps ih =>
    rw [List.map_cons, List.sum_cons, ih, List.count_cons, isSequencer, Nat.add_comm]
    simp only [beq_iff_eq]

theorem rank_step_lt (hs : Inv s) (he : Ends s) (h : step s p = some s') :
    rank s' < rank s + isSequencer p := by
  unfold isSequencer
  split_ifs with hp
  · subst hp
    cases h
    rw [(ticked_step s).rank_eq]
    omega
  · exact rank_step hs he hp h

theorem length_le_of_exec {ps : List Party} (h : exec step Apart (init b₁ b₂) ps = some s) :
    ps.length ≤ 2906 + ps.count .sequencer := by
  have hle := length_add_rank_le (P := fun s => Inv s ∧ Ends s) isSequencer
    (fun hP hok hstep => ⟨inv_step hP.1 hok hstep, ends_step hP.1 hP.2 hstep⟩)
    (fun hP _ hstep => rank_step_lt hP.1 hP.2 hstep) ⟨inv_init, ends_init⟩ h
  have hinit : rank (init b₁ b₂) = 2906 := rfl
  rw [sum_isSequencer, hinit] at hle
  omega

/-- **The services take at most 2906 steps**: 1204 of `S1`, 1201 of `W1` and 501 of `W2`. -/
theorem services_length_le {ps : List Party} (h : exec step Apart (init b₁ b₂) ps = some s) :
    ps.length ≤ 2906 + ps.count .sequencer := length_le_of_exec h

theorem services_length_le_pair : ∃ s, exec step Apart (init 0 0) pairRun = some s ∧
    pairRun.length ≤ 2906 + pairRun.count .sequencer := by
  have hsome : (exec step Apart (init 0 0) pairRun).isSome := by decide
  obtain ⟨s, hs⟩ := Option.isSome_iff_exists.1 hsome
  exact ⟨s, hs, services_length_le hs⟩

end Ecen5623.Pipeline.Completion
