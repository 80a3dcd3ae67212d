import Ecen5623.Pipeline.Threads

/-! # The pipeline conserves the numbers

`W1` receives the numbers `1, 2, ...` and sends on the sums of pairs `3, 7, ...`. The invariant says
how far each service is and links the two ends of each queue. It holds in the runs in which no
thread writes to the buffer of a container while another one still needs what it has put there
(`Apart`). -/

namespace Ecen5623.Pipeline.Conservation

open Ecen5623.Library Ecen5623.Pipeline.Channel Ecen5623.Pipeline.Threads

/-- The numbers `S1` sends. -/
def num (k : ℕ) : ℤ := k

/-- The sums `W1` sends on. -/
def pairSum (k : ℕ) : ℤ := 4 * k - 1

theorem total_pairSum (j : ℕ) : total num (2 * j) = total pairSum j := by
  induction j with
  | zero => rfl
  | succ j ih =>
    have hj : 2 * (j + 1) = 2 * j + 1 + 1 := by omega
    rw [hj, total_succ, total_succ, ih, total_succ]
    simp only [num, pairSum]
    omega

/-! ### How far each service is -/

/-- How many numbers `S1` has sent. -/
def sentS1 (s1 : S1) : ℕ :=
  match s1.pc with
  | .enqueue _ => s1.count - 1
  | _ => s1.count

/-- Where `S1` is in `enqueue_P`. -/
def enqueueS1 (s1 : S1) : Option EnqueuePc :=
  match s1.pc with
  | .enqueue pc => some pc
  | _ => none

/-- How many numbers `W1` has received. -/
def receivedW1 (w1 : W1) : ℕ :=
  match w1.pc with
  | .dequeue false .copyOut => w1.w2DequeueCount + 1
  | .dequeue true .copyOut => w1.w2DequeueCount + 2
  | .dequeue true _ => w1.w2DequeueCount + 1
  | _ => w1.w2DequeueCount

/-- Where `W1` is in `dequeue_P`. -/
def dequeueW1 (w1 : W1) : Option DequeuePc :=
  match w1.pc with
  | .dequeue _ pc => some pc
  | _ => none

/-- How many sums `W1` has sent on. -/
def sentW1 (w1 : W1) : ℕ :=
  match w1.pc with
  | .enqueue _ => w1.w2DequeueCount / 2 - 1
  | _ => w1.w2DequeueCount / 2

/-- Where `W1` is in `enqueue_P`. -/
def enqueueW1 (w1 : W1) : Option EnqueuePc :=
  match w1.pc with
  | .enqueue pc => some pc
  | _ => none

/-- How many sums `W2` has received. -/
def receivedW2 (w2 : W2) : ℕ :=
  match w2.pc with
  | .dequeue .copyOut => w2.totalCount + 1
  | _ => w2.totalCount

/-- Where `W2` is in `dequeue_P`. -/
def dequeueW2 (w2 : W2) : Option DequeuePc :=
  match w2.pc with
  | .dequeue pc => some pc
  | _ => none

/-! ### The invariant -/

structure S1Ok (running : Bool) (s1 : S1) : Prop where
  le : s1.count ≤ 200
  loop : s1.pc = .loop → running = true → s1.count < 200
  wait : s1.pc = .wait → s1.count < 200
  enqueue : ∀ pc, s1.pc = .enqueue pc → 1 ≤ s1.count

structure W1Ok (w1 : W1) : Prop where
  even : w1.w2DequeueCount % 2 = 0
  num1 : ∀ pc, w1.pc = .dequeue true pc → w1.num1 = num (w1.w2DequeueCount + 1)
  enqueue : ∀ pc, w1.pc = .enqueue pc → 2 ≤ w1.w2DequeueCount
  sum : ∀ pc, w1.pc = .enqueue pc → w1.sum = pairSum (w1.w2DequeueCount / 2)

structure W2Ok (w2 : W2) : Prop where
  totalSum : w2.totalSum = total pairSum w2.totalCount
  post : w2.pc = .post → w2.totalCount = 100

/-- Each service by itself, what has been recorded, and the two queues. -/
structure Inv (s : State) : Prop where
  s1 : S1Ok s.running s.s1
  w1 : W1Ok s.w1
  w2 : W2Ok s.w2
  sent : s.sent = (List.range' 1 (sentS1 s.s1)).map num
  got : s.got = (List.range' 1 s.w2.totalCount).map pairSum
  w1Q : Link num s.w1Q (sentS1 s.s1) (receivedW1 s.w1) (enqueueS1 s.s1) (dequeueW1 s.w1)
  w2Q : Link pairSum s.w2Q (sentW1 s.w1) (receivedW2 s.w2) (enqueueW1 s.w1) (dequeueW2 s.w2)

/-- No thread copies into the buffer of a container while the receiver has yet to copy out of it,
and none receives into it while the sender has yet to send it. -/
def Apart (s : State) : Party → Prop
  | .s1 => s.s1.pc = .enqueue .copy → dequeueW1 s.w1 ≠ some .copyOut
  | .w1 => (dequeueW1 s.w1 = some .receive → enqueueS1 s.s1 ≠ some .send) ∧
      (s.w1.pc = .enqueue .copy → dequeueW2 s.w2 ≠ some .copyOut)
  | .w2 => s.w2.pc = .dequeue .receive → enqueueW1 s.w1 ≠ some .send
  | .sequencer => True

instance (s : State) (p : Party) : Decidable (Apart s p) := by
  cases p <;> unfold Apart <;> infer_instance

variable {sizeofPtr : ℕ} {s s' : State} {p : Party} {b₁ b₂ : ℤ}

theorem inv_init : Inv (init b₁ b₂) where
  s1 := ⟨by simp [init], by simp [init], by simp [init], by simp [init]⟩
  w1 := ⟨rfl, by simp [init], by simp [init], by simp [init]⟩
  w2 := ⟨rfl, by simp [init]⟩
  sent := rfl
  got := rfl
  w1Q := link_empty b₁
  w2Q := by simpa [init, sentW1, receivedW2, enqueueW1, dequeueW2] using link_empty b₂

/-! ### S1 -/

theorem Inv.setS1 (hs : Inv s) {running : Bool} {sems : Sems} {s1 : S1} (hok : S1Ok running s1)
    (hsent : sentS1 s1 = sentS1 s.s1) (henq : enqueueS1 s1 = enqueueS1 s.s1) :
    Inv { s with running := running, sems := sems, s1 := s1 } where
  s1 := hok
  w1 := hs.w1
  w2 := hs.w2
  sent := hsent ▸ hs.sent
  got := hs.got
  w1Q := by
    rw [hsent, henq]
    exact hs.w1Q
  w2Q := hs.w2Q

theorem inv_enqueueS1 (hs : Inv s) (hok : Apart s .s1) {pc : EnqueuePc} {q : Queue}
    {next : Option EnqueuePc} (hpc : s.s1.pc = .enqueue pc)
    (h : enqueueStep sizeofPtr s.w1Q s.s1.count pc = some (q, next)) :
    Inv { s with
      w1Q := q
      s1 := { s.s1 with pc := afterEnqueueS1 s.s1 next }
      sent := s.sent ++ logSent s.s1 pc } := by
  have hle := hs.s1.le
  have hone := hs.s1.enqueue pc hpc
  have hlink := hs.w1Q
  have hsent := hs.sent
  simp only [sentS1, enqueueS1, hpc] at hlink hsent
  have hlast : s.s1.count - 1 + 1 = s.s1.count := by omega
  have hn : s.s1.count - 1 < numElems := by
    simp only [numElems]
    omega
  obtain ⟨hq, hgo, hret⟩ := hlink.enqueueStep (by rw [hlast]; rfl) hn
    (fun he => hok (by rw [hpc, he])) h
  by_cases hsend : pc = .send
  · subst hsend
    obtain rfl := hret rfl
    rw [if_pos rfl, hlast] at hq
    have hsent' : s.sent ++ logSent s.s1 .send = (List.range' 1 s.s1.count).map num := by
      rw [hsent, ← hlast, List.range'_1_concat, hlast, List.map_append, Nat.add_comm, hlast]
      rfl
    by_cases hdone : s.s1.count = 200
    · refine ⟨⟨hle, ?_, ?_, ?_⟩, hs.w1, hs.w2, ?_, hs.got, ?_, hs.w2Q⟩
      · simp [afterEnqueueS1, hdone]
      · simp [afterEnqueueS1, hdone]
      · simp [afterEnqueueS1, hdone]
      · simpa [sentS1, afterEnqueueS1, hdone] using hsent'
      · simpa [sentS1, enqueueS1, afterEnqueueS1, hdone] using hq
    · refine ⟨⟨hle, ?_, ?_, ?_⟩, hs.w1, hs.w2, ?_, hs.got, ?_, hs.w2Q⟩
      · exact fun _ _ => lt_of_le_of_ne hle hdone
      · simp [afterEnqueueS1, hdone]
      · simp [afterEnqueueS1, hdone]
      · simpa [sentS1, afterEnqueueS1, hdone] using hsent'
      · simpa [sentS1, enqueueS1, afterEnqueueS1, hdone] using hq
  · obtain ⟨pc', rfl⟩ := Option.ne_none_iff_exists'.1 (hgo hsend)
    rw [if_neg hsend] at hq
    refine ⟨⟨hle, by simp [afterEnqueueS1], by simp [afterEnqueueS1], fun _ _ => hone⟩, hs.w1,
      hs.w2, ?_, hs.got, hq, hs.w2Q⟩
    simpa [logSent, hsend, sentS1, afterEnqueueS1] using hsent

theorem inv_stepS1 (hs : Inv s) (hok : Apart s .s1) (h : stepS1 sizeofPtr s = some s') :
    Inv s' := by
  obtain ⟨hle, hloop, hwait, henq⟩ := hs.s1
  unfold stepS1 at h
  cases hpc : s.s1.pc with
  | loop =>
    simp only [hpc, Option.some.injEq] at h
    subst h
    cases hrun : s.running with
    | true =>
      exact hs.setS1 ⟨hle, by simp, fun _ => hloop hpc hrun, by simp⟩ (by simp [sentS1, hpc])
        (by simp [enqueueS1, hpc])
    | false =>
      exact hs.setS1 ⟨hle, by simp, by simp, by simp⟩ (by simp [sentS1, hpc])
        (by simp [enqueueS1, hpc])
  | wait =>
    simp only [hpc, Option.ite_none_right_eq_some, Option.some.injEq] at h
    obtain ⟨-, rfl⟩ := h
    have hlt := hwait hpc
    have hlink := hs.w1Q
    have hsent := hs.sent
    simp only [sentS1, enqueueS1, hpc] at hlink hsent
    exact ⟨⟨by simp only; omega, by simp, by simp, by simp⟩, hs.w1, hs.w2, hsent, hs.got,
      hlink.enter, hs.w2Q⟩
  | enqueue pc =>
    simp only [hpc] at h
    split at h
    · cases h
    · next q next hq =>
      cases h
      exact inv_enqueueS1 hs hok hpc hq
  | waitW1 =>
    simp only [hpc, Option.ite_none_right_eq_some, Option.some.injEq] at h
    obtain ⟨-, rfl⟩ := h
    exact hs.setS1 ⟨hle, by simp, by simp, by simp⟩ (by simp [sentS1, hpc])
      (by simp [enqueueS1, hpc])
  | waitW2 =>
    simp only [hpc, Option.ite_none_right_eq_some, Option.some.injEq] at h
    obtain ⟨-, rfl⟩ := h
    exact hs.setS1 ⟨hle, by simp, by simp, by simp⟩ (by simp [sentS1, hpc])
      (by simp [enqueueS1, hpc])
  | stop =>
    simp only [hpc, Option.some.injEq] at h
    subst h
    exact hs.setS1 ⟨hle, by simp, by simp, by simp⟩ (by simp [sentS1, hpc])
      (by simp [enqueueS1, hpc])
  | done => simp [hpc] at h

/-! ### W1 -/

theorem Inv.setW1 (hs : Inv s) {sems : Sems} {w1 : W1} (hok : W1Ok w1)
    (hreceived : receivedW1 w1 = receivedW1 s.w1) (hdeq : dequeueW1 w1 = dequeueW1 s.w1)
    (hsent : sentW1 w1 = sentW1 s.w1) (henq : enqueueW1 w1 = enqueueW1 s.w1) :
    Inv { s with sems := sems, w1 := w1 } where
  s1 := hs.s1
  w1 := hok
  w2 := hs.w2
  sent := hs.sent
  got := hs.got
  w1Q := by
    rw [hreceived, hdeq]
    exact hs.w1Q
  w2Q := by
    rw [hsent, henq]
    exact hs.w2Q

theorem inv_dequeueW1 (hs : Inv s) (hok : Apart s .w1) {second : Bool} {pc : DequeuePc} {q : Queue}
    {x : DequeuePc ⊕ ℤ} (hpc : s.w1.pc = .dequeue second pc)
    (h : dequeueStep sizeofPtr s.w1Q pc = some (q, x)) :
    Inv { s with w1Q := q, w1 := afterDequeueW1 s.w1 second x } := by
  obtain ⟨heven, hnum1, henq, hsum⟩ := hs.w1
  have hlink := hs.w1Q
  have hlink2 := hs.w2Q
  simp only [sentW1, enqueueW1, dequeueW1, hpc] at hlink hlink2
  have hapart := hok.1
  simp only [dequeueW1, hpc, Option.some.injEq] at hapart
  have hstay : ∀ pc', W1Ok (afterDequeueW1 s.w1 second (.inl pc')) := fun pc' =>
    ⟨heven, fun _ he => hnum1 pc (by cases he; exact hpc), by simp [afterDequeueW1],
      by simp [afterDequeueW1]⟩
  rcases hlink.dequeueStep hapart h with ⟨rfl, rfl, hq⟩ | ⟨rfl, rfl, hq⟩ | ⟨rfl, rfl, hq⟩
  · refine ⟨hs.s1, hstay _, hs.w2, hs.sent, hs.got, ?_, hlink2⟩
    cases second <;> simpa [receivedW1, hpc, afterDequeueW1, dequeueW1] using hq
  · refine ⟨hs.s1, hstay _, hs.w2, hs.sent, hs.got, ?_, hlink2⟩
    cases second <;> simpa [receivedW1, hpc, afterDequeueW1, dequeueW1] using hq
  · cases second with
    | false =>
      simp only [receivedW1, hpc] at hq h ⊢
      refine ⟨hs.s1, ⟨heven, ?_, ?_, ?_⟩, hs.w2, hs.sent, hs.got, hq.enterDequeue, hlink2⟩
      · simp [afterDequeueW1]
      · simp [afterDequeueW1]
      · simp [afterDequeueW1]
    | true =>
      have hnum1 := hnum1 _ hpc
      simp only [receivedW1, hpc] at hq h ⊢
      refine ⟨hs.s1, ⟨?_, ?_, ?_, ?_⟩, hs.w2, hs.sent, hs.got, hq, ?_⟩
      · simp [afterDequeueW1, heven]
      · simp [afterDequeueW1]
      · simp [afterDequeueW1]
      · intro _ _
        simp only [afterDequeueW1, if_true, hnum1, num, pairSum]
        omega
      · simpa [afterDequeueW1, sentW1, enqueueW1] using hlink2.enter

theorem sentS1_le (hs : Inv s) : sentS1 s.s1 ≤ 200 := by
  have hle := hs.s1.le
  unfold sentS1
  split <;> omega

theorem inv_enqueueW1 (hs : Inv s) (hok : Apart s .w1) {pc : EnqueuePc} {q : Queue}
    {next : Option EnqueuePc} (hpc : s.w1.pc = .enqueue pc)
    (h : enqueueStep sizeofPtr s.w2Q s.w1.sum pc = some (q, next)) :
    Inv { s with w2Q := q, w1 := { s.w1 with pc := afterEnqueueW1 s.w1 next } } := by
  obtain ⟨heven, hnum1, henq, hsum⟩ := hs.w1
  have htwo := henq pc hpc
  have hsum := hsum pc hpc
  have hlink := hs.w2Q
  have hlink1 := hs.w1Q
  simp only [sentW1, receivedW1, dequeueW1, enqueueW1, hpc] at hlink hlink1
  have hlast : s.w1.w2DequeueCount / 2 - 1 + 1 = s.w1.w2DequeueCount / 2 := by omega
  have hn : s.w1.w2DequeueCount / 2 - 1 < numElems := by
    have h1 := hlink1.le
    have h2 := sentS1_le hs
    simp only [numElems]
    omega
  obtain ⟨hq, hgo, hret⟩ := hlink.enqueueStep (by rw [hlast]; exact hsum) hn
    (fun he => hok.2 (by rw [hpc, he])) h
  by_cases hsend : pc = .send
  · subst hsend
    obtain rfl := hret rfl
    rw [if_pos rfl, hlast] at hq
    by_cases hdone : s.w1.w2DequeueCount > 198
    · refine ⟨hs.s1, ⟨heven, ?_, ?_, ?_⟩, hs.w2, hs.sent, hs.got, ?_, ?_⟩
      · simp [afterEnqueueW1, hdone]
      · simp [afterEnqueueW1, hdone]
      · simp [afterEnqueueW1, hdone]
      · simpa [receivedW1, dequeueW1, afterEnqueueW1, hdone] using hlink1
      · simpa [sentW1, enqueueW1, afterEnqueueW1, hdone] using hq
    · refine ⟨hs.s1, ⟨heven, ?_, ?_, ?_⟩, hs.w2, hs.sent, hs.got, ?_, ?_⟩
      · simp [afterEnqueueW1, hdone]
      · simp [afterEnqueueW1, hdone]
      · simp [afterEnqueueW1, hdone]
      · simpa [receivedW1, dequeueW1, afterEnqueueW1, hdone] using hlink1
      · simpa [sentW1, enqueueW1, afterEnqueueW1, hdone] using hq
  · obtain ⟨pc', rfl⟩ := Option.ne_none_iff_exists'.1 (hgo hsend)
    rw [if_neg hsend] at hq
    exact ⟨hs.s1, ⟨heven, by simp [afterEnqueueW1], fun _ _ => htwo, fun _ _ => hsum⟩, hs.w2,
      hs.sent, hs.got, hlink1, hq⟩

theorem inv_stepW1 (hs : Inv s) (hok : Apart s .w1) (h : stepW1 sizeofPtr s = some s') :
    Inv s' := by
  have heven := hs.w1.even
  unfold stepW1 at h
  cases hpc : s.w1.pc with
  | loop =>
    simp only [hpc, Option.some.injEq] at h
    subst h
    split_ifs
    · exact hs.setW1 ⟨heven, by simp, by simp, by simp⟩ (by simp [receivedW1, hpc])
        (by simp [dequeueW1, hpc]) (by simp [sentW1, hpc]) (by simp [enqueueW1, hpc])
    · exact hs.setW1 ⟨heven, by simp, by simp, by simp⟩ (by simp [receivedW1, hpc])
        (by simp [dequeueW1, hpc]) (by simp [sentW1, hpc]) (by simp [enqueueW1, hpc])
  | wait =>
    simp only [hpc, Option.ite_none_right_eq_some, Option.some.injEq] at h
    obtain ⟨-, rfl⟩ := h
    have hlink := hs.w1Q
    have hlink2 := hs.w2Q
    simp only [receivedW1, dequeueW1, sentW1, enqueueW1, hpc] at hlink hlink2
    exact ⟨hs.s1, ⟨heven, by simp, by simp, by simp⟩, hs.w2, hs.sent, hs.got,
      hlink.enterDequeue, hlink2⟩
  | dequeue second pc =>
    simp only [hpc] at h
    split at h
    · cases h
    · next q x hq =>
      cases h
      exact inv_dequeueW1 hs hok hpc hq
  | enqueue pc =>
    simp only [hpc] at h
    split at h
    · cases h
    · next q next hq =>
      cases h
      exact inv_enqueueW1 hs hok hpc hq
  | post =>
    simp only [hpc, Option.some.injEq] at h
    subst h
    exact hs.setW1 ⟨heven, by simp, by simp, by simp⟩ (by simp [receivedW1, hpc])
      (by simp [dequeueW1, hpc]) (by simp [sentW1, hpc]) (by simp [enqueueW1, hpc])
  | done => simp [hpc] at h

/-! ### W2 -/

theorem Inv.setW2 (hs : Inv s) {sems : Sems} {w2 : W2} (hok : W2Ok w2)
    (htotal : w2.totalCount = s.w2.totalCount) (hreceived : receivedW2 w2 = receivedW2 s.w2)
    (hdeq : dequeueW2 w2 = dequeueW2 s.w2) : Inv { s with sems := sems, w2 := w2 } where
  s1 := hs.s1
  w1 := hs.w1
  w2 := hok
  sent := hs.sent
  got := by
    rw [htotal]
    exact hs.got
  w1Q := hs.w1Q
  w2Q := by
    rw [hreceived, hdeq]
    exact hs.w2Q

theorem inv_dequeueW2 (hs : Inv s) (hok : Apart s .w2) {pc : DequeuePc} {q : Queue}
    {x : DequeuePc ⊕ ℤ} (hpc : s.w2.pc = .dequeue pc)
    (h : dequeueStep sizeofPtr s.w2Q pc = some (q, x)) :
    Inv { s with w2Q := q, w2 := afterDequeueW2 s.w2 x, got := s.got ++ logGot x } := by
  obtain ⟨htotal, hpost⟩ := hs.w2
  have hlink := hs.w2Q
  simp only [dequeueW2, hpc] at hlink
  rcases hlink.dequeueStep (fun he => hok (by rw [hpc, he])) h with
    ⟨rfl, rfl, hq⟩ | ⟨rfl, rfl, hq⟩ | ⟨rfl, rfl, hq⟩
  · refine ⟨hs.s1, hs.w1, ⟨htotal, ?_⟩, hs.sent, ?_, hs.w1Q, ?_⟩
    · simp [afterDequeueW2]
    · simpa [logGot, afterDequeueW2] using hs.got
    · simpa [receivedW2, hpc, afterDequeueW2, dequeueW2] using hq
  · refine ⟨hs.s1, hs.w1, ⟨htotal, ?_⟩, hs.sent, ?_, hs.w1Q, ?_⟩
    · simp [afterDequeueW2]
    · simpa [logGot, afterDequeueW2] using hs.got
    · simpa [receivedW2, hpc, afterDequeueW2, dequeueW2] using hq
  · simp only [receivedW2, hpc] at hq h ⊢
    refine ⟨hs.s1, hs.w1, ⟨?_, ?_⟩, hs.sent, ?_, hs.w1Q, ?_⟩
    · simp only [afterDequeueW2]
      rw [total_succ, htotal]
    · simp only [afterDequeueW2]
      split_ifs with hdone <;> simp [hdone]
    · simp only [afterDequeueW2, logGot]
      rw [hs.got, List.range'_1_concat, List.map_append, Nat.add_comm 1]
      rfl
    · simp only [afterDequeueW2]
      split_ifs <;> exact hq

theorem inv_stepW2 (hs : Inv s) (hok : Apart s .w2) (h : stepW2 sizeofPtr s = some s') :
    Inv s' := by
  have htotal := hs.w2.totalSum
  unfold stepW2 at h
  cases hpc : s.w2.pc with
  | loop =>
    simp only [hpc, Option.some.injEq] at h
    subst h
    split_ifs
    · exact hs.setW2 ⟨htotal, by simp⟩ rfl (by simp [receivedW2, hpc]) (by simp [dequeueW2, hpc])
    · exact hs.setW2 ⟨htotal, by simp⟩ rfl (by simp [receivedW2, hpc]) (by simp [dequeueW2, hpc])
  | wait =>
    simp only [hpc, Option.ite_none_right_eq_some, Option.some.injEq] at h
    obtain ⟨-, rfl⟩ := h
    have hlink := hs.w2Q
    simp only [receivedW2, dequeueW2, hpc] at hlink
    exact ⟨hs.s1, hs.w1, ⟨htotal, by simp⟩, hs.sent, hs.got, hs.w1Q, hlink.enterDequeue⟩
  | dequeue pc =>
    simp only [hpc] at h
    split at h
    · cases h
    · next q x hq =>
      cases h
      exact inv_dequeueW2 hs hok hpc hq
  | post =>
    simp only [hpc, Option.some.injEq] at h
    subst h
    exact hs.setW2 ⟨htotal, by simp⟩ rfl (by simp [receivedW2, hpc]) (by simp [dequeueW2, hpc])
  | done => simp [hpc] at h

/-! ### The runs -/

theorem inv_stepSequencer (hs : Inv s) : Inv (stepSequencer s) := by
  unfold stepSequencer
  cases s.sequencer.pc <;> exact ⟨hs.s1, hs.w1, hs.w2, hs.sent, hs.got, hs.w1Q, hs.w2Q⟩

theorem inv_step (hs : Inv s) (hok : Apart s p) (h : step sizeofPtr s p = some s') : Inv s' := by
  cases p with
  | s1 => exact inv_stepS1 hs hok h
  | w1 => exact inv_stepW1 hs hok h
  | w2 => exact inv_stepW2 hs hok h
  | sequencer =>
    cases h
    exact inv_stepSequencer hs

theorem w1InHand_eq (hs : Inv s) :
    w1InHand s.w1 s.w1Q.b = total num (receivedW1 s.w1) - total pairSum (sentW1 s.w1) := by
  obtain ⟨heven, hnum1, henq, hsum⟩ := hs.w1
  have hhold := hs.w1Q.holding
  obtain ⟨j, hj⟩ : ∃ j, s.w1.w2DequeueCount = 2 * j := ⟨s.w1.w2DequeueCount / 2, by omega⟩
  have hdiv : 2 * j / 2 = j := by omega
  have hpair := total_pairSum j
  unfold w1InHand receivedW1 sentW1
  unfold dequeueW1 receivedW1 at hhold
  rw [hj] at hnum1 henq hsum hhold ⊢
  rw [hdiv] at hsum ⊢
  cases hpc : s.w1.pc with
  | dequeue second pc =>
    cases second with
    | false =>
      cases pc with
      | copyOut =>
        simp only [hpc, forall_const] at hhold ⊢
        rw [hhold, total_succ, hpair]
        omega
      | _ => simp [hpair]
    | true =>
      have hnum1 := hnum1 pc hpc
      cases pc with
      | copyOut =>
        simp only [hpc, forall_const] at hhold ⊢
        rw [hhold, hnum1, total_succ, total_succ, hpair]
        simp only [num]
        omega
      | _ =>
        simp only
        rw [hnum1, total_succ, hpair]
        omega
  | enqueue pc =>
    have htwo := henq pc hpc
    obtain ⟨i, rfl⟩ : ∃ i, j = i + 1 := ⟨j - 1, by omega⟩
    simp only [Nat.add_sub_cancel]
    rw [hsum pc hpc, hpair, total_succ]
    omega
  | _ => simp [hpair]

theorem w2InHand_eq (hs : Inv s) :
    s.w2.totalSum + w2InHand s.w2 s.w2Q.b = total pairSum (receivedW2 s.w2) := by
  have hhold := hs.w2Q.holding
  rw [hs.w2.totalSum]
  unfold w2InHand receivedW2
  unfold dequeueW2 receivedW2 at hhold
  cases hpc : s.w2.pc with
  | dequeue pc =>
    cases pc with
    | copyOut =>
      simp only [hpc, forall_const] at hhold
      rw [if_pos rfl, hhold, total_succ]
    | _ => simp
  | _ => simp

theorem Inv.conserved (hs : Inv s) : Conserved s where
  balance := by
    have hsent : s.sent.sum = total num (sentS1 s.s1) := by
      rw [hs.sent, sum_range'_map num 0]
      simp [total]
    rw [hsent, w2InHand_eq hs, hs.w2Q.sum, w1InHand_eq hs, hs.w1Q.sum]
    omega
  order k hk := by
    simp only [hs.got, List.getElem_map, List.getElem_range', pairSum]
    push_cast
    omega
  s1Room hpc := by
    have hlink := hs.w1Q
    have hle := hs.s1.le
    have hone := hs.s1.enqueue _ hpc
    simp only [sentS1, enqueueS1, hpc] at hlink
    refine hlink.count_ne ?_
    simp only [numElems]
    omega
  w1Room hpc := by
    have hlink := hs.w2Q
    have hlink1 := hs.w1Q.le
    have hle := sentS1_le hs
    have htwo := hs.w1.enqueue _ hpc
    simp only [sentW1, enqueueW1, receivedW1, hpc] at hlink hlink1
    refine hlink.count_ne ?_
    simp only [numElems]
    omega
  total hpc := by
    rw [hs.w2.totalSum, hs.w2.post hpc, ← total_pairSum, Finset.sum_range_succ']
    simp [total, num]

/-- **In the runs whose threads keep apart the pipeline conserves the numbers.** -/
theorem conserved_of_apart (h : Reach (step sizeofPtr) Apart (init b₁ b₂) s) : Conserved s :=
  (h.invariant inv_init inv_step).conserved

/-- The first two numbers go through `W1`. -/
def pairRun : List Party :=
  List.replicate 5 .sequencer ++ List.replicate 6 .s1 ++ List.replicate 25 .sequencer ++
  List.replicate 6 .s1 ++ List.replicate 12 .w1 ++ List.replicate 5 .w2

theorem conserved_of_apart_pair : ∃ s, exec (step 4) Apart (init 0 0) pairRun = some s ∧
    Conserved s :=
  Reach.exists_exec (by decide) fun _ h => conserved_of_apart h

/-- `W1` has received the first number when `S1` copies the second one into the buffer. -/
def clashRun : List Party :=
  List.replicate 5 .sequencer ++ List.replicate 6 .s1 ++ List.replicate 4 .w1 ++
  List.replicate 25 .sequencer ++ List.replicate 5 .s1

/-- Not every run conserves the numbers: here `W1` has the second number in hand, which has not been
sent, and the first one is lost. -/
theorem not_conserved : ¬ ∀ s, Reach (step 4) Any (init 0 0) s → Conserved s := by
  have hrun : ∃ s, exec (step 4) Any (init 0 0) clashRun = some s ∧
      s.w2.totalSum + w2InHand s.w2 s.w2Q.b + s.w2Q.messages.sum +
        w1InHand s.w1 s.w1Q.b + s.w1Q.messages.sum ≠ s.sent.sum := ⟨_, rfl, by decide⟩
  obtain ⟨s, hs, hne⟩ := hrun
  exact fun h => hne (h s (Reach.of_exec hs)).balance

/-! ### The condition is exact -/

theorem w1InHand_of_copyOut {w1 : W1} (h : dequeueW1 w1 = some .copyOut) (b b' : ℤ) :
    w1InHand w1 b' = w1InHand w1 b + (b' - b) := by
  unfold dequeueW1 at h
  unfold w1InHand
  cases hpc : w1.pc with
  | dequeue second pc =>
    simp only [hpc, Option.some.injEq] at h
    subst h
    cases second <;> simp only <;> omega
  | _ => simp [hpc] at h

theorem w1InHand_of_receive {w1 : W1} {second : Bool} (h : w1.pc = .dequeue second .receive)
    (b m : ℤ) : w1InHand (afterDequeueW1 w1 second (.inl .copyOut)) m = w1InHand w1 b + m := by
  unfold w1InHand
  cases second <;> simp [h, afterDequeueW1]

/-- `S1` copies a number into the buffer while `W1` has another one there. -/
theorem not_conserved_of_copyS1 (hs : Inv s) (hpc : s.s1.pc = .enqueue .copy)
    (hdeq : dequeueW1 s.w1 = some .copyOut) (h : stepS1 sizeofPtr s = some s') :
    ¬ Conserved s' := by
  intro hc
  have hone := hs.s1.enqueue _ hpc
  have hle := hs.w1Q.le
  have hhold := hs.w1Q.holding hdeq
  simp only [sentS1, hpc] at hle
  simp only [stepS1, hpc, enqueueStep, Option.some.injEq] at h
  subst h
  have hbal := hs.conserved.balance
  have hbal' := hc.balance
  simp only [logSent, reduceCtorEq, if_false, List.append_nil] at hbal'
  rw [w1InHand_of_copyOut hdeq s.w1Q.b] at hbal'
  simp only [num] at hhold
  omega

/-- `W1` receives into the buffer while `S1` has a number there to send. -/
theorem not_conserved_of_receiveW1 (hs : Inv s) (hdeq : dequeueW1 s.w1 = some .receive)
    (henq : s.s1.pc = .enqueue .send) (h : stepW1 sizeofPtr s = some s') :
    ∃ u, stepS1 sizeofPtr s' = some u ∧ ¬ Conserved u := by
  have hone := hs.s1.enqueue _ henq
  have hle := sentS1_le hs
  have hlength := hs.w1Q.length
  simp only [sentS1, henq] at hle hlength
  unfold dequeueW1 at hdeq
  cases hpc : s.w1.pc with
  | dequeue second pc =>
    simp only [hpc, Option.some.injEq] at hdeq
    subst hdeq
    cases hq : s.w1Q.messages with
    | nil => simp [stepW1, hpc, dequeueStep, hq] at h
    | cons m messages =>
      obtain ⟨hlt, hm, -⟩ := hs.w1Q.cons hq
      simp only [sentS1, henq] at hlt
      simp only [stepW1, hpc, dequeueStep, hq, Option.some.injEq] at h
      subst h
      rw [hq, List.length_cons] at hlength
      have hroom : messages.length < numElems := by
        simp only [numElems]
        omega
      refine ⟨_, by simp only [stepS1, henq, enqueueStep, if_pos hroom]; rfl, fun hc => ?_⟩
      have hbal := hs.conserved.balance
      have hbal' := hc.balance
      simp only [w1InHand_of_receive hpc s.w1Q.b m, List.sum_append, List.sum_singleton, logSent,
        if_true] at hbal'
      rw [hq, List.sum_cons] at hbal
      simp only [num] at hm
      omega
  | _ => simp [hpc] at hdeq

/-- `W1` copies a sum into the buffer while `W2` has another one there. -/
theorem not_conserved_of_copyW1 (hs : Inv s) (hpc : s.w1.pc = .enqueue .copy)
    (hdeq : dequeueW2 s.w2 = some .copyOut) (h : stepW1 sizeofPtr s = some s') :
    ¬ Conserved s' := by
  intro hc
  have htwo := hs.w1.enqueue _ hpc
  have hsum := hs.w1.sum _ hpc
  have hle := hs.w2Q.le
  have hhold := hs.w2Q.holding hdeq
  simp only [sentW1, hpc] at hle
  have hpc2 : s.w2.pc = .dequeue .copyOut := by
    unfold dequeueW2 at hdeq
    cases hpc2 : s.w2.pc <;> simp_all
  simp only [stepW1, hpc, enqueueStep, Option.some.injEq] at h
  subst h
  have hbal := hs.conserved.balance
  have hbal' := hc.balance
  simp only [w1InHand, hpc, w2InHand, hpc2, if_true, afterEnqueueW1] at hbal hbal'
  simp only [pairSum] at hhold hsum
  omega

/-- `W2` receives into the buffer while `W1` has a sum there to send. -/
theorem not_conserved_of_receiveW2 (hs : Inv s) (hpc : s.w2.pc = .dequeue .receive)
    (henq : s.w1.pc = .enqueue .send) (h : stepW2 sizeofPtr s = some s') :
    ∃ u, stepW1 sizeofPtr s' = some u ∧ ¬ Conserved u := by
  have hsum := hs.w1.sum _ henq
  have hle := sentS1_le hs
  have hle1 := hs.w1Q.le
  have hlength := hs.w2Q.length
  simp only [sentW1, receivedW1, henq] at hle1 hlength
  cases hq : s.w2Q.messages with
  | nil => simp [stepW2, hpc, dequeueStep, hq] at h
  | cons m messages =>
    obtain ⟨hlt, hm, -⟩ := hs.w2Q.cons hq
    simp only [sentW1, henq] at hlt
    simp only [stepW2, hpc, dequeueStep, hq, Option.some.injEq] at h
    subst h
    rw [hq, List.length_cons] at hlength
    have hroom : messages.length < numElems := by
      simp only [numElems]
      omega
    refine ⟨_, by simp only [stepW1, henq, enqueueStep, if_pos hroom]; rfl, fun hc => ?_⟩
    have hbal := hs.conserved.balance
    have hbal' := hc.balance
    have hhand : w1InHand { s.w1 with pc := afterEnqueueW1 s.w1 none } s.w1Q.b = 0 := by
      unfold w1InHand afterEnqueueW1
      split_ifs <;> rfl
    rw [hhand] at hbal'
    simp only [w2InHand, afterDequeueW2, if_true, List.sum_append, List.sum_singleton] at hbal'
    simp only [w1InHand, henq, w2InHand, hpc, hq, List.sum_cons, W2Pc.dequeue.injEq, reduceCtorEq,
      if_false] at hbal
    simp only [pairSum] at hm hsum
    omega

/-- **A step of threads that do not keep apart loses or makes up a number, at once or when the
message that was overwritten is sent.** -/
theorem not_conserved_of_not_apart (hr : Reach (step sizeofPtr) Apart (init b₁ b₂) s)
    (hok : ¬ Apart s p) (h : step sizeofPtr s p = some s') :
    ¬ Conserved s' ∨ ∃ p' u, step sizeofPtr s' p' = some u ∧ ¬ Conserved u := by
  have hs : Inv s := hr.invariant inv_init inv_step
  cases p with
  | s1 =>
    simp only [Apart, Classical.not_imp, not_not] at hok
    exact .inl (not_conserved_of_copyS1 hs hok.1 hok.2 h)
  | w1 =>
    simp only [Apart, not_and_or, Classical.not_imp, not_not] at hok
    rcases hok with ⟨hdeq, henq⟩ | ⟨hpc, hdeq⟩
    · have hpc : s.s1.pc = .enqueue .send := by
        unfold enqueueS1 at henq
        cases hpc : s.s1.pc <;> simp_all
      exact .inr ⟨.s1, not_conserved_of_receiveW1 hs hdeq hpc h⟩
    · exact .inl (not_conserved_of_copyW1 hs hpc hdeq h)
  | w2 =>
    simp only [Apart, Classical.not_imp, not_not] at hok
    have hpc : s.w1.pc = .enqueue .send := by
      have henq := hok.2
      unfold enqueueW1 at henq
      cases hpc : s.w1.pc <;> simp_all
    exact .inr ⟨.w1, not_conserved_of_receiveW2 hs hok.1 hpc h⟩
  | sequencer => exact absurd trivial hok

end Ecen5623.Pipeline.Conservation
