import Ecen5623.Capture.System
import Ecen5623.Pipeline.Threads
import Ecen5623.Library.Ring
import Mathlib.Algebra.Order.Floor.Div

/-! # The rates of the services

The handlers `sequencer` of `simple-capture` and of `exam2`, one call as a function of the counter
that gives what it posts. The turns of a handler in `System` and in `Threads` post the same
(`exec_signal`, `stepSequencer_signal`). The counter is that of the signals modulo its limit
(`signals_count`), and the limits are common multiples of the divisors, so the semaphores are posted
at the multiples of their divisors over any number of wraps (`paced_signals`). -/

namespace Ecen5623.Clock.ServiceRates

open Ecen5623.Library Ecen5623.Capture.System

variable {S : Type*} [DecidableEq S]

/-! ### The handlers -/

/-- `if (count % n == 0) sem_post(&x)`. -/
def postEvery (count n : ℕ) (x : S) : List S := if count % n = 0 then [x] else []

namespace SimpleCapture

/-- `sequencer` of `simple-capture`: what it posts, and `sequence` after it. -/
def sequencer (running : Bool) (sequence : ℕ) : List Sem × ℕ :=
  if running then
    (.writeout :: postEvery sequence 4 .framegrab ++ postEvery sequence 10 .processing,
      wrapAt 300 (sequence + 1))
  else ([.writeout, .framegrab, .processing, .writeout, .teardown], sequence)

end SimpleCapture

namespace Exam2

/-- The semaphores that `sequencer` posts. -/
inductive Sem where
  | s1
  | w1
  | w2
  deriving DecidableEq, Repr

/-- `sequencer` of `exam2`: what it posts, and `seq_count` after it. -/
def sequencer (running : Bool) (seqCount : ℕ) : List Sem × ℕ :=
  if running then
    (postEvery seqCount 5 .s1 ++ postEvery seqCount 10 .w1 ++ postEvery seqCount 100 .w2,
      wrapAt 500 (seqCount + 1))
  else ([], seqCount)

end Exam2

/-- What a handler posts at each of the first `n` signals, and the counter after them. -/
def signals (handler : ℕ → List S × ℕ) : ℕ → List (List S) × ℕ
  | 0 => ([], 0)
  | n + 1 =>
    let (posts, count) := signals handler n
    (posts ++ [(handler count).1], (handler count).2)

/-- In `n` signals `x` is posted every `d` signals, from the first one on. -/
structure Paced (posts : List (List S)) (n : ℕ) (x : S) (d : ℕ) : Prop where
  count : posts.flatten.count x = n ⌈/⌉ d
  spacing : ∀ k l, k < l → x ∈ posts.getD k [] → x ∈ posts.getD l [] →
    (∀ j, k < j → j < l → x ∉ posts.getD j []) → l = k + d

/-! ### Multiples -/

theorem ceilDiv_succ {d : ℕ} (hd : 0 < d) (n : ℕ) :
    (n + 1) ⌈/⌉ d = n ⌈/⌉ d + if n % d = 0 then 1 else 0 := by
  rw [Nat.ceilDiv_eq_add_pred_div, Nat.ceilDiv_eq_add_pred_div,
    show n + 1 + d - 1 = n + d - 1 + 1 by omega, Nat.succ_div,
    show n + d - 1 + 1 = n + d by omega]
  refine congrArg _ (if_congr ?_ rfl rfl)
  rw [Nat.dvd_add_self_right, Nat.dvd_iff_mod_eq_zero]

theorem next_multiple {d k l : ℕ} (hd : 0 < d) (hlt : k < l) (hk : d ∣ k) (hl : d ∣ l)
    (hnone : ∀ j, k < j → j < l → ¬ d ∣ j) : l = k + d := by
  have hle : k + d ≤ l := by
    have := Nat.le_of_dvd (by omega) (Nat.dvd_sub hl hk)
    omega
  by_contra hne
  exact hnone (k + d) (by omega) (by omega) ((Nat.dvd_add_right hk).mpr dvd_rfl)

/-! ### Any number of signals -/

section Signals

variable {handler : ℕ → List S × ℕ} {posts : ℕ → List S} {limit d k : ℕ} {x : S}

theorem count_signal (hcount : ∀ c, (posts c).count x = if c % d = 0 then 1 else 0)
    (hdvd : d ∣ limit) (k : ℕ) :
    (posts (k % limit)).count x = if k % d = 0 then 1 else 0 := by
  rw [hcount, Nat.mod_mod_of_dvd k hdvd]

variable (hposts : ∀ c, handler c = (posts c, wrapAt limit (c + 1))) (hlimit : 0 < limit)
include hposts hlimit

omit [DecidableEq S] in
/-- **The counter is the number of the signal modulo the limit.** -/
theorem signals_count (n : ℕ) : (signals handler n).2 = n % limit := by
  induction n with
  | zero => exact (Nat.zero_mod limit).symm
  | succ n ih =>
    have hlt := Nat.mod_lt n hlimit
    rw [signals]
    dsimp only
    rw [ih, hposts, ← Nat.mod_add_mod n limit 1, succ_mod hlt]
    rfl

omit [DecidableEq S] in
theorem signals_posts (n : ℕ) :
    (signals handler n).1 = (List.range n).map fun k => posts (k % limit) := by
  induction n with
  | zero => rfl
  | succ n ih =>
    rw [signals]
    dsimp only
    rw [ih, signals_count hposts hlimit n, hposts, List.range_succ, List.map_append]
    rfl

variable (hcount : ∀ c, (posts c).count x = if c % d = 0 then 1 else 0) (hdvd : d ∣ limit)
include hcount hdvd

theorem mem_signals_iff {n : ℕ} : x ∈ (signals handler n).1.getD k [] ↔ k < n ∧ d ∣ k := by
  rw [signals_posts hposts hlimit, List.getD_eq_getElem?_getD, List.getElem?_map]
  rcases Nat.lt_or_ge k n with hk | hk
  · rw [List.getElem?_range hk, Option.map_some, Option.getD_some, ← List.count_pos_iff,
      count_signal hcount hdvd, Nat.dvd_iff_mod_eq_zero]
    split_ifs with h0
    · exact iff_of_true Nat.one_pos ⟨hk, h0⟩
    · exact iff_of_false (Nat.lt_irrefl 0) fun h => h0 h.2
  · rw [List.getElem?_eq_none (by rwa [List.length_range])]
    exact iff_of_false List.not_mem_nil fun h => absurd h.1 (by omega)

theorem flatten_count (n : ℕ) : (signals handler n).1.flatten.count x = n ⌈/⌉ d := by
  have hd := Nat.pos_of_dvd_of_pos hdvd hlimit
  rw [signals_posts hposts hlimit]
  induction n with
  | zero => exact (zero_ceilDiv d).symm
  | succ n ih =>
    rw [List.range_succ, List.map_append, List.flatten_append, List.count_append, ih,
      ceilDiv_succ hd, List.map_singleton, List.flatten_singleton, count_signal hcount hdvd]

/-- **A divisor of the limit keeps its phase** over any number of wraps. -/
theorem paced_signals (n : ℕ) : Paced (signals handler n).1 n x d := by
  refine ⟨flatten_count hposts hlimit hcount hdvd n, fun k l hlt hk hl hnone => ?_⟩
  have hiff : ∀ j, x ∈ (signals handler n).1.getD j [] ↔ j < n ∧ d ∣ j := fun j =>
    mem_signals_iff hposts hlimit hcount hdvd
  simp only [hiff] at hk hl hnone
  exact next_multiple (Nat.pos_of_dvd_of_pos hdvd hlimit) hlt hk.2 hl.2
    fun j hkj hjl hj => hnone j hkj hjl ⟨by omega, hj⟩

end Signals

/-! ### The two handlers -/

theorem count_postEvery (c n : ℕ) (x y : S) :
    (postEvery c n x).count y = if x = y then (if c % n = 0 then 1 else 0) else 0 := by
  unfold postEvery
  split_ifs with h h' h'
  · rw [h', List.count_singleton_self]
  · rw [List.count_singleton, if_neg (by simpa using h')]
  · rfl
  · rfl

theorem simpleCapture_true (c : ℕ) : SimpleCapture.sequencer true c =
    ((SimpleCapture.sequencer true c).1, wrapAt 300 (c + 1)) := rfl

theorem exam2_true (c : ℕ) : Exam2.sequencer true c =
    ((Exam2.sequencer true c).1, wrapAt 500 (c + 1)) := rfl

/-- **The rates of both programs** over any number of signals. -/
theorem rates (n : ℕ) :
    ((signals (SimpleCapture.sequencer true) n).1.flatten.count .writeout = n ∧
      Paced (signals (SimpleCapture.sequencer true) n).1 n .framegrab 4 ∧
      Paced (signals (SimpleCapture.sequencer true) n).1 n .processing 10 ∧
      (signals (SimpleCapture.sequencer true) n).2 < 300) ∧
    (Paced (signals (Exam2.sequencer true) n).1 n .s1 5 ∧
      Paced (signals (Exam2.sequencer true) n).1 n .w1 10 ∧
      Paced (signals (Exam2.sequencer true) n).1 n .w2 100 ∧
      (signals (Exam2.sequencer true) n).2 < 500) := by
  have hcapture : ∀ x d, d ∣ 300 →
      (∀ c, (SimpleCapture.sequencer true c).1.count x = if c % d = 0 then 1 else 0) →
      Paced (signals (SimpleCapture.sequencer true) n).1 n x d := fun x d hdvd hcount =>
    paced_signals simpleCapture_true (by omega) hcount hdvd n
  have hexam : ∀ x d, d ∣ 500 →
      (∀ c, (Exam2.sequencer true c).1.count x = if c % d = 0 then 1 else 0) →
      Paced (signals (Exam2.sequencer true) n).1 n x d := fun x d hdvd hcount =>
    paced_signals exam2_true (by omega) hcount hdvd n
  refine ⟨⟨?_, hcapture _ _ (by omega) fun c => ?_, hcapture _ _ (by omega) fun c => ?_, ?_⟩,
    hexam _ _ (by omega) fun c => ?_, hexam _ _ (by omega) fun c => ?_,
    hexam _ _ (by omega) fun c => ?_, ?_⟩
  · have h1 := hcapture .writeout 1 (one_dvd 300) fun c => by
      simp [SimpleCapture.sequencer, count_postEvery, Nat.mod_one]
    rw [h1.count, Nat.ceilDiv_eq_add_pred_div, Nat.div_one, Nat.add_sub_cancel]
  · simp [SimpleCapture.sequencer, count_postEvery]
  · simp [SimpleCapture.sequencer, count_postEvery]
  · rw [signals_count simpleCapture_true (by omega)]
    exact Nat.mod_lt n (by omega)
  · simp [Exam2.sequencer, count_postEvery]
  · simp [Exam2.sequencer, count_postEvery]
  · simp [Exam2.sequencer, count_postEvery]
  · rw [signals_count exam2_true (by omega)]
    exact Nat.mod_lt n (by omega)

/-! ### The turns of the handlers -/

section System

variable {H β : Type*} [DecidableEq H] {fc : β → β → ℕ} {camera : ℕ → β} {s : State H β} {h : H}
variable (hpending : s.pending = true) (hidle : s.handler h = .idle)
include hpending hidle

/-- **A call of the handler in `System`** while `running` is set. -/
theorem exec_signal (hrunning : s.running = true) :
    ∃ s', exec (step fc camera) Any s (.deliver h :: List.replicate 6 (.sequencer h)) = some s' ∧
      s'.sequence = (SimpleCapture.sequencer true s.sequence).2 ∧
      ∀ x, s'.sems x = s.sems x + (SimpleCapture.sequencer true s.sequence).1.count x := by
  simp only [List.replicate, exec, Any, if_true, step, hpending, hidle, and_self, stepSequencer,
    State.handlerTo, State.post, State.postEvery, Function.update_self, hrunning]
  refine ⟨_, rfl, rfl, fun x => ?_⟩
  simp only [SimpleCapture.sequencer, postEvery, if_true]
  split_ifs
  all_goals
    cases x
    all_goals rfl

theorem exec_signal_shut (hrunning : s.running = false) :
    ∃ s', exec (step fc camera) Any s (.deliver h :: List.replicate 7 (.sequencer h)) = some s' ∧
      s'.sequence = (SimpleCapture.sequencer false s.sequence).2 ∧
      ∀ x, s'.sems x = s.sems x + (SimpleCapture.sequencer false s.sequence).1.count x := by
  simp only [List.replicate, exec, Any, if_true, step, hpending, hidle, and_self, stepSequencer,
    State.handlerTo, State.post, Function.update_self, hrunning, Bool.false_eq_true, if_false,
    afterShut]
  refine ⟨_, rfl, rfl, fun x => ?_⟩
  cases x
  all_goals rfl

end System

/-- The value of a semaphore of `exam2`. -/
def Exam2.Sem.value (sems : Pipeline.Threads.Sems) : Exam2.Sem → ℕ
  | .s1 => sems.semS1
  | .w1 => sems.semW1
  | .w2 => sems.semW2

/-- **A call of the handler in `Threads`.** -/
theorem stepSequencer_signal {s : Pipeline.Threads.State} (hidle : s.sequencer.pc = .idle)
    (hrunning : s.running = true) :
    (Pipeline.Threads.stepSequencer^[5] s).sequencer.seqCount =
        (Exam2.sequencer true s.sequencer.seqCount).2 ∧
      ∀ x, Exam2.Sem.value (Pipeline.Threads.stepSequencer^[5] s).sems x =
        Exam2.Sem.value s.sems x + (Exam2.sequencer true s.sequencer.seqCount).1.count x := by
  simp only [Function.iterate_succ, Function.iterate_zero, Function.comp, id,
    Pipeline.Threads.stepSequencer, hidle, hrunning, if_true]
  refine ⟨rfl, fun x => ?_⟩
  simp only [Exam2.sequencer, postEvery, Pipeline.Threads.postEvery, if_true]
  split_ifs
  all_goals
    cases x
    all_goals rfl

end Ecen5623.Clock.ServiceRates
