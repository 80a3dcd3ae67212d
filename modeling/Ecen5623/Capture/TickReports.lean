import Ecen5623.Capture.Motion
import Mathlib.Tactic.SplitIfs

/-! # The ticks that are reported

`next_motion_state` called again and again from the initial state, on any sequence of changed and
unchanged inputs. What the state and the counter say about the inputs so far is `Past`, which every
call keeps (`past_stateAt`); a report is then the sixth unchanged input after a changed one
(`reports_sound`). Six unchanged inputs after a changed one lead to a report unless the changed one
comes in `MOTION_STATE_COUNTING`, where it ends the count without starting a new one
(`report_iff`). -/

namespace Ecen5623.Capture.TickReports

open Ecen5623.Capture.Motion

variable {inputs : ℕ → Bool} {a k m n : ℕ}

/-! ### Sequences of calls -/

/-- The detector before call `n`. -/
def stateAt (inputs : ℕ → Bool) : ℕ → Detector
  | 0 => init
  | n + 1 => (nextMotionState (inputs n) (stateAt inputs n)).2

/-- Call `n` returns `1`. -/
def Reports (inputs : ℕ → Bool) (n : ℕ) : Prop :=
  (nextMotionState (inputs n) (stateAt inputs n)).1 = true

instance (inputs : ℕ → Bool) (n : ℕ) : Decidable (Reports inputs n) :=
  inferInstanceAs (Decidable (_ = true))

/-- The `k` inputs from `a` on are unchanged. -/
def Calm (inputs : ℕ → Bool) (a k : ℕ) : Prop := ∀ j, a ≤ j → j < a + k → inputs j = false

/-- Nine unchanged inputs in a row came before input `n`. -/
def Settled (inputs : ℕ → Bool) (n : ℕ) : Prop := ∃ a, a + 9 ≤ n ∧ Calm inputs a 9

/-- The bounds of `good_frames_in_a_row` between calls. -/
def CounterOk (mo : Detector) : Prop :=
  match mo.motionState with
  | .start => mo.goodFramesInARow ≤ motionStartGoodFrames
  | .searching => mo.goodFramesInARow = 0
  | .bookend => mo.goodFramesInARow = 0
  | .counting => mo.goodFramesInARow ≤ motionGoodFramesThreshold

/-- What the reports and the counter say about the inputs. -/
structure SoundReports (inputs : ℕ → Bool) : Prop where
  sixth : ∀ n, Reports inputs n → ∃ m, n = m + 6 ∧ inputs m = true ∧ Calm inputs (m + 1) 6
  settled : ∀ n, Reports inputs n → Settled inputs n
  once : ∀ n n', n < n' → Reports inputs n → Reports inputs n' →
    ∃ j, n < j ∧ j ≤ n' ∧ inputs j = true
  counter : ∀ n, CounterOk (stateAt inputs n)

/-! ### The inputs so far -/

/-- What the detector before call `n` says about the inputs before `n`. -/
def Past (inputs : ℕ → Bool) (n : ℕ) (mo : Detector) : Prop :=
  match mo.motionState with
  | .start => mo.goodFramesInARow ≤ 8 ∧ ∃ a, n = a + mo.goodFramesInARow ∧
      Calm inputs a mo.goodFramesInARow
  | .searching => mo.goodFramesInARow = 0 ∧ Settled inputs n
  | .bookend => mo.goodFramesInARow = 0 ∧ ∃ m, n = m + 1 ∧ inputs m = true ∧ Settled inputs m
  | .counting => mo.goodFramesInARow ≤ 4 ∧ ∃ m, n = m + 2 + mo.goodFramesInARow ∧
      inputs m = true ∧ Calm inputs (m + 1) (mo.goodFramesInARow + 1) ∧ Settled inputs m

theorem calm_zero (inputs : ℕ → Bool) (a : ℕ) : Calm inputs a 0 := fun j h1 h2 => by omega

theorem Calm.succ (h : Calm inputs a k) (hn : inputs (a + k) = false) :
    Calm inputs a (k + 1) := by
  intro j h1 h2
  by_cases hj : j = a + k
  · rw [hj, hn]
  · exact h j h1 (by omega)

theorem Settled.mono (h : Settled inputs m) (hmn : m ≤ n) : Settled inputs n := by
  obtain ⟨a, ha, hcalm⟩ := h
  exact ⟨a, by omega, hcalm⟩

/-- **A call keeps what is known of the past.** -/
theorem Past.next {mo : Detector} (h : Past inputs n mo) :
    Past inputs (n + 1) (nextMotionState (inputs n) mo).2 := by
  obtain ⟨state, good⟩ := mo
  cases state with
  | start =>
    obtain ⟨hle, a, rfl, hcalm⟩ := h
    simp only at hle hcalm ⊢
    cases hin : inputs (a + good) with
    | true =>
      simp only [nextMotionState, if_true]
      exact ⟨Nat.zero_le 8, a + good + 1, rfl, calm_zero inputs _⟩
    | false =>
      simp only [nextMotionState, Bool.false_eq_true, if_false]
      split_ifs with hgood
      · have h8 : good = 8 := by
          simp only [motionStartGoodFrames] at hgood
          omega
        subst h8
        exact ⟨rfl, a, by omega, hcalm.succ hin⟩
      · simp only [motionStartGoodFrames] at hgood
        exact ⟨by simp only; omega, a, by simp only; omega, hcalm.succ hin⟩
  | searching =>
    obtain ⟨hzero, hs⟩ := h
    cases hin : inputs n with
    | true => exact ⟨hzero, n, rfl, hin, hs⟩
    | false => exact ⟨hzero, hs.mono (Nat.le_succ n)⟩
  | bookend =>
    obtain ⟨hzero, m, rfl, hm, hs⟩ := h
    simp only at hzero
    subst hzero
    cases hin : inputs (m + 1) with
    | true => exact ⟨rfl, m + 1, rfl, hin, hs.mono (Nat.le_succ m)⟩
    | false => exact ⟨Nat.zero_le 4, m, rfl, hm, (calm_zero inputs _).succ hin, hs⟩
  | counting =>
    obtain ⟨hle, m, rfl, hm, hcalm, hs⟩ := h
    simp only at hle hcalm ⊢
    cases hin : inputs (m + 2 + good) with
    | true => exact ⟨rfl, hs.mono (by omega)⟩
    | false =>
      simp only [nextMotionState, Bool.false_eq_true, if_false]
      have hin' : inputs (m + 1 + (good + 1)) = false := by
        rw [← hin]
        congr 1
        omega
      split_ifs with hgood
      · exact ⟨rfl, hs.mono (by omega)⟩
      · simp only [motionGoodFramesThreshold] at hgood
        exact ⟨by simp only; omega, m, by simp only; omega, hm, hcalm.succ hin', hs⟩

theorem past_stateAt (inputs : ℕ → Bool) : ∀ n, Past inputs n (stateAt inputs n)
  | 0 => ⟨Nat.zero_le 8, 0, rfl, calm_zero inputs 0⟩
  | n + 1 => (past_stateAt inputs n).next

/-! ### Soundness -/

theorem counting_of_reports (h : Reports inputs n) : inputs n = false ∧
    (stateAt inputs n).motionState = .counting ∧
      motionGoodFramesThreshold ≤ (stateAt inputs n).goodFramesInARow := by
  unfold Reports at h
  rcases hmo : stateAt inputs n with ⟨state, good⟩
  rw [hmo] at h
  cases hin : inputs n <;> cases state <;>
    simp only [hin, nextMotionState, Bool.false_eq_true, if_false, if_true] at h <;>
    split_ifs at h with hgood
  · exact ⟨rfl, rfl, Nat.le_of_lt_succ hgood⟩
  · exact absurd hgood (by decide)

/-- **A report is the sixth unchanged input after a changed one, long after the start.** -/
theorem past_of_reports (h : Reports inputs n) : ∃ m, n = m + 6 ∧ inputs m = true ∧
    Calm inputs (m + 1) 6 ∧ Settled inputs m := by
  obtain ⟨hin, hstate, hgood⟩ := counting_of_reports h
  have hpast := past_stateAt inputs n
  rcases hmo : stateAt inputs n with ⟨state, good⟩
  rw [hmo] at hstate hgood hpast
  simp only at hstate hgood
  subst hstate
  obtain ⟨hle, m, hn, hm, hcalm, hs⟩ := hpast
  simp only at hle hn hcalm
  obtain rfl : good = 4 := by
    simp only [motionGoodFramesThreshold] at hgood
    omega
  subst hn
  exact ⟨m, rfl, hm, hcalm.succ hin, hs⟩

theorem counterOk_of_past {mo : Detector} (h : Past inputs n mo) : CounterOk mo := by
  obtain ⟨state, good⟩ := mo
  cases state with
  | start => exact h.1
  | searching => exact h.1
  | bookend => exact h.1
  | counting => exact h.1

/-- **Reports are sound.** -/
theorem reports_sound (inputs : ℕ → Bool) : SoundReports inputs where
  sixth n h := by
    obtain ⟨m, hn, hm, hcalm, -⟩ := past_of_reports h
    exact ⟨m, hn, hm, hcalm⟩
  settled n h := by
    obtain ⟨m, hn, -, -, hs⟩ := past_of_reports h
    exact hs.mono (by omega)
  once n n' hlt h h' := by
    obtain ⟨m, rfl, -, hcalm, -⟩ := past_of_reports h
    obtain ⟨m', rfl, hm', -, -⟩ := past_of_reports h'
    -- the changed input of the later report is not among the unchanged ones of the earlier one
    have hlt' : ¬ m' < m + 1 + 6 := fun hle => by
      have hfalse := hcalm m' (by omega) hle
      rw [hm'] at hfalse
      cases hfalse
    exact ⟨m', by omega, by omega, hm'⟩
  counter n := counterOk_of_past (past_stateAt inputs n)

/-! ### Completeness -/

theorem stateAt_succ_of_changed (hin : inputs m = true)
    (hstart : (stateAt inputs m).motionState ≠ .start)
    (hcount : (stateAt inputs m).motionState ≠ .counting) :
    stateAt inputs (m + 1) = { motionState := .bookend, goodFramesInARow := 0 } := by
  have hpast := past_stateAt inputs m
  rw [stateAt, hin]
  rcases hmo : stateAt inputs m with ⟨state, good⟩
  rw [hmo] at hstart hcount hpast
  cases state with
  | start => exact absurd rfl hstart
  | searching =>
    obtain ⟨rfl, -⟩ : good = 0 ∧ _ := hpast
    rfl
  | bookend =>
    obtain ⟨rfl, -⟩ : good = 0 ∧ _ := hpast
    rfl
  | counting => exact absurd rfl hcount

theorem stateAt_succ_of_counting (hin : inputs m = true)
    (hcount : (stateAt inputs m).motionState = .counting) :
    stateAt inputs (m + 1) = { motionState := .searching, goodFramesInARow := 0 } := by
  rw [stateAt, hin]
  rcases hmo : stateAt inputs m with ⟨state, good⟩
  rw [hmo] at hcount
  simp only at hcount
  subst hcount
  rfl

theorem stateAt_of_bookend
    (h : stateAt inputs a = { motionState := .bookend, goodFramesInARow := 0 }) :
    ∀ k ≤ 4, Calm inputs a (k + 1) →
      stateAt inputs (a + (k + 1)) = { motionState := .counting, goodFramesInARow := k }
  | 0, _, hcalm => by
    rw [stateAt, h, hcalm a (Nat.le_refl a) (by omega)]
    rfl
  | k + 1, hk, hcalm => by
    have ih := stateAt_of_bookend h k (by omega) fun j h1 h2 => hcalm j h1 (by omega)
    rw [← Nat.add_assoc a (k + 1) 1, stateAt, ih, hcalm (a + (k + 1)) (by omega) (by omega)]
    have hle : ¬ k + 1 > motionGoodFramesThreshold := by
      simp only [motionGoodFramesThreshold]
      omega
    simp [nextMotionState, hle]

theorem stateAt_of_searching
    (h : stateAt inputs a = { motionState := .searching, goodFramesInARow := 0 }) :
    ∀ k, Calm inputs a k →
      stateAt inputs (a + k) = { motionState := .searching, goodFramesInARow := 0 }
  | 0, _ => h
  | k + 1, hcalm => by
    have ih := stateAt_of_searching h k fun j h1 h2 => hcalm j h1 (by omega)
    rw [← Nat.add_assoc, stateAt, ih, hcalm (a + k) (by omega) (by omega)]
    rfl

/-- **Six unchanged inputs after a changed one are reported exactly if the changed one does not come
in `MOTION_STATE_COUNTING`.** -/
theorem report_iff (hstart : (stateAt inputs m).motionState ≠ .start) (hin : inputs m = true)
    (hcalm : Calm inputs (m + 1) 6) :
    (∃ n, m < n ∧ Calm inputs (m + 1) (n - m) ∧ Reports inputs n) ↔
      (stateAt inputs m).motionState ≠ .counting := by
  constructor
  · rintro ⟨n, hmn, hcalm', hrep⟩ hcount
    have hs := stateAt_of_searching (stateAt_succ_of_counting hin hcount) (n - (m + 1))
      fun j h1 h2 => hcalm' j h1 (by omega)
    rw [Nat.add_sub_cancel' hmn] at hs
    have hstate := (counting_of_reports hrep).2.1
    rw [hs] at hstate
    cases hstate
  · intro hcount
    have hs := stateAt_of_bookend (stateAt_succ_of_changed hin hstart hcount) 4
      (Nat.le_refl 4)
      fun j h1 h2 => hcalm j h1 (by omega)
    refine ⟨m + 6, by omega, fun j h1 h2 => hcalm j h1 (by omega), ?_⟩
    have hsix : stateAt inputs (m + 6) = { motionState := .counting, goodFramesInARow := 4 } := hs
    rw [Reports, hsix, hcalm (m + 6) (by omega) (by omega)]
    rfl

theorem report_iff_once :
    (∃ n, 9 < n ∧ Calm (fun j => j == 9) 10 (n - 9) ∧ Reports (fun j => j == 9) n) ↔
      (stateAt (fun j => j == 9) 9).motionState ≠ .counting :=
  report_iff (by decide) (by decide) fun j h1 _ => beq_false_of_ne (by omega)

/-- Nine unchanged inputs, then one unchanged input between two changed ones: the six unchanged
inputs that follow are not reported. -/
theorem not_complete : ¬ ∀ (inputs : ℕ → Bool) (m : ℕ),
    (stateAt inputs m).motionState ≠ .start → inputs m = true → Calm inputs (m + 1) 6 →
      ∃ n, m < n ∧ Calm inputs (m + 1) (n - m) ∧ Reports inputs n := by
  intro h
  obtain ⟨n, hn, -, hrep⟩ := h (fun j => j == 9 || j == 11) 11 (by decide) (by decide)
    fun j h1 _ => by
      have h9 : (j == 9) = false := beq_false_of_ne (by omega)
      have h11 : (j == 11) = false := beq_false_of_ne (by omega)
      simp only [h9, h11, Bool.or_self]
  have hs : stateAt (fun j => j == 9 || j == 11) (12 + (n - 12)) =
      { motionState := .searching, goodFramesInARow := 0 } :=
    stateAt_of_searching (by decide) (n - 12) fun j h1 _ => by
      have h9 : (j == 9) = false := beq_false_of_ne (by omega)
      have h11 : (j == 11) = false := beq_false_of_ne (by omega)
      simp only [h9, h11, Bool.or_self]
  rw [Nat.add_sub_cancel' hn] at hs
  have hstate := (counting_of_reports hrep).2.1
  rw [hs] at hstate
  cases hstate

end Ecen5623.Capture.TickReports
