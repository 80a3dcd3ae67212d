import Mathlib.Data.Int.Notation
import Mathlib.Data.Nat.Notation
import Mathlib.Tactic.SplitIfs

/-! # The motion detector

`next_motion_state`, `is_motion` and `frame_changes` of `motion.c`. -/

namespace Ecen5623.Capture.Motion

/-- `MOTION_THRESHOLD`. -/
def motionThreshold : ℕ := 50

/-- `MOTION_START_GOOD_FRAMES`. -/
def motionStartGoodFrames : ℕ := 8

/-- `MOTION_GOOD_FRAMES_THRESHOLD`. -/
def motionGoodFramesThreshold : ℕ := 4

/-- `MOTION_STATE_START` and so on. -/
inductive MotionState where
  | start
  | searching
  | bookend
  | counting
  deriving DecidableEq, Repr

/-- The variables `motion_state` and `good_frames_in_a_row`. -/
structure Detector where
  motionState : MotionState
  goodFramesInARow : ℕ
  deriving DecidableEq, Repr

def init : Detector := { motionState := .start, goodFramesInARow := 0 }

/-- The value returned, and the variables after the call. -/
def nextMotionState (changed : Bool) (mo : Detector) : Bool × Detector :=
  match mo.motionState with
  | .start =>
    let good := if changed then 0 else mo.goodFramesInARow + 1
    if good > motionStartGoodFrames then
      (false, { motionState := .searching, goodFramesInARow := 0 })
    else (false, { mo with goodFramesInARow := good })
  | .searching => (false, if changed then { mo with motionState := .bookend } else mo)
  | .bookend => (false, if changed then mo else { mo with motionState := .counting })
  | .counting =>
    let mo := if changed then { motionState := .searching, goodFramesInARow := 0 }
      else { mo with goodFramesInARow := mo.goodFramesInARow + 1 }
    if mo.goodFramesInARow > motionGoodFramesThreshold then
      (true, { motionState := .searching, goodFramesInARow := 0 })
    else (false, mo)

/-- `is_motion`. -/
def isMotion (count : ℕ) (mo : Detector) : Bool × Detector :=
  nextMotionState (count > motionThreshold) mo

/-! ### The comparison of two frames -/

/-- `MOTION_SENSITIVITY`. -/
def motionSensitivity : ℕ := 35

/-- `FRAME_SIZE`. -/
abbrev frameSize : ℕ := 640 * 480

/-- The contents of a frame buffer: `NATIVE_CAMERA_FORMAT_SIZE` bytes for each pixel. -/
abbrev Image := Fin (frameSize * 2) → BitVec 8

/-- `frame_changes`, which looks at every second byte. -/
def frameChanges (first second : Image) : ℕ :=
  (List.finRange frameSize).countP fun i : Fin frameSize =>
    let j : Fin (frameSize * 2) := ⟨i * 2, Nat.mul_lt_mul_of_pos_right i.isLt Nat.two_pos⟩
    let diff : ℤ := ((first j).toNat : ℤ) - (second j).toNat
    diff.natAbs > motionSensitivity

theorem frameChanges_const (a b : BitVec 8) : frameChanges (fun _ => a) (fun _ => b) =
    if ((a.toNat : ℤ) - b.toNat).natAbs > motionSensitivity then frameSize else 0 := by
  unfold frameChanges
  split_ifs with h
  · simp only [h, decide_true, List.countP_true, List.length_finRange]
  · simp only [h, decide_false, List.countP_false, Function.const_apply]

end Ecen5623.Capture.Motion
