import Mathlib.Data.List.Range
import Mathlib.Logic.Function.Basic

/-! # The camera from its opening to the end of the process

The initialisation, loop and cleanup of the frame thread (`capture.c`, with `buffer.c` and
`setup.c`) and what `main` of `sequencer.c` does around them. `Answers` has the answer of each
system call, and `run` the whole course, with a log of what is acquired, of what is released and of
the entries of `buffers` that are accessed. The table itself is taken as long as the indices
require.

`frame` and `main` work on different copies of `video_t`: the count of buffers that `frame` gets
from the driver is in its own copy only, while the descriptor is in both. Neither the driver's own
buffers nor streaming are resources here, and the result of a release is only printed. -/

namespace Ecen5623.Capture.CameraInit

/-- `X_RES`. -/
abbrev xRes : ℕ := 640

/-- `Y_RES`. -/
abbrev yRes : ℕ := 480

/-- `NUM_BUF`. -/
abbrev numBuf : ℕ := 3

inductive Resource where
  | camera
  | buffer (i : ℕ)
  | woBuffer
  deriving DecidableEq, Repr

inductive Event where
  | acquire (r : Resource)
  | release (r : Resource)
  /-- An access to an entry of `buffers`. -/
  | access (i : ℕ)
  deriving DecidableEq, Repr

/-- What `start` of an entry of `buffers` is: `NULL`, `MAP_FAILED` or a mapping. -/
inductive Start where
  | null
  | mapFailed
  | mapped
  deriving DecidableEq, Repr

/-- The global variables and the log; `woBuffer` is whether `wo_buffer.start` is not `NULL`. -/
structure World where
  buffers : ℕ → Start
  woBuffer : Bool
  log : List Event

/-- `video_t`. -/
structure Video where
  width : ℕ
  height : ℕ
  numBuffers : ℕ

/-- How the loop of `frame` ends. -/
inductive Ending where
  /-- `running` is zero. -/
  | stopped
  /-- `sem_wait` fails with `EINTR`. -/
  | interrupted
  /-- `sem_wait` fails otherwise. -/
  | semError
  | dequeueError
  | enqueueError
  deriving DecidableEq, Repr

/-- The answers of the system calls, and the frames that are dequeued before the loop ends. -/
structure Answers where
  querycap : Bool
  gInput : Bool
  enuminput : Bool
  /-- The number of formats before `VIDIOC_ENUM_FMT` fails, and whether it does with `EINVAL`. -/
  enumFmt : ℕ × Bool
  gFmt : Bool
  sFmt : Bool
  /-- The resolution that is in force after it has been set. -/
  gFmtSet : Option (ℕ × ℕ)
  gFmtLast : Bool
  /-- The count of buffers that `VIDIOC_REQBUFS` returns. -/
  reqbufs : Option ℕ
  querybuf : ℕ → Bool
  mmap : ℕ → Bool
  qbuf : ℕ → Bool
  /-- Whether the flags are those of a buffer that is mapped and queued. -/
  flags : ℕ → Bool
  malloc : Bool
  streamon : Bool
  sExtCtrls : Fin 4 → Bool
  gExtCtrls : Bool
  frames : List ℕ
  ending : Ending

def World.emit (w : World) (e : Event) : World := { w with log := w.log ++ [e] }

/-! ### `setup.c` -/

def closeCamera (w : World) : World := w.emit (.release .camera)

def showCameraCapabilities (a : Answers) : Bool := a.querycap && a.gInput && a.enuminput

def enumerateCameraImageFormats (a : Answers) : Bool := a.enumFmt.2 && a.enumFmt.1 != 0

def cameraSetYuyv (a : Answers) (v : Video) : Video × Bool :=
  if a.sFmt then
    match a.gFmtSet with
    | some (width, height) => ({ v with width := width, height := height }, true)
    | none => (v, false)
  else (v, false)

def startStreaming (a : Answers) : Bool := a.streamon

def tryRefocus (a : Answers) : Bool := (List.finRange 4).all a.sExtCtrls && a.gExtCtrls

/-! ### `buffer.c` -/

/-- `request_buffers`. -/
def requestBuffers (a : Answers) (v : Video) : Video × Bool :=
  match a.reqbufs with
  | none => (v, false)
  | some count => if count < numBuf then (v, false) else ({ v with numBuffers := count }, true)

/-- The body of the loop of `_munmap_buffers`. -/
def munmapStep (w : World) (i : ℕ) : World :=
  match w.buffers i with
  | .mapped => (w.emit (.access i)).emit (.release (.buffer i))
  | _ => w.emit (.access i)

/-- `_munmap_buffers`. -/
def munmapBuffers (numBuffers : ℕ) (w : World) : World := (List.range numBuffers).foldl munmapStep w

def cameraDeallocateInternalBuffers (v : Video) (w : World) : World := munmapBuffers v.numBuffers w

/-- The loop of `mmap_buffers` over the indices that are left. -/
def mmapFrom (a : Answers) (v : Video) : List ℕ → World → World × Bool
  | [], w => (w, true)
  | i :: is, w =>
    if a.querybuf i then
      if a.mmap i then
        mmapFrom a v is ((({ w with buffers := Function.update w.buffers i .mapped }).emit
          (.access i)).emit (.acquire (.buffer i)))
      else
        (cameraDeallocateInternalBuffers v
          (({ w with buffers := Function.update w.buffers i .mapFailed }).emit (.access i)), false)
    else (w, false)

/-- `mmap_buffers`. -/
def mmapBuffers (a : Answers) (v : Video) (w : World) : World × Bool :=
  mmapFrom a v (List.range v.numBuffers) w

/-- `deallocate_buffer` of `wo_buffer`; `start` keeps its value. -/
def deallocateBuffer (w : World) : World :=
  if w.woBuffer then w.emit (.release .woBuffer) else w

/-! ### `capture.c` -/

/-- `allocate_other_buffers`, without `SHARPEN_ON`. -/
def allocateOtherBuffers (a : Answers) (w : World) : World × Bool :=
  if a.malloc then (({ w with woBuffer := true }).emit (.acquire .woBuffer), true)
  else ({ w with woBuffer := false }, false)

def deallocateOtherBuffers (w : World) : World := deallocateBuffer w

/-- `ERROR_FULL_INIT` and `ERROR_LEVEL_3` to `ERROR_LEVEL_0`. -/
inductive ErrorLevel where
  | fullInit
  | level3
  | level2
  | level1
  | level0
  deriving DecidableEq, Repr

/-- `video_error_cleanup`: each case with the ones it falls through to. -/
def videoErrorCleanup (state : ErrorLevel) (v : Video) (w : World) : World :=
  match state with
  | .fullInit => closeCamera (cameraDeallocateInternalBuffers v (deallocateOtherBuffers w))
  | .level3 => closeCamera (cameraDeallocateInternalBuffers v (deallocateOtherBuffers w))
  | .level2 => closeCamera (cameraDeallocateInternalBuffers v w)
  | .level1 => closeCamera w
  | .level0 => w

/-- `camera_check_init`. -/
def cameraCheckInit (a : Answers) (v : Video) : Video × Bool :=
  if showCameraCapabilities a && enumerateCameraImageFormats a && a.gFmt then
    match cameraSetYuyv a v with
    | (v, ok) => (v, ok && v.width == xRes && v.height == yRes && a.gFmtLast)
  else (v, false)

/-- `camera_init_internal_buffers`. -/
def cameraInitInternalBuffers (a : Answers) (v : Video) (w : World) : Video × World × Bool :=
  match requestBuffers a v with
  | (v, false) => (v, w, false)
  | (v, true) =>
    match mmapBuffers a v w with
    | (w, false) => (v, w, false)
    | (w, true) => (v, w, (List.range v.numBuffers).all fun i => a.qbuf i && a.flags i)

/-- The loop of `frame`. -/
def frameLoop (a : Answers) (v : Video) (w : World) : World :=
  let w := a.frames.foldl (fun w i => w.emit (.access i)) w
  match a.ending with
  | .semError => videoErrorCleanup .fullInit v w
  | _ => w

/-- `frame`. -/
def frame (a : Answers) (v : Video) (w : World) : World :=
  match cameraCheckInit a v with
  | (v, false) => videoErrorCleanup .level0 v (closeCamera w)
  | (v, true) =>
    match cameraInitInternalBuffers a v w with
    | (v, w, false) => videoErrorCleanup .level2 v w
    | (v, w, true) =>
      match allocateOtherBuffers a w with
      | (w, false) => videoErrorCleanup .level3 v w
      | (w, true) =>
        if startStreaming a && tryRefocus a then frameLoop a v w
        else videoErrorCleanup .level3 v w

/-- The copy of `main`. -/
def video : Video := { width := 0, height := 0, numBuffers := 0 }

/-- The world after `open_camera`. -/
def opened : World :=
  { buffers := fun _ => .null, woBuffer := false, log := [.acquire .camera] }

/-- From `open_camera` to the end of the process, `main` having joined the frame thread. -/
def run (a : Answers) : World := videoErrorCleanup .fullInit video (frame a video opened)

end Ecen5623.Capture.CameraInit
