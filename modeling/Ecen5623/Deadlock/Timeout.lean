import Ecen5623.Library.Transition
import Mathlib.Data.Int.Notation

/-! # Two threads and two mutexes with time-outs

`grabRsrcs` of `deadlock_timeout.c`, as two threads that take turns. A mutex operation, the load and
the store of a counter update and a test of the flags are one step each. A turn carries the value
`pthread_mutex_timedlock` returns in it; a turn at any other point of the program ignores it. A lock
attempt returns `0` only when the mutex is free, also when the thread holds it itself. Sleeping,
printing and the choice of the delays have no effect on the state. -/

namespace Ecen5623.Deadlock.Timeout

inductive Rsrc where
  | rsrcA
  | rsrcB
  deriving DecidableEq, Repr

inductive Thread where
  | thread1
  | thread2
  deriving DecidableEq, Repr

/-- `resource_one_id`, and the mutex of that resource. -/
def Thread.one : Thread → Rsrc
  | .thread1 => .rsrcA
  | .thread2 => .rsrcB

/-- `resource_two_id`, and the mutex of that resource. -/
def Thread.two : Thread → Rsrc
  | .thread1 => .rsrcB
  | .thread2 => .rsrcA

/-- What `pthread_mutex_timedlock` returns: `0`, `ETIMEDOUT` or another error. -/
inductive Rc where
  | zero
  | etimedout
  | error
  deriving DecidableEq, Repr

/-- Where a thread is. The argument `reg` of a counter update is the value it has loaded; `exit` is
what follows a failed second attempt, `pthread_exit` or the next round. -/
inductive Pc where
  | lockOne
  | countOne (reg : Option ℤ)
  | testOne
  | lockTwo
  | countTwo (reg : Option ℤ)
  | testTwo
  | dropOne (reg : Option ℤ) (exit : Bool)
  | backOff (exit : Bool)
  | releaseTwo (reg : Option ℤ)
  | unlockTwo
  | releaseOne (reg : Option ℤ)
  | unlockOne
  | exited
  deriving DecidableEq, Repr

/-- The variables of one thread. -/
structure Local where
  pc : Pc
  gotOne : Bool
  gotTwo : Bool
  deriving DecidableEq, Repr

/-- The mutexes, the counters and the two threads. -/
structure State where
  owner : Rsrc → Option Thread
  rsrcCnts : Rsrc → ℤ
  threads : Thread → Local

namespace State

/-- The variables of one thread change. -/
def put (s : State) (i : Thread) (l : Local) : State :=
  { s with threads := Function.update s.threads i l }

/-- A mutex changes hands. -/
def setOwner (s : State) (r : Rsrc) (o : Option Thread) : State :=
  { s with owner := Function.update s.owner r o }

/-- The store of a counter update. -/
def store (s : State) (r : Rsrc) (v : ℤ) : State :=
  { s with rsrcCnts := Function.update s.rsrcCnts r v }

variable (s : State) (i : Thread) (r : Rsrc) (l : Local) (o : Option Thread) (v : ℤ)

@[simp] theorem put_owner : (s.put i l).owner = s.owner := rfl

@[simp] theorem put_rsrcCnts : (s.put i l).rsrcCnts = s.rsrcCnts := rfl

@[simp] theorem put_threads_self : (s.put i l).threads i = l := Function.update_self ..

@[simp] theorem setOwner_owner_self : (s.setOwner r o).owner r = o := Function.update_self ..

@[simp] theorem setOwner_rsrcCnts : (s.setOwner r o).rsrcCnts = s.rsrcCnts := rfl

@[simp] theorem setOwner_threads : (s.setOwner r o).threads = s.threads := rfl

@[simp] theorem store_owner : (s.store r v).owner = s.owner := rfl

@[simp] theorem store_rsrcCnts_self : (s.store r v).rsrcCnts r = v := Function.update_self ..

@[simp] theorem store_threads : (s.store r v).threads = s.threads := rfl

variable {s i r l o v}

theorem put_threads_ne {j : Thread} (h : j ≠ i) : (s.put i l).threads j = s.threads j :=
  Function.update_of_ne h _ _

theorem setOwner_owner_ne {r' : Rsrc} (h : r' ≠ r) : (s.setOwner r o).owner r' = s.owner r' :=
  Function.update_of_ne h _ _

theorem store_rsrcCnts_ne {r' : Rsrc} (h : r' ≠ r) :
    (s.store r v).rsrcCnts r' = s.rsrcCnts r' :=
  Function.update_of_ne h _ _

end State

/-- Both resources are free and both threads are about to make their first attempt. -/
def init : State where
  owner _ := none
  rsrcCnts _ := 0
  threads _ := { pc := .lockOne, gotOne := false, gotTwo := false }

/-- The thread whose turn it is, and what a lock attempt returns in it. -/
abbrev Turn := Thread × Rc

/-- `if (got_one && got_two) break`, or else go on at `next`. -/
def testBoth (l : Local) (next : Pc) : Local :=
  { l with pc := if l.gotOne && l.gotTwo then .releaseTwo none else next }

/-- One step of `grabRsrcs`, by thread `i` with the variables `l`. -/
def stepAt (s : State) (i : Thread) (rc : Rc) (l : Local) : Option State :=
  match l.pc with
  | .lockOne =>
    match rc with
    | .zero =>
      if s.owner i.one = none then
        some ((s.setOwner i.one (some i)).put i { l with pc := .countOne none })
      else none
    | .etimedout => some (s.put i { l with pc := .testOne })
    | .error => some (s.put i { l with pc := .exited })
  | .countOne none => some (s.put i { l with pc := .countOne (some (s.rsrcCnts i.one)) })
  | .countOne (some v) =>
    some ((s.store i.one (v + 1)).put i { l with pc := .testOne, gotOne := true })
  | .testOne => some (s.put i (testBoth l .lockTwo))
  | .lockTwo =>
    match rc with
    | .zero =>
      if s.owner i.two = none then
        some ((s.setOwner i.two (some i)).put i { l with pc := .countTwo none })
      else none
    | .etimedout => some (s.put i { l with pc := .dropOne none false })
    | .error => some (s.put i { l with pc := .dropOne none true })
  | .countTwo none => some (s.put i { l with pc := .countTwo (some (s.rsrcCnts i.two)) })
  | .countTwo (some v) =>
    some ((s.store i.two (v + 1)).put i { l with pc := .testTwo, gotTwo := true })
  | .testTwo => some (s.put i (testBoth l .lockOne))
  | .dropOne none exit =>
    some (s.put i { l with pc := .dropOne (some (s.rsrcCnts i.one)) exit })
  | .dropOne (some v) exit => some ((s.store i.one (v - 1)).put i { l with pc := .backOff exit })
  | .backOff exit =>
    some ((s.setOwner i.one none).put i { l with pc := if exit then .exited else .lockOne })
  | .releaseTwo none => some (s.put i { l with pc := .releaseTwo (some (s.rsrcCnts i.two)) })
  | .releaseTwo (some v) => some ((s.store i.two (v - 1)).put i { l with pc := .unlockTwo })
  | .unlockTwo => some ((s.setOwner i.two none).put i { l with pc := .releaseOne none })
  | .releaseOne none => some (s.put i { l with pc := .releaseOne (some (s.rsrcCnts i.one)) })
  | .releaseOne (some v) => some ((s.store i.one (v - 1)).put i { l with pc := .unlockOne })
  | .unlockOne => some ((s.setOwner i.one none).put i { l with pc := .exited })
  | .exited => none

/-- One turn. -/
def step (s : State) (t : Turn) : Option State := stepAt s t.1 t.2 (s.threads t.1)

/-! ### What the program is for -/

/-- The mutex a thread is about to unlock. -/
def Pc.unlocks (i : Thread) : Pc → Option Rsrc
  | .backOff _ => some i.one
  | .unlockTwo => some i.two
  | .unlockOne => some i.one
  | _ => none

/-- The resource for which a thread is between a mutex operation and the counter update that goes
with it. -/
def Pc.lags (i : Thread) : Pc → Option Rsrc
  | .countOne _ => some i.one
  | .countTwo _ => some i.two
  | .backOff _ => some i.one
  | .unlockTwo => some i.two
  | .unlockOne => some i.one
  | _ => none

/-- Mutual exclusion: the loop is left with both resources, only the holder unlocks, and the
counters tell who holds what. -/
structure Safe (s : State) : Prop where
  broke : ∀ i r, (s.threads i).pc = .releaseTwo none → s.owner r = some i
  unlocks : ∀ i r, (s.threads i).pc.unlocks i = some r → s.owner r = some i
  counts : (∀ i, (s.threads i).pc.lags i = none) →
    ∀ r, s.rsrcCnts r = if (s.owner r).isSome then 1 else 0

end Ecen5623.Deadlock.Timeout
