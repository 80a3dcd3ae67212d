import Ecen5623.Library.Dispatch
import Mathlib.Data.Fintype.Basic

/-! # Three services, a mutex and one core

`pthread3.c`, `pthread3ok.c`, `pthread3ok_spins.c` and `pthread3amp.c` demonstrate priority
inversion. The service `start` creates `low`, spins until it is in the critical section, and creates
`high`, which runs the same task, and `mid`, which only burns cycles. The programs differ in the
priorities and in how they set up the mutex (`Program`). What the real-time threads do on the one
core they are pinned to is up to their effective priorities (`Dispatched`); a thread that is not
pinned may take a turn at any time. A call of `fibCycleBurner` is one turn. -/

namespace Ecen5623.Inversion.Services

open Ecen5623.Library

/-- The threads, named after their indices `START_SERVICE` and so on. -/
inductive Service where
  | start
  | high
  | mid
  | low
  deriving DecidableEq, Repr

instance : Fintype Service := ⟨{.start, .high, .mid, .low}, fun i => by cases i <;> decide⟩

/-! ### The mutex -/

/-- The protocol of a mutex. -/
inductive Protocol where
  | prioNone
  | prioInherit
  deriving DecidableEq, Repr

/-- The calls with which `main` sets the mutex up; `withAttr` is whether `sharedMemSemAttr` is
passed to `pthread_mutex_init`, and not `NULL`. -/
inductive SetUp where
  | mutexInit (withAttr : Bool)
  | mutexattrSetprotocol (protocol : Protocol)
  deriving DecidableEq, Repr

/-- The protocols of `sharedMemSemAttr`, which is zero at first, and of `sharedMemSem`. -/
structure Protocols where
  attr : Protocol := .prioNone
  mutex : Protocol := .prioNone

/-- An attribute object has no effect on a mutex that it was not passed to. -/
def Protocols.call (ps : Protocols) : SetUp → Protocols
  | .mutexInit withAttr => { ps with mutex := if withAttr then ps.attr else .prioNone }
  | .mutexattrSetprotocol protocol => { ps with attr := protocol }

/-! ### The programs -/

/-- What the programs differ in. A thread without a priority is `SCHED_OTHER` and not pinned. -/
structure Program where
  useMutex : Bool
  setUp : List SetUp
  prio : Service → Option ℕ

def Program.protocol (p : Program) : Protocol := (p.setUp.foldl Protocols.call {}).mutex

section Programs
variable (rtMinPrio rtMaxPrio : ℕ)

/-- `pthread3.c`; `low` inherits the priority and the core of `start`. -/
def pthread3 : Program where
  useMutex := true
  setUp := [.mutexInit false]
  prio
    | .start => some (rtMinPrio + 1)
    | .high => some rtMaxPrio
    | .mid => some (rtMaxPrio - 1)
    | .low => some (rtMinPrio + 1)

/-- `pthread3ok.c`, with `USE_MUTEX` defined or not. -/
def pthread3ok (useMutex : Bool) : Program where
  useMutex
  setUp := [.mutexInit false]
  prio
    | .start => none
    | .high => some (rtMaxPrio - 1)
    | .mid => some (rtMaxPrio - 2)
    | .low => some (rtMaxPrio - 3)

/-- `pthread3ok_spins.c`. -/
def pthread3okSpins : Program :=
  let ok := pthread3ok rtMaxPrio true
  { ok with prio := Function.update ok.prio .start (some rtMaxPrio) }

/-- `pthread3amp.c`. -/
def pthread3amp : Program where
  useMutex := true
  setUp := [.mutexInit false, .mutexattrSetprotocol .prioInherit]
  prio
    | .start => none
    | .high => some rtMaxPrio
    | .mid => some (rtMaxPrio - 1)
    | .low => some rtMinPrio

end Programs

/-! ### The threads -/

/-- Where `startService` is. -/
inductive Start where
  | setInterference
  | createLow
  | spin
  | createHigh
  | testInterference
  | createMid
  | joinHigh
  | testJoin
  | joinMid
  | joinLow
  | exited
  deriving DecidableEq, Repr

/-- Where `criticalSectionTask` or `simpleTask` is; `reg` is what has been read of `CScnt`. -/
inductive Pc where
  | unborn
  | lock
  | readCnt
  | writeCnt (reg : ℕ)
  | clear
  | burn
  | count
  | test
  | unlock
  | exited
  deriving DecidableEq, Repr

/-- The program; `intfTime` is its argument. -/
structure State where
  intfTime : Int32
  runInterference : Int32
  csCnt : ℕ
  idleCount : Service → ℕ
  owner : Option Service
  start : Start
  pc : Service → Pc

def init (intfTime : Int32) : State where
  intfTime
  runInterference := 0
  csCnt := 0
  idleCount _ := 0
  owner := none
  start := .setInterference
  pc _ := .unborn

/-- The conversion of an `int` to `unsigned`. -/
def toUnsigned (n : Int32) : ℕ := (n.toInt % 2 ^ 32).toNat

/-- `CS_LENGTH`. -/
def csLength : ℕ := 10

/-- Thread `i` goes on to `l`. -/
def State.goto (s : State) (i : Service) (l : Pc) : State :=
  { s with pc := Function.update s.pc i l }

/-- `idleCount[i] = c`. -/
def State.setIdleCount (s : State) (i : Service) (c : ℕ) : State :=
  { s with idleCount := Function.update s.idleCount i c }

/-- A turn of `startService`. -/
def startService (s : State) : Option State :=
  match s.start with
  | .setInterference => some { s with runInterference := s.intfTime, start := .createLow }
  | .createLow => some { s.goto .low .lock with start := .spin }
  | .spin => some (if s.csCnt < 1 then s else { s with start := .createHigh })
  | .createHigh => some { s.goto .high .lock with start := .testInterference }
  | .testInterference =>
    some { s with start := if 0 < s.runInterference then .createMid else .joinHigh }
  | .createMid => some { s.goto .mid .burn with start := .joinHigh }
  | .joinHigh => if s.pc .high = .exited then some { s with start := .testJoin } else none
  | .testJoin => some { s with start := if 0 < s.runInterference then .joinMid else .joinLow }
  | .joinMid => if s.pc .mid = .exited then some { s with start := .joinLow } else none
  | .joinLow => if s.pc .low = .exited then some { s with start := .exited } else none
  | .exited => none

/-- A turn of `simpleTask`. -/
def simpleTask (i : Service) (s : State) : Option State :=
  match s.pc i with
  | .burn => some (s.goto i .count)
  | .count => some ((s.setIdleCount i ((s.idleCount i + 1) % 2 ^ 32)).goto i .test)
  | .test =>
    some (s.goto i (if s.idleCount i < toUnsigned s.runInterference then .burn else .exited))
  | _ => none

/-- A turn of `criticalSectionTask`. -/
def criticalSectionTask (useMutex : Bool) (i : Service) (s : State) : Option State :=
  match s.pc i with
  | .lock =>
    if useMutex then
      if s.owner = none then some ({ s with owner := some i }.goto i .readCnt) else none
    else some (s.goto i .readCnt)
  | .readCnt => some (s.goto i (.writeCnt s.csCnt))
  | .writeCnt reg => some ({ s with csCnt := reg + 1 }.goto i .clear)
  | .clear => some ((s.setIdleCount i 0).goto i .burn)
  | .burn => some (s.goto i .count)
  | .count => some ((s.setIdleCount i ((s.idleCount i + 1) % 2 ^ 32)).goto i .test)
  | .test => some (s.goto i (if s.idleCount i < csLength then .burn else .unlock))
  | .unlock => some ({ s with owner := if useMutex then none else s.owner }.goto i .exited)
  | _ => none

def step (p : Program) (s : State) : Service → Option State
  | .start => startService s
  | .high => criticalSectionTask p.useMutex .high s
  | .mid => simpleTask .mid s
  | .low => criticalSectionTask p.useMutex .low s

/-! ### The core -/

/-- The priority of a thread; the owner of a mutex that inherits has at least those of the threads
that wait for it. -/
def effective (p : Program) (s : State) (i : Service) : Option ℕ :=
  if p.protocol = .prioInherit ∧ s.owner = some i then
    (p.prio i).map fun q => ([.high, .low].filter (s.pc · = .lock)).foldl
      (fun q j => max q ((p.prio j).getD 0)) q
  else p.prio i

/-- A turn that the core grants. -/
def Granted (p : Program) : State → Service → Prop := Dispatched (step p) (effective p)

instance (p : Program) (s : State) (i : Service) : Decidable (Granted p s i) :=
  inferInstanceAs (Decidable (Dispatched _ _ _ _))

/-- `low`, `mid` and `high` share the core, in this order. -/
structure Program.Ranked (p : Program) : Prop where
  low_mid : ∃ l ∈ p.prio .low, ∃ m ∈ p.prio .mid, l < m
  mid_high : ∃ m ∈ p.prio .mid, ∃ h ∈ p.prio .high, m < h

/-- `start` does not keep `low` from the core. -/
def Program.Yields (p : Program) : Prop := ∀ q ∈ p.prio .start, ∀ l ∈ p.prio .low, q ≤ l

/-- `start` is off the core, or has the priority of `low` on it. -/
def Program.Shares (p : Program) : Prop := p.prio .start = none ∨ p.prio .start = p.prio .low

theorem ranked {rtMinPrio rtMaxPrio : ℕ} (h : rtMinPrio + 3 ≤ rtMaxPrio) (useMutex : Bool) :
    (pthread3 rtMinPrio rtMaxPrio).Ranked ∧ (pthread3ok rtMaxPrio useMutex).Ranked ∧
      (pthread3amp rtMinPrio rtMaxPrio).Ranked :=
  ⟨⟨⟨_, rfl, _, rfl, by omega⟩, _, rfl, _, rfl, by omega⟩,
    ⟨⟨_, rfl, _, rfl, by omega⟩, _, rfl, _, rfl, by omega⟩,
    ⟨⟨_, rfl, _, rfl, by omega⟩, _, rfl, _, rfl, by omega⟩⟩

theorem yields {rtMinPrio rtMaxPrio : ℕ} (h : rtMinPrio + 3 ≤ rtMaxPrio) (useMutex : Bool) :
    (pthread3 rtMinPrio rtMaxPrio).Yields ∧ (pthread3ok rtMaxPrio useMutex).Yields ∧
      (pthread3amp rtMinPrio rtMaxPrio).Yields ∧ ¬ (pthread3okSpins rtMaxPrio).Yields := by
  refine ⟨?_, ?_, ?_, fun hy => ?_⟩
  · rintro q hq l hl
    cases hq
    cases hl
    exact le_rfl
  · rintro q hq
    cases hq
  · rintro q hq
    cases hq
  · have := hy rtMaxPrio rfl (rtMaxPrio - 3) rfl
    omega

/-- All threads have come to their end. -/
structure Finished (intfTime : Int32) (s : State) : Prop where
  start : s.start = .exited
  low : s.pc .low = .exited
  high : s.pc .high = .exited
  mid : s.pc .mid = if 0 < intfTime then .exited else .unborn
  owner : s.owner = none
  csCnt : s.csCnt = 2
  idleCount_low : s.idleCount .low = csLength
  idleCount_high : s.idleCount .high = csLength
  idleCount_mid : s.idleCount .mid = intfTime.toInt.toNat

end Ecen5623.Inversion.Services
