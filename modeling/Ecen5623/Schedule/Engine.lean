import Ecen5623.Feasibility.Tests
import Mathlib.Logic.Function.Basic

/-! # The schedule simulator

The scheduling engine of `schedule.c`: one tick checks the deadlines, gives the slot to a service by
the protocol, and counts the deadlines down. Counters are exact integers. `events[t]` is the service
that ran at `t`, with `none` for `-1`; `statsBuf` is `STATS_buf`, whose row `t` lists the deadline
(EDF) or laxity (LLF) of every service with runtime left at `t` and `-1` for the others. The run
length `TICKS` is the number of ticks `run` is asked for. -/

namespace Ecen5623.Schedule.Engine

open Ecen5623.Feasibility.Tests (STestCase)

/-- `INT_MAX`. -/
def intMax : ℤ := 2147483647

/-- A service: its period and runtime, and the counters to the deadline and of the runtime used. -/
structure Service where
  tperiod : ℤ
  cruntime : ℤ
  deadline : ℤ
  runtime : ℤ
  deriving DecidableEq, Repr

inductive Protocol where
  | rm
  | edf
  | llf
  deriving DecidableEq, Repr

/-- The state of the engine between two ticks. -/
structure State where
  services : List Service
  events : ℕ → Option ℕ
  statsBuf : ℕ → List ℤ
  misses : ℕ

/-! ### The deadline check -/

/-- A service at its deadline starts over. -/
def Service.expire (sv : Service) : Service :=
  if sv.deadline = 0 then { sv with deadline := sv.tperiod, runtime := 0 } else sv

/-- A service at its deadline has missed it if it has not run its runtime. -/
def Service.missed (sv : Service) : Bool := sv.deadline = 0 ∧ sv.runtime ≠ sv.cruntime

/-- Check for deadline expiration, reset runtime. -/
def checkDeadlines (st : State) : State :=
  { st with
    services := st.services.map Service.expire
    misses := st.misses + st.services.countP Service.missed }

/-! ### The protocols -/

/-- `services[s].runtime < services[s].cruntime`. -/
def Service.running (sv : Service) : Bool := sv.runtime < sv.cruntime

/-- The laxity of a service. -/
def Service.laxity (sv : Service) : ℤ := sv.deadline - (sv.cruntime - sv.runtime)

/-- RM: the first service that still needs runtime. -/
def runRm (services : List Service) : Option ℕ := services.findIdx? Service.running

/-- The variables of the EDF and LLF loops: the index, the service to run, the least key and the row
of `statsBuf` so far. -/
structure Scan where
  s : ℕ
  serviceToRun : Option ℕ
  least : ℤ
  row : List ℤ
  deriving DecidableEq, Repr

/-- One round of the EDF and LLF loops, for the service `sv` and the key the protocol compares. -/
def scanStep (key : Service → ℤ) (sc : Scan) (sv : Service) : Scan :=
  if sv.running then
    { s := sc.s + 1
      serviceToRun := if key sv < sc.least then some sc.s else sc.serviceToRun
      least := if key sv < sc.least then key sv else sc.least
      row := sc.row ++ [key sv] }
  else { sc with s := sc.s + 1, row := sc.row ++ [-1] }

/-- The loop over the services, from `serviceToRun = -1` and the least key `INT_MAX`. -/
def scan (key : Service → ℤ) (services : List Service) : Scan :=
  services.foldl (scanStep key) { s := 0, serviceToRun := none, least := intMax, row := [] }

/-- EDF: the service closest to its deadline. -/
def runEdf (services : List Service) : Scan := scan Service.deadline services

/-- LLF: the service of least laxity. -/
def runLlf (services : List Service) : Scan := scan Service.laxity services

/-- Run the service chosen at tick `t`, if any. -/
def runService (t : ℕ) (serviceToRun : Option ℕ) (st : State) : State :=
  match serviceToRun with
  | none => st
  | some s =>
    { st with
      services := st.services.modify s fun sv => { sv with runtime := sv.runtime + 1 }
      events := Function.update st.events t (some s) }

/-- Record the row of tick `t` and run the service chosen. -/
def runScan (t : ℕ) (sc : Scan) (st : State) : State :=
  runService t sc.serviceToRun { st with statsBuf := Function.update st.statsBuf t sc.row }

/-- Give the slot of tick `t` away. -/
def dispatch (p : Protocol) (t : ℕ) (st : State) : State :=
  match p with
  | .rm => runService t (runRm st.services) st
  | .edf => runScan t (runEdf st.services) st
  | .llf => runScan t (runLlf st.services) st

/-! ### The run -/

/-- The clock tick. -/
def clockTick (st : State) : State :=
  { st with services := st.services.map fun sv => { sv with deadline := sv.deadline - 1 } }

/-- One round of the scheduling engine. -/
def tick (p : Protocol) (t : ℕ) (st : State) : State :=
  clockTick (dispatch p t (checkDeadlines st))

/-- The state before the first tick. -/
def init (tc : STestCase) : State where
  services := (List.range tc.numServices).map fun s =>
    { tperiod := tc.periods s, cruntime := tc.wcets s, deadline := tc.periods s, runtime := 0 }
  events _ := none
  statsBuf _ := List.replicate tc.numServices 0
  misses := 0

/-- The state after `t` ticks. -/
def run (p : Protocol) (tc : STestCase) : ℕ → State
  | 0 => init tc
  | t + 1 => tick p t (run p tc t)

/-- The service the protocol chooses among `services`. -/
def choose (p : Protocol) (services : List Service) : Option ℕ :=
  match p with
  | .rm => runRm services
  | .edf => (runEdf services).serviceToRun
  | .llf => (runLlf services).serviceToRun

/-! ### What the steps change -/

variable (p : Protocol) (t : ℕ) (st : State)

theorem dispatch_services : (dispatch p t st).services =
    match choose p st.services with
    | none => st.services
    | some s => st.services.modify s fun sv => { sv with runtime := sv.runtime + 1 } := by
  cases p <;> simp only [dispatch, choose, runScan, runService] <;> split <;> rfl

theorem dispatch_events : (dispatch p t st).events =
    match choose p st.services with
    | none => st.events
    | some s => Function.update st.events t (some s) := by
  cases p <;> simp only [dispatch, choose, runScan, runService] <;> split <;> rfl

@[simp] theorem dispatch_misses : (dispatch p t st).misses = st.misses := by
  cases p <;> simp only [dispatch, runScan, runService] <;> split <;> rfl

@[simp] theorem tick_misses :
    (tick p t st).misses = st.misses + st.services.countP Service.missed := by
  rw [tick, clockTick, dispatch_misses, checkDeadlines]

theorem tick_events (u : ℕ) (h : u ≠ t) : (tick p t st).events u = st.events u := by
  rw [tick, clockTick, dispatch_events]
  split
  · rfl
  · exact Function.update_of_ne h _ _

theorem run_events_none (tc : STestCase) :
    ∀ t u, t ≤ u → (run p tc t).events u = none
  | 0, _, _ => rfl
  | t + 1, u, h => by
    rw [run, tick_events p t _ u (by omega)]
    exact run_events_none tc t u (by omega)

/-! ### What the protocols choose -/

/-- What the EDF and LLF loops know after the services `l`. -/
structure ScanOK (key : Service → ℤ) (l : List Service) (sc : Scan) : Prop where
  s : sc.s = l.length
  le : ∀ sv ∈ l, sv.running = true → sc.least ≤ key sv
  none : sc.serviceToRun = none → sc.least = intMax
  some : ∀ i, sc.serviceToRun = some i → ∃ sv, l[i]? = some sv ∧ sv.running = true ∧
    key sv = sc.least
  row : sc.row = l.map fun sv => if sv.running then key sv else -1

theorem scanStep_ok {key : Service → ℤ} {l : List Service} {sc : Scan} (h : ScanOK key l sc)
    (sv : Service) : ScanOK key (l ++ [sv]) (scanStep key sc sv) := by
  have hold : ∀ i, sc.serviceToRun = some i → ∃ sv', (l ++ [sv])[i]? = some sv' ∧
      sv'.running = true ∧ key sv' = sc.least := by
    intro i hi
    obtain ⟨sv', h1, h2⟩ := h.some i hi
    refine ⟨sv', ?_, h2⟩
    rw [List.getElem?_append_left (List.getElem?_eq_some_iff.mp h1).1, h1]
  have hrow : ∀ x, (if sv.running then key sv else -1) = x → sc.row ++ [x] =
      (l ++ [sv]).map fun sv => if sv.running then key sv else -1 := by
    rintro x rfl
    rw [h.row, List.map_append]
    rfl
  unfold scanStep
  by_cases hr : sv.running = true
  · rw [if_pos hr]
    by_cases hk : key sv < sc.least
    · simp only [if_pos hk]
      refine ⟨by simp [h.s], ?_, nofun, ?_, hrow _ (if_pos hr)⟩
      · intro sv' hmem hr'
        rcases List.mem_append.mp hmem with hmem | hmem
        · exact hk.le.trans (h.le sv' hmem hr')
        · rw [List.mem_singleton.mp hmem]
      · intro i hi
        cases hi
        exact ⟨sv, by rw [h.s]; simp, hr, rfl⟩
    · simp only [if_neg hk]
      refine ⟨by simp [h.s], ?_, h.none, hold, hrow _ (if_pos hr)⟩
      intro sv' hmem hr'
      rcases List.mem_append.mp hmem with hmem | hmem
      · exact h.le sv' hmem hr'
      · rw [List.mem_singleton.mp hmem]; exact not_lt.mp hk
  · rw [if_neg hr]
    refine ⟨by simp [h.s], ?_, h.none, hold, hrow _ (if_neg hr)⟩
    intro sv' hmem hr'
    rcases List.mem_append.mp hmem with hmem | hmem
    · exact h.le sv' hmem hr'
    · rw [List.mem_singleton.mp hmem] at hr'; exact absurd hr' hr

/-- **The EDF and LLF loops.** -/
theorem scan_ok (key : Service → ℤ) (services : List Service) :
    ScanOK key services (scan key services) := by
  induction services using List.reverseRecOn with
  | nil => exact ⟨rfl, nofun, fun _ => rfl, nofun, rfl⟩
  | append_singleton l sv ih =>
    rw [scan, List.foldl_append]
    exact scanStep_ok ih sv

theorem scan_some {key : Service → ℤ} {services : List Service} {i : ℕ}
    (h : (scan key services).serviceToRun = some i) :
    ∃ sv, services[i]? = some sv ∧ sv.running = true ∧
      ∀ sv' ∈ services, sv'.running = true → key sv ≤ key sv' := by
  obtain ⟨sv, h1, h2, h3⟩ := (scan_ok key services).some i h
  exact ⟨sv, h1, h2, fun sv' hm hr => h3.trans_le ((scan_ok key services).le sv' hm hr)⟩

theorem scan_ne_none {key : Service → ℤ} {services : List Service} {sv : Service}
    (hm : sv ∈ services) (hr : sv.running = true) (hk : key sv < intMax) :
    (scan key services).serviceToRun ≠ none := by
  intro hn
  have hle := (scan_ok key services).le sv hm hr
  rw [(scan_ok key services).none hn] at hle
  exact absurd hk (not_lt.mpr hle)

theorem scan_none {key : Service → ℤ} {services : List Service}
    (h : (scan key services).serviceToRun = none)
    (hkey : ∀ sv ∈ services, sv.running = true → key sv < intMax) :
    ∀ sv ∈ services, sv.running = false := by
  intro sv hm
  by_contra hr
  rw [Bool.not_eq_false] at hr
  exact scan_ne_none hm hr (hkey sv hm hr) h

/-- What more the loops know: a service found has a key below `INT_MAX`, and those before it that
have runtime left have greater ones. -/
structure ScanFirst (key : Service → ℤ) (l : List Service) (sc : Scan) : Prop where
  lt : ∀ i, sc.serviceToRun = some i → sc.least < intMax
  first : ∀ i, sc.serviceToRun = some i → ∀ j < i, ∀ sv, l[j]? = some sv → sv.running = true →
    sc.least < key sv

theorem scanStep_first {key : Service → ℤ} {l : List Service} {sc : Scan} (h : ScanOK key l sc)
    (hf : ScanFirst key l sc) (sv : Service) :
    ScanFirst key (l ++ [sv]) (scanStep key sc sv) := by
  have hle : sc.least ≤ intMax := by
    rcases hrun : sc.serviceToRun with _ | i
    · exact (h.none hrun).le
    · exact (hf.lt i hrun).le
  have hold : ∀ i, sc.serviceToRun = some i → ∀ j < i, ∀ sv', (l ++ [sv])[j]? = some sv' →
      sv'.running = true → sc.least < key sv' := by
    intro i hi j hj sv' hsv
    obtain ⟨svi, hsvi, -⟩ := h.some i hi
    have hlen : j < l.length := hj.trans (List.getElem?_eq_some_iff.mp hsvi).1
    rw [List.getElem?_append_left hlen] at hsv
    exact hf.first i hi j hj sv' hsv
  unfold scanStep
  by_cases hr : sv.running = true
  · rw [if_pos hr]
    by_cases hk : key sv < sc.least
    · simp only [if_pos hk]
      refine ⟨fun i _ => hk.trans_le hle, ?_⟩
      intro i hi j hj sv' hsv hr'
      obtain rfl : sc.s = i := Option.some.inj hi
      rw [h.s] at hj
      rw [List.getElem?_append_left hj] at hsv
      exact hk.trans_le (h.le sv' (List.mem_of_getElem? hsv) hr')
    · simp only [if_neg hk]
      exact ⟨hf.lt, hold⟩
  · rw [if_neg hr]
    exact ⟨hf.lt, hold⟩

theorem scan_first (key : Service → ℤ) (services : List Service) :
    ScanFirst key services (scan key services) := by
  induction services using List.reverseRecOn with
  | nil => exact ⟨nofun, nofun⟩
  | append_singleton l sv ih =>
    rw [scan, List.foldl_append]
    exact scanStep_first (scan_ok key l) ih sv

/-- **Ties go to the service listed first.** -/
theorem scan_some_first {key : Service → ℤ} {services : List Service} {i : ℕ}
    (h : (scan key services).serviceToRun = some i) :
    ∃ sv, services[i]? = some sv ∧ sv.running = true ∧ key sv < intMax ∧
      ∀ j < i, ∀ sv', services[j]? = some sv' → sv'.running = true → key sv < key sv' := by
  obtain ⟨sv, h1, h2, h3⟩ := (scan_ok key services).some i h
  refine ⟨sv, h1, h2, h3.trans_lt ((scan_first key services).lt i h), fun j hj sv' hsv hr => ?_⟩
  exact h3.trans_lt ((scan_first key services).first i h j hj sv' hsv hr)

theorem runRm_some {services : List Service} {i : ℕ} (h : runRm services = some i) :
    ∃ sv, services[i]? = some sv ∧ sv.running = true ∧
      ∀ j < i, ∀ sv', services[j]? = some sv' → sv'.running = false := by
  obtain ⟨hi, h1, h2⟩ := List.findIdx?_eq_some_iff_getElem.mp h
  refine ⟨services[i], List.getElem?_eq_getElem hi, h1, fun j hj sv' hsv => ?_⟩
  obtain ⟨hj', rfl⟩ := List.getElem?_eq_some_iff.mp hsv
  exact Bool.not_eq_true _ ▸ h2 j hj

theorem runRm_none {services : List Service} (h : runRm services = none) :
    ∀ sv ∈ services, sv.running = false :=
  List.findIdx?_eq_none_iff.mp h

theorem runRm_eq_scan (services : List Service) :
    runRm services = (scan (fun _ => 0) services).serviceToRun := by
  rcases hscan : (scan (fun _ => 0) services).serviceToRun with _ | i
  · refine List.findIdx?_eq_none_iff.mpr fun sv hm => ?_
    by_contra hr
    exact scan_ne_none hm (Bool.not_eq_false _ ▸ hr) (by decide : (0 : ℤ) < intMax) hscan
  · obtain ⟨sv, hsv, hr, -, hfirst⟩ := scan_some_first hscan
    obtain ⟨hi, rfl⟩ := List.getElem?_eq_some_iff.mp hsv
    refine List.findIdx?_eq_some_iff_getElem.mpr ⟨hi, hr, fun j hj hrj => ?_⟩
    have hlen : j < services.length := hj.trans hi
    exact lt_irrefl _ (hfirst j hj services[j] (List.getElem?_eq_getElem hlen) hrj)

end Ecen5623.Schedule.Engine
