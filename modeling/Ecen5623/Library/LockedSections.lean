import Ecen5623.Library.Transition
import Mathlib.Logic.Relation

/-! # Sections under one lock

Threads share a memory and touch it only while they hold one mutex, one access after the other.
`step` interleaves the accesses of all threads. In `Serial` runs a section is one step.

* `serial_of_reach`: whenever the mutex is free, memory and threads are those of a serial run.
* `held_of_reach`: while a thread holds it, they are those of a serial run and of the accesses the
  thread has made since.
* `reach_of_serial`: every serial run is one of the interleavings.
* `exists_free`: if sections end, the mutex can always become free.

A property of the memory that every section keeps is thus one of all runs, as far as the mutex is
free (`Serial.invariant`). -/

namespace Ecen5623.Library.LockedSections

variable {ι L M : Type*}

/-- The code of the threads. `L` is what a thread has of its own, its place in the code included.
`lock` takes a thread from outside its sections to the next one, with what it does before on its own
variables; an access is one read or write of the memory. -/
structure Code (ι L M : Type*) where
  lock : ι → L → Option L
  access : ι → L → M → Option (L × M)
  unlock : ι → L → Option L

/-- The threads and the memory. -/
structure Config (ι L M : Type*) where
  locals : ι → L
  mem : M

/-- The owner of the mutex, the threads and the memory. -/
structure State (ι L M : Type*) extends Config ι L M where
  owner : Option ι

inductive Action (ι : Type*) where
  | lock (i : ι)
  | access (i : ι)
  | unlock (i : ι)

variable [DecidableEq ι] (code : Code ι L M)

/-- `c` when thread `i` is at `l` and the memory is `m`. -/
def Config.set (c : Config ι L M) (i : ι) (l : L) (m : M) : Config ι L M where
  locals := Function.update c.locals i l
  mem := m

/-- Only the owner of the mutex touches the memory, and only a free mutex is taken. -/
def step (s : State ι L M) : Action ι → Option (State ι L M)
  | .lock i =>
    if s.owner = none then
      (code.lock i (s.locals i)).map fun l => ⟨s.set i l s.mem, some i⟩
    else none
  | .access i =>
    if s.owner = some i then
      (code.access i (s.locals i) s.mem).map fun p => ⟨s.set i p.1 p.2, some i⟩
    else none
  | .unlock i =>
    if s.owner = some i then
      (code.unlock i (s.locals i)).map fun l => ⟨s.set i l s.mem, none⟩
    else none

/-- The accesses of a thread without interruption. -/
def Accesses (i : ι) : L × M → L × M → Prop :=
  Relation.ReflTransGen fun p q => code.access i p.1 p.2 = some q

/-- A whole section, from before `lock` to after `unlock`. -/
def Section (i : ι) (p q : L × M) : Prop :=
  ∃ l l', code.lock i p.1 = some l ∧ Accesses code i (l, p.2) (l', q.2) ∧
    code.unlock i l' = some q.1

/-- What runs of whole sections lead to. -/
inductive Serial (c₀ : Config ι L M) : Config ι L M → Prop where
  | init : Serial c₀ c₀
  | sect {c : Config ι L M} {i : ι} {q : L × M} : Serial c₀ c →
      Section code i (c.locals i, c.mem) q → Serial c₀ (c.set i q.1 q.2)

variable {code} {c₀ c : Config ι L M} {s s' : State ι L M} {i : ι}

/-- The mutex is free. -/
def Config.start (c : Config ι L M) : State ι L M := ⟨c, none⟩

omit [DecidableEq ι] in
@[simp] theorem start_owner (c : Config ι L M) : c.start.owner = none := rfl

omit [DecidableEq ι] in
@[simp] theorem start_toConfig (c : Config ι L M) : c.start.toConfig = c := rfl

@[simp] theorem set_locals_self (c : Config ι L M) (i : ι) (l : L) (m : M) :
    (c.set i l m).locals i = l := Function.update_self ..

@[simp] theorem set_locals_of_ne (c : Config ι L M) {i j : ι} (h : j ≠ i) (l : L) (m : M) :
    (c.set i l m).locals j = c.locals j := Function.update_of_ne h ..

@[simp] theorem set_mem (c : Config ι L M) (i : ι) (l : L) (m : M) : (c.set i l m).mem = m := rfl

@[simp] theorem set_set (c : Config ι L M) (i : ι) (l l' : L) (m m' : M) :
    (c.set i l m).set i l' m' = c.set i l' m' := by
  simp [Config.set]

theorem set_congr {c c' : Config ι L M} (h : ∀ j, j ≠ i → c.locals j = c'.locals j) (l : L)
    (m : M) : c.set i l m = c'.set i l m := by
  simp only [Config.set, Config.mk.injEq, and_true]
  funext j
  by_cases hj : j = i
  · subst hj
    rw [Function.update_self, Function.update_self]
  · rw [Function.update_of_ne hj, Function.update_of_ne hj, h j hj]

@[simp] theorem set_self (c : Config ι L M) (i : ι) : c.set i (c.locals i) c.mem = c := by
  simp [Config.set]

/-! ### The steps -/

theorem step_lock_iff : step code s (.lock i) = some s' ↔
    s.owner = none ∧ ∃ l, code.lock i (s.locals i) = some l ∧ s' = ⟨s.set i l s.mem, some i⟩ := by
  simp only [step, Option.ite_none_right_eq_some, Option.map_eq_some_iff]
  exact and_congr_right fun _ => exists_congr fun l => and_congr_right fun _ => eq_comm

theorem step_access_iff : step code s (.access i) = some s' ↔ s.owner = some i ∧
    ∃ p, code.access i (s.locals i) s.mem = some p ∧ s' = ⟨s.set i p.1 p.2, some i⟩ := by
  simp only [step, Option.ite_none_right_eq_some, Option.map_eq_some_iff]
  exact and_congr_right fun _ => exists_congr fun p => and_congr_right fun _ => eq_comm

theorem step_unlock_iff : step code s (.unlock i) = some s' ↔ s.owner = some i ∧
    ∃ l, code.unlock i (s.locals i) = some l ∧ s' = ⟨s.set i l s.mem, none⟩ := by
  simp only [step, Option.ite_none_right_eq_some, Option.map_eq_some_iff]
  exact and_congr_right fun _ => exists_congr fun p => and_congr_right fun _ => eq_comm

/-! ### Interleavings are serial -/

/-- Thread `i` has made some of the accesses of its section since the serial configuration `c`. -/
structure Within (code : Code ι L M) (c : Config ι L M) (i : ι) (s : State ι L M) : Prop where
  others : ∀ j, j ≠ i → s.locals j = c.locals j
  accesses : ∃ l, code.lock i (c.locals i) = some l ∧
    Accesses code i (l, c.mem) (s.locals i, s.mem)

/-- The invariant: the state is serial, or the owner is within its section. -/
structure Atomic (code : Code ι L M) (c₀ : Config ι L M) (s : State ι L M) : Prop where
  free : s.owner = none → Serial code c₀ s.toConfig
  held : ∀ i, s.owner = some i → ∃ c, Serial code c₀ c ∧ Within code c i s

theorem atomic_step (h : Atomic code c₀ s) {a : Action ι} (hs : step code s a = some s') :
    Atomic code c₀ s' := by
  cases a with
  | lock i =>
    obtain ⟨howner, l, hl, rfl⟩ := step_lock_iff.mp hs
    refine ⟨nofun, fun j hj => ?_⟩
    obtain rfl : i = j := Option.some.inj hj
    refine ⟨s.toConfig, h.free howner, fun j hj => set_locals_of_ne _ hj _ _, l, hl, ?_⟩
    rw [set_locals_self]
    exact .refl
  | access i =>
    obtain ⟨howner, p, hp, rfl⟩ := step_access_iff.mp hs
    refine ⟨nofun, fun j hj => ?_⟩
    obtain rfl : i = j := Option.some.inj hj
    obtain ⟨c, hc, hoth, l, hl, hacc⟩ := h.held i howner
    refine ⟨c, hc, fun j hj => (set_locals_of_ne _ hj _ _).trans (hoth j hj), l, hl, ?_⟩
    rw [set_locals_self]
    exact hacc.tail hp
  | unlock i =>
    obtain ⟨howner, l', hl', rfl⟩ := step_unlock_iff.mp hs
    refine ⟨fun _ => ?_, nofun⟩
    obtain ⟨c, hc, hoth, l, hl, hacc⟩ := h.held i howner
    have hsect : Section code i (c.locals i, c.mem) (l', s.mem) := ⟨l, _, hl, hacc, hl'⟩
    dsimp only
    rw [set_congr hoth]
    exact hc.sect hsect

theorem atomic_reach (h : Reach (step code) Any c₀.start s) : Atomic code c₀ s :=
  h.invariant ⟨fun _ => .init, fun i hi => by simp at hi⟩ fun h _ hs => atomic_step h hs

/-- **Whenever the mutex is free, the run looks serial.** -/
theorem serial_of_reach (h : Reach (step code) Any c₀.start s) (howner : s.owner = none) :
    Serial code c₀ s.toConfig :=
  (atomic_reach h).free howner

/-- **While it is held**, the run is serial up to the section of the owner. -/
theorem held_of_reach (h : Reach (step code) Any c₀.start s) (howner : s.owner = some i) :
    ∃ c, Serial code c₀ c ∧ Within code c i s :=
  (atomic_reach h).held i howner

/-! ### Serial runs are interleavings -/

theorem reach_of_accesses {p q : L × M} (h : Accesses code i p q) (c : Config ι L M) :
    Reach (step code) Any ⟨c.set i p.1 p.2, some i⟩ ⟨c.set i q.1 q.2, some i⟩ := by
  induction h with
  | refl => exact .init
  | @tail q r _ hacc ih =>
    refine ih.step (a := .access i) trivial (step_access_iff.mpr ⟨rfl, r, ?_, ?_⟩)
    · simpa using hacc
    · simp

theorem reach_of_section {q : L × M} (h : Section code i (c.locals i, c.mem) q) :
    Reach (step code) Any c.start (c.set i q.1 q.2).start := by
  obtain ⟨l, l', hl, hacc, hl'⟩ := h
  have hlock : Reach (step code) Any c.start ⟨c.set i l c.mem, some i⟩ :=
    .single (a := .lock i) trivial (step_lock_iff.mpr ⟨rfl, l, hl, rfl⟩)
  refine (hlock.trans (reach_of_accesses hacc c)).step (a := .unlock i) trivial ?_
  exact step_unlock_iff.mpr ⟨rfl, q.1, by simpa using hl', by simp [Config.start]⟩

/-- **Every serial run is an interleaving.** -/
theorem reach_of_serial (h : Serial code c₀ c) : Reach (step code) Any c₀.start c.start := by
  induction h with
  | init => exact .init
  | sect _ hsect ih => exact ih.trans (reach_of_section hsect)

/-- **The invariant rule for sections.** -/
theorem Serial.invariant {P : Config ι L M → Prop} (h0 : P c₀)
    (hsect : ∀ {c i q}, P c → Section code i (c.locals i, c.mem) q → P (c.set i q.1 q.2))
    (h : Serial code c₀ c) : P c := by
  induction h with
  | init => exact h0
  | sect _ hs ih => exact hsect ih hs

/-! ### Sections that end -/

/-- Every place in a section leads to its `unlock`. -/
def Ends (code : Code ι L M) : Prop :=
  ∀ i l p l₀, code.lock i l₀ = some l → (∃ m, Accesses code i (l, m) p) →
    ∃ q l', Accesses code i p q ∧ code.unlock i q.1 = some l'

/-- **The mutex can always become free.** -/
theorem exists_free (hend : Ends code) (h : Reach (step code) Any c₀.start s) :
    ∃ c, Reach (step code) Any s c.start ∧ Serial code c₀ c := by
  rcases howner : s.owner with _ | i
  · obtain ⟨c, o⟩ := s
    obtain rfl : o = none := howner
    exact ⟨c, .init, serial_of_reach h rfl⟩
  · obtain ⟨c, hc, hoth, l, hl, hacc⟩ := held_of_reach h howner
    obtain ⟨q, l', hq, hl'⟩ := hend i l _ _ hl ⟨_, hacc⟩
    have hs : s = ⟨c.set i (s.locals i) s.mem, some i⟩ := by
      rw [← set_congr hoth, set_self, ← howner]
    have hrun : Reach (step code) Any s (c.set i l' q.2).start := by
      rw [hs]
      refine (reach_of_accesses hq c).step (a := .unlock i) trivial ?_
      exact step_unlock_iff.mpr ⟨rfl, l', by simpa using hl', by simp [Config.start]⟩
    exact ⟨_, hrun, hc.sect (q := (l', q.2)) ⟨l, _, hl, hacc.trans hq, hl'⟩⟩

end Ecen5623.Library.LockedSections
