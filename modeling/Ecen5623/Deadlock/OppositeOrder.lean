import Ecen5623.Deadlock.Timeout
import Mathlib.Data.Nat.Notation

/-! # Two threads that lock in opposite order

`deadlock.c`: each thread locks its first resource, counts it, and locks and counts its second one,
which is the first one of the other thread. With the argument `safe` the main thread joins thread 1
before it creates thread 2; the arguments `race` and `unsafe` differ in a sleep only. Every run is
finite (`exec_length_le`), and one that cannot go on has ended with both resources counted twice or
has both threads waiting for each other (`stuck_iff`); the latter happens exactly without `safe`
(`outcomes`). -/

namespace Ecen5623.Deadlock.OppositeOrder

open Ecen5623.Library
open Ecen5623.Deadlock.Timeout (Rsrc Thread)

/-- Where a thread is. -/
inductive Pc where
  | unborn
  | lockOne
  | countOne
  | lockTwo
  | countTwo
  | unlockTwo
  | unlockOne
  | exited
  deriving DecidableEq, Repr

/-- Where `main` is; `joinFirst` is the join of thread 1 before thread 2 is created. -/
inductive Main where
  | createOne
  | joinFirst
  | createTwo
  | joinOne
  | joinTwo
  | destroy
  | exited
  deriving DecidableEq, Repr

/-- The program. -/
structure State where
  main : Main
  pc : Thread → Pc
  owner : Rsrc → Option Thread
  rsrcCnt : Rsrc → ℕ

inductive Action where
  | main
  | thread (i : Thread)

/-- Thread `i` goes on to `l`. -/
def State.goto (s : State) (i : Thread) (l : Pc) : State :=
  { s with pc := Function.update s.pc i l }

/-- A mutex changes hands. -/
def State.setOwner (s : State) (r : Rsrc) (o : Option Thread) : State :=
  { s with owner := Function.update s.owner r o }

/-- `rsrcACnt++` or `rsrcBCnt++`, with the mutex held. -/
def State.count (s : State) (r : Rsrc) : State :=
  { s with rsrcCnt := Function.update s.rsrcCnt r (s.rsrcCnt r + 1) }

section Update
variable (s : State) (i : Thread) (r : Rsrc) (l : Pc) (o : Option Thread)

@[simp] theorem goto_rsrcCnt : (s.goto i l).rsrcCnt = s.rsrcCnt := rfl

@[simp] theorem setOwner_rsrcCnt : (s.setOwner r o).rsrcCnt = s.rsrcCnt := rfl

@[simp] theorem count_rsrcCnt_self : (s.count r).rsrcCnt r = s.rsrcCnt r + 1 :=
  Function.update_self ..

@[simp] theorem count_rsrcCnt_of_ne {r' : Rsrc} (h : r' ≠ r) :
    (s.count r).rsrcCnt r' = s.rsrcCnt r' := Function.update_of_ne h ..

end Update

/-- One step of `grabRsrcs`. -/
def threadStep (s : State) (i : Thread) : Option State :=
  match s.pc i with
  | .unborn | .exited => none
  | .lockOne =>
    if s.owner i.one = none then some ((s.setOwner i.one (some i)).goto i .countOne) else none
  | .countOne => some ((s.count i.one).goto i .lockTwo)
  | .lockTwo =>
    if s.owner i.two = none then some ((s.setOwner i.two (some i)).goto i .countTwo) else none
  | .countTwo => some ((s.count i.two).goto i .unlockTwo)
  | .unlockTwo => some ((s.setOwner i.two none).goto i .unlockOne)
  | .unlockOne => some ((s.setOwner i.one none).goto i .exited)

/-- One step of `main`. -/
def mainStep (safe : Bool) (s : State) : Option State :=
  match s.main with
  | .createOne =>
    some { s.goto .thread1 .lockOne with main := if safe then .joinFirst else .createTwo }
  | .joinFirst => if s.pc .thread1 = .exited then some { s with main := .createTwo } else none
  | .createTwo =>
    some { s.goto .thread2 .lockOne with main := if safe then .joinTwo else .joinOne }
  | .joinOne => if s.pc .thread1 = .exited then some { s with main := .joinTwo } else none
  | .joinTwo => if s.pc .thread2 = .exited then some { s with main := .destroy } else none
  | .destroy => some { s with main := .exited }
  | .exited => none

def step (safe : Bool) (s : State) : Action → Option State
  | .main => mainStep safe s
  | .thread i => threadStep s i

def init : State where
  main := .createOne
  pc _ := .unborn
  owner _ := none
  rsrcCnt _ := 0

/-- All has come to its end. -/
structure Ended (s : State) : Prop where
  main : s.main = .exited
  pc : ∀ i, s.pc i = .exited
  owner : ∀ r, s.owner r = none
  rsrcCnt : ∀ r, s.rsrcCnt r = 2

/-- Each thread holds its first resource and waits for that of the other one, and `main` waits in
the join of thread 1. -/
structure Embraced (s : State) : Prop where
  main : s.main = .joinOne
  pc : ∀ i, s.pc i = .lockTwo
  owner : ∀ i, s.owner i.one = some i

/-! ### Every run is finite -/

/-- The steps a thread has left. -/
def Pc.rank : Pc → ℕ
  | .unborn | .lockOne => 6
  | .countOne => 5
  | .lockTwo => 4
  | .countTwo => 3
  | .unlockTwo => 2
  | .unlockOne => 1
  | .exited => 0

/-- At most the steps `main` has left. -/
def Main.rank : Main → ℕ
  | .createOne => 6
  | .joinFirst => 5
  | .createTwo => 4
  | .joinOne => 3
  | .joinTwo => 2
  | .destroy => 1
  | .exited => 0

def rank (s : State) : ℕ := s.main.rank + (s.pc .thread1).rank + (s.pc .thread2).rank

variable {safe : Bool} {s s' : State} {i j : Thread} {r : Rsrc}

theorem threadStep_goes (h : threadStep s i = some s') : ∃ l, s'.main = s.main ∧
    s'.pc = Function.update s.pc i l ∧ s.pc i ≠ .unborn ∧ l ≠ .unborn ∧
      (s.pc i).rank = l.rank + 1 := by
  unfold threadStep at h
  split at h <;> rename_i hpc
  · cases h
  · cases h
  · split_ifs at h
    cases h
    exact ⟨.countOne, rfl, rfl, by simp [hpc], by simp, by simp [hpc, Pc.rank]⟩
  · cases h
    exact ⟨.lockTwo, rfl, rfl, by simp [hpc], by simp, by simp [hpc, Pc.rank]⟩
  · split_ifs at h
    cases h
    exact ⟨.countTwo, rfl, rfl, by simp [hpc], by simp, by simp [hpc, Pc.rank]⟩
  · cases h
    exact ⟨.unlockTwo, rfl, rfl, by simp [hpc], by simp, by simp [hpc, Pc.rank]⟩
  · cases h
    exact ⟨.unlockOne, rfl, rfl, by simp [hpc], by simp, by simp [hpc, Pc.rank]⟩
  · cases h
    exact ⟨.exited, rfl, rfl, by simp [hpc], by simp, by simp [hpc, Pc.rank]⟩

/-! ### The invariant -/

/-- Does a thread at this place hold `r`? -/
def holds (i : Thread) (l : Pc) (r : Rsrc) : Bool :=
  if r = i.one then l ∈ [.countOne, .lockTwo, .countTwo, .unlockTwo, .unlockOne]
  else l ∈ [.countTwo, .unlockTwo]

/-- What a thread at this place has counted of `r`. -/
def counted (i : Thread) (l : Pc) (r : Rsrc) : ℕ :=
  if r = i.one then if l ∈ [.unborn, .lockOne, .countOne] then 0 else 1
  else if l ∈ [.unborn, .lockOne, .countOne, .lockTwo, .countTwo] then 0 else 1

/-- What `main` knows of the threads. -/
def Knows (safe : Bool) : Main → Pc → Pc → Prop
  | .createOne, p, q => p = .unborn ∧ q = .unborn
  | .joinFirst, p, q => p ≠ .unborn ∧ q = .unborn
  | .createTwo, p, q => p ≠ .unborn ∧ q = .unborn ∧ (safe = true → p = .exited)
  | .joinOne, p, q => safe = false ∧ p ≠ .unborn ∧ q ≠ .unborn
  | .joinTwo, p, q => p = .exited ∧ q ≠ .unborn
  | .destroy, p, q => p = .exited ∧ q = .exited
  | .exited, p, q => p = .exited ∧ q = .exited

structure Inv (safe : Bool) (s : State) : Prop where
  owner : ∀ i r, s.owner r = some i ↔ holds i (s.pc i) r = true
  rsrcCnt : ∀ r, s.rsrcCnt r =
    counted .thread1 (s.pc .thread1) r + counted .thread2 (s.pc .thread2) r
  main : Knows safe s.main (s.pc .thread1) (s.pc .thread2)

theorem inv_init : Inv safe init where
  owner i r := by cases i <;> cases r <;> simp [init, holds]
  rsrcCnt r := by cases r <;> rfl
  main := ⟨rfl, rfl⟩

theorem owner_setOwner (h : ∀ i r, s.owner r = some i ↔ holds i (s.pc i) r = true) {l : Pc}
    {o : Option Thread} (hfree : ∀ j, j ≠ i → s.owner r ≠ some j) (ho : o = none ∨ o = some i)
    (hsame : o = some i ↔ holds i l r = true)
    (hrest : ∀ r', r' ≠ r → holds i l r' = holds i (s.pc i) r') :
    ∀ j r', ((s.setOwner r o).goto i l).owner r' = some j ↔
      holds j (((s.setOwner r o).goto i l).pc j) r' = true := by
  intro j r'
  simp only [State.goto, State.setOwner]
  by_cases hr : r' = r
  · subst hr
    rw [Function.update_self]
    by_cases hj : j = i
    · subst hj
      rwa [Function.update_self]
    · rw [Function.update_of_ne hj, ← h j r']
      refine iff_of_false ?_ (hfree j hj)
      rcases ho with rfl | rfl
      · exact nofun
      · exact fun heq => hj (Option.some.inj heq).symm
  · rw [Function.update_of_ne hr]
    by_cases hj : j = i
    · subst hj
      rw [Function.update_self, hrest r' hr]
      exact h j r'
    · rw [Function.update_of_ne hj]
      exact h j r'

theorem rsrcCnt_goto (h : ∀ r, s.rsrcCnt r =
      counted .thread1 (s.pc .thread1) r + counted .thread2 (s.pc .thread2) r) {l : Pc}
    {cnt : Rsrc → ℕ} (hcnt : ∀ r, cnt r + counted i (s.pc i) r = s.rsrcCnt r + counted i l r) :
    ∀ r, cnt r = counted .thread1 (Function.update s.pc i l .thread1) r +
      counted .thread2 (Function.update s.pc i l .thread2) r := by
  intro r
  have h1 := h r
  have h2 := hcnt r
  cases i
  · rw [Function.update_self, Function.update_of_ne (by decide)]
    omega
  · rw [Function.update_self, Function.update_of_ne (by decide)]
    omega

theorem owner_goto (h : ∀ i r, s.owner r = some i ↔ holds i (s.pc i) r = true) {l : Pc}
    (hrest : ∀ r, holds i l r = holds i (s.pc i) r) :
    ∀ j r, s.owner r = some j ↔ holds j (Function.update s.pc i l j) r = true := by
  intro j r
  by_cases hj : j = i
  · subst hj
    rw [Function.update_self, hrest r]
    exact h j r
  · rw [Function.update_of_ne hj]
    exact h j r

theorem one_ne_two (i : Thread) : i.one ≠ i.two := by cases i <;> decide

theorem eq_one_or_two (i : Thread) (r : Rsrc) : r = i.one ∨ r = i.two := by
  cases i <;> cases r <;> decide

theorem owner_rsrcCnt_threadStep (h : Inv safe s) (hs : threadStep s i = some s') :
    (∀ i r, s'.owner r = some i ↔ holds i (s'.pc i) r = true) ∧
      ∀ r, s'.rsrcCnt r =
        counted .thread1 (s'.pc .thread1) r + counted .thread2 (s'.pc .thread2) r := by
  have hne := one_ne_two i
  unfold threadStep at hs
  split at hs <;> rename_i hpc
  · cases hs
  · cases hs
  · split_ifs at hs with hfree
    cases hs
    refine ⟨owner_setOwner h.owner (fun j _ => by simp [hfree]) (.inr rfl) ?_ fun r hr => ?_,
      rsrcCnt_goto h.rsrcCnt fun r => ?_⟩
    · simp [holds]
    · simp [holds, hpc, hr]
    · simp [counted, hpc]
  · cases hs
    refine ⟨owner_goto h.owner fun r => ?_, rsrcCnt_goto h.rsrcCnt fun r => ?_⟩
    · simp [holds, hpc]
    · by_cases hr : r = i.one
      · subst hr
        simp [counted, hpc]
      · simp [counted, hpc, hr]
  · split_ifs at hs with hfree
    cases hs
    refine ⟨owner_setOwner h.owner (fun j _ => by simp [hfree]) (.inr rfl) ?_ fun r hr => ?_,
      rsrcCnt_goto h.rsrcCnt fun r => ?_⟩
    · simp [holds, hne.symm]
    · obtain rfl := (eq_one_or_two i r).resolve_right hr
      simp [holds, hpc]
    · simp [counted, hpc]
  · cases hs
    refine ⟨owner_goto h.owner fun r => ?_, rsrcCnt_goto h.rsrcCnt fun r => ?_⟩
    · simp [holds, hpc]
    · rcases eq_one_or_two i r with rfl | rfl
      · simp [counted, hpc, hne]
      · simp [counted, hpc, hne.symm]
  · cases hs
    have hold : s.owner i.two = some i := (h.owner i i.two).mpr (by simp [holds, hpc, hne.symm])
    refine ⟨owner_setOwner h.owner (fun j hj => by simp [hold, Ne.symm hj]) (.inl rfl) ?_
      fun r hr => ?_, rsrcCnt_goto h.rsrcCnt fun r => ?_⟩
    · simp [holds, hne.symm]
    · obtain rfl := (eq_one_or_two i r).resolve_right hr
      simp [holds, hpc]
    · simp [counted, hpc]
  · cases hs
    have hold : s.owner i.one = some i := (h.owner i i.one).mpr (by simp [holds, hpc])
    refine ⟨owner_setOwner h.owner (fun j hj => by simp [hold, Ne.symm hj]) (.inl rfl) ?_
      fun r hr => ?_, rsrcCnt_goto h.rsrcCnt fun r => ?_⟩
    · simp [holds]
    · simp [holds, hpc, hr]
    · simp [counted, hpc]

theorem inv_threadStep (h : Inv safe s) (hs : threadStep s i = some s') : Inv safe s' := by
  obtain ⟨howner, hcnt⟩ := owner_rsrcCnt_threadStep h hs
  refine ⟨howner, hcnt, ?_⟩
  obtain ⟨l, hmain, hpc, halive, hl, hrank⟩ := threadStep_goes hs
  have hexit : s.pc i ≠ .exited := fun heq => by rw [heq] at hrank; cases hrank
  have hknows := h.main
  rw [hmain, hpc]
  -- `main` only knows of a thread that it is born, or that it has returned
  cases i <;> cases hm : s.main <;> rw [hm] at hknows <;>
    simp_all [Knows, Function.update_of_ne]

theorem owner_rsrcCnt_create (h : Inv safe s) (hpc : s.pc i = .unborn) :
    (∀ j r, s.owner r = some j ↔ holds j (Function.update s.pc i .lockOne j) r = true) ∧
      ∀ r, s.rsrcCnt r = counted .thread1 (Function.update s.pc i .lockOne .thread1) r +
        counted .thread2 (Function.update s.pc i .lockOne .thread2) r :=
  ⟨owner_goto h.owner fun r => by simp [holds, hpc],
    rsrcCnt_goto h.rsrcCnt fun r => by simp [counted, hpc]⟩

theorem inv_mainStep (h : Inv safe s) (hs : mainStep safe s = some s') : Inv safe s' := by
  have hknows := h.main
  unfold mainStep at hs
  split at hs <;> rename_i hm <;> rw [hm] at hknows
  · cases hs
    obtain ⟨howner, hcnt⟩ := owner_rsrcCnt_create h hknows.1
    refine ⟨howner, hcnt, ?_⟩
    have h2 := hknows.2
    cases safe <;> simp [Knows, State.goto, Function.update_of_ne, h2]
  · split_ifs at hs with hpc
    cases hs
    exact ⟨h.owner, h.rsrcCnt, hknows.1, hknows.2, fun _ => hpc⟩
  · cases hs
    obtain ⟨howner, hcnt⟩ := owner_rsrcCnt_create h hknows.2.1
    refine ⟨howner, hcnt, ?_⟩
    obtain ⟨h1, -, h3⟩ := hknows
    cases safe
    · simp [Knows, State.goto, Function.update_of_ne, h1]
    · simp [Knows, State.goto, Function.update_of_ne, h3 rfl]
  · split_ifs at hs with hpc
    cases hs
    exact ⟨h.owner, h.rsrcCnt, hpc, hknows.2.2⟩
  · split_ifs at hs with hpc
    cases hs
    exact ⟨h.owner, h.rsrcCnt, hknows.1, hpc⟩
  · cases hs
    exact ⟨h.owner, h.rsrcCnt, hknows⟩
  · cases hs

theorem inv_step (h : Inv safe s) {a : Action} (hs : step safe s a = some s') : Inv safe s' := by
  cases a with
  | main => exact inv_mainStep h hs
  | thread i => exact inv_threadStep h hs

theorem inv_reach (h : Reach (step safe) Any init s) : Inv safe s :=
  h.invariant inv_init fun h _ hs => inv_step h hs

/-! ### Runs are finite -/

theorem rank_step (h : Inv safe s) {a : Action} (hs : step safe s a = some s') :
    rank s' < rank s := by
  cases a with
  | main =>
    have hknows := h.main
    have hs' : mainStep safe s = some s' := hs
    unfold mainStep at hs'
    split at hs' <;> rename_i hm <;> rw [hm] at hknows
    · cases hs'
      have h1 : s.pc .thread1 = .unborn := hknows.1
      cases safe <;> simp [rank, hm, State.goto, h1, Main.rank, Pc.rank, Function.update_of_ne]
    · split_ifs at hs'
      cases hs'
      simp only [rank, hm, Main.rank]
      omega
    · cases hs'
      have h2 : s.pc .thread2 = .unborn := hknows.2.1
      cases safe <;> simp [rank, hm, State.goto, h2, Main.rank, Pc.rank, Function.update_of_ne]
    · split_ifs at hs'
      cases hs'
      simp only [rank, hm, Main.rank]
      omega
    · split_ifs at hs'
      cases hs'
      simp only [rank, hm, Main.rank]
      omega
    · cases hs'
      simp only [rank, hm, Main.rank]
      omega
    · cases hs'
  | thread i =>
    obtain ⟨l, hmain, hpc, -, -, hrank⟩ := threadStep_goes hs
    unfold rank
    rw [hmain, hpc]
    cases i
    · rw [Function.update_self, Function.update_of_ne (by decide)]
      omega
    · rw [Function.update_self, Function.update_of_ne (by decide)]
      omega

/-- **Every step uses up one of those that are left.** -/
theorem exec_length_le {as : List Action} (h : Inv safe s)
    (hrun : exec (step safe) Any s as = some s') : as.length + rank s' ≤ rank s := by
  have hle := length_add_rank_le (fun _ => 0) (fun hi _ hs => inv_step hi hs)
    (fun hi _ hs => rank_step hi hs) h hrun
  rwa [List.map_const', List.sum_replicate_nat, Nat.mul_zero, Nat.add_zero] at hle

/-! ### How runs end -/

theorem threadStep_eq_none : threadStep s i = none ↔ s.pc i = .unborn ∨ s.pc i = .exited ∨
    (s.pc i = .lockOne ∧ s.owner i.one ≠ none) ∨ (s.pc i = .lockTwo ∧ s.owner i.two ≠ none) := by
  unfold threadStep
  split <;> rename_i hpc <;> simp [hpc]

theorem one_of_ne (h : j ≠ i) : j.one = i.two ∧ j.two = i.one := by
  cases i <;> cases j <;> first | exact absurd rfl h | exact ⟨rfl, rfl⟩

/-- A thread that is alive and cannot go on waits for its second resource, and so does the other
one. -/
theorem stuck_thread (h : Inv safe s) (hstuck : ∀ i, threadStep s i = none) (i : Thread) :
    s.pc i = .unborn ∨ s.pc i = .exited ∨ ∀ j, s.pc j = .lockTwo := by
  have hcase := fun j => threadStep_eq_none.mp (hstuck j)
  rcases hcase i with hpc | hpc | ⟨hpc, hown⟩ | ⟨hpc, hown⟩
  · exact .inl hpc
  · exact .inr (.inl hpc)
  · -- the owner of the first resource has it as its second one, and can go on
    obtain ⟨j, hj⟩ := Option.ne_none_iff_exists'.mp hown
    have hhold := (h.owner j i.one).mp hj
    have hji : j ≠ i := by
      rintro rfl
      simp [holds, hpc] at hhold
    rw [← (one_of_ne hji).2, holds, if_neg (one_ne_two j).symm] at hhold
    rcases hcase j with h1 | h1 | ⟨h1, -⟩ | ⟨h1, -⟩ <;> simp [h1] at hhold
  · obtain ⟨j, hj⟩ := Option.ne_none_iff_exists'.mp hown
    have hhold := (h.owner j i.two).mp hj
    have hji : j ≠ i := by
      rintro rfl
      simp [holds, hpc, (one_ne_two j).symm] at hhold
    rw [← (one_of_ne hji).1, holds, if_pos rfl] at hhold
    have hpcj : s.pc j = .lockTwo := by
      rcases hcase j with h1 | h1 | ⟨h1, -⟩ | ⟨h1, -⟩
      · simp [h1] at hhold
      · simp [h1] at hhold
      · simp [h1] at hhold
      · exact h1
    refine .inr (.inr fun j' => ?_)
    by_cases hj' : j' = i
    · exact hj' ▸ hpc
    · have hjj : j' = j := by cases i <;> cases j <;> cases j' <;> simp_all
      exact hjj ▸ hpcj

/-- **A run that cannot go on** has ended, or the threads wait for each other. -/
theorem stuck_iff (h : Inv safe s) : (∀ a, step safe s a = none) ↔ Ended s ∨ Embraced s := by
  have hknows := h.main
  constructor
  · intro hstuck
    have hthread := stuck_thread h fun i => hstuck (.thread i)
    by_cases hall : ∀ j, s.pc j = .lockTwo
    · refine .inr ⟨?_, hall, fun i => (h.owner i i.one).mpr (by simp [holds, hall])⟩
      cases hm : s.main <;> rw [hm] at hknows <;> simp_all [Knows]
    have hpc : ∀ i, s.pc i = .unborn ∨ s.pc i = .exited := fun i =>
      (hthread i).imp_right fun h => h.resolve_right hall
    have hmain : mainStep safe s = none := hstuck .main
    -- the joins that `main` waits in are over
    have hend : s.main = .exited ∧ s.pc .thread1 = .exited ∧ s.pc .thread2 = .exited := by
      have h1 := hpc .thread1
      have h2 := hpc .thread2
      cases hm : s.main <;> rw [hm] at hknows <;>
        simp_all [mainStep, Knows]
    have hexit : ∀ i, s.pc i = .exited := fun i => by
      cases i
      · exact hend.2.1
      · exact hend.2.2
    refine .inl ⟨hend.1, hexit, fun r => ?_, fun r => ?_⟩
    · by_contra hown
      obtain ⟨j, hj⟩ := Option.ne_none_iff_exists'.mp hown
      have hhold := (h.owner j r).mp hj
      simp [holds, hexit j] at hhold
    · rw [h.rsrcCnt, hexit, hexit]
      simp [counted]
  · rintro (hend | hemb) a
    · cases a with
      | main => simp [step, mainStep, hend.main]
      | thread i => exact threadStep_eq_none.mpr (.inr (.inl (hend.pc i)))
    · cases a with
      | main => simp [step, mainStep, hemb.main, hemb.pc]
      | thread i =>
        refine threadStep_eq_none.mpr (.inr (.inr (.inr ⟨hemb.pc i, ?_⟩)))
        cases i
        · exact fun hn => absurd (hn.symm.trans (hemb.owner .thread2)) nofun
        · exact fun hn => absurd (hn.symm.trans (hemb.owner .thread1)) nofun

/-- With `safe` thread 1 is over before thread 2 begins. -/
theorem not_embraced_of_safe (h : Inv true s) : ¬ Embraced s := by
  intro hemb
  have hknows := h.main
  rw [hemb.main] at hknows
  exact absurd hknows.1 nofun

/-- What a state consists of. -/
def shown (s : State) : Main × Pc × Pc × Option Thread × Option Thread × ℕ × ℕ :=
  (s.main, s.pc .thread1, s.pc .thread2, s.owner .rsrcA, s.owner .rsrcB, s.rsrcCnt .rsrcA,
    s.rsrcCnt .rsrcB)

/-- Both threads take their first resource. -/
def toEmbrace : List Action :=
  [.main, .main, .thread .thread1, .thread .thread1, .thread .thread2, .thread .thread2]

/-- Thread 1 runs before thread 2. -/
def toEnd : List Action :=
  [.main] ++ List.replicate 6 (.thread .thread1) ++ [.main, .main] ++
    List.replicate 6 (.thread .thread2) ++ [.main, .main]

/-- **How the program comes out.** No run takes more than 18 steps; one that cannot go on has ended,
with both resources free and counted twice, or has the threads waiting for each other; the former
can always happen, the latter exactly without `safe`. -/
theorem outcomes (safe : Bool) :
    (∀ as s, exec (step safe) Any init as = some s → as.length ≤ 18) ∧
      (∀ s, Reach (step safe) Any init s →
        ((∀ a, step safe s a = none) ↔ Ended s ∨ Embraced s)) ∧
      (∃ s, Reach (step safe) Any init s ∧ Ended s) ∧
      ((∃ s, Reach (step safe) Any init s ∧ Embraced s) ↔ safe = false) := by
  refine ⟨fun as s hrun => ?_, fun s hs => stuck_iff (inv_reach hs), ?_, ?_, ?_⟩
  · have h : as.length + rank s ≤ 18 := exec_length_le inv_init hrun
    omega
  · have hrun : (exec (step safe) Any init toEnd).map shown =
        some (.exited, .exited, .exited, none, none, 2, 2) := by cases safe <;> rfl
    obtain ⟨s, hs, heq⟩ := Reach.exists_of_exec hrun
    simp only [shown, Prod.mk.injEq] at heq
    obtain ⟨hm, h1, h2, hA, hB, hcA, hcB⟩ := heq
    exact ⟨s, hs, hm, fun i => by cases i <;> assumption, fun r => by cases r <;> assumption,
      fun r => by cases r <;> assumption⟩
  · rintro ⟨s, hs, hemb⟩
    cases safe with
    | false => rfl
    | true => exact absurd hemb (not_embraced_of_safe (inv_reach hs))
  · rintro rfl
    have hrun : (exec (step false) Any init toEmbrace).map shown =
        some (.joinOne, .lockTwo, .lockTwo, some .thread1, some .thread2, 1, 1) := rfl
    obtain ⟨s, hs, heq⟩ := Reach.exists_of_exec hrun
    simp only [shown, Prod.mk.injEq] at heq
    obtain ⟨hm, h1, h2, hA, hB, -⟩ := heq
    exact ⟨s, hs, hm, fun i => by cases i <;> assumption, fun i => by cases i <;> assumption⟩

end Ecen5623.Deadlock.OppositeOrder
