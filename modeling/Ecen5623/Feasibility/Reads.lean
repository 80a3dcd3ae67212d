import Ecen5623.Feasibility.Agreement

/-! # What the updated scheduling-point test reads

`scheduling_point_feasibility` of `feasibility_tests_updated.c` declares `ceiling_T1_Tn` twice; the
outer one, which nothing uses, is computed from `period[i]` with the `i` of the loop behind it. In
the first round that `i` has not been set (`none_mem_reads`), later it is what the last inner loop
has left, at most one past the end (`reads_le`). In C the first of these reads is undefined
behaviour, and so is the one past the end; the model goes on after them with no value, and then
the result does not depend on them and is that of the original (`rc_eq`). -/

namespace Ecen5623.Feasibility.Reads

open Ecen5623.Feasibility.Tests Ecen5623.Feasibility.Agreement

/-- The variables that outlive a round, and the indices at which `period` or `wcet` has been read.
An index that has not been set is `none`. -/
structure State where
  i : Option ℕ
  status : Bool
  rc : Bool
  reads : List (Option ℕ)
  deriving DecidableEq, Repr

/-- Read one of the arrays at the index `x`. -/
def State.read (x : Option ℕ) (st : State) : State := { st with reads := st.reads ++ [x] }

variable (period wcet : ℕ → ℕ) (s2 s : ℕ)

/-- The loop over the services between S1..Sn, with `temp`. -/
def sumRound (numPeriods : ℕ) (acc : State × ℕ) (i : ℕ) : State × ℕ :=
  (((({ acc.1 with i := some i }.read (some s)).read (some i)).read (some i)),
    acc.2 + wcet i * ((numPeriods * period s) ⌈/⌉ period i))

/-- One round of the loop over `num_periods`, the `k`-th; nothing after the `break`. -/
def pointRound (st : State) (k : ℕ) : State :=
  if st.status then st
  else
    -- the unused `ceiling_T1_Tn`
    let st1 := (st.read (some s)).read st.i
    let acc := (List.range (s2 + 1)).foldl (sumRound period wcet s (k + 1)) (st1, 0)
    let st2 := { acc.1 with i := some (s2 + 1) }.read (some s)
    { st2 with status := acc.2 ≤ (k + 1) * period s }

/-- One round of the loop over `S`; nothing after the `break`. -/
def serviceRound (st : State) (s : ℕ) : State :=
  if st.status then st
  else (List.range (period s2 / period s)).foldl (pointRound period wcet s2 s)
    ((st.read (some s2)).read (some s))

/-- One round of the loop over `S2`. -/
def priorityRound (st : State) (s2 : ℕ) : State :=
  let st1 := (List.range (s2 + 1)).foldl (serviceRound period wcet s2) { st with status := false }
  if st1.status then st1 else { st1 with rc := false }

/-- `scheduling_point_feasibility` of `feasibility_tests_updated.c`, with its reads. -/
def schedulingPoint (numServices : ℕ) : State :=
  (List.range numServices).foldl (priorityRound period wcet)
    { i := none, status := false, rc := true, reads := [] }

variable {period wcet s2 s} {n : ℕ} {st : State} {x : Option ℕ}

/-! ### The result -/

theorem sumLoop_snd (numPeriods : ℕ) (st : State) :
    ((List.range (s2 + 1)).foldl (sumRound period wcet s numPeriods) (st, 0)).2 =
      tempAt period wcet s2 (numPeriods * period s) := by
  have hsnd : ∀ (l : List ℕ) (acc : State × ℕ),
      (l.foldl (sumRound period wcet s numPeriods) acc).2 =
        l.foldl (fun temp i => temp + wcet i * ((numPeriods * period s) ⌈/⌉ period i)) acc.2 := by
    intro l
    induction l with
    | nil => exact fun acc => rfl
    | cons i l ih => exact fun acc => ih _
  exact hsnd _ _

theorem sumLoop_rc (numPeriods : ℕ) (st : State) :
    ((List.range (s2 + 1)).foldl (sumRound period wcet s numPeriods) (st, 0)).1.rc = st.rc :=
  List.foldlRecOn (motive := fun acc : State × ℕ => acc.1.rc = st.rc) _ _ rfl
    fun _ hacc _ _ => hacc

theorem pointRound_status (st : State) (k : ℕ) : (pointRound period wcet s2 s st k).status =
    (st.status || tempAt period wcet s2 ((k + 1) * period s) ≤ (k + 1) * period s) := by
  unfold pointRound
  split_ifs with hst
  · simp [hst]
  · simp [hst, sumLoop_snd]

theorem pointRound_rc (st : State) (k : ℕ) : (pointRound period wcet s2 s st k).rc = st.rc := by
  unfold pointRound
  split_ifs
  · rfl
  · exact sumLoop_rc _ _

theorem foldl_status {f : State → ℕ → State} {q : ℕ → Bool}
    (hf : ∀ st k, (f st k).status = (st.status || q k)) :
    ∀ (l : List ℕ) (st : State), (l.foldl f st).status = (st.status || l.any q)
  | [], st => by simp
  | k :: l, st => by
    rw [List.foldl_cons, foldl_status hf l, hf, List.any_cons, Bool.or_assoc]

theorem foldl_keeps_rc {f : State → ℕ → State} (hf : ∀ st k, (f st k).rc = st.rc) (l : List ℕ)
    (st : State) : (l.foldl f st).rc = st.rc :=
  List.foldlRecOn (motive := fun st' : State => st'.rc = st.rc) l f rfl
    fun st' hst' k _ => (hf st' k).trans hst'

theorem serviceRound_status (st : State) (s : ℕ) : (serviceRound period wcet s2 st s).status =
    (st.status || (List.range (period s2 / period s)).any fun k =>
      tempAt period wcet s2 ((k + 1) * period s) ≤ (k + 1) * period s) := by
  unfold serviceRound
  split_ifs with hst
  · simp [hst]
  · rw [foldl_status (fun st k => pointRound_status st k)]
    rfl

theorem serviceRound_rc (st : State) (s : ℕ) : (serviceRound period wcet s2 st s).rc = st.rc := by
  unfold serviceRound
  split_ifs
  · rfl
  · exact foldl_keeps_rc (fun st k => pointRound_rc st k) _ _

theorem priorityRound_rc (st : State) (s2 : ℕ) : (priorityRound period wcet st s2).rc =
    if itFits period wcet s2 then st.rc else false := by
  have hstatus : ((List.range (s2 + 1)).foldl (serviceRound period wcet s2)
      { st with status := false }).status = itFits period wcet s2 := by
    rw [foldl_status fun st s => serviceRound_status st s]
    rfl
  unfold priorityRound
  simp only [hstatus]
  split_ifs
  · exact foldl_keeps_rc (fun st s => serviceRound_rc st s) _ _
  · rfl

/-- **The result is that of the original test.** -/
theorem rc_eq (n : ℕ) (deadline : ℕ → ℕ) :
    (schedulingPoint period wcet n).rc = schedulingPointFeasibility n period wcet deadline := by
  have hfold : ∀ (l : List ℕ) (st : State), (l.foldl (priorityRound period wcet) st).rc =
      l.foldl (fun rc s2 => if itFits period wcet s2 then rc else false) st.rc := by
    intro l
    induction l with
    | nil => exact fun st => rfl
    | cons s2 l ih =>
      intro st
      rw [List.foldl_cons, ih, priorityRound_rc, List.foldl_cons]
  exact hfold _ _

/-! ### The indices read -/

/-- A property of the state that every assignment and every read keeps, for `n` services. -/
structure Kept (n : ℕ) (Q : State → Prop) : Prop where
  read : ∀ st, ∀ j < n, Q st → Q (st.read (some j))
  readI : ∀ st, Q st → Q (st.read st.i)
  setI : ∀ st, ∀ j ≤ n, Q st → Q { st with i := some j }
  setStatus : ∀ st b, Q st → Q { st with status := b }
  setRc : ∀ st b, Q st → Q { st with rc := b }

section Kept
variable {Q : State → Prop} (hQ : Kept n Q)
include hQ

theorem pointRound_keeps (hs2 : s2 < n) (hs : s ≤ s2) (hst : Q st) (k : ℕ) :
    Q (pointRound period wcet s2 s st k) := by
  have hsn : s < n := hs.trans_lt hs2
  unfold pointRound
  split_ifs
  · exact hst
  · refine hQ.setStatus _ _ (hQ.read _ s hsn (hQ.setI _ (s2 + 1) hs2 ?_))
    refine List.foldlRecOn (motive := fun acc : State × ℕ => Q acc.1) _ _
      (hQ.readI _ (hQ.read _ s hsn hst)) fun acc hacc i hi => ?_
    have hin : i < n := (Nat.lt_succ_iff.mp (List.mem_range.mp hi)).trans_lt hs2
    exact hQ.read _ i hin (hQ.read _ i hin (hQ.read _ s hsn (hQ.setI _ i hin.le hacc)))

theorem serviceRound_keeps (hs2 : s2 < n) (hs : s ≤ s2) (hst : Q st) :
    Q (serviceRound period wcet s2 st s) := by
  unfold serviceRound
  split_ifs
  · exact hst
  · exact List.foldlRecOn _ _ (hQ.read _ s (hs.trans_lt hs2) (hQ.read _ s2 hs2 hst))
      fun st hst k _ => pointRound_keeps hQ hs2 hs hst k

theorem priorityRound_keeps (hs2 : s2 < n) (hst : Q st) :
    Q (priorityRound period wcet st s2) := by
  have hloop : Q ((List.range (s2 + 1)).foldl (serviceRound period wcet s2)
      { st with status := false }) :=
    List.foldlRecOn _ _ (hQ.setStatus _ _ hst) fun st hst s hs =>
      serviceRound_keeps hQ hs2 (Nat.lt_succ_iff.mp (List.mem_range.mp hs)) hst
  unfold priorityRound
  dsimp only
  split_ifs
  · exact hloop
  · exact hQ.setRc _ _ hloop

end Kept

theorem kept_mem (n : ℕ) (x : Option ℕ) : Kept n fun st => x ∈ st.reads where
  read _ _ _ h := List.mem_append_left _ h
  readI _ h := List.mem_append_left _ h
  setI _ _ _ h := h
  setStatus _ _ h := h
  setRc _ _ h := h

/-- **The first round reads `period[i]` before `i` is set.** -/
theorem none_mem_reads (h : Positive n period wcet) (hn : 1 ≤ n) :
    none ∈ (schedulingPoint period wcet n).reads := by
  obtain ⟨m, rfl⟩ := Nat.exists_eq_add_of_le' hn
  have hone : period 0 / period 0 = 1 := Nat.div_self (h.period 0 (Nat.succ_pos m))
  -- the first round of the three loops
  have hpoint : ∀ st : State, st.i = none → st.status = false →
      none ∈ (pointRound period wcet 0 0 st 0).reads := by
    intro st hi hst
    simp [pointRound, hst, hi, sumRound, State.read]
  have hservice : ∀ st : State, st.i = none → st.status = false →
      none ∈ (serviceRound period wcet 0 st 0).reads := by
    intro st hi hst
    rw [serviceRound, if_neg (by simp [hst]), hone]
    exact hpoint _ hi hst
  have hfirst : none ∈ (priorityRound period wcet
      { i := none, status := false, rc := true, reads := [] } 0).reads := by
    have hloop := hservice { i := none, status := false, rc := true, reads := [] } rfl rfl
    unfold priorityRound
    dsimp only
    split_ifs
    · exact hloop
    · exact hloop
  rw [schedulingPoint, List.range_succ_eq_map, List.foldl_cons]
  refine List.foldlRecOn (motive := fun st : State => none ∈ st.reads) _ _ hfirst
    fun st hst s2 hs2 => ?_
  obtain ⟨s2', hs2', rfl⟩ := List.mem_map.mp hs2
  exact priorityRound_keeps (kept_mem (m + 1) none) (Nat.succ_lt_succ (List.mem_range.mp hs2')) hst

/-- **The indices that have been set are at most one past the end.** -/
theorem reads_le : ∀ j, some j ∈ (schedulingPoint period wcet n).reads → j ≤ n := by
  have hkept : Kept n fun st => (∀ j, st.i = some j → j ≤ n) ∧ ∀ j, some j ∈ st.reads → j ≤ n :=
    { read := by
        rintro st j hj ⟨h1, h2⟩
        refine ⟨h1, fun j' hj' => ?_⟩
        rcases List.mem_append.mp hj' with hj' | hj'
        · exact h2 j' hj'
        · cases List.mem_singleton.mp hj'
          exact hj.le
      readI := by
        rintro st ⟨h1, h2⟩
        refine ⟨h1, fun j' hj' => ?_⟩
        rcases List.mem_append.mp hj' with hj' | hj'
        · exact h2 j' hj'
        · exact h1 j' (List.mem_singleton.mp hj').symm
      setI := fun st j hj h => ⟨fun j' hj' => by cases hj'; exact hj, h.2⟩
      setStatus := fun st b h => h
      setRc := fun st b h => h }
  have hinit : (∀ j, (none : Option ℕ) = some j → j ≤ n) ∧
      ∀ j, some j ∈ ([] : List (Option ℕ)) → j ≤ n :=
    ⟨(by rintro j ⟨⟩), (by rintro j ⟨⟩)⟩
  have hall : (∀ j, (schedulingPoint period wcet n).i = some j → j ≤ n) ∧
      ∀ j, some j ∈ (schedulingPoint period wcet n).reads → j ≤ n :=
    List.foldlRecOn (motive := fun st : State =>
      (∀ j, st.i = some j → j ≤ n) ∧ ∀ j, some j ∈ st.reads → j ≤ n) _ _ hinit
      fun st hst s2 hs2 => priorityRound_keeps hkept (List.mem_range.mp hs2) hst
  exact hall.2

/-- **On no input does the updated test stay inside its arrays**: that all its reads are at indices
that have been set and are below `n`, with the result of the original, is false for every set. -/
theorem not_reads_inside (h : Positive n period wcet) (hn : 1 ≤ n) (deadline : ℕ → ℕ) :
    ¬ ((∀ x ∈ (schedulingPoint period wcet n).reads, ∃ j < n, x = some j) ∧
      (schedulingPoint period wcet n).rc = schedulingPointFeasibility n period wcet deadline) := by
  rintro ⟨hreads, -⟩
  obtain ⟨j, -, hj⟩ := hreads none (none_mem_reads h hn)
  cases hj

/-- Test case 1. -/
theorem not_reads_inside_test1 :
    ¬ ((∀ x ∈ (schedulingPoint testCase1.periods testCase1.wcets 3).reads, ∃ j < 3, x = some j) ∧
      (schedulingPoint testCase1.periods testCase1.wcets 3).rc =
        schedulingPointFeasibility 3 testCase1.periods testCase1.wcets testCase1.periods) :=
  not_reads_inside ⟨by decide, by decide⟩ (by decide) _

/-- One service of period and run time 1: after the reads of the quotient the test reads `period[S]`
and then `period[i]` with `i` not set. -/
theorem reads_one : (schedulingPoint (fun _ => 1) (fun _ => 1) 1).reads =
    [some 0, some 0, some 0, none, some 0, some 0, some 0, some 0] := by
  decide

end Ecen5623.Feasibility.Reads
