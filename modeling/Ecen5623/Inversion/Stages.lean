import Ecen5623.Inversion.Services

/-! # What every run of the three services keeps

`start` goes through its stages in order, and each stage knows what the others have come to
(`Staged`). In particular `high` is created only after `low` has stored its `CScnt++`, so that the
two increments do not get in each other's way, with the mutex or without (`Inv.csCnt`). -/

namespace Ecen5623.Inversion.Stages

open Ecen5623.Library Ecen5623.Inversion.Services

variable {p : Program} {n : Int32} {s s' : State} {i j : Service} {l : Pc} {st : Start}
  {pc : Service → Pc}

/-! ### The invariant -/

/-- The number of a stage of `start`. -/
def stage : Start → ℕ
  | .setInterference => 0
  | .createLow => 1
  | .spin => 2
  | .createHigh => 3
  | .testInterference => 4
  | .createMid => 5
  | .joinHigh => 6
  | .testJoin => 7
  | .joinMid => 8
  | .joinLow => 9
  | .exited => 10

/-- What a thread has added to `CScnt`. -/
def passed : Pc → ℕ
  | .unborn | .lock | .readCnt | .writeCnt _ => 0
  | .clear | .burn | .count | .test | .unlock | .exited => 1

/-- Between `pthread_mutex_lock` and `pthread_mutex_unlock`. -/
def inside : Pc → Bool
  | .unborn | .lock | .exited => false
  | .readCnt | .writeCnt _ | .clear | .burn | .count | .test | .unlock => true

/-- A point of `simpleTask`. -/
def simple : Pc → Bool
  | .unborn | .burn | .count | .test | .exited => true
  | .lock | .readCnt | .writeCnt _ | .clear | .unlock => false

/-- The rounds that a thread runs. -/
def rounds (n : Int32) : Service → ℕ
  | .mid => n.toInt.toNat
  | _ => csLength

/-- The rounds that a thread has run of `bound` ones. -/
def Counted (bound : ℕ) : Pc → ℕ → Prop
  | .unborn, c => c = 0
  | .burn, c | .count, c => c < bound
  | .test, c => 0 < c ∧ c ≤ bound
  | .unlock, c | .exited, c => c = bound
  | _, _ => True

/-- What the stage of `start` says about the others. -/
structure Staged (n : Int32) (st : Start) (pc : Service → Pc) : Prop where
  start : pc .start = .unborn
  low : pc .low = .unborn ↔ stage st ≤ 1
  high : pc .high = .unborn ↔ stage st ≤ 3
  mid : pc .mid = .unborn ↔ stage st ≤ 5 ∨ ¬ 0 < n
  passed : 3 ≤ stage st → passed (pc .low) = 1
  interfered : st = .createMid ∨ st = .joinMid → 0 < n
  high_exited : 7 ≤ stage st → pc .high = .exited
  mid_exited : 9 ≤ stage st → 0 < n → pc .mid = .exited
  low_exited : 10 ≤ stage st → pc .low = .exited

structure Inv (p : Program) (n : Int32) (s : State) : Prop where
  intfTime : s.intfTime = n
  runInterference : s.start ≠ .setInterference → s.runInterference = n
  staged : Staged n s.start s.pc
  owner : ∀ i, s.owner = some i ↔
    p.useMutex = true ∧ (i = .low ∨ i = .high) ∧ inside (s.pc i) = true
  csCnt : s.csCnt = passed (s.pc .low) + passed (s.pc .high)
  reg : ∀ i reg, s.pc i = .writeCnt reg → reg = s.csCnt
  counted : ∀ i, Counted (rounds n i) (s.pc i) (s.idleCount i)
  simple : simple (s.pc .mid) = true

theorem inv_init : Inv p n (init n) where
  intfTime := rfl
  runInterference h := absurd rfl h
  staged := by constructor <;> simp [init, stage]
  owner i := by simp [init, inside]
  csCnt := rfl
  reg := by simp [init]
  counted _ := rfl
  simple := rfl

/-! ### A turn of a task -/

theorem passed_le_one (l : Pc) : passed l ≤ 1 := by cases l <;> simp [passed]

theorem Staged.turn (h : Staged n st pc) (hi : pc i ≠ .unborn) (he : pc i ≠ .exited)
    (hl : l ≠ .unborn) (hp : Stages.passed (pc i) ≤ Stages.passed l) :
    Staged n st (Function.update pc i l) := by
  have h1 := passed_le_one l
  obtain ⟨hstart, hlow, hhigh, hmid, hpassed, hinterfered, hhe, hme, hle⟩ := h
  cases i with
  | start => exact absurd hstart hi
  | low =>
    refine ⟨by simpa, ?_, by simpa, by simpa using hmid, ?_, hinterfered, by simpa, by simpa, ?_⟩
    · simpa [hl, hi] using hlow
    · intro h3
      have := hpassed h3
      simp only [Function.update_self]
      omega
    · exact fun h => absurd (hle h) he
  | mid =>
    refine ⟨by simpa, by simpa, by simpa, ?_, by simpa, hinterfered, by simpa, ?_, by simpa⟩
    · simpa [hl, hi] using hmid
    · exact fun h hn => absurd (hme h hn) he
  | high =>
    refine ⟨by simpa, by simpa, ?_, by simpa using hmid, by simpa, hinterfered, ?_, by simpa,
      by simpa⟩
    · simpa [hl, hi] using hhigh
    · exact fun h => absurd (hhe h) he

/-- What a turn of a task leaves alone: it takes thread `i` to `l`, with `c` in its `idleCount`. -/
structure Frame (s s' : State) (i : Service) (l : Pc) (c : ℕ) : Prop where
  intfTime : s'.intfTime = s.intfTime
  runInterference : s'.runInterference = s.runInterference
  start : s'.start = s.start
  pc : s'.pc = Function.update s.pc i l
  idleCount : s'.idleCount = Function.update s.idleCount i c

theorem Inv.turn (hs : Inv p n s) {c : ℕ} (hf : Frame s s' i l c) (hi : s.pc i ≠ .unborn)
    (he : s.pc i ≠ .exited) (hl : l ≠ .unborn) (hp : passed (s.pc i) ≤ passed l)
    (howner : ∀ j, s'.owner = some j ↔
      p.useMutex = true ∧ (j = .low ∨ j = .high) ∧ inside (Function.update s.pc i l j) = true)
    (hcnt : s'.csCnt + passed (s.pc i) = s.csCnt + passed l)
    (hother : ∀ j reg, j ≠ i → s.pc j = .writeCnt reg → s'.csCnt = s.csCnt)
    (hreg : ∀ reg, l = .writeCnt reg → reg = s'.csCnt) (hcount : Counted (rounds n i) l c)
    (hsimple : i = .mid → Stages.simple l = true) (hquiet : i = .mid → s'.csCnt = s.csCnt) :
    Inv p n s' := by
  obtain ⟨hintf, hrun, hstart, hpc, hidle⟩ := hf
  refine ⟨hintf.trans hs.intfTime, ?_, ?_, ?_, ?_, ?_, ?_, ?_⟩
  · rw [hstart, hrun]
    exact hs.runInterference
  · rw [hstart, hpc]
    exact hs.staged.turn hi he hl hp
  · rw [hpc]
    exact howner
  · have hold := hs.csCnt
    rw [hpc]
    cases i with
    | start => exact absurd hs.staged.start hi
    | low => simp; omega
    | mid => simp [hquiet rfl, hold]
    | high => simp; omega
  · intro j reg
    rw [hpc]
    by_cases hj : j = i
    · subst hj
      rw [Function.update_self]
      exact hreg reg
    · rw [Function.update_of_ne hj]
      intro h
      rw [hother j reg hj h]
      exact hs.reg j reg h
  · intro j
    rw [hpc, hidle]
    by_cases hj : j = i
    · subst hj
      rwa [Function.update_self, Function.update_self]
    · rw [Function.update_of_ne hj, Function.update_of_ne hj]
      exact hs.counted j
  · rw [hpc]
    by_cases hj : i = .mid
    · subst hj
      rw [Function.update_self]
      exact hsimple rfl
    · rw [Function.update_of_ne (Ne.symm hj)]
      exact hs.simple

theorem Inv.owner_update (hs : Inv p n s) (h : i = .mid ∨ inside l = inside (s.pc i))
    (j : Service) : s.owner = some j ↔
      p.useMutex = true ∧ (j = .low ∨ j = .high) ∧ inside (Function.update s.pc i l j) = true := by
  rw [hs.owner]
  refine and_congr_right fun _ => and_congr_right fun hj => ?_
  by_cases hij : j = i
  · subst hij
    rw [Function.update_self]
    obtain rfl | hin := h
    · simp at hj
    · rw [hin]
  · rw [Function.update_of_ne hij]

/-- A thread can go on from `k` to `l` without an effect on `CScnt` or the mutex. -/
structure Quiet (k l : Pc) : Prop where
  born : k ≠ .unborn
  alive : k ≠ .exited
  next : l ≠ .unborn
  passed : passed k = passed l
  inside : inside k = inside l

theorem Inv.quiet (hs : Inv p n s) {k : Pc} {c : ℕ} (hpc : s.pc i = k) (hq : Quiet k l)
    (hf : Frame s s' i l c) (howner : s'.owner = s.owner) (hcnt : s'.csCnt = s.csCnt)
    (hreg : ∀ reg, l = .writeCnt reg → reg = s.csCnt) (hcount : Counted (rounds n i) l c)
    (hsimple : i = .mid → Stages.simple l = true) : Inv p n s' := by
  subst hpc
  obtain ⟨hi, he, hl, hp, hin⟩ := hq
  refine hs.turn hf hi he hl hp.le ?_ (by omega) (fun _ _ _ _ => hcnt) (by rwa [hcnt]) hcount
    hsimple fun _ => hcnt
  rw [howner]
  exact hs.owner_update (.inr hin.symm)

theorem Inv.owner_turn (hs : Inv p n s) (hi : i = .low ∨ i = .high)
    (hfree : ∀ j, s.owner = some j → j = i) (j : Service) :
    (if p.useMutex = true then if inside l = true then some i else none else s.owner) = some j ↔
      p.useMutex = true ∧ (j = .low ∨ j = .high) ∧ inside (Function.update s.pc i l j) = true := by
  by_cases hm : p.useMutex = true
  · rw [if_pos hm]
    by_cases hj : j = i
    · subst hj
      simp [hm, hi]
    · have hnot := mt (hs.owner j).mpr fun h => hj (hfree j h)
      rw [Function.update_of_ne hj]
      refine iff_of_false (fun h => ?_) hnot
      split_ifs at h
      exact hj (Option.some.inj h).symm
  · rw [if_neg hm, hs.owner]
    exact iff_of_false (fun h => hm h.1) fun h => hm h.1

theorem Inv.not_writing (hs : Inv p n s) {reg reg' : ℕ} (hi : s.pc i = .writeCnt reg)
    (hj : s.pc j = .writeCnt reg') : j = i := by
  have hmid := hs.simple
  have hstart := hs.staged.start
  have hpassed := hs.staged.passed
  have hhigh := hs.staged.high
  have hboth : s.pc .low = .writeCnt reg → s.pc .high = .writeCnt reg' → False := by
    intro h1 h2
    rw [h1] at hpassed
    rw [h2] at hhigh
    simp only [reduceCtorEq, false_iff] at hhigh
    have := hpassed (by omega)
    simp [passed] at this
  have hboth' : s.pc .high = .writeCnt reg → s.pc .low = .writeCnt reg' → False := by
    intro h1 h2
    rw [h2] at hpassed
    rw [h1] at hhigh
    simp only [reduceCtorEq, false_iff] at hhigh
    have := hpassed (by omega)
    simp [passed] at this
  cases i <;> cases j <;> simp_all [Stages.simple]

theorem Frame.goto (s : State) (i : Service) (l : Pc) :
    Frame s (s.goto i l) i l (s.idleCount i) := ⟨rfl, rfl, rfl, rfl, by simp [State.goto]⟩

theorem Frame.setIdleCount (s : State) (i : Service) (l : Pc) (c : ℕ) :
    Frame s ((s.setIdleCount i c).goto i l) i l c := ⟨rfl, rfl, rfl, rfl, rfl⟩

theorem rounds_lt (n : Int32) (i : Service) : rounds n i < 2 ^ 31 := by
  have := n.toInt_lt
  cases i <;> simp only [rounds, csLength] <;> omega

theorem Inv.burn (hs : Inv p n s) (hpc : s.pc i = .burn) : Inv p n (s.goto i .count) := by
  have hcounted := hs.counted i
  rw [hpc] at hcounted
  exact hs.quiet hpc (by constructor <;> simp [passed, inside]) (.goto s i _) rfl rfl (by simp)
    hcounted fun _ => rfl

theorem Inv.count (hs : Inv p n s) (hpc : s.pc i = .count) :
    Inv p n ((s.setIdleCount i ((s.idleCount i + 1) % 2 ^ 32)).goto i .test) := by
  have hcounted := hs.counted i
  have hlt := rounds_lt n i
  rw [hpc] at hcounted
  refine hs.quiet hpc (by constructor <;> simp [passed, inside]) (.setIdleCount s i _ _) rfl rfl
    (by simp) ?_ fun _ => rfl
  simp only [Counted] at hcounted ⊢
  omega

theorem Inv.interfering (hs : Inv p n s) (hborn : s.pc .mid ≠ .unborn) :
    0 < n ∧ s.runInterference = n := by
  have hmid := mt hs.staged.mid.mpr hborn
  push Not at hmid
  refine ⟨hmid.2, hs.runInterference fun h => ?_⟩
  simp [h, stage] at hmid

theorem inv_criticalSectionTask (hs : Inv p n s) (hi : i = .low ∨ i = .high)
    (h : criticalSectionTask p.useMutex i s = some s') : Inv p n s' := by
  have hne : i ≠ .mid := by rintro rfl; simp at hi
  have hrounds : rounds n i = csLength := by obtain rfl | rfl := hi <;> rfl
  have hcounted := hs.counted i
  have hlt := rounds_lt n i
  unfold criticalSectionTask at h
  have hown := hs.owner i
  cases hpc : s.pc i with
  | unborn => simp [hpc] at h
  | exited => simp [hpc] at h
  | lock =>
    simp only [hpc] at h
    have hframe : ∀ o, Frame s ({ s with owner := o }.goto i .readCnt) i .readCnt
        (s.idleCount i) := fun o => ⟨rfl, rfl, rfl, rfl, by simp [State.goto]⟩
    have hturn : ∀ o, (∀ j, o = some j ↔ p.useMutex = true ∧ (j = .low ∨ j = .high) ∧
        inside (Function.update s.pc i .readCnt j) = true) →
        Inv p n ({ s with owner := o }.goto i .readCnt) := fun o ho =>
      hs.turn (hframe o) (by simp [hpc]) (by simp [hpc]) (by simp) (by simp [hpc, passed]) ho
        (by simp [hpc, passed, State.goto]) (fun _ _ _ _ => rfl) (by simp) trivial
        (fun h => absurd h hne) (fun _ => rfl)
    split_ifs at h with hm hnone
    · cases h
      refine hturn _ fun j => ?_
      rw [← hs.owner_turn hi (by simp [hnone]) j, if_pos hm]
      rfl
    · cases h
      refine hturn s.owner fun j => ?_
      rw [← hs.owner_turn hi (fun j h => absurd ((hs.owner j).mp h).1 hm) j, if_neg hm]
  | readCnt =>
    simp only [hpc, Option.some.injEq] at h
    subst h
    exact hs.quiet hpc (by constructor <;> simp [passed, inside]) (.goto s i _) rfl rfl
      (by simp [eq_comm]) trivial fun h => absurd h hne
  | writeCnt reg =>
    simp only [hpc, Option.some.injEq] at h
    subst h
    obtain rfl := hs.reg i reg hpc
    exact hs.turn (c := s.idleCount i) ⟨rfl, rfl, rfl, rfl, by simp [State.goto]⟩ (by simp [hpc])
      (by simp [hpc]) (by simp) (by simp [hpc, passed])
      (hs.owner_update (.inr (by simp [hpc, inside]))) (by simp [hpc, passed, State.goto])
      (fun j r hj h => absurd (hs.not_writing hpc h) hj) (by simp) trivial
      (fun h => absurd h hne) (fun h => absurd h hne)
  | clear =>
    simp only [hpc, Option.some.injEq] at h
    subst h
    exact hs.quiet hpc (by constructor <;> simp [passed, inside]) (.setIdleCount s i _ 0) rfl rfl
      (by simp) (by simp [hrounds, Counted, csLength]) fun h => absurd h hne
  | burn =>
    simp only [hpc, Option.some.injEq] at h
    subst h
    exact hs.burn hpc
  | count =>
    simp only [hpc, Option.some.injEq] at h
    subst h
    exact hs.count hpc
  | test =>
    simp only [hpc, Option.some.injEq] at h
    subst h
    rw [hpc] at hcounted
    simp only [Counted] at hcounted
    split_ifs with hless
    · exact hs.quiet hpc (by constructor <;> simp [passed, inside]) (.goto s i _) rfl rfl
        (by simp) (by rwa [hrounds]) fun h => absurd h hne
    · exact hs.quiet hpc (by constructor <;> simp [passed, inside]) (.goto s i _) rfl rfl
        (by simp) (by simp only [Counted]; omega) fun h => absurd h hne
  | unlock =>
    simp only [hpc, Option.some.injEq] at h
    subst h
    rw [hpc] at hcounted hown
    refine hs.turn (c := s.idleCount i) ⟨rfl, rfl, rfl, rfl, by simp [State.goto]⟩
      (by simp [hpc]) (by simp [hpc]) (by simp) (by simp [hpc, passed]) (fun j => ?_)
      (by simp [hpc, passed, State.goto]) (fun _ _ _ _ => rfl) (by simp) hcounted
      (fun h => absurd h hne) (fun _ => rfl)
    by_cases hm : p.useMutex = true
    · have hself : s.owner = some i := hown.mpr ⟨hm, hi, rfl⟩
      rw [← hs.owner_turn hi (fun j hj => Option.some.inj (hj.symm.trans hself)) j, if_pos hm]
      simp [State.goto, hm, inside]
    · refine iff_of_false (fun h => ?_) fun h => hm h.1
      simp only [State.goto, if_neg hm, hs.owner] at h
      exact hm h.1

theorem toInt_pos : 0 < n ↔ 0 < n.toInt := Int32.lt_iff_toInt_lt

theorem toUnsigned_of_pos (h : 0 < n) : toUnsigned n = rounds n .mid := by
  have hlt := n.toInt_lt
  have hpos := toInt_pos.mp h
  simp only [toUnsigned, rounds]
  omega

theorem inv_simpleTask (hs : Inv p n s) (h : simpleTask .mid s = some s') : Inv p n s' := by
  have hcounted := hs.counted .mid
  have hlt := rounds_lt n .mid
  unfold simpleTask at h
  cases hpc : s.pc .mid with
  | burn =>
    simp only [hpc, Option.some.injEq] at h
    subst h
    exact hs.burn hpc
  | count =>
    simp only [hpc, Option.some.injEq] at h
    subst h
    exact hs.count hpc
  | test =>
    simp only [hpc, Option.some.injEq] at h
    subst h
    obtain ⟨hpos, hrun⟩ := hs.interfering (by simp [hpc])
    rw [hpc] at hcounted
    simp only [Counted] at hcounted
    rw [hrun, toUnsigned_of_pos hpos]
    split_ifs with hless
    · exact hs.quiet hpc (by constructor <;> simp [passed, inside]) (.goto s .mid _) rfl rfl
        (by simp) hless fun _ => rfl
    · exact hs.turn (.goto s .mid _) (by simp [hpc]) (by simp [hpc]) (by simp)
        (by simp [hpc, passed]) (hs.owner_update (.inl rfl)) (by simp [hpc, passed, State.goto])
        (fun _ _ _ _ => rfl) (by simp) (by simp only [Counted]; omega) (fun _ => rfl)
        fun _ => rfl
  | _ => simp [hpc] at h

/-! ### A turn of the start service -/

theorem Inv.next (hs : Inv p n s) (hrun : s.runInterference = n) (hst : Staged n st s.pc) :
    Inv p n { s with start := st } :=
  ⟨hs.intfTime, fun _ => hrun, hst, hs.owner, hs.csCnt, hs.reg, hs.counted, hs.simple⟩

theorem Inv.create (hs : Inv p n s) (hrun : s.runInterference = n) (hi : s.pc i = .unborn)
    (hl : (i = .low ∨ i = .high) ∧ l = .lock ∨ i = .mid ∧ l = .burn ∧ 0 < n)
    (hst : Staged n st (Function.update s.pc i l)) : Inv p n { s.goto i l with start := st } := by
  have hin : i = .mid ∨ inside l = inside (s.pc i) := by
    obtain ⟨-, rfl⟩ | ⟨rfl, -⟩ := hl
    · exact .inr (by simp [hi, inside])
    · exact .inl rfl
  have hcount := hs.counted i
  rw [hi] at hcount
  refine ⟨hs.intfTime, fun _ => hrun, hst, hs.owner_update hin, ?_, fun j reg => ?_,
    fun j => ?_, ?_⟩
  · obtain ⟨rfl | rfl, rfl⟩ | ⟨rfl, rfl, -⟩ := hl <;>
      simp [State.goto, hs.csCnt, passed, hi]
  · by_cases hj : j = i
    · subst hj
      obtain ⟨-, rfl⟩ | ⟨-, rfl, -⟩ := hl <;> simp [State.goto]
    · simp only [State.goto, Function.update_of_ne hj]
      exact hs.reg j reg
  · by_cases hj : j = i
    · subst hj
      simp only [State.goto, Function.update_self]
      obtain ⟨-, rfl⟩ | ⟨rfl, rfl, hpos⟩ := hl
      · trivial
      · have := toInt_pos.mp hpos
        simp only [Counted] at hcount
        simp only [Counted, rounds]
        omega
    · simp only [State.goto, Function.update_of_ne hj]
      exact hs.counted j
  · obtain ⟨rfl | rfl, rfl⟩ | ⟨rfl, rfl, -⟩ := hl
    · simpa [State.goto] using hs.simple
    · simpa [State.goto] using hs.simple
    · rfl

theorem inv_startService (hs : Inv p n s) (h : startService s = some s') : Inv p n s' := by
  obtain ⟨hstart, hlow, hhigh, hmid, hpassed, hinterfered, hhe, hme, hle⟩ := hs.staged
  have hrun := hs.runInterference
  have hcnt := hs.csCnt
  unfold startService at h
  cases hst : s.start with
  | setInterference =>
    simp only [hst, Option.some.injEq] at h
    subst h
    refine ⟨hs.intfTime, fun _ => hs.intfTime, ?_, hs.owner, hs.csCnt, hs.reg, hs.counted,
      hs.simple⟩
    constructor <;> simp_all [stage]
  | createLow =>
    simp only [hst, Option.some.injEq] at h
    subst h
    refine hs.create (hrun (by simp [hst])) (by simp_all [stage]) (.inl ⟨.inl rfl, rfl⟩) ?_
    constructor <;> simp_all [stage]
  | spin =>
    simp only [hst, Option.some.injEq] at h
    subst h
    split_ifs with hless
    · exact hs
    · have hborn : s.pc .high = .unborn := hhigh.mpr (by simp [hst, stage])
      have hone : passed (s.pc .low) = 1 := by
        have := passed_le_one (s.pc .low)
        rw [hborn, show passed .unborn = 0 from rfl] at hcnt
        omega
      refine hs.next (hrun (by simp [hst])) ?_
      constructor <;> simp_all [stage]
  | createHigh =>
    simp only [hst, Option.some.injEq] at h
    subst h
    refine hs.create (hrun (by simp [hst])) (by simp_all [stage]) (.inl ⟨.inr rfl, rfl⟩) ?_
    constructor <;> simp_all [stage]
  | testInterference =>
    simp only [hst, Option.some.injEq] at h
    subst h
    refine hs.next (hrun (by simp [hst])) ?_
    rw [hrun (by simp [hst])]
    split_ifs with hpos
    · constructor <;> simp_all [stage]
    · constructor <;> simp_all [stage]
  | createMid =>
    simp only [hst, Option.some.injEq] at h
    subst h
    have hpos := hinterfered (.inl hst)
    refine hs.create (hrun (by simp [hst])) (by simp_all [stage]) (.inr ⟨rfl, rfl, hpos⟩) ?_
    constructor <;> simp_all [stage]
  | joinHigh =>
    simp only [hst] at h
    split_ifs at h with hjoin
    cases h
    refine hs.next (hrun (by simp [hst])) ?_
    constructor <;> simp_all [stage]
  | testJoin =>
    simp only [hst, Option.some.injEq] at h
    subst h
    refine hs.next (hrun (by simp [hst])) ?_
    rw [hrun (by simp [hst])]
    split_ifs with hpos
    · constructor <;> simp_all [stage]
    · constructor <;> simp_all [stage]
  | joinMid =>
    simp only [hst] at h
    split_ifs at h with hjoin
    cases h
    refine hs.next (hrun (by simp [hst])) ?_
    constructor <;> simp_all [stage]
  | joinLow =>
    simp only [hst] at h
    split_ifs at h with hjoin
    cases h
    refine hs.next (hrun (by simp [hst])) ?_
    constructor <;> simp_all [stage]
  | exited => simp [hst] at h

theorem inv_step (hs : Inv p n s) (h : step p s i = some s') : Inv p n s' := by
  cases i with
  | start => exact inv_startService hs h
  | high => exact inv_criticalSectionTask hs (.inr rfl) h
  | mid => exact inv_simpleTask hs h
  | low => exact inv_criticalSectionTask hs (.inl rfl) h

end Ecen5623.Inversion.Stages
