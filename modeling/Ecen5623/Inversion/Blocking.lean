import Ecen5623.Inversion.Stages
import Mathlib.Order.Bounds.Defs

/-! # How long the high service waits

While `high` waits for the mutex that `low` holds (`Waits`), the core runs others of lower priority.
With an inheriting mutex these are turns of `low` in its critical section only; without, `mid` comes
first, and `high` gets on only when `mid` has run all of its rounds (`inverted`). The longest wait
is computed exactly (`blocking_isGreatest`). None of the programs has an inheriting mutex:
`pthread3amp.c` sets the protocol of an attribute object that it does not pass on. -/

namespace Ecen5623.Inversion.Blocking

open Ecen5623.Library Ecen5623.Inversion.Services
open Ecen5623.Inversion.Stages

variable {p : Program} {n : Int32} {s s' : State} {i j : Service} {l : Pc}

/-- `high` is blocked on the mutex, which `low` holds. -/
def Waits (s : State) : Prop := s.pc .high = .lock ∧ s.owner = some .low

/-- A turn that is taken while `high` waits. -/
def Waiting (p : Program) (s : State) (i : Service) : Prop := Granted p s i ∧ Waits s

instance (s : State) : Decidable (Waits s) := inferInstanceAs (Decidable (_ ∧ _))

instance (p : Program) (s : State) (i : Service) : Decidable (Waiting p s i) :=
  inferInstanceAs (Decidable (_ ∧ _))

/-- How many turns `low` and `mid` can take in a row while `high` waits. -/
def waits (p : Program) (n : Int32) : Set ℕ :=
  {k | ∃ s as s', Reach (step p) (Granted p) (init n) s ∧
    exec (step p) (Waiting p) s as = some s' ∧ as.countP (· ≠ .start) = k}

/-- The turns of `low` from the end of `CScnt++` to that of its critical section, and all turns of
`mid`, if it comes before `low`. -/
def blocking (p : Program) (n : Int32) : ℕ :=
  if p.useMutex then
    3 * csLength + 2 + if p.protocol = .prioInherit then 0 else 3 * n.toInt.toNat
  else 0

/-! ### The turns left -/

/-- The turns that `criticalSectionTask` has left. -/
def left (bound : ℕ) : Pc → ℕ → ℕ
  | .unborn, _ | .lock, _ => 3 * bound + 5
  | .readCnt, _ => 3 * bound + 4
  | .writeCnt _, _ => 3 * bound + 3
  | .clear, _ => 3 * bound + 2
  | .burn, c => 3 * (bound - c) + 1
  | .count, c => 3 * (bound - c)
  | .test, c => 3 * (bound - c) + 2
  | .unlock, _ => 1
  | .exited, _ => 0

/-- The turns that `mid` has left. -/
def leftMid (bound : ℕ) : Pc → ℕ → ℕ
  | .unborn, _ => 3 * bound
  | l, c => left bound l c - 1

/-- The turns that `high` may have to wait. -/
def rank (p : Program) (n : Int32) (s : State) : ℕ :=
  left csLength (s.pc .low) (s.idleCount .low) +
    if p.protocol = .prioInherit then 0
    else leftMid (rounds n .mid) (s.pc .mid) (s.idleCount .mid)

theorem exists_frame {um : Bool} (h : criticalSectionTask um i s = some s') :
    ∃ l c, Frame s s' i l c := by
  unfold criticalSectionTask at h
  split at h
  · split_ifs at h <;> cases h
    · exact ⟨_, s.idleCount i, rfl, rfl, rfl, rfl, by simp [State.goto]⟩
    · exact ⟨_, _, .goto s i _⟩
  · cases h; exact ⟨_, _, .goto s i _⟩
  · cases h; exact ⟨_, s.idleCount i, rfl, rfl, rfl, rfl, by simp [State.goto]⟩
  · cases h; exact ⟨_, _, .setIdleCount s i _ _⟩
  · cases h; exact ⟨_, _, .goto s i _⟩
  · cases h; exact ⟨_, _, .setIdleCount s i _ _⟩
  · cases h; exact ⟨_, _, .goto s i _⟩
  · cases h; exact ⟨_, s.idleCount i, rfl, rfl, rfl, rfl, by simp [State.goto]⟩
  · cases h

theorem exists_frame_mid (h : simpleTask i s = some s') : ∃ l c, Frame s s' i l c := by
  unfold simpleTask at h
  split at h
  · cases h; exact ⟨_, _, .goto s i _⟩
  · cases h; exact ⟨_, _, .setIdleCount s i _ _⟩
  · cases h; exact ⟨_, _, .goto s i _⟩
  · cases h

theorem left_turn (hs : Inv p n s) (hi : i = .low ∨ i = .high) (hborn : s.pc i ≠ .unborn)
    (halive : s.pc i ≠ .exited) (hfree : s.pc i = .lock → s.owner = none) :
    ∃ s', criticalSectionTask p.useMutex i s = some s' ∧
      left csLength (s'.pc i) (s'.idleCount i) + 1 = left csLength (s.pc i) (s.idleCount i) := by
  have hcounted := hs.counted i
  have hrounds : rounds n i = csLength := by obtain rfl | rfl := hi <;> rfl
  have hcs : csLength < 2 ^ 32 := by decide
  rw [hrounds] at hcounted
  unfold criticalSectionTask
  cases hpc : s.pc i with
  | lock =>
    have hnone := hfree hpc
    by_cases hm : p.useMutex = true
    · exact ⟨_, by simp only [hm, hnone, if_true]; rfl, by simp [State.goto, left]⟩
    · exact ⟨_, by simp only [hm]; rfl, by simp [State.goto, left]⟩
  | readCnt => exact ⟨_, rfl, by simp [State.goto, left]⟩
  | writeCnt reg => exact ⟨_, rfl, by simp [State.goto, left]⟩
  | clear => exact ⟨_, rfl, by simp [State.goto, State.setIdleCount, left]⟩
  | burn => exact ⟨_, rfl, by simp [State.goto, left]⟩
  | count =>
    rw [hpc] at hcounted
    simp only [Counted] at hcounted
    refine ⟨_, rfl, ?_⟩
    simp only [State.goto, State.setIdleCount, Function.update_self, left]
    omega
  | test =>
    rw [hpc] at hcounted
    simp only [Counted] at hcounted
    refine ⟨_, rfl, ?_⟩
    simp only [State.goto, Function.update_self]
    split_ifs
    · simp [left]
    · simp only [left]; omega
  | unlock => exact ⟨_, rfl, by simp [State.goto, left]⟩
  | unborn => exact absurd hpc hborn
  | exited => exact absurd hpc halive

theorem leftMid_turn (hs : Inv p n s) (hborn : s.pc .mid ≠ .unborn) (halive : s.pc .mid ≠ .exited) :
    ∃ s', simpleTask .mid s = some s' ∧
      leftMid (rounds n .mid) (s'.pc .mid) (s'.idleCount .mid) + 1 =
        leftMid (rounds n .mid) (s.pc .mid) (s.idleCount .mid) := by
  have hcounted := hs.counted .mid
  have hsimple := hs.simple
  have hlt := rounds_lt n .mid
  obtain ⟨hpos, hrun⟩ := hs.interfering hborn
  have hun := toUnsigned_of_pos hpos
  unfold simpleTask
  cases hpc : s.pc .mid with
  | burn =>
    rw [hpc] at hcounted
    simp only [Counted] at hcounted
    refine ⟨_, rfl, ?_⟩
    simp only [State.goto, Function.update_self, leftMid, left]
    omega
  | count =>
    rw [hpc] at hcounted
    simp only [Counted] at hcounted
    refine ⟨_, rfl, ?_⟩
    simp only [State.goto, State.setIdleCount, Function.update_self, leftMid, left]
    omega
  | test =>
    rw [hpc] at hcounted
    simp only [Counted] at hcounted
    refine ⟨_, rfl, ?_⟩
    simp only [State.goto, Function.update_self, hrun, hun]
    split_ifs
    · simp only [leftMid, left]; omega
    · simp only [leftMid, left]; omega
  | unborn => exact absurd hpc hborn
  | exited => exact absurd hpc halive
  | _ => simp [hpc, Stages.simple] at hsimple

theorem left_le {l : Pc} (h : passed l = 1) (bound c : ℕ) : left bound l c ≤ 3 * bound + 2 := by
  cases l <;> simp only [passed, Nat.zero_ne_one] at h <;> simp only [left] <;> omega

theorem leftMid_le (hs : Inv p n s) :
    leftMid (rounds n .mid) (s.pc .mid) (s.idleCount .mid) ≤ 3 * n.toInt.toNat := by
  have hsimple := hs.simple
  have hcounted := hs.counted .mid
  cases hpc : s.pc .mid with
  | unborn => simp [leftMid, rounds]
  | burn | count | exited => simp only [leftMid, left, rounds]; omega
  | test =>
    rw [hpc] at hcounted
    simp only [Counted, rounds] at hcounted
    simp only [leftMid, left, rounds]
    omega
  | _ => simp [hpc, Stages.simple] at hsimple

/-! ### Who is granted a turn -/

theorem effective_of_protocol (h : p.protocol ≠ .prioInherit) : effective p s i = p.prio i :=
  if_neg fun hi => h hi.1

theorem effective_of_not_owner (h : s.owner ≠ some i) : effective p s i = p.prio i :=
  if_neg fun hi => h hi.2

/-- **Inheritance.** -/
theorem effective_low {q r : ℕ} (hprot : p.protocol = .prioInherit) (hw : Waits s)
    (hlow : s.pc .low ≠ .lock) (hq : p.prio .low = some q) (hr : p.prio .high = some r) :
    effective p s .low = some (max q r) := by
  rw [effective, if_pos ⟨hprot, hw.2⟩]
  simp [hw.1, hlow, hq, hr]

theorem Waits.step_high (hw : Waits s) (hs : Inv p n s) : step p s .high = none := by
  have hm := ((hs.owner .low).mp hw.2).1
  simp [step, criticalSectionTask, hw.1, hw.2, hm]

theorem Waits.low (hw : Waits s) (hs : Inv p n s) :
    inside (s.pc .low) = true ∧ passed (s.pc .low) = 1 ∧ 4 ≤ stage s.start := by
  have hhigh := hs.staged.high
  rw [hw.1] at hhigh
  simp only [reduceCtorEq, false_iff] at hhigh
  exact ⟨((hs.owner .low).mp hw.2).2.2, hs.staged.passed (by omega), by omega⟩

theorem Waits.left_turn (hw : Waits s) (hs : Inv p n s) :
    ∃ s', criticalSectionTask p.useMutex .low s = some s' ∧
      left csLength (s'.pc .low) (s'.idleCount .low) + 1 =
        left csLength (s.pc .low) (s.idleCount .low) := by
  have hin := (hw.low hs).1
  refine Blocking.left_turn hs (.inl rfl) ?_ ?_ ?_ <;> intro h <;> simp [h, inside] at hin

theorem Waits.not_mid (hw : Waits s) (hp : p.Ranked) (hs : Inv p n s)
    (hprot : p.protocol = .prioInherit) : ¬ Granted p s .mid := by
  obtain ⟨q, hq, m, hm, -⟩ := hp.low_mid
  obtain ⟨m', hm', r, hr, hlt⟩ := hp.mid_high
  obtain rfl : m = m' := Option.some.inj (hm.symm.trans hm')
  obtain ⟨hin, -⟩ := hw.low hs
  obtain ⟨s', hs', -⟩ := hw.left_turn hs
  have hmid : effective p s .mid = some m := by
    rw [effective_of_not_owner (by simp [hw.2]), hm]
  have hlow := effective_low hprot hw (by rintro h; simp [h, inside] at hin) hq hr
  exact not_dispatched (b := .low) hs' hmid hlow (by omega)

/-! ### A turn while the high service waits -/

theorem start_turn (hst : 4 ≤ stage s.start) (h : startService s = some s') :
    s'.idleCount = s.idleCount ∧ s'.owner = s.owner ∧ (∀ i, i ≠ .mid → s'.pc i = s.pc i) ∧
      (s'.pc .mid = s.pc .mid ∨ s.start = .createMid ∧ s'.pc .mid = .burn) ∧
      stage s.start < stage s'.start := by
  unfold startService at h
  cases hs : s.start with
  | setInterference | createLow | spin | createHigh => simp [hs, stage] at hst
  | testInterference | testJoin =>
    simp only [hs, Option.some.injEq] at h
    subst h
    refine ⟨rfl, rfl, fun _ _ => rfl, .inl rfl, ?_⟩
    split_ifs <;> simp [stage]
  | createMid =>
    simp only [hs, Option.some.injEq] at h
    subst h
    exact ⟨rfl, rfl, fun i hi => Function.update_of_ne hi _ _, .inr ⟨rfl, by simp [State.goto]⟩,
      by simp [stage]⟩
  | joinHigh | joinMid | joinLow =>
    simp only [hs, Option.ite_none_right_eq_some, Option.some.injEq] at h
    obtain ⟨-, rfl⟩ := h
    exact ⟨rfl, rfl, fun _ _ => rfl, .inl rfl, by simp [stage]⟩
  | exited => simp [hs] at h

theorem leftMid_start (hs : Inv p n s) (hst : 4 ≤ stage s.start) (h : startService s = some s') :
    leftMid (rounds n .mid) (s'.pc .mid) (s'.idleCount .mid) =
      leftMid (rounds n .mid) (s.pc .mid) (s.idleCount .mid) := by
  obtain ⟨hidle, -, -, hmid | ⟨hcreate, hmid⟩, -⟩ := start_turn hst h
  · rw [hmid, hidle]
  · have hborn : s.pc .mid = .unborn := hs.staged.mid.mpr (.inl (by simp [hcreate, stage]))
    have hcount := hs.counted .mid
    rw [hborn] at hcount
    rw [hidle, hmid, hborn, show s.idleCount .mid = 0 from hcount]
    simp [leftMid, left]

theorem rank_start (hs : Inv p n s) (hst : 4 ≤ stage s.start) (h : startService s = some s') :
    rank p n s' = rank p n s := by
  obtain ⟨hidle, -, hpc, -⟩ := start_turn hst h
  rw [rank, rank, leftMid_start hs hst h, hpc .low (by decide), hidle]

/-- Every turn that does not belong to `start` shortens the wait by one. -/
theorem rank_turn (hp : p.Ranked) (hs : Inv p n s) (hok : Waiting p s i) (hi : i ≠ .start)
    (h : step p s i = some s') : rank p n s' + 1 = rank p n s := by
  obtain ⟨hgrant, hw⟩ := hok
  unfold rank
  cases i with
  | start => exact absurd rfl hi
  | high => rw [hw.step_high hs] at h; cases h
  | low =>
    obtain ⟨t, ht, hleft⟩ := hw.left_turn hs
    obtain rfl : t = s' := Option.some.inj (ht.symm.trans h)
    obtain ⟨l, c, hf⟩ := exists_frame ht
    rw [← hleft, hf.pc, hf.idleCount]
    simp only [ne_eq, reduceCtorEq, not_false_eq_true, Function.update_of_ne]
    omega
  | mid =>
    have hprot : p.protocol ≠ .prioInherit := fun hprot => hw.not_mid hp hs hprot hgrant
    have hborn : s.pc .mid ≠ .unborn := fun hpc => by simp [step, simpleTask, hpc] at h
    have halive : s.pc .mid ≠ .exited := fun hpc => by simp [step, simpleTask, hpc] at h
    obtain ⟨t, ht, hleft⟩ := leftMid_turn hs hborn halive
    obtain rfl : t = s' := Option.some.inj (ht.symm.trans h)
    obtain ⟨l, c, hf⟩ := exists_frame_mid ht
    rw [if_neg hprot, if_neg hprot, ← hleft, hf.pc, hf.idleCount]
    simp only [ne_eq, reduceCtorEq, not_false_eq_true, Function.update_of_ne]
    omega

theorem countP_le (hp : p.Ranked) (hs : Inv p n s) {as : List Service}
    (hrun : exec (step p) (Waiting p) s as = some s') :
    as.countP (· ≠ .start) ≤ rank p n s := by
  have hle := countP_add_rank_le (rank p n) (· ≠ .start)
    (fun hs _ hstep => inv_step hs hstep) (fun {s i s'} hs hok hstep => ?_) hs hrun
  · omega
  · by_cases hi : i = .start
    · subst hi
      simpa using (rank_start hs (hok.2.low hs).2.2 hstep).le
    · simpa [hi] using (rank_turn hp hs hok hi hstep).le

/-! ### The longest wait -/

theorem left_of_not_inside (h : inside l = false) (hp : passed l = 1) (bound c : ℕ) :
    left bound l c = 0 := by
  cases l <;> simp_all [inside, passed, left]

theorem eq_of_shares (hsh : p.Shares) {q x : ℕ} (hq : p.prio .low = some q)
    (hx : p.prio .start = some x) : x = q := by
  obtain h | h := hsh
  · rw [h] at hx
    cases hx
  · exact Option.some.inj (hx.symm.trans (h.trans hq))

/-- Some thread can take a turn while `high` waits: with an inheriting mutex `low`, and otherwise
`start` up to its first join, then `mid`, and then `low`. -/
theorem exists_turn (hp : p.Ranked) (hsh : p.Shares) (hs : Inv p n s) (hw : Waits s) :
    ∃ i s', Granted p s i ∧ step p s i = some s' ∧
      (i = .low → p.protocol = .prioInherit ∨ s.pc .mid = .exited ∨ ¬ 0 < n) := by
  obtain ⟨q, hq, m, hm, hqm⟩ := hp.low_mid
  obtain ⟨m', hm', r, hr, hmr⟩ := hp.mid_high
  obtain rfl : m = m' := Option.some.inj (hm.symm.trans hm')
  obtain ⟨hin, -, hst⟩ := hw.low hs
  have hlock : s.pc .low ≠ .lock := by
    intro h
    simp [h, inside] at hin
  obtain ⟨t, ht, -⟩ := hw.left_turn hs
  by_cases hprot : p.protocol = .prioInherit
  · refine ⟨.low, t, ?_, ht, fun _ => .inl hprot⟩
    intro x hx b hb y hy
    obtain rfl : max q r = x := Option.some.inj ((effective_low hprot hw hlock hq hr).symm.trans hx)
    by_cases hb' : b = .low
    · subst hb'
      exact (Option.some.inj (hy.symm.trans hx)).le
    · rw [effective_of_not_owner (by simp [hw.2, Ne.symm hb'])] at hy
      cases b with
      | start => have := eq_of_shares hsh hq hy; omega
      | high => simp [hw.step_high hs] at hb
      | mid => have := Option.some.inj (hm.symm.trans hy); omega
      | low => exact absurd rfl hb'
  · -- the priorities are those of the threads, and `mid` comes before `start` and `low`
    have hgrant : ∀ i, i ≠ .high → (i ≠ .mid → step p s .mid = none) → Granted p s i := by
      intro i hi hmid x hx b hb y hy
      rw [effective_of_protocol hprot] at hx hy
      have hx' : q ≤ x ∧ (i = .mid → x = m) := by
        cases i with
        | start => exact ⟨(eq_of_shares hsh hq hx).ge, by simp⟩
        | high => exact absurd rfl hi
        | mid => have := Option.some.inj (hm.symm.trans hx); exact ⟨by omega, fun _ => this.symm⟩
        | low => exact ⟨(Option.some.inj (hq.symm.trans hx)).le, by simp⟩
      cases b with
      | start => exact (eq_of_shares hsh hq hy).le.trans hx'.1
      | high => simp [hw.step_high hs] at hb
      | mid =>
        by_cases hi' : i = .mid
        · exact (Option.some.inj (hy.symm.trans hm)).le.trans (hx'.2 hi').ge
        · simp [hmid hi'] at hb
      | low => exact (Option.some.inj (hy.symm.trans hq)).le.trans hx'.1
    have hidle : ∀ l, s.pc .mid = l → l = .unborn ∨ l = .exited → step p s .mid = none := by
      rintro l hl (rfl | rfl) <;> simp [step, simpleTask, hl]
    by_cases hjoin : stage s.start ≤ 5
    · have hborn := hs.staged.mid.mpr (.inl hjoin)
      obtain ⟨t', ht'⟩ : ∃ t', startService s = some t' := by
        unfold startService
        cases h : s.start <;> simp only [h, stage] at hst hjoin <;> first | omega | exact ⟨_, rfl⟩
      exact ⟨.start, t', hgrant _ (by decide) fun _ => hidle _ hborn (.inl rfl), ht', by simp⟩
    · by_cases hdone : s.pc .mid = .unborn ∨ s.pc .mid = .exited
      · refine ⟨.low, t, hgrant _ (by decide) fun _ => hidle _ rfl hdone, ht, fun _ => .inr ?_⟩
        exact hdone.symm.imp_right fun h => (hs.staged.mid.mp h).resolve_left hjoin
      · push Not at hdone
        obtain ⟨t', ht', -⟩ := leftMid_turn hs hdone.1 hdone.2
        exact ⟨.mid, t', hgrant _ (by decide) fun h => absurd rfl h, ht', by simp⟩

theorem pc_turn (hs : Inv p n s) (hw : Waits s) (h : step p s i = some s') :
    s'.pc .high = .lock ∧ (i ≠ .low → s'.pc .low = s.pc .low) ∧
      (i = .low → s'.pc .mid = s.pc .mid) ∧ (i ≠ .start → s'.start = s.start) := by
  have hkeep : ∀ {l c}, Frame s s' i l c → ∀ j, j ≠ i → s'.pc j = s.pc j := by
    intro l c hf j hj
    rw [hf.pc, Function.update_of_ne hj]
  rw [← hw.1]
  cases i with
  | start =>
    obtain ⟨-, -, hpc, -⟩ := start_turn (hw.low hs).2.2 h
    exact ⟨hpc _ (by decide), fun _ => hpc _ (by decide), by simp, by simp⟩
  | high => rw [hw.step_high hs] at h; cases h
  | mid =>
    obtain ⟨l, c, hf⟩ := exists_frame_mid h
    exact ⟨hkeep hf _ (by decide), fun _ => hkeep hf _ (by decide), by simp, fun _ => hf.start⟩
  | low =>
    obtain ⟨l, c, hf⟩ := exists_frame h
    exact ⟨hkeep hf _ (by decide), by simp, fun _ => hkeep hf _ (by decide), fun _ => hf.start⟩

theorem Waits.turn (hw : Waits s) (hs : Inv p n s) (h : step p s i = some s')
    (hin : inside (s'.pc .low) = true) : Waits s' :=
  ⟨(pc_turn hs hw h).1,
    ((inv_step hs h).owner .low).mpr ⟨((hs.owner .low).mp hw.2).1, .inl rfl, hin⟩⟩

theorem stage_le (st : Start) : stage st ≤ 10 := by cases st <;> simp [stage]

theorem exists_waiting (hp : p.Ranked) (hsh : p.Shares) (hs : Inv p n s) (hw : Waits s) :
    ∃ as s', exec (step p) (Waiting p) s as = some s' ∧
      as.countP (· ≠ .start) = rank p n s := by
  induction hm : rank p n s + (10 - stage s.start) using Nat.strongRecOn generalizing s with
  | _ m ih =>
    obtain ⟨i, s', hgrant, hstep, hlast⟩ := exists_turn hp hsh hs hw
    have hs' := inv_step hs hstep
    obtain ⟨-, hlow, hmid, hstart⟩ := pc_turn hs hw hstep
    have hrank : rank p n s' + (if i ≠ .start then 1 else 0) = rank p n s := by
      by_cases hi : i = .start
      · subst hi
        simpa using rank_start hs (hw.low hs).2.2 hstep
      · simpa [hi] using rank_turn hp hs ⟨hgrant, hw⟩ hi hstep
    by_cases hin : inside (s'.pc .low) = true
    · have hless : rank p n s' + (10 - stage s'.start) < m := by
        by_cases hi : i = .start
        · subst hi
          obtain ⟨-, -, -, -, hst⟩ := start_turn (hw.low hs).2.2 hstep
          have := stage_le s'.start
          simp only [ne_eq, not_true_eq_false, if_false] at hrank
          omega
        · simp only [ne_eq, hi, not_false_eq_true, if_true] at hrank
          rw [hstart hi]
          omega
      obtain ⟨as, t, hrun, hcount⟩ := ih _ hless hs' (hw.turn hs hstep hin) rfl
      refine ⟨i :: as, t, ?_, ?_⟩
      · rw [exec_cons ⟨hgrant, hw⟩ hstep, hrun]
      · rw [List.countP_cons, hcount]
        simpa using hrank
    · -- `low` was the last one
      have hi : i = .low := by
        by_contra hi
        rw [hlow hi] at hin
        exact hin (hw.low hs).1
      have hzero : rank p n s' = 0 := by
        have hpassed : passed (s'.pc .low) = 1 := by
          refine hs'.staged.passed ?_
          rw [hstart (by simp [hi])]
          exact (Nat.le_succ 3).trans (hw.low hs).2.2
        rw [rank, left_of_not_inside (by simpa using hin) hpassed, Nat.zero_add]
        obtain h | h | h := hlast hi
        · rw [if_pos h]
        · rw [hmid hi, h]
          simp [leftMid, left]
        · rw [hs'.staged.mid.mpr (.inr h)]
          have := mt toInt_pos.mpr h
          simp only [leftMid, rounds]
          split_ifs <;> omega
      refine ⟨[i], s', ?_, ?_⟩
      · rw [exec_cons ⟨hgrant, hw⟩ hstep, exec]
      · rw [hzero] at hrank
        simpa using hrank

/-! ### How the wait comes about -/

theorem effective_early (hs : Inv p n s) (hhigh : s.pc .high = .unborn) :
    effective p s i = p.prio i := by
  unfold effective
  split_ifs with h
  · obtain ⟨-, hi, hin⟩ := (hs.owner i).mp h.2
    have hlow : s.pc .low ≠ .lock := by
      obtain rfl | rfl := hi
      · intro hl
        simp [hl, inside] at hin
      · simp [hhigh, inside] at hin
    simp [hhigh, hlow]
  · rfl

theorem granted_early (hsh : p.Shares) (hs : Inv p n s) (hhigh : s.pc .high = .unborn)
    (hmid : s.pc .mid = .unborn) (hi : i = .start ∨ i = .low) : Granted p s i := by
  intro x hx b hb y hy
  rw [effective_early hs hhigh] at hx hy
  have hb' : b = .start ∨ b = .low := by
    cases b with
    | start => exact .inl rfl
    | high => simp [step, criticalSectionTask, hhigh] at hb
    | mid => simp [step, simpleTask, hmid] at hb
    | low => exact .inr rfl
  have hsame : y = x := by
    obtain h | h := hsh
    · obtain rfl | rfl := hi <;> obtain rfl | rfl := hb' <;> simp_all
    · obtain rfl | rfl := hi <;> obtain rfl | rfl := hb' <;> simp_all
  exact hsame.le

/-- A state in which `low` alone has been created. -/
def early (n : Int32) (st : Start) (l : Pc) (cnt : ℕ) (o : Option Service) : State where
  intfTime := n
  runInterference := n
  csCnt := cnt
  idleCount _ := 0
  owner := o
  start := st
  pc := Function.update (fun _ => .unborn) .low l

theorem exists_waits (hsh : p.Shares) (hm : p.useMutex = true) :
    ∃ s, Reach (step p) (Granted p) (init n) s ∧ Waits s ∧ s.pc .low = .clear ∧
      s.pc .mid = .unborn := by
  have hgo : ∀ {s s' : State} (i : Service), Reach (step p) (Granted p) (init n) s →
      s.pc .high = .unborn → s.pc .mid = .unborn → i = .start ∨ i = .low →
      step p s i = some s' → Reach (step p) (Granted p) (init n) s' := by
    intro s s' i h hhigh hmid hi hstep
    have hs : Inv p n s := h.invariant inv_init fun hs _ hstep => inv_step hs hstep
    exact .step h (granted_early hsh hs hhigh hmid hi) hstep
  have h1 := hgo .start .init rfl rfl (.inl rfl) rfl
  have h2 : Reach (step p) (Granted p) (init n) (early n .spin .lock 0 none) :=
    hgo .start h1 rfl rfl (.inl rfl) rfl
  have h3 : Reach (step p) (Granted p) (init n) (early n .spin .readCnt 0 (some .low)) :=
    hgo .low h2 rfl rfl (.inr rfl) (by
      simp [step, criticalSectionTask, early, hm, State.goto])
  have h4 : Reach (step p) (Granted p) (init n) (early n .spin (.writeCnt 0) 0 (some .low)) :=
    hgo .low h3 rfl rfl (.inr rfl) (by simp [step, criticalSectionTask, early, State.goto])
  have h5 : Reach (step p) (Granted p) (init n) (early n .spin .clear 1 (some .low)) :=
    hgo .low h4 rfl rfl (.inr rfl) (by simp [step, criticalSectionTask, early, State.goto])
  have h6 : Reach (step p) (Granted p) (init n) (early n .createHigh .clear 1 (some .low)) :=
    hgo .start h5 rfl rfl (.inl rfl) rfl
  exact ⟨_, hgo .start h6 rfl rfl (.inl rfl) rfl, ⟨rfl, rfl⟩, rfl, rfl⟩

/-- **The longest wait of `high`**, whatever the order of the turns that the core grants. -/
theorem blocking_isGreatest (hp : p.Ranked) (hsh : p.Shares) :
    IsGreatest (waits p n) (blocking p n) := by
  constructor
  · by_cases hm : p.useMutex = true
    · obtain ⟨s, h, hw, hlow, hmid⟩ := exists_waits (n := n) hsh hm
      have hs : Inv p n s := h.invariant inv_init fun hs _ hstep => inv_step hs hstep
      obtain ⟨as, s', hrun, hcount⟩ := exists_waiting hp hsh hs hw
      refine ⟨s, as, s', h, hrun, hcount.trans ?_⟩
      rw [rank, hlow, hmid, blocking, if_pos hm]
      rfl
    · refine ⟨init n, [], _, .init, rfl, ?_⟩
      rw [blocking, if_neg hm, List.countP_nil]
  · rintro k ⟨s, as, s', h, hrun, rfl⟩
    have hs : Inv p n s := h.invariant inv_init fun hs _ hstep => inv_step hs hstep
    cases as with
    | nil => simp
    | cons i as =>
      obtain ⟨⟨-, hw⟩, -⟩ := exec_cons_eq_some.mp hrun
      have hm := ((hs.owner .low).mp hw.2).1
      refine (countP_le hp hs hrun).trans ?_
      rw [rank, blocking, if_pos hm]
      have h1 := left_le (hw.low hs).2.1 csLength (s.idleCount .low)
      have h2 := leftMid_le hs
      split_ifs <;> omega

theorem blocking_isGreatest_programs :
    (∀ p ∈ [pthread3 1 99, pthread3ok 99 true, pthread3amp 1 99],
      IsGreatest (waits p 60) (32 + 3 * 60)) ∧
    IsGreatest (waits (pthread3ok 99 false) 60) 0 ∧
    IsGreatest (waits { pthread3amp 1 99 with
      setUp := [.mutexattrSetprotocol .prioInherit, .mutexInit true] } 60) 32 := by
  obtain ⟨h3, hok, hamp⟩ := ranked (show 1 + 3 ≤ 99 by decide) true
  refine ⟨fun p hp => ?_, ?_, ?_⟩
  · simp only [List.mem_cons, List.not_mem_nil, or_false] at hp
    obtain rfl | rfl | rfl := hp
    · exact blocking_isGreatest h3 (.inr rfl)
    · exact blocking_isGreatest hok (.inl rfl)
    · exact blocking_isGreatest hamp (.inl rfl)
  · exact blocking_isGreatest (ranked (show 1 + 3 ≤ 99 by decide) false).2.1 (.inl rfl)
  · exact blocking_isGreatest ⟨hamp.low_mid, hamp.mid_high⟩ (.inl rfl)

/-! ### Who goes first -/

theorem mid_kept (hs : Inv p n s) (h : step p s i = some s') (hborn : s.pc .mid ≠ .unborn)
    (hi : i ≠ .mid) : s'.pc .mid = s.pc .mid ∧ s'.idleCount .mid = s.idleCount .mid := by
  cases i with
  | start =>
    have hmid := mt hs.staged.mid.mpr hborn
    rw [not_or] at hmid
    obtain ⟨hidle, -, -, hkeep | ⟨hst, -⟩, -⟩ := start_turn (by omega) h
    · exact ⟨hkeep, by rw [hidle]⟩
    · simp [hst, stage] at hmid
  | high | low =>
    obtain ⟨l, c, hf⟩ := exists_frame h
    rw [hf.pc, hf.idleCount]
    exact ⟨Function.update_of_ne (by decide) _ _, Function.update_of_ne (by decide) _ _⟩
  | mid => exact absurd rfl hi

theorem mid_born (hs : Inv p n s) (h : step p s i = some s') (hborn : s.pc .mid ≠ .unborn) :
    s'.pc .mid ≠ .unborn := by
  by_cases hi : i = .mid
  · subst hi
    obtain ⟨l, c, hf⟩ := exists_frame_mid h
    rw [ne_eq, hs.staged.mid] at hborn
    rwa [ne_eq, (inv_step hs h).staged.mid, hf.start]
  · rwa [(mid_kept hs h hborn hi).1]

theorem mid_exited (hs : Inv p n s) (h : step p s i = some s') (hexit : s.pc .mid = .exited) :
    s'.pc .mid = .exited := by
  by_cases hi : i = .mid
  · subst hi
    simp [step, simpleTask, hexit] at h
  · rw [(mid_kept hs h (by simp [hexit]) hi).1, hexit]

/-- Without inheritance `low` is not granted a turn as long as `mid` has one to take. -/
theorem not_low (hp : p.Ranked) (hs : Inv p n s) (hprot : p.protocol ≠ .prioInherit)
    (hborn : s.pc .mid ≠ .unborn) (halive : s.pc .mid ≠ .exited) : ¬ Granted p s .low := by
  obtain ⟨q, hq, m, hm, hlt⟩ := hp.low_mid
  obtain ⟨t, ht, -⟩ := leftMid_turn hs hborn halive
  exact not_dispatched (b := .mid) ht ((effective_of_protocol hprot).trans hq)
    ((effective_of_protocol hprot).trans hm) hlt

/-- **Inversion.** Once `mid` is there while `high` waits, `high` gets on only after `mid` has run
all its rounds, unless the mutex inherits; in that case `mid` does not take a turn. -/
theorem inverted (hp : p.Ranked) (h : Reach (step p) (Granted p) (init n) s) (hw : Waits s)
    (hborn : s.pc .mid ≠ .unborn) :
    (p.protocol = .prioNone → ∀ s', Reach (step p) (Granted p) s s' → ¬ Waits s' →
      s'.pc .mid = .exited ∧ s'.idleCount .mid = n.toInt.toNat) ∧
    (p.protocol = .prioInherit → ∀ s', Reach (step p) (Waiting p) s s' →
      s'.pc .mid = s.pc .mid ∧ s'.idleCount .mid = s.idleCount .mid) := by
  have hs : Inv p n s := h.invariant inv_init fun hs _ hstep => inv_step hs hstep
  constructor
  · intro hprot s' hafter hnot
    have hkept : Inv p n s' ∧ s'.pc .mid ≠ .unborn ∧ (Waits s' ∨ s'.pc .mid = .exited) := by
      refine hafter.invariant
        (P := fun s => Inv p n s ∧ s.pc .mid ≠ .unborn ∧ (Waits s ∨ s.pc .mid = .exited))
        ⟨hs, hborn, .inl hw⟩ ?_
      rintro u i u' ⟨hu, hub, hcase⟩ hgrant hstep
      refine ⟨inv_step hu hstep, mid_born hu hstep hub, ?_⟩
      by_cases hexit : u.pc .mid = .exited
      · exact .inr (mid_exited hu hstep hexit)
      · have huw := hcase.resolve_right hexit
        have hi : i ≠ .low := by
          rintro rfl
          exact not_low hp hu (by simp [hprot]) hub hexit hgrant
        refine .inl (huw.turn hu hstep ?_)
        rw [(pc_turn hu huw hstep).2.1 hi]
        exact (huw.low hu).1
    have hexit := hkept.2.2.resolve_left hnot
    have hcount := hkept.1.counted .mid
    rw [hexit] at hcount
    exact ⟨hexit, hcount⟩
  · intro hprot s' hafter
    have hkept : Inv p n s' ∧ s'.pc .mid = s.pc .mid ∧ s'.idleCount .mid = s.idleCount .mid := by
      refine hafter.invariant (P := fun u => Inv p n u ∧ u.pc .mid = s.pc .mid ∧
        u.idleCount .mid = s.idleCount .mid) ⟨hs, rfl, rfl⟩ ?_
      rintro u i u' ⟨hu, hpc, hidle⟩ ⟨hgrant, huw⟩ hstep
      have hi : i ≠ .mid := by
        rintro rfl
        exact huw.not_mid hp hu hprot hgrant
      obtain ⟨hpc', hidle'⟩ := mid_kept hu hstep (by rwa [hpc]) hi
      exact ⟨inv_step hu hstep, hpc'.trans hpc, hidle'.trans hidle⟩
    exact hkept.2

/-- `mid` is created while `high` waits for `low`, which is at its `idleCount[idleIdx]=0`. -/
def invertedRun : List Service :=
  [.start, .start, .low, .low, .low, .start, .start, .start, .start]

theorem inverted_amp : ∃ s,
    Reach (step (pthread3amp 1 99)) (Granted (pthread3amp 1 99)) (init 3) s ∧
      Waits s ∧ s.pc .mid = .burn ∧
      ∀ s', Reach (step (pthread3amp 1 99)) (Granted (pthread3amp 1 99)) s s' → ¬ Waits s' →
        s'.pc .mid = .exited ∧ s'.idleCount .mid = 3 := by
  obtain ⟨s, h, hs⟩ := Reach.exists_of_exec
    (show (exec (step (pthread3amp 1 99)) (Granted (pthread3amp 1 99)) (init 3) invertedRun).map
      (fun s : State => (s.pc .high, s.owner, s.pc .mid)) = some (.lock, some .low, .burn) by
      decide)
  obtain ⟨hhigh, howner, hmid⟩ : s.pc .high = .lock ∧ s.owner = some .low ∧ s.pc .mid = .burn := by
    simpa using hs
  refine ⟨s, h, ⟨hhigh, howner⟩, hmid, ?_⟩
  exact (inverted (ranked (show 1 + 3 ≤ 99 by decide) true).2.2 h ⟨hhigh, howner⟩
    (by simp [hmid])).1 rfl

end Ecen5623.Inversion.Blocking
