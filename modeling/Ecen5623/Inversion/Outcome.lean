import Ecen5623.Inversion.Blocking

/-! # What becomes of the services

If `start` does not come before `low` on the core, the programs cannot get stuck: from every state
the run can go on until all threads have exited, with both critical sections counted, the mutex free
and all rounds run (`exists_finished`). In `pthread3ok_spins.c` it does, and `low` never gets to
take the mutex that `start` waits for it to take (`spun`). -/

namespace Ecen5623.Inversion.Outcome

open Ecen5623.Library Ecen5623.Inversion.Services Ecen5623.Inversion.Stages
open Ecen5623.Inversion.Blocking

variable {p : Program} {n : Int32} {s s' : State} {i j : Service} {l : Pc}

/-! ### What is left to do -/

/-- The turns that are left, but for those in which `start` spins. -/
def total (n : Int32) (s : State) : ℕ :=
  left csLength (s.pc .low) (s.idleCount .low) + left csLength (s.pc .high) (s.idleCount .high) +
    leftMid (rounds n .mid) (s.pc .mid) (s.idleCount .mid) + (10 - stage s.start)

/-- `start` waits for `low` to count its critical section. -/
def Spins (s : State) : Prop := s.start = .spin ∧ s.csCnt < 1

theorem alive_of_step {um : Bool} (h : criticalSectionTask um i s = some s') :
    s.pc i ≠ .unborn ∧ s.pc i ≠ .exited := by
  constructor <;> intro hpc <;> simp [criticalSectionTask, hpc] at h

theorem free_of_step (hm : p.useMutex = true ∨ s.owner = none)
    (h : criticalSectionTask p.useMutex i s = some s') (hpc : s.pc i = .lock) :
    s.owner = none := by
  obtain hm | hm := hm
  · by_contra hne
    simp [criticalSectionTask, hpc, hm, hne] at h
  · exact hm

theorem Inv.owner_none (hs : Inv p n s) (hm : p.useMutex ≠ true) : s.owner = none := by
  cases ho : s.owner with
  | none => rfl
  | some i => exact absurd ((hs.owner i).mp ho).1 hm

theorem total_start (hs : Inv p n s) (h : startService s = some s') (hspin : ¬ Spins s) :
    total n s' < total n s := by
  have hlow := hs.staged.low
  have hhigh := hs.staged.high
  by_cases hst : 4 ≤ stage s.start
  · obtain ⟨hidle, -, hpc, -, hlt⟩ := start_turn hst h
    have := stage_le s'.start
    rw [total, total, leftMid_start hs hst h, hidle, hpc .low (by decide), hpc .high (by decide)]
    omega
  · unfold startService at h
    cases hst' : s.start with
    | setInterference =>
      simp only [hst', Option.some.injEq] at h
      subst h
      simp [total, hst', stage]
    | createLow =>
      simp only [hst', Option.some.injEq] at h
      subst h
      have hborn := hlow.mpr (by simp [hst', stage])
      simp [total, hst', stage, State.goto, hborn, left]
    | spin =>
      simp only [hst', Option.some.injEq] at h
      subst h
      rw [if_neg fun hless => hspin ⟨hst', hless⟩]
      simp [total, hst', stage]
    | createHigh =>
      simp only [hst', Option.some.injEq] at h
      subst h
      have hborn := hhigh.mpr (by simp [hst', stage])
      simp [total, hst', stage, State.goto, hborn, left]
    | _ => simp [hst', stage] at hst

theorem total_turn (hs : Inv p n s) (h : step p s i = some s') (hi : i = .start → ¬ Spins s) :
    total n s' < total n s := by
  have htask : ∀ {k}, criticalSectionTask p.useMutex k s = some s' → k = .low ∨ k = .high →
      left csLength (s'.pc k) (s'.idleCount k) + 1 = left csLength (s.pc k) (s.idleCount k) := by
    intro k hk hkind
    have hm : p.useMutex = true ∨ s.owner = none :=
      or_iff_not_imp_left.mpr fun hm => Inv.owner_none hs hm
    obtain ⟨hborn, halive⟩ := alive_of_step hk
    obtain ⟨t, ht, hleft⟩ := left_turn hs hkind hborn halive (free_of_step hm hk)
    obtain rfl : t = s' := Option.some.inj (ht.symm.trans hk)
    exact hleft
  cases i with
  | start => exact total_start hs h (hi rfl)
  | high =>
    obtain ⟨l, c, hf⟩ := exists_frame h
    rw [total, total, ← htask h (.inr rfl), hf.pc, hf.idleCount, hf.start]
    simp only [ne_eq, reduceCtorEq, not_false_eq_true, Function.update_of_ne]
    omega
  | mid =>
    have hborn : s.pc .mid ≠ .unborn := fun hpc => by simp [step, simpleTask, hpc] at h
    have halive : s.pc .mid ≠ .exited := fun hpc => by simp [step, simpleTask, hpc] at h
    obtain ⟨t, ht, hleft⟩ := leftMid_turn hs hborn halive
    obtain rfl : t = s' := Option.some.inj (ht.symm.trans h)
    obtain ⟨l, c, hf⟩ := exists_frame_mid ht
    rw [total, total, ← hleft, hf.pc, hf.idleCount, hf.start]
    simp only [ne_eq, reduceCtorEq, not_false_eq_true, Function.update_of_ne]
    omega
  | low =>
    obtain ⟨l, c, hf⟩ := exists_frame h
    rw [total, total, ← htask h (.inl rfl), hf.pc, hf.idleCount, hf.start]
    simp only [ne_eq, reduceCtorEq, not_false_eq_true, Function.update_of_ne]
    omega

/-! ### The way to the end -/

theorem finished_of_exited (hs : Inv p n s) (hstart : s.start = .exited) : Finished n s := by
  obtain ⟨-, -, -, hmid, -, -, hhe, hme, hle⟩ := hs.staged
  rw [hstart] at hmid hhe hme hle
  have hlow := hle (by simp [stage])
  have hhigh := hhe (by simp [stage])
  have hcl := hs.counted .low
  have hch := hs.counted .high
  have hcm := hs.counted .mid
  rw [hlow] at hcl
  rw [hhigh] at hch
  refine ⟨hstart, hlow, hhigh, ?_, ?_, ?_, hcl, hch, ?_⟩
  · split_ifs with hpos
    · exact hme (by simp [stage]) hpos
    · exact hmid.mpr (.inr hpos)
  · cases ho : s.owner with
    | none => rfl
    | some i =>
      obtain ⟨-, rfl | rfl, hin⟩ := (hs.owner i).mp ho
      · simp [hlow, inside] at hin
      · simp [hhigh, inside] at hin
  · rw [hs.csCnt, hlow, hhigh]
    rfl
  · by_cases hpos : 0 < n
    · rw [hme (by simp [stage]) hpos] at hcm
      exact hcm
    · rw [hmid.mpr (.inr hpos)] at hcm
      have := mt toInt_pos.mpr hpos
      simp only [Counted] at hcm
      omega

theorem finished_of_stuck (hs : Inv p n s) (h : ∀ i, step p s i = none) : Finished n s := by
  have hend : ∀ i, i = .low ∨ i = .high → (s.pc i = .lock → s.owner = none) →
      s.pc i = .unborn ∨ s.pc i = .exited := by
    intro i hi hfree
    by_contra hne
    rw [not_or] at hne
    obtain ⟨t, ht, -⟩ := left_turn hs hi hne.1 hne.2 hfree
    obtain rfl | rfl := hi
    · exact absurd (h .low) (by simp [step, ht])
    · exact absurd (h .high) (by simp [step, ht])
  have howner : s.owner = none := by
    cases ho : s.owner with
    | none => rfl
    | some i =>
      obtain ⟨-, hi, hin⟩ := (hs.owner i).mp ho
      have hne : s.pc i ≠ .lock := by
        intro hpc
        simp [hpc, inside] at hin
      obtain hpc | hpc := hend i hi fun hpc => absurd hpc hne
      · simp [hpc, inside] at hin
      · simp [hpc, inside] at hin
  have hlow := hend .low (.inl rfl) fun _ => howner
  have hhigh := hend .high (.inr rfl) fun _ => howner
  have hmid : s.pc .mid = .unborn ∨ s.pc .mid = .exited := by
    by_contra hne
    rw [not_or] at hne
    obtain ⟨t, ht, -⟩ := leftMid_turn hs hne.1 hne.2
    exact absurd (h .mid) (by simp [step, ht])
  have hstart : s.start = .exited := by
    have hnone := h .start
    simp only [step, startService] at hnone
    obtain ⟨-, hlow', hhigh', hmid', -, hinterfered, -⟩ := hs.staged
    cases hst : s.start with
    | joinHigh =>
      have hexit := hhigh.resolve_left fun hpc => by simp [hst, hpc, stage] at hhigh'
      simp [hst, hexit] at hnone
    | joinMid =>
      have hpos := hinterfered (.inr hst)
      have hexit := hmid.resolve_left fun hpc => by simp [hst, hpc, hpos, stage] at hmid'
      simp [hst, hexit] at hnone
    | joinLow =>
      have hexit := hlow.resolve_left fun hpc => by simp [hst, hpc, stage] at hlow'
      simp [hst, hexit] at hnone
    | exited => rfl
    | _ => simp [hst] at hnone
  exact finished_of_exited hs hstart

/-- While `start` spins, `low` is on its way to the end of `CScnt++`. -/
theorem exists_low (hyield : p.Yields) (hs : Inv p n s) (hspin : Spins s) :
    ∃ s', Granted p s .low ∧ step p s .low = some s' := by
  obtain ⟨-, hlow, hhigh, hmid, -⟩ := hs.staged
  rw [hspin.1] at hlow hhigh hmid
  have hborn : s.pc .high = .unborn := hhigh.mpr (by simp [stage])
  have hborn' : s.pc .mid = .unborn := hmid.mpr (.inl (by simp [stage]))
  have hcnt : passed (s.pc .low) = 0 := by
    have := hs.csCnt
    have := hspin.2
    omega
  obtain ⟨t, ht, -⟩ := left_turn hs (.inl rfl) (by rw [ne_eq, hlow]; simp [stage])
    (fun hpc => by simp [hpc, passed] at hcnt) fun hpc => by
      cases ho : s.owner with
      | none => rfl
      | some i =>
        obtain ⟨-, rfl | rfl, hin⟩ := (hs.owner i).mp ho
        · simp [hpc, inside] at hin
        · simp [hborn, inside] at hin
  refine ⟨t, ?_, ht⟩
  intro x hx b hb y hy
  rw [effective_early hs hborn] at hx hy
  cases b with
  | start => exact hyield y hy x hx
  | high => simp [step, criticalSectionTask, hborn] at hb
  | mid => simp [step, simpleTask, hborn'] at hb
  | low => exact (Option.some.inj (hy.symm.trans hx)).le

/-- **The runs of a program whose `start` does not come before `low` can be completed.** -/
theorem exists_finished (hyield : p.Yields) (hs : Inv p n s) :
    ∃ s', Reach (step p) (Granted p) s s' ∧ Finished n s' := by
  have hend : ∃ s', Reach (step p) (Granted p) s s' ∧ Inv p n s' ∧ Finished n s' := by
    refine Reach.exists_of_rank (total n) (fun s hs => ?_) hs
    by_cases hspin : Spins s
    · obtain ⟨s', hgrant, hstep⟩ := exists_low hyield hs hspin
      exact .inr ⟨.low, s', hgrant, hstep, inv_step hs hstep, total_turn hs hstep (by simp)⟩
    · by_cases hstuck : ∀ i, step p s i = none
      · exact .inl (finished_of_stuck hs hstuck)
      · push Not at hstuck
        obtain ⟨i, hi⟩ := hstuck
        obtain ⟨t, ht⟩ := Option.ne_none_iff_exists'.mp hi
        obtain ⟨j, hj, hgrant⟩ : ∃ j, (step p s j).isSome ∧ Granted p s j := exists_dispatched ht
        obtain ⟨s', hstep⟩ := Option.isSome_iff_exists.mp hj
        exact .inr ⟨j, s', hgrant, hstep, inv_step hs hstep, total_turn hs hstep fun _ => hspin⟩
  obtain ⟨s', hafter, -, hend⟩ := hend
  exact ⟨s', hafter, hend⟩

/-! ### A start service that keeps the core -/

/-- `start` spins, and `low` has not come to take the mutex. -/
structure Spun (s : State) : Prop where
  stage : stage s.start ≤ 2
  low : s.pc .low = .unborn ∨ s.pc .low = .lock
  csCnt : s.csCnt = 0
  owner : s.owner = none

theorem Spun.isSome (hs : Spun s) : (step p s .start).isSome := by
  have hst := hs.stage
  unfold step startService
  cases h : s.start <;> simp only [h, Stages.stage] at hst <;> first | omega | rfl

theorem spun_step (hkeep : ¬ p.Yields) (hs : Inv p n s) (hspun : Spun s) (hgrant : Granted p s i)
    (h : step p s i = some s') : Spun s' := by
  have hhigh := hs.staged.high.mpr (hspun.stage.trans (by decide))
  have hmid := hs.staged.mid.mpr (.inl (hspun.stage.trans (by decide)))
  cases i with
  | start =>
    obtain ⟨hst, hlow, hcnt, howner⟩ := hspun
    simp only [step, startService] at h
    cases hst' : s.start with
    | setInterference =>
      simp only [hst', Option.some.injEq] at h
      subst h
      exact ⟨by simp [Stages.stage], hlow, hcnt, howner⟩
    | createLow =>
      simp only [hst', Option.some.injEq] at h
      subst h
      exact ⟨by simp [Stages.stage], .inr (by simp [State.goto]), hcnt, howner⟩
    | spin =>
      simp only [hst', hcnt, zero_lt_one, if_true, Option.some.injEq] at h
      subst h
      exact ⟨hst, hlow, hcnt, howner⟩
    | _ => simp [hst', Stages.stage] at hst
  | high => simp [step, criticalSectionTask, hhigh] at h
  | mid => simp [step, simpleTask, hmid] at h
  | low =>
    simp only [Program.Yields, not_forall] at hkeep
    obtain ⟨x, hx, y, hy, hlt⟩ := hkeep
    obtain ⟨t, ht⟩ := Option.isSome_iff_exists.mp (hspun.isSome (p := p))
    exact absurd hgrant (not_dispatched ht ((effective_early hs hhigh).trans hy)
      ((effective_early hs hhigh).trans hx) (not_le.mp hlt))

theorem spun_of_reach (hkeep : ¬ p.Yields) (h : Reach (step p) (Granted p) (init n) s) :
    Spun s := by
  have hspun : Inv p n s ∧ Spun s := by
    refine h.invariant (P := fun s => Inv p n s ∧ Spun s)
      ⟨inv_init, by simp [init, Stages.stage], .inl rfl, rfl, rfl⟩ ?_
    rintro s i s' ⟨hs, hspun⟩ hgrant hstep
    exact ⟨inv_step hs hstep, spun_step hkeep hs hspun hgrant hstep⟩
  exact hspun.2

/-- **Either every run can be completed, or no run gets past the first spinning**; of the programs
the latter is `pthread3ok_spins.c`. -/
theorem finishes_iff :
    (p.Yields ↔ ∀ s, Reach (step p) (Granted p) (init n) s →
      ∃ s', Reach (step p) (Granted p) s s' ∧ Finished n s') ∧
    (¬ p.Yields ↔ ∀ s, Reach (step p) (Granted p) (init n) s → Spun s) ∧
    ∀ {rtMinPrio rtMaxPrio : ℕ}, rtMinPrio + 3 ≤ rtMaxPrio → ∀ useMutex,
      (pthread3 rtMinPrio rtMaxPrio).Yields ∧ (pthread3ok rtMaxPrio useMutex).Yields ∧
        (pthread3amp rtMinPrio rtMaxPrio).Yields ∧ ¬ (pthread3okSpins rtMaxPrio).Yields := by
  have hfinish : p.Yields → ∀ s, Reach (step p) (Granted p) (init n) s →
      ∃ s', Reach (step p) (Granted p) s s' ∧ Finished n s' := by
    intro hyield s h
    exact exists_finished hyield (h.invariant inv_init fun hs _ hstep => inv_step hs hstep)
  have hnot : ∀ {s}, Spun s → ¬ Finished n s := by
    intro s hspun hend
    have := hspun.csCnt.symm.trans hend.csCnt
    omega
  refine ⟨⟨hfinish, fun h => ?_⟩, ⟨fun hkeep s h => spun_of_reach hkeep h, fun h hyield => ?_⟩,
    fun hprio => yields hprio⟩
  · by_contra hkeep
    obtain ⟨s', hafter, hend⟩ := h _ .init
    exact hnot (spun_of_reach hkeep hafter) hend
  · obtain ⟨s', hafter, hend⟩ := hfinish hyield _ .init
    exact hnot (h s' hafter) hend

/-- The programs with the priorities from 1 to 99. -/
theorem finishes_iff_programs :
    (pthread3 1 99).Yields ∧ (pthread3ok 99 true).Yields ∧ (pthread3amp 1 99).Yields ∧
      ¬ (pthread3okSpins 99).Yields :=
  (finishes_iff (p := pthread3 1 99) (n := 3)).2.2 (by decide) true

end Ecen5623.Inversion.Outcome
