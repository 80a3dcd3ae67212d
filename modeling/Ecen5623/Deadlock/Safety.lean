import Ecen5623.Deadlock.Timeout
import Mathlib.Data.Nat.Notation

/-! # When the time-outs are harmless

A thread that does not hold its first resource must not let its second attempt decide anything: the
attempt has to succeed, and `got_one` must not be left over from an earlier round. `Proceeds` says
that of one turn. The runs whose turns all satisfy it are safe (`safe_of_proceeds`), and after one
turn that does not the thread's own next turns lead to an unsafe state
(`unsafe_of_not_proceeds`). -/

namespace Ecen5623.Deadlock.Safety

open Ecen5623.Library Ecen5623.Deadlock.Timeout

variable {s s' : State} {i j : Thread} {r : Rsrc} {l : Local}

/-! ### The invariant -/

/-- The value a thread has loaded, and the resource it counts. -/
def loaded (i : Thread) : Pc → Option (Rsrc × ℤ)
  | .countOne (some v) => some (i.one, v)
  | .countTwo (some v) => some (i.two, v)
  | .dropOne (some v) _ => some (i.one, v)
  | .releaseTwo (some v) => some (i.two, v)
  | .releaseOne (some v) => some (i.one, v)
  | _ => none

/-- Does thread `i` hold `r`? -/
def holds (s : State) (i : Thread) (r : Rsrc) : Bool := s.owner r = some i

/-- The flags of a thread against what it holds: `h₁` its first resource, `h₂` its second. -/
def Sound (l : Local) (h₁ h₂ : Bool) : Prop :=
  match l.pc with
  | .lockOne => h₁ = false ∧ h₂ = l.gotTwo ∧ (l.gotOne && l.gotTwo) = false
  | .countOne _ => h₁ = true ∧ h₂ = l.gotTwo
  | .testOne => h₂ = l.gotTwo ∧ (l.gotOne && l.gotTwo) = (h₁ && h₂) ∧ (h₁ → l.gotOne)
  | .lockTwo => h₂ = l.gotTwo ∧ (l.gotOne && l.gotTwo) = false ∧ (h₁ → l.gotOne)
  | .countTwo _ => h₁ = l.gotOne ∧ h₂ = true
  | .testTwo => h₁ = l.gotOne ∧ h₂ = true ∧ l.gotTwo = true
  | .dropOne _ _ => h₁ = true ∧ h₂ = false ∧ l.gotTwo = false
  | .backOff _ => h₁ = true ∧ h₂ = false ∧ l.gotTwo = false
  | .releaseTwo _ => h₁ = true ∧ h₂ = true
  | .unlockTwo => h₁ = true ∧ h₂ = true
  | .releaseOne _ => h₁ = true
  | .unlockOne => h₁ = true
  | .exited => True

/-- What the counter of a resource held by `i` shows. -/
def shown (i : Thread) (l : Local) (r : Rsrc) : ℤ := if l.pc.lags i = some r then 0 else 1

/-- A thread and the counters of what it holds. -/
structure Good (s : State) (i : Thread) (l : Local) : Prop where
  sound : Sound l (holds s i i.one) (holds s i i.two)
  count : ∀ r, s.owner r = some i → s.rsrcCnts r = shown i l r
  reg : ∀ r v, s.owner r = some i → loaded i l.pc = some (r, v) → v = s.rsrcCnts r

/-- Both threads are good and the counter of a free resource is `0`. -/
structure Inv (s : State) : Prop where
  good : ∀ i, Good s i (s.threads i)
  free : ∀ r, s.owner r = none → s.rsrcCnts r = 0

/-! ### Frames -/

@[simp] theorem holds_eq_true : holds s i r = true ↔ s.owner r = some i := by simp [holds]

theorem one_ne_two : i.one ≠ i.two := by cases i <;> decide

theorem eq_one_or_two (i : Thread) (r : Rsrc) : r = i.one ∨ r = i.two := by
  cases i <;> cases r <;> decide

theorem Good.frame (h : Good s j l) (hown : ∀ r, s'.owner r = some j ↔ s.owner r = some j)
    (hcnt : ∀ r, s.owner r = some j → s'.rsrcCnts r = s.rsrcCnts r) : Good s' j l where
  sound := by
    have hh : ∀ r, holds s' j r = holds s j r := fun r => by
      rw [Bool.eq_iff_iff, holds_eq_true, holds_eq_true, hown]
    rw [hh, hh]
    exact h.sound
  count r hr := by rw [hcnt r ((hown r).1 hr), h.count r ((hown r).1 hr)]
  reg r v hr hv := by rw [hcnt r ((hown r).1 hr), h.reg r v ((hown r).1 hr) hv]

theorem Inv.put (hs : Inv s) (hl : Sound l (holds s i i.one) (holds s i i.two))
    (hlag : l.pc.lags i = (s.threads i).pc.lags i)
    (hreg : ∀ r v, loaded i l.pc = some (r, v) → v = s.rsrcCnts r) : Inv (s.put i l) where
  good j := by
    by_cases hj : j = i
    · subst hj
      rw [State.put_threads_self]
      refine ⟨hl, fun r hr => ?_, fun r v _ hv => hreg r v hv⟩
      rw [shown, hlag]
      exact (hs.good j).count r hr
    · rw [State.put_threads_ne hj]
      exact (hs.good j).frame (fun _ => Iff.rfl) fun _ _ => rfl
  free := hs.free

theorem Inv.acquire (hs : Inv s) (hr : s.owner r = none)
    (hl : Sound l (holds (s.setOwner r (some i)) i i.one) (holds (s.setOwner r (some i)) i i.two))
    (hlag₀ : (s.threads i).pc.lags i = none) (hlag : l.pc.lags i = some r)
    (hreg : loaded i l.pc = none) : Inv ((s.setOwner r (some i)).put i l) where
  good j := by
    by_cases hj : j = i
    · subst hj
      rw [State.put_threads_self]
      refine ⟨hl, fun r' hr' => ?_, fun r' v _ hv => by rw [hreg] at hv; cases hv⟩
      by_cases he : r' = r
      · subst he
        rw [shown, hlag, if_pos rfl]
        exact hs.free r' hr
      · rw [shown, hlag, if_neg (by simpa using Ne.symm he)]
        have hc := (hs.good j).count r' (by simpa [State.setOwner_owner_ne he] using hr')
        rwa [shown, hlag₀, if_neg (by simp)] at hc
    · rw [State.put_threads_ne hj]
      refine (hs.good j).frame (fun r' => ?_) fun _ _ => rfl
      by_cases he : r' = r
      · subst he
        simpa [hr] using Ne.symm hj
      · rw [State.put_owner, State.setOwner_owner_ne he]
  free r' hr' := by
    by_cases he : r' = r
    · subst he
      simp at hr'
    · exact hs.free r' (by simpa [State.setOwner_owner_ne he] using hr')

/-- The holder stores the value it has loaded, up or down by the difference it has to show. -/
theorem Inv.store (hs : Inv s) {v w : ℤ} (hr : s.owner r = some i)
    (hv : loaded i (s.threads i).pc = some (r, v))
    (hl : Sound l (holds s i i.one) (holds s i i.two))
    (hw : w - v = shown i l r - shown i (s.threads i) r)
    (hlag : ∀ r' ≠ r, l.pc.lags i ≠ some r' ∧ (s.threads i).pc.lags i ≠ some r')
    (hreg : loaded i l.pc = none) : Inv ((s.store r w).put i l) where
  good j := by
    by_cases hj : j = i
    · subst hj
      rw [State.put_threads_self]
      refine ⟨hl, fun r' hr' => ?_, fun r' v _ hv => by rw [hreg] at hv; cases hv⟩
      by_cases he : r' = r
      · subst he
        have hc := (hs.good j).count r' hr
        rw [← (hs.good j).reg r' v hr hv] at hc
        rw [State.put_rsrcCnts, State.store_rsrcCnts_self]
        omega
      · have hc := (hs.good j).count r' hr'
        rw [shown, if_neg (hlag r' he).2] at hc
        rw [shown, if_neg (hlag r' he).1, ← hc]
        exact State.store_rsrcCnts_ne he
    · rw [State.put_threads_ne hj]
      refine (hs.good j).frame (fun _ => Iff.rfl) fun r' hr' => State.store_rsrcCnts_ne ?_
      rintro rfl
      rw [hr] at hr'
      exact hj (Option.some.inj hr').symm
  free r' hr' := by
    have he : r' ≠ r := by
      rintro rfl
      simp [hr] at hr'
    exact (State.store_rsrcCnts_ne he).trans (hs.free r' hr')

theorem Inv.countUp (hs : Inv s) {v : ℤ} (hr : s.owner r = some i)
    (hv : loaded i (s.threads i).pc = some (r, v))
    (hl : Sound l (holds s i i.one) (holds s i i.two))
    (hlag₀ : (s.threads i).pc.lags i = some r) (hlag : l.pc.lags i = none)
    (hreg : loaded i l.pc = none) : Inv ((s.store r (v + 1)).put i l) := by
  refine hs.store hr hv hl ?_ (fun r' he => ?_) hreg
  · rw [shown, shown, hlag₀, hlag, if_pos rfl, if_neg (by simp)]
    omega
  · rw [hlag₀, hlag]
    exact ⟨by simp, by simpa using Ne.symm he⟩

theorem Inv.countDown (hs : Inv s) {v : ℤ} (hr : s.owner r = some i)
    (hv : loaded i (s.threads i).pc = some (r, v))
    (hl : Sound l (holds s i i.one) (holds s i i.two))
    (hlag₀ : (s.threads i).pc.lags i = none) (hlag : l.pc.lags i = some r)
    (hreg : loaded i l.pc = none) : Inv ((s.store r (v - 1)).put i l) := by
  refine hs.store hr hv hl ?_ (fun r' he => ?_) hreg
  · rw [shown, shown, hlag₀, hlag, if_pos rfl, if_neg (by simp)]
    omega
  · rw [hlag₀, hlag]
    exact ⟨by simpa using Ne.symm he, by simp⟩

theorem Inv.release (hs : Inv s) (hr : s.owner r = some i)
    (hl : Sound l (holds (s.setOwner r none) i i.one) (holds (s.setOwner r none) i i.two))
    (hlag₀ : (s.threads i).pc.lags i = some r) (hlag : l.pc.lags i = none)
    (hreg : loaded i l.pc = none) : Inv ((s.setOwner r none).put i l) where
  good j := by
    by_cases hj : j = i
    · subst hj
      rw [State.put_threads_self]
      refine ⟨hl, fun r' hr' => ?_, fun r' v _ hv => by rw [hreg] at hv; cases hv⟩
      have he : r' ≠ r := by
        rintro rfl
        simp at hr'
      have hc := (hs.good j).count r' (by simpa [State.setOwner_owner_ne he] using hr')
      rw [shown, hlag₀, if_neg (by simpa using Ne.symm he)] at hc
      rw [shown, hlag, if_neg (by simp)]
      exact hc
    · rw [State.put_threads_ne hj]
      refine (hs.good j).frame (fun r' => ?_) fun _ _ => rfl
      by_cases he : r' = r
      · subst he
        simpa [hr] using Ne.symm hj
      · rw [State.put_owner, State.setOwner_owner_ne he]
  free r' hr' := by
    by_cases he : r' = r
    · subst he
      have hc := (hs.good i).count r' hr
      rwa [shown, hlag₀, if_pos rfl] at hc
    · exact hs.free r' (by simpa [State.setOwner_owner_ne he] using hr')

theorem Inv.test (hs : Inv s) {next : Pc} (hlag₀ : (s.threads i).pc.lags i = none)
    (hb : (l.gotOne && l.gotTwo) = true →
      holds s i i.one = true ∧ holds s i i.two = true)
    (hl : (l.gotOne && l.gotTwo) = false →
      Sound { l with pc := next } (holds s i i.one) (holds s i i.two))
    (hlag : next.lags i = none) (hreg : loaded i next = none) :
    Inv (s.put i (testBoth l next)) := by
  unfold testBoth
  cases hboth : l.gotOne && l.gotTwo with
  | true => exact hs.put (hb hboth) hlag₀.symm (by simp [loaded])
  | false => exact hs.put (hl hboth) (hlag.trans hlag₀.symm) (by simp [hreg])

/-! ### A turn -/

/-- If the thread at its second attempt does not hold its first resource, the attempt succeeds and
`got_one` is not set. -/
def Proceeds (s : State) (t : Turn) : Prop :=
  (s.threads t.1).pc = .lockTwo → s.owner t.1.one ≠ some t.1 →
    t.2 = .zero ∧ (s.threads t.1).gotOne = false

instance (s : State) (t : Turn) : Decidable (Proceeds s t) :=
  inferInstanceAs (Decidable (_ = _ → _ ≠ _ → _ ∧ _ = _))

theorem holds_setOwner_self (o : Option Thread) :
    holds (s.setOwner r o) i r = decide (o = some i) := by simp [holds]

theorem holds_setOwner_one (o : Option Thread) :
    holds (s.setOwner i.two o) i i.one = holds s i i.one := by
  simp [holds, State.setOwner_owner_ne one_ne_two]

theorem holds_setOwner_two (o : Option Thread) :
    holds (s.setOwner i.one o) i i.two = holds s i i.two := by
  simp [holds, State.setOwner_owner_ne one_ne_two.symm]

theorem inv_init : Inv init := ⟨fun _ => ⟨by simp [Sound, init, holds], by simp [init],
  by simp [init]⟩, fun _ _ => rfl⟩

/-- A second attempt that fails was made by a thread that holds its first resource. -/
theorem owner_one_of_failed {rc : Rc} (hok : Proceeds s (i, rc))
    (hpc : (s.threads i).pc = .lockTwo) (hrc : rc ≠ .zero) : s.owner i.one = some i := by
  by_contra h
  exact hrc (hok hpc h).1

theorem inv_lockOne {rc : Rc} {g₁ g₂ : Bool} (hs : Inv s) (hl : s.threads i = ⟨.lockOne, g₁, g₂⟩)
    (h : stepAt s i rc ⟨.lockOne, g₁, g₂⟩ = some s') : Inv s' := by
  have hsound := (hs.good i).sound
  simp only [hl, Sound] at hsound
  simp only [stepAt] at h
  cases rc with
  | zero =>
    simp only [Option.ite_none_right_eq_some, Option.some.injEq] at h
    obtain ⟨hfree, rfl⟩ := h
    refine hs.acquire hfree ?_ (by rw [hl]; rfl) rfl rfl
    simp [Sound, holds_setOwner_self, holds_setOwner_two, hsound]
  | etimedout =>
    cases h
    refine hs.put ?_ (by rw [hl]; rfl) (by simp [loaded])
    simp [Sound, hsound]
  | error =>
    cases h
    exact hs.put trivial (by rw [hl]; rfl) (by simp [loaded])

theorem inv_lockTwo {rc : Rc} {g₁ g₂ : Bool} (hs : Inv s) (hok : Proceeds s (i, rc))
    (hl : s.threads i = ⟨.lockTwo, g₁, g₂⟩)
    (h : stepAt s i rc ⟨.lockTwo, g₁, g₂⟩ = some s') : Inv s' := by
  have hsound := (hs.good i).sound
  simp only [hl, Sound] at hsound
  simp only [stepAt] at h
  cases rc with
  | zero =>
    simp only [Option.ite_none_right_eq_some, Option.some.injEq] at h
    obtain ⟨hfree, rfl⟩ := h
    refine hs.acquire hfree ?_ (by rw [hl]; rfl) rfl rfl
    have h1 : holds s i i.one = g₁ := by
      by_cases h1 : s.owner i.one = some i
      · rw [hsound.2.2 (holds_eq_true.2 h1), holds_eq_true.2 h1]
      · have hg := (hok (by rw [hl]) h1).2
        simp only [hl] at hg
        simpa [hg, holds] using h1
    simp [Sound, holds_setOwner_self, holds_setOwner_one, h1]
  | etimedout =>
    cases h
    have h1 := owner_one_of_failed hok (by rw [hl]) (by simp)
    refine hs.put ?_ (by rw [hl]; rfl) (by simp [loaded])
    simp_all [Sound]
  | error =>
    cases h
    have h1 := owner_one_of_failed hok (by rw [hl]) (by simp)
    refine hs.put ?_ (by rw [hl]; rfl) (by simp [loaded])
    simp_all [Sound]

theorem inv_step {t : Turn} (hs : Inv s) (hok : Proceeds s t) (h : step s t = some s') :
    Inv s' := by
  obtain ⟨i, rc⟩ := t
  have hsound := (hs.good i).sound
  unfold step stepAt at h
  rcases hl : s.threads i with ⟨pc, g₁, g₂⟩
  simp only [hl] at h hsound
  cases pc with
  | lockOne => exact inv_lockOne hs hl h
  | countOne reg =>
    simp only [Sound] at hsound
    cases reg with
    | none =>
      cases h
      exact hs.put hsound (by rw [hl]; rfl) (by simp [loaded])
    | some v =>
      cases h
      refine hs.countUp (holds_eq_true.1 hsound.1) (by rw [hl]; rfl) ?_ (by rw [hl]; rfl) rfl rfl
      simp [Sound, hsound]
  | testOne =>
    cases h
    simp only [Sound] at hsound
    refine hs.test (by rw [hl]; rfl) (fun hb => ?_) (fun hb => ?_) rfl rfl
    · simpa [hb] using hsound.2.1
    · exact ⟨hsound.1, hb, hsound.2.2⟩
  | lockTwo => exact inv_lockTwo hs hok hl h
  | countTwo reg =>
    simp only [Sound] at hsound
    cases reg with
    | none =>
      cases h
      exact hs.put hsound (by rw [hl]; rfl) (by simp [loaded])
    | some v =>
      cases h
      refine hs.countUp (holds_eq_true.1 hsound.2) (by rw [hl]; rfl) ?_ (by rw [hl]; rfl) rfl rfl
      simp [Sound, hsound]
  | testTwo =>
    cases h
    simp only [Sound] at hsound
    refine hs.test (by rw [hl]; rfl) (fun hb => ?_) (fun hb => ?_) rfl rfl
    · exact ⟨hsound.1.trans (Bool.and_eq_true_iff.1 hb).1, hsound.2.1⟩
    · have hg : g₁ = false := by simpa [hsound.2.2] using hb
      exact ⟨hsound.1.trans hg, hsound.2.1.trans hsound.2.2.symm, hb⟩
  | dropOne reg exit =>
    simp only [Sound] at hsound
    cases reg with
    | none =>
      cases h
      exact hs.put hsound (by rw [hl]; rfl) (by simp [loaded])
    | some v =>
      cases h
      refine hs.countDown (holds_eq_true.1 hsound.1) (by rw [hl]; rfl) ?_ (by rw [hl]; rfl) rfl rfl
      exact hsound
  | backOff exit =>
    cases h
    simp only [Sound] at hsound
    refine hs.release (holds_eq_true.1 hsound.1) ?_ (by rw [hl]; rfl) ?_ ?_
    · cases exit <;> simp [Sound, holds_setOwner_self, holds_setOwner_two, hsound]
    · cases exit <;> rfl
    · cases exit <;> rfl
  | releaseTwo reg =>
    simp only [Sound] at hsound
    cases reg with
    | none =>
      cases h
      exact hs.put hsound (by rw [hl]; rfl) (by simp [loaded])
    | some v =>
      cases h
      refine hs.countDown (holds_eq_true.1 hsound.2) (by rw [hl]; rfl) ?_ (by rw [hl]; rfl) rfl rfl
      exact hsound
  | unlockTwo =>
    cases h
    simp only [Sound] at hsound
    refine hs.release (holds_eq_true.1 hsound.2) ?_ (by rw [hl]; rfl) rfl rfl
    simp [Sound, holds_setOwner_one, hsound]
  | releaseOne reg =>
    simp only [Sound] at hsound
    cases reg with
    | none =>
      cases h
      exact hs.put hsound (by rw [hl]; rfl) (by simp [loaded])
    | some v =>
      cases h
      refine hs.countDown (holds_eq_true.1 hsound) (by rw [hl]; rfl) ?_ (by rw [hl]; rfl) rfl rfl
      exact hsound
  | unlockOne =>
    cases h
    simp only [Sound] at hsound
    exact hs.release (holds_eq_true.1 hsound) trivial (by rw [hl]; rfl) rfl rfl
  | exited => cases h

/-! ### The runs -/

theorem Inv.safe (hs : Inv s) : Safe s where
  broke i r hpc := by
    have hsound := (hs.good i).sound
    simp only [Sound, hpc, holds_eq_true] at hsound
    rcases eq_one_or_two i r with rfl | rfl
    · exact hsound.1
    · exact hsound.2
  unlocks i r hr := by
    have hsound := (hs.good i).sound
    cases hpc : (s.threads i).pc <;>
      simp only [hpc, Pc.unlocks, Option.some.injEq, reduceCtorEq] at hr
    all_goals
      subst hr
      simp only [Sound, hpc, holds_eq_true] at hsound
      simp only [hsound]
  counts hlag r := by
    cases ho : s.owner r with
    | none => exact hs.free r ho
    | some i => rw [(hs.good i).count r ho, shown, hlag i]; rfl

/-- **The runs whose turns all proceed are safe.** -/
theorem safe_of_proceeds (h : Reach step Proceeds init s) : Safe s :=
  (h.invariant inv_init inv_step).safe

/-- While the second thread has both resources the first attempt of the first thread times out; it
then gets its second resource, and its first one in the next round. -/
def patientRun : List Turn :=
  List.replicate 8 (.thread2, .zero) ++ List.replicate 2 (.thread1, .etimedout) ++
  List.replicate 6 (.thread2, .zero) ++ List.replicate 8 (.thread1, .zero)

theorem safe_of_proceeds_both : ∃ s,
    exec step Proceeds init patientRun = some s ∧ Safe s :=
  Reach.exists_exec (by decide) fun _ h => safe_of_proceeds h

/-- The first thread gives its first resource up and takes `got_one` along. The second thread gets
both resources, and both attempts of the first thread's next round time out. -/
def staleRun : List Turn :=
  List.replicate 4 (.thread1, .zero) ++ List.replicate 4 (.thread2, .zero) ++
  List.replicate 4 (.thread1, .etimedout) ++ List.replicate 4 (.thread2, .zero) ++
  List.replicate 5 (.thread1, .etimedout)

/-- Not every run is safe: here the first thread unlocks what the second one holds. -/
theorem not_safe : ¬ ∀ s, Reach step Any init s → Safe s := by
  have hrun : ∃ s, exec step Any init staleRun = some s ∧
      (s.threads .thread1).pc = .backOff false ∧ s.owner .rsrcA = some .thread2 :=
    ⟨_, rfl, rfl, rfl⟩
  obtain ⟨s, hs, hpc, howner⟩ := hrun
  intro h
  have hu := (h s (Reach.of_exec hs)).unlocks .thread1 .rsrcA (by rw [hpc]; rfl)
  rw [howner] at hu
  exact absurd hu (by decide)

/-- The thread goes on alone for `k` turns, and the state is unsafe then. -/
def UnsafeAfter (s : State) (i : Thread) (k : ℕ) : Prop :=
  ∃ u, exec step Any s (List.replicate k (i, .zero)) = some u ∧ ¬ Safe u

theorem UnsafeAfter.turn {k : ℕ} (h : UnsafeAfter s' i k) (hs : step s (i, .zero) = some s') :
    UnsafeAfter s i (k + 1) := by
  obtain ⟨u, hu, hunsafe⟩ := h
  refine ⟨u, ?_, hunsafe⟩
  rw [List.replicate_succ, exec_cons trivial hs]
  exact hu

/-- A failed second attempt ends in an unlock. -/
theorem unsafe_of_failed (hone : s.owner i.one ≠ some i) {exit : Bool}
    (hl : l.pc = .dropOne none exit) : UnsafeAfter (s.put i l) i 2 := by
  have h₁ : step (s.put i l) (i, .zero) =
      some (s.put i { l with pc := .dropOne (some (s.rsrcCnts i.one)) exit }) := by
    simp [step, stepAt, hl, State.put]
  have h₂ : step (s.put i { l with pc := .dropOne (some (s.rsrcCnts i.one)) exit }) (i, .zero) =
      some ((s.store i.one (s.rsrcCnts i.one - 1)).put i { l with pc := .backOff exit }) := by
    simp [step, stepAt, State.put, State.store]
  refine .turn (.turn ⟨_, rfl, fun hu => hone ?_⟩ h₂) h₁
  exact hu.unlocks i i.one (by simp [Pc.unlocks])

/-- A second attempt that succeeds with `got_one` set ends the loop. -/
theorem unsafe_of_stale (hone : s.owner i.one ≠ some i) (hg : l.gotOne = true)
    (hl : l.pc = .countTwo none) : UnsafeAfter (s.put i l) i 3 := by
  have h₁ : step (s.put i l) (i, .zero) =
      some (s.put i { l with pc := .countTwo (some (s.rsrcCnts i.two)) }) := by
    simp [step, stepAt, hl, State.put]
  have h₂ : step (s.put i { l with pc := .countTwo (some (s.rsrcCnts i.two)) }) (i, .zero) =
      some ((s.store i.two (s.rsrcCnts i.two + 1)).put i
        { l with pc := .testTwo, gotTwo := true }) := by
    simp [step, stepAt, State.put, State.store]
  have h₃ : step ((s.store i.two (s.rsrcCnts i.two + 1)).put i
        { l with pc := .testTwo, gotTwo := true }) (i, .zero) =
      some ((s.store i.two (s.rsrcCnts i.two + 1)).put i
        { l with pc := .releaseTwo none, gotTwo := true }) := by
    simp [step, stepAt, testBoth, hg, State.put, State.store]
  refine .turn (.turn (.turn ⟨_, rfl, fun hu => hone ?_⟩ h₃) h₂) h₁
  exact hu.broke i i.one (by simp)

/-- **A turn that does not proceed makes the thread's next turns unsafe.** -/
theorem unsafe_of_not_proceeds {rc : Rc} (hok : ¬ Proceeds s (i, rc))
    (h : step s (i, rc) = some s') : UnsafeAfter s' i (if rc = .zero then 3 else 2) := by
  rcases hl : s.threads i with ⟨pc, g₁, g₂⟩
  simp only [Proceeds, hl, Classical.not_imp, not_and_or] at hok
  obtain ⟨rfl, hone, hrc⟩ := hok
  simp only [step, stepAt, hl] at h
  cases rc with
  | zero =>
    simp only [Option.ite_none_right_eq_some, Option.some.injEq] at h
    obtain ⟨-, rfl⟩ := h
    refine unsafe_of_stale ?_ (by simpa using hrc) rfl
    rwa [State.setOwner_owner_ne one_ne_two]
  | etimedout =>
    cases h
    exact unsafe_of_failed hone rfl
  | error =>
    cases h
    exact unsafe_of_failed hone rfl

end Ecen5623.Deadlock.Safety
