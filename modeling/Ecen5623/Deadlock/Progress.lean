import Ecen5623.Deadlock.Safety

/-! # Back-off instead of deadlock

The runs of `deadlock_timeout.c` in which the first attempts do not time out (`Patient`). A thread
then holds at every point what the program text says it holds (`holdsAt`), so these runs are safe.
They cannot get stuck: a thread that waits for the second resource of the other one can give its own
one up, and from every state the run can go on until both threads are through with both resources
free (`exists_finished`). They need not end, though: the threads can give up and start over in step
for as many rounds as one likes (`exists_rounds`). -/

namespace Ecen5623.Deadlock.Progress

open Ecen5623.Library Ecen5623.Deadlock.Timeout
open Ecen5623.Deadlock.Safety (Proceeds one_ne_two eq_one_or_two)

variable {s s' : State} {i j : Thread} {r : Rsrc} {t : Turn}

/-- The first attempt succeeds, and no attempt fails but for a time-out. -/
def Patient (s : State) (t : Turn) : Prop :=
  t.2 ≠ .error ∧ ((s.threads t.1).pc = .lockOne → t.2 = .zero)

instance (s : State) (t : Turn) : Decidable (Patient s t) :=
  inferInstanceAs (Decidable (_ ≠ _ ∧ (_ = _ → _ = _)))

/-- Both threads are through, and they have left the resources as they were. -/
structure Finished (s : State) : Prop where
  exited : ∀ i, (s.threads i).pc = .exited
  owner : ∀ r, s.owner r = none
  rsrcCnts : ∀ r, s.rsrcCnts r = 0

/-! ### What the threads hold -/

/-- The resources that a thread holds at a point of the program. -/
def holdsAt (i : Thread) (r : Rsrc) : Pc → Bool
  | .lockOne => false
  | .countOne _ => r = i.one
  | .testOne => r = i.one
  | .lockTwo => r = i.one
  | .countTwo _ => true
  | .testTwo => true
  | .dropOne _ _ => r = i.one
  | .backOff _ => r = i.one
  | .releaseTwo _ => true
  | .unlockTwo => true
  | .releaseOne _ => r = i.one
  | .unlockOne => r = i.one
  | .exited => false

/-- The flags of a thread in the loop. -/
def Flagged (l : Local) : Prop :=
  match l.pc with
  | .lockOne => l.gotTwo = false
  | .countOne _ => l.gotTwo = false
  | .testOne => l.gotOne = true ∧ l.gotTwo = false
  | .lockTwo => l.gotOne = true ∧ l.gotTwo = false
  | .countTwo _ => l.gotOne = true ∧ l.gotTwo = false
  | .testTwo => l.gotOne = true ∧ l.gotTwo = true
  | .dropOne _ exit => l.gotTwo = false ∧ exit = false
  | .backOff exit => l.gotTwo = false ∧ exit = false
  | _ => True

/-- The threads hold what they hold by the program text. -/
structure Inv (s : State) : Prop where
  owner : ∀ i r, s.owner r = some i ↔ holdsAt i r (s.threads i).pc = true
  flagged : ∀ i, Flagged (s.threads i)

theorem inv_init : Inv init := ⟨by simp [init, holdsAt], by simp [init, Flagged]⟩

theorem Inv.keep (hs : Inv s) {l : Local} (hown : s'.owner = s.owner)
    (hthreads : s'.threads = Function.update s.threads i l)
    (hl : ∀ r, holdsAt i r l.pc = holdsAt i r (s.threads i).pc) (hflag : Flagged l) : Inv s' where
  owner j r := by
    rw [hown, hthreads]
    by_cases hj : j = i
    · subst hj
      rw [Function.update_self, hl, hs.owner]
    · rw [Function.update_of_ne hj, hs.owner]
  flagged j := by
    rw [hthreads]
    by_cases hj : j = i
    · subst hj
      rwa [Function.update_self]
    · rw [Function.update_of_ne hj]
      exact hs.flagged j

theorem Inv.change (hs : Inv s) {l : Local} {o : Option Thread}
    (hr : ∀ j, s.owner r = some j → j = i) (ho : ∀ j, o = some j → j = i)
    (hown : s'.owner = Function.update s.owner r o)
    (hthreads : s'.threads = Function.update s.threads i l)
    (hself : o = some i ↔ holdsAt i r l.pc = true)
    (hl : ∀ r' ≠ r, holdsAt i r' l.pc = holdsAt i r' (s.threads i).pc) (hflag : Flagged l) :
    Inv s' where
  owner j r' := by
    rw [hown, hthreads]
    by_cases hj : j = i
    · subst hj
      rw [Function.update_self]
      by_cases he : r' = r
      · subst he
        rw [Function.update_self, hself]
      · rw [Function.update_of_ne he, hl r' he, hs.owner]
    · rw [Function.update_of_ne hj, ← hs.owner]
      by_cases he : r' = r
      · subst he
        rw [Function.update_self]
        exact iff_of_false (fun h => hj (ho j h)) fun h => hj (hr j h)
      · rw [Function.update_of_ne he]
  flagged j := by
    rw [hthreads]
    by_cases hj : j = i
    · subst hj
      rwa [Function.update_self]
    · rw [Function.update_of_ne hj]
      exact hs.flagged j

theorem inv_step (hs : Inv s) (hok : Patient s t) (h : step s t = some s') : Inv s' := by
  obtain ⟨i, rc⟩ := t
  have hflag := hs.flagged i
  have hown := hs.owner i
  obtain ⟨hrc, hfirst⟩ := hok
  unfold step stepAt at h
  rcases hl : s.threads i with ⟨pc, g₁, g₂⟩
  simp only [hl] at h hflag hown hfirst hrc
  have hkeep : ∀ {l : Local} {s' : State}, s'.owner = s.owner →
      s'.threads = Function.update s.threads i l →
      (∀ r, holdsAt i r l.pc = holdsAt i r pc) → Flagged l → Inv s' :=
    fun hown hthreads hh hflag => hs.keep hown hthreads (by rw [hl]; exact hh) hflag
  cases pc with
  | lockOne =>
    obtain rfl := hfirst rfl
    simp only [Option.ite_none_right_eq_some, Option.some.injEq] at h
    obtain ⟨hfree, rfl⟩ := h
    refine hs.change (r := i.one) (by simp [hfree]) (by simp) rfl rfl (by simp [holdsAt]) ?_ ?_
    · intro r' hne
      simp [hl, holdsAt, hne]
    · exact hflag
  | countOne reg =>
    cases reg with
    | none =>
      cases h
      exact hkeep rfl rfl (fun _ => rfl) hflag
    | some v =>
      cases h
      exact hkeep rfl rfl (fun _ => rfl) ⟨rfl, hflag⟩
  | testOne =>
    obtain ⟨rfl, rfl⟩ : g₁ = true ∧ g₂ = false := hflag
    cases h
    exact hkeep rfl rfl (fun _ => rfl) ⟨rfl, rfl⟩
  | lockTwo =>
    cases rc with
    | zero =>
      simp only [Option.ite_none_right_eq_some, Option.some.injEq] at h
      obtain ⟨hfree, rfl⟩ := h
      refine hs.change (r := i.two) (by simp [hfree]) (by simp) rfl rfl (by simp [holdsAt]) ?_ ?_
      · intro r' hne
        rcases eq_one_or_two i r' with rfl | rfl
        · simp [hl, holdsAt]
        · exact absurd rfl hne
      · exact hflag
    | etimedout =>
      cases h
      exact hkeep rfl rfl (fun _ => rfl) ⟨hflag.2, rfl⟩
    | error => exact absurd rfl hrc
  | countTwo reg =>
    cases reg with
    | none =>
      cases h
      exact hkeep rfl rfl (fun _ => rfl) hflag
    | some v =>
      cases h
      exact hkeep rfl rfl (fun _ => rfl) ⟨hflag.1, rfl⟩
  | testTwo =>
    obtain ⟨rfl, rfl⟩ : g₁ = true ∧ g₂ = true := hflag
    cases h
    exact hkeep rfl rfl (fun _ => rfl) trivial
  | dropOne reg exit =>
    cases reg with
    | none =>
      cases h
      exact hkeep rfl rfl (fun _ => rfl) hflag
    | some v =>
      cases h
      exact hkeep rfl rfl (fun _ => rfl) hflag
  | backOff exit =>
    obtain ⟨hg, rfl⟩ := hflag
    cases h
    have hr := (hown i.one).mpr (by simp [holdsAt])
    refine hs.change (r := i.one) (o := none) ?_ (by simp) rfl rfl (by simp [holdsAt]) ?_ hg
    · intro j hj
      exact (Option.some.inj (hj.symm.trans hr))
    · intro r' hne
      simp [hl, holdsAt, hne]
  | releaseTwo reg =>
    cases reg with
    | none =>
      cases h
      exact hkeep rfl rfl (fun _ => rfl) trivial
    | some v =>
      cases h
      exact hkeep rfl rfl (fun _ => rfl) trivial
  | unlockTwo =>
    cases h
    have hr := (hown i.two).mpr (by simp [holdsAt])
    refine hs.change (r := i.two) (o := none) ?_ (by simp) rfl rfl ?_ ?_ trivial
    · intro j hj
      exact (Option.some.inj (hj.symm.trans hr))
    · simp [holdsAt, Ne.symm one_ne_two]
    · intro r' hne
      rcases eq_one_or_two i r' with rfl | rfl
      · simp [hl, holdsAt]
      · exact absurd rfl hne
  | releaseOne reg =>
    cases reg with
    | none =>
      cases h
      exact hkeep rfl rfl (fun _ => rfl) trivial
    | some v =>
      cases h
      exact hkeep rfl rfl (fun _ => rfl) trivial
  | unlockOne =>
    cases h
    have hr := (hown i.one).mpr (by simp [holdsAt])
    refine hs.change (r := i.one) (o := none) ?_ (by simp) rfl rfl (by simp [holdsAt]) ?_ trivial
    · intro j hj
      exact (Option.some.inj (hj.symm.trans hr))
    · intro r' hne
      simp [hl, holdsAt, hne]
  | exited => cases h

theorem Inv.proceeds (hs : Inv s) (t : Turn) : Proceeds s t := by
  intro hpc hone
  exact absurd ((hs.owner t.1 t.1.one).mpr (by simp [hpc, holdsAt])) hone

/-! ### The way to the end -/

/-- The turns of a thread to the end, if all attempts succeed from now on. -/
def rank : Pc → ℕ
  | .dropOne none _ => 17
  | .dropOne (some _) _ => 16
  | .backOff _ => 15
  | .lockOne => 14
  | .countOne none => 13
  | .countOne (some _) => 12
  | .testOne => 11
  | .lockTwo => 10
  | .countTwo none => 9
  | .countTwo (some _) => 8
  | .testTwo => 7
  | .releaseTwo none => 6
  | .releaseTwo (some _) => 5
  | .unlockTwo => 4
  | .releaseOne none => 3
  | .releaseOne (some _) => 2
  | .unlockOne => 1
  | .exited => 0

/-- The turns of a thread until it holds nothing, if its second attempt times out. -/
def yield : Pc → ℕ
  | .countTwo none => 9
  | .countTwo (some _) => 8
  | .testTwo => 7
  | .countOne none => 7
  | .countOne (some _) => 6
  | .testOne => 5
  | .lockTwo => 4
  | .dropOne none _ => 3
  | .dropOne (some _) _ => 2
  | .backOff _ => 1
  | .releaseTwo none => 6
  | .releaseTwo (some _) => 5
  | .unlockTwo => 4
  | .releaseOne none => 3
  | .releaseOne (some _) => 2
  | .unlockOne => 1
  | .lockOne => 0
  | .exited => 0

/-- Thread `i` has taken a turn, and its variables are `l` now. -/
structure Turned (s s' : State) (i : Thread) (l : Local) : Prop where
  after : Reach step Patient s s'
  threads : s'.threads = Function.update s.threads i l

theorem Turned.self {l : Local} (h : Turned s s' i l) : s'.threads i = l := by
  rw [h.threads, Function.update_self]

theorem Turned.other {l : Local} (h : Turned s s' i l) (hj : j ≠ i) :
    s'.threads j = s.threads j := by
  rw [h.threads, Function.update_of_ne hj]

theorem turned_of_step (rc : Rc) {l : Local} (hok : Patient s (i, rc))
    (h : step s (i, rc) = some s') (hthreads : s'.threads = Function.update s.threads i l) :
    Turned s s' i l :=
  ⟨Reach.single hok h, hthreads⟩

theorem exists_lockOne (hpc : (s.threads i).pc = .lockOne) (hfree : s.owner i.one = none) :
    ∃ s' l, Turned s s' i l ∧ l.pc = .countOne none :=
  ⟨_, _, turned_of_step .zero ⟨Rc.noConfusion, fun _ => rfl⟩
    (by simp only [step, stepAt, hpc, hfree, if_true]; rfl) rfl, rfl⟩

theorem exists_lockTwo (hpc : (s.threads i).pc = .lockTwo) (hfree : s.owner i.two = none) :
    ∃ s' l, Turned s s' i l ∧ l.pc = .countTwo none :=
  ⟨_, _, turned_of_step .zero ⟨Rc.noConfusion, fun _ => rfl⟩
    (by simp only [step, stepAt, hpc, hfree, if_true]; rfl) rfl, rfl⟩

theorem exists_timeout (hpc : (s.threads i).pc = .lockTwo) :
    ∃ s' l, Turned s s' i l ∧ l.pc = .dropOne none false :=
  ⟨_, _, turned_of_step .etimedout ⟨Rc.noConfusion, fun h => by simp [hpc] at h⟩
    (by simp only [step, stepAt, hpc]; rfl) rfl, rfl⟩

theorem exists_turn (hs : Inv s) (h1 : (s.threads i).pc ≠ .lockOne)
    (h2 : (s.threads i).pc ≠ .lockTwo) (hexit : (s.threads i).pc ≠ .exited) :
    ∃ s' l, Turned s s' i l ∧ rank l.pc < rank (s.threads i).pc ∧
      yield l.pc < yield (s.threads i).pc := by
  have hflag := hs.flagged i
  have hturn : ∀ {s' : State} {l : Local}, stepAt s i .zero (s.threads i) = some s' →
      s'.threads = Function.update s.threads i l → Turned s s' i l :=
    fun h hthreads => turned_of_step .zero ⟨Rc.noConfusion, fun _ => rfl⟩ h hthreads
  rcases hl : s.threads i with ⟨pc, g₁, g₂⟩
  rw [hl] at hflag h1 h2 hexit hturn
  cases pc with
  | lockOne => exact absurd rfl h1
  | lockTwo => exact absurd rfl h2
  | exited => exact absurd rfl hexit
  | countOne reg => cases reg <;> exact ⟨_, _, hturn rfl rfl, by simp [rank], by simp [yield]⟩
  | countTwo reg => cases reg <;> exact ⟨_, _, hturn rfl rfl, by simp [rank], by simp [yield]⟩
  | testOne =>
    obtain ⟨rfl, rfl⟩ : g₁ = true ∧ g₂ = false := hflag
    exact ⟨_, _, hturn rfl rfl, by decide, by decide⟩
  | testTwo =>
    obtain ⟨rfl, rfl⟩ : g₁ = true ∧ g₂ = true := hflag
    exact ⟨_, _, hturn rfl rfl, by decide, by decide⟩
  | dropOne reg exit => cases reg <;> exact ⟨_, _, hturn rfl rfl, by simp [rank], by simp [yield]⟩
  | backOff exit =>
    obtain ⟨-, rfl⟩ : g₂ = false ∧ exit = false := hflag
    exact ⟨_, _, hturn rfl rfl, by simp [rank], by simp [yield]⟩
  | releaseTwo reg => cases reg <;> exact ⟨_, _, hturn rfl rfl, by simp [rank], by simp [yield]⟩
  | unlockTwo => exact ⟨_, _, hturn rfl rfl, by simp [rank], by simp [yield]⟩
  | releaseOne reg => cases reg <;> exact ⟨_, _, hturn rfl rfl, by simp [rank], by simp [yield]⟩
  | unlockOne => exact ⟨_, _, hturn rfl rfl, by simp [rank], by simp [yield]⟩

/-! ### Both threads to the end -/

theorem inv_reach (hs : Inv s) (h : Reach step Patient s s') : Inv s' := h.invariant hs inv_step

theorem holdsAt_other (hs : Inv s) (hij : j ≠ i) (hi : holdsAt i r (s.threads i).pc = false)
    (hown : s.owner r ≠ none) : holdsAt j r (s.threads j).pc = true := by
  obtain ⟨k, hk⟩ := Option.ne_none_iff_exists'.mp hown
  have hheld := (hs.owner k r).mp hk
  have hne : k ≠ i := by
    rintro rfl
    rw [hi] at hheld
    cases hheld
  obtain rfl : k = j := by cases i <;> cases j <;> cases k <;> simp_all
  exact hheld

theorem one_of_ne (hij : j ≠ i) : j.one = i.two ∧ j.two = i.one := by
  cases i <;> cases j <;> first | exact absurd rfl hij | exact ⟨rfl, rfl⟩

/-- **Thread `i` can go on, or thread `j`, which is in its way, towards holding nothing.** -/
theorem exists_nearer (hs : Inv s) (hij : j ≠ i) (hexit : (s.threads i).pc ≠ .exited) :
    ∃ s' l, (Turned s s' i l ∧ rank l.pc < rank (s.threads i).pc) ∨
      (Turned s s' j l ∧ yield l.pc < yield (s.threads j).pc) := by
  obtain ⟨h1, h2⟩ := one_of_ne hij
  by_cases hone : (s.threads i).pc = .lockOne
  · by_cases hfree : s.owner i.one = none
    · obtain ⟨s', l, hturn, hl⟩ := exists_lockOne hone hfree
      exact ⟨s', l, .inl ⟨hturn, by rw [hl, hone]; decide⟩⟩
    · -- what it waits for is the second resource of the other one
      have hheld := holdsAt_other hs hij (by rw [hone]; rfl) hfree
      have hpc : ∀ pc, holdsAt j i.one pc = true →
          pc ≠ .lockOne ∧ pc ≠ .lockTwo ∧ pc ≠ .exited := by
        rintro pc hpc
        refine ⟨?_, ?_, ?_⟩ <;> rintro rfl <;> simp [holdsAt, ← h2, one_ne_two.symm] at hpc
      obtain ⟨hne1, hne2, hne3⟩ := hpc _ hheld
      obtain ⟨s', l, hturn, -, hl⟩ := exists_turn hs hne1 hne2 hne3
      exact ⟨s', l, .inr ⟨hturn, hl⟩⟩
  · by_cases htwo : (s.threads i).pc = .lockTwo
    · by_cases hfree : s.owner i.two = none
      · obtain ⟨s', l, hturn, hl⟩ := exists_lockTwo htwo hfree
        exact ⟨s', l, .inl ⟨hturn, by rw [hl, htwo]; decide⟩⟩
      · have hnot : holdsAt i i.two (s.threads i).pc = false := by
          rw [htwo]
          simp [holdsAt, one_ne_two.symm]
        have hheld := holdsAt_other hs hij hnot hfree
        by_cases hwait : (s.threads j).pc = .lockTwo
        · -- each waits for what the other one holds
          obtain ⟨s', l, hturn, hl⟩ := exists_timeout hwait
          exact ⟨s', l, .inr ⟨hturn, by rw [hl, hwait]; decide⟩⟩
        · have hpc : ∀ pc, holdsAt j i.two pc = true → pc ≠ .lockOne ∧ pc ≠ .exited := by
            rintro pc hpc
            refine ⟨?_, ?_⟩ <;> rintro rfl <;> simp [holdsAt] at hpc
          obtain ⟨hne1, hne2⟩ := hpc _ hheld
          obtain ⟨s', l, hturn, -, hl⟩ := exists_turn hs hne1 hwait hne2
          exact ⟨s', l, .inr ⟨hturn, hl⟩⟩
    · obtain ⟨s', l, hturn, hl, -⟩ := exists_turn hs hone htwo hexit
      exact ⟨s', l, .inl ⟨hturn, hl⟩⟩

theorem exited_of_rank {pc : Pc} (h : rank pc = 0) : pc = .exited := by
  unfold rank at h
  split at h <;> first | omega | rfl

/-- The turns of thread `i` come first, then those by which thread `j` gives way. -/
theorem exists_exited (hij : j ≠ i) : ∀ n m s, Inv s → rank (s.threads i).pc ≤ n →
    yield (s.threads j).pc = m → ∃ s', Reach step Patient s s' ∧ (s'.threads i).pc = .exited ∧
      ((s.threads j).pc = .exited → (s'.threads j).pc = .exited) := by
  intro n
  induction n with
  | zero => exact fun m s _ hn _ => ⟨s, .init, exited_of_rank (by omega), id⟩
  | succ n ihn =>
    intro m
    induction m using Nat.strongRecOn with
    | _ m ihm =>
      intro s hs hn hm
      by_cases hexit : (s.threads i).pc = .exited
      · exact ⟨s, .init, hexit, id⟩
      · obtain ⟨s₁, l, ⟨hturn, hl⟩ | ⟨hturn, hl⟩⟩ := exists_nearer hs hij hexit
        · rw [← hturn.self] at hl
          obtain ⟨s', hafter, hdone, hkeep⟩ := ihn _ s₁ (inv_reach hs hturn.after) (by omega) rfl
          rw [hturn.other hij] at hkeep
          exact ⟨s', hturn.after.trans hafter, hdone, hkeep⟩
        · rw [← hturn.self] at hl
          obtain ⟨s', hafter, hdone, hkeep⟩ := ihm _ (by omega) s₁ (inv_reach hs hturn.after)
            (by rwa [hturn.other hij.symm]) rfl
          refine ⟨s', hturn.after.trans hafter, hdone, fun hj => ?_⟩
          -- a thread that has exited gives way to no one
          rw [hj] at hl
          exact absurd hl (Nat.not_lt_zero _)

theorem exists_finished (hs : Inv s) : ∃ s', Reach step Patient s s' ∧
    ∀ i, (s'.threads i).pc = .exited := by
  have h12 : Thread.thread2 ≠ .thread1 := by decide
  obtain ⟨s₁, h₁, hdone₁, -⟩ := exists_exited h12 _ _ s hs (Nat.le_refl _) rfl
  obtain ⟨s₂, h₂, hdone₂, hkeep⟩ :=
    exists_exited h12.symm _ _ s₁ (inv_reach hs h₁) (Nat.le_refl _) rfl
  refine ⟨s₂, h₁.trans h₂, fun i => ?_⟩
  cases i with
  | thread1 => exact hkeep hdone₁
  | thread2 => exact hdone₂

/-! ### Rounds without an end -/

/-- Both threads are about to make their first attempt, with both resources free. -/
structure Fresh (s : State) : Prop where
  pc : ∀ i, (s.threads i).pc = .lockOne
  gotTwo : ∀ i, (s.threads i).gotTwo = false
  owner : ∀ r, s.owner r = none
  rsrcCnts : ∀ r, s.rsrcCnts r = 0

/-- Both threads get their first resource, time out at their second one, which the other one still
holds, and give up. -/
def round : List Turn :=
  List.replicate 4 (.thread1, .zero) ++ List.replicate 4 (.thread2, .zero) ++
  [(.thread1, .etimedout), (.thread2, .etimedout)] ++
  List.replicate 3 (.thread1, .zero) ++ List.replicate 3 (.thread2, .zero)

theorem fresh_init : Fresh init := ⟨fun _ => rfl, fun _ => rfl, fun _ => rfl, fun _ => rfl⟩

theorem exists_round (hs : Fresh s) : ∃ s', exec step Patient s round = some s' ∧ Fresh s' := by
  obtain ⟨owner, rsrcCnts, threads⟩ := s
  obtain rfl : owner = fun _ => none := funext hs.owner
  obtain rfl : rsrcCnts = fun _ => 0 := funext hs.rsrcCnts
  obtain ⟨g, rfl⟩ : ∃ g : Thread → Bool, threads = fun i => ⟨.lockOne, g i, false⟩ := by
    refine ⟨fun i => (threads i).gotOne, funext fun i => ?_⟩
    have h1 := hs.pc i
    have h2 := hs.gotTwo i
    dsimp only at h1 h2
    rw [← h1, ← h2]
  refine ⟨_, rfl, fun i => ?_, fun i => ?_, fun r => ?_, fun r => ?_⟩
  · cases i <;> rfl
  · cases i <;> rfl
  · cases r <;> rfl
  · cases r <;> rfl

theorem exists_rounds : ∀ n {s}, Fresh s → ∃ s', exec step Patient s
    (List.replicate n round).flatten = some s' ∧ Fresh s'
  | 0, s, hs => ⟨s, rfl, hs⟩
  | n + 1, _, hs => by
    obtain ⟨s₁, h₁, hfresh⟩ := exists_round hs
    obtain ⟨s', h', hfresh'⟩ := exists_rounds n hfresh
    refine ⟨s', ?_, hfresh'⟩
    rw [List.replicate_succ, List.flatten_cons, exec_append h₁, h']

/-- **The runs whose first attempts do not time out are safe and can always be completed, but some
of them go on for any number of rounds without a thread having both resources.** -/
theorem patient_progress :
    (∀ s, Reach step Patient init s → Safe s ∧ ∃ s', Reach step Patient s s' ∧ Finished s') ∧
      ∀ n, ∃ s, exec step Patient init (List.replicate n round).flatten = some s ∧ Fresh s := by
  have hproceeds : ∀ {s s'}, Inv s → Reach step Patient s s' → Reach step Proceeds s s' := by
    intro s s' hs h
    induction h with
    | init => exact .init
    | step h hok hstep ih => exact .step ih ((inv_reach hs h).proceeds _) hstep
  refine ⟨fun s h => ?_, fun n => exists_rounds n fresh_init⟩
  have hs := inv_reach inv_init h
  obtain ⟨s', hafter, hexit⟩ := exists_finished hs
  have hs' := inv_reach hs hafter
  have hsafe := (hproceeds inv_init h).invariant Safety.inv_init Safety.inv_step
  have hsafe' := (hproceeds hs hafter).invariant hsafe Safety.inv_step
  have hfree : ∀ r, s'.owner r = none := fun r => by
    rcases ho : s'.owner r with _ | i
    · rfl
    · have hheld := (hs'.owner i r).mp ho
      rw [hexit i] at hheld
      cases hheld
  exact ⟨hsafe.safe, s', hafter, hexit, hfree, fun r => hsafe'.free r (hfree r)⟩

end Ecen5623.Deadlock.Progress
