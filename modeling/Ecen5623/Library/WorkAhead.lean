import Ecen5623.Library.DeadlineDriven

/-! # Schedules by the priority of the next unit of work

A job is a sequence of units, one slot each. `Keys` give every unit a priority, the smaller the
higher, which does not rise from one unit of a job to the next; in a schedule that follows the keys
the slot goes to the task whose next unit comes first. Fixed priorities, EDF and least laxity are
all of this kind.

`Served j k` asks of the parameters alone whether job `k` of `j` is done in time: at some instant
`s` up to its deadline the work that comes before its last unit fits, counted back to every `a < s`.
* `met_of_served`: such a job is met. Otherwise the slots before `s` back to the last one, `a`, not
  given to that work hold only units released at `a` or later, without the last unit of the job.
* `served_of_met`: if all jobs due before `N` are met then they are all served, with `s` the slot of
  the last unit. -/

namespace Ecen5623.Library.PeriodicTasks

open Ecen5623.Library.SlotSchedule

/-- The priorities of the units of work; no two tasks tie. Job `k` of `i` may run from slot
`offset i` after its release on. -/
structure Keys (ι K : Type*) [LinearOrder K] where
  key : ι → ℕ → ℕ → K
  offset : ι → ℕ
  mono : ∀ i k n, key i k n ≤ key i k (n + 1)
  inj : ∀ {i j k l m n}, key i k m = key j l n → i = j

variable {ι K : Type*} [LinearOrder K]

theorem Keys.monotone (κ : Keys ι K) (i : ι) (k : ℕ) : Monotone (κ.key i k) :=
  monotone_nat_of_le_succ (κ.mono i k)

namespace Tasks

variable [DecidableEq ι] (P : Tasks ι) (κ : Keys ι K)

/-- The slot from which on job `k` of `i` may run. -/
def start (i : ι) (k : ℕ) : ℕ := k * P.T i + κ.offset i

/-- The priority of the unit that `i` would run at `t`. -/
def nextKey (σ : Schedule ι) (i : ι) (t : ℕ) : K :=
  κ.key i (t / P.T i) (ran σ i (P.release i t) t)

/-- The current job of `i` has units left and may run. -/
def Ready (σ : Schedule ι) (i : ι) (t : ℕ) : Prop :=
  P.Pending σ i t ∧ P.start κ i (t / P.T i) ≤ t

/-- The ready task whose next unit comes first runs; the processor idles if nothing is ready. -/
structure FollowsKeys (σ : Schedule ι) : Prop where
  run : ∀ t i, σ t = some i →
    P.Ready κ σ i t ∧ ∀ j, P.Ready κ σ j t → P.nextKey κ σ i t ≤ P.nextKey κ σ j t
  idle : ∀ t, σ t = none → ∀ j, ¬ P.Ready κ σ j t

/-- The units that come no later than `x`, of the jobs that may start in `[a, s)`. -/
def due [Fintype ι] (x : K) (a s : ℕ) : Finset (Σ _ : ι, ℕ × ℕ) :=
  Finset.univ.sigma fun i => (Finset.range s ×ˢ Finset.range (P.C i)).filter fun u =>
    a ≤ P.start κ i u.1 ∧ P.start κ i u.1 < s ∧ κ.key i u.1 u.2 ≤ x

/-- The work up to the last unit of job `k` of `j` fits before some instant `s` of its window. -/
def Served [Fintype ι] (j : ι) (k : ℕ) : Prop :=
  ∃ s, P.start κ j k < s ∧ s ≤ (k + 1) * P.T j ∧
    ∀ a < s, (P.due κ (κ.key j k (P.C j - 1)) a s).card ≤ s - a

instance [Fintype ι] (j : ι) (k : ℕ) : Decidable (P.Served κ j k) :=
  decidable_of_iff (∃ s, s ≤ (k + 1) * P.T j ∧ P.start κ j k < s ∧
      ∀ a < s, (P.due κ (κ.key j k (P.C j - 1)) a s).card ≤ s - a)
    (exists_congr fun _ => and_left_comm)

variable {P κ} {σ : Schedule ι} {i j : ι} {a k n s t u : ℕ} {x : K}

/-! ### Units and slots -/

omit [DecidableEq ι] in
theorem mem_due [Fintype ι] : ⟨i, k, n⟩ ∈ P.due κ x a s ↔
    n < P.C i ∧ a ≤ P.start κ i k ∧ P.start κ i k < s ∧ κ.key i k n ≤ x := by
  simp only [due, Finset.mem_sigma, Finset.mem_univ, true_and, Finset.mem_filter,
    Finset.mem_product, Finset.mem_range]
  refine ⟨fun h => ⟨h.1.2, h.2⟩, fun h => ⟨⟨?_, h.1⟩, h.2⟩⟩
  have hk : k ≤ k * P.T i := Nat.le_mul_of_pos_right k (P.T_pos i)
  have hs := h.2.2.1
  unfold start at hs
  omega

variable (P) in
/-- The unit that `i` runs at `t`. -/
def unitAt (σ : Schedule ι) (i : ι) (t : ℕ) : Σ _ : ι, ℕ × ℕ :=
  ⟨i, t / P.T i, ran σ i (P.release i t) t⟩

theorem ran_release_lt (ht : σ t = some i) (htu : t < u) (hk : t / P.T i = u / P.T i) :
    ran σ i (P.release i t) t < ran σ i (P.release i u) u := by
  have hrel : P.release i u = P.release i t := by rw [release, release, hk]
  rw [hrel]
  calc ran σ i (P.release i t) t < ran σ i (P.release i t) (t + 1) := by
        rw [ran_succ σ i release_le, if_pos ht]
        exact Nat.lt_succ_self _
    _ ≤ ran σ i (P.release i t) u := ran_mono_right htu

/-- **Different slots run different units.** -/
theorem unitAt_inj (ht : σ t = some i) (hu : σ u = some j)
    (h : P.unitAt σ i t = P.unitAt σ j u) : t = u := by
  obtain rfl : i = j := congrArg Sigma.fst h
  have hpair := eq_of_heq (Sigma.mk.inj h).2
  have hk := congrArg Prod.fst hpair
  have hn := congrArg Prod.snd hpair
  rcases Nat.lt_trichotomy t u with hlt | heq | hgt
  · exact absurd hn (ran_release_lt ht hlt hk).ne
  · exact heq
  · exact absurd hn (ran_release_lt hu hgt hk.symm).ne'

theorem le_card_of_slots {S : Finset (Σ _ : ι, ℕ × ℕ)}
    (h : ∀ t, a ≤ t → t < s → ∃ i, σ t = some i ∧ P.unitAt σ i t ∈ S) : s - a ≤ S.card := by
  rcases Nat.lt_or_ge a s with has | hsa
  · obtain ⟨i, -, -⟩ := h a le_rfl has
    have : Nonempty ι := ⟨i⟩
    choose! task htask hunit using h
    have hinj : Set.InjOn (fun t => P.unitAt σ (task t) t) (Finset.Ico a s) := by
      intro t ht u hu htu
      rw [Finset.coe_Ico, Set.mem_Ico] at ht hu
      exact unitAt_inj (htask t ht.1 ht.2) (htask u hu.1 hu.2) htu
    have hcard := Finset.card_le_card_of_injOn _ (fun t ht => by
      rw [Finset.coe_Ico, Set.mem_Ico] at ht
      exact hunit t ht.1 ht.2) hinj
    rwa [Nat.card_Ico] at hcard
  · rw [Nat.sub_eq_zero_of_le hsa]
    exact Nat.zero_le _

theorem card_le_of_units {S : Finset (Σ _ : ι, ℕ × ℕ)}
    (h : ∀ u ∈ S, ∃ t ∈ Finset.Ico a s, σ t = some u.1 ∧ P.unitAt σ u.1 t = u) :
    S.card ≤ s - a := by
  choose! slot hmem hrun hunit using h
  have hinj : Set.InjOn slot S := by
    intro u hu v hv huv
    have htask : u.1 = v.1 := by
      have hsome := hrun u hu
      rw [huv, hrun v hv] at hsome
      exact (Option.some.inj hsome).symm
    rw [← hunit u hu, ← hunit v hv, htask, huv]
  have hcard := Finset.card_le_card_of_injOn slot hmem hinj
  rwa [Nat.card_Ico] at hcard

/-! ### Work that comes before a key -/

variable (P κ) in
/-- Slot `t` goes to a unit that comes no later than `x`. -/
def Ahead (σ : Schedule ι) (x : K) (t : ℕ) : Prop := ∃ i, σ t = some i ∧ P.nextKey κ σ i t ≤ x

section Follows
variable (h : P.FollowsKeys κ σ)
include h

theorem FollowsKeys.sane : P.Sane σ := fun t i ht => (h.run t i ht).1.1

theorem FollowsKeys.ahead_of_ready (hr : P.Ready κ σ i t) (hx : P.nextKey κ σ i t ≤ x) :
    P.Ahead κ σ x t := by
  rcases hσ : σ t with _ | i'
  · exact absurd hr (h.idle t hσ i)
  · exact ⟨i', hσ, ((h.run t i' hσ).2 i hr).trans hx⟩

omit h in
theorem Ready.of_le (hr : P.Ready κ σ i t) (h1 : P.start κ i (t / P.T i) ≤ u) (h2 : u ≤ t) :
    P.Ready κ σ i u ∧ P.nextKey κ σ i u ≤ P.nextKey κ σ i t := by
  have hrel : P.release i t ≤ u := le_trans (Nat.le_add_right _ _) h1
  have hdiv : u / P.T i = t / P.T i :=
    div_eq_of_window hrel (lt_of_le_of_lt h2 (mem_window (P := P)).2)
  refine ⟨⟨hr.1.of_le hrel h2, by rw [hdiv]; exact h1⟩, ?_⟩
  have hrelu : P.release i u = P.release i t := by rw [release, release, hdiv]
  rw [nextKey, nextKey, hdiv, hrelu]
  exact κ.monotone i _ (ran_mono_right h2)

/-- If every slot of `[a, t]` but not the one before is ahead of `x`, then the unit run at `t`
belongs to a job that starts at `a` or later. -/
theorem FollowsKeys.le_start (hstart : a = 0 ∨ ∃ a', a = a' + 1 ∧ ¬ P.Ahead κ σ x a')
    (hat : a ≤ t) (hi : σ t = some i) (hx : P.nextKey κ σ i t ≤ x) :
    a ≤ P.start κ i (t / P.T i) := by
  rcases hstart with rfl | ⟨a', rfl, ha'⟩
  · exact Nat.zero_le _
  · by_contra hlt
    obtain ⟨hr, hle⟩ := (h.run t i hi).1.of_le (by omega : P.start κ i (t / P.T i) ≤ a') (by omega)
    exact ha' (h.ahead_of_ready hr (hle.trans hx))

omit h in
theorem ready_of_lt (hmiss : ran σ j (k * P.T j) ((k + 1) * P.T j) < P.C j)
    (h1 : P.start κ j k ≤ t) (h2 : t < (k + 1) * P.T j) :
    P.Ready κ σ j t ∧ P.nextKey κ σ j t ≤ κ.key j k (P.C j - 1) := by
  have hk : k * P.T j ≤ t := le_trans (Nat.le_add_right _ _) h1
  have hdiv : t / P.T j = k := div_eq_of_window hk h2
  have hp := pending_of_lt hmiss hk h2
  refine ⟨⟨hp, by rw [hdiv]; exact h1⟩, ?_⟩
  rw [nextKey, hdiv]
  exact κ.monotone j k (Nat.le_sub_one_of_lt hp)

omit h in
theorem unitAt_ne_last (hmiss : ran σ j (k * P.T j) ((k + 1) * P.T j) < P.C j)
    (hi : σ t = some i) : P.unitAt σ i t ≠ ⟨j, k, P.C j - 1⟩ := by
  intro heq
  obtain rfl : i = j := congrArg Sigma.fst heq
  have hpair := eq_of_heq (Sigma.mk.inj heq).2
  have hk : t / P.T i = k := congrArg Prod.fst hpair
  have hn : ran σ i (P.release i t) t = P.C i - 1 := congrArg Prod.snd hpair
  have hwin := mem_window (P := P) (i := i) (t := t)
  rw [release, hk] at hn
  rw [hk] at hwin
  have hsucc := ran_succ σ i hwin.1
  rw [if_pos hi] at hsucc
  have hle : ran σ i (k * P.T i) (t + 1) ≤ ran σ i (k * P.T i) ((k + 1) * P.T i) :=
    ran_mono_right hwin.2
  omega

/-- **A served job is met.** -/
theorem FollowsKeys.met_of_served [Fintype ι] (hs : P.Served κ j k) : P.Met σ j k := by
  by_contra hmiss
  rw [not_met_iff h.sane] at hmiss
  obtain ⟨s, hjs, hsd, hfit⟩ := hs
  set x := κ.key j k (P.C j - 1) with hx
  obtain ⟨a, has, hall, hstart⟩ := exists_due_start (P.Ahead κ σ x) s
  have haj : a ≤ P.start κ j k := by
    rcases hstart with rfl | ⟨a', rfl, ha'⟩
    · exact Nat.zero_le _
    · by_contra hlt
      obtain ⟨hr, hle⟩ := ready_of_lt (κ := κ) hmiss (by omega : P.start κ j k ≤ a') (by omega)
      exact ha' (h.ahead_of_ready hr hle)
  -- every slot of `[a, s)` runs a unit that is due, and never the last one of the job
  have hslot : ∀ t, a ≤ t → t < s → ∃ i, σ t = some i ∧
      P.unitAt σ i t ∈ (P.due κ x a s).erase ⟨j, k, P.C j - 1⟩ := by
    intro t hat hts
    obtain ⟨i, hi, hkey⟩ := hall t hat hts
    have hr := (h.run t i hi).1
    exact ⟨i, hi, Finset.mem_erase.mpr ⟨unitAt_ne_last hmiss hi, mem_due.mpr
      ⟨hr.1, h.le_start hstart hat hi hkey, lt_of_le_of_lt hr.2 hts, hkey⟩⟩⟩
  have hcard := le_card_of_slots hslot
  have hlast : ⟨j, k, P.C j - 1⟩ ∈ P.due κ x a s :=
    mem_due.mpr ⟨Nat.sub_lt (P.C_pos j) Nat.one_pos, haj, hjs, le_rfl⟩
  have hpos := Finset.card_pos.mpr ⟨_, hlast⟩
  have hle := hfit a (by omega)
  rw [Finset.card_erase_of_mem hlast] at hcard
  omega

/-! ### Met jobs are served -/

omit h in
theorem unitAt_of_window (h1 : k * P.T i ≤ t) (h2 : t < (k + 1) * P.T i)
    (hn : ran σ i (k * P.T i) t = n) : P.unitAt σ i t = ⟨i, k, n⟩ := by
  rw [unitAt, release_of_window h1 h2, div_eq_of_window h1 h2, hn]

theorem FollowsKeys.exists_slot (hn : n < ran σ i (k * P.T i) u) (hu : u ≤ (k + 1) * P.T i) :
    ∃ t, P.start κ i k ≤ t ∧ t < u ∧ σ t = some i ∧ P.unitAt σ i t = ⟨i, k, n⟩ := by
  obtain ⟨t, h1, h2, hi, hran⟩ := exists_slot_of_lt_ran hn
  have hlt : t < (k + 1) * P.T i := lt_of_lt_of_le h2 hu
  have hstart := (h.run t i hi).1.2
  rw [div_eq_of_window h1 hlt] at hstart
  exact ⟨t, hstart, h2, hi, unitAt_of_window h1 hlt hran⟩

/-- When the last unit of a job of `j` runs at `t`, every unit of at least its priority that may
have run has run, if the jobs due up to `t` are met. -/
theorem FollowsKeys.exists_slot_of_due (hmet : ∀ i k, (k + 1) * P.T i ≤ t → P.Met σ i k)
    (hj : σ t = some j) (hlast : ran σ j (P.release j t) t = P.C j - 1) (hn : n < P.C i)
    (hstart : P.start κ i k ≤ t) (hx : κ.key i k n ≤ P.nextKey κ σ j t) :
    ∃ u, P.start κ i k ≤ u ∧ u ≤ t ∧ σ u = some i ∧ P.unitAt σ i u = ⟨i, k, n⟩ := by
  have hrel : k * P.T i ≤ t := le_trans (Nat.le_add_right _ _) hstart
  rcases Nat.lt_or_ge t ((k + 1) * P.T i) with hcur | hover
  · rcases Nat.lt_or_ge n (ran σ i (k * P.T i) t) with hran | hleft
    · obtain ⟨u, h1, h2, h3⟩ := h.exists_slot hran hcur.le
      exact ⟨u, h1, h2.le, h3⟩
    · -- the unit is left at `t`, so it is the one that runs there
      have hdiv : t / P.T i = k := div_eq_of_window hrel hcur
      have hkey : P.nextKey κ σ i t ≤ κ.key i k n := by
        rw [nextKey, release_of_window hrel hcur, hdiv]
        exact κ.monotone i k hleft
      have hr : P.Ready κ σ i t := by
        refine ⟨?_, by rw [hdiv]; exact hstart⟩
        rw [Pending, release_of_window hrel hcur]
        exact hleft.trans_lt hn
      have heq := le_antisymm ((h.run t j hj).2 i hr) (hkey.trans hx)
      obtain rfl : j = i := κ.inj heq
      rw [release_of_window hrel hcur] at hlast
      exact ⟨t, hstart, le_rfl, hj, unitAt_of_window hrel hcur (by omega)⟩
  · have hran : n < ran σ i (k * P.T i) ((k + 1) * P.T i) := by rw [hmet i k hover]; exact hn
    obtain ⟨u, h1, h2, h3⟩ := h.exists_slot hran le_rfl
    exact ⟨u, h1, h2.le.trans hover, h3⟩

/-- **If the jobs due before `N` are met then they are served.** -/
theorem FollowsKeys.served_of_met [Fintype ι] {N : ℕ}
    (hmet : ∀ i k, (k + 1) * P.T i < N → P.Met σ i k) (hk : (k + 1) * P.T j < N) :
    P.Served κ j k := by
  have hpos := P.C_pos j
  have hlt : P.C j - 1 < ran σ j (k * P.T j) ((k + 1) * P.T j) := by
    rw [hmet j k hk]
    exact Nat.sub_lt hpos Nat.one_pos
  obtain ⟨t, h1, h2, hj, hran⟩ := exists_slot_of_lt_ran hlt
  have hdiv : t / P.T j = k := div_eq_of_window h1 h2
  have hrel : P.release j t = k * P.T j := release_of_window h1 h2
  have hstart := (h.run t j hj).1.2
  rw [hdiv] at hstart
  refine ⟨t + 1, Nat.lt_succ_of_le hstart, h2, fun a ha => ?_⟩
  have hkey : P.nextKey κ σ j t = κ.key j k (P.C j - 1) := by rw [nextKey, hdiv, hrel, hran]
  refine card_le_of_units (P := P) (σ := σ) ?_
  rintro ⟨i, k', n⟩ hu
  obtain ⟨hn, hau, hut, hx⟩ := mem_due.mp hu
  rw [← hkey] at hx
  obtain ⟨v, hv1, hv2, hv3, hv4⟩ := h.exists_slot_of_due
    (fun i k hle => hmet i k (hle.trans_lt (h2.trans hk))) hj (by rw [hrel, hran]) hn
    (Nat.le_of_lt_succ hut) hx
  exact ⟨v, Finset.mem_Ico.mpr ⟨hau.trans hv1, Nat.lt_succ_of_le hv2⟩, hv3, hv4⟩

/-- **A schedule by keys is feasible exactly if all jobs are served.** -/
theorem FollowsKeys.feasible_iff [Fintype ι] :
    P.Feasible σ ↔ ∀ j k, P.Served κ j k := by
  constructor
  · exact fun hf j k => h.served_of_met (fun i k _ => hf i k) (Nat.lt_succ_self _)
  · exact fun hs j k => h.met_of_served (hs j k)

end Follows

end Tasks

end Ecen5623.Library.PeriodicTasks
