import Ecen5623.Library.WorkAhead
import Mathlib.Data.Finset.Sort
import Mathlib.Data.Prod.Lex

/-! # Units laid out by priority

What a schedule that follows `Keys` runs, overload and dropped jobs included, can be told without
following it slot by slot: one unit after the other, in the order of the priorities, takes the first
slot of its job's window that no unit before it has taken (`layOut`), or none. `laidOut_iff`: these
are the slots in which the units run. So a job is met if its last unit finds a slot
(`met_iff_laidOut`), and it gets to the laxity `-1` if another one is laid out too late
(`timely_iff`). -/

namespace Ecen5623.Library.PeriodicTasks

open Ecen5623.Library.SlotSchedule

variable {ι K : Type*} [LinearOrder K]

/-- The order of the units: by priority, then by job and place in it. -/
def Keys.rank (κ : Keys ι K) (u : Σ _ : ι, ℕ × ℕ) : K ×ₗ ℕ ×ₗ ℕ :=
  toLex (κ.key u.1 u.2.1 u.2.2, toLex u.2)

theorem Keys.rank_injective (κ : Keys ι K) : Function.Injective κ.rank := by
  rintro ⟨i, u⟩ ⟨j, v⟩ h
  obtain ⟨hkey, huv⟩ := Prod.mk.inj (congrArg ofLex h)
  obtain rfl : i = j := κ.inj hkey
  exact congrArg (Sigma.mk i) (toLex.injective huv)

/-- `u` is `v` or comes before it. -/
def Keys.Before (κ : Keys ι K) (u v : Σ _ : ι, ℕ × ℕ) : Prop := κ.rank u ≤ κ.rank v

instance (κ : Keys ι K) : DecidableRel κ.Before := fun u v =>
  inferInstanceAs (Decidable (κ.rank u ≤ κ.rank v))

instance (κ : Keys ι K) : IsTrans _ κ.Before := ⟨fun _ _ _ => le_trans⟩

instance (κ : Keys ι K) : Std.Antisymm κ.Before :=
  ⟨fun _ _ h h' => κ.rank_injective (le_antisymm h h')⟩

instance (κ : Keys ι K) : Std.Total κ.Before := ⟨fun _ _ => le_total _ _⟩

namespace Tasks

variable [DecidableEq ι] (P : Tasks ι) (κ : Keys ι K)

/-- The first slot of the window of `u` that is free. -/
def firstFree (taken : Finset ℕ) (u : Σ _ : ι, ℕ × ℕ) : Option ℕ :=
  (List.range ((u.2.1 + 1) * P.T u.1)).find? fun t => P.start κ u.1 u.2.1 ≤ t ∧ t ∉ taken

def place (taken : Finset ℕ) (u : Σ _ : ι, ℕ × ℕ) : Finset ℕ :=
  match P.firstFree κ taken u with
  | some t => insert t taken
  | none => taken

/-- The slots taken when the units of a list are laid out one after the other. -/
def layOut (l : List (Σ _ : ι, ℕ × ℕ)) : Finset ℕ := l.foldl (P.place κ) ∅

/-- The units before `u`, of the jobs that may start before `s`. -/
def unitsBefore [Fintype ι] (u : Σ _ : ι, ℕ × ℕ) (s : ℕ) : Finset (Σ _ : ι, ℕ × ℕ) :=
  (P.due κ (κ.key u.1 u.2.1 u.2.2) 0 s).filter fun v => κ.rank v < κ.rank u

/-- Their list. -/
def sortedBefore [Fintype ι] (u : Σ _ : ι, ℕ × ℕ) (s : ℕ) : List (Σ _ : ι, ℕ × ℕ) :=
  (P.unitsBefore κ u s).sort κ.Before

/-- Unit `n` of job `k` of `j` finds a free slot before `s`. -/
def LaidOut [Fintype ι] (j : ι) (k n s : ℕ) : Prop :=
  ∃ t < s, P.start κ j k ≤ t ∧ t ∉ P.layOut κ (P.sortedBefore κ ⟨j, k, n⟩ s)

instance [Fintype ι] (j : ι) (k n s : ℕ) : Decidable (P.LaidOut κ j k n s) :=
  inferInstanceAs (Decidable (∃ t < s, _ ∧ _))

/-- Of every job of `i` that fits into a period and a slot, the units but the last are laid out in
slots after which the rest of the job still fits, as far as these are before `N`. -/
def Timely [Fintype ι] (i : ι) (N : ℕ) : Prop :=
  P.C i ≤ P.T i + 1 → ∀ k m t, m + 2 ≤ P.C i → t + P.C i = (k + 1) * P.T i + m + 1 → t < N →
    P.LaidOut κ i k m t

variable {P κ} {σ : Schedule ι} {i j : ι} {k n s t : ℕ} {taken : Finset ℕ}
  {u v : Σ _ : ι, ℕ × ℕ} {l : List (Σ _ : ι, ℕ × ℕ)}

/-! ### The order -/

omit [DecidableEq ι] in
theorem mem_sortedBefore [Fintype ι] :
    v ∈ P.sortedBefore κ u s ↔ v ∈ P.unitsBefore κ u s :=
  Finset.mem_sort _

omit [DecidableEq ι] in
theorem pairwise_sortedBefore [Fintype ι] :
    (P.sortedBefore κ u s).Pairwise fun v w => κ.rank v < κ.rank w := by
  have hle : (P.sortedBefore κ u s).Pairwise κ.Before := Finset.pairwise_sort _ _
  exact hle.imp₂ (fun _ _ h hne => lt_of_le_of_ne h (κ.rank_injective.ne hne))
    (Finset.sort_nodup _ _)

omit [DecidableEq ι] in
theorem key_le_of_rank_lt (h : κ.rank v < κ.rank u) :
    κ.key v.1 v.2.1 v.2.2 ≤ κ.key u.1 u.2.1 u.2.2 :=
  Prod.Lex.monotone_fst _ _ h.le

omit [DecidableEq ι] in
theorem firstFree_eq_some : P.firstFree κ taken u = some t ↔
    P.start κ u.1 u.2.1 ≤ t ∧ t < (u.2.1 + 1) * P.T u.1 ∧ t ∉ taken ∧
      ∀ t' < t, P.start κ u.1 u.2.1 ≤ t' → t' ∈ taken := by
  simp only [firstFree, List.find?_range_eq_some, List.mem_range, decide_eq_true_eq,
    Bool.not_eq_true', decide_eq_false_iff_not, not_and, not_not]
  exact ⟨fun h => ⟨h.1.1, h.2.1, h.1.2, h.2.2⟩, fun h => ⟨⟨h.1, h.2.2.1⟩, h.2.1, h.2.2.2⟩⟩

omit [DecidableEq ι] in
theorem firstFree_eq_none : P.firstFree κ taken u = none ↔
    ∀ t < (u.2.1 + 1) * P.T u.1, P.start κ u.1 u.2.1 ≤ t → t ∈ taken := by
  simp only [firstFree, List.find?_range_eq_none, Bool.not_eq_true', decide_eq_false_iff_not,
    not_and, not_not]

/-! ### What runs -/

variable (P) in
/-- Slot `t` runs the unit `u`. -/
def Runs (σ : Schedule ι) (u : Σ _ : ι, ℕ × ℕ) (t : ℕ) : Prop :=
  σ t = some u.1 ∧ P.unitAt σ u.1 t = u

theorem Runs.eq (h : P.Runs σ u t) (h' : P.Runs σ v t) : u = v := by
  have hi : u.1 = v.1 := Option.some.inj (h.1.symm.trans h'.1)
  rw [← h.2, ← h'.2, hi]

/-- The units of `l` are those before some rank, as far as they may run before `s`. -/
structure Initial (P : Tasks ι) (κ : Keys ι K) (s : ℕ) (l : List (Σ _ : ι, ℕ × ℕ)) : Prop where
  sorted : l.Pairwise fun v w => κ.rank v < κ.rank w
  closed : ∀ u ∈ l, ∀ v, κ.rank v < κ.rank u → v.2.2 < P.C v.1 → P.start κ v.1 v.2.1 < s → v ∈ l
  le : ∀ u ∈ l, u.2.2 < P.C u.1

/-- The slots taken are those in which the units of `l` run. -/
def Exact (P : Tasks ι) (σ : Schedule ι) (s : ℕ) (l : List (Σ _ : ι, ℕ × ℕ))
    (taken : Finset ℕ) : Prop :=
  ∀ t < s, t ∈ taken ↔ ∃ u ∈ l, P.Runs σ u t

section Follows
variable (h : P.FollowsKeys κ σ)
include h

/-- **The first free slot of its window runs the next unit.** -/
theorem FollowsKeys.runs_of_first (hexact : P.Exact σ s l taken) (hu : u ∉ l)
    (hclosed : ∀ v, κ.rank v < κ.rank u → v.2.2 < P.C v.1 → P.start κ v.1 v.2.1 < s → v ∈ l)
    (hn : u.2.2 < P.C u.1) (hts : t < s) (hstart : P.start κ u.1 u.2.1 ≤ t)
    (hend : t < (u.2.1 + 1) * P.T u.1) (hfree : t ∉ taken)
    (hfirst : ∀ t' < t, P.start κ u.1 u.2.1 ≤ t' → t' ∈ taken) : P.Runs σ u t := by
  obtain ⟨i, k, n⟩ := u
  dsimp only at hn hstart hend hfirst
  have hrel : k * P.T i ≤ t := le_trans (Nat.le_add_right _ _) hstart
  have hdiv : t / P.T i = k := div_eq_of_window hrel hend
  -- the unit has not run yet
  have hran : ran σ i (k * P.T i) t ≤ n := by
    by_contra hlt
    obtain ⟨t', h1, h2, h3, h4⟩ := h.exists_slot (not_le.mp hlt) hend.le
    obtain ⟨v, hv, hruns⟩ := (hexact t' (h2.trans hts)).mp (hfirst t' h2 h1)
    exact hu (Runs.eq (u := ⟨i, k, n⟩) ⟨h3, h4⟩ hruns ▸ hv)
  have hr : P.Ready κ σ i t := by
    refine ⟨?_, by rw [hdiv]; exact hstart⟩
    rw [Pending, release_of_window hrel hend]
    exact hran.trans_lt hn
  have hkey : P.nextKey κ σ i t ≤ κ.key i k n := by
    rw [nextKey, release_of_window hrel hend, hdiv]
    exact κ.monotone i k hran
  rcases hσ : σ t with _ | i'
  · exact absurd hr (h.idle t hσ i)
  obtain ⟨hr', hle⟩ := h.run t i' hσ
  -- what runs is not before the unit, and so it is the unit
  have hrank : κ.rank ⟨i, k, n⟩ ≤ κ.rank (P.unitAt σ i' t) := by
    by_contra hlt
    have hmem := hclosed _ (not_le.mp hlt) hr'.1 (hr'.2.trans_lt hts)
    exact hfree ((hexact t hts).mpr ⟨_, hmem, hσ, rfl⟩)
  have heq : κ.key i k n = P.nextKey κ σ i' t :=
    le_antisymm (Prod.Lex.monotone_fst _ _ hrank) ((hle i hr).trans hkey)
  obtain rfl : i = i' := κ.inj heq
  have hunit : P.unitAt σ i t = ⟨i, k, ran σ i (k * P.T i) t⟩ := unitAt_of_window hrel hend rfl
  refine ⟨hσ, ?_⟩
  have hle : n ≤ ran σ i (k * P.T i) t := by
    rw [hunit] at hrank
    have hkeys : κ.key i k n = κ.key i k (ran σ i (k * P.T i) t) := by
      rw [heq, nextKey, release_of_window hrel hend, hdiv]
    have hsnd := (Prod.Lex.toLex_le_toLex'.mp hrank).2 hkeys
    exact (Prod.Lex.toLex_le_toLex'.mp hsnd).2 rfl
  rw [hunit, le_antisymm hran hle]

theorem FollowsKeys.window (hruns : P.Runs σ u t) :
    P.start κ u.1 u.2.1 ≤ t ∧ t < (u.2.1 + 1) * P.T u.1 := by
  have hk : t / P.T u.1 = u.2.1 := congrArg (fun u => u.2.1) hruns.2
  have hstart := (h.run t u.1 hruns.1).1.2
  have hwin := (mem_window (P := P) (i := u.1) (t := t)).2
  rw [hk] at hstart hwin
  exact ⟨hstart, hwin⟩

theorem FollowsKeys.exact_place (hexact : P.Exact σ s l taken) (hu : u ∉ l)
    (hclosed : ∀ v, κ.rank v < κ.rank u → v.2.2 < P.C v.1 → P.start κ v.1 v.2.1 < s → v ∈ l)
    (hn : u.2.2 < P.C u.1) : P.Exact σ s (l ++ [u]) (P.place κ taken u) := by
  have hmem : ∀ t, (∃ v ∈ l ++ [u], P.Runs σ v t) ↔ (∃ v ∈ l, P.Runs σ v t) ∨ P.Runs σ u t := by
    intro t
    simp only [List.mem_append, List.mem_singleton, or_and_right, exists_or, exists_eq_left]
  intro t hts
  rw [hmem, ← hexact t hts]
  unfold place
  split
  · next t₀ ht₀ =>
    obtain ⟨hstart, hend, hfree, hfirst⟩ := firstFree_eq_some.mp ht₀
    rw [Finset.mem_insert]
    constructor
    · rintro (rfl | htaken)
      · exact .inr (h.runs_of_first hexact hu hclosed hn hts hstart hend hfree hfirst)
      · exact .inl htaken
    · rintro (htaken | hruns)
      · exact .inr htaken
      · rcases Nat.lt_trichotomy t t₀ with hlt | heq | hgt
        · exact .inr (hfirst t hlt (h.window hruns).1)
        · exact .inl heq
        · -- the unit ran before
          have hruns₀ := h.runs_of_first hexact hu hclosed hn (hgt.trans hts) hstart hend hfree
            hfirst
          exact .inl (unitAt_inj hruns.1 hruns₀.1 (hruns.2.trans hruns₀.2.symm))
  · next hnone =>
    refine ⟨.inl, fun hor => hor.elim id fun hruns => ?_⟩
    obtain ⟨hstart, hend⟩ := h.window hruns
    exact firstFree_eq_none.mp hnone t hend hstart

/-- **The units run in the slots they take.** -/
theorem FollowsKeys.exact_layOut (hl : P.Initial κ s l) : P.Exact σ s l (P.layOut κ l) := by
  induction l using List.reverseRecOn with
  | nil =>
    intro t _
    simp [layOut]
  | append_singleton l u ih =>
    obtain ⟨hsorted, hclosed, hle⟩ := hl
    obtain ⟨hsorted', -, hlast⟩ := List.pairwise_append.mp hsorted
    have hlt : ∀ v ∈ l, κ.rank v < κ.rank u := fun v hv => hlast v hv u (List.mem_singleton_self u)
    have hbefore : ∀ w ∈ l ++ [u], ∀ v, κ.rank v < κ.rank w → κ.rank w ≤ κ.rank u →
        v.2.2 < P.C v.1 → P.start κ v.1 v.2.1 < s → v ∈ l := by
      intro w hw v hvw hwu hn hstart
      refine (List.mem_append.mp (hclosed w hw v hvw hn hstart)).resolve_right fun hv => ?_
      rw [List.mem_singleton.mp hv] at hvw
      exact absurd hvw hwu.not_gt
    have hu : u ∈ l ++ [u] := List.mem_append_right l (List.mem_singleton_self u)
    have hl : P.Initial κ s l :=
      ⟨hsorted', fun w hw v hvw => hbefore w (List.mem_append_left _ hw) v hvw (hlt w hw).le,
        fun v hv => hle v (List.mem_append_left _ hv)⟩
    have hplace : P.layOut κ (l ++ [u]) = P.place κ (P.layOut κ l) u := by
      rw [layOut, List.foldl_append]
      rfl
    rw [hplace]
    exact h.exact_place (ih hl) (fun hmem => lt_irrefl _ (hlt u hmem))
      (fun v hv => hbefore u hu v hv le_rfl) (hle u hu)

/-- **A unit runs before `s` exactly if it finds a free slot before `s`.** -/
theorem FollowsKeys.laidOut_iff [Fintype ι] (hn : n < P.C j) (hs : s ≤ (k + 1) * P.T j) :
    P.LaidOut κ j k n s ↔ n < ran σ j (k * P.T j) s := by
  set l := P.sortedBefore κ ⟨j, k, n⟩ s with hl
  have hmem : ∀ v, v ∈ l ↔ v.2.2 < P.C v.1 ∧ P.start κ v.1 v.2.1 < s ∧
      κ.rank v < κ.rank ⟨j, k, n⟩ := by
    rintro ⟨i, k', n'⟩
    rw [hl, mem_sortedBefore, unitsBefore, Finset.mem_filter, mem_due]
    exact ⟨fun hv => ⟨hv.1.1, hv.1.2.2.1, hv.2⟩,
      fun hv => ⟨⟨hv.1, Nat.zero_le _, hv.2.1, key_le_of_rank_lt hv.2.2⟩, hv.2.2⟩⟩
  have hu : ⟨j, k, n⟩ ∉ l := fun hu => lt_irrefl _ ((hmem _).mp hu).2.2
  have hexact := h.exact_layOut (l := l) (s := s)
    ⟨pairwise_sortedBefore, fun u hu v hvu hv hstart =>
      (hmem v).mpr ⟨hv, hstart, hvu.trans ((hmem u).mp hu).2.2⟩, fun u hu => ((hmem u).mp hu).1⟩
  constructor
  · rintro ⟨t, hts, hstart, hfree⟩
    obtain ⟨t₀, ht₀⟩ : ∃ t₀, P.firstFree κ (P.layOut κ l) ⟨j, k, n⟩ = some t₀ :=
      Option.ne_none_iff_exists'.mp fun hnone =>
        hfree (firstFree_eq_none.mp hnone t (hts.trans_le hs) hstart)
    obtain ⟨hstart₀, hend, hfree₀, hfirst⟩ := firstFree_eq_some.mp ht₀
    have hle : t₀ ≤ t := not_lt.mp fun hlt => hfree (hfirst t hlt hstart)
    obtain ⟨hσ, hunit⟩ := h.runs_of_first hexact hu (fun v hv hn hst => (hmem v).mpr ⟨hn, hst, hv⟩)
      hn (hle.trans_lt hts) hstart₀ hend hfree₀ hfirst
    have hrel : k * P.T j ≤ t₀ := le_trans (Nat.le_add_right _ _) hstart₀
    have hran : ran σ j (k * P.T j) t₀ = n := by
      have hn' := congrArg (fun u => u.2.2) hunit
      rwa [unitAt_of_window hrel hend rfl] at hn'
    calc n = ran σ j (k * P.T j) t₀ := hran.symm
      _ < ran σ j (k * P.T j) (t₀ + 1) := by
        rw [ran_succ σ j hrel, if_pos hσ]
        exact Nat.lt_succ_self _
      _ ≤ ran σ j (k * P.T j) s := ran_mono_right (hle.trans_lt hts)
  · intro hran
    obtain ⟨t, h1, h2, h3, h4⟩ := h.exists_slot hran hs
    refine ⟨t, h2, h1, fun htaken => ?_⟩
    obtain ⟨v, hv, hruns⟩ := (hexact t h2).mp htaken
    exact hu (Runs.eq (u := ⟨j, k, n⟩) ⟨h3, h4⟩ hruns ▸ hv)

/-- A job is met exactly if its last unit finds a free slot. -/
theorem FollowsKeys.met_iff_laidOut [Fintype ι] :
    P.Met σ j k ↔ P.LaidOut κ j k (P.C j - 1) ((k + 1) * P.T j) := by
  have hpos := P.C_pos j
  have hle := ran_window_le h.sane j k _ le_rfl
  rw [h.laidOut_iff (Nat.sub_lt hpos Nat.one_pos) le_rfl, Met]
  omega

omit h in
theorem laxity_of_late {m : ℕ} (hC : P.C i ≤ P.T i + 1) (hm : m + 2 ≤ P.C i)
    (ht : t + P.C i = (k + 1) * P.T i + m + 1) (hran : ran σ i (k * P.T i) t = m) :
    P.Pending σ i t ∧ P.laxity σ i t = -1 := by
  have hmul : (k + 1) * P.T i = k * P.T i + P.T i := Nat.succ_mul _ _
  have hrel : P.release i t = k * P.T i := release_of_window (by omega) (by omega)
  rw [Pending, laxity, deadline, hrel, hran]
  omega

/-- **No pending job gets to the laxity `-1`** exactly if its units are laid out in time. -/
theorem FollowsKeys.timely_iff [Fintype ι] {N : ℕ} : P.Timely κ i N ↔
    ∀ t < N, P.Pending σ i t → P.laxity σ i t ≠ -1 := by
  constructor
  · intro htimely t htN hp hlax
    have hwin := mem_window (P := P) (i := i) (t := t)
    have hmul : (t / P.T i + 1) * P.T i = t / P.T i * P.T i + P.T i := Nat.succ_mul _ _
    have hran : ran σ i (t / P.T i * P.T i) t ≤ t - t / P.T i * P.T i := by
      simpa using sum_ran_le σ {i} (t / P.T i * P.T i) t
    simp only [laxity, deadline, release, Pending] at hlax hp
    have hlaid := htimely (by omega) (t / P.T i) (ran σ i (t / P.T i * P.T i) t) t (by omega)
      (by omega) htN
    rw [h.laidOut_iff hp hwin.2.le] at hlaid
    exact lt_irrefl _ hlaid
  · intro hlax hC k m
    have hnot : ∀ m t, m + 2 ≤ P.C i → t + P.C i = (k + 1) * P.T i + m + 1 → t < N →
        ran σ i (k * P.T i) t ≠ m := fun m t hm ht htN hran => by
      obtain ⟨hp, heq⟩ := laxity_of_late hC hm ht hran
      exact hlax t htN hp heq
    induction m with
    | zero =>
      intro t hm ht htN
      rw [h.laidOut_iff (by omega) (by omega)]
      exact Nat.pos_of_ne_zero (hnot 0 t hm ht htN)
    | succ m ih =>
      intro t hm ht htN
      have hmul : (k + 1) * P.T i = k * P.T i + P.T i := Nat.succ_mul _ _
      -- the unit before was laid out in time
      have hprev := ih (t - 1) (by omega) (by omega) (by omega)
      rw [h.laidOut_iff (by omega) (by omega)] at hprev ⊢
      have hmono : ran σ i (k * P.T i) (t - 1) ≤ ran σ i (k * P.T i) t :=
        ran_mono_right (Nat.sub_le t 1)
      exact lt_of_le_of_ne (hprev.trans_le hmono) (hnot (m + 1) t hm ht htN).symm

end Follows

end Tasks

end Ecen5623.Library.PeriodicTasks
