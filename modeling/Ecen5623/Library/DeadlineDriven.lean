import Ecen5623.Library.PeriodicTasks

/-! # Deadline-driven schedules: EDF and least laxity

`EarliestDeadline`: the running job has the earliest deadline of the pending ones.
`edf_feasible`: with utilisation at most one it misses nothing. If the job of `i` due at `d` missed,
take the slots before `d` back to the last one, `b`, not given to a job due by `d`: they hold only
jobs released and due in `[b, d]`, and these ask for at most `(d - b) · utilisation` slots.

`Urgent`: the running job precedes every pending one by deadline or by laxity, so EDF and
least-laxity schedules are both urgent. `urgent_feasible`: if some schedule meets all deadlines then
so does every urgent one. A feasible schedule that agrees with the urgent one before `t` is changed
at `t` by exchanging two slots (`exchange`); laxity decides that the second of them comes early
enough for the job that gives way. -/

namespace Ecen5623.Library.PeriodicTasks.Tasks

open Ecen5623.Library.SlotSchedule

variable {ι : Type*} [DecidableEq ι] (P : Tasks ι)

/-- The pending job of the earliest deadline runs; the processor idles if nothing is pending. -/
structure EarliestDeadline (σ : Schedule ι) : Prop where
  run : ∀ t i, σ t = some i →
    P.Pending σ i t ∧ ∀ j, P.Pending σ j t → P.deadline i t ≤ P.deadline j t
  idle : ∀ t, σ t = none → ∀ j, ¬ P.Pending σ j t

/-- The slots the current job of `i` can still be kept waiting at `t`. -/
def laxity (σ : Schedule ι) (i : ι) (t : ℕ) : ℤ :=
  P.deadline i t - t - (P.C i - ran σ i (P.release i t) t)

/-- The running job comes before every pending one by deadline or by laxity. -/
structure Urgent (σ : Schedule ι) : Prop where
  run : ∀ t i, σ t = some i → P.Pending σ i t ∧ ∀ j, P.Pending σ j t →
    P.deadline i t ≤ P.deadline j t ∨ P.laxity σ i t ≤ P.laxity σ j t
  idle : ∀ t, σ t = none → ∀ j, ¬ P.Pending σ j t

variable {P} {σ τ : Schedule ι} {i : ι} {b d k t u : ℕ}

theorem EarliestDeadline.urgent (h : P.EarliestDeadline σ) : P.Urgent σ where
  run t i ht := ⟨(h.run t i ht).1, fun j hj => Or.inl ((h.run t i ht).2 j hj)⟩
  idle := h.idle

theorem EarliestDeadline.sane (h : P.EarliestDeadline σ) : P.Sane σ :=
  fun t i ht => (h.run t i ht).1

/-! ### The demand of jobs with release and deadline in an interval -/

/-- If `i` runs in `[b, d)` only in jobs released at `b` or later and due by `d`, then it runs for
`n` whole windows at most, which take up `n T ≤ d - b` slots. -/
theorem ran_within_le (hs : P.Sane σ) (hbd : b ≤ d)
    (hw : ∀ t, b ≤ t → t < d → σ t = some i → b ≤ P.release i t ∧ P.deadline i t ≤ d) :
    ∃ n, n * P.T i ≤ d - b ∧ ran σ i b d ≤ n * P.C i := by
  have hT := P.T_pos i
  rcases Nat.eq_zero_or_pos (ran σ i b d) with h0 | hpos
  · exact ⟨0, by omega, by omega⟩
  obtain ⟨t, hbt, htd, hrun⟩ := exists_of_ran_pos hpos
  obtain ⟨hr, hdl⟩ := hw t hbt htd hrun
  -- windows `k`, …, `m - 1` lie in `[b, d)`; outside of them `i` does not run
  set k := b ⌈/⌉ P.T i with hk
  set m := d / P.T i with hm
  have hbk : b ≤ k * P.T i := by
    have h := le_smul_ceilDiv hT (b := b)
    rwa [smul_eq_mul, Nat.mul_comm] at h
  have hmd : m * P.T i ≤ d := Nat.div_mul_le_self _ _
  have hlow : ∀ t, b ≤ t → t < d → σ t = some i → k * P.T i ≤ t ∧ t < m * P.T i := by
    intro t h1 h2 h3
    obtain ⟨h4, h5⟩ := hw t h1 h2 h3
    have h6 : k ≤ t / P.T i := by
      rw [hk, ceilDiv_le_iff_le_smul hT, smul_eq_mul, Nat.mul_comm]; exact h4
    have h7 : t / P.T i + 1 ≤ m := by
      rw [hm, Nat.le_div_iff_mul_le hT, Nat.succ_mul]; exact h5
    have h8 := mem_window (P := P) (i := i) (t := t)
    have h9 : k * P.T i ≤ t / P.T i * P.T i := Nat.mul_le_mul_right _ h6
    have h10 : (t / P.T i + 1) * P.T i ≤ m * P.T i := Nat.mul_le_mul_right _ h7
    omega
  have hkm : k * P.T i ≤ m * P.T i := by
    have := hlow t hbt htd hrun
    omega
  have hkm' : k ≤ m := Nat.le_of_mul_le_mul_right hkm hT
  refine ⟨m - k, ?_, ?_⟩
  · rw [Nat.sub_mul]; omega
  · have h1 : ran σ i b (k * P.T i) = 0 := ran_eq_zero fun t h1 h2 h3 => by
      have := hlow t h1 (by omega) h3
      omega
    have h2 : ran σ i (m * P.T i) d = 0 := ran_eq_zero fun t h1 h2 h3 => by
      have := hlow t (by omega) h2 h3
      omega
    have h3 := ran_windows_le hs i k (m - k)
    rw [Nat.add_sub_cancel' hkm'] at h3
    rw [← ran_add σ i hbk (hkm.trans hmd), ← ran_add σ i hkm hmd, h1, h2]
    omega

omit [DecidableEq ι] in
theorem exists_due_start (Q : ℕ → Prop) (d : ℕ) :
    ∃ b ≤ d, (∀ t, b ≤ t → t < d → Q t) ∧ (b = 0 ∨ ∃ b', b = b' + 1 ∧ ¬ Q b') := by
  induction d with
  | zero => exact ⟨0, le_rfl, fun t _ h => absurd h (Nat.not_lt_zero t), Or.inl rfl⟩
  | succ d ih =>
    by_cases hQ : Q d
    · obtain ⟨b, hb, hall, hstart⟩ := ih
      refine ⟨b, by omega, fun t h1 h2 => ?_, hstart⟩
      rcases Nat.lt_succ_iff_lt_or_eq.mp h2 with h | rfl
      · exact hall t h1 h
      · exact hQ
    · exact ⟨d + 1, le_rfl, fun t h1 h2 => absurd h1 (by omega), Or.inr ⟨d, rfl, hQ⟩⟩

section Edf
variable [Fintype ι]

omit [DecidableEq ι] in
theorem sum_windows_le (hU : P.utilisation ≤ 1) (n : ι → ℕ) (L : ℕ)
    (hn : ∀ i, n i * P.T i ≤ L) : ∑ i, n i * P.C i ≤ L := by
  have hq : ((∑ i, n i * P.C i : ℕ) : ℚ) ≤ L * P.utilisation := by
    rw [utilisation, Finset.mul_sum, Nat.cast_sum]
    refine Finset.sum_le_sum fun i _ => ?_
    have hT : (0 : ℚ) < P.T i := by exact_mod_cast P.T_pos i
    have hni : (n i : ℚ) * P.T i ≤ L := by exact_mod_cast hn i
    rw [Nat.cast_mul, mul_div_assoc', le_div_iff₀ hT]
    calc (n i : ℚ) * P.C i * P.T i = n i * P.T i * P.C i := by ring
      _ ≤ L * P.C i := mul_le_mul_of_nonneg_right hni (Nat.cast_nonneg _)
  have hL : (L : ℚ) * P.utilisation ≤ L := mul_le_of_le_one_right (Nat.cast_nonneg _) hU
  exact_mod_cast hq.trans hL

/-- **EDF misses no deadline** if the utilisation is at most one. -/
theorem edf_feasible (h : P.EarliestDeadline σ) (hU : P.utilisation ≤ 1) : P.Feasible σ := by
  intro i k
  by_contra hmiss
  rw [not_met_iff h.sane] at hmiss
  set a := k * P.T i with ha
  set d := (k + 1) * P.T i with hd
  have had : d = a + P.T i := Nat.succ_mul _ _
  obtain ⟨b, hbd, hdue, hstart⟩ :=
    exists_due_start (fun t => ∃ j, σ t = some j ∧ P.deadline j t ≤ d) d
  -- at `b - 1` nothing due by `d` was pending, so such jobs are released at `b` or later
  have hrel : ∀ j t, b ≤ t → P.Pending σ j t → P.deadline j t ≤ d → b ≤ P.release j t := by
    intro j t hbt hp hdl
    rcases hstart with rfl | ⟨b', rfl, hb'⟩
    · exact Nat.zero_le _
    · by_contra hlt
      have h1 : P.release j t ≤ b' := by omega
      have hp' := hp.of_le h1 (by omega : b' ≤ t)
      have hdl' : P.deadline j b' ≤ d := by
        rw [deadline_congr h1 (lt_trans (by omega) lt_deadline : b' < P.deadline j t)]
        exact hdl
      rcases hσ : σ b' with _ | i'
      · exact h.idle b' hσ j hp'
      · exact hb' ⟨i', hσ, ((h.run b' i' hσ).2 j hp').trans hdl'⟩
  have hwin : ∀ j t, b ≤ t → t < d → σ t = some j →
      b ≤ P.release j t ∧ P.deadline j t ≤ d := by
    intro j t h1 h2 h3
    obtain ⟨j', h4, h5⟩ := hdue t h1 h2
    obtain rfl : j' = j := Option.some.inj (h4.symm.trans h3)
    exact ⟨hrel j' t h1 (h.sane t j' h3) h5, h5⟩
  -- the missed job itself is released at `b` or later
  have hba : b ≤ a := by
    have hT := P.T_pos i
    have hwn : b ≤ a ∨ b < d ∨ b = d := by omega
    rcases hwn with hle | hlt | heq
    · exact hle
    · by_contra hgt
      have hp : P.Pending σ i b := pending_of_lt hmiss (by omega) hlt
      have h1 := hrel i b le_rfl hp (deadline_of_window (by omega) hlt).le
      rw [release_of_window (k := k) (by omega) hlt] at h1
      omega
    · -- `b = d`: the slot `d - 1` has the missed job pending
      rcases hstart with rfl | ⟨b', rfl, hb'⟩
      · omega
      · have hp : P.Pending σ i b' := pending_of_lt hmiss (by omega) (by omega)
        have hdl : P.deadline i b' = d := deadline_of_window (by omega) (by omega)
        rcases hσ : σ b' with _ | i'
        · exact absurd hp (h.idle b' hσ i)
        · exact absurd ⟨i', hσ, ((h.run b' i' hσ).2 i hp).trans hdl.le⟩ hb'
  have hslots : ∑ j, ran σ j b d = d - b := sum_ran_eq _ fun t h1 h2 => by
    obtain ⟨j, hj, -⟩ := hdue t h1 h2
    exact ⟨j, Finset.mem_univ _, hj⟩
  have hn : ∀ j, ∃ n, n * P.T j ≤ d - b ∧ ran σ j b d ≤ n * P.C j ∧
      (j = i → ran σ j b d < n * P.C j) := by
    intro j
    by_cases hji : j = i
    · -- one window fewer before `a`, and less than a run time in the last one
      subst hji
      obtain ⟨n, h1, h2⟩ := ran_within_le h.sane hba fun t h1 h2 h3 =>
        ⟨(hwin j t h1 (by omega) h3).1, by
          have h4 : t / P.T j < k := by
            rw [Nat.div_lt_iff_lt_mul (P.T_pos j)]; exact h2
          have h5 : (t / P.T j + 1) * P.T j ≤ k * P.T j := Nat.mul_le_mul_right _ h4
          rwa [Nat.succ_mul] at h5⟩
      have h3 := ran_add σ j hba (by omega : a ≤ d)
      refine ⟨n + 1, by rw [Nat.succ_mul]; omega, ?_, fun _ => ?_⟩ <;> rw [Nat.succ_mul] <;> omega
    · obtain ⟨n, h1, h2⟩ := ran_within_le h.sane hbd (hwin j)
      exact ⟨n, h1, h2, fun h => absurd h hji⟩
  choose n hn1 hn2 hn3 using hn
  have hlt : ∑ j, ran σ j b d < ∑ j, n j * P.C j :=
    Finset.sum_lt_sum (fun j _ => hn2 j) ⟨i, Finset.mem_univ _, hn3 i rfl⟩
  have := sum_windows_le hU n (d - b) hn1
  omega

end Edf

/-! ### The exchange argument -/

theorem Feasible.sane (h : P.Feasible τ) : P.Sane τ := by
  intro t i ht
  have hwin := mem_window (P := P) (i := i) (t := t)
  have h1 : ran τ i (t / P.T i * P.T i) (t + 1) ≤ P.C i :=
    (ran_mono_right hwin.2).trans (h i (t / P.T i)).le
  rw [ran_succ τ i hwin.1, if_pos ht] at h1
  exact h1

/-- **Two slots can be exchanged** if the tasks running in them have both in one window. -/
theorem Feasible.swap (h : P.Feasible τ)
    (hw : ∀ l, τ t = some l ∨ τ u = some l → t / P.T l = u / P.T l) :
    P.Feasible (SlotSchedule.swap τ t u) := by
  intro l k
  refine Eq.trans ?_ (h l k)
  by_cases hl : τ t = some l ∨ τ u = some l
  · have hdiv := hw l hl
    have ht := mem_window (P := P) (i := l) (t := t)
    have hu := mem_window (P := P) (i := l) (t := u)
    rw [← hdiv] at hu
    by_cases hk : k = t / P.T l
    · rw [hk]
      exact ran_swap_of_mem (Finset.mem_Ico.mpr ht) (Finset.mem_Ico.mpr hu)
    · refine ran_congr fun x h1 h2 => swap_of_ne ?_ ?_
      · rintro rfl; exact hk (div_eq_of_window h1 h2).symm
      · rintro rfl; exact hk ((div_eq_of_window h1 h2).symm.trans hdiv.symm)
  · rw [not_or] at hl
    exact ran_swap_of_ne hl.1 hl.2

theorem Feasible.ran_release_add (h : P.Feasible τ) (i : ι) (t : ℕ) :
    ran τ i (P.release i t) t + ran τ i t (P.deadline i t) = P.C i := by
  rw [ran_add τ i (release_le (P := P)) lt_deadline.le]
  have hmet := h i (t / P.T i)
  rwa [Met, Nat.succ_mul] at hmet

theorem Feasible.laxity_nonneg (h : P.Feasible τ) (i : ι) (t : ℕ) : 0 ≤ P.laxity τ i t := by
  have h1 := h.ran_release_add i t
  have h2 : ran τ i t (P.deadline i t) ≤ P.deadline i t - t := by
    simpa using sum_ran_le τ {i} t (P.deadline i t)
  have h3 : t < P.deadline i t := lt_deadline
  unfold laxity
  omega

theorem Feasible.exists_later (h : P.Feasible τ) (hp : P.Pending τ i t) :
    ∃ u, t ≤ u ∧ u < P.deadline i t ∧ τ u = some i := by
  refine exists_of_ran_pos (Nat.pos_of_ne_zero fun h0 => ?_)
  have hadd := h.ran_release_add i t
  unfold Pending at hp
  omega

/-- If `i` is at most as lax as `j`, which runs at `t`, then `i` runs before the deadline of `j`. -/
theorem Feasible.exists_before (h : P.Feasible τ) {j : ι} (hp : P.Pending τ i t)
    (hj : τ t = some j)
    (hle : P.deadline i t ≤ P.deadline j t ∨ P.laxity τ i t ≤ P.laxity τ j t) :
    ∃ u, t ≤ u ∧ u < P.deadline i t ∧ u < P.deadline j t ∧ τ u = some i := by
  rcases Nat.lt_or_ge (P.deadline j t) (P.deadline i t) with hlt | hge
  · have hlax := hle.resolve_left (not_le.mpr hlt)
    have hjt : t < P.deadline j t := lt_deadline
    have hpos : 0 < ran τ i t (P.deadline j t) := by
      -- otherwise what `i` has left runs after the deadline of `j`, and `i` is the laxer one
      refine Nat.pos_of_ne_zero fun h0 => ?_
      have h1 := h.ran_release_add i t
      have h2 := ran_add τ i hjt.le hlt.le
      have h3 : ran τ i (P.deadline j t) (P.deadline i t) ≤ P.deadline i t - P.deadline j t := by
        simpa using sum_ran_le τ {i} (P.deadline j t) (P.deadline i t)
      have h4 := h.sane t j hj
      unfold Pending at h4
      unfold laxity at hlax
      omega
    obtain ⟨u, h1, h2, h3⟩ := exists_of_ran_pos hpos
    exact ⟨u, h1, h2.trans hlt, h2, h3⟩
  · obtain ⟨u, h1, h2, h3⟩ := h.exists_later hp
    exact ⟨u, h1, h2, lt_of_lt_of_le h2 hge, h3⟩

omit [DecidableEq ι] in
theorem div_eq_of_lt_deadline (h1 : t ≤ u) (h2 : u < P.deadline i t) : t / P.T i = u / P.T i := by
  refine (div_eq_of_window (release_le.trans h1) ?_).symm
  rw [Nat.succ_mul]; exact h2

/-- **The exchange.** A feasible schedule that agrees with an urgent one before `t` can be made to
agree with it at `t` as well. -/
theorem exchange (hσ : P.Urgent σ) (h : P.Feasible τ) (hag : ∀ u < t, τ u = σ u) :
    ∃ τ', P.Feasible τ' ∧ ∀ u < t + 1, τ' u = σ u := by
  have hran : ∀ i, ran τ i (P.release i t) t = ran σ i (P.release i t) t :=
    fun i => ran_congr fun u _ hu => hag u hu
  have hpend : ∀ i, P.Pending τ i t ↔ P.Pending σ i t := fun i => by unfold Pending; rw [hran i]
  have hlax : ∀ i, P.laxity τ i t = P.laxity σ i t := fun i => by unfold laxity; rw [hran i]
  by_cases heq : τ t = σ t
  · refine ⟨τ, h, fun u hu => ?_⟩
    rcases Nat.lt_succ_iff_lt_or_eq.mp hu with h1 | rfl
    · exact hag u h1
    · exact heq
  rcases hi : σ t with _ | i
  · -- the urgent schedule idles, so nothing is pending
    rcases hj : τ t with _ | j
    · exact absurd (hj.trans hi.symm) heq
    · exact absurd ((hpend j).mp (h.sane t j hj)) (hσ.idle t hi j)
  · obtain ⟨hp, hle⟩ := hσ.run t i hi
    rw [← hpend] at hp
    have hu : ∃ u, t ≤ u ∧ u < P.deadline i t ∧ τ u = some i ∧
        ∀ j, τ t = some j → u < P.deadline j t := by
      rcases hj : τ t with _ | j
      · obtain ⟨u, h1, h2, h3⟩ := h.exists_later hp
        exact ⟨u, h1, h2, h3, fun j hj' => by cases hj'⟩
      · have hle' := hle j ((hpend j).mp (h.sane t j hj))
        rw [← hlax, ← hlax] at hle'
        obtain ⟨u, h1, h2, h3, h4⟩ := h.exists_before hp hj hle'
        exact ⟨u, h1, h2, h4, fun j' hj' => by cases hj'; exact h3⟩
    obtain ⟨u, htu, hui, hrun, huj⟩ := hu
    refine ⟨SlotSchedule.swap τ t u, h.swap ?_, fun x hx => ?_⟩
    · rintro l (hl | hl)
      · exact div_eq_of_lt_deadline htu (huj l hl)
      · obtain rfl : i = l := Option.some.inj (hrun.symm.trans hl)
        exact div_eq_of_lt_deadline htu hui
    · rcases Nat.lt_succ_iff_lt_or_eq.mp hx with h1 | rfl
      · rw [swap_of_ne (by omega) (by omega)]; exact hag x h1
      · rw [swap_left, hrun, hi]

/-- **Urgent schedules are optimal**: they meet all deadlines if some schedule does. -/
theorem urgent_feasible (hσ : P.Urgent σ) (h : P.Feasible τ) : P.Feasible σ := by
  have hagree : ∀ t, ∃ τ', P.Feasible τ' ∧ ∀ u < t, τ' u = σ u := by
    intro t
    induction t with
    | zero => exact ⟨τ, h, fun u hu => absurd hu (Nat.not_lt_zero u)⟩
    | succ t ih =>
      obtain ⟨τ', h1, h2⟩ := ih
      exact exchange hσ h1 h2
  intro i k
  obtain ⟨τ', h1, h2⟩ := hagree ((k + 1) * P.T i)
  exact (ran_congr fun t _ ht => (h2 t ht).symm).trans (h1 i k)

end Ecen5623.Library.PeriodicTasks.Tasks
