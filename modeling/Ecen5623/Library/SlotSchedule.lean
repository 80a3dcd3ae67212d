import Mathlib.Algebra.BigOperators.Intervals
import Mathlib.Algebra.Order.BigOperators.Group.Finset
import Mathlib.Tactic.Linarith

/-! # Schedules of one processor, slot by slot

A schedule says for every slot `t` which task runs in it, if any. `ran σ i a b` is the number of
slots of `[a, b)` given to the task `i`. Counts of adjacent intervals add up (`ran_add`), and the
counts of different tasks share the slots of an interval: `sum_ran_le` in general, `sum_ran_eq` for
an interval in which every slot goes to one of the tasks counted. Exchanging two slots changes the
count of a task only in the intervals that contain one of them (`ran_swap_of_mem`,
`ran_swap_of_ne`). -/

namespace Ecen5623.Library.SlotSchedule

/-- A schedule: what runs in slot `t`. -/
abbrev Schedule (ι : Type*) := ℕ → Option ι

variable {ι : Type*} [DecidableEq ι]

/-- The number of slots of `[a, b)` in which `i` runs. -/
def ran (σ : Schedule ι) (i : ι) (a b : ℕ) : ℕ :=
  ((Finset.Ico a b).filter fun t => σ t = some i).card

variable {σ τ : Schedule ι} {i j : ι} {a b c : ℕ}

@[simp] theorem ran_self (σ : Schedule ι) (i : ι) (a : ℕ) : ran σ i a a = 0 := by simp [ran]

theorem ran_of_le (h : b ≤ a) : ran σ i a b = 0 := by simp [ran, Finset.Ico_eq_empty_of_le h]

theorem ran_add (σ : Schedule ι) (i : ι) (hab : a ≤ b) (hbc : b ≤ c) :
    ran σ i a b + ran σ i b c = ran σ i a c := by
  unfold ran
  rw [← Finset.Ico_union_Ico_eq_Ico hab hbc, Finset.filter_union, Finset.card_union_of_disjoint]
  exact Finset.disjoint_filter_filter (Finset.Ico_disjoint_Ico_consecutive a b c)

theorem ran_succ (σ : Schedule ι) (i : ι) (h : a ≤ b) :
    ran σ i a (b + 1) = ran σ i a b + if σ b = some i then 1 else 0 := by
  rw [← ran_add σ i h (Nat.le_succ b)]
  congr 1
  simp [ran, Finset.filter_singleton, apply_ite Finset.card]

theorem ran_mono_right (h : b ≤ c) : ran σ i a b ≤ ran σ i a c :=
  Finset.card_le_card (Finset.filter_subset_filter _ (Finset.Ico_subset_Ico_right h))

theorem ran_congr (h : ∀ t, a ≤ t → t < b → σ t = τ t) : ran σ i a b = ran τ i a b := by
  unfold ran
  congr 1
  refine Finset.filter_congr fun t ht => ?_
  rw [Finset.mem_Ico] at ht
  rw [h t ht.1 ht.2]

theorem ran_eq_zero (h : ∀ t, a ≤ t → t < b → σ t ≠ some i) : ran σ i a b = 0 := by
  unfold ran
  rw [Finset.card_eq_zero, Finset.filter_eq_empty_iff]
  intro t ht
  rw [Finset.mem_Ico] at ht
  exact h t ht.1 ht.2

theorem exists_of_ran_pos (h : 0 < ran σ i a b) : ∃ t, a ≤ t ∧ t < b ∧ σ t = some i := by
  obtain ⟨t, ht⟩ := Finset.card_pos.mp h
  rw [Finset.mem_filter, Finset.mem_Ico] at ht
  exact ⟨t, ht.1.1, ht.1.2, ht.2⟩

/-- The count goes up by one at a time: before the slot of the `n`-th unit it is `n`. -/
theorem exists_slot_of_lt_ran {n : ℕ} : ∀ {b}, n < ran σ i a b →
    ∃ t, a ≤ t ∧ t < b ∧ σ t = some i ∧ ran σ i a t = n
  | 0, h => by rw [ran_of_le (Nat.zero_le a)] at h; exact absurd h (Nat.not_lt_zero n)
  | b + 1, h => by
    rcases Nat.lt_or_ge n (ran σ i a b) with hlt | hge
    · obtain ⟨t, h1, h2, h3, h4⟩ := exists_slot_of_lt_ran hlt
      exact ⟨t, h1, by omega, h3, h4⟩
    · have hab : a ≤ b := by
        by_contra hba
        rw [ran_of_le (by omega)] at h
        exact Nat.not_lt_zero n h
      rw [ran_succ σ i hab] at h
      split_ifs at h with hb
      · exact ⟨b, hab, Nat.lt_succ_self b, hb, by omega⟩
      · omega

/-! ### Sharing the slots of an interval -/

theorem sum_ran_eq_card (σ : Schedule ι) (s : Finset ι) (a b : ℕ) :
    ∑ i ∈ s, ran σ i a b = ((Finset.Ico a b).filter fun t => ∃ i ∈ s, σ t = some i).card := by
  have hdisj : ∀ i ∈ s, ∀ j ∈ s, i ≠ j →
      Disjoint ((Finset.Ico a b).filter fun t => σ t = some i)
        ((Finset.Ico a b).filter fun t => σ t = some j) := by
    intro i _ j _ hij
    refine Finset.disjoint_filter.mpr fun t _ h1 h2 => hij ?_
    exact Option.some.inj (h1.symm.trans h2)
  unfold ran
  rw [← Finset.card_biUnion hdisj]
  congr 1
  ext t
  simp only [Finset.mem_biUnion, Finset.mem_filter]
  constructor
  · rintro ⟨i, hi, ht, h⟩; exact ⟨ht, i, hi, h⟩
  · rintro ⟨ht, i, hi, h⟩; exact ⟨i, hi, ht, h⟩

theorem sum_ran_le (σ : Schedule ι) (s : Finset ι) (a b : ℕ) : ∑ i ∈ s, ran σ i a b ≤ b - a := by
  rw [sum_ran_eq_card]
  exact (Finset.card_filter_le _ _).trans (by simp)

theorem sum_ran_eq (s : Finset ι) (h : ∀ t, a ≤ t → t < b → ∃ i ∈ s, σ t = some i) :
    ∑ i ∈ s, ran σ i a b = b - a := by
  rw [sum_ran_eq_card, Finset.filter_true_of_mem, Nat.card_Ico]
  intro t ht
  rw [Finset.mem_Ico] at ht
  exact h t ht.1 ht.2

/-! ### Exchanging two slots -/

/-- The schedule with the slots `t` and `u` exchanged. -/
def swap (σ : Schedule ι) (t u : ℕ) : Schedule ι := σ ∘ Equiv.swap t u

omit [DecidableEq ι] in
theorem swap_left (σ : Schedule ι) (t u : ℕ) : swap σ t u t = σ u := by simp [swap]

omit [DecidableEq ι] in
theorem swap_of_ne {t u x : ℕ} (ht : x ≠ t) (hu : x ≠ u) : swap σ t u x = σ x := by
  simp [swap, Equiv.swap_apply_of_ne_of_ne ht hu]

theorem swap_mem_Ico {t u x : ℕ} (ht : t ∈ Finset.Ico a b) (hu : u ∈ Finset.Ico a b)
    (hx : x ∈ Finset.Ico a b) : Equiv.swap t u x ∈ Finset.Ico a b := by
  by_cases h1 : x = t
  · rw [h1, Equiv.swap_apply_left]; exact hu
  · by_cases h2 : x = u
    · rw [h2, Equiv.swap_apply_right]; exact ht
    · rw [Equiv.swap_apply_of_ne_of_ne h1 h2]; exact hx

theorem ran_swap_of_mem {t u : ℕ} (ht : t ∈ Finset.Ico a b) (hu : u ∈ Finset.Ico a b) :
    ran (swap σ t u) i a b = ran σ i a b := by
  unfold ran
  refine Finset.card_nbij' (Equiv.swap t u) (Equiv.swap t u) ?_ ?_ ?_ ?_
  · intro x hx
    simp only [Finset.coe_filter, Set.mem_ofPred_eq] at hx ⊢
    exact ⟨swap_mem_Ico ht hu hx.1, hx.2⟩
  · intro x hx
    simp only [Finset.coe_filter, Set.mem_ofPred_eq] at hx ⊢
    exact ⟨swap_mem_Ico ht hu hx.1, by simpa [swap] using hx.2⟩
  · exact fun x _ => Equiv.swap_apply_self t u x
  · exact fun x _ => Equiv.swap_apply_self t u x

theorem ran_swap_of_ne {t u : ℕ} (ht : σ t ≠ some i) (hu : σ u ≠ some i) :
    ran (swap σ t u) i a b = ran σ i a b := by
  unfold ran
  congr 1
  refine Finset.filter_congr fun x _ => ?_
  by_cases h1 : x = t
  · rw [h1, swap_left]; simp [ht, hu]
  · by_cases h2 : x = u
    · rw [h2]; simp [swap, ht, hu]
    · rw [swap_of_ne h1 h2]

end Ecen5623.Library.SlotSchedule
