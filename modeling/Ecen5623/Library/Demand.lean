import Ecen5623.Library.PeriodicTasks
import Mathlib.Algebra.Order.Archimedean.Basic
import Mathlib.Data.Fintype.Lattice
import Mathlib.Data.Nat.Cast.Order.Field

/-! # The demand of the higher priorities

`demand i x` is what the tasks of priority at least `i` (the smaller the higher) ask for in `x`
slots when all of them are released together. Task `i` *fits* if `demand i x ≤ x` for some
`1 ≤ x ≤ T i`. Two ways of deciding this:

* `fits_iff_point`: it is enough to try the multiples of the periods (`exists_point`), because the
  demand changes only there.
* `le_period_iff_fits`: the least fixed point of `response i`, found by iteration from the sum of
  the run times, is at most `T i`. `response` charges one job of `i` and agrees with `demand` up to
  the period of `i`.

Tasks that fit in some order of the priorities fit in the order of their periods (`fits_of_sorted`).

The iteration ends exactly if the higher priorities alone leave some of the processor free, that is
if their `load` is below one (`iterFix_response_iff`). -/

namespace Ecen5623.Library

/-! ### Iteration to a fixed point -/

/-- Iterate `f` from `a` until nothing changes, for at most `fuel` rounds. -/
def iterFix {α : Type*} [DecidableEq α] (f : α → α) : ℕ → α → Option α
  | 0, _ => none
  | fuel + 1, a => if f a = a then some a else iterFix f fuel (f a)

/-- **The fixed point reached is below every pre-fixed point above the start.** -/
theorem iterFix_spec {α : Type*} [DecidableEq α] [Preorder α] {f : α → α} (hf : Monotone f) :
    ∀ {fuel : ℕ} {a r : α}, iterFix f fuel a = some r →
      f r = r ∧ ∀ x, a ≤ x → f x ≤ x → r ≤ x
  | 0, a, r, h => by simp [iterFix] at h
  | fuel + 1, a, r, h => by
    unfold iterFix at h
    split_ifs at h with hfix
    · cases h
      exact ⟨hfix, fun x hx _ => hx⟩
    · obtain ⟨h1, h2⟩ := iterFix_spec hf h
      exact ⟨h1, fun x hx hfx => h2 x ((hf hx).trans hfx) hfx⟩

theorem iterFix_of_le {α : Type*} [DecidableEq α] {f : α → α} {r : α} :
    ∀ {fuel fuel' : ℕ} {a : α}, iterFix f fuel a = some r → fuel ≤ fuel' →
      iterFix f fuel' a = some r
  | 0, _, a, h, _ => by simp [iterFix] at h
  | fuel + 1, 0, a, _, hle => absurd hle (Nat.not_succ_le_zero fuel)
  | fuel + 1, fuel' + 1, a, h, hle => by
    unfold iterFix at h ⊢
    split_ifs at h ⊢
    · exact h
    · exact iterFix_of_le h (Nat.le_of_succ_le_succ hle)

/-- **An ascending iteration below a pre-fixed point ends.** -/
theorem iterFix_terminates {f : ℕ → ℕ} (hf : Monotone f) {x : ℕ} (hx : f x ≤ x) {a : ℕ}
    (ha : a ≤ f a) (hax : a ≤ x) : ∃ fuel r, iterFix f fuel a = some r := by
  -- the distance to `x` shrinks as long as `a` is not fixed
  induction hd : x - a using Nat.strong_induction_on generalizing a with
  | _ d ih =>
    by_cases hfix : f a = a
    · exact ⟨1, a, if_pos hfix⟩
    · have hlt : a < f a := lt_of_le_of_ne ha (Ne.symm hfix)
      have hfx : f a ≤ x := (hf hax).trans hx
      obtain ⟨fuel, r, h⟩ := ih (x - f a) (by omega) (hf ha) hfx rfl
      exact ⟨fuel + 1, r, by rw [iterFix, if_neg hfix, h]⟩

namespace PeriodicTasks.Tasks

variable {ι : Type*} [LinearOrder ι] [Fintype ι] (P : Tasks ι)

/-- What the tasks of priority at least `i` ask for in `x` slots from a common release. -/
def demand (i : ι) (x : ℕ) : ℕ := ∑ j ∈ Finset.univ.filter (· ≤ i), x ⌈/⌉ P.T j * P.C j

/-- One job of `i` and what the higher priorities ask for. -/
def response (i : ι) (x : ℕ) : ℕ :=
  P.C i + ∑ j ∈ Finset.univ.filter (· < i), x ⌈/⌉ P.T j * P.C j

/-- The demand of `i` is served once within its period. -/
def Fits (i : ι) : Prop := ∃ x, 1 ≤ x ∧ x ≤ P.T i ∧ P.demand i x ≤ x

variable {P} {i j : ι} {x y : ℕ}

omit [LinearOrder ι] [Fintype ι] in
theorem ceilDiv_succ (y : ℕ) : (y + 1) ⌈/⌉ P.T i = y / P.T i + 1 := by
  have hT := P.T_pos i
  rw [Nat.ceilDiv_eq_add_pred_div, show y + 1 + P.T i - 1 = y + P.T i by omega,
    Nat.add_div_right _ hT]

omit [LinearOrder ι] [Fintype ι] in
theorem one_le_ceilDiv (hx : 1 ≤ x) : 1 ≤ x ⌈/⌉ P.T i := by
  obtain ⟨y, rfl⟩ := Nat.exists_eq_add_of_le' hx
  rw [ceilDiv_succ]
  exact Nat.le_add_left 1 _

omit [LinearOrder ι] [Fintype ι] in
theorem ceilDiv_eq_one (hx : 1 ≤ x) (hxT : x ≤ P.T i) : x ⌈/⌉ P.T i = 1 := by
  obtain ⟨y, rfl⟩ := Nat.exists_eq_add_of_le' hx
  rw [ceilDiv_succ, Nat.div_eq_of_lt (by omega)]

omit [LinearOrder ι] [Fintype ι] in
theorem ceilDiv_mono (h : x ≤ y) : x ⌈/⌉ P.T i ≤ y ⌈/⌉ P.T i := by
  rw [Nat.ceilDiv_eq_add_pred_div, Nat.ceilDiv_eq_add_pred_div]
  exact Nat.div_le_div_right (by omega)

omit [LinearOrder ι] [Fintype ι] in
theorem le_ceilDiv_mul (i : ι) (x : ℕ) : x ≤ x ⌈/⌉ P.T i * P.T i := by
  have h := le_smul_ceilDiv (P.T_pos i) (b := x)
  rwa [smul_eq_mul, Nat.mul_comm] at h

omit [LinearOrder ι] [Fintype ι] in
theorem ceilDiv_le_of_le_mul {c : ℕ} (h : x ≤ c * P.T i) : x ⌈/⌉ P.T i ≤ c := by
  rwa [ceilDiv_le_iff_le_smul (P.T_pos i), smul_eq_mul, Nat.mul_comm]

/-! ### Scheduling points -/

/-- **The demand is constant up to the next multiple of a period**: some multiple `l T j` with
`x ≤ l T j ≤ T i` and `j ≤ i` asks for no more than `x`. -/
theorem exists_point (hx : 1 ≤ x) (hxT : x ≤ P.T i) :
    ∃ j ≤ i, ∃ l, 1 ≤ l ∧ l ≤ P.T i / P.T j ∧ x ≤ l * P.T j ∧
      P.demand i (l * P.T j) ≤ P.demand i x := by
  -- the first multiple at or after `x` of any of the periods that does not exceed `T i`
  set next : ι → ℕ := fun j => x ⌈/⌉ P.T j * P.T j with hnext
  set s := Finset.univ.filter fun j => j ≤ i ∧ next j ≤ P.T i with hs
  have hi : i ∈ s := by
    simp only [hs, Finset.mem_filter, Finset.mem_univ, le_refl, true_and, hnext]
    rw [ceilDiv_eq_one hx hxT, Nat.one_mul]
  obtain ⟨j, hj, hmin⟩ := Finset.exists_min_image s next ⟨i, hi⟩
  simp only [hs, Finset.mem_filter, Finset.mem_univ, true_and] at hj
  have hnj : next j = x ⌈/⌉ P.T j * P.T j := rfl
  refine ⟨j, hj.1, x ⌈/⌉ P.T j, one_le_ceilDiv hx, ?_, le_ceilDiv_mul j x, ?_⟩
  · rw [Nat.le_div_iff_mul_le (P.T_pos j)]
    exact hj.2
  · refine Finset.sum_le_sum fun m hm => Nat.mul_le_mul_right _ (ceilDiv_le_of_le_mul ?_)
    rcases Nat.lt_or_ge (P.T i) (next m) with hlt | hge
    · exact hj.2.trans hlt.le
    · exact hmin m (by simpa [hs] using ⟨(Finset.mem_filter.mp hm).2, hge⟩)

/-- **It is enough to try the scheduling points.** -/
theorem fits_iff_point : P.Fits i ↔
    ∃ j ≤ i, ∃ l, 1 ≤ l ∧ l ≤ P.T i / P.T j ∧ P.demand i (l * P.T j) ≤ l * P.T j := by
  constructor
  · rintro ⟨x, hx, hxT, hd⟩
    obtain ⟨j, hj, l, h1, h2, h3, h4⟩ := exists_point hx hxT
    exact ⟨j, hj, l, h1, h2, by omega⟩
  · rintro ⟨j, -, l, h1, h2, hd⟩
    refine ⟨l * P.T j, Nat.mul_pos h1 (P.T_pos j), ?_, hd⟩
    exact (Nat.le_div_iff_mul_le (P.T_pos j)).mp h2

/-! ### Longer periods and shorter run times -/

section Sustainable
variable {Q : Tasks ι} (hT : ∀ j, P.T j ≤ Q.T j) (hC : ∀ j, Q.C j ≤ P.C j)
include hT hC

theorem demand_le_demand (i : ι) (x : ℕ) : Q.demand i x ≤ P.demand i x :=
  Finset.sum_le_sum fun j _ => Nat.mul_le_mul
    (ceilDiv_le_of_le_mul ((le_ceilDiv_mul j x).trans (Nat.mul_le_mul_left _ (hT j)))) (hC j)

/-- **What fits still fits** with longer periods and shorter run times. -/
theorem Fits.sustainable (h : P.Fits i) : Q.Fits i := by
  obtain ⟨x, hx, hxT, hd⟩ := h
  exact ⟨x, hx, hxT.trans (hT i), (demand_le_demand hT hC i x).trans hd⟩

end Sustainable

/-! ### Another order of the priorities -/

/-- **Shorter periods first is best**: tasks that fit in some order fit in the order of their
periods. -/
theorem fits_of_sorted {κ : Type*} [LinearOrder κ] [Fintype κ] {Q : Tasks κ} (e : κ ≃ ι)
    (hT : ∀ k, Q.T k = P.T (e k)) (hC : ∀ k, Q.C k = P.C (e k))
    (hsorted : ∀ k l, k ≤ l → Q.T k ≤ Q.T l) (hfit : ∀ i, P.Fits i) (k : κ) : Q.Fits k := by
  -- the lowest of the old priorities of the tasks up to `k`
  have hne : (Finset.univ.filter (· ≤ k)).Nonempty := ⟨k, by simp⟩
  obtain ⟨l, hl, hmax⟩ := Finset.exists_max_image _ e hne
  have hlk : l ≤ k := (Finset.mem_filter.mp hl).2
  obtain ⟨x, hx, hxT, hd⟩ := hfit (e l)
  refine ⟨x, hx, (hxT.trans (hT l).ge).trans (hsorted l k hlk), le_trans ?_ hd⟩
  calc Q.demand k x
      = ∑ i ∈ (Finset.univ.filter (· ≤ k)).map e.toEmbedding, x ⌈/⌉ P.T i * P.C i := by
        rw [demand, Finset.sum_map]
        exact Finset.sum_congr rfl fun j _ => by rw [hT, hC]; rfl
    _ ≤ P.demand (e l) x := by
        refine Finset.sum_le_sum_of_subset fun i hi => ?_
        obtain ⟨j, hj, rfl⟩ := Finset.mem_map.mp hi
        exact Finset.mem_filter.mpr ⟨Finset.mem_univ _, hmax j hj⟩

/-! ### Response times -/

theorem response_mono (i : ι) : Monotone (P.response i) := fun _ _ h =>
  Nat.add_le_add_left (Finset.sum_le_sum fun _ _ => Nat.mul_le_mul_right _ (ceilDiv_mono h)) _

theorem filter_le_eq (i : ι) :
    Finset.univ.filter (· ≤ i) = insert i (Finset.univ.filter (· < i)) := by
  ext j
  simp [le_iff_eq_or_lt]

theorem sum_filter_le (i : ι) (f : ι → ℕ) :
    ∑ j ∈ Finset.univ.filter (· ≤ i), f j = f i + ∑ j ∈ Finset.univ.filter (· < i), f j := by
  rw [filter_le_eq, Finset.sum_insert (by simp)]

theorem demand_eq_response (hx : 1 ≤ x) (hxT : x ≤ P.T i) : P.demand i x = P.response i x := by
  rw [demand, sum_filter_le, ceilDiv_eq_one hx hxT, Nat.one_mul, response]

/-- **The least fixed point decides.** -/
theorem le_period_iff_fits {r : ℕ} (hfix : P.response i r = r)
    (hleast : ∀ x, ∑ j ∈ Finset.univ.filter (· ≤ i), P.C j ≤ x → P.response i x ≤ x → r ≤ x) :
    r ≤ P.T i ↔ P.Fits i := by
  constructor
  · intro h
    have hr : 1 ≤ r := by
      rw [← hfix, response]
      have := P.C_pos i
      omega
    exact ⟨r, hr, h, by rw [demand_eq_response hr h, hfix]⟩
  · rintro ⟨x, hx, hxT, hd⟩
    refine (hleast x (le_trans ?_ hd) ?_).trans hxT
    · refine Finset.sum_le_sum fun j _ => ?_
      have := Nat.mul_le_mul_right (P.C j) (one_le_ceilDiv (P := P) (i := j) hx)
      omega
    · rwa [demand_eq_response hx hxT] at hd

/-! ### The load of the higher priorities -/

variable (P) in
/-- The share of the processor the tasks of priority above `i` ask for. -/
def load (i : ι) : ℚ := ∑ j ∈ Finset.univ.filter (· < i), (P.C j : ℚ) / P.T j

omit [LinearOrder ι] [Fintype ι] in
theorem mul_div_le_ceilDiv (i : ι) (x : ℕ) :
    (x : ℚ) * (P.C i / P.T i) ≤ (x ⌈/⌉ P.T i * P.C i : ℕ) := by
  have hT : (0 : ℚ) < P.T i := Nat.cast_pos.mpr (P.T_pos i)
  have h : (x : ℚ) ≤ (x ⌈/⌉ P.T i : ℕ) * P.T i := by exact_mod_cast le_ceilDiv_mul i x
  rw [Nat.cast_mul, mul_div_assoc', div_le_iff₀ hT]
  calc (x : ℚ) * P.C i ≤ (x ⌈/⌉ P.T i : ℕ) * P.T i * P.C i :=
        mul_le_mul_of_nonneg_right h (Nat.cast_nonneg _)
    _ = (x ⌈/⌉ P.T i : ℕ) * P.C i * P.T i := by ring

omit [LinearOrder ι] [Fintype ι] in
theorem ceilDiv_le_mul_div (i : ι) (x : ℕ) :
    ((x ⌈/⌉ P.T i * P.C i : ℕ) : ℚ) ≤ x * (P.C i / P.T i) + P.C i := by
  have hT : (0 : ℚ) < P.T i := Nat.cast_pos.mpr (P.T_pos i)
  have h : ((x ⌈/⌉ P.T i : ℕ) : ℚ) ≤ x / P.T i + 1 := by
    have h1 : x ⌈/⌉ P.T i ≤ x / P.T i + 1 :=
      ceilDiv_le_of_le_mul (by rw [Nat.succ_mul]; exact (Nat.lt_div_mul_add (P.T_pos i)).le)
    calc ((x ⌈/⌉ P.T i : ℕ) : ℚ) ≤ (x / P.T i + 1 : ℕ) := Nat.cast_le.mpr h1
      _ ≤ x / P.T i + 1 := by
        rw [Nat.cast_add_one]
        exact add_le_add_left Nat.cast_div_le 1
  calc ((x ⌈/⌉ P.T i * P.C i : ℕ) : ℚ) = (x ⌈/⌉ P.T i : ℕ) * P.C i := Nat.cast_mul _ _
    _ ≤ (x / P.T i + 1) * P.C i := mul_le_mul_of_nonneg_right h (Nat.cast_nonneg _)
    _ = x * (P.C i / P.T i) + P.C i := by ring

theorem add_mul_load_le (i : ι) (x : ℕ) : P.C i + x * P.load i ≤ P.response i x := by
  rw [load, response, Finset.mul_sum, Nat.cast_add, Nat.cast_sum]
  exact add_le_add_right (Finset.sum_le_sum fun j _ => mul_div_le_ceilDiv j x) _

theorem response_le_mul_load (i : ι) (x : ℕ) : (P.response i x : ℚ) ≤
    x * P.load i + (∑ j ∈ Finset.univ.filter (· ≤ i), P.C j : ℕ) := by
  have h : (∑ j ∈ Finset.univ.filter (· < i), ((x ⌈/⌉ P.T j * P.C j : ℕ) : ℚ)) ≤
      x * P.load i + ∑ j ∈ Finset.univ.filter (· < i), (P.C j : ℚ) := by
    rw [load, Finset.mul_sum, ← Finset.sum_add_distrib]
    exact Finset.sum_le_sum fun j _ => ceilDiv_le_mul_div j x
  rw [response, sum_filter_le, Nat.cast_add, Nat.cast_add, Nat.cast_sum, Nat.cast_sum]
  linarith

theorem lt_response_of_one_le_load (hl : 1 ≤ P.load i) (x : ℕ) : x < P.response i x := by
  have hC : (0 : ℚ) < P.C i := Nat.cast_pos.mpr (P.C_pos i)
  have h : (x : ℚ) < P.response i x := by
    calc (x : ℚ) ≤ x * P.load i := le_mul_of_one_le_right (Nat.cast_nonneg x) hl
      _ < P.C i + x * P.load i := lt_add_of_pos_left _ hC
      _ ≤ P.response i x := add_mul_load_le i x
  exact_mod_cast h

theorem exists_response_le (hl : P.load i < 1) : ∃ x,
    ∑ j ∈ Finset.univ.filter (· ≤ i), P.C j ≤ x ∧ P.response i x ≤ x := by
  set B := ∑ j ∈ Finset.univ.filter (· ≤ i), P.C j with hB
  obtain ⟨x, hx⟩ := exists_nat_ge ((B : ℚ) / (1 - P.load i))
  have hfree : (0 : ℚ) < 1 - P.load i := sub_pos.mpr hl
  rw [div_le_iff₀ hfree] at hx
  have hresp : P.response i x ≤ x := by
    have h := response_le_mul_load (P := P) i x
    rw [← hB] at h
    have h' : (P.response i x : ℚ) ≤ x := by linarith
    exact_mod_cast h'
  refine ⟨x, ?_, hresp⟩
  have hnonneg : 0 ≤ P.load i :=
    Finset.sum_nonneg fun j _ => div_nonneg (Nat.cast_nonneg _) (Nat.cast_nonneg _)
  have h : (B : ℚ) ≤ x := hx.trans (mul_le_of_le_one_right (Nat.cast_nonneg x) (by linarith))
  exact_mod_cast h

/-- **The iteration to the response time ends exactly if the load is below one.** -/
theorem iterFix_response_iff (i : ι) :
    (∃ fuel r, iterFix (P.response i) fuel (∑ j ∈ Finset.univ.filter (· ≤ i), P.C j) = some r) ↔
      P.load i < 1 := by
  constructor
  · rintro ⟨fuel, r, h⟩
    by_contra hl
    have hlt := lt_response_of_one_le_load (not_lt.mp hl) r
    rw [(iterFix_spec (response_mono i) h).1] at hlt
    exact lt_irrefl r hlt
  · intro hl
    obtain ⟨x, hBx, hx⟩ := exists_response_le hl
    refine iterFix_terminates (response_mono i) hx ?_ hBx
    rw [response, sum_filter_le]
    refine Nat.add_le_add_left (Finset.sum_le_sum fun j _ => ?_) _
    refine Nat.le_mul_of_pos_left _ (one_le_ceilDiv ?_)
    have := P.C_pos i
    omega

/-- **Tasks that all fit use at most the whole processor.** -/
theorem utilisation_le_one_of_fits (hf : ∀ i, P.Fits i) : P.utilisation ≤ 1 := by
  rcases isEmpty_or_nonempty ι with hι | hι
  · simp [utilisation]
  · -- the demand of the lowest priority is that of all tasks
    obtain ⟨i, hi⟩ := Finite.exists_max (id : ι → ι)
    have hall : Finset.univ.filter (· ≤ i) = Finset.univ :=
      Finset.filter_true_of_mem fun j _ => hi j
    obtain ⟨x, hx, -, hd⟩ := hf i
    have hle : (x : ℚ) * P.utilisation ≤ x := by
      calc (x : ℚ) * P.utilisation = ∑ j, (x : ℚ) * (P.C j / P.T j) := Finset.mul_sum _ _ _
        _ ≤ ∑ j, ((x ⌈/⌉ P.T j * P.C j : ℕ) : ℚ) :=
          Finset.sum_le_sum fun j _ => mul_div_le_ceilDiv j x
        _ = (P.demand i x : ℕ) := by
          rw [demand, hall, Nat.cast_sum]
        _ ≤ x := by exact_mod_cast hd
    have hpos : (0 : ℚ) < x := by exact_mod_cast hx
    exact le_of_mul_le_mul_left (by rwa [mul_one]) hpos

end PeriodicTasks.Tasks

end Ecen5623.Library
