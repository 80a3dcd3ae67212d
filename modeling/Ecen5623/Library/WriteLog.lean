import Mathlib.Data.List.Range
import Mathlib.Tactic.ByContra
import Mathlib.Tactic.SplitIfs
import Mathlib.Logic.Function.Basic

/-! # Loops that write to a buffer

`forRange` lists the values that the counter of a loop takes. What a routine writes to a buffer is
the list of its writes, index and value, in their order, and `store` carries them out: an index that
is not written keeps its contents (`store_of_not_written`), and one to which every write writes the
same value has that value in the end (`store_of_forall`). `blocks` are the writes of a loop that
fills one stretch after the other, `grid` those of two nested loops over part of an image. -/

namespace Ecen5623.Library

/-! ### Counters -/

/-- The number of passes of `for (i = start; i < stop; i += step)`. -/
def passes (start stop step : ℕ) : ℕ := (stop - start + step - 1) / step

/-- The values of `i` in `for (i = start; i < stop; i += step)`. -/
def forRange (start stop step : ℕ) : List ℕ :=
  (List.range (passes start stop step)).map fun t => start + step * t

/-- The values of `i` and `d` in `for (i = 0, d = 0; i < stop; i += step, d += step')`. -/
def forRangeWith (stop step step' : ℕ) : List (ℕ × ℕ) :=
  (List.range (passes 0 stop step)).map fun t => (step * t, step' * t)

variable {i start stop step n : ℕ}

theorem lt_passes_iff (hstep : 0 < step) {t : ℕ} :
    t < passes start stop step ↔ start + step * t < stop := by
  unfold passes
  rw [← Nat.add_one_le_iff, Nat.le_div_iff_mul_le hstep, Nat.add_mul, Nat.mul_comm t step]
  omega

theorem passes_eq (hstep : 0 < step) (hn : stop ≤ start + step * n)
    (hlt : start + step * n < stop + step) : passes start stop step = n := by
  refine eq_of_forall_lt_iff fun t => ?_
  rw [lt_passes_iff hstep]
  constructor
  · intro ht
    by_contra! hle
    have := Nat.mul_le_mul_left step hle
    omega
  · intro ht
    have := Nat.mul_le_mul_left step (Nat.succ_le_of_lt ht)
    rw [Nat.mul_succ] at this
    omega

theorem mem_forRange (hstep : 0 < step) :
    i ∈ forRange start stop step ↔ ∃ t, start + step * t = i ∧ i < stop := by
  unfold forRange
  rw [List.mem_map]
  constructor
  · rintro ⟨t, ht, rfl⟩
    exact ⟨t, rfl, (lt_passes_iff hstep).mp (List.mem_range.mp ht)⟩
  · rintro ⟨t, rfl, hlt⟩
    exact ⟨t, List.mem_range.mpr ((lt_passes_iff hstep).mpr hlt), rfl⟩

theorem forRange_one : forRange 0 n 1 = List.range n := by
  unfold forRange
  rw [passes_eq (n := n) Nat.one_pos (by omega) (by omega)]
  simp only [Nat.zero_add, Nat.one_mul, List.map_id']

theorem forRange_one_self : forRange start start 1 = [] := by
  unfold forRange
  rw [passes_eq (n := 0) Nat.one_pos (by omega) (by omega)]
  rfl

theorem forRange_one_succ (h : start ≤ stop) :
    forRange start (stop + 1) 1 = forRange start stop 1 ++ [stop] := by
  unfold forRange
  rw [passes_eq (n := stop - start + 1) Nat.one_pos (by omega) (by omega),
    passes_eq (n := stop - start) Nat.one_pos (by omega) (by omega), List.range_succ,
    List.map_append, List.map_singleton, Nat.one_mul, Nat.add_sub_cancel' h]

theorem forRange_one_cons (h : start < stop) :
    forRange start stop 1 = start :: forRange (start + 1) stop 1 := by
  induction stop, h using Nat.le_induction with
  | base => rw [forRange_one_succ le_rfl, forRange_one_self, forRange_one_self, List.nil_append]
  | succ stop h ih => rw [forRange_one_succ (by omega), ih, forRange_one_succ h, List.cons_append]

theorem forRangeWith_eq {step' : ℕ} (hstep : 0 < step) (h : stop = step * n) :
    forRangeWith stop step step' = (List.range n).map fun t => (step * t, step' * t) := by
  unfold forRangeWith
  rw [passes_eq (n := n) hstep (by omega) (by omega)]

theorem mem_forRange_one : i ∈ forRange 0 stop 1 ↔ i < stop := by
  rw [forRange_one, List.mem_range]

theorem mapM_eq_some {α β : Type*} {f : α → Option β} {g : α → β} {l : List α}
    (h : ∀ a ∈ l, f a = some (g a)) : l.mapM f = some (l.map g) := by
  induction l with
  | nil => rfl
  | cons a l ih =>
    rw [List.mapM_cons, h a List.mem_cons_self, ih fun b hb => h b (List.mem_cons_of_mem a hb)]
    rfl

theorem exists_of_mem_mapM {α β : Type*} {f : α → Option β} {l : List α} {bs : List β} {b : β}
    (h : l.mapM f = some bs) (hb : b ∈ bs) : ∃ a ∈ l, f a = some b := by
  induction l generalizing bs with
  | nil =>
    obtain rfl := Option.some.inj h
    exact absurd hb List.not_mem_nil
  | cons a l ih =>
    rw [List.mapM_cons] at h
    obtain ⟨c, hc, h⟩ := Option.bind_eq_some_iff.mp h
    obtain ⟨cs, hcs, h⟩ := Option.bind_eq_some_iff.mp h
    obtain rfl := Option.some.inj h
    obtain rfl | hb := List.mem_cons.mp hb
    · exact ⟨a, List.mem_cons_self, hc⟩
    · obtain ⟨a', ha', h'⟩ := ih hcs hb
      exact ⟨a', List.mem_cons_of_mem a ha', h'⟩

/-! ### Writes -/

variable {α : Type*} {m : ℕ → α} {ws ws' : List (ℕ × α)} {q : ℕ} {v : α}

/-- The contents of a buffer after the writes. -/
def store (m : ℕ → α) (ws : List (ℕ × α)) : ℕ → α :=
  ws.foldl (fun m w => Function.update m w.1 w.2) m

/-- Some write goes to the index. -/
def Written (ws : List (ℕ × α)) (q : ℕ) : Prop := ∃ v, (q, v) ∈ ws

@[simp] theorem store_concat {w : ℕ × α} :
    store m (ws ++ [w]) = Function.update (store m ws) w.1 w.2 := by
  unfold store
  rw [List.foldl_append]
  rfl

theorem store_of_not_written (h : ¬ Written ws q) : store m ws q = m q := by
  induction ws using List.reverseRecOn with
  | nil => rfl
  | append_singleton ws w ih =>
    rw [store_concat, Function.update_of_ne, ih]
    · rintro ⟨v, hv⟩
      exact h ⟨v, List.mem_append_left _ hv⟩
    · rintro rfl
      exact h ⟨w.2, List.mem_append_right _ (List.mem_singleton.mpr rfl)⟩

theorem store_of_forall (hw : Written ws q) (hv : ∀ u, (q, u) ∈ ws → u = v) :
    store m ws q = v := by
  induction ws using List.reverseRecOn with
  | nil =>
    obtain ⟨u, hu⟩ := hw
    exact absurd hu List.not_mem_nil
  | append_singleton ws w ih =>
    obtain ⟨i, u⟩ := w
    rw [store_concat]
    by_cases hq : q = i
    · subst hq
      rw [Function.update_self]
      exact hv u (List.mem_append_right _ (List.mem_singleton.mpr rfl))
    · rw [Function.update_of_ne hq]
      refine ih ?_ fun u' hu' => hv u' (List.mem_append_left _ hu')
      obtain ⟨u', hu'⟩ := hw
      refine ⟨u', (List.mem_append.mp hu').resolve_right fun h => hq ?_⟩
      exact congrArg Prod.fst (List.mem_singleton.mp h)

/-! ### Consecutive writes -/

/-- The values in turn, from the index on. -/
def block (q : ℕ) : List α → List (ℕ × α)
  | [] => []
  | v :: vs => (q, v) :: block (q + 1) vs

theorem mem_block {vs : List α} {i : ℕ} :
    (i, v) ∈ block q vs ↔ ∃ d, i = q + d ∧ vs[d]? = some v := by
  induction vs generalizing q with
  | nil => simp [block]
  | cons u vs ih =>
    rw [block, List.mem_cons, ih, Prod.mk.injEq]
    constructor
    · rintro (⟨rfl, rfl⟩ | ⟨d, rfl, hd⟩)
      · exact ⟨0, rfl, rfl⟩
      · exact ⟨d + 1, by omega, by rw [List.getElem?_cons_succ, hd]⟩
    · rintro ⟨d, rfl, hd⟩
      obtain _ | d := d
      · rw [List.getElem?_cons_zero, Option.some.injEq] at hd
        exact .inl ⟨rfl, hd.symm⟩
      · rw [List.getElem?_cons_succ] at hd
        exact .inr ⟨d, by omega, hd⟩

/-- `n` stretches of `width` values, the first one at `q`. -/
def blocks (q width : ℕ) (f : ℕ → List α) (n : ℕ) : List (ℕ × α) :=
  (List.range n).flatMap fun k => block (q + width * k) (f k)

theorem blocks_succ {width : ℕ} {f : ℕ → List α} :
    blocks q width f (n + 1) = blocks q width f n ++ block (q + width * n) (f n) := by
  unfold blocks
  rw [List.range_succ, List.flatMap_append, List.flatMap_singleton]

variable {width : ℕ} {f : ℕ → List α}

theorem stretch_unique {k k' d d' : ℕ} (hd : d < width) (hd' : d' < width)
    (h : width * k + d = width * k' + d') : k = k' ∧ d = d' := by
  have hw : 0 < width := by omega
  have hk : k = k' := calc
    k = (d + width * k) / width := ((Nat.div_mod_unique hw).mpr ⟨rfl, hd⟩).1.symm
    _ = (d' + width * k') / width := by rw [Nat.add_comm d, h, Nat.add_comm d']
    _ = k' := ((Nat.div_mod_unique hw).mpr ⟨rfl, hd'⟩).1
  subst hk
  exact ⟨rfl, Nat.add_left_cancel h⟩

theorem mem_blocks : (i, v) ∈ blocks q width f n ↔
    ∃ k < n, ∃ d, i = q + width * k + d ∧ (f k)[d]? = some v := by
  unfold blocks
  simp only [List.mem_flatMap, List.mem_range, mem_block]

section Blocks

variable (hf : ∀ k, (f k).length = width)
include hf

theorem written_blocks_iff : Written (blocks q width f n) i ↔ q ≤ i ∧ i < q + width * n := by
  constructor
  · rintro ⟨v, hv⟩
    obtain ⟨k, hk, d, rfl, hd⟩ := mem_blocks.mp hv
    have hdw : d < width := hf k ▸ (List.getElem?_eq_some_iff.mp hd).1
    have hle : width * (k + 1) ≤ width * n := Nat.mul_le_mul_left width hk
    rw [Nat.mul_add] at hle
    omega
  · rintro ⟨hq, hi⟩
    obtain ⟨e, rfl⟩ := Nat.exists_eq_add_of_le hq
    have hw : 0 < width := Nat.pos_of_ne_zero fun h => by rw [h, Nat.zero_mul] at hi; omega
    have hd : e % width < (f (e / width)).length := by
      rw [hf]
      exact Nat.mod_lt e hw
    refine ⟨_, mem_blocks.mpr ⟨e / width, ?_, e % width, ?_, List.getElem?_eq_getElem hd⟩⟩
    · rw [Nat.div_lt_iff_lt_mul hw, Nat.mul_comm]
      omega
    · rw [Nat.add_assoc, Nat.div_add_mod]

/-- **Later stretches leave the earlier ones alone.** -/
theorem store_blocks {k d : ℕ} (hk : k < n) (hd : (f k)[d]? = some v) :
    store m (blocks q width f n) (q + width * k + d) = v := by
  refine store_of_forall ⟨v, mem_blocks.mpr ⟨k, hk, d, rfl, hd⟩⟩ fun u hu => ?_
  obtain ⟨k', -, d', heq, hd'⟩ := mem_blocks.mp hu
  have h1 : d < width := hf k ▸ (List.getElem?_eq_some_iff.mp hd).1
  have h2 : d' < width := hf k' ▸ (List.getElem?_eq_some_iff.mp hd').1
  obtain ⟨rfl, rfl⟩ := stretch_unique h1 h2 (show width * k + d = width * k' + d' by omega)
  exact Option.some.inj (hd'.symm.trans hd)

end Blocks

/-! ### Two nested loops -/

/-- A value for each place of a part of an image, `rows` by `cols` from row `r₀` and column `c₀`
on. -/
def grid (width r₀ c₀ rows cols : ℕ) (val : ℕ → ℕ → α) : List (ℕ × α) :=
  (List.range rows).flatMap fun r =>
    (List.range cols).map fun c => (width * (r₀ + r) + (c₀ + c), val r c)

variable {r₀ c₀ rows cols r c : ℕ} {val : ℕ → ℕ → α}

theorem mem_grid : (i, v) ∈ grid width r₀ c₀ rows cols val ↔
    ∃ r < rows, ∃ c < cols, width * (r₀ + r) + (c₀ + c) = i ∧ val r c = v := by
  unfold grid
  simp only [List.mem_flatMap, List.mem_map, List.mem_range, Prod.mk.injEq]

theorem grid_congr {val' : ℕ → ℕ → α} (h : ∀ r < rows, ∀ c < cols, val r c = val' r c) :
    grid width r₀ c₀ rows cols val = grid width r₀ c₀ rows cols val' := by
  unfold grid
  refine List.flatMap_congr fun r hr => List.map_congr_left fun c hc => ?_
  rw [h r (List.mem_range.mp hr) c (List.mem_range.mp hc)]

/-- **The image after the loops.** -/
theorem store_grid (hcols : c₀ + cols ≤ width) (hc : c < width) :
    store m (grid width r₀ c₀ rows cols val) (width * r + c) =
      if (r₀ ≤ r ∧ r < r₀ + rows) ∧ c₀ ≤ c ∧ c < c₀ + cols then val (r - r₀) (c - c₀)
      else m (width * r + c) := by
  split_ifs with h
  · refine store_of_forall ⟨_, mem_grid.mpr ⟨r - r₀, by omega, c - c₀, by omega, ?_, rfl⟩⟩ ?_
    · rw [show r₀ + (r - r₀) = r by omega, show c₀ + (c - c₀) = c by omega]
    · intro u hu
      obtain ⟨r', -, c', hc', heq, rfl⟩ := mem_grid.mp hu
      obtain ⟨hr, hc⟩ := stretch_unique (by omega) hc heq
      rw [show r' = r - r₀ by omega, show c' = c - c₀ by omega]
  · refine store_of_not_written ?_
    rintro ⟨u, hu⟩
    obtain ⟨r', hr', c', hc', heq, -⟩ := mem_grid.mp hu
    obtain ⟨hr, hc⟩ := stretch_unique (by omega) hc heq
    exact h (by omega)

end Ecen5623.Library
