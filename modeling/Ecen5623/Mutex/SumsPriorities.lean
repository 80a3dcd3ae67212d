import Ecen5623.Library.LockedSections
import Ecen5623.Library.WriteLog
import Mathlib.Algebra.BigOperators.Intervals
import Mathlib.Order.Interval.Finset.Nat

/-! # The sum of three threads

Each thread of `sums_priorities.c` adds up its own range without the mutex and then adds the sum to
`total` between `LOCK` and `UNLOCK`, which is a read of `total` followed by a write. The threads
differ in their ranges only. Whatever their priorities make of it, `main` joins them with the sum of
all ranges (`total_of_joined`). Sums are exact; those of the program are far below `INT_MAX`. -/

namespace Ecen5623.Mutex.SumsPriorities

open Ecen5623.Library Ecen5623.Library.LockedSections

/-- Where a thread stands, with its `sum` and the value of `total` it has read. -/
inductive Thread where
  | entered
  | locked (sum : ℕ)
  | loaded (sum total : ℕ)
  | stored
  | returned
  deriving DecidableEq, Repr

/-- The loop of `sum_1_99`, `sum_100_199` and `sum_200_299`. -/
def sumLoop (range : ℕ × ℕ) : ℕ := (forRange range.1 (range.2 + 1) 1).foldl (fun sum i => sum + i) 0

/-- The threads, one for each range. -/
def code (ranges : List (ℕ × ℕ)) : Code ℕ Thread ℕ where
  lock
    | k, .entered => ranges[k]?.map fun range => .locked (sumLoop range)
    | _, _ => none
  access
    | _, .locked sum, total => some (.loaded sum total, total)
    | _, .loaded sum read, _ => some (.stored, read + sum)
    | _, _, _ => none
  unlock
    | _, .stored => some .returned
    | _, _ => none

/-- The threads as they are created, with `total = 0`. -/
def init : Config ℕ Thread ℕ where
  locals _ := .entered
  mem := 0

/-- The three joins of `main` are over. -/
def Joined (ranges : List (ℕ × ℕ)) (c : Config ℕ Thread ℕ) : Prop :=
  ∀ k < ranges.length, c.locals k = .returned

/-- The ranges of the three threads. -/
def mainRanges : List (ℕ × ℕ) := [(1, 99), (100, 199), (200, 299)]

variable {ranges : List (ℕ × ℕ)} {k : ℕ} {c : Config ℕ Thread ℕ}

theorem sumLoop_eq (range : ℕ × ℕ) : sumLoop range = ∑ i ∈ Finset.Ico range.1 (range.2 + 1), i := by
  have hsum : ∀ n, ((List.range n).map fun t => range.1 + 1 * t).foldl (fun sum i => sum + i) 0 =
      ∑ t ∈ Finset.range n, (range.1 + t) := by
    intro n
    induction n with
    | zero => rfl
    | succ n ih =>
      rw [List.range_succ, List.map_append, List.foldl_append, ih, Finset.sum_range_succ]
      simp
  rw [sumLoop, forRange, passes, hsum, Finset.sum_Ico_eq_sum_range]
  simp

theorem sum_range_getD {α : Type*} (f : α → ℕ) :
    ∀ (l : List α) (d : α), ∑ k ∈ Finset.range l.length, f (l.getD k d) = (l.map f).sum
  | [], _ => rfl
  | a :: l, d => by
    rw [List.length_cons, Finset.sum_range_succ', List.map_cons, List.sum_cons, Nat.add_comm,
      ← sum_range_getD f l d]
    rfl

/-! ### The section of a thread -/

theorem accesses_cases {sum m : ℕ} {p : Thread × ℕ}
    (h : Accesses (code ranges) k (.locked sum, m) p) :
    p = (.locked sum, m) ∨ p = (.loaded sum m, m) ∨ p = (.stored, m + sum) := by
  induction h with
  | refl => exact .inl rfl
  | tail _ hacc ih =>
    rcases ih with rfl | rfl | rfl
    · exact .inr (.inl (Option.some.inj hacc).symm)
    · exact .inr (.inr (Option.some.inj hacc).symm)
    · cases hacc

theorem lock_eq_some {l l' : Thread} (h : (code ranges).lock k l = some l') :
    l = .entered ∧ ∃ range, ranges[k]? = some range ∧ l' = .locked (sumLoop range) := by
  cases l with
  | entered =>
    obtain ⟨range, hrange, rfl⟩ := Option.map_eq_some_iff.mp h
    exact ⟨rfl, range, hrange, rfl⟩
  | _ => cases h

theorem accesses_add (sum m : ℕ) :
    Accesses (code ranges) k (.locked sum, m) (.stored, m + sum) := by
  refine .tail (b := (.loaded sum m, m)) (.single ?_) ?_ <;> rfl

/-- **A section adds the sum of the thread.** -/
theorem section_iff {l : Thread} {m : ℕ} {q : Thread × ℕ} : Section (code ranges) k (l, m) q ↔
    ∃ range, ranges[k]? = some range ∧ l = .entered ∧ q = (.returned, m + sumLoop range) := by
  obtain ⟨l', m'⟩ := q
  constructor
  · rintro ⟨l₁, l₂, hlock, hacc, hunlock⟩
    obtain ⟨rfl, range, hrange, rfl⟩ := lock_eq_some hlock
    refine ⟨range, hrange, rfl, ?_⟩
    rcases accesses_cases hacc with h | h | h
    · cases h; cases hunlock
    · cases h; cases hunlock
    · cases h; cases hunlock; rfl
  · rintro ⟨range, hrange, rfl, h⟩
    cases h
    exact ⟨.locked (sumLoop range), .stored, by simp [code, hrange], accesses_add _ m, rfl⟩

theorem ends : Ends (code ranges) := by
  intro k l p l₀ hlock hacc
  obtain ⟨rfl, range, -, rfl⟩ := lock_eq_some hlock
  obtain ⟨m, hacc⟩ := hacc
  rcases accesses_cases hacc with rfl | rfl | rfl
  · exact ⟨_, _, accesses_add _ m, rfl⟩
  · exact ⟨(.stored, m + sumLoop range), _, .single rfl, rfl⟩
  · exact ⟨_, _, .refl, rfl⟩

/-! ### Serial runs -/

/-- `total` is the sum of the threads that have returned, the others have not begun. -/
structure Summed (ranges : List (ℕ × ℕ)) (c : Config ℕ Thread ℕ) : Prop where
  places : ∀ k, c.locals k = .entered ∨ c.locals k = .returned
  total : c.mem = ∑ k ∈ Finset.range ranges.length,
    if c.locals k = .returned then sumLoop (ranges.getD k (0, 0)) else 0

theorem summed_init : Summed ranges init := ⟨fun _ => .inl rfl, by simp [init]⟩

theorem summed_section (h : Summed ranges c) {q : Thread × ℕ}
    (hs : Section (code ranges) k (c.locals k, c.mem) q) : Summed ranges (c.set k q.1 q.2) := by
  obtain ⟨range, hrange, hentered, rfl⟩ := section_iff.mp hs
  obtain ⟨hk, rfl⟩ := List.getElem?_eq_some_iff.mp hrange
  constructor
  · intro j
    by_cases hj : j = k
    · subst hj
      exact .inr (set_locals_self ..)
    · rw [set_locals_of_ne _ hj]
      exact h.places j
  · -- only the term of `k` changes
    dsimp only
    have hmem := Finset.mem_range.mpr hk
    rw [set_mem, h.total, ← Finset.sum_erase_add _ _ hmem, ← Finset.sum_erase_add _ _ hmem,
      set_locals_self, hentered]
    simp only [reduceCtorEq, if_false, if_true, Nat.add_zero]
    congr 1
    · refine Finset.sum_congr rfl fun j hj => ?_
      rw [set_locals_of_ne _ (Finset.ne_of_mem_erase hj)]
    · simp [hk]

theorem summed_serial (h : Serial (code ranges) init c) : Summed ranges c :=
  h.invariant summed_init fun h hs => summed_section h hs

theorem exists_joined (h : Summed ranges c) :
    ∃ c', Reach (step (code ranges)) Any c.start c'.start ∧ Joined ranges c' := by
  have hfirst : ∀ n ≤ ranges.length, ∃ c',
      Reach (step (code ranges)) Any c.start c'.start ∧ Summed ranges c' ∧
        ∀ k < n, c'.locals k = .returned := by
    intro n
    induction n with
    | zero => exact fun _ => ⟨c, .init, h, fun k hk => absurd hk (Nat.not_lt_zero k)⟩
    | succ n ih =>
      intro hn
      obtain ⟨c₁, hreach, hsum, hret⟩ := ih (by omega)
      rcases hsum.places n with hplace | hplace
      · have hs : Section (code ranges) n (c₁.locals n, c₁.mem)
            (.returned, c₁.mem + sumLoop ranges[n]) :=
          section_iff.mpr ⟨_, List.getElem?_eq_getElem hn, hplace, rfl⟩
        refine ⟨_, hreach.trans (reach_of_section hs), summed_section hsum hs, fun k hk => ?_⟩
        rcases Nat.lt_succ_iff_lt_or_eq.mp hk with hlt | rfl
        · rw [set_locals_of_ne _ hlt.ne]
          exact hret k hlt
        · exact set_locals_self ..
      · refine ⟨c₁, hreach, hsum, fun k hk => ?_⟩
        rcases Nat.lt_succ_iff_lt_or_eq.mp hk with hlt | rfl
        · exact hret k hlt
        · exact hplace
  obtain ⟨c', hreach, -, hret⟩ := hfirst _ le_rfl
  exact ⟨c', hreach, hret⟩

/-! ### All runs -/

/-- **The threads can always be joined, and then `total` is the sum of all ranges**, in whatever
order the accesses of the threads are made. -/
theorem total_of_joined (ranges : List (ℕ × ℕ)) {s : State ℕ Thread ℕ}
    (hs : Reach (step (code ranges)) Any init.start s) :
    (∃ s', Reach (step (code ranges)) Any s s' ∧ Joined ranges s'.toConfig) ∧
      (Joined ranges s.toConfig →
        s.mem = (ranges.map fun range => ∑ i ∈ Finset.Icc range.1 range.2, i).sum) := by
  obtain ⟨c, hfree, hserial⟩ := exists_free ends hs
  obtain ⟨c', hreach, hjoined⟩ := exists_joined (summed_serial hserial)
  refine ⟨⟨c'.start, hfree.trans hreach, hjoined⟩, fun hret => ?_⟩
  -- a thread in its section has not returned
  have howner : s.owner = none := by
    by_contra hne
    obtain ⟨k, hk⟩ := Option.ne_none_iff_exists'.mp hne
    obtain ⟨c₁, -, -, l, hlock, hacc⟩ := held_of_reach hs hk
    obtain ⟨-, range, hrange, rfl⟩ := lock_eq_some hlock
    have hplace := hret k (List.getElem?_eq_some_iff.mp hrange).1
    rcases accesses_cases hacc with h | h | h <;>
    · rw [Prod.mk.injEq, hplace] at h
      cases h.1
  rw [(summed_serial (serial_of_reach hs howner)).total, ← sum_range_getD _ ranges (0, 0)]
  refine Finset.sum_congr rfl fun k hk => ?_
  rw [if_pos (hret k (Finset.mem_range.mp hk)), sumLoop_eq]
  rfl

/-- The threads of the program end with the sum of the numbers from 1 to 299. -/
theorem total_of_joined_main : ∃ s, Reach (step (code mainRanges)) Any init.start s ∧
    Joined mainRanges s.toConfig ∧ s.mem = ∑ i ∈ Finset.Icc 1 299, i := by
  obtain ⟨⟨s, hs, hjoined⟩, -⟩ := total_of_joined mainRanges .init
  refine ⟨s, hs, hjoined, ((total_of_joined mainRanges hs).2 hjoined).trans ?_⟩
  decide +kernel

end Ecen5623.Mutex.SumsPriorities
