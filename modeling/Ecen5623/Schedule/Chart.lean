import Ecen5623.Library.DecimalText
import Ecen5623.Schedule.MissCount

/-! # The chart of a schedule

`schedule.c` prints a line of marks for every service, one column of four characters for each tick,
and below them a line of bars from `<` at the release of a job to `>` at its deadline. Up to nine
services the columns keep in line, and what the simulator did can be read off the text again: the
event of every tick, how long every job ran, and so the missed ones (`chart_reads`). -/

namespace Ecen5623.Schedule.Chart

open Ecen5623.Library Ecen5623.Library.SlotSchedule
open Ecen5623.Feasibility.Tests Ecen5623.Schedule.Engine Ecen5623.Schedule.Trace
open Ecen5623.Schedule.MissCount

/-! ### What is printed -/

/-- `SERVICE_NUM(s)`. -/
def serviceNum (s : ℕ) : ℕ := s + 1

/-- `printf("[%2d]", t + 1)`. -/
def bannerCell (t : ℕ) : List Char :=
  '[' :: List.replicate (2 - (decimal (t + 1)).length) ' ' ++ decimal (t + 1) ++ [']']

/-- The time ticks banner. -/
def banner (ticks : ℕ) : List Char := (List.range ticks).flatMap bannerCell

/-- What is printed for service `s` and tick `t`. -/
def cell (events : ℕ → Option ℕ) (s t : ℕ) : List Char :=
  if events t = some s then '(' :: 'S' :: decimal (serviceNum s) ++ [')']
  else if events t = none then ['*', '*', '*', '*']
  else [' ', ' ', ' ', ' ']

/-- The line of marks of service `s`. -/
def marks (events : ℕ → Option ℕ) (ticks s : ℕ) : List Char :=
  (List.range ticks).flatMap (cell events s)

/-- The loop variable `deadline` and what has been printed. -/
structure Bars where
  deadline : ℤ
  text : List Char

/-- A round of the loop over the ticks. -/
def barStep (tperiod : ℤ) (s : ℕ) (b : Bars) : Bars :=
  let opened := if b.deadline = tperiod then b.text ++ ['<'] else b.text
  if b.deadline - 1 = 0 then
    { deadline := tperiod, text := opened ++ 'D' :: decimal (serviceNum s) ++ ['>'] }
  else { deadline := b.deadline - 1, text := opened ++ ['-', '-', '-', '-'] }

/-- The line of bars of service `s`. -/
def bars (tperiod : ℤ) (ticks s : ℕ) : List Char :=
  ((barStep tperiod s)^[ticks] { deadline := tperiod, text := [] }).text

/-! ### What is read -/

/-- Column `t` of a line. -/
def column (l : List Char) (t : ℕ) : List Char := (l.drop (4 * t)).take 4

/-- The service with a mark in column `t`. -/
def readEvent (lines : List (List Char)) (t : ℕ) : Option ℕ :=
  lines.findIdx? fun l => (column l t).head? = some '('

/-- The marks since the last `>`, and those of the bars before it. -/
structure Runs where
  count : ℕ
  ended : List ℕ
  deriving DecidableEq

/-- A mark and the bar below it. -/
def readStep (r : Runs) (c : Char × Char) : Runs :=
  let count := if c.1 = '(' then r.count + 1 else r.count
  if c.2 = '>' then { count := 0, ended := r.ended ++ [count] } else { r with count := count }

/-- The number of marks above each bar. -/
def readRuns (marks bars : List Char) : List ℕ :=
  ((marks.zip bars).foldl readStep { count := 0, ended := [] }).ended

/-- **The chart of `ticks` ticks says what the simulator did.** -/
structure Reads (p : Protocol) (tc : STestCase) (ticks : ℕ) : Prop where
  banner : ∀ t < ticks, t < 99 → column (banner ticks) t = bannerCell t
  events : ∀ t < ticks, readEvent ((List.range tc.numServices).map
    (marks (run p tc ticks).events ticks)) t = (run p tc ticks).events t
  runs : ∀ s < tc.numServices,
    readRuns (marks (run p tc ticks).events ticks s) (bars (tc.periods s) ticks s) =
      (List.range (ticks / tc.periods s)).map fun k =>
        ran (run p tc ticks).events s (k * tc.periods s) ((k + 1) * tc.periods s)
  misses : ∑ s ∈ Finset.range tc.numServices,
      (readRuns (marks (run p tc ticks).events ticks s) (bars (tc.periods s) ticks s)).countP
        (· < tc.wcets s) =
    (run p tc ticks).misses + (run p tc ticks).services.countP Service.missed

/-! ### Columns -/

variable {f g : ℕ → List Char} {N t s : ℕ}

theorem length_flatMap (h : ∀ t < N, (f t).length = 4) :
    ((List.range N).flatMap f).length = 4 * N := by
  induction N with
  | zero => rfl
  | succ N ih =>
    rw [List.range_succ, List.flatMap_append, List.length_append,
      ih fun t ht => h t (by omega), List.flatMap_singleton, h N (by omega)]
    omega

theorem column_flatMap (h : ∀ t < N, (f t).length = 4) (rest : List Char) (ht : t < N) :
    column ((List.range N).flatMap f ++ rest) t = f t := by
  induction N generalizing rest with
  | zero => omega
  | succ N ih =>
    have hlen := length_flatMap (N := N) fun t ht => h t (by omega)
    rw [List.range_succ, List.flatMap_append, List.flatMap_singleton, List.append_assoc]
    rcases Nat.lt_succ_iff_lt_or_eq.mp ht with hlt | rfl
    · exact ih (fun t ht => h t (by omega)) (f N ++ rest) hlt
    · rw [column, ← hlen, List.drop_left, List.take_left' (h t (by omega))]

theorem zip_flatMap (hf : ∀ t < N, (f t).length = 4) (hg : ∀ t < N, (g t).length = 4) :
    ((List.range N).flatMap f).zip ((List.range N).flatMap g) =
      (List.range N).flatMap fun t => (f t).zip (g t) := by
  induction N with
  | zero => rfl
  | succ N ih =>
    have hlen : ((List.range N).flatMap f).length = ((List.range N).flatMap g).length := by
      rw [length_flatMap fun t ht => hf t (by omega), length_flatMap fun t ht => hg t (by omega)]
    simp only [List.range_succ, List.flatMap_append, List.flatMap_singleton]
    rw [List.zip_append hlen, ih (fun t ht => hf t (by omega)) fun t ht => hg t (by omega)]

/-! ### The lines of marks -/

variable {events : ℕ → Option ℕ}

theorem length_serviceNum (hs : s < 9) : (decimal (serviceNum s)).length = 1 := by
  have hle : (decimal (serviceNum s)).length ≤ 1 :=
    (Nat.length_toDigits_le_iff (by decide) (by decide)).mpr (by unfold serviceNum; omega)
  have hpos : 0 < (decimal (serviceNum s)).length := List.length_pos_iff.mpr Nat.toDigits_ne_nil
  omega

theorem length_bannerCell (ht : t < 99) : (bannerCell t).length = 4 := by
  have hle : (decimal (t + 1)).length ≤ 2 :=
    (Nat.length_toDigits_le_iff (by decide) (by decide)).mpr (by omega)
  simp only [bannerCell, List.length_cons, List.length_append, List.length_replicate,
    List.length_nil]
  omega

theorem length_cell (hs : s < 9) (t : ℕ) : (cell events s t).length = 4 := by
  have hlen := length_serviceNum hs
  unfold cell
  split_ifs
  · simp [hlen]
  · rfl
  · rfl

theorem head_cell (s t : ℕ) : (cell events s t).head? = some '(' ↔ events t = some s := by
  unfold cell
  split_ifs with h1 h2
  · simp [h1]
  · simp [h1]
  · simp [h1]

theorem column_marks (hs : s < 9) (ht : t < N) :
    column (marks events N s) t = cell events s t := by
  have hcol : column ((List.range N).flatMap (cell events s) ++ []) t = cell events s t :=
    column_flatMap (fun t _ => length_cell hs t) [] ht
  rwa [List.append_nil] at hcol

/-- **The events can be read off the chart.** -/
theorem readEvent_marks {n : ℕ} (hn : n ≤ 9) (hlt : ∀ s, events t = some s → s < n) (ht : t < N) :
    readEvent ((List.range n).map (marks events N)) t = events t := by
  have hread : ∀ s < n, ((column (marks events N s) t).head? = some '(' ↔ events t = some s) :=
    fun s hs => by rw [column_marks (by omega) ht, head_cell]
  unfold readEvent
  rcases he : events t with _ | s
  · rw [List.findIdx?_eq_none_iff]
    intro l hl
    obtain ⟨s, hs, rfl⟩ := List.mem_map.mp hl
    rw [decide_eq_false_iff_not, hread s (List.mem_range.mp hs), he]
    simp
  · have hs := hlt s he
    rw [List.findIdx?_eq_some_iff_getElem]
    refine ⟨by simpa using hs, ?_, fun j hj => ?_⟩
    · simpa using (hread s hs).mpr he
    · have hne : events t ≠ some j := by
        rw [he]
        simp only [ne_eq, Option.some.injEq]
        omega
      simpa using (hread j (by omega)).not.mpr hne

/-! ### The lines of bars -/

/-- Column `t` of the bars of a service with the given period. -/
def barCell (period s t : ℕ) : List Char :=
  (if t % period = 0 then '<' else '-') ::
    (if (t + 1) % period = 0 then 'D' :: decimal (serviceNum s) ++ ['>'] else ['-', '-', '-'])

theorem length_barCell {period : ℕ} (hs : s < 9) (t : ℕ) : (barCell period s t).length = 4 := by
  have hlen := length_serviceNum hs
  unfold barCell
  split_ifs <;> simp [hlen]

/-- Between a `<` and a `>` the bars are one character ahead of their columns. -/
theorem bars_iterate {period : ℕ} (hpos : 0 < period) (s : ℕ) : ∀ N,
    (barStep period s)^[N] { deadline := period, text := [] } =
      { deadline := (period - N % period : ℕ)
        text := (List.range N).flatMap (barCell period s) ++
          if N % period = 0 then [] else ['-'] }
  | 0 => by simp
  | N + 1 => by
    have hlt := Nat.mod_lt N hpos
    rw [Function.iterate_succ_apply', bars_iterate hpos s N, barStep]
    have hopen : ((period - N % period : ℕ) : ℤ) = period ↔ N % period = 0 := by omega
    have hclose : ((period - N % period : ℕ) : ℤ) - 1 = 0 ↔ N % period + 1 = period := by omega
    simp only [hopen, hclose, List.range_succ, List.flatMap_append, List.flatMap_singleton, barCell]
    rcases mod_succ_cases hpos N with ⟨h1, h2, -⟩ | ⟨h1, h2, -⟩
    · simp only [h1, h2, if_true, Nat.sub_zero, List.append_nil]
      split_ifs <;> simp
    · have hne : N % period + 1 ≠ period := by omega
      simp only [h2, hne, if_false, Nat.succ_ne_zero]
      split_ifs <;> simp <;> omega

theorem bars_eq {period : ℕ} (hpos : 0 < period) (N s : ℕ) : bars period N s =
    (List.range N).flatMap (barCell period s) ++ if N % period = 0 then [] else ['-'] := by
  rw [bars, bars_iterate hpos]

/-! ### The lines together -/

theorem exists_digit (hs : s < 9) :
    ∃ d, decimal (serviceNum s) = [d] ∧ d ≠ '(' ∧ d ≠ '>' := by
  obtain ⟨d, hd⟩ := List.length_eq_one_iff.mp (length_serviceNum hs)
  have hdigit : d.isDigit = true := isDigit_decimal (n := serviceNum s) (by rw [hd]; simp)
  exact ⟨d, hd, ne_of_isDigit hdigit rfl, ne_of_isDigit hdigit rfl⟩

/-- **One column**: a mark is counted, and at the end of a period the count is put down. -/
theorem foldl_column (hs : s < 9) (period t : ℕ) (r : Runs) :
    ((cell events s t).zip (barCell period s t)).foldl readStep r =
      if (t + 1) % period = 0 then
        { count := 0, ended := r.ended ++ [r.count + if events t = some s then 1 else 0] }
      else { r with count := r.count + if events t = some s then 1 else 0 } := by
  obtain ⟨d, hd, hd1, hd2⟩ := exists_digit hs
  have hbar : (if t % period = 0 then '<' else '-') ≠ '>' := by split_ifs <;> decide
  unfold cell barCell
  rw [hd]
  split_ifs <;> simp_all [readStep]

/-- **The marks above the bars**, after `N` ticks. -/
theorem foldl_lines {period : ℕ} (hs : s < 9) (hpos : 0 < period) : ∀ N,
    ((List.range N).flatMap fun t => (cell events s t).zip (barCell period s t)).foldl readStep
        { count := 0, ended := [] } =
      { count := ran events s (N / period * period) N
        ended := (List.range (N / period)).map fun k =>
          ran events s (k * period) ((k + 1) * period) }
  | 0 => by simp [ran]
  | N + 1 => by
    have hran := ran_succ events s (Nat.div_mul_le_self N period)
    rw [List.range_succ, List.flatMap_append, List.foldl_append, foldl_lines hs hpos N,
      List.flatMap_singleton, foldl_column hs]
    rcases mod_succ_cases hpos N with ⟨h1, h2, h3⟩ | ⟨h1, h2, h3⟩
    · have hdue : (N / period + 1) * period = N + 1 := by
        have := Nat.div_add_mod N period
        rw [Nat.succ_mul, Nat.mul_comm]
        omega
      rw [if_pos h2, h3, hdue, ran_self, List.range_succ, List.map_append, ← hran]
      simp [hdue]
    · rw [if_neg (by omega), h3, hran]

theorem readRuns_eq {period : ℕ} (hs : s < 9) (hpos : 0 < period) (N : ℕ) :
    readRuns (marks events N s) (bars period N s) = (List.range (N / period)).map fun k =>
      ran events s (k * period) ((k + 1) * period) := by
  have hmarks : (marks events N s).length = 4 * N :=
    length_flatMap fun t _ => length_cell hs t
  have hbars : ((List.range N).flatMap (barCell period s)).length = 4 * N :=
    length_flatMap fun t _ => length_barCell hs t
  have hzip : (marks events N s).zip (bars period N s) =
      (List.range N).flatMap fun t => (cell events s t).zip (barCell period s t) := by
    rw [bars_eq hpos, ← List.append_nil (marks events N s), List.zip_append (by rw [hmarks, hbars]),
      List.zip_nil_left, List.append_nil]
    exact zip_flatMap (fun t _ => length_cell hs t) fun t _ => length_barCell hs t
  rw [readRuns, hzip, foldl_lines hs hpos]

/-! ### The chart of a run -/

theorem countP_range (q : ℕ → Prop) [DecidablePred q] (n : ℕ) :
    (List.range n).countP q = ((Finset.range n).filter q).card := by
  rw [List.countP_eq_length_filter]
  rfl

theorem sum_short (tc : STestCase) (events : ℕ → Option ℕ) (N : ℕ)
    (h : Positive tc.numServices tc.periods tc.wcets) (hn : tc.numServices ≤ 9) :
    ∑ s ∈ Finset.range tc.numServices,
        (readRuns (marks events N s) (bars (tc.periods s) N s)).countP (· < tc.wcets s) =
      (missedJobs tc events N).card := by
  rw [missedJobs, Finset.card_filter, Finset.sum_product]
  refine Finset.sum_congr rfl fun s hs => ?_
  rw [Finset.mem_range] at hs
  have hpos := h.period s hs
  rw [readRuns_eq (by omega) hpos, List.countP_map, ← Finset.card_filter]
  have hjobs : ((Finset.range N).filter fun k => (k + 1) * tc.periods s ≤ N ∧
      ran events s (k * tc.periods s) ((k + 1) * tc.periods s) < tc.wcets s) =
      (Finset.range (N / tc.periods s)).filter fun k =>
        ran events s (k * tc.periods s) ((k + 1) * tc.periods s) < tc.wcets s := by
    ext k
    simp only [Finset.mem_filter, Finset.mem_range]
    have hk : (k + 1) * tc.periods s ≤ N ↔ k < N / tc.periods s :=
      (Nat.le_div_iff_mul_le hpos).symm
    rw [← hk]
    have hle := Nat.le_mul_of_pos_right (k + 1) hpos
    constructor
    · rintro ⟨-, hdue, hshort⟩
      exact ⟨hdue, hshort⟩
    · rintro ⟨hdue, hshort⟩
      exact ⟨by omega, hdue, hshort⟩
  rw [hjobs, ← countP_range]
  rfl

/-- **What the simulator did can be read off its chart.** -/
theorem chart_reads {tc : STestCase} (h : Positive tc.numServices tc.periods tc.wcets)
    (hn : tc.numServices ≤ 9) (p : Protocol) (ticks : ℕ) : Reads p tc ticks where
  banner t ht h99 := by
    obtain ⟨rest, hrest⟩ : ∃ rest,
        banner ticks = (List.range (t + 1)).flatMap bannerCell ++ rest := by
      obtain ⟨k, rfl⟩ := Nat.exists_eq_add_of_le (Nat.succ_le_of_lt ht)
      exact ⟨_, by rw [banner, List.range_add, List.flatMap_append]⟩
    rw [hrest]
    exact column_flatMap (fun t' ht' => length_bannerCell (by omega)) rest (Nat.lt_succ_self t)
  events t ht := readEvent_marks hn (fun s hs => run_events_lt ht hs) ht
  runs s hs := readRuns_eq (by omega) (h.period s hs) ticks
  misses := by rw [sum_short tc _ ticks h hn, card_missedJobs h]

/-- Test case 7, for the 20 ticks of `schedule.c`. -/
theorem chart_reads_test7 : Reads .llf testCase7 20 :=
  chart_reads ⟨by decide, by decide⟩ (by decide) .llf 20

/-- The line of `S10` gets out of line with the first tick it runs. -/
example : marks (fun _ => some 9) 2 9 = "(S10)(S10)".toList := by decide

end Ecen5623.Schedule.Chart
