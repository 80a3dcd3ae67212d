import Ecen5623.Hamming.Syndrome
import Mathlib.Data.Nat.Nth
import Mathlib.Data.Nat.Count
import Mathlib.Algebra.Order.Ring.Nat
import Mathlib.Tactic.Linarith

/-! # Where `write_data` puts the data

The positions of a word are counted from one; those that are no power of two hold the data, in
ascending order. The loops of `write_data` run over them with their bit numbers
(`testBit_writeData`), so that data bit `k` goes to the `k`-th of them. The test for the bit is
`data & (1<<bit_pos)`, with an `int` shift: its mask is right below bit 31, covers all bits from 31
on at `bit_pos = 31`, and is undefined above. Hence the placement is right for `m ≤ 5`, and for
`m = 6` on no data but zero (`placement_iff`). -/

namespace Ecen5623.Hamming.Placement

open Ecen5623.Hamming.Word Ecen5623.Hamming.Syndrome

/-- `data_length`. -/
def dataLength (m : ℕ) : ℕ := 2 ^ m - m - 1

/-- The 64 bits of `1<<bit_pos`. The shift by 31 sets the sign bit of the `int`, which is extended;
`undef` is what comes out of a shift by 32 or more. -/
def intMask (undef : ℕ → ℕ) (bitPos : ℕ) : ℕ :=
  if bitPos < 31 then 1 <<< bitPos
  else if bitPos = 31 then 2 ^ 64 - 2 ^ 31
  else undef bitPos

/-- The variables of the loops of `write_data`. -/
structure WriteLoop where
  wordPos : ℕ
  bitPos : ℕ
  memory : ℕ
  deriving DecidableEq, Repr

/-- One round of the inner loop. -/
def writeStep (undef : ℕ → ℕ) (data : ℕ) (s : WriteLoop) : WriteLoop :=
  { wordPos := s.wordPos + 1
    bitPos := s.bitPos + 1
    memory :=
      if data &&& intMask undef s.bitPos ≠ 0 then s.memory ||| (1 <<< s.wordPos) else s.memory }

/-- One round of the outer loop, with the inner loop for `d` from 1 below `pow(2, p)`. -/
def writeRound (undef : ℕ → ℕ) (data : ℕ) (s : WriteLoop) (p : ℕ) : WriteLoop :=
  let s' := (List.range (2 ^ p - 1)).foldl (fun s _ => writeStep undef data s) s
  { s' with wordPos := s'.wordPos + 1 }

/-- `write_data`. -/
def writeData (undef : ℕ → ℕ) (m memory data : ℕ) : ℕ :=
  ((List.range m).foldl (writeRound undef data)
    { wordPos := 1, bitPos := 0, memory := memory }).memory

/-- The positions, from one, that hold data. -/
def DataPosition (q : ℕ) : Prop := 1 ≤ q ∧ ¬ q.isPowerOfTwo

instance : DecidablePred DataPosition := fun _ => inferInstanceAs (Decidable (_ ∧ _))

variable {undef : ℕ → ℕ} {m data b k p q : ℕ}

/-! ### The data positions -/

theorem not_dataPosition_two_pow (p : ℕ) : ¬ DataPosition (2 ^ p) := fun h => h.2 ⟨p, rfl⟩

theorem dataPosition_of_between (h1 : 2 ^ p < q) (h2 : q < 2 ^ (p + 1)) : DataPosition q := by
  refine ⟨by omega, ?_⟩
  rintro ⟨k, rfl⟩
  have hpk := (Nat.pow_lt_pow_iff_right Nat.one_lt_two).mp h1
  have hkp := (Nat.pow_lt_pow_iff_right Nat.one_lt_two).mp h2
  omega

theorem count_dataPosition_add (h : Nat.count DataPosition (2 ^ p) + p + 1 = 2 ^ p) :
    ∀ e < 2 ^ p, Nat.count DataPosition (2 ^ p + 1 + e) + p + 1 = 2 ^ p + e
  | 0, _ => by
    rw [Nat.add_zero, Nat.count_succ, if_neg (not_dataPosition_two_pow p)]
    omega
  | e + 1, he => by
    have ih := count_dataPosition_add h e (by omega)
    have hpos : DataPosition (2 ^ p + 1 + e) :=
      dataPosition_of_between (p := p) (by omega) (by rw [pow_succ]; omega)
    rw [← Nat.add_assoc, Nat.count_succ, if_pos hpos]
    omega

/-- **A word of order `m` has `data_length` data positions.** -/
theorem count_dataPosition : ∀ m, Nat.count DataPosition (2 ^ m) + m + 1 = 2 ^ m
  | 0 => by decide
  | m + 1 => by
    have hlt : 2 ^ m - 1 < 2 ^ m := Nat.sub_lt (Nat.two_pow_pos m) Nat.one_pos
    have h := count_dataPosition_add (count_dataPosition m) (2 ^ m - 1) hlt
    have hpow : 2 ^ (m + 1) = 2 ^ m + 1 + (2 ^ m - 1) := by rw [pow_succ]; omega
    rw [← hpow] at h
    omega

theorem infinite_dataPosition : (Set.ofPred DataPosition).Infinite := by
  refine Set.infinite_of_injective_forall_mem (f := fun p => 2 ^ (p + 1) + 1) ?_ fun p => ?_
  · intro p p' hpp
    have hpow : 2 ^ (p + 1) = 2 ^ (p' + 1) := Nat.succ_injective hpp
    exact Nat.succ_injective (Nat.pow_right_injective le_rfl hpow)
  · have hpos := Nat.two_pow_pos p
    exact dataPosition_of_between (p := p + 1) (by omega) (by rw [pow_succ, pow_succ]; omega)

theorem nth_lt (hk : k < dataLength m) : Nat.nth DataPosition k < 2 ^ m := by
  refine Nat.nth_lt_of_lt_count ?_
  have := count_dataPosition m
  unfold dataLength at hk
  omega

/-! ### The loops -/

/-- The test for bit `k` of the data. -/
def Hit (undef : ℕ → ℕ) (data k : ℕ) : Prop := data &&& intMask undef k ≠ 0

instance (undef : ℕ → ℕ) (data k : ℕ) : Decidable (Hit undef data k) :=
  inferInstanceAs (Decidable (_ ≠ _))

/-- In front of a round: the bit number is that of the next data position, and the positions passed
have been written. -/
structure LoopOK (undef : ℕ → ℕ) (data : ℕ) (s : WriteLoop) : Prop where
  bitPos : s.bitPos = Nat.count DataPosition (s.wordPos + 1)
  memory : ∀ b, s.memory.testBit b = true ↔ b < s.wordPos ∧ DataPosition (b + 1) ∧
    Hit undef data (Nat.count DataPosition (b + 1))

theorem writeStep_ok {s : WriteLoop} (h : LoopOK undef data s)
    (hpos : DataPosition (s.wordPos + 1)) : LoopOK undef data (writeStep undef data s) where
  bitPos := by
    simp only [writeStep]
    rw [Nat.count_succ _ (s.wordPos + 1), if_pos hpos, h.bitPos]
  memory b := by
    have hold := h.memory b
    have hhit : Hit undef data s.bitPos ↔ data &&& intMask undef s.bitPos ≠ 0 := Iff.rfl
    simp only [writeStep, ← hhit]
    have hother : b ≠ s.wordPos → (1 <<< s.wordPos).testBit b = false := fun hb => by
      rw [Nat.one_shiftLeft, Nat.testBit_two_pow]
      exact decide_eq_false (Ne.symm hb)
    rcases Nat.lt_trichotomy b s.wordPos with hb | rfl | hb
    · rw [apply_ite (Nat.testBit · b), Nat.testBit_or, hother (by omega), Bool.or_false, ite_self,
        hold]
      exact and_congr_left fun _ => by omega
    · have hclear : s.memory.testBit s.wordPos = false := by
        rw [← Bool.not_eq_true, hold]
        exact fun hlt => lt_irrefl _ hlt.1
      have hbit : (1 <<< s.wordPos).testBit s.wordPos = true := by
        rw [Nat.one_shiftLeft, Nat.testBit_two_pow_self]
      rw [apply_ite (Nat.testBit · s.wordPos), Nat.testBit_or, hbit, hclear, ← h.bitPos]
      simp [hpos]
    · rw [apply_ite (Nat.testBit · b), Nat.testBit_or, hother (by omega), Bool.or_false, ite_self,
        hold]
      exact and_congr_left fun _ => by omega

theorem foldl_writeStep_ok {s : WriteLoop} (h : LoopOK undef data s) (hs : s.wordPos = 2 ^ p) :
    ∀ n, n ≤ 2 ^ p - 1 →
      LoopOK undef data ((List.range n).foldl (fun s _ => writeStep undef data s) s) ∧
        ((List.range n).foldl (fun s _ => writeStep undef data s) s).wordPos = 2 ^ p + n
  | 0, _ => ⟨h, hs⟩
  | n + 1, hn => by
    obtain ⟨ih1, ih2⟩ := foldl_writeStep_ok h hs n (by omega)
    rw [List.range_succ, List.foldl_append, List.foldl_cons, List.foldl_nil]
    refine ⟨writeStep_ok ih1 ?_, congrArg (· + 1) ih2⟩
    rw [ih2]
    exact dataPosition_of_between (p := p) (by omega) (by rw [pow_succ]; omega)

theorem writeRound_ok {s : WriteLoop} (h : LoopOK undef data s) (hs : s.wordPos = 2 ^ p) :
    LoopOK undef data (writeRound undef data s p) ∧
      (writeRound undef data s p).wordPos = 2 ^ (p + 1) := by
  obtain ⟨h1, h2⟩ := foldl_writeStep_ok h hs (2 ^ p - 1) le_rfl
  have hpow : 2 ^ p + (2 ^ p - 1) + 1 = 2 ^ (p + 1) := by
    have := Nat.two_pow_pos p
    rw [pow_succ]
    omega
  unfold writeRound
  dsimp only
  rw [h2]
  refine ⟨⟨?_, fun b => (h1.memory b).trans ?_⟩, hpow⟩
  · -- the position skipped is the next power of two
    rw [h1.bitPos, h2, Nat.count_succ _ (2 ^ p + (2 ^ p - 1) + 1), hpow,
      if_neg (not_dataPosition_two_pow _)]
    rfl
  · rw [h2]
    refine and_congr_left fun hb => ⟨fun hlt => hlt.trans (Nat.lt_succ_self _), fun hlt => ?_⟩
    refine lt_of_le_of_ne (Nat.le_of_lt_succ hlt) ?_
    rintro rfl
    rw [hpow] at hb
    exact not_dataPosition_two_pow _ hb.1

theorem foldl_writeRound_ok (undef : ℕ → ℕ) (data : ℕ) : ∀ m,
    LoopOK undef data ((List.range m).foldl (writeRound undef data) ⟨1, 0, 0⟩) ∧
      ((List.range m).foldl (writeRound undef data) ⟨1, 0, 0⟩).wordPos = 2 ^ m
  | 0 => by
    refine ⟨⟨(by decide : 0 = Nat.count DataPosition 2), fun b => ?_⟩, rfl⟩
    simp only [List.range_zero, List.foldl_nil, Nat.zero_testBit, Bool.false_eq_true, false_iff]
    rintro ⟨hb, hpos, -⟩
    obtain rfl : b = 0 := Nat.lt_one_iff.mp hb
    exact not_dataPosition_two_pow 0 hpos
  | m + 1 => by
    obtain ⟨h1, h2⟩ := foldl_writeRound_ok undef data m
    rw [List.range_succ, List.foldl_append, List.foldl_cons, List.foldl_nil]
    exact writeRound_ok h1 h2

/-- **What `write_data` sets**: the data positions whose bit tests positive. -/
theorem testBit_writeData : (writeData undef m 0 data).testBit b = true ↔
    b < 2 ^ m ∧ DataPosition (b + 1) ∧ Hit undef data (Nat.count DataPosition (b + 1)) := by
  obtain ⟨h1, h2⟩ := foldl_writeRound_ok undef data m
  rw [writeData, h1.memory, h2]

theorem testBit_writeData_nth (hk : k < dataLength m) :
    (writeData undef m 0 data).testBit (Nat.nth DataPosition k - 1) = true ↔ Hit undef data k := by
  have hpos := Nat.nth_mem_of_infinite infinite_dataPosition k
  have hlt := nth_lt hk
  have hsub : Nat.nth DataPosition k - 1 + 1 = Nat.nth DataPosition k := Nat.sub_add_cancel hpos.1
  rw [testBit_writeData, hsub, Nat.count_nth_of_infinite infinite_dataPosition]
  exact ⟨fun h => h.2.2, fun h => ⟨by omega, hpos, h⟩⟩

/-! ### The masks -/

theorem hit_iff_of_lt (undef : ℕ → ℕ) (data : ℕ) (hk : k < 31) :
    Hit undef data k ↔ data.testBit k = true := by
  rw [Hit, intMask, if_pos hk]
  exact and_shift_ne_zero

theorem testBit_of_hit_31 (hb : 31 ≤ b) (hlt : b < 64) (hbit : data.testBit b = true) :
    Hit undef data 31 := by
  have hmask : (intMask undef 31).testBit b = true := by
    have hshift : intMask undef 31 = (2 ^ 33 - 1) <<< 31 := by
      rw [intMask, if_neg (lt_irrefl 31), if_pos rfl, Nat.shiftLeft_eq]
      omega
    rw [hshift, Nat.testBit_shiftLeft, Nat.testBit_two_pow_sub_one]
    simp only [ge_iff_le, Bool.and_eq_true, decide_eq_true_eq]
    omega
  intro hzero
  have hand : (data &&& intMask undef 31).testBit b = true := by
    rw [Nat.testBit_and, hbit, hmask]
    rfl
  rw [hzero, Nat.zero_testBit] at hand
  cases hand

theorem hit_zero : ¬ Hit undef 0 k := by simp [Hit]

/-- Some shift by 32 gives the wrong answer on any data but zero. -/
theorem exists_undef (hd : data ≠ 0) : ∃ undef, ¬ (Hit undef data 32 ↔ data.testBit 32 = true) := by
  refine ⟨fun _ => if data.testBit 32 then 0 else data, ?_⟩
  cases hbit : data.testBit 32 with
  | true => simp [Hit, intMask]
  | false => simp [Hit, intMask, hd]

theorem eq_of_testBit_lt {n data' : ℕ} (hd : data < 2 ^ n) (hd' : data' < 2 ^ n)
    (h : ∀ k < n, data.testBit k = data'.testBit k) : data = data' := by
  refine Nat.eq_of_testBit_eq fun k => ?_
  rcases Nat.lt_or_ge k n with hk | hk
  · exact h k hk
  · have hpow := Nat.pow_le_pow_right Nat.two_pos hk
    rw [Nat.testBit_lt_two_pow (hd.trans_le hpow), Nat.testBit_lt_two_pow (hd'.trans_le hpow)]

/-- The data is in place, nothing else is set, and no other data gives the same word. -/
structure Faithful (undef : ℕ → ℕ) (m data : ℕ) : Prop where
  placed : ∀ k < dataLength m, (writeData undef m 0 data).testBit (Nat.nth DataPosition k - 1) =
    data.testBit k
  other : ∀ q, 1 ≤ q → q.isPowerOfTwo ∨ wordLength m < q →
    (writeData undef m 0 data).testBit (q - 1) = false
  injective : ∀ data' < 2 ^ dataLength m, data' ≠ data →
    writeData undef m 0 data' ≠ writeData undef m 0 data

theorem writeData_other (hq : 1 ≤ q) (h : q.isPowerOfTwo ∨ wordLength m < q) :
    (writeData undef m 0 data).testBit (q - 1) = false := by
  rw [← Bool.not_eq_true, testBit_writeData, Nat.sub_add_cancel hq]
  rintro ⟨hlt, hpos, -⟩
  rcases h with h | h
  · exact hpos.2 h
  · -- the position behind the word is a power of two again
    have hq2 : q = 2 ^ m := by unfold wordLength at h; omega
    exact hpos.2 ⟨m, hq2⟩

theorem hit_iff_of_eq {data' : ℕ} (hk : k < dataLength m)
    (heq : writeData undef m 0 data' = writeData undef m 0 data) :
    Hit undef data' k ↔ Hit undef data k := by
  rw [← testBit_writeData_nth hk, ← testBit_writeData_nth hk, heq]

/-- **Up to `m = 5` the placement is faithful.** -/
theorem faithful_of_le_five (hm : m ≤ 5) (hd : data < 2 ^ dataLength m) :
    Faithful undef m data := by
  have hlen : ∀ k < dataLength m, k < 31 := by
    have hpow : 2 ^ m ≤ 2 ^ 5 := Nat.pow_le_pow_right Nat.two_pos hm
    unfold dataLength
    omega
  refine ⟨fun k hk => ?_, fun q => writeData_other, fun data' hd' hne heq => hne ?_⟩
  · rw [Bool.eq_iff_iff, testBit_writeData_nth hk, hit_iff_of_lt _ _ (hlen k hk)]
  · refine eq_of_testBit_lt hd' hd fun k hk => ?_
    rw [Bool.eq_iff_iff, ← hit_iff_of_lt undef data' (hlen k hk),
      ← hit_iff_of_lt undef data (hlen k hk)]
    exact hit_iff_of_eq hk heq

/-- Zero is in place for every `m` that fits: the mask for bit 31 shows all the bits above it. -/
theorem faithful_zero (hm : m ≤ 6) : Faithful undef m 0 := by
  rcases Nat.lt_or_ge m 6 with hm5 | hm6
  · exact faithful_of_le_five (Nat.le_of_lt_succ hm5) (Nat.two_pow_pos _)
  obtain rfl : m = 6 := Nat.le_antisymm hm hm6
  have hlen : dataLength 6 = 57 := rfl
  refine ⟨fun k hk => ?_, fun q => writeData_other, fun data' hd' hne heq => hne ?_⟩
  · rw [Bool.eq_iff_iff, testBit_writeData_nth hk, Nat.zero_testBit]
    exact iff_of_false hit_zero Bool.false_ne_true
  · refine Nat.eq_of_testBit_eq fun k => ?_
    rw [Nat.zero_testBit, ← Bool.not_eq_true]
    intro hbit
    have hmiss : ∀ k < dataLength 6, ¬ Hit undef data' k :=
      fun k hk => (hit_iff_of_eq hk heq).not.mpr hit_zero
    rcases Nat.lt_or_ge k 31 with hk | hk
    · exact hmiss k (by omega) ((hit_iff_of_lt _ _ hk).mpr hbit)
    · refine hmiss 31 (by omega) (testBit_of_hit_31 hk ?_ hbit)
      by_contra hge
      have hpow : 2 ^ dataLength 6 ≤ 2 ^ k := Nat.pow_le_pow_right Nat.two_pos (by omega)
      rw [Nat.testBit_lt_two_pow (hd'.trans_le hpow)] at hbit
      cases hbit

/-- **When the data is placed faithfully**, whatever the undefined shifts give: for `m ≤ 5`, and for
zero. -/
theorem placement_iff (hm : 1 ≤ m) (hword : 2 ^ m - 1 ≤ 64) (hd : data < 2 ^ (2 ^ m - m - 1)) :
    (∀ undef, Faithful undef m data) ↔ m ≤ 5 ∨ data = 0 := by
  have hm6 : m ≤ 6 := by
    by_contra hgt
    have hpow : 2 ^ 7 ≤ 2 ^ m := Nat.pow_le_pow_right Nat.two_pos (by omega)
    omega
  constructor
  · intro h
    by_contra hne
    rw [not_or, not_le] at hne
    obtain rfl : m = 6 := Nat.le_antisymm hm6 hne.1
    obtain ⟨undef, hwrong⟩ := exists_undef hne.2
    have hplaced := (h undef).placed 32 (by decide)
    rw [Bool.eq_iff_iff, testBit_writeData_nth (by decide)] at hplaced
    exact hwrong hplaced
  · rintro (h5 | rfl) undef
    · exact faithful_of_le_five h5 hd
    · exact faithful_zero hm6

/-- The code of order 3 and the data 11. -/
theorem placement_iff_three : (∀ undef, Faithful undef 3 11) ↔ 3 ≤ 5 ∨ 11 = 0 :=
  placement_iff (by decide) (by decide) (by decide)

/-- The code of order 6 and the data `2 ^ 32`, with the shifts taken modulo 32: bit 31 of the data
is 0 and its position 38 is set, and bit 32 is 1 and its position 39 is not. -/
theorem misplaced : Nat.nth DataPosition 31 = 38 ∧ Nat.nth DataPosition 32 = 39 ∧
    (writeData (fun k => 1 <<< (k % 32)) 6 0 (2 ^ 32)).testBit 37 = true ∧
    (writeData (fun k => 1 <<< (k % 32)) 6 0 (2 ^ 32)).testBit 38 = false := by
  have h31 : Nat.count DataPosition 38 = 31 := by decide
  have h32 : Nat.count DataPosition 39 = 32 := by decide
  refine ⟨?_, ?_, by decide +kernel, by decide +kernel⟩
  · rw [← h31]
    exact Nat.nth_count (by decide)
  · rw [← h32]
    exact Nat.nth_count (by decide)

end Ecen5623.Hamming.Placement
