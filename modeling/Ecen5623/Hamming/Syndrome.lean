import Ecen5623.Hamming.Word
import Ecen5623.Library.XorSum
import Mathlib.Data.Finset.Range

/-! # The check bits locate an error

The syndrome of a word is the exclusive or of the one-based positions of its set bits. Parity `p` is
bit `p` of the syndrome (`checkedXor_eq`), so `total_c` is the syndrome (`totalC_eq`); the parity
loop makes the syndrome `0` (`syndrome_generate`), and a flip at `r` adds `r + 1`
(`syndrome_flip`). -/

namespace Ecen5623.Hamming.Syndrome

open Ecen5623.Library Ecen5623.Hamming.Word

variable {m memory p b r s : ℕ}

/-- The set bits of the word. -/
def support (m memory : ℕ) : Finset ℕ := (Finset.range (wordLength m)).filter (memory.testBit ·)

/-- The exclusive or of the positions of the set bits. -/
def syndrome (m memory : ℕ) : ℕ := xorSum (support m memory) (· + 1)

/-! ### The loop over the bits -/

theorem and_shift_ne_zero : memory &&& (1 <<< b) ≠ 0 ↔ memory.testBit b = true := by
  rw [Nat.one_shiftLeft, Nat.and_two_pow]
  cases memory.testBit b <;> simp

theorem bitAt_eq : bitAt memory b = (memory.testBit b).toNat := by
  unfold bitAt
  simp only [and_shift_ne_zero]
  cases memory.testBit b <;> rfl

/-- The set bits below `n` that are used in parity `p`. -/
def used (memory p n : ℕ) : Finset ℕ :=
  (Finset.range n).filter fun b => memory.testBit b ∧ (b + 1).testBit p

theorem used_succ (memory p n : ℕ) : (used memory p (n + 1)).card =
    (used memory p n).card + if memory.testBit n ∧ (n + 1).testBit p then 1 else 0 := by
  unfold used
  rw [Finset.range_add_one, Finset.filter_insert]
  split_ifs with h
  · rw [Finset.card_insert_of_notMem (by simp)]
  · rfl

theorem foldl_parityStep (memory p : ℕ) : ∀ n, (List.range n).foldl (parityStep memory p) ⟨0, 0⟩ =
    { xor := (used memory p n).card % 2, parityCount := (used memory p n).card }
  | 0 => by simp [used]
  | n + 1 => by
    rw [List.range_succ, List.foldl_append, foldl_parityStep memory p n, List.foldl_cons,
      List.foldl_nil, used_succ]
    unfold parityStep
    rw [bitAt_eq]
    simp only [and_shift_ne_zero]
    rcases Nat.mod_two_eq_zero_or_one (used memory p n).card with h | h <;>
      cases memory.testBit n <;> cases (n + 1).testBit p <;> simp [h, Nat.add_mod]

/-- **The assertion holds, and the parity is a bit of the syndrome.** -/
theorem checkedXor_eq (m memory p : ℕ) :
    checkedXor m memory p = some ((syndrome m memory).testBit p).toNat := by
  have hused : (support m memory).filter (fun b => (b + 1).testBit p) =
      used memory p (wordLength m) := by
    rw [support, Finset.filter_filter]
    rfl
  simp only [checkedXor, parity, foldl_parityStep, if_true]
  rw [syndrome, testBit_xorSum, hused]
  rcases Nat.even_or_odd (used memory p (wordLength m)).card with h | h
  · simp [Nat.even_iff.1 h, Nat.not_odd_iff_even.2 h]
  · simp [Nat.odd_iff.1 h, h]

/-! ### The sum of the check bits -/

theorem checkStep_eq (m memory total p : ℕ) : checkStep m memory total p =
    some (total + 2 ^ p * ((syndrome m memory).testBit p).toNat) := by
  unfold checkStep
  rw [checkedXor_eq]
  cases (syndrome m memory).testBit p <;> simp

theorem foldlM_checkStep (m memory : ℕ) : ∀ n, (List.range n).foldlM (checkStep m memory) 0 =
    some (syndrome m memory % 2 ^ n)
  | 0 => by simp [Nat.mod_one]
  | n + 1 => by
    rw [List.range_succ, List.foldlM_append, foldlM_checkStep m memory n]
    simp [checkStep_eq, Nat.mod_pow_succ, Nat.toNat_testBit]

theorem mem_support : b ∈ support m memory ↔ b < wordLength m ∧ memory.testBit b = true := by
  simp [support]

theorem syndrome_lt (m memory : ℕ) : syndrome m memory < 2 ^ m := by
  refine xorSum_lt_two_pow fun b hb => ?_
  have hb := (mem_support.1 hb).1
  unfold wordLength at hb
  omega

/-- **`total_c` is the syndrome.** -/
theorem totalC_eq (m memory : ℕ) : totalC m memory = some (syndrome m memory) := by
  unfold totalC
  rw [foldlM_checkStep, Nat.mod_eq_of_lt (syndrome_lt m memory)]

theorem getCheckBits_eq (m memory : ℕ) :
    getCheckBits m memory = if syndrome m memory = 0 then some 0 else none := by
  unfold getCheckBits
  rw [totalC_eq]
  by_cases h : syndrome m memory = 0 <;> simp [h]

/-! ### Flips -/

theorem support_flip (hr : r < wordLength m) :
    support m (memory ^^^ (1 <<< r)) = toggle (support m memory) r := by
  ext b
  rw [mem_toggle, mem_support, mem_support, Nat.one_shiftLeft, Nat.testBit_xor, Nat.testBit_two_pow]
  by_cases hb : b = r
  · subst hb
    simp [hr]
  · simp [hb, Ne.symm hb]

/-- **A flip adds its position.** -/
theorem syndrome_flip (hr : r < wordLength m) :
    syndrome m (memory ^^^ (1 <<< r)) = syndrome m memory ^^^ (r + 1) := by
  rw [syndrome, support_flip hr, xorSum_toggle, syndrome]

theorem or_eq_xor (h : memory.testBit b = false) :
    memory ||| (1 <<< b) = memory ^^^ (1 <<< b) := by
  refine Nat.eq_of_testBit_eq fun i => ?_
  rw [Nat.one_shiftLeft, Nat.testBit_or, Nat.testBit_xor, Nat.testBit_two_pow]
  by_cases hi : b = i
  · subst hi
    simp [h]
  · simp [hi]

/-! ### The parity loop -/

/-- The word before round `p`: the parities below `p` are even and the parity bits from `p` on are
not set. -/
structure Generated (m memory p : ℕ) : Prop where
  done : ∀ q < p, (syndrome m memory).testBit q = false
  clear : ∀ q, p ≤ q → q < m → memory.testBit (2 ^ q - 1) = false

theorem two_pow_sub_one_lt (hp : p < m) : 2 ^ p - 1 < wordLength m := by
  have h := Nat.pow_lt_pow_right Nat.one_lt_two hp
  have h1 := Nat.one_le_two_pow (n := p)
  unfold wordLength
  omega

theorem generateStep_eq (hp : p < m) (h : Generated m memory p) :
    ∃ w, generateStep m memory p = some w ∧ Generated m w (p + 1) := by
  unfold generateStep
  rw [checkedXor_eq]
  cases hb : (syndrome m memory).testBit p with
  | false =>
    refine ⟨memory, by simp, fun q hq => ?_, fun q hq => h.clear q (by omega)⟩
    rcases Nat.lt_succ_iff_lt_or_eq.1 hq with hq | rfl
    · exact h.done q hq
    · exact hb
  | true =>
    have hpos : 2 ^ p - 1 + 1 = 2 ^ p := Nat.sub_add_cancel Nat.one_le_two_pow
    refine ⟨memory ||| (1 <<< (2 ^ p - 1)), by simp, fun q hq => ?_, fun q hq hqm => ?_⟩
    · rw [or_eq_xor (h.clear p le_rfl hp), syndrome_flip (two_pow_sub_one_lt hp), hpos,
        Nat.testBit_xor, Nat.testBit_two_pow]
      rcases Nat.lt_succ_iff_lt_or_eq.1 hq with hq | rfl
      · simp [h.done q hq, hq.ne']
      · simp [hb]
    · have hne : 2 ^ p - 1 ≠ 2 ^ q - 1 := by
        have hlt := Nat.pow_lt_pow_right Nat.one_lt_two (show p < q by omega)
        omega
      rw [Nat.testBit_or, h.clear q (by omega) hqm, Nat.one_shiftLeft, Nat.testBit_two_pow]
      simp [hne]

theorem foldlM_generateStep (h : Generated m memory 0) : ∀ n ≤ m,
    ∃ w, (List.range n).foldlM (generateStep m) memory = some w ∧ Generated m w n
  | 0, _ => ⟨memory, rfl, h⟩
  | n + 1, hn => by
    obtain ⟨w, hw, hgw⟩ := foldlM_generateStep h n (by omega)
    obtain ⟨w', hw', hgw'⟩ := generateStep_eq (by omega) hgw
    refine ⟨w', ?_, hgw'⟩
    rw [List.range_succ, List.foldlM_append, hw]
    simpa using hw'

/-- **The parity loop makes the syndrome `0`.** -/
theorem syndrome_generate (h : ∀ p < m, memory.testBit (2 ^ p - 1) = false) :
    ∃ w, generate m memory = some w ∧ syndrome m w = 0 := by
  obtain ⟨w, hw, hgw⟩ := foldlM_generateStep ⟨by simp, fun q _ hq => h q hq⟩ m le_rfl
  refine ⟨w, hw, Nat.eq_of_testBit_eq fun i => ?_⟩
  rw [Nat.zero_testBit]
  by_cases hi : i < m
  · exact hgw.done i hi
  · exact Nat.testBit_lt_two_pow ((syndrome_lt m w).trans_le
      (Nat.pow_le_pow_right Nat.two_pos (not_lt.1 hi)))

/-- **After the parity loop `total_c` is `0`, one flip makes it the position of the flip, and two
flips leave it different from `0`.** -/
theorem total_c_locates (m memory : ℕ) (h : ∀ p < m, memory.testBit (2 ^ p - 1) = false) :
    ∃ w, generate m memory = some w ∧ totalC m w = some 0 ∧
      (∀ r < wordLength m, totalC m (w ^^^ (1 <<< r)) = some (r + 1)) ∧
      ∀ r < wordLength m, ∀ s < wordLength m, r ≠ s →
        ∃ t, totalC m (w ^^^ (1 <<< r) ^^^ (1 <<< s)) = some t ∧ t ≠ 0 := by
  obtain ⟨w, hw, hs⟩ := syndrome_generate h
  refine ⟨w, hw, by rw [totalC_eq, hs], fun r hr => ?_, fun r hr s hs' hrs => ?_⟩
  · rw [totalC_eq, syndrome_flip hr, hs, Nat.zero_xor]
  · refine ⟨(r + 1) ^^^ (s + 1), ?_, fun he => hrs ?_⟩
    · rw [totalC_eq, syndrome_flip hs', syndrome_flip hr, hs, Nat.zero_xor]
    · have := Nat.xor_eq_zero_iff.1 he
      omega

/-- The data word with bit 3 set (position 3 of the code of order 3). -/
theorem total_c_locates_three : ∃ w, generate 3 0b100 = some w ∧ totalC 3 w = some 0 ∧
    (∀ r < 7, totalC 3 (w ^^^ (1 <<< r)) = some (r + 1)) ∧
    ∀ r < 7, ∀ s < 7, r ≠ s → ∃ t, totalC 3 (w ^^^ (1 <<< r) ^^^ (1 <<< s)) = some t ∧ t ≠ 0 :=
  total_c_locates 3 0b100 (by decide)

end Ecen5623.Hamming.Syndrome
