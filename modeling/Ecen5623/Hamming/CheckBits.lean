import Ecen5623.Hamming.MemoryWord

/-! # What writing and reading a memory word do

`write_w_hamming` only sets bits. The data bits of the byte come beside those the word has
(`getLsbD_write`), and a check bit is set if the parity of the bits it checks, itself included, is
odd (`getLsbD_written_check`); a check bit that is set and should not be stays, and shows in the
check value (`testBit_check_written`). `read_w_hamming` goes by the check value and the parity of
the low bits (`readWHamming_of_check_zero`, `readWHamming_of_check_ne_zero`). -/

namespace Ecen5623.Hamming.CheckBits

open Ecen5623.Library Ecen5623.Hamming.Word Ecen5623.Hamming.Syndrome
open Ecen5623.Hamming.MemoryWord

variable {w w' : Word} {v : Byte} {p k : ℕ}

/-! ### The data bits -/

/-- The data positions of the word, each with the bit of the byte that goes there; the last three
belong to no bit of a byte. -/
def dataPos : List (ℕ × ℕ) :=
  [(2, 0), (4, 1), (5, 2), (6, 3), (8, 4), (9, 5), (10, 6), (11, 7), (12, 8), (13, 9), (14, 10)]

/-- The positions that `n` rounds of the inner loop go through. -/
def innerPos (s : DataLoop) (n : ℕ) : List (ℕ × ℕ) :=
  (List.range n).map fun i => (s.wordPos + i, s.valuePos + i)

theorem innerPos_succ (s : DataLoop) (n : ℕ) :
    innerPos s (n + 1) = innerPos s n ++ [(s.wordPos + n, s.valuePos + n)] := by
  simp [innerPos, List.range_succ]

theorem foldl_dataStep_write (v : Byte) (s : DataLoop) : ∀ n,
    (List.range n).foldl (fun s _ => dataStep v true s) s =
      { wordPos := s.wordPos + n
        valuePos := s.valuePos + n
        memory := (innerPos s n).foldl
          (fun w q => if v.getLsbD q.2 then w ||| (1#32 <<< q.1) else w) s.memory
        returnValue := s.returnValue }
  | 0 => rfl
  | n + 1 => by
    rw [List.range_succ, List.foldl_append, foldl_dataStep_write v s n, innerPos_succ,
      List.foldl_append]
    simp [dataStep, Nat.add_assoc]

theorem foldl_dataStep_read (s : DataLoop) : ∀ n,
    (List.range n).foldl (fun s _ => dataStep v false s) s =
      { wordPos := s.wordPos + n
        valuePos := s.valuePos + n
        memory := s.memory
        returnValue := (innerPos s n).foldl
          (fun x q => if s.memory.getLsbD q.1 then x ||| (1#8 <<< q.2) else x) s.returnValue }
  | 0 => rfl
  | n + 1 => by
    rw [List.range_succ, List.foldl_append, foldl_dataStep_read s n, innerPos_succ,
      List.foldl_append]
    simp [dataStep, Nat.add_assoc]

theorem hammingData_write (v : Byte) (w : Word) : (hammingData v w true).1 =
    dataPos.foldl (fun w q => if v.getLsbD q.2 then w ||| (1#32 <<< q.1) else w) w := by
  have hrange : List.range M = [0, 1, 2, 3] := rfl
  simp only [hammingData, hrange, List.foldl_cons, List.foldl_nil, dataRound, foldl_dataStep_write,
    ← List.foldl_append]
  exact congrArg (List.foldl _ w) rfl

theorem hammingData_read (w : Word) : (hammingData v w false).2 =
    dataPos.foldl (fun x q => if w.getLsbD q.1 then x ||| (1#8 <<< q.2) else x) 0 := by
  have hrange : List.range M = [0, 1, 2, 3] := rfl
  simp only [hammingData, hrange, List.foldl_cons, List.foldl_nil, dataRound, foldl_dataStep_read,
    ← List.foldl_append]
  exact congrArg (List.foldl _ 0) rfl

theorem getLsbD_foldl_or {ι : Type*} {n : ℕ} (c : ι → Prop) [DecidablePred c] (t : ι → ℕ)
    (hk : k < n) : ∀ (l : List ι) (x : BitVec n),
      (l.foldl (fun x q => if c q then x ||| (1#n <<< t q) else x) x).getLsbD k =
        (x.getLsbD k || l.any fun q => c q ∧ t q = k)
  | [], x => by simp
  | q :: l, x => by
    rw [List.foldl_cons, getLsbD_foldl_or c t hk l, List.any_cons]
    by_cases hc : c q
    · have hbit : (1#n <<< t q).getLsbD k = decide (t q = k) := by
        rw [← BitVec.twoPow_eq, BitVec.getLsbD_twoPow]
        simp only [Bool.and_eq_right_iff_imp, decide_eq_true_eq]
        rintro rfl
        exact hk
      simp [hc, hbit, Bool.or_assoc]
    · simp [hc]

/-- **What a write of the data bits does.** -/
theorem getLsbD_write (v : Byte) (w : Word) (hk : k < 32) :
    (hammingData v w true).1.getLsbD k =
      (w.getLsbD k || dataPos.any fun q => v.getLsbD q.2 ∧ q.1 = k) := by
  rw [hammingData_write, getLsbD_foldl_or _ _ hk]

theorem getLsbD_read (w : Word) (hk : k < 8) : (hammingData v w false).2.getLsbD k =
    dataPos.any fun q => w.getLsbD q.1 ∧ q.2 = k := by
  rw [hammingData_read, getLsbD_foldl_or _ _ hk]
  simp

/-- The positions of the check bits and of the word parity. -/
def checkMask : Word := 0x8000008B

/-- The word without its check bits and its word parity. -/
def clear (w : Word) : Word := w &&& ~~~checkMask

theorem getLsbD_clear (w : Word) (hk : k < 32) :
    (clear w).getLsbD k = (w.getLsbD k && !checkMask.getLsbD k) := by
  rw [clear, BitVec.getLsbD_and, BitVec.getLsbD_not]
  simp [hk]

theorem not_dataPos : ∀ k < 32, checkMask.getLsbD k → ∀ q ∈ dataPos, q.1 ≠ k := by decide

theorem getLsbD_write_check (v : Byte) (w : Word) (hk : k < 32) (hc : checkMask.getLsbD k) :
    (hammingData v w true).1.getLsbD k = w.getLsbD k := by
  have hany : dataPos.any (fun q => v.getLsbD q.2 ∧ q.1 = k) = false := by
    rw [List.any_eq_false]
    intro q hq
    simp [not_dataPos k hk hc q hq]
  rw [getLsbD_write v w hk, hany, Bool.or_false]

theorem clear_hammingData (v : Byte) (w : Word) :
    clear (hammingData v w true).1 = (hammingData v (clear w) true).1 := by
  refine BitVec.eq_of_getLsbD_eq fun k hk => ?_
  rw [getLsbD_clear _ hk]
  cases hc : checkMask.getLsbD k with
  | true =>
    rw [getLsbD_write_check v _ hk hc, getLsbD_write_check v _ hk hc, getLsbD_clear w hk, hc]
  | false =>
    rw [getLsbD_write v _ hk, getLsbD_write v _ hk, getLsbD_clear w hk, hc]
    simp

/-! ### The check bits -/

/-- The check value of a word. -/
def check (w : Word) : ℕ := syndrome M w.toNat

theorem wordLength_M : wordLength M = 15 := rfl

theorem testBit_check_congr (h : ∀ b < 15, (b + 1).testBit p → w.getLsbD b = w'.getLsbD b) :
    (check w).testBit p = (check w').testBit p := by
  have hsupp : (support M w.toNat).filter (fun b => (b + 1).testBit p) =
      (support M w'.toNat).filter fun b => (b + 1).testBit p := by
    ext b
    simp only [Finset.mem_filter, mem_support, wordLength_M, BitVec.testBit_toNat]
    constructor
    · rintro ⟨⟨hb, hbit⟩, hp⟩
      exact ⟨⟨hb, (h b hb hp).symm.trans hbit⟩, hp⟩
    · rintro ⟨⟨hb, hbit⟩, hp⟩
      exact ⟨⟨hb, (h b hb hp).trans hbit⟩, hp⟩
  rw [check, check, syndrome, syndrome, testBit_xorSum, testBit_xorSum, hsupp]

theorem toNat_xor_one_shift (w : Word) (hk : k < 32) :
    (w ^^^ (1#32 <<< k)).toNat = w.toNat ^^^ (1 <<< k) := by
  have hlt : 2 ^ k < 2 ^ 32 := Nat.pow_lt_pow_right Nat.one_lt_two hk
  rw [BitVec.toNat_xor, ← BitVec.twoPow_eq, BitVec.toNat_twoPow, Nat.mod_eq_of_lt hlt,
    Nat.one_shiftLeft]

theorem check_flip (w : Word) {r : ℕ} (hr : r < 15) :
    check (w ^^^ (1#32 <<< r)) = check w ^^^ (r + 1) := by
  rw [check, toNat_xor_one_shift w (by omega), syndrome_flip hr, check]

theorem not_check_of_used : ∀ p < 4, ∀ b < 15, (b + 1).testBit p → b ≠ 2 ^ p - 1 →
    checkMask.getLsbD b = false := by decide

theorem checkMask_two_pow : ∀ p < 4, checkMask.getLsbD (2 ^ p - 1) = true := by decide

/-- **The check bit on its own and the rest of the check value.** -/
theorem testBit_check (w : Word) (hp : p < 4) : (check w).testBit p =
    ((check (clear w)).testBit p ^^ w.getLsbD (2 ^ p - 1)) := by
  have hpos : 2 ^ p - 1 < 15 := two_pow_sub_one_lt (m := 4) hp
  cases hb : w.getLsbD (2 ^ p - 1) with
  | false =>
    rw [Bool.xor_false]
    refine testBit_check_congr fun b hb15 hused => ?_
    rw [getLsbD_clear w (by omega)]
    by_cases hbp : b = 2 ^ p - 1
    · rw [hbp, hb, Bool.false_and]
    · rw [not_check_of_used p hp b hb15 hused hbp, Bool.not_false, Bool.and_true]
  | true =>
    have hflip : (check (w ^^^ (1#32 <<< (2 ^ p - 1)))).testBit p =
        (check (clear w)).testBit p := by
      refine testBit_check_congr fun b hb15 hused => ?_
      rw [getLsbD_clear w (by omega), BitVec.getLsbD_xor, ← BitVec.twoPow_eq, BitVec.getLsbD_twoPow]
      by_cases hbp : b = 2 ^ p - 1
      · rw [hbp, hb, checkMask_two_pow p hp]
        simp
        omega
      · rw [not_check_of_used p hp b hb15 hused hbp]
        simp [Ne.symm hbp]
    rw [← hflip, check_flip w hpos, Nat.sub_add_cancel Nat.one_le_two_pow, Nat.testBit_xor,
      Nat.testBit_two_pow_self, Bool.xor_assoc, Bool.xor_self, Bool.xor_false]

theorem check_lt (w : Word) : check w < 16 := syndrome_lt M w.toNat

theorem check_eq_zero_iff (w : Word) : check w = 0 ↔ ∀ p < 4, (check w).testBit p = false := by
  constructor
  · intro h p _
    rw [h, Nat.zero_testBit]
  · intro h
    refine Nat.eq_of_testBit_eq fun p => ?_
    rw [Nat.zero_testBit]
    by_cases hp : p < 4
    · exact h p hp
    · exact Nat.testBit_lt_two_pow ((check_lt w).trans_le
        (Nat.pow_le_pow_right Nat.two_pos (not_lt.1 hp)))

/-! ### The loops over the parities -/

/-- **Reading, `apply_parity` returns the check value.** -/
theorem foldlM_parityRound_read (w : Word) : ∀ n,
    (List.range n).foldlM (parityRound false) (w, 0) = some (w, check w % 2 ^ n)
  | 0 => by simp [Nat.mod_one]
  | n + 1 => by
    rw [List.range_succ, List.foldlM_append, foldlM_parityRound_read w n]
    simp only [Option.bind_eq_bind, Option.bind_some, List.foldlM_cons, List.foldlM_nil,
      parityRound, checkedXor_eq]
    rw [← check, Nat.mod_pow_succ, Nat.toNat_testBit]
    rcases Nat.mod_two_eq_zero_or_one (check w / 2 ^ n) with h | h <;>
      simp [h]

theorem applyParity_read (w : Word) : applyParity w false = some (check w, w) := by
  simp only [applyParity, foldlM_parityRound_read, Option.bind_eq_bind, Option.bind_some]
  have hmod : check w % 2 ^ M = check w := Nat.mod_eq_of_lt (check_lt w)
  rw [hmod]
  rfl

/-- The word after the first `n` rounds of `apply_parity`, writing. -/
def withChecks (w : Word) (n : ℕ) : Word :=
  (List.range n).foldl
    (fun x q => if (check w).testBit q then x ||| (1#32 <<< (2 ^ q - 1)) else x) w

theorem getLsbD_withChecks (w : Word) (n : ℕ) (hk : k < 32) : (withChecks w n).getLsbD k =
    (w.getLsbD k || (List.range n).any fun q => (check w).testBit q ∧ 2 ^ q - 1 = k) :=
  getLsbD_foldl_or _ _ hk _ _

/-- A round sees the check bit that the word had before the first one. -/
theorem testBit_withChecks (w : Word) (n : ℕ) :
    (check (withChecks w n)).testBit n = (check w).testBit n := by
  refine testBit_check_congr fun b hb hused => ?_
  have hany : (List.range n).any (fun q => (check w).testBit q ∧ 2 ^ q - 1 = b) = false := by
    rw [List.any_eq_false]
    intro q hq
    rw [List.mem_range] at hq
    have hne : 2 ^ q - 1 ≠ b := by
      rintro rfl
      rw [Nat.sub_add_cancel Nat.one_le_two_pow, Nat.testBit_two_pow] at hused
      exact hq.ne (of_decide_eq_true hused)
    simp [hne]
  rw [getLsbD_withChecks w n (by omega), hany, Bool.or_false]

theorem foldlM_parityRound_write (w : Word) : ∀ n ≤ 4,
    (List.range n).foldlM (parityRound true) (w, 0) = some (withChecks w n, 0)
  | 0, _ => rfl
  | n + 1, hn => by
    rw [List.range_succ, List.foldlM_append, foldlM_parityRound_write w n (by omega)]
    simp only [Option.bind_eq_bind, Option.bind_some, List.foldlM_cons, List.foldlM_nil,
      parityRound, checkedXor_eq, if_true]
    rw [← check, testBit_withChecks w n]
    have hsucc : withChecks w (n + 1) = if (check w).testBit n then
        withChecks w n ||| (1#32 <<< (2 ^ n - 1)) else withChecks w n := by
      simp [withChecks, List.range_succ]
    rw [hsucc]
    cases (check w).testBit n <;> simp

/-- The number of ones among the low 15 bits. -/
def ones (w : Word) : ℕ := (support M w.toNat).card

theorem foldl_wordParityStep (w : Word) : ∀ n, (List.range n).foldl (wordParityStep w) ⟨0, 0⟩ =
    { xor := ((Finset.range n).filter (w.toNat.testBit ·)).card % 2
      parityCount := ((Finset.range n).filter (w.toNat.testBit ·)).card }
  | 0 => by simp
  | n + 1 => by
    rw [List.range_succ, List.foldl_append, foldl_wordParityStep w n, List.foldl_cons,
      List.foldl_nil, Finset.range_add_one, Finset.filter_insert]
    unfold wordParityStep
    rw [bitAt_eq]
    cases hb : w.toNat.testBit n with
    | false => simp
    | true =>
      rw [if_pos rfl, Finset.card_insert_of_notMem (by simp)]
      rcases Nat.mod_two_eq_zero_or_one
        ((Finset.range n).filter (w.toNat.testBit ·)).card with h | h <;> simp [h, Nat.add_mod]

theorem wordParity_fst (w : Word) (write : Bool) : (wordParity w write).1 = ones w % 2 := by
  simp only [wordParity, wordBits, foldl_wordParityStep]
  rfl

theorem wordParity_snd (w : Word) (write : Bool) : (wordParity w write).2 =
    if write ∧ ones w % 2 ≠ 0 then w ||| parityWordBit else w := by
  rw [← wordParity_fst w write]
  rfl

/-! ### A write -/

/-- The word after a write. -/
def written (v : Byte) (w : Word) : Word :=
  (wordParity (withChecks (hammingData v w true).1 M) true).2

theorem writeWHamming_eq (v : Byte) (w : Word) : writeWHamming v w = some (0, written v w) := by
  simp only [writeWHamming, applyParity]
  rw [foldlM_parityRound_write _ M le_rfl]
  rfl

theorem getLsbD_written (v : Byte) (w : Word) (hk : k < 31) :
    (written v w).getLsbD k = (withChecks (hammingData v w true).1 M).getLsbD k := by
  rw [written, wordParity_snd]
  split_ifs
  · rw [BitVec.getLsbD_or, parityWordBit, ← BitVec.twoPow_eq, BitVec.getLsbD_twoPow]
    simp [hk.ne']
  · rfl

theorem clear_written (v : Byte) (w : Word) :
    clear (written v w) = (hammingData v (clear w) true).1 := by
  rw [← clear_hammingData]
  refine BitVec.eq_of_getLsbD_eq fun k hk => ?_
  rw [getLsbD_clear _ hk, getLsbD_clear _ hk]
  cases hc : checkMask.getLsbD k with
  | true => simp
  | false =>
    have h31 : k ≠ 31 := by
      rintro rfl
      exact absurd hc (by decide)
    have hany : (List.range M).any (fun q =>
        (check (hammingData v w true).1).testBit q ∧ 2 ^ q - 1 = k) = false := by
      rw [List.any_eq_false]
      intro q hq
      have hne : 2 ^ q - 1 ≠ k := by
        rintro rfl
        rw [checkMask_two_pow q (List.mem_range.1 hq)] at hc
        cases hc
      simp [hne]
    rw [getLsbD_written v w (by omega), getLsbD_withChecks _ _ hk, hany, Bool.or_false]

/-- **A check bit after a write**: it was set before, or the data ask for it. -/
theorem getLsbD_written_check (v : Byte) (w : Word) (hp : p < 4) :
    (written v w).getLsbD (2 ^ p - 1) = (w.getLsbD (2 ^ p - 1) ||
      (check (hammingData v (clear w) true).1).testBit p) := by
  have hpos : 2 ^ p - 1 < 15 := two_pow_sub_one_lt (m := 4) hp
  have hany : (List.range M).any (fun q =>
      (check (hammingData v w true).1).testBit q ∧ 2 ^ q - 1 = 2 ^ p - 1) =
      (check (hammingData v w true).1).testBit p := by
    rw [Bool.eq_iff_iff, List.any_eq_true]
    constructor
    · rintro ⟨q, -, hq⟩
      obtain ⟨hbit, he⟩ := of_decide_eq_true hq
      have h1 := Nat.one_le_two_pow (n := p)
      have h2 := Nat.one_le_two_pow (n := q)
      have hqp : q = p := Nat.pow_right_injective le_rfl (by simp only; omega)
      rwa [hqp] at hbit
    · intro hbit
      exact ⟨p, List.mem_range.2 hp, by simp [hbit]⟩
  rw [getLsbD_written v w (by omega), getLsbD_withChecks _ _ (by omega), hany,
    testBit_check _ hp, clear_hammingData,
    getLsbD_write_check v w (by omega) (checkMask_two_pow p hp)]
  cases w.getLsbD (2 ^ p - 1) <;> simp

/-- **The check value after a write**: the check bits that were set and should not be. -/
theorem testBit_check_written (v : Byte) (w : Word) (hp : p < 4) :
    (check (written v w)).testBit p = (w.getLsbD (2 ^ p - 1) &&
      !(check (hammingData v (clear w) true).1).testBit p) := by
  rw [testBit_check _ hp, clear_written, getLsbD_written_check v w hp]
  cases w.getLsbD (2 ^ p - 1) <;>
    cases (check (hammingData v (clear w) true).1).testBit p <;> rfl

/-! ### A read -/

theorem ones_congr (h : ∀ b < 15, w.getLsbD b = w'.getLsbD b) : ones w = ones w' := by
  unfold ones
  congr 1
  ext b
  simp only [mem_support, wordLength_M, BitVec.testBit_toNat]
  exact and_congr_right fun hb => by rw [h b hb]

theorem ones_written (v : Byte) (w : Word) :
    ones (written v w) = ones (withChecks (hammingData v w true).1 M) :=
  ones_congr fun b hb => getLsbD_written v w (by omega)

/-- **The word parity after a write**: it was set before, or the low bits ask for it. -/
theorem getLsbD_written_parity (v : Byte) (w : Word) : (written v w).getLsbD 31 =
    (w.getLsbD 31 || decide (ones (written v w) % 2 ≠ 0)) := by
  have hany : (List.range M).any (fun q =>
      (check (hammingData v w true).1).testBit q ∧ 2 ^ q - 1 = 31) = false := by
    have hne : ∀ q ∈ List.range M, 2 ^ q - 1 ≠ 31 := by decide
    rw [List.any_eq_false]
    intro q hq
    simp [hne q hq]
  have hbit : (withChecks (hammingData v w true).1 M).getLsbD 31 = w.getLsbD 31 := by
    rw [getLsbD_withChecks _ _ (by omega), hany, Bool.or_false,
      getLsbD_write_check v w (by omega) (by decide)]
  have hparity : parityWordBit.getLsbD 31 = true := by decide
  rw [ones_written, written, wordParity_snd]
  split_ifs with h
  · rw [BitVec.getLsbD_or, hparity, decide_eq_true h.2, Bool.or_true, Bool.or_true]
  · rw [hbit, decide_eq_false fun hodd => h ⟨rfl, hodd⟩, Bool.or_false]

theorem wordParity_written (v : Byte) (w : Word) :
    (wordParity (written v w) true).2 = written v w := by
  rw [wordParity_snd, ones_written]
  split_ifs with h
  · rw [written, wordParity_snd, if_pos h, BitVec.or_assoc, BitVec.or_self]
  · rfl

theorem readWHamming_of_check_zero (out : Byte) (h : check w = 0) : readWHamming out w =
    some { rc := 1
           value := (hammingData 0
             (if ones w % 2 ≠ getParity w then (wordParity w true).2 else w) false).2
           memory := if ones w % 2 ≠ getParity w then (wordParity w true).2 else w } := by
  unfold readWHamming
  rw [applyParity_read]
  simp only [Option.bind_eq_bind, Option.bind_some, h, if_true, wordParity_fst]

theorem readWHamming_of_check_ne_zero (out : Byte) (h : check w ≠ 0) : readWHamming out w =
    if ones w % 2 = getParity w then some { rc := -1, value := out, memory := w }
    else some { rc := 1
                value := (hammingData 0 (w ^^^ (1#32 <<< (check w - 1))) false).2
                memory := w ^^^ (1#32 <<< (check w - 1)) } := by
  unfold readWHamming
  rw [applyParity_read]
  simp only [Option.bind_eq_bind, Option.bind_some, h, if_false, wordParity_fst]

theorem getLsbD_hammingData_zero (w : Word) {q : ℕ × ℕ} (hq : q ∈ dataPos) (hq8 : q.2 < 8) :
    (hammingData 0 w false).2.getLsbD q.2 = w.getLsbD q.1 := by
  have hinj : ∀ q ∈ dataPos, ∀ q' ∈ dataPos, q'.2 = q.2 → q' = q := by decide
  rw [getLsbD_read w hq8, Bool.eq_iff_iff, List.any_eq_true]
  constructor
  · rintro ⟨q', hq', h⟩
    obtain ⟨hbit, he⟩ := of_decide_eq_true h
    rwa [hinj q hq q' hq' he] at hbit
  · intro hbit
    exact ⟨q, hq, by simp [hbit]⟩

theorem hammingData_eq_iff (w : Word) (b : Byte) : (hammingData 0 w false).2 = b ↔
    ∀ q ∈ dataPos, q.2 < 8 → (w.getLsbD q.1 = true ↔ b.getLsbD q.2 = true) := by
  constructor
  · rintro rfl q hq hq8
    rw [getLsbD_hammingData_zero w hq hq8]
  · intro h
    refine BitVec.eq_of_getLsbD_eq fun i hi => ?_
    have hex : ∀ i < 8, ∃ q ∈ dataPos, q.2 = i := by decide
    obtain ⟨q, hq, rfl⟩ := hex i hi
    rw [getLsbD_hammingData_zero w hq hi, Bool.eq_iff_iff]
    exact h q hq hi

theorem getLsbD_clear_dataPos (w : Word) {q : ℕ × ℕ} (hq : q ∈ dataPos) :
    (clear w).getLsbD q.1 = w.getLsbD q.1 := by
  have hlt : ∀ q ∈ dataPos, q.1 < 32 ∧ checkMask.getLsbD q.1 = false := by decide
  rw [getLsbD_clear w (hlt q hq).1, (hlt q hq).2, Bool.not_false, Bool.and_true]

theorem xor_one_shift_ne (w : Word) (hk : k < 32) : w ^^^ (1#32 <<< k) ≠ w := by
  intro h
  have hbit : (w ^^^ (1#32 <<< k)).getLsbD k = w.getLsbD k := by rw [h]
  rw [BitVec.getLsbD_xor, ← BitVec.twoPow_eq, BitVec.getLsbD_twoPow] at hbit
  cases w.getLsbD k <;> simp [hk] at hbit

/-- **A written word is read back unchanged exactly if its check value is `0` and its data are the
byte.** -/
theorem readWHamming_written_iff (v b : Byte) (w : Word) :
    (∀ out, readWHamming out (written v w) =
      some { rc := 1, value := b, memory := written v w }) ↔
        check (written v w) = 0 ∧ (hammingData 0 (written v w) false).2 = b := by
  by_cases hc : check (written v w) = 0
  · have hif : (if ones (written v w) % 2 ≠ getParity (written v w) then
        (wordParity (written v w) true).2 else written v w) = written v w := by
      rw [wordParity_written, ite_self]
    simp only [readWHamming_of_check_zero _ hc, hif, Option.some.injEq, Read.mk.injEq, true_and,
      and_true, forall_const, hc]
  · refine iff_of_false (fun h => ?_) fun h => hc h.1
    have h0 := h 0
    rw [readWHamming_of_check_ne_zero _ hc] at h0
    split_ifs at h0
    · simp at h0
    · have hlt := check_lt (written v w)
      have hmem := congrArg Read.memory (Option.some.inj h0)
      exact xor_one_shift_ne (written v w) (by omega) hmem

end Ecen5623.Hamming.CheckBits
