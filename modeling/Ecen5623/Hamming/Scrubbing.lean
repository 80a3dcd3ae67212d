import Ecen5623.Hamming.CheckBits
import Mathlib.Algebra.Group.Nat.Even

/-! # Scrubbing a memory word

A byte is written once to a word of zeros; then each round flips at most one bit and reads. A read
repairs a flip among the low 15 bits completely (`read_low`). A flip of the word parity is repaired
only if the bit has to be set (`read_parity_odd`), because `word_parity` cannot clear it
(`read_parity_even`). Which of the two it is depends on the byte alone (`odd_ones_encoded`). -/

namespace Ecen5623.Hamming.Scrubbing

open Ecen5623.Library Ecen5623.Hamming.Syndrome Ecen5623.Hamming.MemoryWord
open Ecen5623.Hamming.CheckBits

variable {w : Word} {b : Byte} {r : ℕ}

/-! ### Rounds -/

/-- The word after a flip, if any. -/
def flipAt (w : Word) : Option ℕ → Word
  | none => w
  | some r => w ^^^ (1#32 <<< r)

/-- Round after round the read returns `1` with the byte `b` and leaves the word `w₀`. -/
def ReadsBack (b : Byte) (w₀ : Word) : Word → List (Option ℕ) → Prop
  | _, [] => True
  | w, flip :: flips => ∃ read, (∀ out, readWHamming out (flipAt w flip) = some read) ∧
      read.rc = 1 ∧ read.value = b ∧ read.memory = w₀ ∧ ReadsBack b w₀ read.memory flips

/-- The byte survives the rounds that follow its write to a word of zeros. -/
def Survives (b : Byte) (flips : List (Option ℕ)) : Prop :=
  ∃ c w₀, writeWHamming b 0 = some (c, w₀) ∧ ReadsBack b w₀ w₀ flips

/-- The number of ones of a byte. -/
def countOnes (v : Byte) : ℕ := (List.range 8).countP (v.getLsbD ·)

/-! ### Encoded words -/

/-- The word of zeros after the write. -/
def encoded (b : Byte) : Word := written b 0

theorem check_encoded (b : Byte) : check (encoded b) = 0 := by
  rw [check_eq_zero_iff]
  intro p hp
  rw [encoded, testBit_check_written b 0 hp]
  simp

theorem hammingData_encoded (b : Byte) : (hammingData 0 (encoded b) false).2 = b := by
  rw [hammingData_eq_iff]
  intro q hq hq8
  have hlt : ∀ q ∈ dataPos, q.1 < 32 := by decide
  have hinj : ∀ q ∈ dataPos, ∀ q' ∈ dataPos, q'.1 = q.1 → q' = q := by decide
  have hclear : clear 0 = 0 := by decide
  rw [encoded, ← getLsbD_clear_dataPos _ hq, clear_written, hclear, getLsbD_write _ _ (hlt q hq),
    Bool.or_eq_true, List.any_eq_true]
  constructor
  · rintro (h | ⟨q', hq', h⟩)
    · simp at h
    · obtain ⟨hbit, he⟩ := of_decide_eq_true h
      rwa [hinj q hq q' hq' he] at hbit
  · exact fun hbit => .inr ⟨q, hq, by simp [hbit]⟩

/-- **The parity of the encoded word** is that of the bits of the byte with an odd number of ones in
their column of the code. -/
theorem odd_ones_encoded (b : Byte) : Odd (ones (encoded b)) ↔ Odd (countOnes (b &&& 0xB7)) := by
  have hall : ∀ b : Byte, (writeWHamming b 0).map (fun r => (wordParity r.2 false).1) =
      some (countOnes (b &&& 0xB7) % 2) := by decide +kernel
  have hb := hall b
  rw [writeWHamming_eq, Option.map_some, wordParity_fst, Option.some.injEq] at hb
  rw [Nat.odd_iff, Nat.odd_iff, encoded, hb]

theorem getParity_eq (w : Word) : getParity w = if w.getLsbD 31 then 1 else 0 := by
  have hmask : w &&& parityWordBit = if w.getLsbD 31 then parityWordBit else 0 := by
    rw [parityWordBit, ← BitVec.twoPow_eq, BitVec.and_twoPow]
    rfl
  rw [getParity, hmask]
  cases w.getLsbD 31 <;> decide

theorem getParity_encoded (b : Byte) : getParity (encoded b) = ones (encoded b) % 2 := by
  have hzero : (0 : Word).getLsbD 31 = false := by decide
  rw [getParity_eq, encoded, getLsbD_written_parity, hzero, Bool.false_or]
  rcases Nat.mod_two_eq_zero_or_one (ones (written b 0)) with h | h <;> rw [h] <;> rfl

/-! ### One round -/

theorem getParity_flip (w : Word) (hr : r < 15) : getParity (w ^^^ (1#32 <<< r)) = getParity w := by
  rw [getParity_eq, getParity_eq, BitVec.getLsbD_xor, ← BitVec.twoPow_eq, BitVec.getLsbD_twoPow]
  have hne : r ≠ 31 := by omega
  simp [hne]

theorem ones_flip (w : Word) (hr : r < 15) :
    ones (w ^^^ (1#32 <<< r)) % 2 ≠ ones w % 2 := by
  have hodd := odd_card_toggle (support M w.toNat) r
  rw [ones, toNat_xor_one_shift w (by omega), support_flip hr]
  rw [Nat.odd_iff, Nat.odd_iff] at hodd
  unfold ones
  omega

theorem xor_xor_self (w x : Word) : w ^^^ x ^^^ x = w := by
  rw [BitVec.xor_assoc, BitVec.xor_self, BitVec.xor_zero]

theorem read_none (b out : Byte) : readWHamming out (flipAt (encoded b) none) =
    some { rc := 1, value := b, memory := encoded b } := by
  have hif : (if ones (encoded b) % 2 ≠ getParity (encoded b) then
      (wordParity (encoded b) true).2 else encoded b) = encoded b :=
    if_neg (not_not.2 (getParity_encoded b).symm)
  rw [flipAt, readWHamming_of_check_zero out (check_encoded b), hif, hammingData_encoded]

/-- **A flip of a low bit is repaired.** -/
theorem read_low (b out : Byte) (hr : r < 15) : readWHamming out (flipAt (encoded b) (some r)) =
    some { rc := 1, value := b, memory := encoded b } := by
  have hc : check (encoded b ^^^ (1#32 <<< r)) = r + 1 := by
    rw [check_flip _ hr, check_encoded, Nat.zero_xor]
  have hpar : ones (encoded b ^^^ (1#32 <<< r)) % 2 ≠
      getParity (encoded b ^^^ (1#32 <<< r)) := by
    rw [getParity_flip _ hr, getParity_encoded]
    exact ones_flip _ hr
  rw [flipAt, readWHamming_of_check_ne_zero out (by omega), if_neg hpar, hc,
    Nat.add_sub_cancel, xor_xor_self, hammingData_encoded]

theorem getLsbD_flip_parity (w : Word) {k : ℕ} (hk : k < 31) :
    (w ^^^ parityWordBit).getLsbD k = w.getLsbD k := by
  rw [BitVec.getLsbD_xor, parityWordBit, ← BitVec.twoPow_eq, BitVec.getLsbD_twoPow]
  simp [hk.ne']

theorem check_flip_parity (w : Word) : check (w ^^^ parityWordBit) = check w := by
  refine Nat.eq_of_testBit_eq fun p => ?_
  exact testBit_check_congr fun k hk _ => getLsbD_flip_parity w (by omega)

theorem ones_flip_parity (w : Word) : ones (w ^^^ parityWordBit) = ones w :=
  ones_congr fun k hk => getLsbD_flip_parity w (by omega)

theorem hammingData_flip_parity (w : Word) :
    (hammingData 0 (w ^^^ parityWordBit) false).2 = (hammingData 0 w false).2 := by
  have hlt : ∀ q ∈ dataPos, q.1 < 31 := by decide
  rw [hammingData_eq_iff]
  intro q hq hq8
  rw [getLsbD_flip_parity w (hlt q hq), getLsbD_hammingData_zero w hq hq8]

theorem getParity_flip_parity (w : Word) : getParity (w ^^^ parityWordBit) ≠ getParity w := by
  have hbit : (w ^^^ parityWordBit).getLsbD 31 = !w.getLsbD 31 := by
    rw [BitVec.getLsbD_xor, parityWordBit, ← BitVec.twoPow_eq, BitVec.getLsbD_twoPow]
    simp
  rw [getParity_eq, getParity_eq, hbit]
  cases w.getLsbD 31 <;> simp

theorem read_parity (b out : Byte) : readWHamming out (flipAt (encoded b) (some 31)) =
    some { rc := 1
           value := (hammingData 0
             (wordParity (encoded b ^^^ parityWordBit) true).2 false).2
           memory := (wordParity (encoded b ^^^ parityWordBit) true).2 } := by
  have hne : ones (encoded b ^^^ parityWordBit) % 2 ≠
      getParity (encoded b ^^^ parityWordBit) := by
    rw [ones_flip_parity, ← getParity_encoded]
    exact (getParity_flip_parity _).symm
  rw [flipAt, ← parityWordBit, readWHamming_of_check_zero out
    ((check_flip_parity _).trans (check_encoded b)), if_pos hne]

/-- **The word parity is set again** if the parity is odd. -/
theorem read_parity_odd (out : Byte) (h : Odd (ones (encoded b))) :
    readWHamming out (flipAt (encoded b) (some 31)) =
      some { rc := 1, value := b, memory := encoded b } := by
  have h1 := Nat.odd_iff.1 h
  have hset : (encoded b).getLsbD 31 = true := by
    have hpar := getParity_encoded b
    rw [getParity_eq, h1] at hpar
    by_contra hc
    rw [if_neg hc] at hpar
    cases hpar
  have hor : (encoded b ^^^ parityWordBit) ||| parityWordBit = encoded b := by
    refine BitVec.eq_of_getLsbD_eq fun k hk => ?_
    rw [BitVec.getLsbD_or, BitVec.getLsbD_xor, parityWordBit, ← BitVec.twoPow_eq,
      BitVec.getLsbD_twoPow]
    by_cases hk31 : 31 = k
    · subst hk31
      simp [hset]
    · simp [hk31]
  have hword : (wordParity (encoded b ^^^ parityWordBit) true).2 = encoded b := by
    rw [wordParity_snd, ones_flip_parity, if_pos ⟨rfl, by omega⟩, hor]
  rw [read_parity, hword, hammingData_encoded]

/-- **The word parity is not cleared** if the parity is even. -/
theorem read_parity_even (out : Byte) (h : ¬ Odd (ones (encoded b))) :
    readWHamming out (flipAt (encoded b) (some 31)) =
      some { rc := 1, value := b, memory := encoded b ^^^ parityWordBit } := by
  rw [Nat.odd_iff] at h
  have hword : (wordParity (encoded b ^^^ parityWordBit) true).2 = encoded b ^^^ parityWordBit := by
    rw [wordParity_snd, ones_flip_parity, if_neg fun hc => hc.2 (by omega)]
  rw [read_parity, hword, hammingData_flip_parity, hammingData_encoded]

/-! ### All rounds -/

theorem readsBack_iff : ∀ {flips : List (Option ℕ)}, (∀ r, some r ∈ flips → r < 15 ∨ r = 31) →
    (ReadsBack b (encoded b) (encoded b) flips ↔ (some 31 ∈ flips → Odd (ones (encoded b))))
  | [], _ => by simp [ReadsBack]
  | flip :: flips, h => by
    have hrest : ReadsBack b (encoded b) (encoded b) flips ↔
        (some 31 ∈ flips → Odd (ones (encoded b))) :=
      readsBack_iff fun r hr => h r (List.mem_cons_of_mem _ hr)
    have hread : ReadsBack b (encoded b) (encoded b) (flip :: flips) ↔
        (∀ out, readWHamming out (flipAt (encoded b) flip) =
          some { rc := 1, value := b, memory := encoded b }) ∧
        ReadsBack b (encoded b) (encoded b) flips := by
      constructor
      · rintro ⟨⟨rc, value, memory⟩, hr, hrc, hvalue, hmemory, hs⟩
        simp only at hrc hvalue hmemory hs
        rw [hrc, hvalue, hmemory] at hr
        rw [hmemory] at hs
        exact ⟨hr, hs⟩
      · exact fun ⟨hr, hs⟩ => ⟨_, hr, rfl, rfl, rfl, hs⟩
    rw [hread, hrest, List.mem_cons]
    cases flip with
    | none =>
      simp only [read_none, implies_true, true_and, reduceCtorEq, false_or]
    | some r =>
      rcases h r (List.mem_cons_self) with hr | rfl
      · have hne : (31 : ℕ) ≠ r := by omega
        simp only [read_low b _ hr, implies_true, true_and, Option.some.injEq, hne, false_or]
      · by_cases hodd : Odd (ones (encoded b))
        · simp only [read_parity_odd _ hodd, implies_true, true_and, hodd]
        · have hword : encoded b ^^^ parityWordBit ≠ encoded b :=
            xor_one_shift_ne (encoded b) (by decide)
          simp only [read_parity_even _ hodd, Option.some.injEq, Read.mk.injEq, hword, and_false,
            forall_const, false_and, true_or, hodd]

/-- **The byte survives exactly if no round flips the word parity or the byte needs it set.** -/
theorem survives_iff (b : Byte) {flips : List (Option ℕ)}
    (h : ∀ r, some r ∈ flips → r < 15 ∨ r = 31) :
    Survives b flips ↔ (some 31 ∈ flips → Odd (countOnes (b &&& 0xB7))) := by
  rw [← odd_ones_encoded, ← readsBack_iff h]
  constructor
  · rintro ⟨c, w₀, hw, hr⟩
    rw [writeWHamming_eq, Option.some.injEq, Prod.mk.injEq] at hw
    obtain ⟨rfl, rfl⟩ := hw
    exact hr
  · exact fun hr => ⟨0, encoded b, writeWHamming_eq b 0, hr⟩

/-- The byte `0x01` with a flip of a data bit, of no bit and of the word parity. -/
theorem survives_iff_one : Survives 0x01 [some 6, none, some 31] ↔
    (some 31 ∈ [some 6, none, some 31] → Odd (countOnes (0x01 &&& 0xB7))) :=
  survives_iff 0x01 (by simp)

/-- The fourth test: `0xFF` with its word parity flipped. -/
theorem not_survives : ¬ ∀ (b : Byte) (flips : List (Option ℕ)),
    (∀ r, some r ∈ flips → r < 15 ∨ r = 31) → Survives b flips := by
  intro h
  obtain ⟨c, w₀, hw, read, hr, -, -, hmem, -⟩ := h 0xFF [some 31] (by simp)
  have hword : writeWHamming 0xFF 0 = some (0, 0xF77) := by decide
  rw [hword, Option.some.injEq, Prod.mk.injEq] at hw
  obtain ⟨rfl, rfl⟩ := hw
  have hread : readWHamming 0 (flipAt 0xF77 (some 31)) =
      some { rc := 1, value := 0xFF, memory := 0x80000F77 } := by decide
  have h0 := (hr 0).symm.trans hread
  rw [Option.some.injEq] at h0
  rw [h0] at hmem
  exact absurd hmem (by decide)

end Ecen5623.Hamming.Scrubbing
