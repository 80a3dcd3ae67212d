import Ecen5623.Ecc.Ecclib
import Ecen5623.Library.XorSum
import Mathlib.Data.Finset.Range

/-! # What `read_byte` finds

The syndrome and the overall parity of a cell are linear in its two bytes. They vanish after
`write_byte`, and a flip of position `p` adds `p` to the syndrome and turns the parity. So after
flips of the positions `F`, each an odd number of times, the syndrome is the exclusive or of `F` and
the parity that of its size. -/

namespace Ecen5623.Ecc.Classify

open Ecen5623.Library Ecen5623.Ecc.Ecclib

variable {d e c c' : Byte} {ecc : EmulatedEcc} {a : Offset} {op : Op}

/-! ### The code is linear -/

theorem and_xor_left (x y z : Byte) : z &&& (x ^^^ y) = (z &&& x) ^^^ (z &&& y) := by
  ext i hi
  simp [Bool.and_xor_distrib_left]

theorem and_xor_right (x y z : Byte) : (x ^^^ y) &&& z = (x &&& z) ^^^ (y &&& z) := by
  ext i hi
  simp [Bool.and_xor_distrib_right]

theorem dataParity_xor (d e : Byte) : dataParity (d ^^^ e) = dataParity d ^^^ dataParity e := by
  simp only [dataParity, and_xor_right, BitVec.ushiftRight_xor_distrib]
  ac_rfl

theorem checkParity_xor (c c' : Byte) :
    checkParity (c ^^^ c') = checkParity c ^^^ checkParity c' := by
  simp only [checkParity, and_xor_right, BitVec.ushiftRight_xor_distrib]
  ac_rfl

theorem wordParity_xor (d e c c' : Byte) :
    wordParity (d ^^^ e) (c ^^^ c') = wordParity d c ^^^ wordParity e c' := by
  simp only [wordParity, dataParity_xor, checkParity_xor, and_xor_left,
    BitVec.shiftLeft_xor_distrib]
  ac_rfl

theorem p01_xor (d e : Byte) : p01 (d ^^^ e) = p01 d ^^^ p01 e := by
  simp only [p01, and_xor_left, and_xor_right, BitVec.ushiftRight_xor_distrib]
  ac_rfl

theorem p02_xor (d e : Byte) : p02 (d ^^^ e) = p02 d ^^^ p02 e := by
  simp only [p02, and_xor_left, and_xor_right, BitVec.ushiftRight_xor_distrib,
    BitVec.shiftLeft_xor_distrib]
  ac_rfl

theorem p03_xor (d e : Byte) : p03 (d ^^^ e) = p03 d ^^^ p03 e := by
  simp only [p03, and_xor_left, and_xor_right, BitVec.ushiftRight_xor_distrib,
    BitVec.shiftLeft_xor_distrib]
  ac_rfl

theorem p04_xor (d e : Byte) : p04 (d ^^^ e) = p04 d ^^^ p04 e := by
  simp only [p04, and_xor_left, and_xor_right, BitVec.ushiftRight_xor_distrib,
    BitVec.shiftLeft_xor_distrib]
  ac_rfl

theorem lt_eight_cases {i : ℕ} (hi : i < 8) :
    i = 0 ∨ i = 1 ∨ i = 2 ∨ i = 3 ∨ i = 4 ∨ i = 5 ∨ i = 6 ∨ i = 7 := by omega

theorem codewordOf_and_synbits (d : Byte) :
    codewordOf d &&& synbits = p01 d ^^^ p02 d ^^^ p03 d ^^^ p04 d := by
  ext i hi
  rcases lt_eight_cases hi with rfl | rfl | rfl | rfl | rfl | rfl | rfl | rfl <;>
    simp [codewordOf, p01, p02, p03, p04, wordParity]

theorem syndrome_xor (d e c c' : Byte) :
    syndrome (d ^^^ e) (c ^^^ c') = syndrome d c ^^^ syndrome e c' := by
  simp only [syndrome, codewordOf_and_synbits, p01_xor, p02_xor, p03_xor, p04_xor, and_xor_right]
  ac_rfl

/-- The overall parity of the encoded word: what `pW` differs from `pW2` by. -/
def overall (d c : Byte) : Byte := (c &&& pwBit) ^^^ wordParity d c

theorem overall_xor (d e c c' : Byte) :
    overall (d ^^^ e) (c ^^^ c') = overall d c ^^^ overall e c' := by
  simp only [overall, wordParity_xor, and_xor_right]
  ac_rfl

/-! ### A fresh cell -/

theorem syndrome_codewordOf (d : Byte) : syndrome d (codewordOf d) = 0 := BitVec.xor_self

theorem mask_and {m z : Byte} (h : m &&& z = 0) (y : Byte) : (m &&& y) &&& z = 0 := by
  rw [BitVec.and_assoc, BitVec.and_comm y, ← BitVec.and_assoc, h]
  exact BitVec.zero_and

theorem checkParity_congr (h : c &&& 0x0F = c' &&& 0x0F) : checkParity c = checkParity c' := by
  have hbit : ∀ z : Byte, 0x0F &&& z = z → c &&& z = c' &&& z := fun z hz => by
    rw [← hz, ← BitVec.and_assoc, ← BitVec.and_assoc, h]
  rw [checkParity, checkParity, hbit p01Bit (by decide), hbit p02Bit (by decide),
    hbit p03Bit (by decide), hbit p04Bit (by decide)]

/-- `pW` is computed before the parity and the mark are put in, from the check bits alone. -/
theorem codewordOf_and_pwBit (d : Byte) :
    codewordOf d &&& pwBit = wordParity d (codewordOf d) := by
  let checks : Byte := 0 ||| p01 d ||| p02 d ||| p03 d ||| p04 d
  have hcode : codewordOf d = checks ||| wordParity d checks ||| encodedBit := rfl
  have hparity : wordParity d (codewordOf d) = wordParity d checks := by
    have hlow : wordParity d checks &&& 0x0F = 0 := mask_and (by decide) _
    have hcongr : checkParity (codewordOf d) = checkParity checks := by
      refine checkParity_congr ?_
      rw [hcode, BitVec.and_or_distrib_right, BitVec.and_or_distrib_right, hlow]
      simp [encodedBit]
    rw [wordParity, wordParity, hcongr]
  have hchecks : checks &&& pwBit = 0 := by
    simp only [checks, BitVec.and_or_distrib_right, p01, p02, p03, p04]
    rw [mask_and (by decide), mask_and (by decide), mask_and (by decide), mask_and (by decide)]
    decide
  have hself : wordParity d checks &&& pwBit = wordParity d checks := by
    rw [wordParity, BitVec.and_comm, ← BitVec.and_assoc, BitVec.and_self]
  have hmark : encodedBit &&& pwBit = 0 := by decide
  rw [hparity, hcode, BitVec.and_or_distrib_right, BitVec.and_or_distrib_right, hchecks, hself,
    hmark]
  simp

theorem overall_codewordOf (d : Byte) : overall d (codewordOf d) = 0 := by
  rw [overall, codewordOf_and_pwBit]
  exact BitVec.xor_self

/-! ### A flip -/

/-- What a flip adds to the data byte. -/
def dataError (p : ℕ) : Byte :=
  match bitToFlip p with
  | some (.data k) => 1 <<< k
  | _ => 0

/-- What a flip adds to the code byte. -/
def codeError (p : ℕ) : Byte :=
  match bitToFlip p with
  | some (.parity k) => 1 <<< k
  | _ => 0

theorem flipBit_dataMemory (ecc : EmulatedEcc) (a : Offset) (p : ℕ) :
    (flipBit ecc a p).dataMemory a = ecc.dataMemory a ^^^ dataError p := by
  unfold flipBit dataError
  split <;> simp [*]

theorem flipBit_codeMemory (ecc : EmulatedEcc) (a : Offset) (p : ℕ) :
    (flipBit ecc a p).codeMemory a = ecc.codeMemory a ^^^ codeError p := by
  unfold flipBit codeError
  split <;> simp [*]

theorem syndrome_error : ∀ p < 13, (syndrome (dataError p) (codeError p)).toNat = p := by decide

theorem overall_error : ∀ p < 13, overall (dataError p) (codeError p) = pwBit := by decide

theorem bitToFlip_eq_none {p : ℕ} (hp : 13 ≤ p) : bitToFlip p = none := by
  unfold bitToFlip
  split <;> first | omega | rfl

/-! ### One cell of a run -/

/-- Two memories agree at a cell. -/
def SameCell (ecc ecc' : EmulatedEcc) (a : Offset) : Prop :=
  ecc.dataMemory a = ecc'.dataMemory a ∧ ecc.codeMemory a = ecc'.codeMemory a

theorem readByte_congr {ecc' : EmulatedEcc} (h : SameCell ecc ecc' a) :
    (readByte ecc a).1 = (readByte ecc' a).1 := by
  simp only [readByte, h.1, h.2]
  split_ifs <;> rfl

theorem apply_of_ne (h : op.offset ≠ a) : SameCell (op.apply ecc) ecc a := by
  have ha : a ≠ op.offset := h.symm
  cases op with
  | write o b =>
    simp only [Op.offset] at ha
    simp [SameCell, Op.apply, writeByte, Function.update_of_ne ha]
  | flip o p =>
    simp only [Op.offset] at ha
    simp only [SameCell, Op.apply, flipBit]
    split <;> simp [Function.update_of_ne ha]
  | read o =>
    simp only [Op.offset] at ha
    simp only [SameCell, Op.apply, readByte]
    split_ifs <;> simp [Function.update_of_ne ha]

theorem apply_congr {ecc' : EmulatedEcc} (h : SameCell ecc ecc' a) :
    SameCell (op.apply ecc) (op.apply ecc') a := by
  by_cases ha : op.offset = a
  · subst ha
    obtain ⟨hd, hc⟩ := h
    cases op with
    | write o b => simp [SameCell, Op.apply, writeByte, getCodeword, Op.offset]
    | flip o p =>
      simp only [Op.offset] at hd hc
      simp only [SameCell, Op.apply, Op.offset, flipBit_dataMemory, flipBit_codeMemory, hd, hc,
        and_self]
    | read o =>
      simp only [Op.offset] at hd hc
      simp only [SameCell, Op.apply, Op.offset, readByte, hd, hc]
      split_ifs <;> simp [hd, hc]
  · have h₁ : SameCell (op.apply ecc) ecc a := apply_of_ne ha
    have h₂ : SameCell (op.apply ecc') ecc' a := apply_of_ne ha
    exact ⟨h₁.1.trans (h.1.trans h₂.1.symm), h₁.2.trans (h.2.trans h₂.2.symm)⟩

/-- **A run leaves in a cell what its operations on that cell leave there.** -/
theorem run_filter (a : Offset) : ∀ (ops : List Op) {ecc ecc' : EmulatedEcc}, SameCell ecc ecc' a →
    SameCell (run ecc ops) (run ecc' (ops.filter (·.offset = a))) a
  | [], _, _, h => h
  | op :: ops, ecc, ecc', h => by
    by_cases ha : op.offset = a
    · rw [List.filter_cons_of_pos (by simpa using ha)]
      exact run_filter a ops (apply_congr h)
    · rw [List.filter_cons_of_neg (by simpa using ha)]
      have hne : SameCell (op.apply ecc) ecc a := apply_of_ne ha
      exact run_filter a ops ⟨hne.1.trans h.1, hne.2.trans h.2⟩

/-! ### The flips since the last write -/

/-- The positions flipped an odd number of times in a cell. -/
def flipped (a : Offset) (ops : List Op) : Finset ℕ :=
  (Finset.range 13).filter fun p => Odd (ops.count (.flip a p))

theorem flipped_append_flip {ops : List Op} {p : ℕ} (hp : p < 13) :
    flipped a (ops ++ [.flip a p]) = toggle (flipped a ops) p := by
  ext q
  simp only [flipped, mem_toggle, Finset.mem_filter, Finset.mem_range, List.count_append]
  by_cases hq : q = p
  · subst hq
    simp [hp, Nat.odd_add_one]
  · simp [hq, Ne.symm hq]

theorem flipped_append_of_ne {ops : List Op} (h : ∀ p < 13, op ≠ .flip a p) :
    flipped a (ops ++ [op]) = flipped a ops := by
  ext q
  simp only [flipped, Finset.mem_filter, Finset.mem_range, List.count_append]
  refine and_congr_right fun hq => ?_
  rw [List.count_singleton, if_neg (by simpa using h q hq), Nat.add_zero]

/-- Syndrome and overall parity of a cell say that `F` is what has been flipped in it. -/
structure Shows (ecc : EmulatedEcc) (a : Offset) (F : Finset ℕ) : Prop where
  syndrome : (syndrome (ecc.dataMemory a) (ecc.codeMemory a)).toNat = xorSum F id
  overall : overall (ecc.dataMemory a) (ecc.codeMemory a) = if Odd F.card then pwBit else 0

theorem shows_writeByte (ecc : EmulatedEcc) (a : Offset) (b : Byte) :
    Shows (writeByte ecc a b) a ∅ where
  syndrome := by simp [writeByte, getCodeword, syndrome_codewordOf]
  overall := by simp [writeByte, getCodeword, overall_codewordOf]

theorem Shows.congr {ecc' : EmulatedEcc} {F : Finset ℕ} (h : Shows ecc a F)
    (hc : SameCell ecc' ecc a) : Shows ecc' a F where
  syndrome := by rw [hc.1, hc.2, h.syndrome]
  overall := by rw [hc.1, hc.2, h.overall]

theorem Shows.flipBit {F : Finset ℕ} {p : ℕ} (h : Shows ecc a F) (hp : p < 13) :
    Shows (flipBit ecc a p) a (toggle F p) where
  syndrome := by
    rw [flipBit_dataMemory, flipBit_codeMemory, syndrome_xor, BitVec.toNat_xor, h.syndrome,
      syndrome_error p hp, xorSum_toggle, id]
  overall := by
    rw [flipBit_dataMemory, flipBit_codeMemory, overall_xor, h.overall, overall_error p hp]
    by_cases ho : Odd F.card
    · rw [if_pos ho, if_neg (by rw [odd_card_toggle]; simpa using ho)]
      rfl
    · rw [if_neg ho, if_pos (by rw [odd_card_toggle]; exact ho)]
      rfl

/-- **After a write the cell shows what is flipped.** -/
theorem shows_run (hecc : Shows ecc a ∅) (ops : List Op)
    (hops : ∀ op ∈ ops, op.offset = a → ∃ p, op = .flip a p) :
    Shows (run ecc ops) a (flipped a ops) := by
  induction ops using List.reverseRecOn with
  | nil => simpa [flipped, run] using hecc
  | append_singleton ops op ih =>
    have ih := ih fun op hop => hops op (List.mem_append_left _ hop)
    have hrun : run ecc (ops ++ [op]) = op.apply (run ecc ops) := by simp [run]
    rw [hrun]
    by_cases ha : op.offset = a
    · obtain ⟨p, rfl⟩ := hops op (by simp) ha
      by_cases hp : p < 13
      · rw [flipped_append_flip hp]
        exact ih.flipBit hp
      · rw [flipped_append_of_ne fun q hq he => hp (by cases he; exact hq)]
        refine ih.congr ?_
        simp [SameCell, Op.apply, flipBit, bitToFlip_eq_none (not_lt.1 hp)]
    · rw [flipped_append_of_ne fun q _ he => ha (by rw [he]; rfl)]
      exact ih.congr (apply_of_ne ha)

/-! ### The classification -/

theorem xor_eq_zero {x y : Byte} : x ^^^ y = 0 ↔ x = y := BitVec.xor_eq_zero_iff

theorem readByte_fst (ecc : EmulatedEcc) (a : Offset) : (readByte ecc a).1 =
    if syndrome (ecc.dataMemory a) (ecc.codeMemory a) = 0 then
      if overall (ecc.dataMemory a) (ecc.codeMemory a) = 0 then noError else pwError
    else if overall (ecc.dataMemory a) (ecc.codeMemory a) = 0 then doubleBitError
      else (syndrome (ecc.dataMemory a) (ecc.codeMemory a)).toNat := by
  simp only [readByte, overall, xor_eq_zero]
  split_ifs <;> first | rfl | tauto

theorem Shows.readByte_fst {F : Finset ℕ} (h : Shows ecc a F) : (readByte ecc a).1 =
    if xorSum F id = 0 then if Odd F.card then pwError else noError
    else if Odd F.card then (xorSum F id : ℤ) else doubleBitError := by
  have hs : Ecclib.syndrome (ecc.dataMemory a) (ecc.codeMemory a) = 0 ↔ xorSum F id = 0 := by
    rw [← h.syndrome, BitVec.toNat_eq]
    rfl
  rw [Classify.readByte_fst, h.overall, h.syndrome]
  simp only [hs]
  split_ifs <;> first | rfl | simp_all

/-- The outcome of a read by the set of positions flipped. -/
structure Outcome (rc : ℤ) (F : Finset ℕ) : Prop where
  none : F = ∅ → rc = noError
  word : F = {0} → rc = pwError
  single : ∀ p, 1 ≤ p → F = {p} → rc = p
  double : F.card = 2 → rc = doubleBitError

/-- **`read_byte` classifies what is flipped, whatever happens to other cells.** -/
theorem read_byte_classifies (ecc : EmulatedEcc) (pre post : List Op) (a : Offset) (b : Byte)
    (hpost : ∀ op ∈ post, op.offset = a → ∃ p, op = .flip a p) :
    let ops := pre ++ .write a b :: post
    Outcome (readByte (run (enableEccMemory ecc) ops) a).1 (flipped a post) ∧
    (readByte (run (enableEccMemory ecc) (ops.filter (·.offset = a))) a).1 =
      (readByte (run (enableEccMemory ecc) ops) a).1 := by
  intro ops
  have hrun : run (enableEccMemory ecc) ops =
      run (writeByte (run (enableEccMemory ecc) pre) a b) post := by
    simp [ops, run, Op.apply]
  have hs := shows_run (shows_writeByte (run (enableEccMemory ecc) pre) a b) post hpost
  refine ⟨?_, (readByte_congr (run_filter a ops ⟨rfl, rfl⟩)).symm⟩
  rw [hrun, hs.readByte_fst]
  refine ⟨fun hF => ?_, fun hF => ?_, fun p hp hF => ?_, fun hF => ?_⟩
  · simp [hF]
  · simp [hF]
  · have hp0 : p ≠ 0 := by omega
    simp [hF, hp0]
  · have hx : xorSum (flipped a post) id ≠ 0 :=
      xorSum_ne_zero_of_card_two hF Function.injective_id.injOn
    rw [if_neg hx, if_neg (by rw [hF]; decide)]

/-- One flip at position 5, and one in the next cell. -/
theorem read_byte_classifies_single :
    (readByte (run (enableEccMemory ⟨fun _ => 0, fun _ => 0⟩)
      [.write 0 0xAB, .flip 1 2, .flip 0 5]) 0).1 = 5 :=
  (read_byte_classifies ⟨fun _ => 0, fun _ => 0⟩ [] [.flip 1 2, .flip 0 5] 0 0xAB
    (by simp [Op.offset])).1.single 5 (by decide) (by decide)

end Ecen5623.Ecc.Classify
