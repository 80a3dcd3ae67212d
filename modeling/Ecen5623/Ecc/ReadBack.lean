import Ecen5623.Ecc.Classify

/-! # What a read gives back

`read_byte` stores nothing in `*byteRead`, so after writes alone it returns `NO_ERROR` but gives the
byte back only if it was in `*byteRead` already (`delivers_iff`). The repair of the word parity can
set `PW_BIT` and not clear it, so a second read is clean exactly if the bit was not set
(`repaired_iff`). -/

namespace Ecen5623.Ecc.ReadBack

open Ecen5623.Ecc.Ecclib Ecen5623.Ecc.Classify

variable {d c : Byte} {ecc : EmulatedEcc} {a : Offset} {b : Byte}

/-! ### Reading after writes -/

/-- The last byte written to a cell, if any. -/
def lastWritten (a : Offset) (writes : List (Offset × Byte)) : Option Byte :=
  ((writes.filter (·.1 = a)).getLast?).map (·.2)

/-- The memory after calls of `write_byte`. -/
def afterWrites (ecc : EmulatedEcc) (writes : List (Offset × Byte)) : EmulatedEcc :=
  run ecc (writes.map fun w => .write w.1 w.2)

/-- The read is clean and has stored the byte. -/
def Delivers (r : ℤ × EmulatedEcc × Byte) (b : Byte) : Prop := r.1 = noError ∧ r.2.2 = b

theorem afterWrites_concat (ecc : EmulatedEcc) (writes : List (Offset × Byte))
    (w : Offset × Byte) :
    afterWrites ecc (writes ++ [w]) = writeByte (afterWrites ecc writes) w.1 w.2 := by
  simp [afterWrites, run, Op.apply]

theorem lastWritten_concat (a : Offset) (writes : List (Offset × Byte)) (w : Offset × Byte) :
    lastWritten a (writes ++ [w]) = if w.1 = a then some w.2 else lastWritten a writes := by
  unfold lastWritten
  rw [List.filter_append]
  split_ifs with h <;> simp [h]

/-- **A cell that has been written holds its last byte and shows no flip.** -/
theorem shows_afterWrites (ecc : EmulatedEcc) (writes : List (Offset × Byte))
    (h : lastWritten a writes = some b) :
    Shows (afterWrites ecc writes) a ∅ ∧ (afterWrites ecc writes).dataMemory a = b := by
  induction writes using List.reverseRecOn with
  | nil => simp [lastWritten] at h
  | append_singleton writes w ih =>
    rw [lastWritten_concat] at h
    rw [afterWrites_concat]
    by_cases hw : w.1 = a
    · rw [if_pos hw, Option.some.injEq] at h
      subst hw h
      exact ⟨shows_writeByte _ _ _, by simp [writeByte]⟩
    · rw [if_neg hw] at h
      obtain ⟨hs, hd⟩ := ih h
      have hcell : SameCell ((Op.write w.1 w.2).apply (afterWrites ecc writes))
          (afterWrites ecc writes) a := apply_of_ne hw
      exact ⟨hs.congr hcell, hcell.1.trans hd⟩

theorem readByte_afterWrites (ecc : EmulatedEcc) {writes : List (Offset × Byte)}
    (h : lastWritten a writes = some b) : (readByte (afterWrites ecc writes) a).1 = noError := by
  rw [(shows_afterWrites ecc writes h).1.readByte_fst]
  simp

/-- **A read after writes gives the last byte back exactly if it was there before.** -/
theorem delivers_iff (ecc : EmulatedEcc) {writes : List (Offset × Byte)}
    (h : lastWritten a writes = some b) (out : Byte) :
    Delivers (readByteTo (afterWrites (enableEccMemory ecc) writes) a out) b ↔ out = b := by
  simp only [Delivers, readByteTo, readByte_afterWrites _ h, true_and]

/-- Two writes to a cell and one to its neighbour; `out` holds the second byte. -/
theorem delivers_iff_twice :
    Delivers (readByteTo (afterWrites (enableEccMemory ⟨fun _ => 0, fun _ => 0⟩)
      [(0, 0xFF), (0, 0x5A), (1, 0xCC)]) 0 0x5A) 0x5A ↔ (0x5A : Byte) = 0x5A :=
  delivers_iff ⟨fun _ => 0, fun _ => 0⟩ (by decide) 0x5A

/-- The byte of the first test is not delivered to a `byteToRead` that holds `0`. -/
theorem not_delivers : ¬ ∀ (ecc : EmulatedEcc) (writes : List (Offset × Byte)) (a : Offset)
    (b out : Byte), lastWritten a writes = some b →
      Delivers (readByteTo (afterWrites (enableEccMemory ecc) writes) a out) b := by
  intro h
  have hd := (h ⟨fun _ => 0, fun _ => 0⟩ [(0, 0xFF)] 0 0xFF 0 (by decide)).2
  exact absurd hd (by decide)

/-! ### The word parity -/

/-- The read has changed nothing but `PW_BIT` of the cell, and the next one is clean. -/
structure Repaired (ecc ecc' : EmulatedEcc) (a : Offset) : Prop where
  data : ecc'.dataMemory = ecc.dataMemory
  code : ∀ o ≠ a, ecc'.codeMemory o = ecc.codeMemory o
  cell : ecc'.codeMemory a &&& ~~~pwBit = ecc.codeMemory a &&& ~~~pwBit
  clean : (readByte ecc' a).1 = noError

theorem and_pwBit_cases (x : Byte) : x &&& pwBit = 0 ∨ x &&& pwBit = pwBit := by
  have hpw : pwBit = BitVec.twoPow 8 4 := by decide
  rw [hpw, BitVec.and_twoPow]
  split_ifs
  · exact .inr rfl
  · exact .inl rfl

theorem wordParity_cases (d c : Byte) : wordParity d c = 0 ∨ wordParity d c = pwBit := by
  rw [wordParity, BitVec.and_comm]
  exact and_pwBit_cases _

theorem or_pwBit_and (c : Byte) {z : Byte} (hz : pwBit &&& z = 0) :
    (c ||| pwBit) &&& z = c &&& z := by
  rw [BitVec.and_or_distrib_right, hz]
  exact BitVec.or_zero

theorem or_pwBit_and_self (x : Byte) : (x ||| pwBit) &&& pwBit = pwBit := by
  ext i hi
  simp only [BitVec.getElem_and, BitVec.getElem_or]
  cases x[i] <;> simp

theorem syndrome_or_pwBit (d c : Byte) : syndrome d (c ||| pwBit) = syndrome d c := by
  rw [syndrome, or_pwBit_and c (by decide), syndrome]

theorem wordParity_or_pwBit (d c : Byte) : wordParity d (c ||| pwBit) = wordParity d c := by
  simp only [wordParity, checkParity]
  rw [or_pwBit_and c (by decide), or_pwBit_and c (by decide), or_pwBit_and c (by decide),
    or_pwBit_and c (by decide)]

/-- When `PW_ERROR` is returned: the syndrome is `0` and the parities differ. -/
theorem of_pwError (h : (readByte ecc a).1 = pwError) :
    syndrome (ecc.dataMemory a) (ecc.codeMemory a) = 0 ∧
      ecc.codeMemory a &&& pwBit ≠ wordParity (ecc.dataMemory a) (ecc.codeMemory a) := by
  rw [readByte_fst] at h
  split_ifs at h with hs ho
  · cases h
  · exact ⟨hs, fun he => ho (xor_eq_zero.2 he)⟩
  · cases h
  · simp only [pwError] at h
    omega

theorem snd_of_pwError (h : (readByte ecc a).1 = pwError) : (readByte ecc a).2 =
    { ecc with codeMemory := Function.update ecc.codeMemory a (ecc.codeMemory a |||
        (wordParity (ecc.dataMemory a) (ecc.codeMemory a) &&& pwBit)) } := by
  obtain ⟨hs, hp⟩ := of_pwError h
  simp only [readByte]
  rw [if_neg fun hc => hp hc.2, if_pos ⟨hs, hp⟩]

/-- **The word parity is repaired exactly if its bit was not set.** -/
theorem repaired_iff (h : (readByte ecc a).1 = pwError) :
    Repaired ecc (readByte ecc a).2 a ↔ ecc.codeMemory a &&& pwBit = 0 := by
  obtain ⟨hs, hp⟩ := of_pwError h
  have hsnd := snd_of_pwError h
  rcases and_pwBit_cases (ecc.codeMemory a) with h0 | h1
  · -- the parity is set, which `PW_BIT` was not
    have hpw : wordParity (ecc.dataMemory a) (ecc.codeMemory a) = pwBit :=
      (wordParity_cases _ _).resolve_left fun he => hp (h0.trans he.symm)
    rw [hpw, BitVec.and_self] at hsnd
    rw [hsnd]
    refine iff_of_true ⟨rfl, fun o ho => Function.update_of_ne ho _ _, ?_, ?_⟩ h0
    · simp only [Function.update_self]
      exact or_pwBit_and _ (by decide)
    · rw [readByte_fst]
      simp only [Function.update_self, syndrome_or_pwBit, hs, overall, wordParity_or_pwBit, hpw,
        or_pwBit_and_self, BitVec.xor_self, if_true]
      rfl
  · -- the parity is clear, and `|=` leaves `PW_BIT` set
    have hpw : wordParity (ecc.dataMemory a) (ecc.codeMemory a) = 0 :=
      (wordParity_cases _ _).resolve_right fun he => hp (h1.trans he.symm)
    have hor : ecc.codeMemory a ||| (0 &&& pwBit) = ecc.codeMemory a := BitVec.or_zero
    rw [hpw, hor, Function.update_eq_self] at hsnd
    rw [hsnd, h1]
    refine iff_of_false (fun hr => ?_) (by decide)
    have hclean := hr.clean
    rw [h] at hclean
    exact absurd hclean (by decide)

/-- The memory after one write to address `0` and a flip of its parity word bit. -/
def flippedParity (b : Byte) : EmulatedEcc :=
  run (enableEccMemory ⟨fun _ => 0, fun _ => 0⟩) [.write 0 b, .flip 0 0]

/-- The word parity of `0x01` is set, and the flip clears it. -/
theorem repaired_iff_one :
    Repaired (flippedParity 0x01) (readByte (flippedParity 0x01) 0).2 0 ↔
      (flippedParity 0x01).codeMemory 0 &&& pwBit = 0 :=
  repaired_iff (by decide)

/-- The word parity of `0x5A`, the byte of the second test, is clear, and the flip sets it. -/
theorem not_repaired : ¬ ∀ (ecc : EmulatedEcc) (ops : List Op) (a : Offset),
    (∀ op ∈ ops, ∀ o, op ≠ .read o) →
    (readByte (run (enableEccMemory ecc) ops) a).1 = pwError →
    Repaired (run (enableEccMemory ecc) ops)
      (readByte (run (enableEccMemory ecc) ops) a).2 a := by
  intro h
  have hr := h ⟨fun _ => 0, fun _ => 0⟩ [.write 0 0x5A, .flip 0 0] 0 (by simp) (by decide)
  exact absurd hr.clean (by decide)

end Ecen5623.Ecc.ReadBack
