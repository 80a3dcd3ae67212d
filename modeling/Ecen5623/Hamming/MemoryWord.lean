import Ecen5623.Hamming.Syndrome
import Mathlib.Data.Int.Notation
import Mathlib.Data.BitVec

/-! # A Hamming memory word

`write_w_hamming` and `read_w_hamming` of `hamming2.c`: a byte in a 32-bit word, with the check bits
of the code of order 4 in the low 15 bits and the parity of these in bit 31. The loop over the bits
in `apply_parity` and the assertion after it are those of `hamming.c` (`checkedXor`). -/

namespace Ecen5623.Hamming.MemoryWord

open Ecen5623.Hamming.Word

abbrev Word := BitVec 32

abbrev Byte := BitVec 8

/-- The order of the code. -/
def M : ℕ := 4

/-- `word_bits`. -/
def wordBits : ℕ := wordLength M

/-- `PARITY_WORD_BIT`. -/
def parityWordBit : Word := 1#32 <<< 31

/-! ### The data bits -/

/-- The variables of `hamming_data`. -/
structure DataLoop where
  wordPos : ℕ
  valuePos : ℕ
  memory : Word
  returnValue : Byte

/-- One round of the inner loop: bit `value_pos` of the byte is bit `word_pos` of the word. A bit of
the byte that is `0` writes nothing. -/
def dataStep (value : Byte) (write : Bool) (s : DataLoop) : DataLoop where
  wordPos := s.wordPos + 1
  valuePos := s.valuePos + 1
  memory :=
    if write ∧ value.getLsbD s.valuePos then s.memory ||| (1#32 <<< s.wordPos) else s.memory
  returnValue :=
    if ¬ write ∧ s.memory.getLsbD s.wordPos then s.returnValue ||| (1#8 <<< s.valuePos)
    else s.returnValue

/-- One round of the outer loop: the data bits up to the next check bit, which is skipped. -/
def dataRound (value : Byte) (write : Bool) (s : DataLoop) (p : ℕ) : DataLoop :=
  let s := (List.range (2 ^ p - 1)).foldl (fun s _ => dataStep value write s) s
  { s with wordPos := s.wordPos + 1 }

/-- The word after `hamming_data`, and what it returns. -/
def hammingData (value : Byte) (memory : Word) (write : Bool) : Word × Byte :=
  let s := (List.range M).foldl (dataRound value write)
    { wordPos := 1, valuePos := 0, memory := memory, returnValue := 0 }
  (s.memory, s.returnValue)

/-! ### The parities -/

/-- One round of the loop of `word_parity`. -/
def wordParityStep (memory : Word) (acc : Parity) (b : ℕ) : Parity where
  xor := acc.xor ^^^ bitAt memory.toNat b
  parityCount := acc.parityCount + bitAt memory.toNat b

/-- What `word_parity` returns, and the word after it. -/
def wordParity (memory : Word) (write : Bool) : ℕ × Word :=
  let acc := (List.range wordBits).foldl (wordParityStep memory) { xor := 0, parityCount := 0 }
  (acc.xor, if write ∧ acc.xor ≠ 0 then memory ||| parityWordBit else memory)

def getParity (memory : Word) : ℕ := if memory &&& parityWordBit ≠ 0 then 1 else 0

/-- One round of `apply_parity`: the word and `total_c`. A parity of `0` writes nothing. -/
def parityRound (write : Bool) (s : Word × ℕ) (p : ℕ) : Option (Word × ℕ) := do
  let xor ← checkedXor M s.1.toNat p
  if write then some (if xor ≠ 0 then s.1 ||| (1#32 <<< (2 ^ p - 1)) else s.1, s.2)
  else some (s.1, if xor ≠ 0 then s.2 + 2 ^ p else s.2)

/-- What `apply_parity` returns, and the word after it. -/
def applyParity (memory : Word) (write : Bool) : Option (ℕ × Word) := do
  let (memory, totalC) ← (List.range M).foldlM (parityRound write) (memory, 0)
  some (totalC, if write then (wordParity memory true).2 else memory)

/-! ### Writing and reading -/

/-- What `write_w_hamming` returns, and the word after it. -/
def writeWHamming (value : Byte) (memory : Word) : Option (ℕ × Word) :=
  applyParity (hammingData value memory true).1 true

/-- What `read_w_hamming` returns, and `*value` and the word after it. -/
structure Read where
  rc : ℤ
  value : Byte
  memory : Word
  deriving DecidableEq, Repr

def readWHamming (value : Byte) (memory : Word) : Option Read := do
  let (c, memory) ← applyParity memory false
  if c = 0 then
    let memory :=
      if (wordParity memory false).1 ≠ getParity memory then (wordParity memory true).2 else memory
    some { rc := 1, value := (hammingData 0 memory false).2, memory := memory }
  else if (wordParity memory false).1 = getParity memory then
    some { rc := -1, value := value, memory := memory }
  else
    let memory := memory ^^^ (1#32 <<< (c - 1))
    some { rc := 1, value := (hammingData 0 memory false).2, memory := memory }

end Ecen5623.Hamming.MemoryWord
