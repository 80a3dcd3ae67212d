import Mathlib.Algebra.Ring.Nat

/-! # The Hamming code of order `m`

The parity loop of `main` and `get_check_bits` of `hamming.c`, for any `m`. The word `memory` is a
natural number, whose bit `b` is what `memory & (1L << b)` tests. A failed `assert` gives `none`. -/

namespace Ecen5623.Hamming.Word

/-- `word_length`. -/
def wordLength (m : ℕ) : ℕ := 2 ^ m - 1

/-- `(memory & (1L << b)) ? 1 : 0`. -/
def bitAt (memory b : ℕ) : ℕ := if memory &&& (1 <<< b) ≠ 0 then 1 else 0

/-- The variables `xor` and `parity_count` of the loop over the bits. -/
structure Parity where
  xor : ℕ
  parityCount : ℕ
  deriving DecidableEq, Repr

/-- One round of the loop over the bits: bit `b` counts if it is used in the parity `p`. -/
def parityStep (memory p : ℕ) (acc : Parity) (b : ℕ) : Parity :=
  if (b + 1) &&& (1 <<< p) ≠ 0 then
    { xor := acc.xor ^^^ bitAt memory b, parityCount := acc.parityCount + bitAt memory b }
  else acc

/-- The loop over the bits. -/
def parity (m memory p : ℕ) : Parity :=
  (List.range (wordLength m)).foldl (parityStep memory p) { xor := 0, parityCount := 0 }

/-- The loop over the bits and the assertion after it. -/
def checkedXor (m memory p : ℕ) : Option ℕ :=
  let c := parity m memory p
  if c.parityCount % 2 = c.xor then some c.xor else none

/-- One round of the parity loop: the parity bit `p_pos` is set, zero indexed. -/
def generateStep (m memory p : ℕ) : Option ℕ := do
  let xor ← checkedXor m memory p
  if xor ≠ 0 then some (memory ||| (1 <<< (2 ^ p - 1))) else some memory

/-- The parity loop of `main`. -/
def generate (m memory : ℕ) : Option ℕ := (List.range m).foldlM (generateStep m) memory

/-- One round of `get_check_bits`. -/
def checkStep (m memory totalC p : ℕ) : Option ℕ := do
  let xor ← checkedXor m memory p
  if xor ≠ 0 then some (totalC + 2 ^ p) else some totalC

/-- `total_c` of `get_check_bits` before its last assertion. -/
def totalC (m memory : ℕ) : Option ℕ := (List.range m).foldlM (checkStep m memory) 0

/-- `get_check_bits` with its last assertion. -/
def getCheckBits (m memory : ℕ) : Option ℕ := do
  let total ← totalC m memory
  if total = 0 then some total else none

end Ecen5623.Hamming.Word
