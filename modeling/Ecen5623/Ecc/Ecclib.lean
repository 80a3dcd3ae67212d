import Mathlib.Data.Int.Notation
import Mathlib.Data.Nat.Notation
import Mathlib.Logic.Function.Basic

/-! # The emulated ECC memory

`ecclib.c` and `flip_bit` of its test. The encoded word of a cell is spread over two bytes, the data
byte and the code byte, in the order `pW p1 p2 d1 p3 d2 d3 d4 p4 d5 d6 d7 d8`. The bytes are
computed with in 8 bits: what the `int` shifts of the source move beyond them is masked away. An
address is its offset into `data_memory`. -/

namespace Ecen5623.Ecc.Ecclib

/-- `MEM_SIZE`. -/
abbrev memSize : ℕ := 1024

abbrev Byte := BitVec 8

/-- The offset of an address. -/
abbrev Offset := Fin memSize

/-! ### The constants of the header -/

def noError : ℤ := 0
def pwError : ℤ := -1
def doubleBitError : ℤ := -3
def unknownError : ℤ := -4

abbrev p01Bit : Byte := 0x01
abbrev p02Bit : Byte := 0x02
abbrev p03Bit : Byte := 0x04
abbrev p04Bit : Byte := 0x08
abbrev pwBit : Byte := 0x10
abbrev encodedBit : Byte := 0x20

abbrev dataBit1 : Byte := 0x01
abbrev dataBit2 : Byte := 0x02
abbrev dataBit3 : Byte := 0x04
abbrev dataBit4 : Byte := 0x08
abbrev dataBit5 : Byte := 0x10
abbrev dataBit6 : Byte := 0x20
abbrev dataBit7 : Byte := 0x40
abbrev dataBit8 : Byte := 0x80

abbrev synbits : Byte := 0x0F

/-- `ecc_t`. -/
structure EmulatedEcc where
  dataMemory : Offset → Byte
  codeMemory : Offset → Byte

/-! ### The code word -/

/-- The parity of all data bits, as the expressions for `pW` begin. -/
def dataParity (d : Byte) : Byte :=
  (d &&& dataBit1) ^^^ ((d &&& dataBit2) >>> 1) ^^^ ((d &&& dataBit3) >>> 2) ^^^
  ((d &&& dataBit4) >>> 3) ^^^ ((d &&& dataBit5) >>> 4) ^^^ ((d &&& dataBit6) >>> 5) ^^^
  ((d &&& dataBit7) >>> 6) ^^^ ((d &&& dataBit8) >>> 7)

/-- The parity of the check bits of a code byte, as the expressions for `pW` end. -/
def checkParity (c : Byte) : Byte :=
  (c &&& p01Bit) ^^^ ((c &&& p02Bit) >>> 1) ^^^ ((c &&& p03Bit) >>> 2) ^^^ ((c &&& p04Bit) >>> 3)

/-- The word parity of a data byte and the check bits of a code byte. -/
def wordParity (d c : Byte) : Byte := pwBit &&& ((dataParity d ^^^ checkParity c) <<< 4)

def p01 (d : Byte) : Byte :=
  p01Bit &&& ((d &&& dataBit1) ^^^ ((d &&& dataBit2) >>> 1) ^^^ ((d &&& dataBit4) >>> 3) ^^^
    ((d &&& dataBit5) >>> 4) ^^^ ((d &&& dataBit7) >>> 6))

def p02 (d : Byte) : Byte :=
  p02Bit &&& (((d &&& dataBit1) ^^^ ((d &&& dataBit3) >>> 2) ^^^ ((d &&& dataBit4) >>> 3) ^^^
    ((d &&& dataBit6) >>> 5) ^^^ ((d &&& dataBit7) >>> 6)) <<< 1)

def p03 (d : Byte) : Byte :=
  p03Bit &&& ((((d &&& dataBit2) >>> 1) ^^^ ((d &&& dataBit3) >>> 2) ^^^
    ((d &&& dataBit4) >>> 3) ^^^ ((d &&& dataBit8) >>> 7)) <<< 2)

def p04 (d : Byte) : Byte :=
  p04Bit &&& ((((d &&& dataBit5) >>> 4) ^^^ ((d &&& dataBit6) >>> 5) ^^^
    ((d &&& dataBit7) >>> 6) ^^^ ((d &&& dataBit8) >>> 7)) <<< 3)

/-- The code byte of a data byte. -/
def codewordOf (d : Byte) : Byte :=
  let codeword := 0 ||| p01 d
  let codeword := codeword ||| p02 d
  let codeword := codeword ||| p03 d
  let codeword := codeword ||| p04 d
  let codeword := codeword ||| wordParity d codeword
  codeword ||| encodedBit

def getCodeword (ecc : EmulatedEcc) (offset : Offset) : Byte := codewordOf (ecc.dataMemory offset)

/-! ### The operations -/

/-- The code memory is cleared; the data memory is as it was. -/
def enableEccMemory (ecc : EmulatedEcc) : EmulatedEcc := { ecc with codeMemory := fun _ => 0 }

def writeByte (ecc : EmulatedEcc) (offset : Offset) (byteToWrite : Byte) : EmulatedEcc :=
  let ecc := { ecc with dataMemory := Function.update ecc.dataMemory offset byteToWrite }
  { ecc with codeMemory := Function.update ecc.codeMemory offset (getCodeword ecc offset) }

/-- `SYNDROME`. -/
def syndrome (d c : Byte) : Byte := (codewordOf d &&& synbits) ^^^ (c &&& synbits)

/-- What `read_byte` returns, and the memory after it. It stores nothing in `byteRead`. -/
def readByte (ecc : EmulatedEcc) (offset : Offset) : ℤ × EmulatedEcc :=
  let d := ecc.dataMemory offset
  let c := ecc.codeMemory offset
  let pw := c &&& pwBit
  let pw2 := wordParity d c
  if syndrome d c = 0 ∧ pw = pw2 then (noError, ecc)
  else if syndrome d c = 0 ∧ pw ≠ pw2 then
    (pwError,
      { ecc with codeMemory := Function.update ecc.codeMemory offset (c ||| (pw2 &&& pwBit)) })
  else if syndrome d c ≠ 0 ∧ pw = pw2 then (doubleBitError, ecc)
  else if syndrome d c ≠ 0 ∧ pw ≠ pw2 then ((syndrome d c).toNat, ecc)
  else (unknownError, ecc)

/-- `read_byte` with its third parameter: what it returns, the memory after it, and `*byteRead`. -/
def readByteTo (ecc : EmulatedEcc) (offset : Offset) (byteRead : Byte) : ℤ × EmulatedEcc × Byte :=
  let (rc, ecc) := readByte ecc offset
  (rc, ecc, byteRead)

/-- The bit of the data byte or of the code byte at a position of the encoded word. -/
inductive Flip where
  | data (bit : ℕ)
  | parity (bit : ℕ)
  deriving DecidableEq, Repr

/-- The `switch` of `flip_bit`; other positions are out of range. -/
def bitToFlip : ℕ → Option Flip
  | 0 => some (.parity 4)
  | 1 => some (.parity 0)
  | 2 => some (.parity 1)
  | 4 => some (.parity 2)
  | 8 => some (.parity 3)
  | 3 => some (.data 0)
  | 5 => some (.data 1)
  | 6 => some (.data 2)
  | 7 => some (.data 3)
  | 9 => some (.data 4)
  | 10 => some (.data 5)
  | 11 => some (.data 6)
  | 12 => some (.data 7)
  | _ => none

def flipBit (ecc : EmulatedEcc) (offset : Offset) (bit : ℕ) : EmulatedEcc :=
  match bitToFlip bit with
  | none => ecc
  | some (.data k) =>
    { ecc with dataMemory :=
        Function.update ecc.dataMemory offset (ecc.dataMemory offset ^^^ (1 <<< k)) }
  | some (.parity k) =>
    { ecc with codeMemory :=
        Function.update ecc.codeMemory offset (ecc.codeMemory offset ^^^ (1 <<< k)) }

/-! ### Runs -/

inductive Op where
  | write (offset : Offset) (byteToWrite : Byte)
  | flip (offset : Offset) (bit : ℕ)
  | read (offset : Offset)
  deriving DecidableEq, Repr

/-- The cell an operation is on. -/
def Op.offset : Op → Offset
  | .write o _ => o
  | .flip o _ => o
  | .read o => o

def Op.apply (ecc : EmulatedEcc) : Op → EmulatedEcc
  | .write o b => writeByte ecc o b
  | .flip o p => flipBit ecc o p
  | .read o => (readByte ecc o).2

/-- The memory after the operations. -/
def run (ecc : EmulatedEcc) (ops : List Op) : EmulatedEcc := ops.foldl Op.apply ecc

end Ecen5623.Ecc.Ecclib
