import Mathlib.Algebra.Group.Nat.Defs
import Mathlib.Data.List.DropRight
import Mathlib.Data.Int.Notation
import Mathlib.Data.Nat.Notation
import Mathlib.Tactic.SplitIfs

/-! # Numbers in lines of text

Text is a list of characters. Numbers are printed as C prints them with a precision or zero-padded
to a width, and read as Python reads ASCII text: `strip`, `fields` for `split()`, `readInt` for
`int()`. What is printed reads as the same number, however many digits it has (`readInt_signed`),
and the fields of a line are the words between its blanks (`fields_append`), whatever blanks there
are at its ends (`fields_strip`). What is written line by line is read line by line
(`readLines_flatMap`). -/

namespace Ecen5623.Library

/-! ### Printing -/

/-- The digits of a number. -/
def decimal (n : ℕ) : List Char := Nat.toDigits 10 n

/-- A number with zeros before it, up to a width. -/
def zeroPadded (width n : ℕ) : List Char :=
  List.replicate (width - (decimal n).length) '0' ++ decimal n

/-- A signed number with at least so many digits. -/
def signed (precision : ℕ) (n : ℤ) : List Char :=
  if n < 0 then '-' :: zeroPadded precision n.natAbs else zeroPadded precision n.natAbs

/-- A text with blanks behind it, up to a width. -/
def leftJustified (width : ℕ) (l : List Char) : List Char :=
  l ++ List.replicate (width - l.length) ' '

/-! ### Reading -/

/-- The blanks. -/
def isSpace (c : Char) : Bool :=
  c = ' ' || (9 ≤ c.toNat && c.toNat ≤ 13) || (28 ≤ c.toNat && c.toNat ≤ 31)

/-- A word has no blanks. -/
structure Word (w : List Char) : Prop where
  ne_nil : w ≠ []
  noBlank : ∀ c ∈ w, isSpace c = false

instance (w : List Char) : Decidable (Word w) :=
  decidable_of_iff ((!w.isEmpty && w.all fun c => !isSpace c) = true)
    ⟨fun h => by
      rw [Bool.and_eq_true, Bool.not_eq_true', List.isEmpty_eq_false_iff, List.all_eq_true] at h
      exact ⟨h.1, fun c hc => (Bool.not_eq_true' _).mp (h.2 c hc)⟩,
    fun h => by
      rw [Bool.and_eq_true, Bool.not_eq_true', List.isEmpty_eq_false_iff, List.all_eq_true]
      exact ⟨h.ne_nil, fun c hc => (Bool.not_eq_true' _).mpr (h.noBlank c hc)⟩⟩

/-- `l.strip()`. -/
def strip (l : List Char) : List Char := (l.dropWhile isSpace).rdropWhile isSpace

/-- `l.split()`. -/
def fields (l : List Char) : List (List Char) := (l.splitOnP isSpace).filter fun w => !w.isEmpty

/-- The digits that are left after the value `acc`, with single underscores between digits. -/
def readDigits (afterDigit : Bool) (acc : ℕ) : List Char → Option ℕ
  | [] => if afterDigit then some acc else none
  | c :: cs =>
    if c.isDigit then readDigits true (10 * acc + (c.toNat - '0'.toNat)) cs
    else if c = '_' ∧ afterDigit then readDigits false acc cs
    else none

/-- `int(l)`. -/
def readInt (l : List Char) : Option ℤ :=
  match strip l with
  | [] => none
  | c :: cs =>
    if c = '-' then (readDigits false 0 cs).map fun n : ℕ => -(n : ℤ)
    else if c = '+' then (readDigits false 0 cs).map fun n : ℕ => (n : ℤ)
    else (readDigits false 0 (c :: cs)).map fun n : ℕ => (n : ℤ)

/-- What is read in the lines of a text, `none` if one of them fails. A file has no line behind its
last newline, and what is read in the empty text there has to be nothing. -/
def readLines {α : Type*} (f : List Char → Option (Option α)) (text : List Char) :
    Option (List α) :=
  ((text.splitOn '\n').mapM f).map List.reduceOption

variable {l w rest : List Char} {c : Char} {n width : ℕ}

/-! ### Digits -/

theorem isSpace_of_isDigit (h : c.isDigit = true) : isSpace c = false := by
  simp only [Char.isDigit, Bool.and_eq_true, decide_eq_true_eq] at h
  have hrange : 48 ≤ c.toNat ∧ c.toNat ≤ 57 := h
  have hblank : c ≠ ' ' := by
    rintro rfl
    exact absurd hrange.1 (by decide)
  simp [isSpace, hblank]
  omega

theorem ne_of_isDigit {d : Char} (h : c.isDigit = true) (hd : d.isDigit = false) : c ≠ d := by
  rintro rfl
  rw [h] at hd
  cases hd

theorem isDigit_decimal (h : c ∈ decimal n) : c.isDigit = true :=
  Nat.isDigit_of_mem_toDigits (by decide) (by decide) h

theorem isDigit_zeroPadded (h : c ∈ zeroPadded width n) : c.isDigit = true := by
  rcases List.mem_append.mp h with h | h
  · rw [List.eq_of_mem_replicate h]
    rfl
  · exact isDigit_decimal h

theorem zeroPadded_ne_nil : zeroPadded width n ≠ [] :=
  List.append_ne_nil_of_right_ne_nil _ Nat.toDigits_ne_nil

theorem length_zeroPadded : (zeroPadded width n).length = max width (decimal n).length := by
  unfold zeroPadded
  rw [List.length_append, List.length_replicate]
  omega

theorem length_zeroPadded_le_iff {k : ℕ} (hwidth : width ≤ k) (hk : 0 < k) :
    (zeroPadded width n).length ≤ k ↔ n < 10 ^ k := by
  rw [length_zeroPadded, Nat.max_le, and_iff_right hwidth]
  exact Nat.length_toDigits_le_iff (by decide) hk

theorem ofDigitChars_zeroPadded : Nat.ofDigitChars 10 (zeroPadded width n) 0 = n := by
  unfold zeroPadded decimal
  rw [Nat.ofDigitChars_append, Nat.ofDigitChars_replicate_zero, Nat.mul_zero,
    Nat.ofDigitChars_ten_toDigits]

theorem readDigits_of_isDigit {afterDigit : Bool} {acc : ℕ} (hl : ∀ c ∈ l, c.isDigit = true)
    (hne : l ≠ [] ∨ afterDigit = true) :
    readDigits afterDigit acc l = some (Nat.ofDigitChars 10 l acc) := by
  induction l generalizing afterDigit acc with
  | nil =>
    obtain rfl := hne.resolve_left fun h => h rfl
    rfl
  | cons c cs ih =>
    rw [readDigits, if_pos (hl c List.mem_cons_self), Nat.ofDigitChars_cons]
    exact ih (fun d hd => hl d (List.mem_cons_of_mem c hd)) (.inr rfl)

/-! ### Blanks -/

theorem strip_of_head (hc : isSpace c = false) :
    strip (c :: l) = c :: l.rdropWhile isSpace := by
  unfold strip
  rw [List.dropWhile_cons_of_neg (by simp [hc])]
  induction l using List.reverseRecOn with
  | nil => simp [List.rdropWhile, hc]
  | append_singleton l d ih =>
    by_cases hd : isSpace d = true
    · rw [← List.cons_append, List.rdropWhile_concat_pos _ _ _ hd,
        List.rdropWhile_concat_pos _ _ _ hd, ih]
    · rw [← List.cons_append, List.rdropWhile_concat_neg _ _ _ hd,
        List.rdropWhile_concat_neg _ _ _ hd, List.cons_append]

theorem fields_nil : fields [] = [] := rfl

theorem fields_append_cons (hc : isSpace c = true) :
    fields (l ++ c :: rest) = fields l ++ fields rest := by
  unfold fields
  rw [List.splitOnP_append_cons l rest hc, List.filter_append]

theorem fields_cons (hc : isSpace c = true) : fields (c :: rest) = fields rest :=
  fields_append_cons (l := []) hc

theorem fields_concat (hc : isSpace c = true) : fields (l ++ [c]) = fields l := by
  rw [fields_append_cons hc, fields_nil, List.append_nil]

theorem fields_word (hw : Word w) : fields w = [w] := by
  unfold fields
  rw [List.splitOnP_eq_singleton hw.noBlank, List.filter_cons_of_pos, List.filter_nil]
  simpa using hw.ne_nil

theorem fields_append (hw : Word w) (hc : isSpace c = true) :
    fields (w ++ c :: rest) = w :: fields rest := by
  rw [fields_append_cons hc, fields_word hw]
  rfl

theorem fields_dropWhile : fields (l.dropWhile isSpace) = fields l := by
  induction l with
  | nil => rfl
  | cons c cs ih =>
    by_cases hc : isSpace c = true
    · rw [List.dropWhile_cons_of_pos hc, ih, fields_cons hc]
    · rw [List.dropWhile_cons_of_neg hc]

theorem fields_rdropWhile : fields (l.rdropWhile isSpace) = fields l := by
  induction l using List.reverseRecOn with
  | nil => rfl
  | append_singleton l c ih =>
    by_cases hc : isSpace c = true
    · rw [List.rdropWhile_concat_pos _ _ _ hc, ih, fields_concat hc]
    · rw [List.rdropWhile_concat_neg _ _ _ hc]

theorem fields_strip : fields (strip l) = fields l := by
  unfold strip
  rw [fields_rdropWhile, fields_dropWhile]

theorem take_one_strip (hw : Word w) : (strip (w ++ rest)).take 1 = w.take 1 := by
  obtain ⟨hne, hw⟩ := hw
  cases w with
  | nil => exact absurd rfl hne
  | cons c cs =>
    rw [List.cons_append, strip_of_head (hw c List.mem_cons_self)]
    rfl

theorem strip_word (hw : Word w) : strip w = w := by
  obtain ⟨hne, hw⟩ := hw
  unfold strip
  cases w with
  | nil => exact absurd rfl hne
  | cons c cs =>
    rw [List.dropWhile_cons_of_neg (by simp [hw c List.mem_cons_self]),
      List.rdropWhile_eq_self_iff]
    intro hne
    simp [hw _ (List.getLast_mem hne)]

/-! ### A number reads as itself -/

theorem readInt_of_isDigit (hl : ∀ c ∈ l, c.isDigit = true) (hne : l ≠ []) :
    readInt l = some (Nat.ofDigitChars 10 l 0 : ℤ) := by
  unfold readInt
  rw [strip_word ⟨hne, fun c hc => isSpace_of_isDigit (hl c hc)⟩]
  cases l with
  | nil => exact absurd rfl hne
  | cons c cs =>
    have hc := hl c List.mem_cons_self
    dsimp only
    rw [if_neg (ne_of_isDigit hc rfl), if_neg (ne_of_isDigit hc rfl),
      readDigits_of_isDigit hl (.inl hne)]
    rfl

theorem word_zeroPadded : Word (zeroPadded width n) :=
  ⟨zeroPadded_ne_nil, fun _ hc => isSpace_of_isDigit (isDigit_zeroPadded hc)⟩

theorem readInt_zeroPadded : readInt (zeroPadded width n) = some (n : ℤ) := by
  rw [readInt_of_isDigit (fun _ hc => isDigit_zeroPadded hc) zeroPadded_ne_nil,
    ofDigitChars_zeroPadded]

theorem mem_signed {z : ℤ} (h : c ∈ signed width z) : c = '-' ∨ c.isDigit = true := by
  unfold signed at h
  split_ifs at h
  · rcases List.mem_cons.mp h with h | h
    · exact .inl h
    · exact .inr (isDigit_zeroPadded h)
  · exact .inr (isDigit_zeroPadded h)

theorem word_signed {z : ℤ} : Word (signed width z) := by
  constructor
  · unfold signed
    split_ifs
    · exact List.cons_ne_nil _ _
    · exact zeroPadded_ne_nil
  · intro c hc
    rcases mem_signed hc with rfl | hc
    · rfl
    · exact isSpace_of_isDigit hc

theorem readInt_signed {z : ℤ} : readInt (signed width z) = some z := by
  by_cases hneg : z < 0
  · unfold readInt
    rw [strip_word word_signed]
    unfold signed
    rw [if_pos hneg]
    dsimp only
    rw [if_pos rfl, readDigits_of_isDigit (fun _ hc => isDigit_zeroPadded hc)
      (.inl zeroPadded_ne_nil), ofDigitChars_zeroPadded]
    simp only [Option.map_some, Option.some.injEq]
    omega
  · unfold signed
    rw [if_neg hneg, readInt_zeroPadded]
    simp only [Option.some.injEq]
    omega

/-! ### Lines -/

section Lines

variable {α : Type*} {f : List Char → Option (Option α)}

theorem readLines_nil (hnil : f [] = some none) : readLines f [] = some [] := by
  unfold readLines
  rw [List.splitOn_nil, List.mapM_cons, hnil]
  rfl

theorem readLines_cons (hl : '\n' ∉ l) : readLines f (l ++ '\n' :: rest) =
    (f l).bind fun x => (readLines f rest).map fun xs => x.toList ++ xs := by
  unfold readLines
  rw [List.splitOn_append_cons_self_of_not_mem hl, List.mapM_cons]
  cases f l with
  | none => rfl
  | some x =>
    cases (rest.splitOn '\n').mapM f with
    | none => rfl
    | some xs => cases x <;> rfl

theorem readLines_flatMap {β : Type*} {text : β → List Char} {g : β → α} {xs : List β}
    (hnewline : ∀ x ∈ xs, '\n' ∉ text x) (hread : ∀ x ∈ xs, f (text x) = some (some (g x)))
    (hnil : f [] = some none) :
    readLines f (xs.flatMap fun x => text x ++ ['\n']) = some (xs.map g) := by
  induction xs with
  | nil => exact readLines_nil hnil
  | cons x xs ih =>
    rw [List.forall_mem_cons] at hnewline hread
    rw [List.flatMap_cons, List.append_assoc, List.singleton_append, readLines_cons hnewline.1,
      hread.1, ih hnewline.2 hread.2]
    rfl

end Lines

end Ecen5623.Library
