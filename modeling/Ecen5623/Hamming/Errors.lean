import Ecen5623.Hamming.Scrubbing

/-! # Errors of any size

A byte is written once to a word of zeros, then any bits among the low 15 and the word parity flip,
as often as they like, and then it is read. The read looks at two things only: the syndrome of the
flips and whether their number is even. It reports a double error if the number is even and the
syndrome is not `0`; otherwise it returns `1`, and its byte is right exactly if the flips and its
own correction leave no data bit flipped. So one flip is corrected, two at different positions are
always reported, and three never are (`read_flips`). -/

namespace Ecen5623.Hamming.Errors

open Ecen5623.Library Ecen5623.Hamming.Syndrome Ecen5623.Hamming.MemoryWord
open Ecen5623.Hamming.CheckBits Ecen5623.Hamming.Scrubbing

variable {w : Word} {b out : Byte} {r k : ℕ} {rs : List ℕ}

/-- The positions the code uses. -/
def Position (r : ℕ) : Prop := r < 15 ∨ r = 31

instance (r : ℕ) : Decidable (Position r) := inferInstanceAs (Decidable (_ ∨ _))

/-- The word after the flips. -/
def flips (w : Word) (rs : List ℕ) : Word := rs.foldl (fun w r => w ^^^ (1#32 <<< r)) w

/-- What the flips add to the check value. The word parity is not among the bits checked. -/
def errorSyndrome : List ℕ → ℕ
  | [] => 0
  | r :: rs => (if r < 15 then r + 1 else 0) ^^^ errorSyndrome rs

/-- The flips and the one that the read makes for a correction. -/
def corrected (rs : List ℕ) : List ℕ :=
  if errorSyndrome rs = 0 then rs else rs ++ [errorSyndrome rs - 1]

theorem errorSyndrome_lt : ∀ rs, errorSyndrome rs < 2 ^ 4
  | [] => by simp [errorSyndrome]
  | r :: rs => by
    refine Nat.xor_lt_two_pow ?_ (errorSyndrome_lt rs)
    split_ifs <;> omega

/-! ### What the flips change -/

theorem flips_append (w : Word) (rs rs' : List ℕ) :
    flips w (rs ++ rs') = flips (flips w rs) rs' := List.foldl_append

/-- **The check value.** -/
theorem check_flips (w : Word) (hrs : ∀ r ∈ rs, Position r) :
    check (flips w rs) = check w ^^^ errorSyndrome rs := by
  induction rs generalizing w with
  | nil => simp [flips, errorSyndrome]
  | cons r rs ih =>
    obtain ⟨hr, hrs⟩ := List.forall_mem_cons.mp hrs
    have hstep : check (w ^^^ (1#32 <<< r)) = check w ^^^ (if r < 15 then r + 1 else 0) := by
      rcases hr with hr | rfl
      · rw [if_pos hr, check_flip w hr]
      · rw [if_neg (by omega), Nat.xor_zero, ← check_flip_parity w, parityWordBit]
    rw [flips, List.foldl_cons, ← flips, ih _ hrs, hstep, errorSyndrome, Nat.xor_assoc]

/-- **The parities**: the one of the low bits and the word parity. -/
theorem parity_flips (w : Word) (hrs : ∀ r ∈ rs, Position r) :
    (ones (flips w rs) + getParity (flips w rs)) % 2 =
      (ones w + getParity w + rs.length) % 2 := by
  induction rs generalizing w with
  | nil => rfl
  | cons r rs ih =>
    obtain ⟨hr, hrs⟩ := List.forall_mem_cons.mp hrs
    have hstep : (ones (w ^^^ (1#32 <<< r)) + getParity (w ^^^ (1#32 <<< r))) % 2 =
        (ones w + getParity w + 1) % 2 := by
      rcases hr with hr | rfl
      · have hones := ones_flip w hr
        rw [getParity_flip w hr]
        omega
      · have hne := getParity_flip_parity w
        have hlt : ∀ w, getParity w < 2 := fun w => by unfold getParity; split_ifs <;> omega
        have h1 := hlt w
        have h2 := hlt (w ^^^ parityWordBit)
        rw [← parityWordBit, ones_flip_parity]
        omega
    rw [flips, List.foldl_cons, ← flips, ih _ hrs, List.length_cons]
    omega

theorem getLsbD_flips (w : Word) (hk : k < 32) (rs : List ℕ) :
    (flips w rs).getLsbD k = (w.getLsbD k ^^ decide (Odd (rs.count k))) := by
  induction rs generalizing w with
  | nil => simp [flips]
  | cons r rs ih =>
    rw [flips, List.foldl_cons, ← flips, ih, BitVec.getLsbD_xor, ← BitVec.twoPow_eq,
      BitVec.getLsbD_twoPow, List.count_cons]
    by_cases hr : r = k
    · subst hr
      by_cases hodd : Odd (rs.count r) <;> simp [hk, Nat.odd_add_one, hodd]
    · simp [hr, hk]

/-- **The data.** -/
theorem hammingData_flips : (hammingData 0 (flips (encoded b) rs) false).2 = b ↔
    ∀ q ∈ dataPos, q.2 < 8 → Even (rs.count q.1) := by
  have hlt : ∀ q ∈ dataPos, q.1 < 32 := by decide
  rw [hammingData_eq_iff]
  refine forall₃_congr fun q hq hq8 => ?_
  have hbit := getLsbD_hammingData_zero (encoded b) hq hq8
  rw [hammingData_encoded] at hbit
  rw [getLsbD_flips _ (hlt q hq), ← hbit, ← Nat.not_odd_iff_even]
  by_cases hodd : Odd (rs.count q.1) <;> simp [hodd]

theorem hammingData_wordParity (w : Word) (write : Bool) :
    (hammingData 0 (wordParity w write).2 false).2 = (hammingData 0 w false).2 := by
  have hlt : ∀ q ∈ dataPos, q.1 < 31 := by decide
  rw [wordParity_snd, hammingData_eq_iff]
  intro q hq hq8
  rw [getLsbD_hammingData_zero w hq hq8]
  split_ifs
  · rw [BitVec.getLsbD_or, parityWordBit, ← BitVec.twoPow_eq, BitVec.getLsbD_twoPow]
    simp [(hlt q hq).ne']
  · rfl

/-! ### What the read makes of them -/

theorem check_encoded_flips (b : Byte) (hrs : ∀ r ∈ rs, Position r) :
    check (flips (encoded b) rs) = errorSyndrome rs := by
  rw [check_flips _ hrs, check_encoded, Nat.zero_xor]

theorem parity_encoded_flips (b : Byte) (hrs : ∀ r ∈ rs, Position r) :
    ones (flips (encoded b) rs) % 2 = getParity (flips (encoded b) rs) ↔ Even rs.length := by
  have hflips := parity_flips (encoded b) hrs
  have henc := getParity_encoded b
  have hlt : getParity (flips (encoded b) rs) < 2 := by unfold getParity; split_ifs <;> omega
  rw [Nat.even_iff]
  omega

/-- What a read with `out` in `*value` makes of the flips in the word of `b`. -/
structure Outcome (b out : Byte) (rs : List ℕ) (read : Read) : Prop where
  rc : read.rc = 1 ∨ read.rc = -1
  double_iff : read.rc = -1 ↔ Even rs.length ∧ errorSyndrome rs ≠ 0
  untouched : read.rc = -1 → read.memory = flips (encoded b) rs ∧ read.value = out
  value_iff : read.rc = 1 →
    (read.value = b ↔ ∀ q ∈ dataPos, q.2 < 8 → Even ((corrected rs).count q.1))

theorem read_outcome (b out : Byte) (hrs : ∀ r ∈ rs, Position r) :
    ∃ read, readWHamming out (flips (encoded b) rs) = some read ∧ Outcome b out rs read := by
  have hc := check_encoded_flips b hrs
  have hpar := parity_encoded_flips b hrs
  by_cases hzero : errorSyndrome rs = 0
  · rw [readWHamming_of_check_zero out (hc.trans hzero)]
    refine ⟨_, rfl, .inl rfl, by simp [hzero], by simp, fun _ => ?_⟩
    rw [corrected, if_pos hzero, ← hammingData_flips]
    dsimp only
    split_ifs
    · rw [hammingData_wordParity]
    · exact Iff.rfl
  · rw [readWHamming_of_check_ne_zero out (by rwa [hc])]
    by_cases heven : Even rs.length
    · rw [if_pos (hpar.mpr heven)]
      exact ⟨_, rfl, .inr rfl, by simp [heven, hzero], by simp, by simp⟩
    · rw [if_neg (mt hpar.mp heven)]
      refine ⟨_, rfl, .inl rfl, by simp [heven], by simp, fun _ => ?_⟩
      rw [corrected, if_neg hzero, ← hammingData_flips, flips_append, hc]
      rfl

/-! ### Few errors -/

theorem corrected_one (hr : Position r) {q : ℕ × ℕ} (hq : q ∈ dataPos) :
    Even ((corrected [r]).count q.1) := by
  have hne : ∀ q ∈ dataPos, q.1 ≠ 31 := by decide
  rcases hr with hr | rfl
  · have hs : errorSyndrome [r] = r + 1 := by simp [errorSyndrome, hr]
    rw [corrected, hs, if_neg (Nat.succ_ne_zero r), Nat.add_sub_cancel, List.count_append]
    exact ⟨_, rfl⟩
  · rw [corrected, if_pos (by decide), List.count_eq_zero_of_not_mem (by simpa using hne q hq)]
    exact Even.zero

theorem errorSyndrome_two {s : ℕ} (hr : Position r) (hs : Position s) (hne : r ≠ s) :
    errorSyndrome [r, s] ≠ 0 := by
  have hval : errorSyndrome [r, s] =
      (if r < 15 then r + 1 else 0) ^^^ (if s < 15 then s + 1 else 0) := by
    simp only [errorSyndrome, Nat.xor_zero]
  have hneg : ¬ 31 < 15 := by decide
  rw [hval, Ne, Nat.xor_eq_zero_iff]
  rcases hr with hr | rfl <;> rcases hs with hs | rfl
  · rw [if_pos hr, if_pos hs]
    omega
  · rw [if_pos hr, if_neg hneg]
    omega
  · rw [if_neg hneg, if_pos hs]
    omega
  · exact absurd rfl hne

/-- **Errors of any size.** The code corrects one flip, reports two, and what it makes of more is
told by their number and their syndrome. -/
theorem read_flips (b out : Byte) (hrs : ∀ r ∈ rs, Position r) :
    ∃ read, readWHamming out (flips (encoded b) rs) = some read ∧ Outcome b out rs read ∧
      (rs.length ≤ 1 → read.rc = 1 ∧ read.value = b) ∧
      (rs.length = 2 → rs.Nodup → read.rc = -1) := by
  obtain ⟨read, hread, h⟩ := read_outcome b out hrs
  refine ⟨read, hread, h, fun hlen => ?_, fun hlen hnodup => ?_⟩
  · have hrc : read.rc = 1 := h.rc.resolve_right fun hrc => by
      obtain ⟨heven, hsyn⟩ := h.double_iff.mp hrc
      have hnil : rs = [] := List.length_eq_zero_iff.mp (by rw [Nat.even_iff] at heven; omega)
      exact hsyn (by rw [hnil]; rfl)
    refine ⟨hrc, (h.value_iff hrc).mpr fun q hq _ => ?_⟩
    rcases rs with _ | ⟨r, _ | _⟩
    · exact Even.zero
    · exact corrected_one (hrs r List.mem_cons_self) hq
    · simp at hlen
  · obtain ⟨r, s, rfl⟩ := List.length_eq_two.mp hlen
    have hne : r ≠ s := by simpa using hnodup
    exact h.double_iff.mpr ⟨even_two, errorSyndrome_two (hrs r (by simp)) (hrs s (by simp)) hne⟩

/-- The flips of the test at positions 5 and 9, and one of the word parity. -/
theorem read_flips_three : ∃ read, readWHamming 0 (flips (encoded 0xff) [5, 9, 31]) = some read ∧
    read.rc = 1 ∧ read.value ≠ 0xff := by
  obtain ⟨read, hread, h, -⟩ := read_flips 0xff 0 (by decide : ∀ r ∈ [5, 9, 31], Position r)
  have hrc : read.rc = 1 := h.rc.resolve_right fun hrc => by
    have := (h.double_iff.mp hrc).1
    revert this
    decide
  exact ⟨read, hread, hrc, fun hv => absurd ((h.value_iff hrc).mp hv) (by decide)⟩

end Ecen5623.Hamming.Errors
