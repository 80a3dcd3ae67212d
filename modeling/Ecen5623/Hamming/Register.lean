import Ecen5623.Hamming.CheckBits

/-! # When a memory word behaves like a register

After a sequence of writes the word holds the data bits of all the bytes and of what it held before
(`getLsbD_present`), and every check bit that was asked for on the way (`getLsbD_foldl_written`). So
a read gives the last byte back from an unchanged word exactly if nothing had to be cleared for it
(`keeps_iff`). -/

namespace Ecen5623.Hamming.Register

open Ecen5623.Hamming.MemoryWord Ecen5623.Hamming.CheckBits

variable {w : Word} {b : Byte} {p : ℕ}

/-! ### Histories of writes -/

/-- The word after the bytes have been written to it one after the other. -/
def writes (w : Word) (bytes : List Byte) : Option Word :=
  bytes.foldlM (fun w v => (writeWHamming v w).map (·.2)) w

/-- After the bytes and `b` have been written, a read returns `1`, stores `b` and leaves the
word. -/
def Keeps (w : Word) (bytes : List Byte) (b : Byte) : Prop :=
  ∃ w', writes w (bytes ++ [b]) = some w' ∧
    ∀ out, readWHamming out w' = some { rc := 1, value := b, memory := w' }

/-- The data bits present after the bytes have been written: those of the word and of the bytes. -/
def present (w : Word) (bytes : List Byte) : Word :=
  bytes.foldl (fun w v => (hammingData v w true).1) (clear w)

/-- Nothing has to be cleared for the last byte: each data bit that is set in the word or in an
earlier byte is set in it, and each check bit that is set in the word or asked for by the data
present after an earlier byte is asked for by the data present at the end. -/
structure Covers (w : Word) (bytes : List Byte) (b : Byte) : Prop where
  data : ∀ q ∈ dataPos, q.2 < 8 →
    (w.getLsbD q.1 = true ∨ ∃ c ∈ bytes, c.getLsbD q.2 = true) → b.getLsbD q.2 = true
  check : ∀ p < 4, (w.getLsbD (2 ^ p - 1) = true ∨
    ∃ pre, pre ≠ [] ∧ pre <+: bytes ∧ (check (present w pre)).testBit p = true) →
      (check (present w (bytes ++ [b]))).testBit p = true

theorem writes_eq (w : Word) (bytes : List Byte) :
    writes w bytes = some (bytes.foldl (fun w v => written v w) w) := by
  induction bytes generalizing w with
  | nil => rfl
  | cons v bytes ih =>
    rw [writes, List.foldlM_cons, writeWHamming_eq]
    exact ih (written v w)

theorem clear_foldl_written (w : Word) (bytes : List Byte) :
    clear (bytes.foldl (fun w v => written v w) w) = present w bytes := by
  induction bytes using List.reverseRecOn with
  | nil => rfl
  | append_singleton bytes v ih =>
    rw [List.foldl_append, List.foldl_cons, List.foldl_nil, clear_written, ih, present, present,
      List.foldl_append]
    rfl

/-- **The check bits after the writes.** -/
theorem getLsbD_foldl_written (w : Word) (hp : p < 4) (bytes : List Byte) :
    (bytes.foldl (fun w v => written v w) w).getLsbD (2 ^ p - 1) = true ↔
      w.getLsbD (2 ^ p - 1) = true ∨
        ∃ pre, pre ≠ [] ∧ pre <+: bytes ∧ (check (present w pre)).testBit p = true := by
  induction bytes using List.reverseRecOn with
  | nil => simp
  | append_singleton bytes v ih =>
    have hpresent : (hammingData v (present w bytes) true).1 = present w (bytes ++ [v]) := by
      rw [present, present, List.foldl_append]
      rfl
    rw [List.foldl_append, List.foldl_cons, List.foldl_nil, getLsbD_written_check v _ hp,
      clear_foldl_written, hpresent, Bool.or_eq_true, ih]
    constructor
    · rintro ((h | ⟨pre, hne, hpre, h⟩) | h)
      · exact .inl h
      · exact .inr ⟨pre, hne, hpre.trans (List.prefix_append _ _), h⟩
      · exact .inr ⟨bytes ++ [v], by simp, List.prefix_rfl, h⟩
    · rintro (h | ⟨pre, hne, hpre, h⟩)
      · exact .inl (.inl h)
      · rcases List.prefix_concat_iff.1 hpre with rfl | hpre
        · exact .inr h
        · exact .inl (.inr ⟨pre, hne, hpre, h⟩)

theorem getLsbD_present (w : Word) (bytes : List Byte) {q : ℕ × ℕ} (hq : q ∈ dataPos) :
    (present w bytes).getLsbD q.1 = true ↔
      w.getLsbD q.1 = true ∨ ∃ c ∈ bytes, c.getLsbD q.2 = true := by
  have hlt : ∀ q ∈ dataPos, q.1 < 32 ∧ checkMask.getLsbD q.1 = false := by decide
  have hinj : ∀ q ∈ dataPos, ∀ q' ∈ dataPos, q'.1 = q.1 → q' = q := by decide
  induction bytes using List.reverseRecOn with
  | nil =>
    rw [present, List.foldl_nil, getLsbD_clear w (hlt q hq).1, (hlt q hq).2]
    simp
  | append_singleton bytes v ih =>
    have hany : dataPos.any (fun q' => v.getLsbD q'.2 ∧ q'.1 = q.1) = v.getLsbD q.2 := by
      rw [Bool.eq_iff_iff, List.any_eq_true]
      constructor
      · rintro ⟨q', hq', h⟩
        obtain ⟨hbit, he⟩ := of_decide_eq_true h
        rwa [hinj q hq q' hq' he] at hbit
      · intro hbit
        exact ⟨q, hq, by simp [hbit]⟩
    rw [present, List.foldl_append, List.foldl_cons, List.foldl_nil, ← present,
      getLsbD_write v _ (hlt q hq).1, hany]
    simp only [Bool.or_eq_true, ih, List.mem_append, List.mem_singleton, or_and_right, exists_or,
      exists_eq_left, or_assoc]

/-- **A memory word keeps the last byte exactly if nothing had to be cleared for it.** -/
theorem keeps_iff (w : Word) (bytes : List Byte) (b : Byte) :
    Keeps w bytes b ↔ Covers w bytes b := by
  have hw : writes w (bytes ++ [b]) =
      some (written b (bytes.foldl (fun w v => written v w) w)) := by
    rw [writes_eq, List.foldl_append]
    rfl
  have hpresent : (hammingData b (present w bytes) true).1 = present w (bytes ++ [b]) := by
    rw [present, present, List.foldl_append]
    rfl
  have hdata : (hammingData 0 (written b (bytes.foldl (fun w v => written v w) w)) false).2 = b ↔
      ∀ q ∈ dataPos, q.2 < 8 →
        (w.getLsbD q.1 = true ∨ ∃ c ∈ bytes, c.getLsbD q.2 = true) → b.getLsbD q.2 = true := by
    rw [hammingData_eq_iff]
    refine forall₃_congr fun q hq _ => ?_
    rw [← getLsbD_clear_dataPos _ hq, clear_written, clear_foldl_written, hpresent,
      getLsbD_present w _ hq]
    simp only [List.mem_append, List.mem_singleton, or_and_right, exists_or, exists_eq_left]
    rw [← or_assoc, or_iff_right_iff_imp]
  have hcheck : check (written b (bytes.foldl (fun w v => written v w) w)) = 0 ↔
      ∀ p < 4, (w.getLsbD (2 ^ p - 1) = true ∨
        ∃ pre, pre ≠ [] ∧ pre <+: bytes ∧ (check (present w pre)).testBit p = true) →
          (check (present w (bytes ++ [b]))).testBit p = true := by
    rw [check_eq_zero_iff]
    refine forall₂_congr fun p hp => ?_
    rw [testBit_check_written b _ hp, clear_foldl_written, hpresent,
      ← getLsbD_foldl_written w hp bytes, Bool.and_eq_false_imp, Bool.not_eq_false']
  have hkeeps : Keeps w bytes b ↔
      ∀ out, readWHamming out (written b (bytes.foldl (fun w v => written v w) w)) = some
        { rc := 1
          value := b
          memory := written b (bytes.foldl (fun w v => written v w) w) } := by
    constructor
    · rintro ⟨w', hw', h⟩
      rw [hw, Option.some.injEq] at hw'
      rwa [hw']
    · exact fun h => ⟨_, hw, h⟩
  rw [hkeeps, readWHamming_written_iff, hdata, hcheck]
  exact ⟨fun h => ⟨h.2, h.1⟩, fun h => ⟨h.check, h.data⟩⟩

/-- A word of zeros that `0xFF` and then `0x00` have been written to still reads `0xFF`. -/
theorem not_keeps : ¬ ∀ (w : Word) (bytes : List Byte) (b : Byte), Keeps w bytes b := by
  intro h
  obtain ⟨w', hw', hread⟩ := h 0 [0xFF] 0
  have hword : writes 0 ([0xFF] ++ [0]) = some 0xF77 := by decide
  rw [hword, Option.some.injEq] at hw'
  subst hw'
  exact absurd (hread 0) (by decide)

end Ecen5623.Hamming.Register
