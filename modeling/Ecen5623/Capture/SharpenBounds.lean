import Ecen5623.Capture.Sharpen

/-! # The bounds of the sharpening filters

At every resolution, and with the buffers that the callers allocate, both filters of `sharpen.c`
read and write within their buffers and no assertion fails (`inBounds_sharpen`,
`inBounds_yChannel`). In `sharpen` the byte of the channel enters the position twice and the
column is taken in bytes, so the last write of a colour image is just before the end of the buffer
(`pos_lt`). -/

namespace Ecen5623.Capture.SharpenBounds

open Ecen5623.Library Ecen5623.Capture.Transformation Ecen5623.Capture.Sharpen

/-- A pass of the outer loops stays in its buffers: `filter_pos` is `n` at its `n`-th read. -/
structure InBounds (src dst : Buffer) (indices : List ℕ) (pos : ℕ) : Prop where
  read : ∀ n index, indices[n]? = some index → index < src.size ∧ n ≤ sharpenSize - 1
  write : pos < dst.size

variable {s : Setup} {src dst : Buffer}

/-! ### No assertion fails -/

theorem isSome_foldlM {flt : ℕ → ℚ} {indices : List ℕ} {st : ℚ × ℕ}
    (hlen : st.2 + indices.length ≤ sharpenSize) (hindex : ∀ index ∈ indices, index < src.size) :
    (indices.foldlM (filterStep flt src) st).isSome := by
  induction indices generalizing st with
  | nil => rfl
  | cons index indices ih =>
    rw [List.length_cons] at hlen
    have hstep : filterStep flt src st index =
        some (st.1 + flt st.2 * (src.start index).toNat, st.2 + 1) :=
      if_pos ⟨hindex index List.mem_cons_self, by omega⟩
    rw [List.foldlM_cons, hstep]
    exact ih (by dsimp only; omega) fun i hi => hindex i (List.mem_cons_of_mem index hi)

theorem InBounds.length_le {indices : List ℕ} {pos : ℕ} (h : InBounds src dst indices pos) :
    indices.length ≤ sharpenSize := by
  by_contra hlt
  have hn : sharpenSize < indices.length := by omega
  have := (h.read sharpenSize _ (List.getElem?_eq_getElem hn)).2
  unfold sharpenSize sharpenRows sharpenCols at this
  omega

theorem InBounds.exists_write {indices : List ℕ} {pos : ℕ} (h : InBounds src dst indices pos)
    (flt : ℕ → ℚ) : ∃ w, writePixel flt src dst indices pos = some w := by
  have hsome : (indices.foldlM (filterStep flt src) (0, 0)).isSome :=
    isSome_foldlM (by rw [Nat.zero_add]; exact h.length_le) fun index hindex => by
      obtain ⟨n, hn⟩ := List.getElem?_of_mem hindex
      exact (h.read n index hn).1
  obtain ⟨st, hst⟩ := Option.isSome_iff_exists.mp hsome
  unfold writePixel rowSum
  rw [hst, Option.map_some, Option.bind_some, if_pos h.write]
  exact ⟨_, rfl⟩

theorem exists_writes {α : Type*} {ps : List α} {indices : α → List ℕ} {pos : α → ℕ}
    (h : ∀ p ∈ ps, InBounds src dst (indices p) (pos p)) (flt : ℕ → ℚ) :
    ∃ ws, ps.mapM (fun p => writePixel flt src dst (indices p) (pos p)) = some ws := by
  induction ps with
  | nil => exact ⟨[], rfl⟩
  | cons p ps ih =>
    obtain ⟨w, hw⟩ := (h p List.mem_cons_self).exists_write flt
    obtain ⟨ws, hws⟩ := ih fun q hq => h q (List.mem_cons_of_mem p hq)
    rw [List.mapM_cons, hw, hws]
    exact ⟨w :: ws, rfl⟩

/-! ### The plain filter -/

section Sharpen

variable {p : Pixel} (hbpp : s.bytesPerPixel = 1 ∨ s.bytesPerPixel = 3)
variable (hp : p ∈ sharpenPixels s)
include hbpp hp

theorem length_indices : (p.indices s).length = sharpenSize := by
  have hpp := (of_mem_sharpenPixels (by omega) hp).1
  have hpasses : passes p.pp (3 * s.bytesPerPixel) s.bytesPerPixel = 3 :=
    passes_eq (by omega) (by omega) (by omega)
  have hrow : ∀ f : ℕ → ℕ,
      ((forRange p.pp (3 * s.bytesPerPixel) s.bytesPerPixel).map f).length = 3 := fun f => by
    rw [List.length_map, forRange, List.length_map, List.length_range, hpasses]
  show (([0, 1, 2] : List ℕ).flatMap fun k => _).length = 9
  simp only [List.flatMap_cons, List.flatMap_nil, List.length_append, hrow, List.length_nil]

theorem index_lt {index : ℕ} (h : index ∈ p.indices s) :
    index < s.xRes * s.yRes * s.bytesPerPixel := by
  have hpos : 0 < s.bytesPerPixel := by omega
  obtain ⟨hpp, hi, t, -, hj⟩ := of_mem_sharpenPixels hpos hp
  unfold Pixel.indices at h
  simp only [List.mem_flatMap, List.mem_map, mem_forRange_one, mem_forRange hpos] at h
  obtain ⟨k, hk, l, ⟨-, -, hl⟩, rfl⟩ := h
  have hk3 : k < 3 := hk
  have hl3 : l < 3 * s.bytesPerPixel := hl
  -- a row is `xRes` bytes here, but the reads of the last row go on in the next ones
  have hrow : (k + p.i + 2) * s.xRes ≤ s.yRes * s.xRes := Nat.mul_le_mul_right _ (by omega)
  rw [Nat.add_mul, Nat.add_mul, Nat.mul_comm s.yRes] at hrow
  obtain hb | hb := hbpp
  · rw [hb] at hj hl3 ⊢
    omega
  · rw [hb] at hj hl3 ⊢
    omega

theorem pos_lt : p.pos s 0 < s.xRes * s.yRes * s.bytesPerPixel := by
  obtain ⟨hpp, hi, t, ht, hj⟩ := of_mem_sharpenPixels (by omega) hp
  have hrow : (p.i + 1 + 3) * s.xRes ≤ s.yRes * s.xRes := Nat.mul_le_mul_right _ (by omega)
  rw [Nat.add_mul _ 3, Nat.mul_comm s.yRes] at hrow
  show (p.i + 1) * s.xRes * s.bytesPerPixel + (p.j + 1) * s.bytesPerPixel + p.pp + 0 < _
  obtain hb | hb := hbpp
  · rw [hb] at hpp ht hj ⊢
    omega
  · rw [hb] at hpp ht hj ⊢
    omega

theorem inBounds_sharpen (hsrc : src.size = s.xRes * s.yRes * s.bytesPerPixel)
    (hdst : dst.size = s.xRes * s.yRes * s.bytesPerPixel) :
    InBounds src dst (p.indices s) (p.pos s 0) := by
  refine ⟨fun n index hn => ⟨?_, ?_⟩, ?_⟩
  · rw [hsrc]
    exact index_lt hbpp hp (List.mem_of_getElem? hn)
  · have hlt := (List.getElem?_eq_some_iff.mp hn).1
    rw [length_indices hbpp hp] at hlt
    exact Nat.le_sub_one_of_lt hlt
  · rw [hdst]
    exact pos_lt hbpp hp

end Sharpen

/-! ### The filter on the Y channel -/

theorem four_le_of_mem {p : YuyvPixel} (hp : p ∈ yChannelPixels s) : 4 ≤ s.xRes := by
  by_contra hx
  unfold yChannelPixels at hp
  obtain ⟨row, -, hp⟩ := List.mem_flatMap.mp hp
  have h0 : s.xRes - sharpenCols = 0 := by
    unfold sharpenCols
    omega
  rw [h0] at hp
  exact absurd hp List.not_mem_nil

theorem inBounds_yChannel {p : YuyvPixel} (hsrc : src.size = 2 * s.xRes * s.yRes)
    (hdst : dst.size = s.xRes * s.yRes) (hp : p ∈ yChannelPixels s) :
    InBounds src dst p.indices (p.pos 0) := by
  obtain ⟨r, c, hc, hrow, rfl⟩ := of_mem_yChannelPixels (four_le_of_mem hp) hp
  constructor
  · intro n index hn
    rw [indices_yChannel, List.getElem?_map, Option.map_eq_some_iff] at hn
    obtain ⟨m, hm, rfl⟩ := hn
    obtain ⟨hlt, rfl⟩ := List.getElem?_eq_some_iff.mp hm
    rw [List.length_range] at hlt
    rw [List.getElem_range, hsrc, Nat.mul_assoc 2]
    have hindex : s.xRes * 2 * r + 2 * c + 2 * n = 2 * (r * s.xRes + c + n) := by ring
    refine ⟨?_, Nat.le_sub_one_of_lt hlt⟩
    show s.xRes * 2 * r + 2 * c + 2 * n < _
    rw [hindex]
    omega
  · show s.xRes * r + 1 * c + 0 < dst.size
    rw [hdst, Nat.mul_comm s.xRes r]
    omega

/-- **Both filters stay in bounds at every resolution.** -/
theorem sharpen_inBounds {src' dst' : Buffer}
    (hbpp : s.bytesPerPixel = 1 ∨ s.bytesPerPixel = 3)
    (hsrc : src.size = s.xRes * s.yRes * s.bytesPerPixel)
    (hdst : dst.size = s.xRes * s.yRes * s.bytesPerPixel)
    (hsrc' : src'.size = 2 * s.xRes * s.yRes) (hdst' : dst'.size = s.xRes * s.yRes) :
    ((∃ ws, sharpen s src dst 0 = some ws) ∧
      ∀ p ∈ sharpenPixels s, InBounds src dst (p.indices s) (p.pos s 0)) ∧
    ((∃ ws, yChannelSharpen s src' dst' 0 = some ws) ∧
      ∀ p ∈ yChannelPixels s, InBounds src' dst' p.indices (p.pos 0)) := by
  have hplain : ∀ p ∈ sharpenPixels s, InBounds src dst (p.indices s) (p.pos s 0) :=
    fun p hp => inBounds_sharpen hbpp hp hsrc hdst
  have hyuyv : ∀ p ∈ yChannelPixels s, InBounds src' dst' p.indices (p.pos 0) :=
    fun p hp => inBounds_yChannel hsrc' hdst' hp
  exact ⟨⟨exists_writes hplain s.sharpenFlt, hplain⟩, exists_writes hyuyv s.sharpenFlt, hyuyv⟩

/-- The resolution of the program, in colour. -/
theorem sharpen_inBounds_vga :
    ((∃ ws, sharpen ⟨640, 480, 3, sharpenProfessorExample⟩ ⟨fun _ => 16, 921600⟩
        ⟨fun _ => 0, 921600⟩ 0 = some ws) ∧
      ∀ p ∈ sharpenPixels ⟨640, 480, 3, sharpenProfessorExample⟩,
        InBounds ⟨fun _ => 16, 921600⟩ ⟨fun _ => 0, 921600⟩
          (p.indices ⟨640, 480, 3, sharpenProfessorExample⟩)
          (p.pos ⟨640, 480, 3, sharpenProfessorExample⟩ 0)) ∧
    ((∃ ws, yChannelSharpen ⟨640, 480, 3, sharpenProfessorExample⟩ ⟨fun _ => 16, 614400⟩
        ⟨fun _ => 0, 307200⟩ 0 = some ws) ∧
      ∀ p ∈ yChannelPixels ⟨640, 480, 3, sharpenProfessorExample⟩,
        InBounds ⟨fun _ => 16, 614400⟩ ⟨fun _ => 0, 307200⟩ p.indices (p.pos 0)) :=
  sharpen_inBounds (.inr rfl) rfl rfl rfl rfl

end Ecen5623.Capture.SharpenBounds
