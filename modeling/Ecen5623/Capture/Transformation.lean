import Ecen5623.Library.WriteLog
import Mathlib.Data.Int.Notation
import Mathlib.Tactic.ByContra

/-! # The two conversions of a frame

`yuv422torgb888` and `yuv422toG8` of `transformation.c` turn each group of four bytes, two pixels,
of a frame into six bytes or two. They are one loop (`convert`) and differ in the pixels and in the
index that is asserted before a group is written. A call is modelled by its writes, `none` if an
assertion fails; the indices are `int`s that stay below the sizes of the buffers, so they are
numbers here.

Where the destination has room for all groups both convert pixel by pixel (`pixelwise`). The
assertion of `yuv422toG8` is about the last byte of the group, that of `yuv422torgb888` about the
first one, so the latter lets up to five bytes past the end be written (`inBounds_iff`). -/

namespace Ecen5623.Capture.Transformation

open Ecen5623.Library

/-- `BYTES_YUYV_PIXELS`. -/
abbrev bytesYuyvPixels : ℕ := 4

/-- `BYTES_RGB_PIXELS`. -/
abbrev bytesRgbPixels : ℕ := 6

/-- `BYTES_GREY_PIXELS`. -/
abbrev bytesGreyPixels : ℕ := 2

/-- `buffer_t` without its time. -/
structure Buffer where
  start : ℕ → BitVec 8
  size : ℕ

/-! ### Pixels -/

/-- The clipping of a computed value. -/
def clip (c : ℤ) : ℤ :=
  let c := if c > 255 then 255 else c
  if c < 0 then 0 else c

/-- What `yuv2rgb` stores in `r`, `g` and `b`. -/
def yuv2rgb (y u v : ℤ) : List (BitVec 8) :=
  let c := y - 16
  let d := u - 128
  let e := v - 128
  let r1 := (298 * c + 409 * e + 128).shiftRight 8
  let g1 := (298 * c - 100 * d - 208 * e + 128).shiftRight 8
  let b1 := (298 * c + 516 * d + 128).shiftRight 8
  [.ofInt 8 (clip r1), .ofInt 8 (clip g1), .ofInt 8 (clip b1)]

/-- What `yuv2grey` stores in `grey`. -/
def yuv2grey (y : ℤ) : BitVec 8 := .ofInt 8 y

@[simp] theorem yuv2grey_toNat (b : BitVec 8) : yuv2grey b.toNat = b := by
  unfold yuv2grey
  rw [BitVec.ofInt_natCast, BitVec.ofNat_toNat, BitVec.setWidth_eq]

/-! ### The loop -/

/-- What distinguishes the two conversions. -/
structure Format where
  /-- The number of bytes written for a group. -/
  bytes : ℕ
  /-- What the assertion adds to `count`. -/
  ahead : ℕ
  /-- The bytes written for the group at an index. -/
  pixels : (ℕ → BitVec 8) → ℕ → List (BitVec 8)
  length_pixels : ∀ iter i, (pixels iter i).length = bytes
  ahead_lt : ahead < bytes

/-- `count` and the writes so far. -/
structure Cursor where
  count : ℕ
  writes : List (ℕ × BitVec 8)

/-- The body of the loop, for one `i`. -/
def convertStep (f : Format) (src dst : Buffer) (s : Cursor) (i : ℕ) : Option Cursor :=
  if src.size - i ≥ bytesYuyvPixels then
    if s.count + f.ahead < dst.size then
      some { count := s.count + f.bytes
             writes := s.writes ++ block s.count (f.pixels src.start i) }
    else none
  else some s

def convert (f : Format) (src dst : Buffer) (offset : ℕ) : Option (List (ℕ × BitVec 8)) :=
  ((forRange 0 src.size bytesYuyvPixels).foldlM (convertStep f src dst)
    { count := offset, writes := [] }).map Cursor.writes

/-- The six bytes of a group in `yuv422torgb888`. -/
def rgbPixels (iter : ℕ → BitVec 8) (i : ℕ) : List (BitVec 8) :=
  let y0 := (iter i).toNat
  let cb := (iter (i + 1)).toNat
  let y1 := (iter (i + 2)).toNat
  let cr := (iter (i + 3)).toNat
  yuv2rgb y0 cb cr ++ yuv2rgb y1 cb cr

/-- The two bytes of a group in `yuv422toG8`. -/
def greyPixels (iter : ℕ → BitVec 8) (i : ℕ) : List (BitVec 8) :=
  let y0 := (iter i).toNat
  let y1 := (iter (i + 2)).toNat
  [yuv2grey y0, yuv2grey y1]

def rgb888 : Format where
  bytes := bytesRgbPixels
  ahead := 0
  pixels := rgbPixels
  length_pixels _ _ := rfl
  ahead_lt := by decide

def g8 : Format where
  bytes := bytesGreyPixels
  ahead := 1
  pixels := greyPixels
  length_pixels _ _ := rfl
  ahead_lt := by decide

/-- `yuv422torgb888`. -/
def yuv422torgb888 : Buffer → Buffer → ℕ → Option (List (ℕ × BitVec 8)) := convert rgb888

/-- `yuv422toG8`. -/
def yuv422toG8 : Buffer → Buffer → ℕ → Option (List (ℕ × BitVec 8)) := convert g8

section Convert

variable {f : Format} {src dst : Buffer} {offset : ℕ}

/-- The number of whole groups. -/
abbrev groups (src : Buffer) : ℕ := src.size / bytesYuyvPixels

/-- What is written for the first groups. -/
abbrev written (f : Format) (src : Buffer) (offset : ℕ) : ℕ → List (ℕ × BitVec 8) :=
  blocks offset f.bytes fun k => f.pixels src.start (bytesYuyvPixels * k)

theorem whole_group_iff {t : ℕ} :
    src.size - (0 + bytesYuyvPixels * t) ≥ bytesYuyvPixels ↔ t < groups src := by
  unfold groups bytesYuyvPixels
  omega

theorem groups_le_passes :
    groups src ≤ passes 0 src.size bytesYuyvPixels := by
  unfold groups passes bytesYuyvPixels
  omega

theorem convertStep_group {s : Cursor} {t : ℕ} (ht : t < groups src) :
    convertStep f src dst s (0 + bytesYuyvPixels * t) =
      if s.count + f.ahead < dst.size then
        some { count := s.count + f.bytes
               writes := s.writes ++ block s.count (f.pixels src.start (bytesYuyvPixels * t)) }
      else none := by
  unfold convertStep
  rw [if_pos (whole_group_iff.mpr ht), Nat.zero_add]

theorem convertStep_rest {s : Cursor} {t : ℕ} (ht : ¬ t < groups src) :
    convertStep f src dst s (0 + bytesYuyvPixels * t) = some s := by
  unfold convertStep
  rw [if_neg (mt whole_group_iff.mp ht)]

/-- The loop after its first `t` passes, as long as they are for whole groups. -/
theorem convert_groups {t : ℕ} (ht : t ≤ groups src) :
    ((List.range t).map fun j => 0 + bytesYuyvPixels * j).foldlM (convertStep f src dst)
        { count := offset, writes := [] } =
      if ∀ k < t, offset + f.bytes * k + f.ahead < dst.size then
        some { count := offset + f.bytes * t, writes := written f src offset t }
      else none := by
  induction t with
  | zero =>
    rw [if_pos fun k hk => absurd hk (Nat.not_lt_zero k)]
    rfl
  | succ t ih =>
    rw [List.range_succ, List.map_append, List.foldlM_append, ih (by omega)]
    by_cases h : ∀ k < t, offset + f.bytes * k + f.ahead < dst.size
    · rw [if_pos h]
      show (convertStep f src dst _ (0 + bytesYuyvPixels * t) >>= pure) = _
      rw [bind_pure, convertStep_group (by omega)]
      dsimp only
      by_cases hlast : offset + f.bytes * t + f.ahead < dst.size
      · rw [if_pos hlast, if_pos fun k hk => ?_, written, blocks_succ, Nat.mul_succ,
          Nat.add_assoc]
        obtain hk | rfl := Nat.lt_succ_iff_lt_or_eq.mp hk
        · exact h k hk
        · exact hlast
      · rw [if_neg hlast, if_neg fun h' => hlast (h' t (Nat.lt_succ_self t))]
    · rw [if_neg h, if_neg fun h' => h fun k hk => h' k (Nat.lt_succ_of_lt hk)]
      rfl

theorem convert_passes {t : ℕ} (ht : groups src ≤ t) :
    ((List.range t).map fun j => 0 + bytesYuyvPixels * j).foldlM (convertStep f src dst)
        { count := offset, writes := [] } =
      if ∀ k < groups src, offset + f.bytes * k + f.ahead < dst.size then
        some { count := offset + f.bytes * groups src
               writes := written f src offset (groups src) }
      else none := by
  induction t, ht using Nat.le_induction with
  | base => exact convert_groups (le_refl _)
  | succ t ht ih =>
    rw [List.range_succ, List.map_append, List.foldlM_append, ih]
    split_ifs
    · show (convertStep f src dst _ (0 + bytesYuyvPixels * t) >>= pure) = _
      rw [bind_pure, convertStep_rest (Nat.not_lt.mpr ht)]
    · rfl

theorem convert_eq : convert f src dst offset =
    if ∀ k < groups src, offset + f.bytes * k + f.ahead < dst.size then
      some (written f src offset (groups src)) else none := by
  unfold convert forRange
  rw [convert_passes groups_le_passes]
  split_ifs <;> rfl

/-! ### The contents of the destination -/

/-- The destination has the bytes of one group after the other, and around them what it had. -/
structure Pixelwise (dst : Buffer) (offset bytes : ℕ) (group : ℕ → List (BitVec 8)) (n : ℕ)
    (ws : List (ℕ × BitVec 8)) : Prop where
  group : ∀ k < n,
    (List.range bytes).map (fun d => store dst.start ws (offset + bytes * k + d)) = group k
  rest : ∀ q, ¬ (offset ≤ q ∧ q < offset + bytes * n) →
    ¬ Written ws q ∧ store dst.start ws q = dst.start q

theorem assertions_of_room (hroom : offset + f.bytes * groups src ≤ dst.size) :
    ∀ k < groups src, offset + f.bytes * k + f.ahead < dst.size := by
  intro k hk
  have hle : f.bytes * (k + 1) ≤ f.bytes * groups src := Nat.mul_le_mul_left f.bytes hk
  have hahead := f.ahead_lt
  rw [Nat.mul_succ] at hle
  omega

theorem convert_pixelwise (hroom : offset + f.bytes * groups src ≤ dst.size) :
    ∃ ws, convert f src dst offset = some ws ∧ Pixelwise dst offset f.bytes
      (fun k => f.pixels src.start (bytesYuyvPixels * k)) (groups src) ws := by
  have hlen : ∀ k, (f.pixels src.start (bytesYuyvPixels * k)).length = f.bytes :=
    fun k => f.length_pixels _ _
  refine ⟨_, by rw [convert_eq, if_pos (assertions_of_room hroom)], ⟨fun k hk => ?_, ?_⟩⟩
  · refine List.ext_getElem (by rw [List.length_map, List.length_range, hlen]) fun d _ hd => ?_
    rw [List.getElem_map, List.getElem_range]
    exact store_blocks hlen hk (List.getElem?_eq_getElem hd)
  · intro q hq
    have hnot := mt (written_blocks_iff hlen).mp hq
    exact ⟨hnot, store_of_not_written hnot⟩

/-- Unless an assertion fails, every index written is one of the destination. -/
def InBounds (call : Option (List (ℕ × BitVec 8))) (dst : Buffer) : Prop :=
  ∀ ws, call = some ws → ∀ q, Written ws q → q < dst.size

theorem convert_inBounds_iff : InBounds (convert f src dst offset) dst ↔
    groups src = 0 ∨ dst.size ≤ offset + f.bytes * (groups src - 1) + f.ahead ∨
      offset + f.bytes * groups src ≤ dst.size := by
  have hlen : ∀ k, (f.pixels src.start (bytesYuyvPixels * k)).length = f.bytes :=
    fun k => f.length_pixels _ _
  have hpos : 0 < f.bytes := Nat.zero_lt_of_lt f.ahead_lt
  unfold InBounds
  rw [convert_eq]
  constructor
  · intro h
    by_contra! hne
    obtain ⟨hg, hlast, hroom⟩ := hne
    -- the last assertion is the strongest, and the last byte of the last group is written
    have hass : ∀ k < groups src, offset + f.bytes * k + f.ahead < dst.size := fun k hk => by
      have hle : f.bytes * k ≤ f.bytes * (groups src - 1) := Nat.mul_le_mul_left _ (by omega)
      omega
    have hall : f.bytes * 1 ≤ f.bytes * groups src := Nat.mul_le_mul_left _ (by omega)
    have := h _ (if_pos hass) (offset + f.bytes * groups src - 1)
      ((written_blocks_iff hlen).mpr (by omega))
    omega
  · rintro hcase ws hws q hq
    split_ifs at hws with hass
    obtain rfl := Option.some.inj hws
    obtain ⟨hle, hlt⟩ := (written_blocks_iff hlen).mp hq
    obtain hg | hlast | hroom := hcase
    · rw [hg, Nat.mul_zero] at hlt
      omega
    · have hg : groups src ≠ 0 := fun hg => by rw [hg, Nat.mul_zero] at hlt; omega
      have := hass (groups src - 1) (by omega)
      omega
    · omega

end Convert

variable (src dst : Buffer) (offset : ℕ)

/-- **Both conversions are pixelwise.** -/
theorem pixelwise :
    (offset + 6 * (src.size / 4) ≤ dst.size →
      ∃ ws, yuv422torgb888 src dst offset = some ws ∧ Pixelwise dst offset 6
        (fun k => yuv2rgb (src.start (4 * k)).toNat (src.start (4 * k + 1)).toNat
            (src.start (4 * k + 3)).toNat ++
          yuv2rgb (src.start (4 * k + 2)).toNat (src.start (4 * k + 1)).toNat
            (src.start (4 * k + 3)).toNat) (src.size / 4) ws) ∧
    (offset + 2 * (src.size / 4) ≤ dst.size →
      ∃ ws, yuv422toG8 src dst offset = some ws ∧ Pixelwise dst offset 2
        (fun k => [src.start (4 * k), src.start (4 * k + 2)]) (src.size / 4) ws) := by
  refine ⟨fun hroom => convert_pixelwise (f := rgb888) hroom, fun hroom => ?_⟩
  obtain ⟨ws, hws, hpix⟩ := convert_pixelwise (f := g8)
    (show offset + g8.bytes * groups src ≤ dst.size from hroom)
  refine ⟨ws, hws, ⟨fun k hk => ?_, hpix.rest⟩⟩
  refine (hpix.group k hk).trans ?_
  show [yuv2grey _, yuv2grey _] = _
  rw [yuv2grey_toNat, yuv2grey_toNat]

theorem store_yuv422toG8 (hroom : 2 * (src.size / 4) ≤ dst.size) :
    ∃ ws, yuv422toG8 src dst 0 = some ws ∧
      ∀ p < 2 * (src.size / 4), store dst.start ws p = src.start (2 * p) := by
  obtain ⟨ws, hws, hpix⟩ := convert_pixelwise (f := g8)
    (show 0 + g8.bytes * groups src ≤ dst.size from (Nat.zero_add _).trans_le hroom)
  refine ⟨ws, hws, fun p hp => ?_⟩
  have hgroup : [store dst.start ws (0 + 2 * (p / 2) + 0), store dst.start ws (0 + 2 * (p / 2) + 1)]
      = [yuv2grey (src.start (4 * (p / 2))).toNat, yuv2grey (src.start (4 * (p / 2) + 2)).toNat] :=
    hpix.group (p / 2) (show p / 2 < src.size / 4 by omega)
  rw [yuv2grey_toNat, yuv2grey_toNat, List.cons.injEq, List.cons.injEq] at hgroup
  obtain ⟨hfst, hsnd, -⟩ := hgroup
  obtain hp2 | hp2 := Nat.mod_two_eq_zero_or_one p
  · rw [show 0 + 2 * (p / 2) + 0 = p by omega, show 4 * (p / 2) = 2 * p by omega] at hfst
    exact hfst
  · rw [show 0 + 2 * (p / 2) + 1 = p by omega, show 4 * (p / 2) + 2 = 2 * p by omega] at hsnd
    exact hsnd

/-- Two groups and a byte, converted to the end of a grey image of six bytes. -/
theorem pixelwise_two :
    ∃ ws, yuv422toG8 ⟨fun i => .ofNat 8 (10 * i), 9⟩ ⟨fun _ => 255, 6⟩ 2 = some ws ∧
      Pixelwise ⟨fun _ => 255, 6⟩ 2 2
        (fun k => [.ofNat 8 (10 * (4 * k)), .ofNat 8 (10 * (4 * k + 2))]) 2 ws :=
  (pixelwise ⟨fun i => .ofNat 8 (10 * i), 9⟩ ⟨fun _ => 255, 6⟩ 2).2 (by decide)

/-- **When the assertions are a bounds check**: for `yuv422toG8` always, for `yuv422torgb888` unless
the destination ends inside the last group. -/
theorem inBounds_iff :
    (InBounds (yuv422torgb888 src dst offset) dst ↔
      src.size < 4 ∨ dst.size ≤ offset + 6 * (src.size / 4 - 1) ∨
        offset + 6 * (src.size / 4) ≤ dst.size) ∧
    InBounds (yuv422toG8 src dst offset) dst := by
  constructor
  · refine (convert_inBounds_iff (f := rgb888)).trans ?_
    show (src.size / 4 = 0 ∨ dst.size ≤ offset + 6 * (src.size / 4 - 1) + 0 ∨
      offset + 6 * (src.size / 4) ≤ dst.size) ↔ _
    omega
  · refine (convert_inBounds_iff (f := g8)).mpr ?_
    show src.size / 4 = 0 ∨ dst.size ≤ offset + 2 * (src.size / 4 - 1) + 1 ∨
      offset + 2 * (src.size / 4) ≤ dst.size
    omega

/-- One group is converted into a destination of a single byte. -/
theorem not_inBounds : ¬ InBounds (yuv422torgb888 ⟨fun _ => 16, 4⟩ ⟨fun _ => 0, 1⟩ 0)
    ⟨fun _ => 0, 1⟩ := by
  intro h
  have hcall : yuv422torgb888 ⟨fun _ => 16, 4⟩ ⟨fun _ => 0, 1⟩ 0 =
      some (block 0 (rgbPixels (fun _ => 16) 0)) := rfl
  exact absurd (h _ hcall 5 ⟨_, mem_block.mpr ⟨5, rfl, rfl⟩⟩) (by decide)

end Ecen5623.Capture.Transformation
