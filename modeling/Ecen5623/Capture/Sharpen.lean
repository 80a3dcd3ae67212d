import Ecen5623.Capture.Transformation
import Mathlib.Algebra.BigOperators.Intervals
import Mathlib.Algebra.Order.Ring.Rat
import Mathlib.Tactic.Ring

/-! # The two sharpening filters

`sharpen` and `y_channel_sharpen` of `sharpen.c`, with the resolution and the filter as parameters
and sums in exact arithmetic. Both are modelled by their writes, `none` if an assertion fails: the
passes of the outer loops in turn (`Pixel`, `YuyvPixel`), each with the indices that its inner loops
read.

`sharpen` leaves the last interior row and column out, and for a colour image it takes both the
indices and the position in a wrong unit, so at no resolution is it a convolution
(`not_convolves`). `y_channel_sharpen` reads nine samples of one line instead of a box and writes to
the corner of the box instead of its centre. It agrees with the conversion followed by `sharpen` on
the images for which both make no difference (`sameBytes_iff`). -/

namespace Ecen5623.Capture.Sharpen

open Ecen5623.Library Ecen5623.Capture.Transformation

/-- `SHARPEN_ROWS`. -/
abbrev sharpenRows : ℕ := 3

/-- `SHARPEN_COLS`. -/
abbrev sharpenCols : ℕ := 3

/-- `SHARPEN_SIZE`. -/
abbrev sharpenSize : ℕ := sharpenRows * sharpenCols

/-- `FILTER_RANGE`. -/
abbrev filterRange : ℕ := sharpenCols / 2

/-- `YUYV_SAMPLE`. -/
abbrev yuyvSample : ℕ := 2

/-- `X_RES`, `Y_RES`, `BYTES_PER_PIXEL` and `SHARPEN_FLT`. -/
structure Setup where
  xRes : ℕ
  yRes : ℕ
  bytesPerPixel : ℕ
  sharpenFlt : ℕ → ℚ

/-- `_I`. -/
def sideCoefficient : ℚ := -4 / 8

/-- `SHARPEN_WIKIPEDIA_EXAMPLE`. -/
def sharpenWikipediaExample (n : ℕ) : ℚ :=
  [0, sideCoefficient, 0, sideCoefficient, 5, sideCoefficient, 0, sideCoefficient, 0].getD n 0

/-- `SHARPEN_PROFESSOR_EXAMPLE`. -/
def sharpenProfessorExample (n : ℕ) : ℚ :=
  [sideCoefficient, sideCoefficient, sideCoefficient, sideCoefficient, 5, sideCoefficient,
    sideCoefficient, sideCoefficient, sideCoefficient].getD n 0

/-! ### One pixel -/

/-- The clamps. -/
def clamp (rowSum : ℚ) : ℚ :=
  let rowSum := if rowSum < 0 then 0 else rowSum
  if rowSum > 255 then 255 else rowSum

/-- The conversion to `uint8_t`. -/
def toByte (rowSum : ℚ) : BitVec 8 := .ofInt 8 (rowSum.num.tdiv rowSum.den)

/-- The body of the inner loops: `row_sum` and `filter_pos`. -/
def filterStep (flt : ℕ → ℚ) (src : Buffer) (s : ℚ × ℕ) (index : ℕ) : Option (ℚ × ℕ) :=
  if index < src.size ∧ s.2 < sharpenSize then
    some (s.1 + flt s.2 * (src.start index).toNat, s.2 + 1)
  else none

def rowSum (flt : ℕ → ℚ) (src : Buffer) (indices : List ℕ) : Option ℚ :=
  (indices.foldlM (filterStep flt src) (0, 0)).map Prod.fst

/-- A pass of the outer loops: what is written and where. -/
def writePixel (flt : ℕ → ℚ) (src dst : Buffer) (indices : List ℕ) (pos : ℕ) :
    Option (ℕ × BitVec 8) :=
  (rowSum flt src indices).bind fun sum =>
    if pos < dst.size then some (pos, toByte (clamp sum)) else none

theorem foldlM_filterStep {flt : ℕ → ℚ} {src : Buffer} {a : ℕ → ℕ} {n : ℕ} (hn : n ≤ sharpenSize)
    (ha : ∀ m < n, a m < src.size) :
    ((List.range n).map a).foldlM (filterStep flt src) (0, 0) =
      some (∑ m ∈ Finset.range n, flt m * (src.start (a m)).toNat, n) := by
  induction n with
  | zero => rfl
  | succ n ih =>
    rw [List.range_succ, List.map_append, List.foldlM_append,
      ih (by omega) fun m hm => ha m (by omega), Finset.sum_range_succ]
    show (filterStep flt src (_, n) (a n) >>= pure) = _
    unfold filterStep
    rw [if_pos ⟨ha n n.lt_succ_self, hn⟩]
    rfl

theorem rowSum_eq {flt : ℕ → ℚ} {src : Buffer} {a : ℕ → ℕ} (ha : ∀ m < 9, a m < src.size) :
    rowSum flt src ((List.range 9).map a) =
      some (∑ m ∈ Finset.range 9, flt m * (src.start (a m)).toNat) := by
  unfold rowSum
  rw [foldlM_filterStep (le_refl 9) ha]
  rfl

theorem writePixel_eq {flt : ℕ → ℚ} {src dst : Buffer} {a : ℕ → ℕ} {pos : ℕ}
    (ha : ∀ m < 9, a m < src.size) (hpos : pos < dst.size) :
    writePixel flt src dst ((List.range 9).map a) pos =
      some (pos, toByte (clamp (∑ m ∈ Finset.range 9, flt m * (src.start (a m)).toNat))) := by
  unfold writePixel
  rw [rowSum_eq ha]
  exact if_pos hpos

theorem writePixel_fst {flt : ℕ → ℚ} {src dst : Buffer} {indices : List ℕ} {pos : ℕ}
    {w : ℕ × BitVec 8} (h : writePixel flt src dst indices pos = some w) : w.1 = pos := by
  obtain ⟨sum, -, hw⟩ := Option.bind_eq_some_iff.mp h
  split_ifs at hw
  exact (congrArg Prod.fst (Option.some.inj hw)).symm

/-! ### The plain filter -/

/-- The counters of the outer loops of `sharpen`. -/
structure Pixel where
  pp : ℕ
  i : ℕ
  j : ℕ

/-- The passes of the outer loops. -/
def sharpenPixels (s : Setup) : List Pixel :=
  (forRange 0 s.bytesPerPixel 1).flatMap fun pp =>
    (forRange 0 (s.yRes - sharpenRows) 1).flatMap fun i =>
      (forRange pp ((s.xRes - sharpenCols) * s.bytesPerPixel) s.bytesPerPixel).map fun j =>
        { pp := pp, i := i, j := j }

/-- `index` in each pass of the inner loops. -/
def Pixel.indices (s : Setup) (p : Pixel) : List ℕ :=
  (forRange 0 sharpenRows 1).flatMap fun k =>
    (forRange p.pp (sharpenCols * s.bytesPerPixel) s.bytesPerPixel).map fun l =>
      (k * s.xRes + l) + (p.i * s.xRes) + p.j

def Pixel.pos (s : Setup) (offset : ℕ) (p : Pixel) : ℕ :=
  ((p.i + filterRange) * s.xRes) * s.bytesPerPixel + (p.j + filterRange) * s.bytesPerPixel +
    p.pp + offset

/-- `sharpen`. -/
def sharpen (s : Setup) (src dst : Buffer) (offset : ℕ) : Option (List (ℕ × BitVec 8)) :=
  (sharpenPixels s).mapM fun p =>
    writePixel s.sharpenFlt src dst (p.indices s) (p.pos s offset)

section Sharpen

variable {s : Setup} {src dst : Buffer} {offset : ℕ} {ws : List (ℕ × BitVec 8)}

theorem of_mem_sharpenPixels {p : Pixel} (hbpp : 0 < s.bytesPerPixel)
    (h : p ∈ sharpenPixels s) : p.pp < s.bytesPerPixel ∧ p.i < s.yRes - 3 ∧
      ∃ t, p.pp + s.bytesPerPixel * t = p.j ∧ p.j < (s.xRes - 3) * s.bytesPerPixel := by
  unfold sharpenPixels at h
  simp only [List.mem_flatMap, List.mem_map, mem_forRange_one, mem_forRange hbpp] at h
  obtain ⟨pp, hpp, i, hi, j, hj, rfl⟩ := h
  exact ⟨hpp, hi, hj⟩

theorem exists_of_written_sharpen (h : sharpen s src dst offset = some ws) {q : ℕ}
    (hq : Written ws q) : ∃ p ∈ sharpenPixels s, (p.i + 1) * s.xRes * s.bytesPerPixel +
      (p.j + 1) * s.bytesPerPixel + p.pp + offset = q := by
  obtain ⟨v, hv⟩ := hq
  obtain ⟨p, hp, hw⟩ := exists_of_mem_mapM h hv
  exact ⟨p, hp, (writePixel_fst hw).symm⟩

/-- The byte of a channel at a row and a column. -/
def Setup.byteAt (s : Setup) (r c ch : ℕ) : ℕ := (r * s.xRes + c) * s.bytesPerPixel + ch

/-- The weighted sum over the neighbourhood in one channel. -/
def convolution (s : Setup) (src : Buffer) (r c ch : ℕ) : ℚ :=
  ∑ k ∈ Finset.range 3, ∑ l ∈ Finset.range 3,
    s.sharpenFlt (3 * k + l) * (src.start (s.byteAt (r + k - 1) (c + l - 1) ch)).toNat

/-- The writes are those of a convolution of the interior. -/
structure Convolves (s : Setup) (src dst : Buffer) (ws : List (ℕ × BitVec 8)) : Prop where
  interior : ∀ r c ch, 1 ≤ r → r ≤ s.yRes - 2 → 1 ≤ c → c ≤ s.xRes - 2 → ch < s.bytesPerPixel →
    Written ws (s.byteAt r c ch) ∧
      store dst.start ws (s.byteAt r c ch) = toByte (clamp (convolution s src r c ch))
  border : ∀ r c ch, r < s.yRes → c < s.xRes → ch < s.bytesPerPixel →
    (r = 0 ∨ r = s.yRes - 1 ∨ c = 0 ∨ c = s.xRes - 1) → ¬ Written ws (s.byteAt r c ch)

theorem not_written_grey (hx : 3 ≤ s.xRes) (hbpp : s.bytesPerPixel = 1)
    (h : sharpen s src dst 0 = some ws) :
    ¬ Written ws (s.byteAt (s.yRes - 2) (s.xRes - 2) 0) := by
  intro hw
  obtain ⟨p, hp, hpos⟩ := exists_of_written_sharpen h hw
  obtain ⟨hpp, hi, t, -, hlt⟩ := of_mem_sharpenPixels (by omega) hp
  unfold Setup.byteAt at hpos
  rw [hbpp] at hpp hpos hlt
  simp only [Nat.mul_one, Nat.add_zero] at hpos hlt
  have hrow : (p.i + 1) * s.xRes + s.xRes ≤ (s.yRes - 2) * s.xRes := by
    rw [← Nat.succ_mul]
    exact Nat.mul_le_mul_right _ (by omega)
  have hj : p.j + 3 < s.xRes := by omega
  omega

theorem not_written_rgb (hbpp : s.bytesPerPixel = 3) (h : sharpen s src dst 0 = some ws) :
    ¬ Written ws (s.byteAt 1 1 1) := by
  intro hw
  obtain ⟨p, hp, hpos⟩ := exists_of_written_sharpen h hw
  obtain ⟨hpp, -, t, ht, -⟩ := of_mem_sharpenPixels (by omega) hp
  unfold Setup.byteAt at hpos
  rw [hbpp] at hpp ht hpos
  -- the position is `pp` modulo three, and `pp` has been added to `j` already
  have hle : s.xRes ≤ (p.i + 1) * s.xRes := Nat.le_mul_of_pos_left _ p.i.succ_pos
  omega

/-- **`sharpen` is never a convolution.** -/
theorem not_convolves (hx : 3 ≤ s.xRes) (hy : 3 ≤ s.yRes)
    (hbpp : s.bytesPerPixel = 1 ∨ s.bytesPerPixel = 3) :
    ¬ ∃ ws, sharpen s src dst 0 = some ws ∧ Convolves s src dst ws := by
  rintro ⟨ws, hws, hconv⟩
  obtain hbpp | hbpp := hbpp
  · exact not_written_grey hx hbpp hws (hconv.interior (s.yRes - 2) (s.xRes - 2) 0 (by omega)
      (le_refl _) (by omega) (le_refl _) (by omega)).1
  · exact not_written_rgb hbpp hws
      (hconv.interior 1 1 1 (le_refl 1) (by omega) (le_refl 1) (by omega) (by omega)).1

end Sharpen

/-- The resolution and the filter of the program. -/
theorem not_convolves_vga :
    ¬ ∃ ws, sharpen ⟨640, 480, 3, sharpenProfessorExample⟩ ⟨fun _ => 16, 921600⟩
        ⟨fun _ => 0, 921600⟩ 0 = some ws ∧
      Convolves ⟨640, 480, 3, sharpenProfessorExample⟩ ⟨fun _ => 16, 921600⟩
        ⟨fun _ => 0, 921600⟩ ws :=
  not_convolves (by decide) (by decide) (.inr rfl)

/-- Of the four interior pixels of a grey image only the first one is written. -/
theorem sharpen_four :
    sharpen ⟨4, 4, 1, sharpenProfessorExample⟩ ⟨fun _ => 100, 16⟩ ⟨fun _ => 0, 16⟩ 0 =
        some [(5, 100)] ∧
      ¬ Convolves ⟨4, 4, 1, sharpenProfessorExample⟩ ⟨fun _ => 100, 16⟩ ⟨fun _ => 0, 16⟩
        [(5, 100)] := by
  refine ⟨by decide +kernel, fun h => ?_⟩
  obtain ⟨⟨v, hv⟩, -⟩ := h.interior 2 2 0 (by decide) (by decide) (by decide) (by decide)
    (by decide)
  have h10 := congrArg Prod.fst (List.mem_singleton.mp hv)
  exact absurd h10 (show (10 : ℕ) ≠ 5 by decide)

/-! ### The filter on the Y channel -/

/-- The counters of the outer loops of `y_channel_sharpen`. -/
structure YuyvPixel where
  i : ℕ
  dI : ℕ
  j : ℕ
  dJ : ℕ

/-- The passes of the outer loops. -/
def yChannelPixels (s : Setup) : List YuyvPixel :=
  (forRangeWith (s.xRes * (s.yRes - sharpenRows) * yuyvSample) (s.xRes * yuyvSample)
    s.xRes).flatMap fun row =>
      (forRangeWith ((s.xRes - sharpenCols) * yuyvSample) yuyvSample 1).map fun col =>
        { i := row.1, dI := row.2, j := col.1, dJ := col.2 }

/-- `index` in each pass of the inner loops. -/
def YuyvPixel.indices (p : YuyvPixel) : List ℕ :=
  (forRange 0 (sharpenCols * sharpenRows * yuyvSample) (sharpenRows * yuyvSample)).flatMap fun k =>
    (forRange 0 (sharpenCols * yuyvSample) yuyvSample).map fun l => p.i + p.j + k + l

def YuyvPixel.pos (offset : ℕ) (p : YuyvPixel) : ℕ := p.dI + p.dJ + offset

/-- `y_channel_sharpen`. The test of `index` after its assertion never fails. -/
def yChannelSharpen (s : Setup) (src dst : Buffer) (offset : ℕ) :
    Option (List (ℕ × BitVec 8)) :=
  (yChannelPixels s).mapM fun p => writePixel s.sharpenFlt src dst p.indices (p.pos offset)

section YChannel

variable {s : Setup} {src dst : Buffer}

theorem indices_sharpen (hbpp : s.bytesPerPixel = 1) {i j : ℕ} :
    (Pixel.mk 0 i j).indices s =
      (List.range 9).map fun m => (m / 3 * s.xRes + m % 3) + i * s.xRes + j := by
  unfold Pixel.indices
  rw [hbpp, show forRange 0 (sharpenCols * 1) 1 = [0, 1, 2] from rfl,
    show forRange 0 sharpenRows 1 = [0, 1, 2] from rfl]
  rfl

theorem indices_yChannel {p : YuyvPixel} :
    p.indices = (List.range 9).map fun m => p.i + p.j + 2 * m := by
  unfold YuyvPixel.indices
  rfl

/-- The weighted sum over the box of samples at a row and a column. -/
def boxSum (s : Setup) (luma : ℕ → BitVec 8) (r c : ℕ) : ℚ :=
  ∑ m ∈ Finset.range 9, s.sharpenFlt m * (luma ((r + m / 3) * s.xRes + (c + m % 3))).toNat

/-- The weighted sum over nine successive samples. -/
def lineSum (s : Setup) (luma : ℕ → BitVec 8) (r c : ℕ) : ℚ :=
  ∑ m ∈ Finset.range 9, s.sharpenFlt m * (luma (r * s.xRes + c + m)).toNat

theorem box_lt (hx : 4 ≤ s.xRes) {r c m : ℕ} (hr : r < s.yRes - 3) (hc : c < s.xRes - 3)
    (hm : m < 9) : (r + m / 3) * s.xRes + (c + m % 3) + 1 < s.xRes * s.yRes := by
  have hrow : (r + m / 3 + 2) * s.xRes ≤ s.yRes * s.xRes := Nat.mul_le_mul_right _ (by omega)
  rw [Nat.add_mul, Nat.mul_comm s.yRes] at hrow
  omega

theorem sharpenPixels_grey (hbpp : s.bytesPerPixel = 1) : sharpenPixels s =
    (List.range (s.yRes - 3)).flatMap fun r =>
      (List.range (s.xRes - 3)).map fun c => { pp := 0, i := r, j := c } := by
  unfold sharpenPixels
  rw [hbpp]
  simp only [forRange_one, Nat.mul_one, List.range_one, List.flatMap_singleton]

theorem sharpen_grey (hx : 4 ≤ s.xRes) (hbpp : s.bytesPerPixel = 1)
    (hsrc : src.size = s.xRes * s.yRes) (hdst : dst.size = s.xRes * s.yRes) :
    sharpen s src dst 0 = some (grid s.xRes 1 1 (s.yRes - 3) (s.xRes - 3) fun r c =>
      toByte (clamp (boxSum s src.start r c))) := by
  unfold sharpen
  rw [sharpenPixels_grey hbpp, mapM_eq_some (g := fun p : Pixel =>
    (s.xRes * (1 + p.i) + (1 + p.j), toByte (clamp (boxSum s src.start p.i p.j))))]
  · rw [List.map_flatMap]
    simp only [List.map_map]
    rfl
  · intro p hp
    simp only [List.mem_flatMap, List.mem_map, List.mem_range] at hp
    obtain ⟨r, hr, c, hc, rfl⟩ := hp
    have hindex : ∀ m, (m / 3 * s.xRes + m % 3) + r * s.xRes + c =
        (r + m / 3) * s.xRes + (c + m % 3) := fun m => by
      rw [Nat.add_mul]
      omega
    have hpos : Pixel.pos s 0 ⟨0, r, c⟩ = s.xRes * (1 + r) + (1 + c) := by
      show (r + 1) * s.xRes * s.bytesPerPixel + (c + 1) * s.bytesPerPixel + 0 + 0 = _
      rw [hbpp, Nat.mul_one, Nat.mul_one, Nat.mul_comm, Nat.add_comm r, Nat.add_comm c,
        Nat.add_zero]
    rw [indices_sharpen hbpp, writePixel_eq, hpos]
    · simp only [hindex]
      rfl
    · intro m hm
      rw [hindex, hsrc]
      exact Nat.lt_of_succ_lt (box_lt hx hr hc hm)
    · -- the centre of the box
      have := box_lt hx hr hc (show 4 < 9 by decide)
      rw [hpos, hdst, Nat.mul_comm s.xRes, Nat.add_comm 1 r, Nat.add_comm 1 c]
      exact Nat.lt_of_succ_lt this

theorem yChannelPixels_eq (hx : 4 ≤ s.xRes) : yChannelPixels s =
    (List.range (s.yRes - 3)).flatMap fun r => (List.range (s.xRes - 3)).map fun c =>
      { i := s.xRes * 2 * r, dI := s.xRes * r, j := 2 * c, dJ := 1 * c } := by
  have hrows : forRangeWith (s.xRes * (s.yRes - 3) * 2) (s.xRes * 2) s.xRes =
      (List.range (s.yRes - 3)).map fun r => (s.xRes * 2 * r, s.xRes * r) :=
    forRangeWith_eq (by omega) (Nat.mul_right_comm _ _ _)
  have hcols : forRangeWith ((s.xRes - 3) * 2) 2 1 =
      (List.range (s.xRes - 3)).map fun c => (2 * c, 1 * c) :=
    forRangeWith_eq Nat.two_pos (Nat.mul_comm _ _)
  unfold yChannelPixels
  rw [hrows, hcols]
  simp only [List.flatMap_map, List.map_map]
  rfl

theorem of_mem_yChannelPixels (hx : 4 ≤ s.xRes) {p : YuyvPixel} (hp : p ∈ yChannelPixels s) :
    ∃ r c, c < s.xRes - 3 ∧ r * s.xRes + 3 * s.xRes + 1 * s.xRes ≤ s.xRes * s.yRes ∧
      p = { i := s.xRes * 2 * r, dI := s.xRes * r, j := 2 * c, dJ := 1 * c } := by
  rw [yChannelPixels_eq hx] at hp
  simp only [List.mem_flatMap, List.mem_map, List.mem_range] at hp
  obtain ⟨r, hr, c, hc, rfl⟩ := hp
  have hrow : (r + 3 + 1) * s.xRes ≤ s.yRes * s.xRes := Nat.mul_le_mul_right _ (by omega)
  rw [Nat.add_mul, Nat.add_mul, Nat.mul_comm s.yRes] at hrow
  exact ⟨r, c, hc, hrow, rfl⟩

theorem yChannelSharpen_eq (hx : 4 ≤ s.xRes) (hsrc : src.size = 2 * s.xRes * s.yRes)
    (hdst : dst.size = s.xRes * s.yRes) :
    yChannelSharpen s src dst 0 = some (grid s.xRes 0 0 (s.yRes - 3) (s.xRes - 3) fun r c =>
      toByte (clamp (lineSum s (fun p => src.start (2 * p)) r c))) := by
  have hindex : ∀ r c m, s.xRes * 2 * r + 2 * c + 2 * m = 2 * (r * s.xRes + c + m) :=
    fun r c m => by ring
  unfold yChannelSharpen
  rw [yChannelPixels_eq hx, mapM_eq_some (g := fun p : YuyvPixel => (p.dI + p.dJ, toByte (clamp
    (∑ m ∈ Finset.range 9, s.sharpenFlt m * (src.start (p.i + p.j + 2 * m)).toNat))))]
  · rw [List.map_flatMap]
    simp only [List.map_map, Function.comp_def, hindex, Nat.one_mul]
    unfold grid lineSum
    simp only [Nat.zero_add]
  · intro p hp
    rw [← yChannelPixels_eq hx] at hp
    obtain ⟨r, c, hc, hrow, rfl⟩ := of_mem_yChannelPixels hx hp
    rw [indices_yChannel, writePixel_eq]
    · rfl
    · -- nine samples from one of the rows before the last three
      intro m hm
      rw [hindex, hsrc, Nat.mul_assoc]
      omega
    · show s.xRes * r + 1 * c + 0 < dst.size
      rw [hdst, Nat.mul_comm s.xRes r]
      omega

/-! ### The two ways to a sharp grey image -/

/-- `yuv422toG8` to `tmp` and `sharpen` from there. -/
def twoStep (s : Setup) (src tmp dst : Buffer) : Option (List (ℕ × BitVec 8)) :=
  (yuv422toG8 src tmp 0).bind fun ws => sharpen s { tmp with start := store tmp.start ws } dst 0

/-- A destination for a grey image, all zero. -/
def zeroed (s : Setup) : Buffer := { start := fun _ => 0, size := s.xRes * s.yRes }

/-- A zeroed destination has the same bytes either way. -/
def SameBytes (s : Setup) (src : Buffer) : Prop :=
  ∃ ws ws', yChannelSharpen s src (zeroed s) 0 = some ws ∧
    twoStep s src (zeroed s) (zeroed s) = some ws' ∧
    ∀ q < (zeroed s).size, store (zeroed s).start ws q = store (zeroed s).start ws' q

/-- The filter makes of each line what it makes of the boxes of which the line's samples are the
centres, and black where only one of them is defined. -/
structure LinesLikeBoxes (s : Setup) (luma : ℕ → BitVec 8) : Prop where
  first : ∀ r c, r < s.yRes - 3 → c < s.xRes - 3 → (r = 0 ∨ c = 0) →
    toByte (clamp (lineSum s luma r c)) = 0
  inner : ∀ r c, r + 1 < s.yRes - 3 → c + 1 < s.xRes - 3 →
    toByte (clamp (lineSum s luma (r + 1) (c + 1))) = toByte (clamp (boxSum s luma r c))
  last : ∀ r c, r < s.yRes - 3 → c < s.xRes - 3 → (r = s.yRes - 4 ∨ c = s.xRes - 4) →
    toByte (clamp (boxSum s luma r c)) = 0

theorem twoStep_eq (hx : 4 ≤ s.xRes) (hbpp : s.bytesPerPixel = 1)
    (hsrc : src.size = 2 * s.xRes * s.yRes) {tmp : Buffer} (htmp : tmp.size = s.xRes * s.yRes)
    (hdst : dst.size = s.xRes * s.yRes) : twoStep s src tmp dst =
      some (grid s.xRes 1 1 (s.yRes - 3) (s.xRes - 3) fun r c =>
        toByte (clamp (boxSum s (fun p => src.start (2 * p)) r c))) := by
  rw [Nat.mul_assoc] at hsrc
  obtain ⟨ws, hws, hluma⟩ := store_yuv422toG8 src tmp (by omega)
  have hsharpen : sharpen s { tmp with start := store tmp.start ws } dst 0 = _ :=
    sharpen_grey hx hbpp htmp hdst
  unfold twoStep
  rw [hws]
  refine hsharpen.trans (congrArg some (grid_congr fun r hr c hc => ?_))
  -- a box ends before the last pixel, the only one the conversion may leave out
  unfold boxSum
  dsimp only
  congr 2
  refine Finset.sum_congr rfl fun m hm => ?_
  have := box_lt hx hr hc (Finset.mem_range.mp hm)
  rw [hluma _ (by omega)]

/-- The byte of a pixel that the fused filter leaves. -/
def fusedByte (s : Setup) (luma : ℕ → BitVec 8) (r c : ℕ) : BitVec 8 :=
  if r < s.yRes - 3 ∧ c < s.xRes - 3 then toByte (clamp (lineSum s luma r c)) else 0

/-- The byte of a pixel that the filter leaves after the conversion. -/
def twoStepByte (s : Setup) (luma : ℕ → BitVec 8) (r c : ℕ) : BitVec 8 :=
  if (1 ≤ r ∧ r < s.yRes - 2) ∧ 1 ≤ c ∧ c < s.xRes - 2 then
    toByte (clamp (boxSum s luma (r - 1) (c - 1)))
  else 0

theorem store_fused (hx : 4 ≤ s.xRes) {luma : ℕ → BitVec 8} {r c : ℕ} (hc : c < s.xRes) :
    store (zeroed s).start (grid s.xRes 0 0 (s.yRes - 3) (s.xRes - 3) fun r c =>
      toByte (clamp (lineSum s luma r c))) (s.xRes * r + c) = fusedByte s luma r c := by
  unfold fusedByte
  rw [store_grid (by omega) hc]
  exact if_congr (by omega) rfl rfl

theorem store_twoStep (hx : 4 ≤ s.xRes) (hy : 4 ≤ s.yRes) {luma : ℕ → BitVec 8} {r c : ℕ}
    (hc : c < s.xRes) :
    store (zeroed s).start (grid s.xRes 1 1 (s.yRes - 3) (s.xRes - 3) fun r c =>
      toByte (clamp (boxSum s luma r c))) (s.xRes * r + c) = twoStepByte s luma r c := by
  unfold twoStepByte
  rw [store_grid (by omega) hc]
  exact if_congr (by omega) rfl rfl

theorem sameBytes_iff_pixels (hx : 4 ≤ s.xRes) (hy : 4 ≤ s.yRes) (hbpp : s.bytesPerPixel = 1)
    (hsrc : src.size = 2 * s.xRes * s.yRes) : SameBytes s src ↔
      ∀ r c, r < s.yRes → c < s.xRes → fusedByte s (fun p => src.start (2 * p)) r c =
        twoStepByte s (fun p => src.start (2 * p)) r c := by
  have hfused : yChannelSharpen s src (zeroed s) 0 = _ := yChannelSharpen_eq hx hsrc rfl
  have htwo : twoStep s src (zeroed s) (zeroed s) = _ := twoStep_eq hx hbpp hsrc rfl rfl
  constructor
  · rintro ⟨ws, ws', hws, hws', h⟩ r c hr hc
    obtain rfl := Option.some.inj (hfused.symm.trans hws)
    obtain rfl := Option.some.inj (htwo.symm.trans hws')
    have hlt : s.xRes * (r + 1) ≤ s.xRes * s.yRes := Nat.mul_le_mul_left _ hr
    rw [Nat.mul_succ] at hlt
    have := h (s.xRes * r + c) (show s.xRes * r + c < s.xRes * s.yRes by omega)
    rwa [store_fused hx hc, store_twoStep hx hy hc] at this
  · intro h
    refine ⟨_, _, hfused, htwo, fun q hq => ?_⟩
    have hc : q % s.xRes < s.xRes := Nat.mod_lt q (by omega)
    have hr : q / s.xRes < s.yRes := (Nat.div_lt_iff_lt_mul (by omega)).mpr (by
      rw [Nat.mul_comm]
      exact hq)
    rw [← Nat.div_add_mod q s.xRes]
    refine (store_fused hx hc).trans ?_
    rw [h _ _ hr hc]
    exact (store_twoStep hx hy hc).symm

/-- **When the fused filter is the filter after the conversion.** -/
theorem sameBytes_iff (hx : 4 ≤ s.xRes) (hy : 4 ≤ s.yRes) (hbpp : s.bytesPerPixel = 1)
    (hsrc : src.size = 2 * s.xRes * s.yRes) :
    SameBytes s src ↔ LinesLikeBoxes s fun p => src.start (2 * p) := by
  rw [sameBytes_iff_pixels hx hy hbpp hsrc]
  unfold fusedByte twoStepByte
  constructor
  · intro h
    refine ⟨fun r c hr hc h0 => ?_, fun r c hr hc => ?_, fun r c hr hc h4 => ?_⟩
    · have := h r c (by omega) (by omega)
      rwa [if_pos (by omega), if_neg (by omega)] at this
    · have := h (r + 1) (c + 1) (by omega) (by omega)
      rwa [if_pos (by omega), if_pos (by omega)] at this
    · have := h (r + 1) (c + 1) (by omega) (by omega)
      rw [if_neg (by omega), if_pos (by omega)] at this
      exact this.symm
  · intro h r c hr hc
    split_ifs with h1 h2 h2
    · have := h.inner (r - 1) (c - 1) (by omega) (by omega)
      rwa [Nat.sub_add_cancel h2.1.1, Nat.sub_add_cancel h2.2.1] at this
    · exact h.first r c h1.1 h1.2 (by omega)
    · exact (h.last (r - 1) (c - 1) (by omega) (by omega) (by omega)).symm
    · rfl

end YChannel

/-- The smallest frame for which both filters write anything, all black. -/
theorem sameBytes_iff_four : SameBytes ⟨4, 4, 1, sharpenProfessorExample⟩ ⟨fun _ => 0, 32⟩ ↔
    LinesLikeBoxes ⟨4, 4, 1, sharpenProfessorExample⟩ fun _ => 0 :=
  sameBytes_iff (s := ⟨4, 4, 1, sharpenProfessorExample⟩) (by decide) (by decide) rfl rfl

/-- For a frame of one grey the pixel that is written is at the corner for the fused filter and at
the centre for the other, with either matrix. -/
theorem not_sameBytes :
    yChannelSharpen ⟨4, 4, 1, sharpenProfessorExample⟩ ⟨fun _ => 100, 32⟩ ⟨fun _ => 0, 16⟩ 0 =
        some [(0, 100)] ∧
      twoStep ⟨4, 4, 1, sharpenProfessorExample⟩ ⟨fun _ => 100, 32⟩ ⟨fun _ => 0, 16⟩
        ⟨fun _ => 0, 16⟩ = some [(5, 100)] ∧
      ¬ SameBytes ⟨4, 4, 1, sharpenProfessorExample⟩ ⟨fun _ => 100, 32⟩ ∧
      ¬ SameBytes ⟨4, 4, 1, sharpenWikipediaExample⟩ ⟨fun _ => 100, 32⟩ := by
  have hprof : yChannelSharpen ⟨4, 4, 1, sharpenProfessorExample⟩ ⟨fun _ => 100, 32⟩
      ⟨fun _ => 0, 16⟩ 0 = some [(0, 100)] := by decide +kernel
  have hprof' : twoStep ⟨4, 4, 1, sharpenProfessorExample⟩ ⟨fun _ => 100, 32⟩ ⟨fun _ => 0, 16⟩
      ⟨fun _ => 0, 16⟩ = some [(5, 100)] := by decide +kernel
  have hwiki : yChannelSharpen ⟨4, 4, 1, sharpenWikipediaExample⟩ ⟨fun _ => 100, 32⟩
      ⟨fun _ => 0, 16⟩ 0 = some [(0, 255)] := by decide +kernel
  have hwiki' : twoStep ⟨4, 4, 1, sharpenWikipediaExample⟩ ⟨fun _ => 100, 32⟩ ⟨fun _ => 0, 16⟩
      ⟨fun _ => 0, 16⟩ = some [(5, 255)] := by decide +kernel
  refine ⟨hprof, hprof', ?_, ?_⟩
  · rintro ⟨ws, ws', h, h', heq⟩
    obtain rfl := Option.some.inj (hprof.symm.trans h)
    obtain rfl := Option.some.inj (hprof'.symm.trans h')
    exact absurd (heq 0 (by decide)) (by decide)
  · rintro ⟨ws, ws', h, h', heq⟩
    obtain rfl := Option.some.inj (hwiki.symm.trans h)
    obtain rfl := Option.some.inj (hwiki'.symm.trans h')
    exact absurd (heq 0 (by decide)) (by decide)

end Ecen5623.Capture.Sharpen
