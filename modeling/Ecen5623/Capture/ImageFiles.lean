import Ecen5623.Clock.LogLines
import Mathlib.Logic.Function.Basic

/-! # The image files

`dump_rgb_raw_buffer` of `dumptools.c` writes the frames into 1800 files, again and again, without
truncating one that is there. With images of one length a file holds the whole of the last image
that went to it (`files_run`); a file that cannot be opened costs its image but leaves no gap. So
`make_timestamps.sh`, which collects the third lines of the files up to the first one missing, and
`timediff.py` after it read the times of the images in the files, in the order of their numbers
(`timestamps_run`). Bytes are characters, and every `write` is complete. -/

namespace Ecen5623.Capture.ImageFiles

open Ecen5623.Library Ecen5623.Clock.TimespecSubtract Ecen5623.Clock.LogLines

/-- The number of files. -/
abbrev numFiles : ℕ := 1800

/-- `frame.%06u.suffix`. -/
def fileName (suffix : List Char) (index : ℕ) : List Char :=
  "frame.".toList ++ (zeroPadded 6 index ++ '.' :: suffix)

/-- `IMAGE_SUFFIX`. -/
def imageSuffix : Capture → List Char
  | .ppm => "ppm".toList
  | .pgm => "pgm".toList

/-- The static `frame_num`, and the files in `./frames`. -/
structure Dumps where
  frameNum : ℕ
  files : List Char → Option (List Char)

/-- A call of `dump_rgb_raw_buffer`: whether the file can be opened, the time it takes, and the
buffer. -/
structure Call where
  opened : Bool
  frameTime : Timespec
  buffer : List Char
  deriving DecidableEq, Repr

/-- What a file holds after `text` has been written from its start on. -/
def overwrite (old text : List Char) : List Char := text ++ old.drop text.length

/-- `dump_rgb_raw_buffer`, `none` if the header is too long for `header_buf`. -/
def dumpRgbRawBuffer (f : Capture) (d : Dumps) (c : Call) : Option Dumps :=
  if c.opened then
    (headerWithTimestamp f c.frameTime).map fun header =>
      let name := fileName (imageSuffix f) d.frameNum
      { frameNum := if d.frameNum + 1 = numFiles then 0 else d.frameNum + 1
        files := Function.update d.files name
          (some (overwrite ((d.files name).getD []) (header ++ c.buffer))) }
  else some d

/-- The files after some calls. -/
def dumps (f : Capture) (files : List Char → Option (List Char)) (cs : List Call) : Option Dumps :=
  cs.foldlM (dumpRgbRawBuffer f) { frameNum := 0, files := files }

/-! ### The script -/

/-- `sed -n 3p`. -/
def thirdLine (text : List Char) : List Char :=
  match text.splitOn '\n' with
  | _ :: _ :: line :: rest => if rest.isEmpty then line else line ++ ['\n']
  | _ => []

/-- `timestamps.txt` after `make_timestamps.sh`. -/
def makeTimestamps (suffix : List Char) (files : List Char → Option (List Char)) : List Char :=
  ((List.range 1000000).takeWhile fun i => (files (fileName suffix i)).isSome).flatMap
    fun i => thirdLine ((files (fileName suffix i)).getD [])

/-! ### One image -/

/-- An image file. -/
def image (f : Capture) (c : Call) : List Char := headerText f c.frameTime ++ c.buffer

/-- The time in nanoseconds. -/
def inNs (t : Timespec) : ℤ := t.tvSec * 1000000000 + t.tvNsec

/-- A time since the machine has been started, with ten digits of seconds at most, and an image of
`size` bytes. -/
structure Call.Valid (size : ℕ) (c : Call) : Prop where
  nonneg : 0 ≤ c.frameTime.tvSec
  lt : c.frameTime.tvSec < 10 ^ 10
  normalized : c.frameTime.Normalized
  size : c.buffer.length = size

variable {f : Capture} {c : Call} {cs : List Call} {size i j : ℕ}
  {files : List Char → Option (List Char)} {d : Dumps}

theorem length_headerText (h : c.Valid size) : (headerText f c.frameTime).length = 46 := by
  have hsec := unsignedLong_of_nonneg h.nonneg
  have hnsec := unsignedLong_of_nonneg h.normalized.nonneg
  have hlt := h.lt
  have hnlt := h.normalized.lt
  have hdigits : ∀ {k n : ℕ}, 0 < k → n < 10 ^ k → (zeroPadded k n).length = k := by
    intro k n hk hn
    have hle := (length_zeroPadded_le_iff (le_refl k) hk).mpr hn
    rw [length_zeroPadded] at hle ⊢
    omega
  have h1 := hdigits (k := 10) (n := unsignedLong c.frameTime.tvSec) (by decide) (by omega)
  have h2 := hdigits (k := 9) (n := unsignedLong c.frameTime.tvNsec) (by decide) (by omega)
  have hdesc : f.headerDesc.length = 2 := by cases f <;> rfl
  unfold headerText timestampText
  simp only [List.length_append, List.length_cons, List.length_nil, hdesc, h1, h2,
    show headerRes.length = 7 from rfl, show headerDepth.length = 3 from rfl,
    show "sec".toList.length = 3 from rfl, show "nsec".toList.length = 4 from rfl]

theorem length_image (h : c.Valid size) : (image f c).length = 46 + size := by
  rw [image, List.length_append, length_headerText h, h.size]

theorem overwrite_eq {old text : List Char} (h : old.length ≤ text.length) :
    overwrite old text = text := by
  rw [overwrite, List.drop_eq_nil_of_le h, List.append_nil]

theorem dump_opened (h : c.Valid size) (ho : c.opened = true)
    (hold : ∀ old, d.files (fileName (imageSuffix f) d.frameNum) = some old →
      old.length ≤ 46 + size) :
    dumpRgbRawBuffer f d c = some
      { frameNum := if d.frameNum + 1 = numFiles then 0 else d.frameNum + 1
        files := Function.update d.files (fileName (imageSuffix f) d.frameNum)
          (some (image f c)) } := by
  have hheader : headerWithTimestamp f c.frameTime = some (headerText f c.frameTime) :=
    headerWithTimestamp_of_lt (by rw [length_headerText h]; decide)
  have hle : ((d.files (fileName (imageSuffix f) d.frameNum)).getD []).length ≤
      (image f c).length := by
    rw [length_image h]
    cases hfile : d.files (fileName (imageSuffix f) d.frameNum) with
    | none => exact Nat.zero_le _
    | some old => exact hold old hfile
  unfold dumpRgbRawBuffer
  rw [if_pos ho, hheader]
  dsimp only [Option.map_some]
  rw [← image, overwrite_eq hle]

theorem thirdLine_image :
    thirdLine (image f c) = timestampText c.frameTime ++ ['\n'] := by
  have hdesc : '\n' ∉ f.headerDesc := by cases f <;> decide
  unfold thirdLine image headerText
  simp only [List.append_assoc, List.cons_append]
  rw [List.splitOn_append_cons_self_of_not_mem hdesc,
    List.splitOn_append_cons_self_of_not_mem (by decide : '\n' ∉ headerRes),
    List.splitOn_append_cons_self_of_not_mem newline_not_mem_timestampText,
    List.splitOn_append_cons_self_of_not_mem (by decide : '\n' ∉ headerDepth)]
  rfl

/-! ### The names -/

theorem fileName_injective (suffix : List Char) : Function.Injective (fileName suffix) := by
  intro i j h
  have hnum : zeroPadded 6 i = zeroPadded 6 j :=
    List.append_cancel_right (List.append_cancel_left h)
  have hval := congrArg (Nat.ofDigitChars 10 · 0) hnum
  simpa only [ofDigitChars_zeroPadded] using hval

/-! ### Which image is in which file -/

/-- The number of the last of `n` images that went to file `i`. -/
def lastDump (n i : ℕ) : ℕ := i + (n - 1 - i) / numFiles * numFiles

theorem lastDump_lt {n : ℕ} (hi : i < n) : lastDump n i < n := by
  have := Nat.div_mul_le_self (n - 1 - i) numFiles
  unfold lastDump
  omega

theorem lastDump_of_le {n : ℕ} (hn : n ≤ numFiles) : lastDump n i = i := by
  unfold numFiles at hn
  unfold lastDump numFiles
  omega

theorem lastDump_succ_self (n : ℕ) : lastDump (n + 1) (n % numFiles) = n := by
  unfold lastDump numFiles
  omega

theorem lastDump_succ_of_ne {n : ℕ} (hi : i < n) (hlt : i < numFiles) (hne : i ≠ n % numFiles) :
    lastDump (n + 1) i = lastDump n i := by
  unfold numFiles at hlt hne
  unfold lastDump numFiles
  omega

/-- The files after the images `done`, `files` being those there were. -/
structure Holds (f : Capture) (files : List Char → Option (List Char)) (done : List Call)
    (d : Dumps) : Prop where
  frameNum : d.frameNum = done.length % numFiles
  written : ∀ i < done.length, i < numFiles → ∃ c, done[lastDump done.length i]? = some c ∧
    d.files (fileName (imageSuffix f) i) = some (image f c)
  kept : ∀ i, done.length ≤ i ∨ numFiles ≤ i →
    d.files (fileName (imageSuffix f) i) = files (fileName (imageSuffix f) i)

theorem Holds.concat {done : List Call} (h : Holds f files done d) (c : Call) :
    Holds f files (done ++ [c])
      { frameNum := if d.frameNum + 1 = numFiles then 0 else d.frameNum + 1
        files := Function.update d.files (fileName (imageSuffix f) d.frameNum)
          (some (image f c)) } := by
  have hother : ∀ i, i ≠ d.frameNum → Function.update d.files
      (fileName (imageSuffix f) d.frameNum) (some (image f c)) (fileName (imageSuffix f) i) =
      d.files (fileName (imageSuffix f) i) := fun i hi =>
    Function.update_of_ne (fun heq => hi (fileName_injective _ heq)) ..
  have hnum := h.frameNum
  refine ⟨?_, fun i hi hlt => ?_, fun i hi => ?_⟩
  · rw [List.length_append, List.length_singleton]
    dsimp only
    unfold numFiles at hnum ⊢
    split_ifs <;> omega
  · rw [List.length_append, List.length_singleton] at hi ⊢
    dsimp only
    by_cases hcur : i = d.frameNum
    · refine ⟨c, ?_, by rw [hcur, Function.update_self]⟩
      rw [hcur, hnum, lastDump_succ_self, List.getElem?_concat_length]
    · have hin : i < done.length := by
        rcases Nat.lt_succ_iff_lt_or_eq.mp hi with hin | heq
        · exact hin
        · rw [hnum, ← heq, Nat.mod_eq_of_lt hlt] at hcur
          exact absurd rfl hcur
      obtain ⟨c', hc', hfile⟩ := h.written i hin hlt
      refine ⟨c', ?_, (hother i hcur).trans hfile⟩
      rw [lastDump_succ_of_ne hin hlt (hnum ▸ hcur),
        List.getElem?_append_left (lastDump_lt hin)]
      exact hc'
  · rw [List.length_append, List.length_singleton] at hi
    have hcur : i ≠ d.frameNum := by
      have := Nat.mod_le done.length numFiles
      have := Nat.mod_lt done.length (show 0 < numFiles by decide)
      omega
    exact (hother i hcur).trans (h.kept i (hi.imp_left Nat.le_of_succ_le))

/-- The images that went to a file. -/
def opened (cs : List Call) : List Call := cs.filter Call.opened

/-- **Each file holds the last image that went to it**, and the images are numbered without a gap.
-/
theorem files_run (hcs : ∀ c ∈ cs, c.Valid size)
    (hold : ∀ i old, files (fileName (imageSuffix f) i) = some old → old.length ≤ 46 + size) :
    ∃ d, dumps f files cs = some d ∧ Holds f files (opened cs) d := by
  induction cs using List.reverseRecOn with
  | nil => exact ⟨_, rfl, rfl, fun i hi => absurd hi (Nat.not_lt_zero i), fun _ _ => rfl⟩
  | append_singleton cs c ih =>
    obtain ⟨d, hd, hholds⟩ := ih fun c hc => hcs c (List.mem_append_left _ hc)
    have hstep : dumps f files (cs ++ [c]) = dumpRgbRawBuffer f d c := by
      unfold dumps at hd ⊢
      rw [List.foldlM_append, hd]
      simp
    rw [hstep, opened, List.filter_append, ← opened]
    cases ho : c.opened with
    | false =>
      refine ⟨d, by simp [dumpRgbRawBuffer, ho], ?_⟩
      simpa [ho] using hholds
    | true =>
      have hlen : ∀ old, d.files (fileName (imageSuffix f) d.frameNum) = some old →
          old.length ≤ 46 + size := by
        intro old hfile
        rcases Nat.lt_or_ge d.frameNum (opened cs).length with hlt | hge
        · have hmod := hholds.frameNum ▸ Nat.mod_lt (opened cs).length (show 0 < numFiles by decide)
          obtain ⟨c', hc', hfile'⟩ := hholds.written _ hlt hmod
          rw [hfile] at hfile'
          have hmem := (List.mem_filter.mp (List.mem_of_getElem? hc')).1
          rw [Option.some.inj hfile', length_image (hcs c' (List.mem_append_left _ hmem))]
        · rw [hholds.kept _ (.inl hge)] at hfile
          exact hold _ old hfile
      have hvalid := hcs c (List.mem_append_right _ (List.mem_singleton.mpr rfl))
      refine ⟨_, dump_opened hvalid ho hlen, ?_⟩
      simpa [ho] using hholds.concat c

/-! ### What the scripts read -/

theorem takeWhile_range {p : ℕ → Bool} {m n : ℕ} (hmn : m < n) (hp : ∀ i < m, p i = true)
    (hm : p m = false) : (List.range n).takeWhile p = List.range m := by
  obtain ⟨k, rfl⟩ := Nat.exists_eq_add_of_lt hmn
  rw [Nat.add_assoc, List.range_add, List.takeWhile_append_of_pos fun i hi =>
    hp i (List.mem_range.mp hi), List.range_succ_eq_map, List.map_cons, Nat.add_zero,
    List.takeWhile_cons_of_neg (by simp [hm]), List.append_nil]

/-- The time of the image in file `i`. -/
def timeOf (done : List Call) (i : ℕ) : Timespec :=
  (done[lastDump done.length i]?.map Call.frameTime).getD ⟨0, 0⟩

theorem length_opened_le_of_file {d : Dumps} (h : Holds f (fun _ => none) (opened cs) d) :
    (d.files (fileName (imageSuffix f) i)).isSome = true ↔ i < min (opened cs).length numFiles := by
  rw [Nat.lt_min]
  constructor
  · intro hsome
    by_contra hlt
    rw [h.kept i (by omega)] at hsome
    cases hsome
  · rintro ⟨hi, hlt⟩
    obtain ⟨c, -, hfile⟩ := h.written i hi hlt
    rw [hfile]
    rfl

/-- **From the images to the times.** Whatever images have been dumped into an empty directory, the
scripts read the times of the last images of the files, one after the other; up to 1800 images these
are the times of all of them in their order. -/
theorem timestamps_run (f : Capture) (hcs : ∀ c ∈ cs, c.Valid size) :
    ∃ d, dumps f (fun _ => none) cs = some d ∧
      timediff (makeTimestamps (imageSuffix f) d.files) =
        some ((List.range (min (opened cs).length numFiles)).map fun i =>
          inNs (timeOf (opened cs) i)) ∧
      ((opened cs).length ≤ numFiles →
        timediff (makeTimestamps (imageSuffix f) d.files) =
          some ((opened cs).map fun c => inNs c.frameTime)) := by
  obtain ⟨d, hd, hholds⟩ : ∃ d, dumps f (fun _ => none) cs = some d ∧
      Holds f (fun _ => none) (opened cs) d := files_run hcs nofun
  set m := min (opened cs).length numFiles with hm
  have hwritten : ∀ i ∈ List.range m, ∃ c ∈ cs, timeOf (opened cs) i = c.frameTime ∧
      d.files (fileName (imageSuffix f) i) = some (image f c) := by
    intro i hi
    obtain ⟨hi, hlt⟩ := Nat.lt_min.mp (List.mem_range.mp hi)
    obtain ⟨c, hc, hfile⟩ := hholds.written i hi hlt
    exact ⟨c, (List.mem_filter.mp (List.mem_of_getElem? hc)).1, by simp [timeOf, hc], hfile⟩
  have htext : makeTimestamps (imageSuffix f) d.files =
      (List.range m).flatMap fun i => timestampText (timeOf (opened cs) i) ++ ['\n'] := by
    have hmiss : (d.files (fileName (imageSuffix f) m)).isSome = false := by
      rw [← Bool.not_eq_true, length_opened_le_of_file hholds]
      exact lt_irrefl m
    have hlt : m < 1000000 := (Nat.min_le_right _ _).trans_lt (by decide)
    unfold makeTimestamps
    rw [takeWhile_range hlt (fun i hi => (length_opened_le_of_file hholds).mpr hi) hmiss]
    refine List.flatMap_congr fun i hi => ?_
    obtain ⟨c, -, htime, hfile⟩ := hwritten i hi
    rw [hfile, htime]
    exact thirdLine_image
  have hread : timediff (makeTimestamps (imageSuffix f) d.files) =
      some ((List.range m).map fun i => inNs (timeOf (opened cs) i)) := by
    rw [htext]
    refine readLines_flatMap (fun i _ => newline_not_mem_timestampText) (fun i hi => ?_) (by decide)
    obtain ⟨c, hc, htime, -⟩ := hwritten i hi
    rw [htime]
    exact timediffLine_timestampText (hcs c hc).nonneg (hcs c hc).normalized.nonneg
  refine ⟨d, hd, hread, fun hle => hread.trans (congrArg some ?_)⟩
  rw [hm, Nat.min_eq_left hle]
  refine List.ext_getElem (by simp) fun i h1 h2 => ?_
  have hi : i < (opened cs).length := by simpa using h2
  simp [timeOf, lastDump_of_le hle, hi]

/-- Two images, with a file that could not be opened in between. -/
def twoImages : List Call := [⟨true, ⟨3, 5⟩, ['x']⟩, ⟨false, ⟨4, 0⟩, ['y']⟩, ⟨true, ⟨5, 7⟩, ['z']⟩]

theorem timestamps_run_two : ∃ d, dumps .ppm (fun _ => none) twoImages = some d ∧
    timediff (makeTimestamps (imageSuffix .ppm) d.files) = some [3000000005, 5000000007] := by
  have hvalid : ∀ c ∈ twoImages, c.Valid 1 := by
    intro c hc
    simp only [twoImages, List.mem_cons, List.not_mem_nil, or_false] at hc
    rcases hc with rfl | rfl | rfl <;> exact ⟨by decide, by decide, ⟨by decide, by decide⟩, rfl⟩
  obtain ⟨d, hd, -, htimes⟩ := timestamps_run .ppm hvalid
  exact ⟨d, hd, htimes (by decide)⟩

end Ecen5623.Capture.ImageFiles
