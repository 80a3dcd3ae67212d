import Ecen5623.Clock.Memlog
import Ecen5623.Library.DecimalText
import Mathlib.Data.Rat.Cast.CharZero

/-! # The lines that the scripts read

The text of a log's line as `memlog_dump` prints it, and the header of an image as
`header_with_timestamp` of `dumptools.c` does, with what `diagram_services.py` and `timediff.py`
make of them. The time of an event arrives with the name of its service, and that of an image in
nanoseconds (`lines_survive`): there are digits on both sides of the point whatever the time is, and
a description has no blanks and is shorter than its column (`column_eventDesc`). So the first script
reads in a dump all the events in it (`diagramServices_dumpText`). -/

namespace Ecen5623.Clock.LogLines

open Ecen5623.Library Ecen5623.Clock.TimespecSubtract Ecen5623.Clock.Memlog

/-! ### The dump as text -/

/-- `%lld.%.9ld`. -/
def timeText (t : Timespec) : List Char := signed 1 t.tvSec ++ '.' :: signed 9 t.tvNsec

/-- What is printed for an entry, without the newline. -/
def lineText (l : Line) : List Char :=
  timeText l.time ++ ' ' :: (leftJustified 30 l.desc.toList ++ ("diff = ".toList ++
    (timeText l.diff ++ match l.data with
      | some data => " data:".toList ++ decimal data
      | none => if l.notInOrder then " *not in order".toList else [])))

/-- The file that `memlog_dump` writes. -/
def dumpText (b : Build) (l : Log) : List Char :=
  (memlogDump b l).flatMap fun line => lineText line ++ ['\n']

/-! ### `diagram_services.py` -/

/-- A time in milliseconds. -/
def inMs (t : Timespec) : ℚ := t.tvSec * 1000 + t.tvNsec / 1000000

/-- `time_in_ms` with an exact division, `none` if there is an exception. -/
def timeInMs (timestampString : List Char) : Option ℚ :=
  match timestampString.splitOn '.' with
  | [sec, nsec] => do
    let sec ← readInt sec
    let nsec ← readInt nsec
    some (sec * 1000 + nsec / 1000000)
  | _ => none

/-- The timestamp and the service in a line, if it has any, and `none` if there is an exception. -/
def diagramLine (l : List Char) : Option (Option (ℚ × List Char)) :=
  let l := strip l
  if l.take 1 = ['#'] then some none
  else match fields l with
    | timestampString :: service :: _ => (timeInMs timestampString).map fun t => some (t, service)
    | _ => some none

/-- The timestamps and services that the script reads in a file. -/
def diagramServices (text : List Char) : Option (List (ℚ × List Char)) := readLines diagramLine text

/-! ### The header of an image -/

/-- `PPM_CAPTURE` and `PGM_CAPTURE`. -/
inductive Capture where
  | ppm
  | pgm
  deriving DecidableEq, Repr

/-- `PPM_HEADER_DESC` and `PGM_HEADER_DESC`, without the newline. -/
def Capture.headerDesc : Capture → List Char
  | .ppm => "P6".toList
  | .pgm => "P5".toList

/-- `PPM_HEADER_RES`, without the newline. -/
def headerRes : List Char := "640 480".toList

/-- `PPM_HEADER_DEPTH`, without the newline. -/
def headerDepth : List Char := "255".toList

/-- `PGM_HEADER_MAX_LEN`. -/
def pgmHeaderMaxLen : ℕ := 49

/-- A `long` as an `unsigned long`. -/
def unsignedLong (z : ℤ) : ℕ := (if z < 0 then z + 2 ^ 64 else z).toNat

/-- The line with the timestamp, without the newline. -/
def timestampText (t : Timespec) : List Char :=
  '#' :: (zeroPadded 10 (unsignedLong t.tvSec) ++ ' ' :: ("sec".toList ++
    ' ' :: (zeroPadded 9 (unsignedLong t.tvNsec) ++ ' ' :: "nsec".toList)))

/-- What `snprintf` prints. -/
def headerText (f : Capture) (t : Timespec) : List Char :=
  f.headerDesc ++ '\n' :: (headerRes ++ '\n' :: (timestampText t ++
    '\n' :: (headerDepth ++ ['\n'])))

/-- The bytes that `header_with_timestamp` writes, `none` if it reads behind the end of
`header_buf`. The last byte that `snprintf` uses is the null. -/
def headerWithTimestamp (f : Capture) (t : Timespec) : Option (List Char) :=
  let header := headerText f t
  let headerBuf := header.take (pgmHeaderMaxLen - 1) ++ [Char.ofNat 0]
  if header.length ≤ pgmHeaderMaxLen then some (headerBuf.take header.length) else none

/-! ### `timediff.py` -/

/-- The timestamp in a line, if it has one, in nanoseconds. -/
def timediffLine (l : List Char) : Option (Option ℤ) :=
  let l := strip l
  if l.take 1 = ['#'] then
    match fields ((l.splitOn '#').getD 1 []) with
    | [seconds, _, nanoseconds, _] => do
      let seconds ← readInt seconds
      let nanoseconds ← readInt nanoseconds
      some (some (seconds * 1000000000 + nanoseconds))
    | _ => some none
  else some none

/-- The timestamps that the script reads in a text. -/
def timediff (text : List Char) : Option (List ℤ) := readLines timediffLine text

/-- An event that `memlog_event_desc` knows. -/
def Known (b : Build) (event : ℕ) : Prop := b.eventDesc event ≠ "Event error"

instance (b : Build) (event : ℕ) : Decidable (Known b event) := inferInstanceAs (Decidable (_ ≠ _))

variable {b : Build} {t : Timespec}

/-! ### The line of an event -/

theorem mem_timeText {c : Char} (hc : c ∈ timeText t) : c = '-' ∨ c = '.' ∨ c.isDigit = true := by
  rcases List.mem_append.mp hc with hc | hc
  · exact (mem_signed hc).imp_right .inr
  · rcases List.mem_cons.mp hc with hc | hc
    · exact .inr (.inl hc)
    · exact (mem_signed hc).imp_right .inr

theorem word_timeText : Word (timeText t) := by
  refine ⟨List.append_ne_nil_of_right_ne_nil _ (List.cons_ne_nil _ _), fun c hc => ?_⟩
  rcases mem_timeText hc with rfl | rfl | hc
  · rfl
  · rfl
  · exact isSpace_of_isDigit hc

theorem point_not_mem_signed {width : ℕ} {z : ℤ} : '.' ∉ signed width z := fun h =>
  (mem_signed h).elim (by decide) (by decide)

theorem timeInMs_timeText : timeInMs (timeText t) = some (inMs t) := by
  have hsplit : (timeText t).splitOn '.' = [signed 1 t.tvSec, signed 9 t.tvNsec] := by
    unfold timeText
    rw [List.splitOn_append_cons_self_of_not_mem point_not_mem_signed,
      List.splitOn_eq_singleton point_not_mem_signed]
  unfold timeInMs
  rw [hsplit]
  dsimp only
  rw [readInt_signed, readInt_signed]
  rfl

/-- A description is a word that leaves a blank in its column. -/
def Column (desc : String) : Prop := Word desc.toList ∧ desc.toList.length < 30

instance (desc : String) : Decidable (Column desc) := inferInstanceAs (Decidable (_ ∧ _))

theorem column_eventDesc (hb : b = simpleCapture ∨ b = exam2) {event : ℕ}
    (hknown : Known b event) : Column (b.eventDesc event) := by
  rcases hb with rfl | rfl
  · unfold Known simpleCapture at hknown
    dsimp only at hknown
    split at hknown
    all_goals first
      | exact absurd rfl hknown
      | decide
  · unfold Known exam2 at hknown
    dsimp only at hknown
    split at hknown
    all_goals first
      | exact absurd rfl hknown
      | decide

theorem fields_lineText {l : Line} (hdesc : Column l.desc) :
    ∃ rest, fields (lineText l) = timeText l.time :: l.desc.toList :: rest := by
  obtain ⟨hword, hlength⟩ := hdesc
  obtain ⟨k, hk⟩ : ∃ k, 30 - l.desc.toList.length = k + 1 :=
    ⟨29 - l.desc.toList.length, by omega⟩
  unfold lineText leftJustified
  rw [fields_append word_timeText rfl, hk, List.replicate_succ, List.append_assoc,
    List.cons_append, fields_append hword rfl]
  exact ⟨_, rfl⟩

theorem diagramLine_lineText {l : Line} (hdesc : Column l.desc) :
    diagramLine (lineText l) = some (some (inMs l.time, l.desc.toList)) := by
  have hcomment : (strip (lineText l)).take 1 ≠ ['#'] := by
    unfold lineText
    rw [take_one_strip word_timeText]
    intro h
    have hmem : '#' ∈ timeText l.time :=
      List.mem_of_mem_take (h.symm ▸ List.mem_singleton_self '#')
    rcases mem_timeText hmem with h | h | h <;> cases h
  obtain ⟨rest, hfields⟩ := fields_lineText hdesc
  unfold diagramLine
  dsimp only
  rw [if_neg hcomment, fields_strip, hfields]
  dsimp only
  rw [timeInMs_timeText]
  rfl

theorem newline_not_mem_timeText : '\n' ∉ timeText t := fun h =>
  absurd (word_timeText.noBlank '\n' h) (by decide)

theorem newline_not_mem_lineText {l : Line} (hdesc : Column l.desc) : '\n' ∉ lineText l := by
  have hword : '\n' ∉ l.desc.toList := fun h => absurd (hdesc.1.noBlank '\n' h) (by decide)
  have hend : '\n' ∉ (match l.data with
      | some data => " data:".toList ++ decimal data
      | none => if l.notInOrder then " *not in order".toList else []) := by
    split
    · intro h
      rcases List.mem_append.mp h with h | h
      · exact absurd h (by decide)
      · exact absurd (isDigit_decimal h) (by decide)
    · split_ifs <;> decide
  unfold lineText leftJustified
  simp only [List.mem_append, List.mem_cons, not_or]
  exact ⟨newline_not_mem_timeText, by decide, ⟨hword, fun h =>
    absurd (List.eq_of_mem_replicate h) (by decide)⟩, by decide, newline_not_mem_timeText, hend⟩

theorem diagramServices_dumpText {l : Log} (hdesc : ∀ line ∈ memlogDump b l, Column line.desc) :
    diagramServices (dumpText b l) =
      some ((memlogDump b l).map fun line => (inMs line.time, line.desc.toList)) :=
  readLines_flatMap (fun line hline => newline_not_mem_lineText (hdesc line hline))
    (fun line hline => diagramLine_lineText (hdesc line hline)) (by decide)

/-- **What the script reads after any number of calls**: the times and the names of their events, in
the order of the dump. -/
theorem diagramServices_run (hb : b = simpleCapture ∨ b = exam2) {cs : List Call}
    (hcs : ∀ c ∈ cs, c.Valid b) (hknown : ∀ c ∈ cs, Known b c.event) :
    ∃ l, memlogRun b cs = some l ∧ diagramServices (dumpText b l) =
      some ((slotOrder b cs).map fun c => (inMs c.time, (b.eventDesc c.event).toList)) := by
  have hmax : 0 < b.memlogMax := by rcases hb with rfl | rfl <;> decide
  obtain ⟨l, hrun, hfill⟩ := filled_run hmax fun c hc => (hcs c hc).asserts
  have hshown : (memlogDump b l).map Line.shown = (slotOrder b cs).map (Call.shown b) := by
    rw [dump_eq hfill]
    exact shown_dumpFrom fun c hc => hcs c (mem_slotOrder hc)
  have hdesc : ∀ line ∈ memlogDump b l, Column line.desc := by
    intro line hline
    have hmem : line.shown ∈ (slotOrder b cs).map (Call.shown b) :=
      hshown ▸ List.mem_map_of_mem hline
    obtain ⟨c, hc, hline⟩ := List.mem_map.mp hmem
    rw [show line.desc = b.eventDesc c.event from congrArg (·.2.1) hline.symm]
    exact column_eventDesc hb (hknown c (mem_slotOrder hc))
  have hread := congrArg (List.map fun x : Shown => (inMs x.1, x.2.1.toList)) hshown
  rw [List.map_map, List.map_map] at hread
  exact ⟨l, hrun, (diagramServices_dumpText hdesc).trans (congrArg some hread)⟩

/-! ### The header of an image -/

theorem unsignedLong_of_nonneg {z : ℤ} (hz : 0 ≤ z) : (unsignedLong z : ℤ) = z := by
  unfold unsignedLong
  split_ifs <;> omega

theorem timediffLine_hash {rest seconds nanoseconds w v : List Char} {sec nsec : ℤ}
    (hhash : '#' ∉ rest) (hfields : fields rest = [seconds, w, nanoseconds, v])
    (hsec : readInt seconds = some sec) (hnsec : readInt nanoseconds = some nsec) :
    timediffLine ('#' :: rest) = some (some (sec * 1000000000 + nsec)) := by
  have hrest : '#' ∉ rest.rdropWhile isSpace := fun h =>
    hhash ((List.rdropWhile_prefix _ _).mem h)
  have hsplit : ('#' :: rest.rdropWhile isSpace).splitOn '#' = [[], rest.rdropWhile isSpace] := by
    rw [← List.nil_append ('#' :: rest.rdropWhile isSpace),
      List.splitOn_append_cons_self_of_not_mem List.not_mem_nil, List.splitOn_eq_singleton hrest]
  unfold timediffLine
  rw [strip_of_head rfl]
  dsimp only
  rw [List.take_succ_cons, List.take_zero, if_pos rfl, hsplit, List.getD_cons_succ,
    List.getD_cons_zero, fields_rdropWhile, hfields]
  dsimp only
  rw [hsec, hnsec]
  rfl

theorem timediffLine_timestampText (hsec : 0 ≤ t.tvSec) (hnsec : 0 ≤ t.tvNsec) :
    timediffLine (timestampText t) = some (some (t.tvSec * 1000000000 + t.tvNsec)) := by
  have hdigits : ∀ {width n : ℕ}, '#' ∉ zeroPadded width n := fun h =>
    absurd (isDigit_zeroPadded h) (by decide)
  have hhash : '#' ∉ zeroPadded 10 (unsignedLong t.tvSec) ++ ' ' :: ("sec".toList ++
      ' ' :: (zeroPadded 9 (unsignedLong t.tvNsec) ++ ' ' :: "nsec".toList)) := by
    simp only [List.mem_append, List.mem_cons, not_or]
    exact ⟨hdigits, by decide, by decide, by decide, hdigits, by decide, by decide⟩
  have hfields : fields (zeroPadded 10 (unsignedLong t.tvSec) ++ ' ' :: ("sec".toList ++
      ' ' :: (zeroPadded 9 (unsignedLong t.tvNsec) ++ ' ' :: "nsec".toList))) =
      [zeroPadded 10 (unsignedLong t.tvSec), "sec".toList, zeroPadded 9 (unsignedLong t.tvNsec),
        "nsec".toList] := by
    rw [fields_append word_zeroPadded rfl, fields_append (by decide) rfl,
      fields_append word_zeroPadded rfl, fields_word (by decide)]
  have h := timediffLine_hash hhash hfields readInt_zeroPadded readInt_zeroPadded
  rwa [unsignedLong_of_nonneg hsec, unsignedLong_of_nonneg hnsec] at h

theorem newline_not_mem_timestampText : '\n' ∉ timestampText t := by
  have hdigits : ∀ {width n : ℕ}, '\n' ∉ zeroPadded width n := fun h =>
    absurd (isDigit_zeroPadded h) (by decide)
  unfold timestampText
  simp only [List.mem_append, List.mem_cons, not_or]
  exact ⟨by decide, hdigits, by decide, by decide, by decide, hdigits, by decide, by decide⟩

theorem timediff_headerText {f : Capture} (hsec : 0 ≤ t.tvSec) (hnsec : 0 ≤ t.tvNsec) :
    timediff (headerText f t) = some [t.tvSec * 1000000000 + t.tvNsec] := by
  have hdesc : '\n' ∉ f.headerDesc ∧ timediffLine f.headerDesc = some none := by
    cases f <;> decide
  have hres : timediffLine headerRes = some none := by decide
  have hdepth : timediffLine headerDepth = some none := by decide
  unfold timediff headerText
  rw [readLines_cons hdesc.1, readLines_cons (by decide),
    readLines_cons newline_not_mem_timestampText, readLines_cons (by decide),
    readLines_nil (by decide), hdesc.2, hres, timediffLine_timestampText hsec hnsec, hdepth]
  rfl

theorem headerWithTimestamp_of_lt {f : Capture} (h : (headerText f t).length < pgmHeaderMaxLen) :
    headerWithTimestamp f t = some (headerText f t) := by
  unfold headerWithTimestamp
  dsimp only
  rw [if_pos h.le, List.take_of_length_le (Nat.le_sub_one_of_lt h), List.take_left]

/-- There is room for twelve digits of seconds. -/
theorem headerText_lt_iff {f : Capture} (hsec : 0 ≤ t.tvSec) (ht : t.Normalized) :
    (headerText f t).length < pgmHeaderMaxLen ↔ t.tvSec < 10 ^ 12 := by
  have hsecVal := unsignedLong_of_nonneg hsec
  have hnsecVal := unsignedLong_of_nonneg ht.nonneg
  have hlt := ht.lt
  have hdesc : f.headerDesc.length = 2 := by cases f <;> rfl
  have hnsec : (zeroPadded 9 (unsignedLong t.tvNsec)).length = 9 := by
    have hle := (length_zeroPadded_le_iff (n := unsignedLong t.tvNsec) (le_refl 9)
      (by decide)).mpr (by omega)
    rw [length_zeroPadded] at hle ⊢
    omega
  have hsecLe := length_zeroPadded_le_iff (n := unsignedLong t.tvSec) (k := 12)
    (show 10 ≤ 12 by decide) (by decide)
  have hlength : (headerText f t).length =
      36 + (zeroPadded 10 (unsignedLong t.tvSec)).length := by
    unfold headerText timestampText
    simp only [List.length_append, List.length_cons, List.length_nil, hdesc, hnsec,
      show headerRes.length = 7 from rfl, show headerDepth.length = 3 from rfl,
      show "sec".toList.length = 3 from rfl, show "nsec".toList.length = 4 from rfl]
    omega
  rw [hlength, show pgmHeaderMaxLen = 49 from rfl]
  omega

/-- The time of an event arrives with its service, and that of an image in nanoseconds. -/
theorem lines_survive (hsec : 0 ≤ t.tvSec) (ht : t.Normalized) :
    (∀ b, b = simpleCapture ∨ b = exam2 → ∀ e : Entry, e.time = t →
      Known b (memlogId e.eventId) → ∀ tPrev, diagramLine (lineText (line b e tPrev)) =
        some (some (inMs t, (b.eventDesc (memlogId e.eventId)).toList))) ∧
    ∀ f, (headerText f t).length < pgmHeaderMaxLen →
      ∃ text, headerWithTimestamp f t = some text ∧
        timediff text = some [t.tvSec * 1000000000 + t.tvNsec] := by
  constructor
  · rintro b hb e rfl hknown tPrev
    exact diagramLine_lineText (l := line b e tPrev) (column_eventDesc hb hknown)
  · intro f hfits
    exact ⟨_, headerWithTimestamp_of_lt hfits, timediff_headerText hsec ht.nonneg⟩

/-- One hour, five milliseconds and six nanoseconds, at the end of the first service. -/
theorem lines_survive_hour :
    (diagramLine (lineText (line simpleCapture ⟨0x11, ⟨3600, 5000006⟩⟩ ⟨3599, 0⟩)) =
      some (some (inMs ⟨3600, 5000006⟩, "MEMLOG_E_S1_DONE".toList))) ∧
    ∃ text, headerWithTimestamp .ppm ⟨3600, 5000006⟩ = some text ∧
      timediff text = some [3600005000006] := by
  have h := lines_survive (t := ⟨3600, 5000006⟩) (by decide) ⟨by decide, by decide⟩
  exact ⟨h.1 simpleCapture (.inl rfl) ⟨0x11, ⟨3600, 5000006⟩⟩ rfl (by decide) _,
    h.2 .ppm (by decide)⟩

end Ecen5623.Clock.LogLines
