import Ecen5623.Clock.TimespecSubtract
import Ecen5623.Library.Ring
import Mathlib.Data.List.Rotate

/-! # The log of timed events

`MEMLOG_LOG`, `MEMLOG_LOG24` and `memlog_dump` of `memlog.c`, of which there are two builds with
different tables. The writer goes round a ring, the reader from its first slot to the last one. The
diff of a line is that to the line above (`diffs_dumpFrom`), but once the writer has begun to
overwrite, the events of its last round come first and the older ones below them. So a dump is
chronological up to the capacity of the log and at its multiples, and otherwise only if the events
cannot be told apart by what a line shows (`chronological_iff`). -/

namespace Ecen5623.Clock.Memlog

open Ecen5623.Library Ecen5623.Clock.TimespecSubtract

/-- What the builds have different: `MEMLOG_MAX`, the first event with data, and
`memlog_event_desc`. -/
structure Build where
  memlogMax : ℕ
  dataEvent : ℕ
  eventDesc : ℕ → String

/-- The build in `simple-capture`. -/
def simpleCapture : Build where
  memlogMax := 1024
  dataEvent := 0x20
  eventDesc
    | 0x0 => "NONE"
    | 0x1 => "MEMLOG_E_S1_RUN"
    | 0x2 => "MEMLOG_E_S2_RUN"
    | 0x3 => "MEMLOG_E_S3_RUN"
    | 0x4 => "SEQUENCER_MARK"
    | 0x11 => "MEMLOG_E_S1_DONE"
    | 0x12 => "MEMLOG_E_S2_DONE"
    | 0x13 => "MEMLOG_E_S3_DONE"
    | 0x1a => "MEMLOG_E_WCET_START"
    | 0x1b => "MEMLOG_E_WCET_DONE"
    | 0x20 => "MEMLOG_E_ADATA"
    | 0x21 => "MEMLOG_E_BDATA"
    | 0x22 => "MEMLOG_E_CDATA"
    | 0xff => "FIBTEST_MARK"
    | _ => "Event error"

/-- The build in `exam2`. -/
def exam2 : Build where
  memlogMax := 110000
  dataEvent := 0xf0
  eventDesc
    | 0x0 => "NONE"
    | 0x1 => "MEMLOG_E_S1_RUN"
    | 0x2 => "MEMLOG_E_S2_RUN"
    | 0x3 => "MEMLOG_E_S3_RUN"
    | 0x4 => "SEQUENCER_MARK"
    | 0x11 => "MEMLOG_E_S1_DONE"
    | 0x12 => "MEMLOG_E_W1_DONE"
    | 0x13 => "MEMLOG_E_W2_DONE"
    | 0x1a => "MEMLOG_E_WCET_START"
    | 0x1b => "MEMLOG_E_WCET_DONE"
    | 0x20 => "MEMLOG_E_ERROR_SCAN"
    | 0xf0 => "MEMLOG_E_ADATA"
    | 0xf1 => "MEMLOG_E_BDATA"
    | 0xf2 => "MEMLOG_E_CDATA"
    | 0xff => "FIBTEST_MARK"
    | _ => "Event error"

/-! ### The fields of an entry -/

/-- `MEMLOG_E_NONE`. -/
abbrev memlogENone : ℕ := 0

/-- `MEMLOG_ID`. -/
def memlogId (x : ℕ) : ℕ := x &&& 0xff

/-- `MEMLOG_DATA24`. -/
def memlogData24 (x : ℕ) : ℕ := x >>> 8

/-- `MEMLOG_ENCODE24`, in 32 bits. -/
def memlogEncode24 (event data : ℕ) : ℕ := (event + (data <<< 8)) % 2 ^ 32

/-- `memlog_s`. -/
structure Entry where
  eventId : ℕ
  time : Timespec
  deriving DecidableEq, Repr

/-- An entry of the memory that `calloc` returns. -/
def Entry.zero : Entry := { eventId := 0, time := { tvSec := 0, tvNsec := 0 } }

/-- `memlog_t`. -/
structure Log where
  index : ℕ
  log : ℕ → Entry

/-- `memlog_init`. -/
def memlogInit : Log := { index := 0, log := fun _ => Entry.zero }

/-- A call of `MEMLOG_LOG`, or of `MEMLOG_LOG24` if there are data, and the time of the clock. -/
structure Call where
  event : ℕ
  data : Option ℕ
  time : Timespec
  deriving DecidableEq, Repr

/-- The entry that a call makes. -/
def Call.entry (c : Call) : Entry where
  eventId := match c.data with
    | none => c.event
    | some data => memlogEncode24 c.event data
  time := c.time

/-- The assertions of the call about its arguments. -/
def Call.Asserts (b : Build) (c : Call) : Prop :=
  ∀ data ∈ c.data, data < 0x1000000 ∧ c.event ≥ b.dataEvent

instance (b : Build) (c : Call) : Decidable (c.Asserts b) :=
  inferInstanceAs (Decidable (∀ data ∈ c.data, _))

/-- `MEMLOG_LOG` and `MEMLOG_LOG24`, `none` if an assertion fails. -/
def memlogLog (b : Build) (l : Log) (c : Call) : Option Log :=
  if c.Asserts b ∧ l.index < b.memlogMax then
    let index := l.index + 1
    some { index := if index ≥ b.memlogMax then 0 else index
           log := Function.update l.log l.index c.entry }
  else none

/-! ### The dump -/

/-- What is written for an entry: its time, the description of its event and the diff, and then the
data or the remark that it is not in order. -/
structure Line where
  time : Timespec
  desc : String
  diff : Timespec
  data : Option ℕ
  notInOrder : Bool
  deriving DecidableEq, Repr

/-- The line for an entry, given the time of the last one. -/
def line (b : Build) (e : Entry) (tPrev : Timespec) : Line :=
  let sub := timespecSubtract { result := ⟨0, 0⟩, x := e.time, y := tPrev }
  let id := memlogId e.eventId
  { time := sub.1.x
    desc := b.eventDesc id
    diff := sub.1.result
    data := if id ≥ b.dataEvent then some (memlogData24 e.eventId) else none
    notInOrder := if id ≥ b.dataEvent then false else sub.2 == 1 }

/-- The loop of `memlog_dump` over the entries that are left. -/
def dumpFrom (b : Build) : List Entry → Timespec → List Line
  | [], _ => []
  | e :: es, tPrev =>
    if memlogId e.eventId > memlogENone then
      line b e tPrev :: dumpFrom b es e.time
    else dumpFrom b es tPrev

/-- The lines that `memlog_dump` writes to its file. -/
def memlogDump (b : Build) (l : Log) : List Line :=
  dumpFrom b ((List.range b.memlogMax).map l.log) (l.log 0).time

/-! ### What a line shows -/

/-- A call within the limits of the fields, for which the assertions hold. -/
structure Call.Admitted (b : Build) (c : Call) : Prop where
  pos : 1 ≤ c.event
  le : c.event ≤ 0xff
  asserts : c.Asserts b

/-- A call within the limits of the log: the assertions hold, and the clock's time is one. -/
structure Call.Valid (b : Build) (c : Call) : Prop where
  pos : 1 ≤ c.event
  le : c.event ≤ 0xff
  asserts : c.Asserts b
  time : c.time.Normalized

theorem Call.Valid.admitted {b : Build} {c : Call} (h : c.Valid b) : c.Admitted b :=
  ⟨h.pos, h.le, h.asserts⟩

/-- The time, the event and the data of a line. -/
abbrev Shown : Type := Timespec × String × Option ℕ

def Line.shown (l : Line) : Shown := (l.time, l.desc, l.data)

/-- What a line about the call has to show. -/
def Call.shown (b : Build) (c : Call) : Shown :=
  (c.time, b.eventDesc c.event, if c.event ≥ b.dataEvent then some (c.data.getD 0) else none)

section Fields

variable {b : Build} {c : Call}

theorem memlogId_encode {event data : ℕ} (he : event ≤ 0xff) :
    memlogId (memlogEncode24 event data) = event := by
  unfold memlogId memlogEncode24
  rw [Nat.shiftLeft_eq, show (0xff : ℕ) = 2 ^ 8 - 1 from rfl, Nat.and_two_pow_sub_one_eq_mod]
  omega

theorem memlogData24_encode {event data : ℕ} (he : event ≤ 0xff) (hd : data < 0x1000000) :
    memlogData24 (memlogEncode24 event data) = data := by
  unfold memlogData24 memlogEncode24
  rw [Nat.shiftLeft_eq, Nat.shiftRight_eq_div_pow]
  omega

theorem memlogId_self {event : ℕ} (he : event ≤ 0xff) : memlogId event = event := by
  unfold memlogId
  rw [show (0xff : ℕ) = 2 ^ 8 - 1 from rfl, Nat.and_two_pow_sub_one_eq_mod]
  omega

theorem memlogData24_self {event : ℕ} (he : event ≤ 0xff) : memlogData24 event = 0 := by
  unfold memlogData24
  rw [Nat.shiftRight_eq_div_pow]
  omega

theorem fields_entry (hc : c.Admitted b) : memlogId c.entry.eventId = c.event ∧
    memlogData24 c.entry.eventId = c.data.getD 0 := by
  have hasserts := hc.asserts
  unfold Call.Asserts at hasserts
  unfold Call.entry
  dsimp only
  split
  · next hnone =>
    rw [hnone]
    exact ⟨memlogId_self hc.le, memlogData24_self hc.le⟩
  · next data hsome =>
    have hdata := (hasserts data hsome).1
    rw [hsome]
    exact ⟨memlogId_encode hc.le, memlogData24_encode hc.le hdata⟩

theorem shown_line (hc : c.Valid b) (tPrev : Timespec) :
    (line b c.entry tPrev).shown = c.shown b := by
  obtain ⟨hid, hdata⟩ := fields_entry hc.admitted
  unfold line Line.shown Call.shown
  dsimp only
  rw [hid, hdata]
  rfl

theorem diff_line {p : Call} (hc : c.Valid b) (hp : p.Valid b) :
    (line b c.entry p.time).diff.Normalized ∧
      (line b c.entry p.time).diff.total = c.time.total - p.time.total := by
  have hexact := exact_of_normalized (o := ⟨⟨0, 0⟩, c.time, p.time⟩) hc.time hp.time
  exact ⟨hexact.normalized, hexact.difference⟩

end Fields

section Dump

variable {b : Build} {es : List Entry} {cs : List Call} {tPrev : Timespec}

theorem dumpFrom_replicate {n : ℕ} : dumpFrom b (List.replicate n Entry.zero) tPrev = [] := by
  induction n with
  | zero => rfl
  | succ n ih =>
    rw [List.replicate_succ, dumpFrom,
      if_neg (show ¬ memlogId Entry.zero.eventId > memlogENone by decide), ih]

theorem dumpFrom_append_zero {n : ℕ} :
    dumpFrom b (es ++ List.replicate n Entry.zero) tPrev = dumpFrom b es tPrev := by
  induction es generalizing tPrev with
  | nil => exact dumpFrom_replicate
  | cons e es ih => rw [List.cons_append, dumpFrom, dumpFrom, ih, ih]

theorem dumpFrom_cons {c : Call} (hc : c.Valid b) :
    dumpFrom b ((c :: cs).map Call.entry) tPrev =
      line b c.entry tPrev :: dumpFrom b (cs.map Call.entry) c.time := by
  have hid := (fields_entry hc.admitted).1
  have hpos := hc.pos
  rw [List.map_cons, dumpFrom, if_pos (show memlogId c.entry.eventId > 0 by omega)]
  rfl

variable (hcs : ∀ c ∈ cs, c.Valid b)
include hcs

theorem shown_dumpFrom :
    (dumpFrom b (cs.map Call.entry) tPrev).map Line.shown = cs.map (Call.shown b) := by
  induction cs generalizing tPrev with
  | nil => rfl
  | cons c cs ih =>
    have hc := hcs c List.mem_cons_self
    rw [dumpFrom_cons hc, List.map_cons, List.map_cons, shown_line hc,
      ih fun d hd => hcs d (List.mem_cons_of_mem c hd)]

/-- **The diff of a line is to the line above.** -/
theorem diffs_dumpFrom {j : ℕ} {p c : Call} {l : Line} (hp : cs[j]? = some p)
    (hc : cs[j + 1]? = some c) (hl : (dumpFrom b (cs.map Call.entry) tPrev)[j + 1]? = some l) :
    l.diff.Normalized ∧ l.diff.total = c.time.total - p.time.total := by
  induction cs generalizing tPrev j with
  | nil => cases hp
  | cons d ds ih =>
    have hds : ∀ c ∈ ds, c.Valid b := fun c hc => hcs c (List.mem_cons_of_mem d hc)
    rw [dumpFrom_cons (hcs d List.mem_cons_self), List.getElem?_cons_succ] at hl
    rw [List.getElem?_cons_succ] at hc
    obtain _ | j := j
    · rw [List.getElem?_cons_zero, Option.some.injEq] at hp
      subst hp
      obtain _ | ⟨e, ds⟩ := ds
      · cases hc
      · rw [List.getElem?_cons_zero, Option.some.injEq] at hc
        subst hc
        rw [dumpFrom_cons (hds e List.mem_cons_self), List.getElem?_cons_zero,
          Option.some.injEq] at hl
        subst hl
        exact diff_line (hds e List.mem_cons_self) (hcs d List.mem_cons_self)
    · rw [List.getElem?_cons_succ] at hp
      exact ih hds hp hc hl

end Dump

/-! ### The slots -/

/-- A number of calls after `memlog_init`. -/
def memlogRun (b : Build) (cs : List Call) : Option Log := cs.foldlM (memlogLog b) memlogInit

/-- What the log holds after the calls: in each slot the last one that has gone there. -/
structure Filled (b : Build) (cs : List Call) (l : Log) : Prop where
  index : l.index = cs.length % b.memlogMax
  slots : ∃ slots, Holds slots b.memlogMax cs.length ∧
    ∀ i, l.log i = (((slots i).bind fun n => cs[n]?).map Call.entry).getD Entry.zero

theorem wrap_index {k m : ℕ} (hm : 0 < m) :
    (if k % m + 1 ≥ m then 0 else k % m + 1) = (k + 1) % m := by
  have hlt := Nat.mod_lt k hm
  rw [← Nat.mod_add_mod k m 1, succ_mod hlt]
  exact if_congr (by omega) rfl rfl

section Run

variable {b : Build} {cs : List Call} {c : Call} {l : Log}

theorem filled_concat (hmax : 0 < b.memlogMax) (hc : c.Asserts b) (h : Filled b cs l) :
    ∃ l', memlogLog b l c = some l' ∧ Filled b (cs ++ [c]) l' := by
  obtain ⟨slots, hholds, hlog⟩ := h.slots
  have hindex := h.index
  refine ⟨_, if_pos ⟨hc, hindex ▸ Nat.mod_lt _ hmax⟩, ?_, ?_⟩
  · rw [hindex, List.length_append]
    exact wrap_index hmax
  · refine ⟨_, by rw [List.length_append]; exact hholds.write hmax hindex, fun i => ?_⟩
    dsimp only
    by_cases hi : i = l.index
    · subst hi
      rw [Function.update_self, Function.update_self]
      simp
    · rw [Function.update_of_ne hi, Function.update_of_ne hi, hlog]
      obtain hnone | ⟨n, hn⟩ := Option.eq_none_or_eq_some (slots i)
      · rw [hnone]
        rfl
      · rw [hn]
        simp only [Option.bind_some]
        rw [List.getElem?_append_left ((hholds i n).1 hn).1]

theorem filled_run (hmax : 0 < b.memlogMax) (hcs : ∀ c ∈ cs, c.Asserts b) :
    ∃ l, memlogRun b cs = some l ∧ Filled b cs l := by
  unfold memlogRun
  induction cs using List.reverseRecOn with
  | nil => exact ⟨memlogInit, rfl, (Nat.zero_mod _).symm, fun _ => none, holds_zero fun _ => rfl,
      fun _ => rfl⟩
  | append_singleton cs c ih =>
    obtain ⟨l, hrun, hfill⟩ := ih fun d hd => hcs d (List.mem_append_left _ hd)
    obtain ⟨l', hlog, hfill'⟩ := filled_concat hmax
      (hcs c (List.mem_append_right _ (List.mem_singleton.mpr rfl))) hfill
    refine ⟨l', ?_, hfill'⟩
    rw [List.foldlM_append, hrun]
    show (memlogLog b l c >>= pure) = _
    rw [bind_pure, hlog]

/-! ### What can be read back -/

/-- The slots of the log decode to the calls: each to the last one whose number it has modulo
`MEMLOG_MAX`, or to no event. -/
structure Decodes (b : Build) (cs : List Call) (l : Log) : Prop where
  index : l.index = cs.length % b.memlogMax
  last : ∀ n c, cs[n]? = some c →
    (∀ m, n < m → m < cs.length → m % b.memlogMax ≠ n % b.memlogMax) →
    memlogId (l.log (n % b.memlogMax)).eventId = c.event ∧
      memlogData24 (l.log (n % b.memlogMax)).eventId = c.data.getD 0
  unwritten : ∀ i < b.memlogMax, (∀ n < cs.length, n % b.memlogMax ≠ i) → (l.log i).eventId = 0

theorem Filled.decodes (hmax : 0 < b.memlogMax) (hcs : ∀ c ∈ cs, c.Admitted b)
    (h : Filled b cs l) : Decodes b cs l := by
  obtain ⟨slots, hholds, hlog⟩ := h.slots
  refine ⟨h.index, fun n c hn hlast => ?_, fun i _ hnone => ?_⟩
  · obtain ⟨hlt, -⟩ := List.getElem?_eq_some_iff.mp hn
    -- a later number with the same remainder would be at most a round away
    have hround : cs.length ≤ n + b.memlogMax := by
      by_contra hle
      exact hlast (n + b.memlogMax) (by omega) (by omega) (Nat.add_mod_right n b.memlogMax)
    have hslot := (hholds (n % b.memlogMax) n).2 ⟨hlt, hround, rfl⟩
    rw [hlog, hslot, Option.bind_some, hn]
    exact fields_entry (hcs c (List.mem_of_getElem? hn))
  · have hslot : slots i = none := by
      refine Option.eq_none_iff_forall_ne_some.2 fun n hn => ?_
      obtain ⟨hlt, -, hmod⟩ := (hholds i n).1 hn
      exact hnone n hlt hmod
    rw [hlog, hslot]
    rfl

/-- **The calls of every run can be read back**, and no assertion of the log fails. -/
theorem decodes_run (hmax : 0 < b.memlogMax) (hcs : ∀ c ∈ cs, c.Admitted b) :
    ∃ l, memlogRun b cs = some l ∧ Decodes b cs l := by
  obtain ⟨l, hrun, hfill⟩ := filled_run hmax fun c hc => (hcs c hc).asserts
  exact ⟨l, hrun, hfill.decodes hmax hcs⟩

/-- A call without data and one with the largest data in the build of `simple-capture`. -/
theorem decodes_run_two :
    ∃ l, memlogRun simpleCapture [⟨0x1, none, ⟨3, 4⟩⟩, ⟨0xff, some 0xffffff, ⟨3, 5⟩⟩] = some l ∧
      Decodes simpleCapture [⟨0x1, none, ⟨3, 4⟩⟩, ⟨0xff, some 0xffffff, ⟨3, 5⟩⟩] l :=
  decodes_run (b := simpleCapture) (by decide) fun c hc => by
    simp only [List.mem_cons, List.not_mem_nil, or_false] at hc
    rcases hc with rfl | rfl
    all_goals exact ⟨by decide, by decide, by decide⟩

/-! ### The order of the dump -/

/-- The events that a dump has to write: the last ones, as many as there is room for. -/
def lastEvents (b : Build) (cs : List Call) : List Call := cs.drop (cs.length - b.memlogMax)

/-- The events in the order of their slots. -/
def slotOrder (b : Build) (cs : List Call) : List Call :=
  if cs.length ≤ b.memlogMax then cs
  else (lastEvents b cs).rotate (b.memlogMax - cs.length % b.memlogMax)

theorem slots_of_le (h : Filled b cs l) (hk : cs.length ≤ b.memlogMax) :
    (List.range b.memlogMax).map l.log =
      cs.map Call.entry ++ List.replicate (b.memlogMax - cs.length) Entry.zero := by
  obtain ⟨slots, hholds, hlog⟩ := h.slots
  refine List.ext_getElem (by simp; omega) fun i hi _ => ?_
  rw [List.length_map, List.length_range] at hi
  rw [List.getElem_map, List.getElem_range, hlog, hholds.slot_of_le hi hk]
  split_ifs with hik
  · rw [List.getElem_append_left (by rwa [List.length_map]), List.getElem_map, Option.bind_some,
      List.getElem?_eq_getElem hik]
    rfl
  · rw [List.getElem_append_right (by rw [List.length_map]; omega), List.getElem_replicate]
    rfl

theorem slots_of_full (h : Filled b cs l) (hk : b.memlogMax ≤ cs.length) :
    (List.range b.memlogMax).map l.log =
      ((lastEvents b cs).rotate (b.memlogMax - cs.length % b.memlogMax)).map Call.entry := by
  obtain ⟨slots, hholds, hlog⟩ := h.slots
  have hlen : (lastEvents b cs).length = b.memlogMax := by
    unfold lastEvents
    rw [List.length_drop]
    omega
  refine List.ext_getElem (by simp [hlen]) fun i hi hi' => ?_
  rw [List.length_map, List.length_range] at hi
  rw [List.getElem_map, List.getElem_range, hlog, hholds.slot_of_full hi hk, Option.bind_some,
    List.getElem_map, List.getElem_rotate]
  simp only [hlen]
  unfold lastEvents
  rw [List.getElem_drop, List.getElem?_eq_getElem]
  rfl

/-! ### The dump -/

/-- The lines show the last events in their order, each with the time since the one before it. -/
structure Chronological (b : Build) (cs : List Call) (ls : List Line) : Prop where
  shown : ls.map Line.shown = (lastEvents b cs).map (Call.shown b)
  diffs : ∀ j p c l, (lastEvents b cs)[j]? = some p → (lastEvents b cs)[j + 1]? = some c →
    ls[j + 1]? = some l → l.diff.Normalized ∧ l.diff.total = c.time.total - p.time.total

theorem dump_eq (h : Filled b cs l) :
    memlogDump b l = dumpFrom b ((slotOrder b cs).map Call.entry) (l.log 0).time := by
  unfold memlogDump slotOrder
  split_ifs with hk
  · rw [slots_of_le h hk, dumpFrom_append_zero]
  · rw [slots_of_full h (Nat.le_of_not_le hk)]

theorem mem_slotOrder (h : c ∈ slotOrder b cs) : c ∈ cs := by
  unfold slotOrder lastEvents at h
  split_ifs at h
  · exact h
  · exact List.mem_of_mem_drop (List.mem_rotate.mp h)

theorem chronological_iff_order (hcs : ∀ c ∈ cs, c.Valid b) (h : Filled b cs l) :
    Chronological b cs (memlogDump b l) ↔
      (slotOrder b cs).map (Call.shown b) = (lastEvents b cs).map (Call.shown b) := by
  have hvalid : ∀ c ∈ slotOrder b cs, c.Valid b := fun c hc => hcs c (mem_slotOrder hc)
  rw [dump_eq h]
  constructor
  · intro hchron
    rw [← hchron.shown, shown_dumpFrom hvalid]
  · intro horder
    have htime : ∀ {j : ℕ} {c : Call}, (lastEvents b cs)[j]? = some c →
        ∃ d, (slotOrder b cs)[j]? = some d ∧ d.time = c.time := fun {j c} hc => by
      have hj := congrArg (·[j]?) horder
      simp only [List.getElem?_map, hc, Option.map_some] at hj
      obtain ⟨d, hd, hshown⟩ := Option.map_eq_some_iff.mp hj
      exact ⟨d, hd, congrArg Prod.fst hshown⟩
    refine ⟨(shown_dumpFrom hvalid).trans horder, fun j p c l hp hc hl => ?_⟩
    obtain ⟨p', hp', hpt⟩ := htime hp
    obtain ⟨c', hc', hct⟩ := htime hc
    rw [← hpt, ← hct]
    exact diffs_dumpFrom hvalid hp' hc' hl

/-- **When a dump is chronological**: up to the capacity, at its multiples, and where the last
events show the same in the order of the slots. -/
theorem chronological_iff (hmax : 0 < b.memlogMax) (hcs : ∀ c ∈ cs, c.Valid b) :
    ∃ l, memlogRun b cs = some l ∧ (Chronological b cs (memlogDump b l) ↔
      cs.length ≤ b.memlogMax ∨ b.memlogMax ∣ cs.length ∨
        ((lastEvents b cs).rotate (b.memlogMax - cs.length % b.memlogMax)).map (Call.shown b) =
          (lastEvents b cs).map (Call.shown b)) := by
  obtain ⟨l, hrun, hfill⟩ := filled_run hmax fun c hc => (hcs c hc).asserts
  refine ⟨l, hrun, (chronological_iff_order hcs hfill).trans ?_⟩
  unfold slotOrder
  split_ifs with hk
  · refine iff_of_true ?_ (.inl hk)
    unfold lastEvents
    rw [Nat.sub_eq_zero_of_le hk, List.drop_zero]
  · constructor
    · intro horder
      exact .inr (.inr horder)
    · rintro (hle | hdvd | horder)
      · exact absurd hle hk
      · have hlen : (lastEvents b cs).length = b.memlogMax := by
          unfold lastEvents
          rw [List.length_drop]
          omega
        rw [Nat.mod_eq_zero_of_dvd hdvd, Nat.sub_zero, ← hlen, List.rotate_length]
      · exact horder

end Run

/-- A single event with data in the build of `exam2`. -/
theorem chronological_iff_one :
    ∃ l, memlogRun exam2 [⟨0xf0, some 7, ⟨3, 4⟩⟩] = some l ∧
      (Chronological exam2 [⟨0xf0, some 7, ⟨3, 4⟩⟩] (memlogDump exam2 l) ↔
        1 ≤ 110000 ∨ 110000 ∣ 1 ∨
          ((lastEvents exam2 [⟨0xf0, some 7, ⟨3, 4⟩⟩]).rotate (110000 - 1 % 110000)).map
            (Call.shown exam2) =
          (lastEvents exam2 [⟨0xf0, some 7, ⟨3, 4⟩⟩]).map (Call.shown exam2)) :=
  chronological_iff (b := exam2) (by decide) fun c hc => by
    obtain rfl := List.mem_singleton.mp hc
    exact ⟨by decide, by decide, by decide, ⟨by decide, by decide⟩⟩

/-- An event every second. -/
def ticks (k : ℕ) : List Call := (List.range k).map fun n : ℕ => ⟨0x1, none, ⟨n, 0⟩⟩

theorem valid_ticks (k : ℕ) : ∀ c ∈ ticks k, c.Valid simpleCapture := by
  intro c hc
  obtain ⟨n, -, rfl⟩ := List.mem_map.mp hc
  refine ⟨le_refl 1, show 1 ≤ 0xff by decide, fun data hdata => ?_,
    show (0 : ℤ) ≤ 0 by decide, show (0 : ℤ) < 1000000000 by decide⟩
  cases hdata

/-- With the 1025th event the dump begins with the newest one. -/
theorem not_chronological : ∃ l, memlogRun simpleCapture (ticks 1025) = some l ∧
    (memlogDump simpleCapture l)[0]?.map Line.time = some ⟨1024, 0⟩ ∧
    ¬ Chronological simpleCapture (ticks 1025) (memlogDump simpleCapture l) := by
  obtain ⟨l, hrun, hfill⟩ := filled_run (b := simpleCapture) (by decide)
    fun c hc => (valid_ticks 1025 c hc).asserts
  have hlen : (ticks 1025).length = 1025 := by
    unfold ticks
    rw [List.length_map, List.length_range]
  have htick : ∀ n < 1025, (ticks 1025)[n]? = some ⟨0x1, none, ⟨n, 0⟩⟩ := fun n hn => by
    unfold ticks
    rw [List.getElem?_map, List.getElem?_range hn]
    rfl
  have hslot : (slotOrder simpleCapture (ticks 1025))[0]? = some ⟨0x1, none, ⟨1024, 0⟩⟩ := by
    unfold slotOrder lastEvents
    rw [hlen, if_neg (by decide), List.getElem?_rotate (by rw [List.length_drop, hlen]; decide),
      List.length_drop, hlen, List.getElem?_drop]
    exact htick 1024 (by decide)
  have hlast : (lastEvents simpleCapture (ticks 1025))[0]? = some ⟨0x1, none, ⟨1, 0⟩⟩ := by
    unfold lastEvents
    rw [hlen, List.getElem?_drop]
    exact htick 1 (by decide)
  have hvalid : ∀ c ∈ slotOrder simpleCapture (ticks 1025), c.Valid simpleCapture :=
    fun c hc => valid_ticks 1025 c (mem_slotOrder hc)
  refine ⟨l, hrun, ?_, fun h => ?_⟩
  · have hall : (memlogDump simpleCapture l).map Line.shown =
        (slotOrder simpleCapture (ticks 1025)).map (Call.shown simpleCapture) := by
      rw [dump_eq hfill]
      exact shown_dumpFrom hvalid
    have hshown := congrArg (·[0]?) hall
    simp only [List.getElem?_map, hslot, Option.map_some] at hshown
    obtain ⟨ln, hln, hl⟩ := Option.map_eq_some_iff.mp hshown
    rw [hln, Option.map_some, ← show _ = ln.time from congrArg Prod.fst hl.symm]
    rfl
  · have horder := congrArg (·[0]?) ((chronological_iff_order (valid_ticks 1025) hfill).mp h)
    simp only [List.getElem?_map, hslot, hlast, Option.map_some] at horder
    exact absurd (congrArg (fun s => s.map Prod.fst) horder) (by decide)

end Ecen5623.Clock.Memlog
