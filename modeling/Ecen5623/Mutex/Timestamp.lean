import Ecen5623.Library.LockedSections
import Mathlib.Data.Int.Notation
import Mathlib.Data.List.Basic

/-! # The position and its timestamp

The two threads of `timestamp.c` share `location`: one moves the position and stamps it, over and
over, the other prints it. Between `LOCK_LOCATION` and `UNLOCK_LOCATION` the fields are written, and
read for `printf`, one at a time; in which order `printf` reads them is left to the compiler. The
reader only prints the initial position and those that `_nav` has completed, each one with the time
of its own, and in the order in which they were made (`printed_of_reach`). Coordinates are of any
type that adds and subtracts; what `rand` and the clock give in each call is the input. -/

namespace Ecen5623.Mutex.Timestamp

open Ecen5623.Library Ecen5623.Library.LockedSections

/-- `pos_t`, with `timestamp` as its two fields. -/
structure Pos (α : Type*) where
  x : α
  y : α
  z : α
  roll : α
  pitch : α
  yaw : α
  tvSec : ℕ
  tvNsec : ℕ
  deriving DecidableEq, Repr

/-- The fields `printf` reads. -/
inductive Field where
  | x | y | z | roll | pitch | yaw | tvSec | tvNsec
  deriving DecidableEq, Repr

/-- The constants that `_nav` writes: 0, 5, .05 and .012345. -/
structure Constants (α : Type*) where
  zero : α
  roll : α
  pitch : α
  yaw : α

/-- What one call of `_nav` gets from `rand` and from the clock. -/
structure Input (α : Type*) where
  vector : α
  direction : Fin 6
  tvSec : ℕ
  tvNsec : ℕ

variable {α : Type*}

/-- Read one field of `src`. -/
def Pos.copy (dst src : Pos α) : Field → Pos α
  | .x => { dst with x := src.x }
  | .y => { dst with y := src.y }
  | .z => { dst with z := src.z }
  | .roll => { dst with roll := src.roll }
  | .pitch => { dst with pitch := src.pitch }
  | .yaw => { dst with yaw := src.yaw }
  | .tvSec => { dst with tvSec := src.tvSec }
  | .tvNsec => { dst with tvNsec := src.tvNsec }

/-- The memory after `memset`. -/
def location (k : Constants α) : Pos α := ⟨k.zero, k.zero, k.zero, k.zero, k.zero, k.zero, 0, 0⟩

/-- What `_nav` writes to the fields after the `switch`, as a position of its own. -/
def stamp (k : Constants α) (input : Input α) : Pos α :=
  { location k with
    roll := k.roll, pitch := k.pitch, yaw := k.yaw, tvSec := input.tvSec, tvNsec := input.tvNsec }

/-- The fields written after the `switch`, in their order. -/
def stamped : List Field := [.roll, .pitch, .yaw, .tvSec, .tvNsec]

section Move
variable [Add α] [Sub α]

/-- The new value of the coordinate of the `switch`. -/
def moved (input : Input α) (l : Pos α) : α :=
  match input.direction with
  | 0 => l.x + input.vector
  | 1 => l.x - input.vector
  | 2 => l.y + input.vector
  | 3 => l.y - input.vector
  | 4 => l.z + input.vector
  | 5 => l.z - input.vector

/-- Its assignment. -/
def store (direction : Fin 6) (value : α) (l : Pos α) : Pos α :=
  match direction with
  | 0 | 1 => { l with x := value }
  | 2 | 3 => { l with y := value }
  | 4 | 5 => { l with z := value }

/-- `_nav`. -/
def nav (k : Constants α) (input : Input α) (l : Pos α) : Pos α :=
  stamped.foldl (fun l f => l.copy (stamp k input) f)
    (store input.direction (moved input l) l)

/-- `location` after `n` calls of `_nav`. -/
def navs (k : Constants α) (input : ℕ → Input α) : ℕ → Pos α
  | 0 => location k
  | n + 1 => nav k (input n) (navs k input n)

end Move

/-! ### The threads -/

/-- `position_reader` and `position_writer`. -/
inductive Party where
  | reader
  | writer
  deriving DecidableEq, Repr

/-- Where a thread stands: the reader with the lines it has printed and the arguments of `printf`
so far, the writer with the calls of `_nav` it has completed. -/
inductive Thread (α : Type*) where
  | printing (lines : List (Pos α))
  | reading (lines : List (Pos α)) (args : Pos α) (left : List Field)
  | fetching (calls : ℕ)
  | moving (calls : ℕ)
  | storing (calls : ℕ) (value : α)
  | stamping (calls : ℕ) (left : List Field)

/-- The lines the reader has printed. -/
def Thread.lines : Thread α → List (Pos α)
  | .printing lines => lines
  | .reading lines _ _ => lines
  | _ => []

/-- The calls of `_nav` the writer has completed. -/
def Thread.calls : Thread α → ℕ
  | .fetching calls => calls
  | .moving calls => calls
  | .storing calls _ => calls
  | .stamping calls _ => calls
  | _ => 0

variable [Add α] [Sub α] (k : Constants α) (order : List Field) (input : ℕ → Input α)

/-- The two threads; `order` is the one in which `printf` reads the fields. -/
def code : Code Party (Thread α) (Pos α) where
  lock
    | .reader, .printing lines => some (.reading lines (location k) order)
    | .writer, .fetching n => some (.moving n)
    | _, _ => none
  access
    | .reader, .reading lines args (f :: left), l => some (.reading lines (args.copy l f) left, l)
    | .writer, .moving n, l => some (.storing n (moved (input n) l), l)
    | .writer, .storing n value, l =>
      some (.stamping n stamped, store (input n).direction value l)
    | .writer, .stamping n (f :: left), l => some (.stamping n left, l.copy (stamp k (input n)) f)
    | _, _, _ => none
  unlock
    | .reader, .reading lines args [] => some (.printing (lines ++ [args]))
    | .writer, .stamping n [] => some (.fetching (n + 1))
    | _, _ => none

/-- The threads as they are created. -/
def init : Config Party (Thread α) (Pos α) where
  locals
    | .reader => .printing []
    | .writer => .fetching 0
  mem := location k

/-! ### Reading every field -/

/-- The two positions have the same field. -/
def Pos.Agree (p q : Pos α) : Field → Prop
  | .x => p.x = q.x
  | .y => p.y = q.y
  | .z => p.z = q.z
  | .roll => p.roll = q.roll
  | .pitch => p.pitch = q.pitch
  | .yaw => p.yaw = q.yaw
  | .tvSec => p.tvSec = q.tvSec
  | .tvNsec => p.tvNsec = q.tvNsec

omit [Add α] [Sub α] in
theorem eq_of_agree {p q : Pos α} (h : ∀ f, p.Agree q f) : p = q := by
  obtain ⟨_, _, _, _, _, _, _, _⟩ := p
  obtain ⟨_, _, _, _, _, _, _, _⟩ := q
  exact Pos.mk.injEq .. ▸ ⟨h .x, h .y, h .z, h .roll, h .pitch, h .yaw, h .tvSec, h .tvNsec⟩

omit [Add α] [Sub α] in
theorem agree_copy (p q : Pos α) (f : Field) : (p.copy q f).Agree q f := by
  cases f <;> rfl

omit [Add α] [Sub α] in
theorem Pos.Agree.copy {p q : Pos α} {f : Field} (h : p.Agree q f) (g : Field) :
    (p.copy q g).Agree q f := by
  cases f <;> cases g <;> first | exact h | rfl

omit [Add α] [Sub α] in
theorem agree_foldl {q : Pos α} {f : Field} :
    ∀ (fs : List Field) (p : Pos α), f ∈ fs ∨ p.Agree q f →
      (fs.foldl (fun args f => args.copy q f) p).Agree q f
  | [], p, h => h.resolve_left List.not_mem_nil
  | g :: fs, p, h => by
    refine agree_foldl fs (p.copy q g) ?_
    rcases h with h | h
    · rcases List.mem_cons.mp h with rfl | h
      · exact .inr (agree_copy p q f)
      · exact .inl h
    · exact .inr (h.copy g)

/-! ### The sections -/

variable {k order input}

theorem reader_accesses {lines : List (Pos α)} {m : Pos α} {p : Thread α × Pos α}
    (h : Accesses (code k order input) .reader (.reading lines (location k) order, m) p) :
    ∃ read left, read ++ left = order ∧
      p = (.reading lines (read.foldl (fun args f => args.copy m f) (location k)) left, m) := by
  induction h with
  | refl => exact ⟨[], order, rfl, rfl⟩
  | tail _ hacc ih =>
    obtain ⟨read, left, hord, rfl⟩ := ih
    cases left with
    | nil => cases hacc
    | cons f left =>
      cases hacc
      exact ⟨read ++ [f], left, by simp [← hord], by rw [List.foldl_append]; rfl⟩

/-- **The reader prints what is there**, if `printf` reads every field. -/
theorem reader_section (hord : ∀ f, f ∈ order) {lines : List (Pos α)} {m : Pos α}
    {q : Thread α × Pos α} (h : Section (code k order input) .reader (.printing lines, m) q) :
    q = (.printing (lines ++ [m]), m) := by
  obtain ⟨l', m'⟩ := q
  obtain ⟨l₁, l₂, hlock, hacc, hunlock⟩ := h
  cases hlock
  obtain ⟨read, left, hsplit, heq⟩ := reader_accesses hacc
  cases heq
  cases left with
  | cons f left => cases hunlock
  | nil =>
    cases hunlock
    rw [List.append_nil] at hsplit
    rw [eq_of_agree fun f => agree_foldl read _ (.inl (hsplit ▸ hord f))]

/-- How far the writer has come, from position `m`. -/
inductive Progress (k : Constants α) (input : ℕ → Input α) (n : ℕ) (m : Pos α) :
    Thread α × Pos α → Prop where
  | moving : Progress k input n m (.moving n, m)
  | storing : Progress k input n m (.storing n (moved (input n) m), m)
  | stamping (written left : List Field) (h : written ++ left = stamped) :
    Progress k input n m (.stamping n left, written.foldl
      (fun l f => l.copy (stamp k (input n)) f)
      (store (input n).direction (moved (input n) m) m))

theorem writer_accesses {n : ℕ} {m : Pos α} {p : Thread α × Pos α}
    (h : Accesses (code k order input) .writer (.moving n, m) p) : Progress k input n m p := by
  induction h with
  | refl => exact .moving
  | tail _ hacc ih =>
    cases ih with
    | moving => cases hacc; exact .storing
    | storing => cases hacc; exact .stamping [] stamped rfl
    | stamping written left h =>
      cases left with
      | nil => cases hacc
      | cons f left =>
        cases hacc
        have hleft : (written ++ [f]) ++ left = stamped := by simp [← h]
        have hstamp : Progress k input n m _ := .stamping (written ++ [f]) left hleft
        rwa [List.foldl_append] at hstamp

theorem Progress.calls {n : ℕ} {m : Pos α} {p : Thread α × Pos α}
    (h : Progress k input n m p) : p.1.calls = n := by
  cases h <;> rfl

/-- **The writer calls `_nav`.** -/
theorem writer_section {n : ℕ} {m : Pos α} {q : Thread α × Pos α}
    (h : Section (code k order input) .writer (.fetching n, m) q) :
    q = (.fetching (n + 1), nav k (input n) m) := by
  obtain ⟨l', m'⟩ := q
  obtain ⟨l₁, l₂, hlock, hacc, hunlock⟩ := h
  cases hlock
  have hp := writer_accesses hacc
  rcases hp with _ | _ | ⟨written, left, hsplit⟩
  · cases hunlock
  · cases hunlock
  · cases left with
    | cons f left => cases hunlock
    | nil =>
      cases hunlock
      rw [List.append_nil] at hsplit
      rw [hsplit, nav]

/-! ### All runs -/

/-- Between the sections: `location` is what the completed calls of `_nav` have made of it, and
the lines are some of the positions there were, in their order. -/
def Untorn (k : Constants α) (input : ℕ → Input α) (c : Config Party (Thread α) (Pos α)) : Prop :=
  ∃ n, c.locals .writer = .fetching n ∧ c.mem = navs k input n ∧
    ∃ ks : List ℕ, ks.Pairwise (· ≤ ·) ∧ (∀ j ∈ ks, j ≤ n) ∧
      c.locals .reader = .printing (ks.map (navs k input))

theorem untorn_section (hord : ∀ f, f ∈ order) {c : Config Party (Thread α) (Pos α)} {i : Party}
    {q : Thread α × Pos α} (h : Untorn k input c)
    (hs : Section (code k order input) i (c.locals i, c.mem) q) :
    Untorn k input (c.set i q.1 q.2) := by
  obtain ⟨n, hwriter, hmem, ks, hsorted, hle, hreader⟩ := h
  cases i with
  | reader =>
    rw [hreader] at hs
    obtain rfl := reader_section hord hs
    refine ⟨n, hwriter, hmem, ks ++ [n], ?_, ?_, ?_⟩
    · rw [List.pairwise_append]
      refine ⟨hsorted, List.pairwise_singleton _ _, fun j hj j' hj' => ?_⟩
      rw [List.mem_singleton.mp hj']
      exact hle j hj
    · intro j hk
      rcases List.mem_append.mp hk with hk | hk
      · exact hle j hk
      · exact Nat.le_of_eq (List.mem_singleton.mp hk)
    · rw [set_locals_self, List.map_append, hmem]
      rfl
  | writer =>
    rw [hwriter] at hs
    obtain rfl := writer_section hs
    refine ⟨n + 1, set_locals_self .., ?_, ks, hsorted, fun j hj => ?_, ?_⟩
    · rw [set_mem, hmem, navs]
    · exact Nat.le_succ_of_le (hle j hj)
    · rw [set_locals_of_ne _ (by decide), hreader]

/-- **No line is torn.** In every state reached the lines printed are the initial position or
positions that completed calls of `_nav` have made, each with its own timestamp, and in the order in
which they were made. -/
theorem printed_of_reach (hord : ∀ f, f ∈ order) {s : State Party (Thread α) (Pos α)}
    (hs : Reach (step (code k order input)) Any (init k).start s) :
    ∃ ks : List ℕ, ks.Pairwise (· ≤ ·) ∧ (∀ j ∈ ks, j ≤ (s.locals .writer).calls) ∧
      (s.locals .reader).lines = ks.map (navs k input) := by
  have hserial : ∀ c, Serial (code k order input) (init k) c → Untorn k input c := fun c hc =>
    hc.invariant ⟨0, rfl, rfl, [], .nil, fun _ h => absurd h List.not_mem_nil, rfl⟩
      fun h hs => untorn_section hord h hs
  rcases howner : s.owner with _ | i
  · obtain ⟨n, hwriter, -, ks, hsorted, hle, hreader⟩ := hserial _ (serial_of_reach hs howner)
    exact ⟨ks, hsorted, by rw [hwriter]; exact hle, by rw [hreader]; rfl⟩
  · obtain ⟨c, hc, hoth, l, hlock, hacc⟩ := held_of_reach hs howner
    obtain ⟨n, hwriter, -, ks, hsorted, hle, hreader⟩ := hserial c hc
    refine ⟨ks, hsorted, ?_⟩
    cases i with
    | writer =>
      rw [hwriter] at hlock
      cases hlock
      have hcalls : (s.locals .writer).calls = n := (writer_accesses hacc).calls
      refine ⟨by rwa [hcalls], ?_⟩
      rw [hoth .reader (by decide), hreader]
      rfl
    | reader =>
      rw [hreader] at hlock
      cases hlock
      obtain ⟨read, left, -, heq⟩ := reader_accesses hacc
      refine ⟨?_, ?_⟩
      · rw [hoth .writer (by decide), hwriter]
        exact hle
      · rw [(Prod.mk.inj heq).1]
        rfl

/-- The order of the arguments in the call. -/
def printfOrder : List Field := [.x, .y, .z, .roll, .pitch, .yaw, .tvSec, .tvNsec]

/-- One call of `_nav` and one line, with integers for the coordinates. -/
theorem printed_of_reach_line : ∃ s,
    exec (step (code (Constants.mk (0 : ℤ) 5 1 2) printfOrder fun n => ⟨3, 0, n, 0⟩)) Any
        (init (Constants.mk (0 : ℤ) 5 1 2)).start
        ([.lock .writer] ++ List.replicate 7 (.access .writer) ++ [.unlock .writer] ++
          [.lock .reader] ++ List.replicate 8 (.access .reader) ++ [.unlock .reader]) = some s ∧
      ∃ ks : List ℕ, ks.Pairwise (· ≤ ·) ∧ (∀ j ∈ ks, j ≤ (s.locals .writer).calls) ∧
        (s.locals .reader).lines =
          ks.map (navs (Constants.mk (0 : ℤ) 5 1 2) fun n => ⟨3, 0, n, 0⟩) :=
  Reach.exists_exec rfl fun _ hs => printed_of_reach (fun f => by cases f <;> decide) hs

end Ecen5623.Mutex.Timestamp
