import Ecen5623.Capture.CameraInit
import Ecen5623.Library.EventLog

/-! # What is released, and how much of the table is used

Whether or not a call fails, something is not released exactly once (`not_releasedOnce`): where
`frame` closes the camera, `main` does it again, and where it does not, `main` unmaps no buffer,
because the count in its copy of `video_t` is zero. The entries of the table that are accessed are
those below the count of the driver, which may be more than the table has (`inTable_iff`). -/

namespace Ecen5623.Capture.Release

open Ecen5623.Library Ecen5623.Capture.CameraInit

variable {a : Answers} {v v' : Video} {w : World} {n i : ℕ}

/-- Every resource has been released as often as it has been acquired. -/
def ReleasedOnce (log : List Event) : Prop :=
  ∀ r, log.count (.release r) = log.count (.acquire r)

/-- Every entry of `buffers` that has been accessed exists. -/
def InTable (log : List Event) : Prop := ∀ i, Event.access i ∈ log → i < numBuf

/-- The event is about one of the first buffers. -/
def OnBuffers (n : ℕ) (e : Event) : Prop :=
  ∃ i < n, e = .access i ∨ e = .acquire (.buffer i) ∨ e = .release (.buffer i)

theorem extends_emit {P : Event → Prop} {e : Event} (he : P e) :
    Extends P w.log (w.emit e).log := (Extends.refl _).concat he

theorem mem_emit {e : Event} : e ∈ (w.emit e).log :=
  List.mem_append_right _ (List.mem_singleton.mpr rfl)

/-! ### The buffers -/

theorem extends_munmapStep (hi : i < n) :
    Extends (OnBuffers n) w.log (munmapStep w i).log := by
  have haccess : OnBuffers n (.access i) := ⟨i, hi, .inl rfl⟩
  unfold munmapStep
  split
  · exact (extends_emit haccess).concat ⟨i, hi, .inr (.inr rfl)⟩
  · exact extends_emit haccess

theorem access_mem_munmapStep : Event.access i ∈ (munmapStep w i).log := by
  unfold munmapStep
  split
  · exact List.mem_append_left _ mem_emit
  · exact mem_emit

theorem extends_munmapBuffers : Extends (OnBuffers n) w.log (munmapBuffers n w).log :=
  Extends.foldl fun _ _ hi => extends_munmapStep (List.mem_range.mp hi)

theorem access_mem_munmapBuffers (hi : i < n) : Event.access i ∈ (munmapBuffers n w).log := by
  unfold munmapBuffers
  obtain ⟨is, js, hsplit⟩ := List.append_of_mem (List.mem_range.mpr hi)
  rw [hsplit, List.foldl_append, List.foldl_cons]
  have hrest : Extends (OnBuffers n) (munmapStep (is.foldl munmapStep w) i).log
      (js.foldl munmapStep (munmapStep (is.foldl munmapStep w) i)).log :=
    Extends.foldl fun w j hj => extends_munmapStep (List.mem_range.mp (by
      rw [hsplit]
      exact List.mem_append_right _ (List.mem_cons_of_mem _ hj)))
  exact hrest.subset access_mem_munmapStep

theorem extends_mmapFrom {is : List ℕ} (his : ∀ i ∈ is, i < v.numBuffers) :
    Extends (OnBuffers v.numBuffers) w.log (mmapFrom a v is w).1.log := by
  induction is generalizing w with
  | nil => exact Extends.refl _
  | cons i is ih =>
    have hi := his i List.mem_cons_self
    have haccess : OnBuffers v.numBuffers (.access i) := ⟨i, hi, .inl rfl⟩
    unfold mmapFrom
    split_ifs
    · refine Extends.trans ?_ (ih fun j hj => his j (List.mem_cons_of_mem i hj))
      exact ((Extends.refl w.log).concat haccess).concat ⟨i, hi, .inr (.inl rfl)⟩
    · exact ((Extends.refl w.log).concat haccess).trans extends_munmapBuffers
    · exact Extends.refl _

theorem mmapFrom_ok {is : List ℕ} (h : (mmapFrom a v is w).2 = true) :
    (∀ i ∈ is, Event.access i ∈ (mmapFrom a v is w).1.log ∧
      Event.acquire (.buffer i) ∈ (mmapFrom a v is w).1.log) ∧
    Extends (fun e => ∀ r, e ≠ .release r) w.log (mmapFrom a v is w).1.log := by
  induction is generalizing w with
  | nil => exact ⟨fun i hi => absurd hi List.not_mem_nil, Extends.refl _⟩
  | cons i is ih =>
    unfold mmapFrom at h ⊢
    split_ifs at h ⊢
    obtain ⟨hall, hext⟩ := ih h
    refine ⟨fun j hj => ?_, Extends.trans ?_ hext⟩
    · obtain rfl | hj := List.mem_cons.mp hj
      · exact ⟨hext.subset (List.mem_append_left _ mem_emit), hext.subset mem_emit⟩
      · exact hall j hj
    · exact ((Extends.refl w.log).concat fun _ => Event.noConfusion).concat
        fun _ => Event.noConfusion

theorem requestBuffers_ok (h : requestBuffers a v = (v', true)) : numBuf ≤ v'.numBuffers := by
  unfold requestBuffers at h
  split at h
  · simp at h
  · split_ifs at h with hlt
    · simp at h
    · cases h
      exact Nat.not_lt.mp hlt

/-- What `camera_init_internal_buffers` leaves. -/
structure InitBuffers (v : Video) (w : World) (r : Video × World × Bool) : Prop where
  extends_log : Extends (OnBuffers r.1.numBuffers) w.log r.2.1.log
  ok : r.2.2 = true → numBuf ≤ r.1.numBuffers ∧
    (∀ i < r.1.numBuffers, Event.access i ∈ r.2.1.log ∧ Event.acquire (.buffer i) ∈ r.2.1.log) ∧
    Extends (fun e => ∀ r, e ≠ .release r) w.log r.2.1.log

theorem initBuffers : InitBuffers v w (cameraInitInternalBuffers a v w) := by
  unfold cameraInitInternalBuffers
  split
  · exact ⟨Extends.refl _, fun h => by simp at h⟩
  · next v' hreq =>
    have hext : Extends (OnBuffers v'.numBuffers) w.log (mmapBuffers a v' w).1.log :=
      extends_mmapFrom fun i hi => List.mem_range.mp hi
    split
    · next w' hmap =>
      rw [hmap] at hext
      exact ⟨hext, fun h => by simp at h⟩
    · next w' hmap =>
      obtain ⟨hall, hrel⟩ := mmapFrom_ok (congrArg Prod.snd hmap)
      rw [← mmapBuffers, hmap] at hall hrel
      rw [hmap] at hext
      exact ⟨hext, fun _ => ⟨requestBuffers_ok hreq,
        fun i hi => hall i (List.mem_range.mpr hi), hrel⟩⟩

theorem numBuffers_initBuffers {count : ℕ} (hcount : a.reqbufs = some count)
    (hacc : numBuf ≤ count) : (cameraInitInternalBuffers a v w).1.numBuffers = count := by
  have hreq : requestBuffers a v = ({ v with numBuffers := count }, true) := by
    unfold requestBuffers
    rw [hcount]
    exact if_neg (Nat.not_lt.mpr hacc)
  unfold cameraInitInternalBuffers
  rw [hreq]
  dsimp only
  split <;> rfl

/-! ### The thread -/

/-- The world after the frames of the loop. -/
def accessed (a : Answers) (w : World) : World :=
  a.frames.foldl (fun w i => w.emit (.access i)) w

/-- **The ways through `frame`.** -/
theorem frame_cases : frame a v w = closeCamera w ∧ (cameraCheckInit a v).2 = false ∨
    ∃ v' w' ok, cameraInitInternalBuffers a (cameraCheckInit a v).1 w = (v', w', ok) ∧
      (ok = false ∧ frame a v w = videoErrorCleanup .level2 v' w' ∨
        ok = true ∧ (frame a v w = videoErrorCleanup .level3 v' (allocateOtherBuffers a w').1 ∨
          frame a v w = videoErrorCleanup .fullInit v' (accessed a (allocateOtherBuffers a w').1) ∨
          frame a v w = accessed a (allocateOtherBuffers a w').1)) := by
  unfold frame
  split
  · next hcheck => exact .inl ⟨rfl, congrArg Prod.snd hcheck⟩
  · next v₁ hcheck =>
    refine .inr ?_
    rw [hcheck]
    split
    · next v' w' hinit => exact ⟨v', w', false, hinit, .inl ⟨rfl, rfl⟩⟩
    · next v' w' hinit =>
      refine ⟨v', w', true, hinit, .inr ⟨rfl, ?_⟩⟩
      split
      · next hmalloc => exact .inl (by rw [hmalloc])
      · next hmalloc =>
        rw [hmalloc]
        split_ifs
        · unfold frameLoop
          split
          · exact .inr (.inl rfl)
          · exact .inr (.inr rfl)
        · exact .inl rfl

/-- A property of all events on the way. -/
structure Admits (P : Event → Prop) (a : Answers) (n : ℕ) : Prop where
  onBuffers : ∀ e, OnBuffers n e → P e
  frames : ∀ i ∈ a.frames, P (.access i)
  malloc : P (.acquire .woBuffer)
  free : P (.release .woBuffer)
  close : P (.release .camera)

section Extends

variable {P : Event → Prop}

theorem extends_deallocate (hfree : P (.release .woBuffer)) :
    Extends P w.log (deallocateOtherBuffers w).log := by
  unfold deallocateOtherBuffers deallocateBuffer
  split_ifs
  · exact extends_emit hfree
  · exact Extends.refl _

theorem extends_allocate (hmalloc : P (.acquire .woBuffer)) :
    Extends P w.log (allocateOtherBuffers a w).1.log := by
  unfold allocateOtherBuffers
  split_ifs
  · exact (Extends.refl w.log).concat hmalloc
  · exact Extends.refl _

theorem extends_accessed (hframes : ∀ i ∈ a.frames, P (.access i)) :
    Extends P w.log (accessed a w).log :=
  Extends.foldl fun _ i hi => extends_emit (hframes i hi)

theorem extends_cleanup {state : ErrorLevel} (h : Admits P a v.numBuffers) :
    Extends P w.log (videoErrorCleanup state v w).log := by
  have hmunmap : ∀ w : World, Extends P w.log (cameraDeallocateInternalBuffers v w).log :=
    fun w => extends_munmapBuffers.mono h.onBuffers
  unfold videoErrorCleanup
  split
  · exact (((extends_deallocate h.free).trans (hmunmap _))).concat h.close
  · exact (((extends_deallocate h.free).trans (hmunmap _))).concat h.close
  · exact (hmunmap _).concat h.close
  · exact extends_emit h.close
  · exact Extends.refl _

theorem extends_frame
    (h : Admits P a (cameraInitInternalBuffers a (cameraCheckInit a v).1 w).1.numBuffers) :
    Extends P w.log (frame a v w).log := by
  obtain ⟨hframe, -⟩ | ⟨v', w', ok, hinit, hcase⟩ := frame_cases (a := a) (v := v) (w := w)
  · rw [hframe]
    exact extends_emit h.close
  · have hext := (initBuffers (a := a) (v := (cameraCheckInit a v).1) (w := w)).extends_log
    rw [hinit] at h hext
    have hw' : Extends P w.log w'.log := hext.mono h.onBuffers
    have hmalloc := hw'.trans (extends_allocate (a := a) h.malloc)
    obtain ⟨-, hframe⟩ | ⟨-, hframe | hframe | hframe⟩ := hcase <;> rw [hframe]
    · exact hw'.trans (extends_cleanup h)
    · exact hmalloc.trans (extends_cleanup h)
    · exact (hmalloc.trans (extends_accessed h.frames)).trans (extends_cleanup h)
    · exact hmalloc.trans (extends_accessed h.frames)

end Extends

/-! ### What is released -/

theorem closed_or_mapped : Event.release .camera ∈ (frame a video opened).log ∨
    Event.acquire (.buffer 0) ∈ (frame a video opened).log ∧
      Event.release (.buffer 0) ∉ (frame a video opened).log := by
  obtain ⟨hframe, -⟩ | ⟨v', w', ok, hinit, hcase⟩ :=
    frame_cases (a := a) (v := video) (w := opened)
  · rw [hframe]
    exact .inl mem_emit
  · obtain ⟨-, hframe⟩ | ⟨rfl, hframe | hframe | hframe⟩ := hcase <;> rw [hframe]
    · exact .inl mem_emit
    · exact .inl mem_emit
    · exact .inl mem_emit
    · have hok := (initBuffers (a := a) (v := (cameraCheckInit a video).1) (w := opened)).ok
      rw [hinit] at hok
      obtain ⟨hcount, hall, hrel⟩ := hok rfl
      have hext : Extends (fun e => ∀ r, e ≠ .release r) w'.log
          (accessed a (allocateOtherBuffers a w').1).log :=
        (extends_allocate fun _ => Event.noConfusion).trans
          (extends_accessed fun _ _ _ => Event.noConfusion)
      refine .inr ⟨hext.subset (hall 0 (Nat.lt_of_lt_of_le (by decide) hcount)).2, fun hmem => ?_⟩
      obtain hmem | hne := (hrel.trans hext).mem hmem
      · exact absurd hmem (by decide)
      · exact hne _ rfl

theorem run_log : ∃ w : World, (run a).log = w.log ++ [Event.release .camera] ∧
    Extends (fun e => e = .release .woBuffer) (frame a video opened).log w.log :=
  ⟨_, rfl, extends_deallocate rfl⟩

theorem count_acquire_camera : (run a).log.count (.acquire .camera) = 1 := by
  obtain ⟨w, hrun, hfree⟩ := run_log (a := a)
  have hframe : Extends (fun e => e ≠ .acquire .camera) opened.log (frame a video opened).log :=
    extends_frame {
      onBuffers := fun e he => by
        rintro rfl
        obtain ⟨i, -, h | h | h⟩ := he <;> cases h
      frames := fun _ _ => Event.noConfusion
      malloc := by decide
      free := by decide
      close := by decide }
  have hall : Extends (fun e => e ≠ .acquire .camera) opened.log (run a).log := by
    rw [hrun]
    refine (hframe.trans (hfree.mono ?_)).concat (by decide)
    rintro _ rfl
    decide
  exact hall.count_eq fun h => h rfl

/-- Where `frame` closes the camera, `main` closes it again. -/
theorem count_release_camera (h : Event.release .camera ∈ (frame a video opened).log) :
    2 ≤ (run a).log.count (.release .camera) := by
  obtain ⟨w, hrun, hfree⟩ := run_log (a := a)
  rw [hrun, List.count_append]
  exact Nat.add_le_add (List.count_pos_iff.mpr (hfree.subset h)) (le_refl 1)

theorem release_buffer_mem_iff :
    Event.release (.buffer i) ∈ (run a).log ↔
      Event.release (.buffer i) ∈ (frame a video opened).log := by
  obtain ⟨w, hrun, hfree⟩ := run_log (a := a)
  rw [hrun]
  constructor
  · intro hmem
    obtain hmem | hmem := List.mem_append.mp hmem
    · exact (hfree.mem hmem).resolve_right (by simp)
    · exact absurd (List.mem_singleton.mp hmem) (by simp)
  · intro hmem
    exact List.mem_append_left _ (hfree.subset hmem)

/-- **The resources are never each released once.** -/
theorem not_releasedOnce (a : Answers) : ¬ ReleasedOnce (run a).log := by
  intro honce
  obtain hclosed | ⟨hmapped, hleft⟩ := closed_or_mapped (a := a)
  · have htwo := count_release_camera hclosed
    rw [honce .camera, count_acquire_camera] at htwo
    omega
  · obtain ⟨w, hrun, hfree⟩ := run_log (a := a)
    have hzero := List.count_eq_zero_of_not_mem (mt release_buffer_mem_iff.mp hleft)
    have hpos : Event.acquire (.buffer 0) ∈ (run a).log := by
      rw [hrun]
      exact List.mem_append_left _ (hfree.subset hmapped)
    rw [honce (.buffer 0)] at hzero
    exact absurd (List.count_pos_iff.mpr hpos) (by omega)

/-- Every call succeeds, three frames are captured and the threads are stopped. -/
def granted (count : ℕ) : Answers where
  querycap := true
  gInput := true
  enuminput := true
  enumFmt := (1, true)
  gFmt := true
  sFmt := true
  gFmtSet := some (xRes, yRes)
  gFmtLast := true
  reqbufs := some count
  querybuf _ := true
  mmap _ := true
  qbuf _ := true
  flags _ := true
  malloc := true
  streamon := true
  sExtCtrls _ := true
  gExtCtrls := true
  frames := [0, 1, 2]
  ending := .stopped

/-- After a run without an error the buffers are still mapped. If the stream cannot be started,
`frame` and `main` both close the camera and free `wo_buffer`. -/
theorem run_granted :
    ((run (granted 3)).log.count (.acquire (.buffer 0)) = 1 ∧
      (run (granted 3)).log.count (.release (.buffer 0)) = 0 ∧
      ¬ ReleasedOnce (run (granted 3)).log) ∧
    (run { granted 3 with streamon := false }).log.count (.release .camera) = 2 ∧
      (run { granted 3 with streamon := false }).log.count (.release .woBuffer) = 2 ∧
      ¬ ReleasedOnce (run { granted 3 with streamon := false }).log := by
  refine ⟨⟨by decide, by decide, fun h => ?_⟩, by decide, by decide, fun h => ?_⟩
  · exact absurd (h (.buffer 0)) (by decide)
  · exact absurd (h .woBuffer) (by decide)

/-! ### What is accessed -/

theorem access_mem_frame (hcheck : (cameraCheckInit a v).2 = true)
    (hi : i < (cameraInitInternalBuffers a (cameraCheckInit a v).1 w).1.numBuffers) :
    Event.access i ∈ (frame a v w).log := by
  obtain ⟨-, hfalse⟩ | ⟨v', w', ok, hinit, hcase⟩ := frame_cases (a := a) (v := v) (w := w)
  · rw [hcheck] at hfalse
    cases hfalse
  · have hok := (initBuffers (a := a) (v := (cameraCheckInit a v).1) (w := w)).ok
    rw [hinit] at hok hi
    have hany : Admits (fun _ => True) a v'.numBuffers :=
      ⟨fun _ _ => trivial, fun _ _ => trivial, trivial, trivial, trivial⟩
    obtain ⟨rfl, hframe⟩ | ⟨rfl, hframe⟩ := hcase
    · rw [hframe]
      exact List.mem_append_left _ (access_mem_munmapBuffers hi)
    · have hmem := (extends_allocate (P := fun _ => True) (a := a) trivial).subset
        ((hok rfl).2.1 i hi).1
      have hmem' := (extends_accessed (P := fun _ => True) (a := a) fun _ _ => trivial).subset hmem
      obtain hframe | hframe | hframe := hframe <;> rw [hframe]
      · exact (extends_cleanup hany).subset hmem
      · exact (extends_cleanup hany).subset hmem'
      · exact hmem'

theorem lt_of_access_mem {count : ℕ} (hcount : a.reqbufs = some count) (hacc : numBuf ≤ count)
    (hframes : ∀ i ∈ a.frames, i < count) (hi : Event.access i ∈ (run a).log) : i < count := by
  obtain ⟨w, hrun, hfree⟩ := run_log (a := a)
  have hframe : Extends (fun e => ∀ i, e = .access i → i < count) opened.log
      (frame a video opened).log := extends_frame {
    onBuffers := fun e he i hei => by
      subst hei
      rw [numBuffers_initBuffers hcount hacc] at he
      obtain ⟨j, hj, h | h | h⟩ := he <;> cases h
      exact hj
    frames := fun j hj i hi => Event.access.inj hi ▸ hframes j hj
    malloc := fun _ => Event.noConfusion
    free := fun _ => Event.noConfusion
    close := fun _ => Event.noConfusion }
  rw [hrun] at hi
  obtain hi | hi := List.mem_append.mp hi
  · obtain hi | hi := hframe.mem ((hfree.mem hi).resolve_right (by simp))
    · exact absurd (List.mem_singleton.mp hi) Event.noConfusion
    · exact hi i rfl
  · exact absurd (List.mem_singleton.mp hi) (by simp)

/-- **The table is long enough if the driver has no more buffers than were requested.** -/
theorem inTable_iff {count : ℕ} (hcheck : (cameraCheckInit a video).2 = true)
    (hcount : a.reqbufs = some count) (hacc : numBuf ≤ count)
    (hframes : ∀ i ∈ a.frames, i < count) : InTable (run a).log ↔ count ≤ numBuf := by
  constructor
  · intro h
    obtain ⟨w, hrun, hfree⟩ := run_log (a := a)
    have hlast : Event.access (count - 1) ∈ (frame a video opened).log :=
      access_mem_frame hcheck (by
        rw [numBuffers_initBuffers hcount hacc]
        exact Nat.sub_one_lt_of_lt hacc)
    have hlt := h (count - 1) (by
      rw [hrun]
      exact List.mem_append_left _ (hfree.subset hlast))
    exact Nat.le_of_pred_lt hlt
  · intro hle i hi
    exact Nat.lt_of_lt_of_le (lt_of_access_mem hcount hacc hframes hi) hle

/-- The driver has the three buffers that are requested. -/
theorem inTable_iff_granted : InTable (run (granted 3)).log ↔ 3 ≤ numBuf :=
  inTable_iff (a := granted 3) (by decide) rfl (by decide) (by decide)

/-- A driver that allocates four buffers has the fourth one mapped past the end of the table. -/
theorem not_inTable : Event.access 3 ∈ (run (granted 4)).log ∧ ¬ InTable (run (granted 4)).log := by
  have hmem : Event.access 3 ∈ (run (granted 4)).log := by decide
  exact ⟨hmem, fun h => absurd (h 3 hmem) (by decide)⟩

end Ecen5623.Capture.Release
