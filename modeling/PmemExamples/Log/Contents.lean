import PmemExamples.Log.Code
import PmemExamples.Persist.Publish

/-! # The contents of a log memory pool

A log is a sequence of bytes with a capacity. Each call is a step on it, and the pool in memory follows. -/

namespace PmemExamples.Log
open Persist
set_option autoImplicit false

/-! ## The log as a sequence of bytes -/

structure Contents (cap : ℕ) where
  bytes : List UInt8
  fits : bytes.length ≤ cap

namespace Contents
variable {cap : ℕ}

def empty (cap : ℕ) : Contents cap := ⟨[], Nat.zero_le cap⟩

/-- A full log takes nothing, not even an empty buffer. -/
def Room (l : Contents cap) (buf : List UInt8) : Prop := l.bytes.length < cap ∧ l.bytes.length + buf.length ≤ cap

instance (l : Contents cap) (buf : List UInt8) : Decidable (l.Room buf) := inferInstanceAs (Decidable (_ ∧ _))

def append (l : Contents cap) (buf : List UInt8) (h : l.Room buf) : Contents cap :=
  ⟨l.bytes ++ buf, by rw [List.length_append]; exact h.2⟩

@[simp] theorem bytes_append (l : Contents cap) (buf : List UInt8) (h : l.Room buf) :
    (l.append buf h).bytes = l.bytes ++ buf := rfl

@[simp] theorem bytes_empty : (empty cap).bytes = [] := rfl

end Contents

inductive Call where
  | append (buf : List UInt8)
  | appendv (iov : List (List UInt8))
  | rewind

namespace Call

/-- The bytes a call adds. -/
def added : Call → List UInt8
  | .append buf => buf
  | .appendv iov => iov.flatten
  | .rewind => []

/-- The buffers of a call have a size. -/
def Legal (c : Call) : Prop := c.added.length < 2 ^ 64

instance (c : Call) : Decidable c.Legal := inferInstanceAs (Decidable (_ < _))

/-- The contents after a call, and its error. -/
def step {cap : ℕ} (l : Contents cap) : Call → Contents cap × Option Errno
  | .rewind => (Contents.empty cap, none)
  | c => if h : l.Room c.added then (l.append c.added h, none) else (l, some .ENOSPC)

/-- The function called. -/
def run (u : Util) (plp : PMEMlogpool) : Call → Prog (Option Errno)
  | .append buf => pmemlogAppend u plp buf
  | .appendv iov => pmemlogAppendv u plp iov
  | .rewind => pmemlogRewind u plp

end Call

section Calls
variable {u : Util} {plp : PMEMlogpool}

theorem pmemlogPersist_runs (u : Util) (plp : PMEMlogpool) (m : Mem) (new : ℕ) :
    Runs true (pmemlogPersist u plp new) m ()
    [.flush (u.flushed plp.isPmem (plp.addr + m (writeOffset u plp)) ((new + 2 ^ 64 - m (writeOffset u plp)) % 2 ^ 64)),
      .store (writeOffset u plp) new, .flush (u.flushed plp.isPmem (writeOffset u plp) 8)] :=
  Runs.load_bind rfl <| (Runs.flush true m _).bind <| Runs.store_bind <| Runs.flush true _ _

/-! ## Gathered data -/

theorem requiredSpace_eq (iov : List (List UInt8)) : requiredSpace iov = iov.flatten.length % 2 ^ 64 := by
  have key : ∀ (iov : List (List UInt8)) (n : ℕ), iov.foldl (fun count buf => (count + buf.length) % 2 ^ 64) n % 2 ^ 64 =
      (n + iov.flatten.length) % 2 ^ 64 := by
    intro iov
    induction iov with
    | nil => exact fun n => rfl
    | cons buf iov ih =>
      intro n
      rw [List.foldl_cons, ih, List.flatten_cons, List.length_append, Nat.mod_add_mod, Nat.add_assoc]
  have hlt : requiredSpace iov < 2 ^ 64 := by
    rw [requiredSpace]
    rcases List.eq_nil_or_concat iov with rfl | ⟨iov', buf, rfl⟩
    · exact Nat.two_pow_pos 64
    · rw [List.concat_eq_append, List.foldl_append, List.foldl_cons, List.foldl_nil]
      exact Nat.mod_lt _ (Nat.two_pow_pos 64)
  rw [← Nat.mod_eq_of_lt hlt, requiredSpace, key, Nat.zero_add]

theorem appendLoop_eq (iov : List (List UInt8)) {write : ℕ} (h : write + iov.flatten.length < 2 ^ 64) (w : World) :
    appendLoop plp iov write w =
      (memcpy (plp.addr + write) iov.flatten >>= fun _ => pure (write + iov.flatten.length)) w := by
  induction iov generalizing write w with
  | nil => rfl
  | cons buf iov ih =>
    rw [List.flatten_cons, List.length_append] at h ⊢
    obtain ⟨w₁, hw₁⟩ : ∃ w₁, memcpy (plp.addr + write) buf w = (.ok (), w₁) :=
      ⟨_, Prod.ext ((memcpy_runs true buf w.mem _).mem_eq rfl).1 rfl⟩
    have hall : memcpy (plp.addr + write) (buf ++ iov.flatten) w = memcpy (plp.addr + (write + buf.length)) iov.flatten
      w₁ := by
      rw [memcpy_append, Prog.bind_ok hw₁, Nat.add_assoc]
    rw [appendLoop, Prog.bind_ok hw₁, Nat.mod_eq_of_lt (by omega), ih (by omega), Prog.bind_apply, Prog.bind_apply, hall,
      Nat.add_assoc write]

theorem appendv_eq {iov : List (List UInt8)} {w : World} (hiov : iov.flatten.length < 2 ^ 64)
    (hend : w.mem (endOffset u plp) < 2 ^ 64) : pmemlogAppendv u plp iov w = pmemlogAppend u plp iov.flatten w := by
  rw [pmemlogAppendv, pmemlogAppend]
  by_cases hrd : plp.rdonly
  · rw [if_pos hrd, if_pos hrd]
  · rw [if_neg hrd, if_neg hrd, Prog.bind_ok (Prog.load_apply _ w), Prog.bind_ok (Prog.load_apply _ w),
      Prog.bind_ok (Prog.load_apply _ w), Prog.bind_ok (Prog.load_apply _ w), requiredSpace_eq, Nat.mod_eq_of_lt hiov]
    by_cases hfull : w.mem (endOffset u plp) ≤ w.mem (writeOffset u plp)
    · rw [if_pos hfull, if_pos hfull]
    · rw [if_neg hfull, if_neg hfull]
      by_cases hroom : w.mem (endOffset u plp) - w.mem (writeOffset u plp) < iov.flatten.length
      · rw [if_pos hroom, if_pos hroom]
      · rw [if_neg hroom, if_neg hroom, Prog.bind_apply, appendLoop_eq iov (by omega), Prog.bind_apply, Prog.bind_apply]
        rcases memcpy (plp.addr + w.mem (writeOffset u plp)) iov.flatten w with ⟨_ | _ | _, w₁⟩ <;> rfl

end Calls

/-! ## The pool in memory -/

/-- The pool in the file `d` of `size` bytes holds `l`. -/
structure Holds (u : Util) (hdr : List UInt8) (size : ℕ) (d : Mem) (l : Contents (size - dataStart u)) : Prop where
  header : bytesOf d 0 u.hdrSize = hdr
  start : d u.hdrSize = dataStart u
  end_ : d (u.hdrSize + 8) = size
  write : d (u.hdrSize + 16) = dataStart u + l.bytes.length
  data : bytesOf d (dataStart u) l.bytes.length = l.bytes

/-- The pool is open for writing, and a crash loses nothing. -/
structure Ready (u : Util) (hdr : List UInt8) (size : ℕ) (w : World) (plp : PMEMlogpool)
    (l : Contents (size - dataStart u)) : Prop where
  writable : plp.rdonly = false
  aligned : 64 ∣ plp.addr
  room : dataStart u ≤ size
  small : size < 2 ^ 63
  clean : w.Clean
  holds : Holds u hdr size (fileAt plp.addr w.mem) l

theorem Holds.ready {u : Util} {hdr : List UInt8} {size p : ℕ} {d : Mem} {l : Contents (size - dataStart u)} {w : World}
    (h : Holds u hdr size d l) (hroom : dataStart u ≤ size) (hsmall : size < 2 ^ 63) (hp : 64 ∣ p) (hb : Booted p d w)
    (isPmem : Bool) : Ready u hdr size w ⟨p, size, false, isPmem⟩ l := by
  rw [← hb.mem] at h
  exact ⟨rfl, hp, hroom, hsmall, hb.clean, h⟩

theorem le_dataStart (u : Util) : u.hdrSize + 56 ≤ dataStart u := by
  simp only [dataStart, logFormatDataAlign]
  omega

theorem dvd_dataStart (u : Util) : 8 ∣ dataStart u := by
  apply Dvd.dvd.mul_left
  decide

section Holds
variable {u : Util} {hdr : List UInt8} {size : ℕ} {d d' : Mem} {l l' : Contents (size - dataStart u)}

theorem Holds.move (h : Holds u hdr size d l) (hrest : ∀ x, x + 8 ≤ dataStart u → x ≠ u.hdrSize + 16 → d' x = d x)
    (hwrite : d' (u.hdrSize + 16) = dataStart u + l'.bytes.length)
    (hdata : bytesOf d' (dataStart u) l'.bytes.length = l'.bytes) : Holds u hdr size d' l' := by
  have hle := le_dataStart u
  refine ⟨?_, (hrest _ (by omega) (by omega)).trans h.start, (hrest _ (by omega) (by omega)).trans h.end_, hwrite, hdata⟩
  rw [← h.header]
  apply bytesOf_congr
  intro y _ hy
  have hword : wordOf y ≤ y := Nat.div_mul_le_self y 8
  rw [byteAt, hrest (wordOf y) (by omega) (by omega), byteAt]

theorem Holds.congr (h : Holds u hdr size d l) (hrest : ∀ x, x + 8 ≤ dataStart u → d' x = d x)
    (hdata : ∀ y, dataStart u ≤ y → y < dataStart u + l.bytes.length → byteAt d' y = byteAt d y) :
    Holds u hdr size d' l := by
  have hle := le_dataStart u
  exact h.move (fun x hx _ => hrest x hx) ((hrest _ (by omega)).trans h.write) ((bytesOf_congr hdata).trans h.data)

end Holds

/-! ## The calls -/

section Step
variable {u : Util} {hdr : List UInt8} {size : ℕ} {w : World} {plp : PMEMlogpool} {l : Contents (size - dataStart u)}

theorem pmemlogAppend_runs {m : Mem} {buf : List UInt8} {end_ write : ℕ} (hrd : plp.rdonly = false)
    (hend : m (endOffset u plp) = end_) (hwrite : m (writeOffset u plp) = write) (hlt : write < end_)
    (hlen : buf.length ≤ end_ - write) (h64 : end_ < 2 ^ 64)
    (hkeep : applyAll (memcpyEvents m (plp.addr + write) buf) m (writeOffset u plp) = write) :
    Runs true (pmemlogAppend u plp buf) m none (publishEvents (memcpyEvents m (plp.addr + write) buf)
      (u.flushed plp.isPmem (plp.addr + write) buf.length) (writeOffset u plp) (write + buf.length)
      (u.flushed plp.isPmem (writeOffset u plp) 8)) := by
  have hpersist := pmemlogPersist_runs u plp (applyAll (memcpyEvents m (plp.addr + write) buf) m)
    (write + buf.length)
  rw [hkeep, show (write + buf.length + 2 ^ 64 - write) % 2 ^ 64 = buf.length by omega] at hpersist
  rw [pmemlogAppend, if_neg (by rw [hrd]; decide), publishEvents, List.append_assoc]
  apply Runs.load_bind hend
  apply Runs.load_bind hwrite
  rw [if_neg (Nat.not_le.mpr hlt), if_neg (Nat.not_lt.mpr hlen)]
  apply (memcpy_runs true buf m (plp.addr + write)).bind
  exact hpersist.bind (Runs.pure true _ none)

theorem pmemlogAppend_full {m : Mem} {buf : List UInt8} (hrd : plp.rdonly = false)
    (hno : m (endOffset u plp) ≤ m (writeOffset u plp) ∨ m (endOffset u plp) - m (writeOffset u plp) < buf.length) :
    Runs true (pmemlogAppend u plp buf) m (some .ENOSPC) [] := by
  rw [pmemlogAppend, if_neg (by rw [hrd]; decide)]
  apply Runs.load_bind rfl
  apply Runs.load_bind rfl
  by_cases hfull : m (endOffset u plp) ≤ m (writeOffset u plp)
  · rw [if_pos hfull]
    exact Runs.pure true m _
  · rw [if_neg hfull, if_pos (hno.resolve_left hfull)]
    exact Runs.pure true m _

theorem pmemlogRewind_runs (hrd : plp.rdonly = false) (m : Mem) : Runs true (pmemlogRewind u plp) m none
    [.store (writeOffset u plp) (m (startOffset u plp)), .flush (u.flushed plp.isPmem (writeOffset u plp) 8)] := by
  rw [pmemlogRewind, if_neg (by rw [hrd]; decide)]
  apply Runs.load_bind rfl
  apply Runs.store_bind
  exact (Runs.flush true _ _).bind (Runs.pure true _ none)

theorem lineOf_writeOffset (u : Util) (plp : PMEMlogpool) :
    lineOf (writeOffset u plp) ∈ u.flushed plp.isPmem (writeOffset u plp) 8 := by
  apply u.covers
  all_goals
    unfold lineOf
    omega

namespace Ready

theorem write_eq (h : Ready u hdr size w plp l) :
    w.mem (writeOffset u plp) = dataStart u + l.bytes.length := h.holds.write

theorem end_eq (h : Ready u hdr size w plp l) : w.mem (endOffset u plp) = size := h.holds.end_

theorem le_size (h : Ready u hdr size w plp l) : dataStart u + l.bytes.length ≤ size := by
  have hfits := l.fits
  have hroom := h.room
  omega

theorem room_iff (h : Ready u hdr size w plp l) (buf : List UInt8) :
    l.Room buf ↔ dataStart u + l.bytes.length < size ∧ buf.length ≤ size - (dataStart u + l.bytes.length) := by
  have hle := h.le_size
  unfold Contents.Room
  omega

theorem silent {α : Type} {prog : Prog α} {a : α} (h : Ready u hdr size w plp l) (hr : Runs true prog w.mem a []) :
    Survives w prog (fun img => Holds u hdr size (fileAt plp.addr img) l) fun r w' => r = a ∧
    Ready u hdr size w' plp l := by
  obtain ⟨hout, hmem⟩ := hr.mem_eq rfl
  refine ⟨fun img hc => ?_, a, (prog w).2, Prod.ext hout rfl, hr.extends_world rfl, rfl, ?_⟩
  · have himg : img = w.mem := funext fun x => hr.crash_unwritten hc (h.clean _) fun e he => absurd he List.not_mem_nil
    exact himg ▸ h.holds
  · have hclean : (prog w).2.Clean := hr.clean_of_no_stores rfl rfl h.clean
    exact ⟨h.writable, h.aligned, h.room, h.small, hclean, by rw [hmem]; exact h.holds⟩

theorem holds_partial (h : Ready u hdr size w plp l) {buf : List UInt8} {img : Mem}
    (hi : ∀ a, img a = w.mem a ∨
      .store a (img a) ∈ memcpyEvents w.mem (plp.addr + (dataStart u + l.bytes.length)) buf) :
    Holds u hdr size (fileAt plp.addr img) l := by
  have halign : 8 ∣ plp.addr := Nat.dvd_trans (by decide) h.aligned
  apply h.holds.congr
  · intro x hx
    exact (hi (plp.addr + x)).resolve_right (not_store_memcpyEvents (by omega))
  · intro y _ hy
    rw [byteAt_fileAt halign, byteAt_fileAt halign]
    exact byteAt_of_memcpyEvents (hi _) (by omega)

theorem holds_append (h : Ready u hdr size w plp l) (buf : List UInt8) (hroom : l.Room buf) :
    Holds u hdr size (fileAt plp.addr (Function.update
      (applyAll (memcpyEvents w.mem (plp.addr + (dataStart u + l.bytes.length)) buf) w.mem) (writeOffset u plp)
      (dataStart u + l.bytes.length + buf.length))) (l.append buf hroom) := by
  have hle := le_dataStart u
  have halign : 8 ∣ plp.addr := Nat.dvd_trans (by decide) h.aligned
  apply h.holds.move
  · intro x hx hne
    have hword : plp.addr + x ≠ writeOffset u plp := by
      unfold writeOffset
      omega
    rw [fileAt_apply, Function.update_of_ne hword, applyAll_memcpyEvents (by omega), fileAt_apply]
  · rw [fileAt_apply, ← writeOffset, Function.update_self, Contents.bytes_append, List.length_append, Nat.add_assoc]
  · -- the offset lies before the data
    have hbyte : ∀ (m : Mem) (v y : ℕ), plp.addr + dataStart u ≤ y →
        byteAt (Function.update m (writeOffset u plp) v) y = byteAt m y := by
      intro m v y hy
      have hdvd := dvd_dataStart u
      have hword : wordOf y ≠ writeOffset u plp := by
        unfold wordOf writeOffset
        omega
      rw [byteAt, Function.update_of_ne hword, byteAt]
    rw [bytesOf_fileAt halign, Contents.bytes_append, List.length_append, bytesOf_congr fun y hy _ => hbyte _ _ y hy,
      bytesOf_add, Nat.add_assoc, bytesOf_memcpyEvents, bytesOf_congr fun y _ hy => byteAt_memcpyEvents (Or.inl _),
      ← bytesOf_fileAt halign, h.holds.data]
    omega

theorem append_step (h : Ready u hdr size w plp l) (buf : List UInt8) (hroom : l.Room buf) :
    Survives w (pmemlogAppend u plp buf)
      (fun img => Holds u hdr size (fileAt plp.addr img) l ∨ Holds u hdr size (fileAt plp.addr img) (l.append buf hroom))
      fun r w' => r = none ∧ Ready u hdr size w' plp (l.append buf hroom) := by
  obtain ⟨hlt, hlen⟩ := (h.room_iff buf).mp hroom
  have hle := le_dataStart u
  have hsmall := h.small
  have hkeep : applyAll (memcpyEvents w.mem (plp.addr + (dataStart u + l.bytes.length)) buf) w.mem (writeOffset u plp) =
      dataStart u + l.bytes.length := by
    rw [applyAll_memcpyEvents, h.write_eq]
    unfold writeOffset
    omega
  have hruns := pmemlogAppend_runs h.writable h.end_eq h.write_eq hlt hlen (by omega) hkeep
  have hdata : ∀ e ∈ memcpyEvents w.mem (plp.addr + (dataStart u + l.bytes.length)) buf, ∀ a, e.Writes a →
      lineOf a ∈ u.flushed plp.isPmem (plp.addr + (dataStart u + l.bytes.length)) buf.length := by
    intro e he a ha
    obtain ⟨i, hi, rfl⟩ := writes_memcpyEvents he ha
    apply u.covers
    all_goals
      unfold lineOf wordOf
      omega
  obtain ⟨hout, hmem⟩ := hruns.mem_eq rfl
  refine ⟨fun img hc => ?_, none, _, Prod.ext hout rfl, hruns.extends_world rfl, rfl, h.writable, h.aligned, h.room,
    h.small, hruns.publish_clean h.clean hdata (lineOf_writeOffset u plp), ?_⟩
  · rcases hruns.publish_crash h.clean hdata hc with hold | hnew
    · exact Or.inl (h.holds_partial hold)
    · exact Or.inr (hnew ▸ h.holds_append buf hroom)
  · rw [hmem, applyAll_publishEvents]
    exact h.holds_append buf hroom

theorem holds_rewind (h : Ready u hdr size w plp l) :
    Holds u hdr size (fileAt plp.addr (Function.update w.mem (writeOffset u plp) (w.mem (startOffset u plp))))
      (Contents.empty _) := by
  apply h.holds.move
  · intro x _ hne
    have hword : plp.addr + x ≠ writeOffset u plp := by
      unfold writeOffset
      omega
    rw [fileAt_apply, Function.update_of_ne hword, fileAt_apply]
  · rw [fileAt_apply, ← writeOffset, Function.update_self, Contents.bytes_empty, List.length_nil, Nat.add_zero]
    exact h.holds.start
  · rfl

theorem rewind_step (h : Ready u hdr size w plp l) :
    Survives w (pmemlogRewind u plp)
      (fun img => Holds u hdr size (fileAt plp.addr img) l ∨ Holds u hdr size (fileAt plp.addr img) (Contents.empty _))
      fun r w' => r = none ∧ Ready u hdr size w' plp (Contents.empty _) := by
  have hruns := pmemlogRewind_runs (u := u) h.writable w.mem
  obtain ⟨hout, hmem⟩ := hruns.mem_eq rfl
  refine ⟨fun img hc => ?_, none, _, Prod.ext hout rfl, hruns.extends_world rfl, rfl, h.writable, h.aligned, h.room,
    h.small, hruns.store_clean h.clean (lineOf_writeOffset u plp), ?_⟩
  · rcases hruns.store_crash h.clean hc with rfl | rfl
    · exact Or.inl h.holds
    · exact Or.inr h.holds_rewind
  · rw [hmem, applyAll_store, applyAll_flush, applyAll_nil]
    exact h.holds_rewind

/-- Every call follows its step, and a crash in it leaves the contents as they were or as they should be. -/
theorem call_step (h : Ready u hdr size w plp l) {c : Call} (hc : c.Legal) :
    Survives w (c.run u plp)
      (fun img => Holds u hdr size (fileAt plp.addr img) l ∨ Holds u hdr size (fileAt plp.addr img) (c.step l).1)
      fun r w' => r = (c.step l).2 ∧ Ready u hdr size w' plp (c.step l).1 := by
  have happend : ∀ buf, (if hroom : l.Room buf then (l.append buf hroom, none) else (l, some Errno.ENOSPC)) = c.step l →
      Survives w (pmemlogAppend u plp buf)
        (fun img => Holds u hdr size (fileAt plp.addr img) l ∨ Holds u hdr size (fileAt plp.addr img) (c.step l).1)
        fun r w' => r = (c.step l).2 ∧ Ready u hdr size w' plp (c.step l).1 := by
    intro buf heq
    rw [← heq]
    by_cases hroom : l.Room buf
    · rw [dif_pos hroom]
      exact h.append_step buf hroom
    · rw [dif_neg hroom]
      rw [h.room_iff] at hroom
      have hfull : Runs true (pmemlogAppend u plp buf) w.mem (some .ENOSPC) [] :=
        pmemlogAppend_full h.writable (by rw [h.end_eq, h.write_eq]; omega)
      exact (h.silent hfull).mono (fun img hold => Or.inl hold) fun r w' hpost => hpost
  cases c with
  | append buf => exact happend buf rfl
  | appendv iov =>
    have hsmall := h.small
    have heq : pmemlogAppendv u plp iov w = pmemlogAppend u plp iov.flatten w := appendv_eq hc (by rw [h.end_eq]; omega)
    obtain ⟨hcrash, r, w', hrun, hpost⟩ := happend iov.flatten rfl
    exact ⟨fun img ⟨k, hk⟩ => hcrash img ⟨k, heq ▸ hk⟩, r, w', heq.trans hrun, hpost⟩
  | rewind => exact h.rewind_step

end Ready

end Step

end PmemExamples.Log
