import PmemExamples.Libpmem.Flush

/-! # `pmem_persist` in the relaxed build

In the `-D_NODATAPERSIST` build the epoch flag decides which flagged calls flush. `Issues` gives the
events a program issues and the reads of the flag it leaves, exactly. -/

namespace PmemExamples.Libpmem
open Persist
set_option autoImplicit false

/-- The reads after the first `n`. -/
def later (n : ℕ) (epoch : ℕ → Bool) : ℕ → Bool := fun k => epoch (n + k)

/-- The three tests of a flagged call: does it flush, and which reads are left? -/
def tests (epoch : ℕ → Bool) : Bool × (ℕ → Bool) :=
  if epoch 0 then if epoch 1 then (epoch 2, later 3 epoch) else (false, later 2 epoch)
  else (false, later 1 epoch)

/-- The same for a call with any flags. -/
def flagTests (flags : ℕ) (epoch : ℕ → Bool) : Bool × (ℕ → Bool) :=
  if flags = dataPersist then tests epoch else (true, epoch)

/-- A flush that is executed or not. -/
def maybeFlush (b : Bool) (ls : List ℕ) : List Event := if b then [.flush ls] else []

theorem not_writes_maybeFlush {b : Bool} {ls : List ℕ} {ev : Event} {a : ℕ} (h : ev ∈ maybeFlush b ls) :
    ¬ ev.Writes a := by
  unfold maybeFlush at h
  split at h
  · rw [List.mem_singleton.mp h]
    exact Event.writes_flush _ _
  · simp at h

/-- The program returns `a`, issues `evs` and leaves the reads `epoch'`. -/
def Issues {α : Type} (prog : Prog α) (w : World) (a : α) (evs : List Event) (epoch' : ℕ → Bool) :
    Prop :=
  prog w = (.ok a, { w with trace := w.trace ++ evs, epoch := epoch' })

namespace Issues
variable {α β : Type} {prog : Prog α} {f : α → Prog β} {w : World} {a : α} {b : β}
  {evs evs' : List Event} {ep ep' : ℕ → Bool}

theorem pure (w : World) (a : α) : Issues (Pure.pure a) w a [] w.epoch := by
  obtain ⟨base, trace, relaxed, epoch⟩ := w
  simp [Issues, Pure.pure, Prog.pure]

theorem bind (h : Issues prog w a evs ep)
    (hf : Issues (f a) { w with trace := w.trace ++ evs, epoch := ep } b evs' ep') :
    Issues (prog >>= f) w b (evs ++ evs') ep' := by
  unfold Issues at h hf ⊢
  rw [Prog.bind_ok h, hf, List.append_assoc]

theorem bind_silent (h : Issues prog w a [] ep) (hf : Issues (f a) { w with epoch := ep } b evs ep') :
    Issues (prog >>= f) w b evs ep' := by
  unfold Issues at h hf ⊢
  rw [List.append_nil] at h
  rw [Prog.bind_ok h, hf]

theorem load_bind {c v : ℕ} {g : ℕ → Prog β} (hv : w.mem c = v) (h : Issues (g v) w b evs ep) :
    Issues (Prog.load c >>= g) w b evs ep := by
  unfold Issues at h ⊢
  rw [Prog.bind_ok (Prog.load_apply c w), hv, h]

theorem store_bind {c v : ℕ} {g : Unit → Prog β}
    (h : Issues (g ()) (w.emit (.store c v)) b evs ep) :
    Issues (Prog.store c v >>= g) w b (.store c v :: evs) ep := by
  unfold Issues at h ⊢
  rw [Prog.bind_ok (Prog.store_apply c v w), h]
  simp [World.emit]

theorem mem (h : Issues prog w a evs ep) : (prog w).2.mem = applyAll evs w.mem := by
  rw [h]
  exact applyAll_append _ _ _

theorem extends_world (h : Issues prog w a evs ep) : w.Extends (prog w).2 := by
  rw [h]
  exact ⟨rfl, evs, rfl⟩

end Issues

section Relaxed
variable {base : Mem} {trace : List Event} {epoch : ℕ → Bool}

theorem later_one (epoch : ℕ → Bool) : (fun n => epoch (n + 1)) = later 1 epoch := by
  funext n
  rw [later, Nat.add_comm]

theorem later_later (m n : ℕ) (epoch : ℕ → Bool) : later m (later n epoch) = later (n + m) epoch := by
  funext k
  simp only [later, Nat.add_assoc]

theorem dropped_level (p : Prog Unit) (flags : ℕ) :
    (dropped flags >>= fun b => if b then return () else p) ⟨base, trace, true, epoch⟩ =
      if flags = dataPersist then
        if epoch 0 then p ⟨base, trace, true, later 1 epoch⟩
        else (.ok (), ⟨base, trace, true, later 1 epoch⟩)
      else p ⟨base, trace, true, epoch⟩ := by
  rw [← later_one]
  by_cases hf : flags = dataPersist
  · have hd : dropped flags ⟨base, trace, true, epoch⟩ =
        (.ok (!epoch 0), ⟨base, trace, true, fun n => epoch (n + 1)⟩) := by
      rw [dropped, Prog.bind_ok (Prog.isRelaxed_apply _), if_pos rfl, if_pos hf]
      rfl
    rw [Prog.bind_ok hd, if_pos hf]
    cases epoch 0 <;> rfl
  · have hd : dropped flags ⟨base, trace, true, epoch⟩ = (.ok false, ⟨base, trace, true, epoch⟩) := by
      rw [dropped, Prog.bind_ok (Prog.isRelaxed_apply _), if_pos rfl, if_neg hf]
      rfl
    rw [Prog.bind_ok hd, if_neg hf]
    rfl

theorem pmemPersist_issues {w : World} (hr : w.relaxed = true) (addr len flags : ℕ) :
    Issues (pmemPersist addr len flags) w () (maybeFlush (flagTests flags w.epoch).1 (clLines addr len))
      (flagTests flags w.epoch).2 := by
  obtain ⟨base, trace, relaxed, epoch⟩ := w
  obtain rfl : relaxed = true := hr
  unfold Issues pmemPersist
  rw [dropped_level, pmemPersistCl, dropped_level, dropped_level, pmemFlushCacheCl, dropped_level,
    dropped_level, dropped_level, flagTests, tests, later_later, later_later]
  have h1 : later 1 epoch 0 = epoch 1 := rfl
  have h2 : later (1 + 1) epoch 0 = epoch 2 := rfl
  simp only [h1, h2]
  by_cases hf : flags = dataPersist
  · simp only [if_pos hf]
    cases epoch 0 <;> cases epoch 1 <;> cases epoch 2 <;> simp [maybeFlush, World.emit]
  · simp [if_neg hf, maybeFlush, World.emit]

/-- What the flags read at the head of a routine are. -/
def openFlags (epoch : ℕ → Bool) : ℕ := if epoch 0 then 0 else dataPersist

end Relaxed

end PmemExamples.Libpmem
