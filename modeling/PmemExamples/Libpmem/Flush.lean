import PmemExamples.Persist.Program

/-! # `pmem_persist` in cache-line mode (`libpmem/pmem.c`, `pmem_cl.c`, `epoch.c`)

In the `-D_NODATAPERSIST` build a call flagged `_DATAPERSIST` is dropped when `enable_persist()` reads
zero, and the flag is read again at each of the three levels the call passes through. All other
calls flush every line of their range. The log of the `-D_ENABLE_LOG` build is not part of these calls: it lies in
a file of its own, and `pmemPersistIn_cl` says that a call whose range it takes does what they do. -/

namespace PmemExamples.Libpmem
open Persist
set_option autoImplicit false

/-- `_DATAPERSIST`. -/
@[simp] abbrev dataPersist : ℕ := 10

/-- `enable_persist()`: the value the epoch thread last wrote. -/
def enablePersist : Prog Bool := Prog.readEpoch

/-- The lines visited by `for (uptr = addr & ~(ALIGN - 1); uptr < addr + len; uptr += 64)`. -/
def clLines (addr len : ℕ) : List ℕ := List.range' (addr / 64) ((addr + len + 63) / 64 - addr / 64)

/-- The test at the head of each level: `flags == _DATAPERSIST` and `!enable_persist()`. -/
def dropped (flags : ℕ) : Prog Bool := do
  if ← Prog.isRelaxed then
    if flags = dataPersist then return !(← enablePersist) else return false
  else return false

def pmemFlushCacheCl (addr len flags : ℕ) : Prog Unit := do
  if ← dropped flags then return () else Prog.flush (clLines addr len)

def pmemPersistCl (addr len flags : ℕ) : Prog Unit := do
  if ← dropped flags then return () else pmemFlushCacheCl addr len flags

def pmemPersist (addr len flags : ℕ) : Prog Unit := do
  if ← dropped flags then return () else pmemPersistCl addr len flags

/-- The flags of a persist of data: `_DATAPERSIST` in the `-D_NODATAPERSIST` build, else 0. -/
def dataFlags : Prog ℕ := do
  if ← Prog.isRelaxed then return dataPersist else return 0

/-! ## What a call does -/

theorem mem_clLines {addr len ℓ : ℕ} : ℓ ∈ clLines addr len ↔ addr / 64 ≤ ℓ ∧ ℓ * 64 < addr + len := by
  simp only [clLines, List.mem_range'_1]
  omega

theorem clLines_header {a : ℕ} (h : 64 ∣ a) : clLines a 64 = [lineOf a] := by
  obtain ⟨k, rfl⟩ := h
  have h1 : 64 * k / 64 = k := by omega
  have h2 : (64 * k + 64 + 63) / 64 - k = 1 := by omega
  simp [clLines, lineOf, h1, h2]

theorem mem_clLines_word (a : ℕ) : lineOf a ∈ clLines a 8 := by
  rw [mem_clLines, lineOf]
  omega

theorem dropped_zero_runs (x : Bool) (m : Mem) : Runs x (dropped 0) m false [] := by
  intro w _
  refine ⟨w, [], ?_, rfl, id, by simp, rfl, fun _ => rfl⟩
  rw [dropped, Prog.bind_ok (Prog.isRelaxed_apply w)]
  cases w.relaxed <;> rfl

theorem pmemPersist_runs (x : Bool) (m : Mem) (addr len : ℕ) :
    Runs x (pmemPersist addr len 0) m () [.flush (clLines addr len)] :=
  (dropped_zero_runs x m).bind_silent <| (dropped_zero_runs x m).bind_silent <|
    (dropped_zero_runs x m).bind_silent <| Runs.flush x m _

/-- The test changes nothing but the epoch flag's future, and says no where no flush is skipped. -/
theorem dropped_apply (flags : ℕ) (w : World) : ∃ b epoch, dropped flags w =
    (.ok b, { w with epoch := epoch }) ∧
    (w.Persisting → b = false ∧ World.Persisting { w with epoch := epoch }) := by
  rw [dropped, Prog.bind_ok (Prog.isRelaxed_apply w)]
  obtain ⟨base, trace, relaxed, epoch⟩ := w
  cases relaxed
  · exact ⟨false, epoch, rfl, fun h => ⟨rfl, h⟩⟩
  · by_cases hf : flags = dataPersist
    · rw [if_pos rfl, if_pos hf]
      refine ⟨!epoch 0, fun n => epoch (n + 1), rfl, ?_⟩
      rintro (h | h)
      · cases h
      · exact ⟨congrArg (!·) (h 0), Or.inr fun n => h (n + 1)⟩
    · rw [if_pos rfl, if_neg hf]
      exact ⟨false, epoch, rfl, fun h => ⟨rfl, h⟩⟩

/-- One level of a call: the part behind the test runs, or the call is dropped. -/
theorem dropped_level_runs {flags : ℕ} {m : Mem} {p : Prog Unit} {ls : List ℕ}
    (h : Runs false p m () [.flush ls]) :
    Runs false (dropped flags >>= fun b => if b then return () else p) m () [.flush ls] := by
  intro w hw
  obtain ⟨b, epoch, hb, hkeep⟩ := dropped_apply flags w
  rw [Prog.bind_ok hb]
  cases b with
  | true =>
    have hno : ¬ w.Persisting := fun hp => absurd (hkeep hp).1 (by simp)
    refine ⟨_, [], rfl, rfl, fun hp => absurd hp hno, by simp, rfl, ?_⟩
    rintro (h | h)
    · cases h
    · exact absurd h hno
  | false =>
    obtain ⟨w', e, h1, h2, h3, h4, h5, h6⟩ := h { w with epoch := epoch } hw
    exact ⟨w', e, h1, h2, fun hp => h3 (hkeep hp).2, h4, h5,
      fun hx => h6 (hx.imp_right fun hp => (hkeep hp).2)⟩

theorem pmemPersist_runs_flagged (m : Mem) (addr len flags : ℕ) :
    Runs false (pmemPersist addr len flags) m () [.flush (clLines addr len)] :=
  dropped_level_runs <| dropped_level_runs <| dropped_level_runs <| Runs.flush false m _

theorem runs_dataFlags {β : Type} {f : ℕ → Prog β} {m : Mem} {b : β} {evs : List Event}
    (h : ∀ flags, Runs false (f flags) m b evs) : Runs false (dataFlags >>= f) m b evs := by
  intro w hw
  have hflags : ∃ flags, dataFlags w = (.ok flags, w) := by
    rw [dataFlags, Prog.bind_ok (Prog.isRelaxed_apply w)]
    cases w.relaxed
    · exact ⟨0, rfl⟩
    · exact ⟨dataPersist, rfl⟩
  obtain ⟨flags, hf⟩ := hflags
  rw [Prog.bind_ok hf]
  exact h flags w hw

end PmemExamples.Libpmem
