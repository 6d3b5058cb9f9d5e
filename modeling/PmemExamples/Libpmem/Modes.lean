import PmemExamples.Libpmem.Relaxed
import PmemExamples.Persist.Buffers

/-! # The three modes of `libpmem` (`pmem.c`, `pmem_cl.c`, `pmem_msync.c`, `pmem_fit.c`)

In fault-injection mode the process works on a private copy of the file and `pmem_persist` writes its
lines back, so that the file shows what was flushed. It stands in for cache-line mode as long as no
flagged call is made while `enable_persist()` is nonzero, which fit mode drops, and the log that cache-line
mode keeps has room (`faithful_iff`). -/

namespace PmemExamples.Libpmem
open Persist
set_option autoImplicit false

/-- `Mode`, the index into the dispatch tables. -/
inductive Mode where
  | cl
  | msync
  | fit
  deriving DecidableEq

/-- `#define ALIGN 4096` of `pmem_msync.c`. -/
@[simp] abbrev msyncAlign : ℕ := 4096

/-- The lines of the pages `msync` is called on; `len` is a `size_t`. -/
def msyncLines (addr len : ℕ) : List ℕ :=
  let len := (len + addr % msyncAlign) % 2 ^ 64
  let uptr := addr / msyncAlign * msyncAlign
  let len := (len + (msyncAlign - 1)) % 2 ^ 64 / msyncAlign * msyncAlign
  List.range' (uptr / 64) (len / 64)

def pmemFlushCacheMsync (addr len _flags : ℕ) : Prog Unit := Prog.flush (msyncLines addr len)

def pmemPersistMsync (addr len flags : ℕ) : Prog Unit := pmemFlushCacheMsync addr len flags

/-- The test of fit mode: `flags == _DATAPERSIST`, whatever `enable_persist()` says. -/
def droppedFit (flags : ℕ) : Prog Bool := do
  if ← Prog.isRelaxed then return flags = dataPersist else return false

/-- One `pwrite` of a line for each line of the range. -/
def pwriteLines : List ℕ → Prog Unit
  | [] => pure ()
  | ℓ :: ls => do
    Prog.flush [ℓ]
    pwriteLines ls

/-- `PM_base` is where `pmem_map_fit` mapped the file. -/
def pmemFlushCacheFit (pmBase addr len flags : ℕ) : Prog Unit := do
  if pmBase = 0 then Prog.fatal "pmem_map hasn't been called"
  else if ← droppedFit flags then return () else pwriteLines (clLines addr len)

def pmemPersistFit (pmBase addr len flags : ℕ) : Prog Unit := do
  if ← droppedFit flags then return () else pmemFlushCacheFit pmBase addr len flags

section Log
variable {σ : Type} (append : σ → List UInt8 → Option σ)

/-- `write_log` of the `-D_ENABLE_LOG` build. `append` is `pmemlog_append`: the log after it, or none if it
returns -1. -/
def writeLog (plp : Option σ) (addr len : ℕ) : Prog (Option σ) :=
  match plp with
  | none => Prog.fatal "invalid log ptr"
  | some log => do
    let buf ← readBytes addr len
    match append log buf with
    | none => Prog.fatal "pmemlog_append"
    | some log => return some log

/-- `pmem_persist_cl` of that build: the range goes to the log `g_plp` before it is flushed. -/
def pmemPersistClLog (plp : Option σ) (addr len flags : ℕ) : Prog (Option σ) := do
  if ← dropped flags then return plp
  else do
    let plp ← writeLog append plp addr len
    pmemFlushCacheCl addr len flags
    return plp

/-- `pmem_persist`, by mode, and `g_plp` after it. -/
def pmemPersistIn (mode : Mode) (pmBase : ℕ) (plp : Option σ) (addr len flags : ℕ) : Prog (Option σ) := do
  if ← dropped flags then return plp
  else match mode with
    | .cl => pmemPersistClLog append plp addr len flags
    | .msync => do
      pmemPersistMsync addr len flags
      return plp
    | .fit => do
      pmemPersistFit pmBase addr len flags
      return plp

/-- With a log that takes the range, cache-line mode is the `pmem_persist` of a build that keeps none. -/
theorem pmemPersistIn_cl {append : σ → List UInt8 → Option σ} {log log' : σ} {addr len : ℕ} {w : World}
    (h : append log (bytesOf w.mem addr len) = some log') (pmBase flags : ℕ) : ∃ plp,
      pmemPersistIn append .cl pmBase (some log) addr len flags w = (.ok plp, (pmemPersist addr len flags w).2) := by
  obtain ⟨b, epoch, hb, -⟩ := dropped_apply flags w
  rw [pmemPersistIn, pmemPersist, Prog.bind_ok hb, Prog.bind_ok hb]
  cases b with
  | true => exact ⟨some log, rfl⟩
  | false =>
    obtain ⟨b, epoch', hb, -⟩ := dropped_apply flags { w with epoch := epoch }
    simp only [Bool.false_eq_true, if_false, pmemPersistClLog, pmemPersistCl]
    rw [Prog.bind_ok hb, Prog.bind_ok hb]
    cases b with
    | true => exact ⟨some log, rfl⟩
    | false =>
      obtain ⟨b, epoch'', hb, -⟩ := dropped_apply flags { w with epoch := epoch' }
      have hlog : writeLog append (some log) addr len { w with epoch := epoch' } =
          (.ok (some log'), { w with epoch := epoch' }) := by
        have hmem : World.mem { w with epoch := epoch' } = w.mem := rfl
        rw [writeLog, Prog.bind_ok (readBytes_apply addr len _), hmem, h]
        rfl
      refine ⟨some log', ?_⟩
      simp only [Bool.false_eq_true, if_false]
      rw [Prog.bind_ok hlog, pmemFlushCacheCl, Prog.bind_apply, Prog.bind_ok hb]
      cases b <;> rfl

/-! ## Runs -/

/-- A store of the process, or a call of `pmem_persist` while `enable_persist()` is `enabled`. -/
inductive Op where
  | store (a v : ℕ)
  | persist (addr len flags : ℕ) (enabled : Bool)

/-- A process, its log, and whether it has called `exit`. -/
structure Process (σ : Type) where
  world : World
  plp : Option σ
  exited : Bool

def Op.call (mode : Mode) (pmBase : ℕ) (s : Process σ) : Op → Process σ
  | .store a v => { s with world := (Prog.store a v s.world).2 }
  | .persist addr len flags enabled =>
    match pmemPersistIn append mode pmBase s.plp addr len flags { s.world with epoch := fun _ => enabled } with
    | (.ok plp, w) => ⟨w, plp, false⟩
    | (_, w) => ⟨w, s.plp, true⟩

def Op.run (mode : Mode) (pmBase : ℕ) (s : Process σ) (op : Op) : Process σ :=
  if s.exited then s else op.call append mode pmBase s

/-- A process of the `-D_NODATAPERSIST -D_ENABLE_LOG` build that has mapped the file `base`, and in cache-line mode
opened the log `log`, and made the steps `ops`. -/
def after (mode : Mode) (pmBase : ℕ) (base : Mem) (log : σ) (ops : List Op) : Process σ :=
  ops.foldl (Op.run append mode pmBase)
    ⟨World.boot base true fun _ => false, if mode = .cl then some log else none, false⟩

/-- The step makes the line durable. -/
def Op.MakesDurable (mode : Mode) (pmBase : ℕ) (s : Process σ) (op : Op) (ℓ : ℕ) : Prop :=
  ∃ ev ∈ (op.run append mode pmBase s).world.trace.drop s.world.trace.length, ev.Flushes ℓ

end Log

/-- Memory and file in fit mode: stores go to memory, a `pwrite` copies lines from it to the file. -/
def fitStep (s : Mem × Mem) : Event → Mem × Mem
  | .store a v => (Function.update s.1 a v, s.2)
  | .flush ls => (s.1, fun x => if lineOf x ∈ ls then s.1 x else s.2 x)

/-- The file in fit mode after some events. -/
def fitFile (base : Mem) (evs : List Event) : Mem := (evs.foldl fitStep (base, base)).2

/-- The word at `x` held `v` when its line was last flushed. -/
def LastFlushed (base : Mem) (evs : List Event) (x v : ℕ) : Prop :=
  (v = base x ∧ ∀ ev ∈ evs, ¬ ev.Flushes (lineOf x)) ∨
    ∃ l ev r, evs = l ++ ev :: r ∧ ev.Flushes (lineOf x) ∧ (∀ ev' ∈ r, ¬ ev'.Flushes (lineOf x)) ∧
      v = applyAll l base x

/-- The call is dropped in every mode. -/
def Skipped (flags : ℕ) (enabled : Bool) : Prop := flags = dataPersist ∧ enabled = false

instance (flags : ℕ) (enabled : Bool) : Decidable (Skipped flags enabled) := inferInstanceAs (Decidable (_ ∧ _))

section Log
variable {σ : Type} (append : σ → List UInt8 → Option σ)

/-- The lines a step makes durable after the steps `l`: the same in fit mode as in cache-line mode, none that
`msync` mode leaves out, and those of its range when it is not dropped. -/
structure Agrees (pmBase : ℕ) (base : Mem) (log : σ) (l : List Op) (op : Op) : Prop where
  fit : ∀ ℓ, op.MakesDurable append .fit pmBase (after append .fit pmBase base log l) ℓ ↔
    op.MakesDurable append .cl pmBase (after append .cl pmBase base log l) ℓ
  msync : ∀ ℓ, op.MakesDurable append .cl pmBase (after append .cl pmBase base log l) ℓ →
    op.MakesDurable append .msync pmBase (after append .msync pmBase base log l) ℓ
  exact : ∀ addr len flags enabled, op = .persist addr len flags enabled → ¬ Skipped flags enabled →
    0 < len → ∀ ℓ, op.MakesDurable append .cl pmBase (after append .cl pmBase base log l) ℓ ↔
      ∃ x, addr ≤ x ∧ x < addr + len ∧ lineOf x = ℓ

/-- Fit mode stands in for cache-line mode in the run: in every call, and in the file after any of its steps. -/
structure Faithful (pmBase : ℕ) (base : Mem) (log : σ) (ops : List Op) : Prop where
  calls : ∀ l op r, ops = l ++ op :: r → Agrees append pmBase base log l op
  file : ∀ l r, ops = l ++ r → ∀ x, LastFlushed base (after append .cl pmBase base log l).world.trace x
    (fitFile base (after append .fit pmBase base log l).world.trace x)

/-- The process has not exited, and its log has room for the range. -/
def Process.Takes (s : Process σ) (addr len : ℕ) : Prop :=
  s.exited = false ∧ ∃ log ∈ s.plp, (append log (bytesOf s.world.mem addr len)).isSome = true

/-- In cache-line mode, the call is dropped in every mode, or it is not flagged and `write_log` comes back; or its
length is 0, and it visits no line or is flagged and does not get to the flush. -/
def Op.Alike (s : Process σ) : Op → Prop
  | .store _ _ => True
  | .persist addr len flags enabled => Skipped flags enabled ∨
    flags ≠ dataPersist ∧ s.Takes append addr len ∨
    len = 0 ∧ (64 ∣ addr ∨ flags = dataPersist ∧ ¬ s.Takes append addr len)

end Log

/-- The range of the call, rounded to whole pages, does not wrap around. -/
def Op.NoWrap : Op → Prop
  | .store _ _ => True
  | .persist addr len _ _ => addr + len + (msyncAlign - 1) < 2 ^ 64

/-! ## The events of a step -/

/-- What a step issues when it comes back. -/
def Op.events (mode : Mode) : Op → List Event
  | .store a v => [.store a v]
  | .persist addr len flags enabled =>
    if flags = dataPersist ∧ enabled = false then []
    else match mode with
      | .cl => [.flush (clLines addr len)]
      | .msync => [.flush (msyncLines addr len)]
      | .fit => if flags = dataPersist then [] else (clLines addr len).map fun ℓ => .flush [ℓ]

section Run
variable {σ : Type} {append : σ → List UInt8 → Option σ} {pmBase addr len flags : ℕ} {enabled : Bool} {base : Mem}
  {trace : List Event} {w : World} {plp : Option σ} {log log' : σ}

theorem Op.events_skipped (hs : Skipped flags enabled) (mode : Mode) :
    (Op.persist addr len flags enabled).events mode = [] := if_pos hs

theorem Op.events_cl (hs : ¬ Skipped flags enabled) :
    (Op.persist addr len flags enabled).events .cl = [.flush (clLines addr len)] := if_neg hs

theorem Op.events_msync (hs : ¬ Skipped flags enabled) :
    (Op.persist addr len flags enabled).events .msync = [.flush (msyncLines addr len)] := if_neg hs

theorem Op.events_fit (hs : ¬ Skipped flags enabled) : (Op.persist addr len flags enabled).events .fit =
    if flags = dataPersist then [] else (clLines addr len).map fun ℓ => .flush [ℓ] := if_neg hs

theorem pwriteLines_apply (ls : List ℕ) (w : World) : pwriteLines ls w =
    (.ok (), { w with trace := w.trace ++ ls.map fun ℓ => .flush [ℓ] }) := by
  induction ls generalizing w with
  | nil => simp [pwriteLines]
  | cons ℓ ls ih =>
    rw [pwriteLines, Prog.bind_ok (Prog.flush_apply [ℓ] w), ih]
    simp [World.emit]

theorem droppedFit_apply (hr : w.relaxed = true) (flags : ℕ) :
    droppedFit flags w = (.ok (decide (flags = dataPersist)), w) := by
  rw [droppedFit, Prog.bind_ok (Prog.isRelaxed_apply w), if_pos hr]
  rfl

theorem pmemPersistFit_apply (hb : pmBase ≠ 0) (hr : w.relaxed = true) (addr len flags : ℕ) :
    pmemPersistFit pmBase addr len flags w = (.ok (), { w with trace := w.trace ++
      if flags = dataPersist then [] else (clLines addr len).map fun ℓ => .flush [ℓ] }) := by
  rw [pmemPersistFit, Prog.bind_ok (droppedFit_apply hr flags)]
  by_cases hf : flags = dataPersist
  · simp [hf]
  · rw [if_neg (by simpa using hf), pmemFlushCacheFit, if_neg hb, Prog.bind_ok (droppedFit_apply hr flags),
      if_neg (by simpa using hf), pwriteLines_apply, if_neg hf]

/-- While `enable_persist()` does not change, a test says whether the call is dropped. -/
theorem dropped_fixed (base : Mem) (trace : List Event) (flags : ℕ) (enabled : Bool) :
    dropped flags ⟨base, trace, true, fun _ => enabled⟩ =
      (.ok (decide (Skipped flags enabled)), ⟨base, trace, true, fun _ => enabled⟩) := by
  unfold dropped Skipped
  rw [Prog.bind_ok (Prog.isRelaxed_apply _)]
  by_cases hf : flags = dataPersist
  · cases enabled <;> simp [hf, enablePersist, Prog.bind_apply]
  · simp [hf]

theorem pmemPersistIn_skipped (hs : Skipped flags enabled) (mode : Mode) :
    pmemPersistIn append mode pmBase plp addr len flags ⟨base, trace, true, fun _ => enabled⟩ =
      (.ok plp, ⟨base, trace, true, fun _ => enabled⟩) := by
  unfold pmemPersistIn
  rw [Prog.bind_ok (dropped_fixed _ _ _ _), decide_eq_true hs]
  rfl

theorem pmemPersistIn_msync (hs : ¬ Skipped flags enabled) :
    pmemPersistIn append .msync pmBase plp addr len flags ⟨base, trace, true, fun _ => enabled⟩ =
      (.ok plp, ⟨base, trace ++ [.flush (msyncLines addr len)], true, fun _ => enabled⟩) := by
  unfold pmemPersistIn
  rw [Prog.bind_ok (dropped_fixed _ _ _ _), decide_eq_false hs]
  rfl

theorem pmemPersistIn_fit (hb : pmBase ≠ 0) (hs : ¬ Skipped flags enabled) :
    pmemPersistIn append .fit pmBase plp addr len flags ⟨base, trace, true, fun _ => enabled⟩ =
      (.ok plp, ⟨base, trace ++ (Op.persist addr len flags enabled).events .fit, true, fun _ => enabled⟩) := by
  unfold pmemPersistIn
  rw [Prog.bind_ok (dropped_fixed _ _ _ _), decide_eq_false hs, if_neg Bool.false_ne_true,
    Op.events_fit hs]
  simp only
  rw [Prog.bind_ok (pmemPersistFit_apply hb rfl addr len flags)]
  rfl

theorem pmemPersistIn_takes (hs : ¬ Skipped flags enabled)
    (h : append log (bytesOf (applyAll trace base) addr len) = some log') :
    pmemPersistIn append .cl pmBase (some log) addr len flags ⟨base, trace, true, fun _ => enabled⟩ =
      (.ok (some log'), ⟨base, trace ++ [.flush (clLines addr len)], true, fun _ => enabled⟩) := by
  have hlog : writeLog append (some log) addr len ⟨base, trace, true, fun _ => enabled⟩ =
      (.ok (some log'), ⟨base, trace, true, fun _ => enabled⟩) := by
    rw [writeLog, Prog.bind_ok (readBytes_apply addr len _), World.mem, h]
    rfl
  have hflush : pmemFlushCacheCl addr len flags ⟨base, trace, true, fun _ => enabled⟩ =
      (.ok (), ⟨base, trace ++ [.flush (clLines addr len)], true, fun _ => enabled⟩) := by
    rw [pmemFlushCacheCl, Prog.bind_ok (dropped_fixed _ _ _ _), decide_eq_false hs]
    rfl
  unfold pmemPersistIn
  rw [Prog.bind_ok (dropped_fixed _ _ _ _), decide_eq_false hs, if_neg Bool.false_ne_true]
  simp only [pmemPersistClLog]
  rw [Prog.bind_ok (dropped_fixed _ _ _ _), decide_eq_false hs, if_neg Bool.false_ne_true, Prog.bind_ok hlog,
    Prog.bind_ok hflush]
  rfl

theorem pmemPersistIn_refuses (hs : ¬ Skipped flags enabled)
    (h : ¬ ∃ log ∈ plp, (append log (bytesOf (applyAll trace base) addr len)).isSome = true)
    (pmBase : ℕ) : ∃ msg, pmemPersistIn append .cl pmBase plp addr len flags ⟨base, trace, true, fun _ => enabled⟩ =
      (.fatal msg, ⟨base, trace, true, fun _ => enabled⟩) := by
  have hlog : ∃ msg, writeLog append plp addr len ⟨base, trace, true, fun _ => enabled⟩ =
      (.fatal msg, ⟨base, trace, true, fun _ => enabled⟩) := by
    cases plp with
    | none => exact ⟨_, rfl⟩
    | some log =>
      have hnone : append log (bytesOf (applyAll trace base) addr len) = none := by
        rw [← Option.not_isSome_iff_eq_none]
        exact fun hsome => h ⟨log, rfl, hsome⟩
      refine ⟨"pmemlog_append", ?_⟩
      rw [writeLog, Prog.bind_ok (readBytes_apply addr len _), World.mem, hnone]
      rfl
  obtain ⟨msg, hlog⟩ := hlog
  refine ⟨msg, ?_⟩
  unfold pmemPersistIn
  rw [Prog.bind_ok (dropped_fixed _ _ _ _), decide_eq_false hs, if_neg Bool.false_ne_true]
  simp only [pmemPersistClLog]
  rw [Prog.bind_ok (dropped_fixed _ _ _ _), decide_eq_false hs, if_neg Bool.false_ne_true, Prog.bind_apply, hlog]

/-- The step comes back in cache-line mode. -/
def Op.Returns (append : σ → List UInt8 → Option σ) (s : Process σ) : Op → Prop
  | .store _ _ => s.exited = false
  | .persist addr len flags enabled => s.exited = false ∧ (Skipped flags enabled ∨ s.Takes append addr len)

theorem Op.Returns.running {s : Process σ} {op : Op} (h : op.Returns append s) : s.exited = false := by
  cases op with
  | store a v => exact h
  | persist addr len flags enabled => exact h.1

/-- A running process of the `-D_NODATAPERSIST` build that has mapped `base`. -/
structure Process.Mapped (s : Process σ) (base : Mem) : Prop where
  base_eq : s.world.base = base
  relaxed : s.world.relaxed = true

section Step
variable {s : Process σ}

theorem Op.run_unlogged (hb : pmBase ≠ 0) {mode : Mode} (hmode : mode ≠ .cl) (hm : s.Mapped base)
    (hx : s.exited = false) (op : Op) : (op.run append mode pmBase s).Mapped base ∧
      (op.run append mode pmBase s).exited = false ∧
      (op.run append mode pmBase s).world.trace = s.world.trace ++ op.events mode := by
  obtain ⟨⟨base, trace, relaxed, epoch⟩, plp, exited⟩ := s
  obtain ⟨rfl, rfl⟩ := hm
  obtain rfl : exited = false := hx
  cases op with
  | store a v => exact ⟨⟨rfl, rfl⟩, rfl, rfl⟩
  | persist addr len flags enabled =>
    unfold Op.run Op.call
    by_cases hs : Skipped flags enabled
    · simp only [pmemPersistIn_skipped hs, Op.events_skipped hs, List.append_nil]
      exact ⟨⟨rfl, rfl⟩, rfl, rfl⟩
    · cases mode with
      | cl => exact absurd rfl hmode
      | msync =>
        simp only [pmemPersistIn_msync hs, Op.events_msync hs]
        exact ⟨⟨rfl, rfl⟩, rfl, rfl⟩
      | fit =>
        simp only [pmemPersistIn_fit hb hs]
        exact ⟨⟨rfl, rfl⟩, rfl, rfl⟩

/-- A step of cache-line mode: it comes back, or the process has exited and issues nothing. -/
theorem Op.run_cl (hm : s.Mapped base) (op : Op) : (op.run append .cl pmBase s).Mapped base ∧
    (op.Returns append s ∧ (op.run append .cl pmBase s).exited = false ∧
        (op.run append .cl pmBase s).world.trace = s.world.trace ++ op.events .cl ∨
      ¬ op.Returns append s ∧ (op.run append .cl pmBase s).exited = true ∧
        (op.run append .cl pmBase s).world.trace = s.world.trace) := by
  by_cases hx : s.exited = true
  · rw [Op.run, if_pos hx]
    exact ⟨hm, Or.inr ⟨fun hr => by simp [hr.running] at hx, hx, rfl⟩⟩
  · obtain ⟨⟨base, trace, relaxed, epoch⟩, plp, exited⟩ := s
    obtain ⟨rfl, rfl⟩ := hm
    obtain rfl : exited = false := by simpa using hx
    rw [Op.run, if_neg hx]
    cases op with
    | store a v => exact ⟨⟨rfl, rfl⟩, Or.inl ⟨rfl, rfl, rfl⟩⟩
    | persist addr len flags enabled =>
      unfold Op.call
      by_cases hs : Skipped flags enabled
      · simp only [pmemPersistIn_skipped hs, Op.events_skipped hs, List.append_nil]
        exact ⟨⟨rfl, rfl⟩, Or.inl ⟨⟨rfl, Or.inl hs⟩, trivial, trivial⟩⟩
      · by_cases ht : ∃ log ∈ plp, (append log (bytesOf (applyAll trace base) addr len)).isSome = true
        · obtain ⟨log, rfl, hsome⟩ := ht
          obtain ⟨log', hlog⟩ := Option.isSome_iff_exists.mp hsome
          simp only [pmemPersistIn_takes hs hlog, Op.events_cl hs]
          exact ⟨⟨rfl, rfl⟩, Or.inl ⟨⟨rfl, Or.inr ⟨rfl, log, rfl, hsome⟩⟩, trivial, trivial⟩⟩
        · obtain ⟨msg, hmsg⟩ := pmemPersistIn_refuses hs ht pmBase
          simp only [hmsg]
          exact ⟨⟨rfl, rfl⟩, Or.inr ⟨fun hr => hr.2.elim hs fun h => ht h.2, trivial, trivial⟩⟩

end Step

theorem after_snoc (mode : Mode) (base : Mem) (log : σ) (l : List Op) (op : Op) :
    after append mode pmBase base log (l ++ [op]) = op.run append mode pmBase (after append mode pmBase base log l) := by
  rw [after, List.foldl_append]
  rfl

theorem after_unlogged (hb : pmBase ≠ 0) {mode : Mode} (hmode : mode ≠ .cl) (base : Mem) (log : σ) (l : List Op) :
    (after append mode pmBase base log l).Mapped base ∧ (after append mode pmBase base log l).exited = false := by
  induction l using List.reverseRecOn with
  | nil => exact ⟨⟨rfl, rfl⟩, rfl⟩
  | append_singleton l op ih =>
    rw [after_snoc]
    obtain ⟨hm, hx, -⟩ := op.run_unlogged hb hmode ih.1 ih.2
    exact ⟨hm, hx⟩

theorem after_cl (base : Mem) (log : σ) (l : List Op) : (after append .cl pmBase base log l).Mapped base := by
  induction l using List.reverseRecOn with
  | nil => exact ⟨rfl, rfl⟩
  | append_singleton l op ih =>
    rw [after_snoc]
    exact (op.run_cl ih).1

theorem Op.makesDurable_unlogged (hb : pmBase ≠ 0) {mode : Mode} (hmode : mode ≠ .cl) (log : σ) (l : List Op)
    (op : Op) (ℓ : ℕ) : op.MakesDurable append mode pmBase (after append mode pmBase base log l) ℓ ↔
      ∃ ev ∈ op.events mode, ev.Flushes ℓ := by
  obtain ⟨hm, hx⟩ : (after append mode pmBase base log l).Mapped base ∧
      (after append mode pmBase base log l).exited = false := after_unlogged hb hmode base log l
  rw [Op.MakesDurable, (op.run_unlogged hb hmode hm hx).2.2, List.drop_left]

theorem Op.makesDurable_cl (log : σ) (l : List Op) (op : Op) (ℓ : ℕ) :
    op.MakesDurable append .cl pmBase (after append .cl pmBase base log l) ℓ ↔
      op.Returns append (after append .cl pmBase base log l) ∧ ∃ ev ∈ op.events .cl, ev.Flushes ℓ := by
  have hm : (after append .cl pmBase base log l).Mapped base := after_cl base log l
  rw [Op.MakesDurable]
  rcases (op.run_cl hm).2 with ⟨hr, -, ht⟩ | ⟨hr, -, ht⟩
  · rw [ht, List.drop_left]
    exact ⟨fun h => ⟨hr, h⟩, fun h => h.2⟩
  · rw [ht, List.drop_length]
    exact ⟨fun ⟨_, h, _⟩ => absurd h List.not_mem_nil, fun h => absurd h.1 hr⟩

end Run

/-! ## The lines of a step -/

theorem mem_msyncLines {addr len ℓ : ℕ} (h : addr + len + (msyncAlign - 1) < 2 ^ 64) (hℓ : ℓ ∈ clLines addr len) :
    ℓ ∈ msyncLines addr len := by
  rw [mem_clLines] at hℓ
  simp only [msyncAlign] at h
  simp only [msyncLines, msyncAlign, List.mem_range'_1]
  rw [Nat.mod_eq_of_lt (by omega : len + addr % 4096 < 2 ^ 64), Nat.mod_eq_of_lt (by omega)]
  omega

theorem mem_clLines_iff {addr len ℓ : ℕ} (h : 0 < len) :
    ℓ ∈ clLines addr len ↔ ∃ x, addr ≤ x ∧ x < addr + len ∧ lineOf x = ℓ := by
  rw [mem_clLines]
  constructor
  · intro hℓ
    refine ⟨max addr (ℓ * 64), by omega, by omega, ?_⟩
    unfold lineOf
    omega
  · rintro ⟨x, hx, hx', rfl⟩
    unfold lineOf
    omega

theorem clLines_eq_nil {addr len : ℕ} : clLines addr len = [] ↔ len = 0 ∧ 64 ∣ addr := by
  rw [clLines, List.range'_eq_nil_iff]
  omega

theorem Op.flushes_cl {op : Op} {ℓ : ℕ} : (∃ ev ∈ op.events .cl, ev.Flushes ℓ) ↔
    ∃ addr len flags enabled, op = .persist addr len flags enabled ∧ ¬ Skipped flags enabled ∧
      ℓ ∈ clLines addr len := by
  cases op with
  | store a v => simp [Op.events]
  | persist addr len flags enabled =>
    by_cases hs : Skipped flags enabled
    · rw [Op.events_skipped hs]
      refine iff_of_false (by simp) ?_
      rintro ⟨_, _, _, _, heq, hn, -⟩
      cases heq
      exact hn hs
    · rw [Op.events_cl hs]
      constructor
      · intro hfl
        exact ⟨_, _, _, _, rfl, hs, by simpa using hfl⟩
      · rintro ⟨_, _, _, _, heq, -, hℓ⟩
        cases heq
        simpa using hℓ

/-- The call is not flagged, or dropped in every mode, or visits no line. -/
def Op.Plain : Op → Prop
  | .store _ _ => True
  | .persist addr len flags enabled => flags ≠ dataPersist ∨ enabled = false ∨ len = 0 ∧ 64 ∣ addr

theorem Op.flushes_fit_iff {op : Op} : (∀ ℓ, (∃ ev ∈ op.events .fit, ev.Flushes ℓ) ↔
    ∃ ev ∈ op.events .cl, ev.Flushes ℓ) ↔ op.Plain := by
  cases op with
  | store a v => simp [Op.events, Op.Plain]
  | persist addr len flags enabled =>
    unfold Op.events Op.Plain
    by_cases hf : flags = dataPersist
    · cases enabled with
      | false => simp [hf]
      | true =>
        -- cache-line mode flushes the range and fit mode nothing
        have hnil : (∀ ℓ, ℓ ∉ clLines addr len) ↔ len = 0 ∧ 64 ∣ addr := by
          rw [← clLines_eq_nil, List.eq_nil_iff_forall_not_mem]
        simpa [hf] using hnil
    · simp [hf]

/-! ## The file -/

theorem fitFile_append (base : Mem) (evs evs' : List Event) :
    (evs ++ evs').foldl fitStep (base, base) = evs'.foldl fitStep (evs.foldl fitStep (base, base)) :=
  List.foldl_append

theorem fitStep_fst (s : Mem × Mem) (evs : List Event) : (evs.foldl fitStep s).1 = applyAll evs s.1 := by
  induction evs generalizing s with
  | nil => rfl
  | cons ev evs ih =>
    rw [List.foldl_cons, ih, applyAll_cons]
    cases ev <;> rfl

theorem fitStep_silent {evs : List Event} (h : ∀ ℓ, ¬ ∃ ev ∈ evs, ev.Flushes ℓ) (s : Mem × Mem) :
    (evs.foldl fitStep s).2 = s.2 := by
  induction evs generalizing s with
  | nil => rfl
  | cons ev evs ih =>
    rw [List.foldl_cons, ih fun ℓ ⟨ev', hev, hfl⟩ => h ℓ ⟨ev', List.mem_cons_of_mem _ hev, hfl⟩]
    cases ev with
    | store a v => rfl
    | flush ls =>
      funext x
      exact if_neg fun hmem => h (lineOf x) ⟨_, List.mem_cons_self, hmem⟩

theorem fitFile_lastFlushed (base : Mem) (evs : List Event) (x : ℕ) :
    LastFlushed base evs x (fitFile base evs x) := by
  induction evs using List.reverseRecOn with
  | nil => exact Or.inl ⟨rfl, by simp⟩
  | append_singleton evs ev ih =>
    have hstep : fitFile base (evs ++ [ev]) = (fitStep (evs.foldl fitStep (base, base)) ev).2 := by
      rw [fitFile, fitFile_append]
      rfl
    by_cases hfl : ev.Flushes (lineOf x)
    · refine Or.inr ⟨evs, ev, [], rfl, hfl, by simp, ?_⟩
      cases ev with
      | store a v => exact absurd hfl (Event.flushes_store _ _ _)
      | flush ls =>
        rw [hstep, ← fitStep_fst (base, base) evs]
        exact if_pos hfl
    · -- the last event leaves the line as it is
      have hkeep : fitFile base (evs ++ [ev]) x = fitFile base evs x := by
        rw [hstep]
        cases ev with
        | store a v => rfl
        | flush ls => exact if_neg hfl
      rw [hkeep]
      rcases ih with ⟨hv, hnone⟩ | ⟨l, ev', r, rfl, hfl', hr, hv⟩
      · refine Or.inl ⟨hv, fun ev' hev => ?_⟩
        rcases List.mem_append.mp hev with hev | hev
        · exact hnone ev' hev
        · rwa [List.mem_singleton.mp hev]
      · refine Or.inr ⟨l, ev', r ++ [ev], by simp, hfl', fun e he => ?_, hv⟩
        rcases List.mem_append.mp he with he | he
        · exact hr e he
        · rwa [List.mem_singleton.mp he]

theorem fitStep_lines (s : Mem × Mem) (ls : List ℕ) :
    (ls.map fun ℓ => Event.flush [ℓ]).foldl fitStep s = fitStep s (.flush ls) := by
  induction ls generalizing s with
  | nil => simp [fitStep]
  | cons ℓ ls ih =>
    rw [List.map_cons, List.foldl_cons, ih]
    refine Prod.ext rfl (funext fun x => ?_)
    by_cases h1 : lineOf x = ℓ <;> by_cases h2 : lineOf x ∈ ls <;> simp [fitStep, h1, h2]

theorem Op.fitStep_events {op : Op} (h : op.Plain) (s : Mem × Mem) :
    (op.events .fit).foldl fitStep s = (op.events .cl).foldl fitStep s := by
  cases op with
  | store a v => rfl
  | persist addr len flags enabled =>
    by_cases hs : Skipped flags enabled
    · rw [Op.events_skipped hs, Op.events_skipped hs]
    · rw [Op.events_cl hs, Op.events_fit hs]
      by_cases hf : flags = dataPersist
      · have hnil : clLines addr len = [] := by
          rcases h with h | h | h
          · exact absurd hf h
          · exact absurd ⟨hf, h⟩ hs
          · exact clLines_eq_nil.mpr h
        simp [hf, hnil, fitStep]
      · rw [if_neg hf]
        exact fitStep_lines s _

/-! ## Faithful runs -/

section Faithful
variable {σ : Type} {append : σ → List UInt8 → Option σ} {pmBase : ℕ} {s : Process σ} {op : Op}

theorem Op.Returns.alike_iff (h : op.Returns append s) : op.Alike append s ↔ op.Plain := by
  cases op with
  | store a v => exact Iff.rfl
  | persist addr len flags enabled =>
    unfold Op.Alike Op.Plain
    rcases h.2 with hs | ht
    · exact iff_of_true (Or.inl hs) (Or.inr (Or.inl hs.2))
    · constructor
      · rintro (hs | ⟨hf, -⟩ | ⟨hlen, hdvd | ⟨-, hn⟩⟩)
        exacts [Or.inr (Or.inl hs.2), Or.inl hf, Or.inr (Or.inr ⟨hlen, hdvd⟩), absurd ht hn]
      · rintro (hf | he | ⟨hlen, hdvd⟩)
        · exact Or.inr (Or.inl ⟨hf, ht⟩)
        · by_cases hf : flags = dataPersist
          · exact Or.inl ⟨hf, he⟩
          · exact Or.inr (Or.inl ⟨hf, ht⟩)
        · exact Or.inr (Or.inr ⟨hlen, Or.inl hdvd⟩)

/-- A call that does not come back is alike if fit mode flushes nothing and it does not have to. -/
theorem Op.alike_iff_of_exits (h : ¬ op.Returns append s) (hx : ∀ a v, op ≠ .store a v) : op.Alike append s ↔
    (∀ ℓ, ¬ ∃ ev ∈ op.events .fit, ev.Flushes ℓ) ∧
      ∀ addr len flags enabled, op = .persist addr len flags enabled → ¬ Skipped flags enabled → len = 0 := by
  cases op with
  | store a v => exact absurd rfl (hx a v)
  | persist addr len flags enabled =>
    unfold Op.Alike
    by_cases hs : Skipped flags enabled
    · refine iff_of_true (Or.inl hs) ⟨fun ℓ => by simp [Op.events_skipped hs], ?_⟩
      rintro _ _ _ _ heq hn
      cases heq
      exact absurd hs hn
    · have ht : ¬ s.Takes append addr len := fun ht => h ⟨ht.1, Or.inr ht⟩
      have hfit : (∀ ℓ, ¬ ∃ ev ∈ (Op.persist addr len flags enabled).events .fit, ev.Flushes ℓ) ↔
          flags = dataPersist ∨ len = 0 ∧ 64 ∣ addr := by
        rw [Op.events_fit hs, ← clLines_eq_nil, List.eq_nil_iff_forall_not_mem]
        by_cases hf : flags = dataPersist <;> simp [hf]
      rw [hfit]
      constructor
      · rintro (hs' | ⟨-, ht'⟩ | ⟨hlen, hrest⟩)
        · exact absurd hs' hs
        · exact absurd ht' ht
        · refine ⟨hrest.elim (fun hdvd => Or.inr ⟨hlen, hdvd⟩) fun hf => Or.inl hf.1, ?_⟩
          rintro _ _ _ _ heq -
          cases heq
          exact hlen
      · rintro ⟨hf | ⟨hlen, hdvd⟩, hzero⟩
        · exact Or.inr (Or.inr ⟨hzero _ _ _ _ rfl hs, Or.inr ⟨hf, ht⟩⟩)
        · exact Or.inr (Or.inr ⟨hlen, Or.inl hdvd⟩)

theorem agrees_iff (hb : pmBase ≠ 0) (base : Mem) (log : σ) (l : List Op) (hop : op.NoWrap) :
    Agrees append pmBase base log l op ↔ op.Alike append (after append .cl pmBase base log l) := by
  have hcl : ∀ ℓ, op.MakesDurable append .cl pmBase (after append .cl pmBase base log l) ℓ ↔
      op.Returns append (after append .cl pmBase base log l) ∧ ∃ ev ∈ op.events .cl, ev.Flushes ℓ :=
    Op.makesDurable_cl log l op
  have hfit : ∀ ℓ, op.MakesDurable append .fit pmBase (after append .fit pmBase base log l) ℓ ↔
      ∃ ev ∈ op.events .fit, ev.Flushes ℓ := Op.makesDurable_unlogged hb (by decide) log l op
  have hmsync : ∀ ℓ, op.MakesDurable append .msync pmBase (after append .msync pmBase base log l) ℓ ↔
      ∃ ev ∈ op.events .msync, ev.Flushes ℓ := Op.makesDurable_unlogged hb (by decide) log l op
  by_cases hr : op.Returns append (after append .cl pmBase base log l)
  · rw [hr.alike_iff, ← Op.flushes_fit_iff]
    constructor
    · intro h ℓ
      rw [← hfit, h.fit, hcl]
      exact ⟨fun h => h.2, fun h => ⟨hr, h⟩⟩
    · intro h
      refine ⟨fun ℓ => ?_, fun ℓ hℓ => ?_, ?_⟩
      · rw [hfit, hcl, h ℓ]
        exact ⟨fun h => ⟨hr, h⟩, fun h => h.2⟩
      · rw [hcl, Op.flushes_cl] at hℓ
        obtain ⟨-, addr, len, flags, enabled, rfl, hs, hℓ⟩ := hℓ
        rw [hmsync, Op.events_msync hs]
        exact ⟨_, List.mem_singleton_self _, mem_msyncLines hop hℓ⟩
      · rintro addr len flags enabled rfl hs hlen ℓ
        rw [hcl, ← mem_clLines_iff hlen, Op.events_cl hs]
        simp [hr]
  · cases op with
    | store a v =>
      refine iff_of_true ⟨fun ℓ => ?_, fun ℓ hℓ => absurd ((hcl ℓ).mp hℓ).1 hr, ?_⟩ trivial
      swap
      · rintro _ _ _ _ heq
        cases heq
      rw [hfit, hcl]
      simp [Op.events]
    | persist addr len flags enabled =>
      rw [Op.alike_iff_of_exits hr fun _ _ heq => by cases heq]
      constructor
      · intro h
        refine ⟨fun ℓ hℓ => hr ((hcl ℓ).mp ((h.fit ℓ).mp ((hfit ℓ).mpr hℓ))).1, ?_⟩
        rintro addr' len' flags' enabled' heq hs
        by_contra hlen
        exact hr ((hcl _).mp ((h.exact _ _ _ _ heq hs (Nat.pos_of_ne_zero hlen) (lineOf addr')).mpr
          ⟨addr', le_rfl, Nat.lt_add_of_pos_right (Nat.pos_of_ne_zero hlen), rfl⟩)).1
      · rintro ⟨hnone, hzero⟩
        refine ⟨fun ℓ => ?_, fun ℓ hℓ => absurd ((hcl ℓ).mp hℓ).1 hr, fun _ _ _ _ heq hs hlen =>
          absurd (hzero _ _ _ _ heq hs) (Nat.ne_of_gt hlen)⟩
        rw [hfit, hcl]
        exact ⟨fun h => absurd h (hnone ℓ), fun h => absurd h.1 hr⟩

/-- While its steps are alike the file of fit mode is what cache-line mode has flushed. -/
theorem fitFile_alike (hb : pmBase ≠ 0) (base : Mem) (log : σ) (l : List Op)
    (h : ∀ l' op r, l = l' ++ op :: r → op.Alike append (after append .cl pmBase base log l')) :
    fitFile base (after append .fit pmBase base log l).world.trace =
      fitFile base (after append .cl pmBase base log l).world.trace ∧
    ((after append .cl pmBase base log l).exited = false →
      (after append .fit pmBase base log l).world.trace.foldl fitStep (base, base) =
        (after append .cl pmBase base log l).world.trace.foldl fitStep (base, base)) := by
  induction l using List.reverseRecOn with
  | nil => exact ⟨rfl, fun _ => rfl⟩
  | append_singleton l op ih =>
    obtain ⟨hfile, hstate⟩ := ih fun l' op' r heq => h l' op' (r ++ [op]) (by rw [heq]; simp)
    have halike := h l op [] rfl
    obtain ⟨hm, hx⟩ : (after append .fit pmBase base log l).Mapped base ∧
        (after append .fit pmBase base log l).exited = false := after_unlogged hb (by decide) base log l
    have hmcl : (after append .cl pmBase base log l).Mapped base := after_cl base log l
    rw [after_snoc, after_snoc, (op.run_unlogged hb (by decide) hm hx).2.2]
    rcases (op.run_cl hmcl).2 with ⟨hr, -, ht⟩ | ⟨hr, hexit, ht⟩
    · rw [ht, fitFile, fitFile, fitFile_append, fitFile_append, hstate hr.running,
        Op.fitStep_events (hr.alike_iff.mp halike)]
      exact ⟨rfl, fun _ => rfl⟩
    · -- the process is gone, and what fit mode still flushes is nothing
      have hnone : ∀ ℓ, ¬ ∃ ev ∈ op.events .fit, ev.Flushes ℓ := by
        cases op with
        | store a v => simp [Op.events]
        | persist addr len flags enabled =>
          exact ((Op.alike_iff_of_exits hr fun _ _ heq => by cases heq).mp halike).1
      rw [ht]
      refine ⟨?_, fun hrun => absurd hrun (by simp [hexit])⟩
      rw [← hfile, fitFile, fitFile, fitFile_append, fitStep_silent hnone]

/-- Fit mode stands in for cache-line mode in a run if and only if its calls are alike. -/
theorem faithful_iff (hb : pmBase ≠ 0) (base : Mem) (log : σ) {ops : List Op} (hops : ∀ op ∈ ops, op.NoWrap) :
    Faithful append pmBase base log ops ↔
      ∀ l op r, ops = l ++ op :: r → op.Alike append (after append .cl pmBase base log l) := by
  constructor
  · intro h l op r heq
    exact (agrees_iff hb base log l (hops op (by simp [heq]))).mp (h.calls l op r heq)
  · intro h
    constructor
    · intro l op r heq
      exact (agrees_iff hb base log l (hops op (by simp [heq]))).mpr (h l op r heq)
    · rintro l r rfl x
      rw [(fitFile_alike hb base log l fun l' op r' heq => h l' op (r' ++ r) (by rw [heq]; simp)).1]
      exact fitFile_lastFlushed base _ x

end Faithful

/-- A log that takes eight bytes. -/
def eightBytes (log : List UInt8) (buf : List UInt8) : Option (List UInt8) :=
  if log.length + buf.length ≤ 8 then some (log ++ buf) else none

/-- A store, an unflagged call, and a flagged one that is dropped. -/
theorem faithful_iff_unflagged : Faithful eightBytes 65536 (fun _ => 0) []
    [.store 65600 7, .persist 65600 8 0 true, .persist 65600 8 dataPersist false] := by
  refine (faithful_iff (by decide) _ _ (by simp [Op.NoWrap])).mpr fun l op r heq => ?_
  rcases l with _ | ⟨_, _ | ⟨_, _ | ⟨_, l⟩⟩⟩
  · cases heq
    trivial
  · cases heq
    exact Or.inr (Or.inl ⟨by decide, rfl, [], rfl, by decide⟩)
  · cases heq
    exact Or.inl ⟨rfl, rfl⟩
  · simp at heq

/-- A flagged call while `enable_persist()` is nonzero: cache-line mode flushes the line, fit mode does not. -/
theorem flaggedCall_not_faithful :
    ¬ Faithful eightBytes 65536 (fun _ => 0) [] [.store 65600 7, .persist 65600 8 dataPersist true] := by
  intro h
  have hfit := (h.calls [.store 65600 7] _ [] rfl).fit 1025
  rw [Op.makesDurable_unlogged (by decide) (by decide), Op.makesDurable_cl] at hfit
  obtain ⟨ev, hev, -⟩ := hfit.mpr ⟨⟨rfl, Or.inr ⟨rfl, [], rfl, by decide⟩⟩, .flush [1025], List.mem_singleton_self _,
    List.mem_singleton_self _⟩
  exact absurd hev List.not_mem_nil

end PmemExamples.Libpmem
