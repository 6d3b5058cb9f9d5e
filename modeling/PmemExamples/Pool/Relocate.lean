import PmemExamples.Persist.Mapping
import PmemExamples.Pool.Recovery

/-! # A pool does not depend on where it is mapped

The file keeps offsets; `PMEM` turns them into addresses of the process. A walk, its pending
assignments and the trace of recovery at `pmp` are those at offset 0, moved up by `pmp`. From here on
pools are described by offset: `Chain d pmemClumpOffset cs e` is about the file `d`. -/

namespace PmemExamples.Pool
open Persist Libpmem Tiling
set_option autoImplicit false

/-- The clump at an offset, as a process that mapped the file at `p` sees it. -/
def Clump.up (p : ℕ) (c : Clump) : Clump := ⟨p + c.addr, c.size, c.tag⟩

@[simp] theorem Clump.up_addr (p : ℕ) (c : Clump) : (c.up p).addr = p + c.addr := rfl
@[simp] theorem Clump.up_size (p : ℕ) (c : Clump) : (c.up p).size = c.size := rfl
@[simp] theorem Clump.up_tag (p : ℕ) (c : Clump) : (c.up p).tag = c.tag := rfl
theorem Clump.up_word (p : ℕ) (c : Clump) : (c.up p).word = c.word := rfl
theorem Clump.up_set (p : ℕ) (c : Clump) (s : State) : (c.set s).up p = (c.up p).set s := rfl
theorem Clump.up_settle (p : ℕ) (c : Clump) : c.settle.up p = (c.up p).settle := rfl

theorem Clump.inHeader_up {p : ℕ} {c : Clump} {x : ℕ} : (c.up p).InHeader (p + x) ↔ c.InHeader x := by
  unfold Clump.InHeader
  rw [Clump.up_addr]
  omega

theorem tiles_up {p : ℕ} : ∀ {cs : List Clump} {a e : ℕ},
    Tiles 64 (p + a) (cs.map (Clump.up p)) (p + e) ↔ Tiles 64 a cs e
  | [], a, e => by
    simp only [List.map_nil, tiles_nil]
    omega
  | c :: cs, a, e => by
    rw [List.map_cons, tiles_cons, tiles_cons, Clump.up_addr, Clump.up_size, Nat.add_assoc, tiles_up,
      Nat.add_left_cancel_iff]

theorem chain_up {p a e : ℕ} {m : Mem} {cs : List Clump} :
    Chain m (p + a) (cs.map (Clump.up p)) (p + e) ↔ Chain (fileAt p m) a cs e := by
  unfold Chain
  rw [tiles_up]
  simp [Clump.up_word]

/-! ## Assignments -/

/-- An assignment as a process that mapped the file at `p` makes it. -/
def upEntry (p : ℕ) (s : ℕ × ℕ) : ℕ × ℕ := (p + s.1, s.2)

theorem onOff_up (p clp i : ℕ) : onOff (p + clp) i = p + onOff clp i := by
  unfold onOff; omega

theorem onPtr_up (p clp i : ℕ) : onPtr (p + clp) i = p + onPtr clp i := by
  unfold onPtr; omega

theorem pmem_up {p o : ℕ} (h : p + pmem 0 o < 2 ^ 64) : pmem p o = p + pmem 0 o := by
  unfold pmem at h ⊢
  rw [Nat.zero_add] at h ⊢
  rw [← Nat.add_mod_mod, Nat.mod_eq_of_lt h]

theorem onEntries_up {p clp : ℕ} {m : Mem} : ∀ {is : List ℕ},
    (∀ s ∈ onEntries (fileAt p m) 0 clp is, p + s.1 < 2 ^ 64) →
      onEntries m p (p + clp) is = (onEntries (fileAt p m) 0 clp is).map (upEntry p)
  | [], _ => rfl
  | i :: is, h => by
    have ho : fileAt p m (onOff clp i) = m (onOff (p + clp) i) := by rw [onOff_up, fileAt_apply]
    have hv : fileAt p m (onPtr clp i) = m (onPtr (p + clp) i) := by rw [onPtr_up, fileAt_apply]
    by_cases hz : m (onOff (p + clp) i) = 0
    · rw [onEntries_unused hz, onEntries_unused (ho.trans hz), List.map_nil]
    · have hz' : fileAt p m (onOff clp i) ≠ 0 := ho ▸ hz
      rw [onEntries_cons hz'] at h
      have ih := onEntries_up fun s hs => h s (List.mem_cons_of_mem _ hs)
      have hd := pmem_up (h _ List.mem_cons_self)
      rw [onEntries_cons hz, onEntries_cons hz', List.map_cons, upEntry, ih, ← hd, ho, hv]

theorem pending_up {p : ℕ} {m : Mem} {c : Clump}
    (h : ∀ s ∈ pending (fileAt p m) 0 c, p + s.1 < 2 ^ 64) :
    pending m p (c.up p) = (pending (fileAt p m) 0 c).map (upEntry p) := by
  obtain ⟨addr, size, tag⟩ := c
  cases tag with
  | activating => exact onEntries_up h
  | freeing => exact onEntries_up h
  | _ => rfl

/-! ## Traces -/

theorem clLines_up {p : ℕ} (h : 64 ∣ p) (addr len : ℕ) :
    clLines (p + addr) len = (clLines addr len).map (lineOf p + ·) := by
  obtain ⟨k, rfl⟩ := h
  unfold clLines lineOf
  rw [List.map_add_range']
  congr 1
  · omega
  · omega

theorem execEvents_up {p : ℕ} (h : 64 ∣ p) (ss : List (ℕ × ℕ)) :
    execEvents (ss.map (upEntry p)) = relocate p (execEvents ss) := by
  induction ss with
  | nil => rfl
  | cons s ss ih =>
    rw [List.map_cons, execEvents_cons, execEvents_cons, ih, relocate_store, relocate_flush, upEntry,
      clLines_up h]

theorem headerFlush_up {p : ℕ} (h : 64 ∣ p) (clp : ℕ) :
    headerFlush (p + clp) = (headerFlush clp).relocate p := by
  unfold headerFlush
  rw [clLines_up h]
  rfl

theorem finishEvents_up {p : ℕ} (h : 64 ∣ p) (clp word : ℕ) :
    finishEvents (p + clp) word = relocate p (finishEvents clp word) := by
  simp only [finishEvents, clearEvents, onOff_up, headerFlush_up h]
  rfl

theorem recoverEvents_up {p : ℕ} {m : Mem} {c : Clump} (hp : 64 ∣ p)
    (h : ∀ s ∈ pending (fileAt p m) 0 c, p + s.1 < 2 ^ 64) :
    recoverEvents m p (c.up p) = relocate p (recoverEvents (fileAt p m) 0 c) := by
  unfold recoverEvents
  rw [Clump.up_tag, pending_up h, execEvents_up hp, Clump.up_addr, finishEvents_up hp,
    ← relocate_append]
  split <;> rfl

theorem closeRun_up {p : ℕ} (hp : 64 ∣ p) :
    ∀ run : List Clump, closeRun (run.map (Clump.up p)) = relocate p (closeRun run)
  | [] => rfl
  | [_] => rfl
  | c :: d :: run => by
    have hs : (run.map (Clump.up p)).map Block.size = run.map Block.size := by
      rw [List.map_map]; rfl
    simp only [List.map_cons, closeRun, Clump.up_addr, Clump.up_size, hs, headerFlush_up hp]
    rfl

theorem mergeEvents_up {p : ℕ} (hp : 64 ∣ p) :
    ∀ run cs : List Clump, mergeEvents (run.map (Clump.up p)) (cs.map (Clump.up p)) =
      relocate p (mergeEvents run cs)
  | run, [] => by
    rw [List.map_nil, mergeEvents, mergeEvents, closeRun_up hp]
  | run, c :: cs => by
    have hfree := mergeEvents_up hp (run ++ [c]) cs
    have hbusy := mergeEvents_up hp [] cs
    rw [List.map_append, List.map_cons, List.map_nil] at hfree
    rw [List.map_nil] at hbusy
    rw [List.map_cons, mergeEvents, mergeEvents, Clump.up_tag, hfree, closeRun_up hp, hbusy,
      ← relocate_append]
    split <;> rfl

theorem recoverPass_up {p : ℕ} {m : Mem} {cs : List Clump} (hp : 64 ∣ p)
    (h : ∀ s ∈ pendings (fileAt p m) 0 cs, p + s.1 < 2 ^ 64) :
    (cs.map (Clump.up p)).flatMap (recoverEvents m p) =
      relocate p (cs.flatMap (recoverEvents (fileAt p m) 0)) := by
  rw [relocate_flatMap, List.flatMap_map]
  simp only [List.flatMap]
  congr 1
  exact List.map_congr_left fun c hc =>
    recoverEvents_up hp fun s hs => h s (List.mem_flatMap.mpr ⟨c, hc, hs⟩)

theorem recoveryEvents_up {p : ℕ} {m : Mem} {cs : List Clump} (hp : 64 ∣ p)
    (h : ∀ s ∈ pendings (fileAt p m) 0 cs, p + s.1 < 2 ^ 64) :
    recoveryEvents m p (cs.map (Clump.up p)) = relocate p (recoveryEvents (fileAt p m) 0 cs) := by
  have h2 : (cs.map (Clump.up p)).map Clump.settle = (cs.map Clump.settle).map (Clump.up p) := by
    rw [List.map_map, List.map_map]; rfl
  have h3 := mergeEvents_up hp [] (cs.map Clump.settle)
  rw [List.map_nil] at h3
  rw [recoveryEvents, recoverPass_up hp h, h2, h3, ← relocate_append]
  rfl

/-! ## Recovery by offset -/

/-- `p` is an address at which a file can be mapped whose last clump is at offset `e`. -/
structure Mapped (p e : ℕ) : Prop where
  aligned : 64 ∣ p
  fits : p + e + 64 ≤ 2 ^ 64

theorem fileAt_pmemMap {p o : ℕ} {f : File} (h : o < f.size) :
    fileAt p (pmemMap p f) o = f.data o := by
  rw [fileAt_apply, pmemMap, if_pos (by omega), Nat.add_sub_cancel_left]

/-- Pending assignments stay below the end of the pool. -/
def Within (d : Mem) (cs : List Clump) (e : ℕ) : Prop := ∀ s ∈ pendings d 0 cs, s.1 < e

theorem placed_up {p e : ℕ} {m : Mem} {cs : List Clump} (hp : Mapped p e)
    (hw : Within (fileAt p m) cs e) (h : Placed (fileAt p m) 0 cs e) :
    Placed m p (cs.map (Clump.up p)) (p + e) := by
  intro b hb s hs
  obtain ⟨c, hc, rfl⟩ := List.mem_map.mp hb
  have hfits := hp.fits
  rw [pending_up fun t ht => by
    have := hw t (List.mem_flatMap.mpr ⟨c, hc, ht⟩)
    omega] at hs
  obtain ⟨t, ht, rfl⟩ := List.mem_map.mp hs
  obtain ⟨h1, h2⟩ := h c hc t ht
  refine ⟨fun h => h1 (by simp only [upEntry] at h; omega), fun d hd => ?_⟩
  obtain ⟨f, hf, rfl⟩ := List.mem_map.mp hd
  exact fun h => h2 f hf (Clump.inHeader_up.mp h)

/-- The first loop of recovery, in a process that mapped the pool at `p`. -/
theorem recover_runs_at (x : Bool) {p e : ℕ} {m : Mem} {cs : List Clump} (hp : Mapped p e)
    (hc : Chain (fileAt p m) pmemClumpOffset cs e) (hpl : Placed (fileAt p m) 0 cs e)
    (hw : Within (fileAt p m) cs e) :
    Runs x (pmemallocRecover p) m () (relocate p (cs.flatMap (recoverEvents (fileAt p m) 0))) := by
  have hfits := hp.fits
  have hle := hc.tiles.le
  rw [← recoverPass_up hp.aligned fun s hs => by have := hw s hs; omega, pmemallocRecover,
    pmem_eq (by omega)]
  exact recoverLoop_runs x (chain_up.mpr hc) (placed_up hp hw hpl)
    (by rw [List.length_map]; exact hc.length_lt (by omega))

theorem recovery_runs_at {p e : ℕ} {m : Mem} {cs : List Clump} (hp : Mapped p e)
    (hc : Chain (fileAt p m) pmemClumpOffset cs e) (hpl : Placed (fileAt p m) 0 cs e)
    (hw : Within (fileAt p m) cs e) :
    Runs false (recovery p) m () (relocate p (recoveryEvents (fileAt p m) 0 cs)) := by
  have hfits := hp.fits
  rw [← recoveryEvents_up hp.aligned fun s hs => by have := hw s hs; omega]
  exact recovery_runs (chain_up.mpr hc) (placed_up hp hw hpl) (by omega)

end PmemExamples.Pool
