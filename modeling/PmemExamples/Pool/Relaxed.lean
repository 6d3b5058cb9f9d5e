import PmemExamples.Libpmem.Relaxed
import PmemExamples.Pool.Free
import PmemExamples.Pool.Register

/-! # `pmemalloc_onfree` and `pmemalloc_free` in the relaxed build

Their exact traces. Both read the epoch flag first; when it is zero, the persists that carry the flags
of the routine test it again and may be dropped. The persist after an entry is completed and the one
after the on-list is cleared carry flags 0 and are always executed. -/

namespace PmemExamples.Pool
open Persist Libpmem Tiling
set_option autoImplicit false

/-! ## Which persists are executed -/

/-- The tests of the persists of `n` destinations. -/
def destTests (flags : ℕ) : ℕ → (ℕ → Bool) → List Bool × (ℕ → Bool)
  | 0, epoch => ([], epoch)
  | n + 1, epoch =>
    let t := flagTests flags epoch
    let ts := destTests flags n t.2
    (t.1 :: ts.1, ts.2)

/-- The reads that a `pmemalloc_onfree` leaves. -/
def afterOnfree (epoch : ℕ → Bool) : ℕ → Bool := (flagTests (openFlags epoch) (later 1 epoch)).2

/-- Which destinations a `pmemalloc_free` with `n` of them flushes. -/
def destFlushes (epoch : ℕ → Bool) (n : ℕ) : List Bool :=
  (destTests (openFlags epoch) n (flagTests (openFlags epoch) (later 1 epoch)).2).1

theorem length_destTests (flags : ℕ) : ∀ (n : ℕ) (epoch : ℕ → Bool),
    (destTests flags n epoch).1.length = n
  | 0, _ => rfl
  | n + 1, epoch => by
    rw [destTests, List.length_cons, length_destTests flags n]

theorem length_destFlushes (epoch : ℕ → Bool) (n : ℕ) : (destFlushes epoch n).length = n :=
  length_destTests _ n _

/-! ## Traces -/

/-- Executing assignments, each with whether its flush is executed. -/
def destEvents (zs : List ((ℕ × ℕ) × Bool)) : List Event :=
  zs.flatMap fun z => .store z.1.1 z.1.2 :: maybeFlush z.2 (clLines z.1.1 sizeofPtr)

def onfreeEvents (clp i o v : ℕ) (b : Bool) : List Event :=
  .store (onPtr clp i) v :: (maybeFlush b (clLines clp sizeofClump) ++
    [.store (onOff clp i) o, headerFlush clp])

/-- Freeing an active clump up to its commit to `FREE`. -/
def commitTrace (c : Clump) (b : Bool) (zs : List ((ℕ × ℕ) × Bool)) : List Event :=
  .store c.addr (c.set .freeing).word :: (maybeFlush b (clLines c.addr sizeofClump) ++
    (destEvents zs ++ clearEvents c.addr))

theorem destEvents_cons (z : (ℕ × ℕ) × Bool) (zs : List ((ℕ × ℕ) × Bool)) :
    destEvents (z :: zs) =
      .store z.1.1 z.1.2 :: (maybeFlush z.2 (clLines z.1.1 sizeofPtr) ++ destEvents zs) := rfl

theorem destEvents_append (zs zs' : List ((ℕ × ℕ) × Bool)) :
    destEvents (zs ++ zs') = destEvents zs ++ destEvents zs' := List.flatMap_append

theorem applyAll_maybeFlush (b : Bool) (ls : List ℕ) (m : Mem) : applyAll (maybeFlush b ls) m = m := by
  cases b <;> rfl

theorem maybeFlush_up {p : ℕ} (hp : 64 ∣ p) (b : Bool) (addr len : ℕ) :
    relocate p (maybeFlush b (clLines addr len)) = maybeFlush b (clLines (p + addr) len) := by
  cases b
  · rfl
  · rw [maybeFlush, maybeFlush, if_pos rfl, if_pos rfl, clLines_up hp]
    rfl

theorem destEvents_up {p : ℕ} (hp : 64 ∣ p) (zs : List ((ℕ × ℕ) × Bool)) :
    relocate p (destEvents zs) = destEvents (zs.map fun z => (upEntry p z.1, z.2)) := by
  rw [destEvents, relocate_flatMap, destEvents, List.flatMap_map]
  simp only [relocate_store, maybeFlush_up hp]
  rfl

theorem onfreeEvents_up {p : ℕ} (hp : 64 ∣ p) (clp i o v : ℕ) (b : Bool) :
    relocate p (onfreeEvents clp i o v b) = onfreeEvents (p + clp) i o v b := by
  simp only [onfreeEvents, relocate_store, relocate_append, maybeFlush_up hp, headerFlush_up hp,
    onOff_up, onPtr_up]
  rfl

theorem clearEvents_up {p : ℕ} (hp : 64 ∣ p) (clp : ℕ) :
    relocate p (clearEvents clp) = clearEvents (p + clp) := by
  simp only [clearEvents, relocate_store, onOff_up, headerFlush_up hp]
  rfl

theorem commitTrace_up {p : ℕ} (hp : 64 ∣ p) (c : Clump) (b : Bool) (zs : List ((ℕ × ℕ) × Bool)) :
    relocate p (commitTrace c b zs) = .store (p + c.addr) (c.set .freeing).word ::
      (maybeFlush b (clLines (p + c.addr) sizeofClump) ++
        (destEvents (zs.map fun z => (upEntry p z.1, z.2)) ++ clearEvents (p + c.addr))) := by
  rw [commitTrace, relocate_store, relocate_append, relocate_append, maybeFlush_up hp,
    destEvents_up hp, clearEvents_up hp]

theorem storesOf_maybeFlush (b : Bool) (ls : List ℕ) : storesOf (maybeFlush b ls) = [] := by
  cases b <;> rfl

theorem storesOf_destEvents : ∀ {ss : List (ℕ × ℕ)} {bs : List Bool}, bs.length = ss.length →
    storesOf (destEvents (ss.zip bs)) = storesOf (execEvents ss)
  | [], _, _ => rfl
  | s :: ss, b :: bs, h => by
    have ih : storesOf (destEvents (ss.zip bs)) = storesOf (execEvents ss) :=
      storesOf_destEvents (by simpa using h)
    rw [List.zip_cons_cons, destEvents_cons, execEvents_cons, storesOf_store, storesOf_store,
      storesOf_append, storesOf_maybeFlush, storesOf_flush, ih]
    rfl

theorem storesOf_commitTrace (d : Mem) (c : Clump) (b : Bool) {bs : List Bool}
    (h : bs.length = (registered d c).length) :
    storesOf (commitTrace c b ((registered d c).zip bs) ++ [.store c.addr (c.set .free).word]) =
      storesOf (commitEvents d c .freeing) := by
  simp only [commitEvents_freeing, commitTrace, storesOf_append, storesOf_store, storesOf_flush,
    storesOf_maybeFlush, storesOf_destEvents h, List.cons_append, List.append_assoc, headerFlush]
  rfl

/-! ## The routines -/

section Issues
variable {w : World} {p e : ℕ} {c : Clump}

theorem persistFlags_issues (hr : w.relaxed = true) :
    Issues persistFlags w (openFlags w.epoch) [] (later 1 w.epoch) := by
  obtain ⟨base, trace, relaxed, epoch⟩ := w
  obtain rfl : relaxed = true := hr
  unfold Issues
  rw [persistFlags, Prog.bind_ok (Prog.isRelaxed_apply _), if_pos rfl, enablePersist,
    Prog.bind_ok (Prog.readEpoch_apply _), later_one, openFlags, List.append_nil]
  by_cases h0 : epoch 0 = true <;> simp [h0]

theorem execOn_issues (pmp clp flags : ℕ) :
    ∀ (is : List ℕ) (w : World), w.relaxed = true →
      (∀ s ∈ onEntries w.mem pmp clp is, ∀ i ∈ is, s.1 ≠ onOff clp i ∧ s.1 ≠ onPtr clp i) →
      Issues (execOn pmp clp flags is) w ()
        (destEvents ((onEntries w.mem pmp clp is).zip
          (destTests flags (onEntries w.mem pmp clp is).length w.epoch).1))
        (destTests flags (onEntries w.mem pmp clp is).length w.epoch).2
  | [], w, _, _ => Issues.pure w ()
  | i :: is, w, hr, h => by
    by_cases hz : w.mem (onOff clp i) = 0
    · rw [onEntries_unused hz, execOn]
      refine Issues.load_bind hz ?_
      rw [if_neg (by simp)]
      exact Issues.pure w ()
    · rw [onEntries_cons hz] at h ⊢
      rw [execOn, List.length_cons, destTests, List.zip_cons_cons, destEvents_cons]
      refine Issues.load_bind rfl ?_
      rw [if_pos hz]
      refine Issues.load_bind rfl (Issues.store_bind ?_)
      generalize hw₁ : w.emit (.store (pmem pmp (w.mem (onOff clp i))) (w.mem (onPtr clp i))) = w₁
      have hr₁ : w₁.relaxed = true := by rw [← hw₁]; exact hr
      have hep : w₁.epoch = w.epoch := by rw [← hw₁]; rfl
      have hmem : w₁.mem = Function.update w.mem (pmem pmp (w.mem (onOff clp i)))
          (w.mem (onPtr clp i)) := by
        rw [← hw₁, World.mem, World.emit, applyAll_append]
        rfl
      have hd := h _ List.mem_cons_self
      have hsame : onEntries w₁.mem pmp clp is = onEntries w.mem pmp clp is := by
        refine onEntries_congr fun j hj => ?_
        obtain ⟨h1, h2⟩ := hd j (List.mem_cons_of_mem _ hj)
        rw [hmem, Function.update_of_ne (Ne.symm h1), Function.update_of_ne (Ne.symm h2)]
        exact ⟨rfl, rfl⟩
      have hflush := pmemPersist_issues hr₁ (pmem pmp (w.mem (onOff clp i))) sizeofPtr flags
      rw [hep] at hflush
      refine hflush.bind ?_
      generalize hw₂ : ({ w₁ with
        trace := w₁.trace ++ maybeFlush (flagTests flags w.epoch).1
          (clLines (pmem pmp (w.mem (onOff clp i))) sizeofPtr)
        epoch := (flagTests flags w.epoch).2 } : World) = w₂
      have hmem₂ : w₂.mem = w₁.mem := by
        rw [← hw₂, World.mem, applyAll_append, applyAll_maybeFlush]
        rfl
      have ih := execOn_issues pmp clp flags is w₂ (by rw [← hw₂]; exact hr₁) (by
        rw [hmem₂, hsame]
        exact fun s hs j hj => h s (List.mem_cons_of_mem _ hs) j (List.mem_cons_of_mem _ hj))
      rw [hmem₂, hsame, show w₂.epoch = (flagTests flags w.epoch).2 by rw [← hw₂]] at ih
      exact ih

theorem clearOn_issues (clp : ℕ) : ∀ (is : List ℕ) (w : World),
    Issues (clearOn clp is) w () (is.map fun i => .store (onOff clp i) 0) w.epoch
  | [], w => Issues.pure w ()
  | i :: is, w => Issues.store_bind (clearOn_issues clp is (w.emit (.store (onOff clp i) 0)))

theorem placeOn_issues (hr : w.relaxed = true) (pmp clp parentp_ nptr_ flags : ℕ) (limit : String)
    {i : ℕ} {r : List ℕ} (hi : w.mem (onOff clp i) = 0) :
    ∀ {l : List ℕ}, (∀ j ∈ l, w.mem (onOff clp j) ≠ 0) →
      Issues (placeOn pmp clp parentp_ nptr_ flags limit (l ++ i :: r)) w ()
        (onfreeEvents clp i (off pmp parentp_) nptr_ (flagTests flags w.epoch).1)
        (flagTests flags w.epoch).2
  | [], _ => by
    refine Issues.load_bind hi ?_
    rw [if_pos rfl]
    refine Issues.store_bind ((pmemPersist_issues ?_ clp sizeofClump flags).bind ?_)
    · exact hr
    refine Issues.store_bind (pmemPersist_issues ?_ clp sizeofClump 0)
    exact hr
  | j :: l, h => by
    refine Issues.load_bind rfl ?_
    rw [if_neg (h j List.mem_cons_self)]
    exact placeOn_issues hr pmp clp parentp_ nptr_ flags limit hi fun k hk =>
      h k (List.mem_cons_of_mem _ hk)

theorem onfree_issues (hr : w.relaxed = true) (hp : Mapped p e) (hfit : c.addr + 64 ≤ e)
    (hw : fileAt p w.mem c.addr = c.word) (hd : 64 ∣ c.size) (ht : c.tag = .active)
    {l r : List ℕ} {i : ℕ} (hup : onUp = l ++ i :: r) (hi : fileAt p w.mem (onOff c.addr i) = 0)
    (hl : ∀ j ∈ l, fileAt p w.mem (onOff c.addr j) ≠ 0) (parentp_ nptr_ : ℕ) :
    ∃ b, Issues (pmemallocOnfree p (c.addr + 64) parentp_ nptr_) w ()
      (relocate p (onfreeEvents c.addr i (off p parentp_) nptr_ b)) (afterOnfree w.epoch) := by
  have hfits := hp.fits
  have hclp : clumpOf p (c.addr + 64) = p + c.addr := by
    rw [clumpOf_eq (by omega) (by omega)]
    omega
  refine ⟨(flagTests (openFlags w.epoch) (later 1 w.epoch)).1,
    (persistFlags_issues hr).bind_silent ?_⟩
  rw [hclp, onfreeEvents_up hp.aligned]
  refine Issues.load_bind hw ?_
  rw [Clump.clumpState_word hd, ht, assertEq, if_pos rfl, hup]
  refine (Issues.pure _ ()).bind_silent ?_
  simp only [fileAt_apply, ← onOff_up] at hi hl
  have hr₁ : ({ w with epoch := later 1 w.epoch } : World).relaxed = true := hr
  exact placeOn_issues hr₁ _ _ _ _ _ _ hi hl

theorem freeActive_issues (hr : w.relaxed = true) (hp : Mapped p e)
    (h : ∀ s ∈ registered (fileAt p w.mem) c, s.1 < e ∧ ¬ c.InHeader s.1) (flags : ℕ) :
    ∃ epoch', Issues (freeActive p (p + c.addr) c.size flags) w ()
      (relocate p (commitTrace c (flagTests flags w.epoch).1 ((registered (fileAt p w.mem) c).zip
        (destTests flags (registered (fileAt p w.mem) c).length (flagTests flags w.epoch).2).1)))
      epoch' := by
  have hon := onEntries_committed hp (fun s hs => (h s hs).1) .freeing
  refine ⟨(destTests flags (registered (fileAt p w.mem) c).length (flagTests flags w.epoch).2).2, ?_⟩
  -- from the flush of the commit on
  have hexec : ∀ w₁ : World, w₁.relaxed = true → w₁.epoch = (flagTests flags w.epoch).2 →
      w₁.mem = Function.update w.mem (p + c.addr) (c.set .freeing).word →
      Issues (do
        execOn p (p + c.addr) flags onUp
        clearOn (p + c.addr) onDown
        pmemPersist (p + c.addr) sizeofClump 0) w₁ ()
        (destEvents (((registered (fileAt p w.mem) c).zip (destTests flags
          (registered (fileAt p w.mem) c).length (flagTests flags w.epoch).2).1).map
            fun z => (upEntry p z.1, z.2)) ++ clearEvents (p + c.addr))
        (destTests flags (registered (fileAt p w.mem) c).length (flagTests flags w.epoch).2).2 := by
    intro w₁ hr₁ hep hmem
    have h₁ := execOn_issues p (p + c.addr) flags onUp w₁ hr₁ (onEntries_apart fun s hs => by
      rw [hmem, hon] at hs
      obtain ⟨t, htm, rfl⟩ := List.mem_map.mp hs
      have := (h t htm).2
      unfold Clump.InHeader at this
      simp only [upEntry]
      omega)
    rw [hmem, hon, hep, List.length_map, List.zip_map_left] at h₁
    refine Issues.bind h₁ ?_
    refine (clearOn_issues (p + c.addr) onDown _).bind ?_
    exact pmemPersist_issues (by exact hr₁) _ _ 0
  rw [commitTrace_up hp.aligned]
  unfold freeActive
  refine Issues.store_bind ((pmemPersist_issues ?_ _ _ _).bind ?_)
  · exact hr
  · refine hexec _ hr rfl ?_
    rw [World.mem, applyAll_append, applyAll_maybeFlush, World.emit, applyAll_append]
    rfl

/-- The trace of freeing an active clump, its stores exactly and its flushes up to the last one of
`freeActive`. -/
theorem free_relaxed {l r : List Clump} (hr : w.relaxed = true) (hp : Mapped p e)
    (hc : Chain (fileAt p w.mem) pmemClumpOffset (l ++ c :: r) e) (hact : c.tag = .active)
    (hq : ∀ b ∈ l ++ r, ∀ d, pending d 0 b = [])
    (ht : ∀ t ∈ registered (fileAt p w.mem) c, Outside (l ++ c :: r) e t.1) :
    ∃ b w₂ rest, pmemallocFree p (c.addr + 64) w = (.ok (), w₂) ∧ w₂.base = w.base ∧
      w₂.trace = w.trace ++ (relocate p (commitTrace c b ((registered (fileAt p w.mem) c).zip
        (destFlushes w.epoch (registered (fileAt p w.mem) c).length))) ++ rest) ∧
      storesOf rest = (p + c.addr, (c.set .free).word) ::
        storesOf (relocate p (mergeEvents [] (l ++ c.set .free :: r))) := by
  have hcm : c ∈ l ++ c :: r := by simp
  have hb := hc.tiles.bounds hcm
  have hsz := hc.size_ge hcm
  have hdvd := hc.size_dvd hcm
  have hfits := hp.fits
  have hclp : clumpOf p (c.addr + 64) = p + c.addr := by
    rw [clumpOf_eq (by omega) (by omega)]
    omega
  have hstate : clumpState c.word = State.active.code := by rw [Clump.clumpState_word hdvd, hact]
  obtain ⟨ep, hactive⟩ := freeActive_issues (w := { w with epoch := later 1 w.epoch }) hr hp
    (fun s hs => ⟨(ht s hs).lt, (ht s hs).headers c hcm⟩) (openFlags w.epoch)
  have hlen := length_destFlushes w.epoch (registered (fileAt p w.mem) c).length
  generalize hA : commitTrace c (flagTests (openFlags w.epoch) (later 1 w.epoch)).1
    ((registered (fileAt p w.mem) c).zip
      (destFlushes w.epoch (registered (fileAt p w.mem) c).length)) = A
  replace hactive : Issues (freeActive p (p + c.addr) c.size (openFlags w.epoch))
      { w with epoch := later 1 w.epoch } () (relocate p A) ep := by rw [← hA]; exact hactive
  have hchain : Chain (fileAt p (applyAll [.store (p + c.addr) (c.set .free).word]
      (applyAll (relocate p A) w.mem))) pmemClumpOffset (l ++ c.set .free :: r) e := by
    have hup : [.store (p + c.addr) (c.set .free).word] = relocate p [.store c.addr (c.set .free).word] :=
      rfl
    rw [hup, ← applyAll_append, ← relocate_append, fileAt_applyAll, ← hA,
      applyAll_eq_of_storesOf (storesOf_commitTrace _ c _ hlen)]
    exact (commit_done hc (Or.inr rfl) hq ht).chain
  have htail : Runs false (do
      Prog.store (p + c.addr) (c.size ||| State.free.code)
      pmemPersist (p + c.addr) sizeofClump (openFlags w.epoch)
      pmemallocCoalesceFree p) (applyAll (relocate p A) w.mem) ()
      (.store (p + c.addr) (c.set .free).word :: ([headerFlush (p + c.addr)] ++
        relocate p (mergeEvents [] (l ++ c.set .free :: r)))) :=
    Runs.store_bind ((pmemPersist_runs_flagged _ _ _ _).seq (coalesce_runs_at hp hchain))
  have hmem := hactive.mem
  obtain ⟨w₂, rest, hrun, hbase, -, htrace, hstores, -⟩ :=
    htail _ hmem
  refine ⟨(flagTests (openFlags w.epoch) (later 1 w.epoch)).1, w₂, rest, ?_, ?_, ?_, ?_⟩
  · have hflags : persistFlags w = (.ok (openFlags w.epoch), { w with epoch := later 1 w.epoch }) := by
      have := persistFlags_issues hr
      unfold Issues at this
      rwa [List.append_nil] at this
    have hload : Prog.load (p + c.addr) { w with epoch := later 1 w.epoch } =
        (.ok c.word, { w with epoch := later 1 w.epoch }) := by
      rw [Prog.load_apply]
      exact congrArg (fun v => (Outcome.ok v, _)) (hc.word hcm)
    rw [pmemallocFree, Prog.bind_ok hflags, hclp, Prog.bind_ok hload, hstate, Clump.clumpSz_word hdvd,
      if_neg (by simp), if_pos rfl, Prog.bind_ok hactive]
    rw [hactive] at hrun
    exact hrun
  · rw [hbase, hactive]
  · rw [htrace, hactive, hA, List.append_assoc]
  · rw [hstores, headerFlush]
    rfl

end Issues

end PmemExamples.Pool
