import PmemExamples.Pool.Commit

/-! # `pmemalloc_free` is crash-atomic -/

namespace PmemExamples.Pool
open Persist Libpmem Tiling
set_option autoImplicit false

/-- The trace of freeing an active clump between `l` and `r`: commit, settle, coalesce. -/
def freeEvents (d : Mem) (l : List Clump) (c : Clump) (r : List Clump) : List Event :=
  commitEvents d c .freeing ++ mergeEvents [] (l ++ c.set .free :: r)

section Free
variable {m d : Mem} {p e : ℕ} {l r : List Clump} {c : Clump}

theorem commitEvents_freeing (d : Mem) (c : Clump) : commitEvents d c .freeing =
    (.store c.addr (c.set .freeing).word :: headerFlush c.addr ::
      (execEvents (registered d c) ++ clearEvents c.addr)) ++
    ([.store c.addr (c.set .free).word] ++ [headerFlush c.addr]) := by
  rw [commitEvents, recoverEvents, if_neg (by simp [State.settle]), pending_committed (Or.inr rfl),
    finishEvents]
  simp only [List.cons_append, List.append_assoc, List.nil_append]
  rfl

theorem freeActive_runs {flags : ℕ} (hp : Mapped p e)
    (h : ∀ s ∈ registered (fileAt p m) c, s.1 < e ∧ ¬ c.InHeader s.1) :
    Runs false (freeActive p (p + c.addr) c.size flags) m ()
      (relocate p (.store c.addr (c.set .freeing).word :: headerFlush c.addr ::
        (execEvents (registered (fileAt p m) c) ++ clearEvents c.addr))) := by
  have hon := onEntries_committed hp (fun s hs => (h s hs).1) .freeing
  have hev : relocate p (.store c.addr (c.set .freeing).word :: headerFlush c.addr ::
      (execEvents (registered (fileAt p m) c) ++ clearEvents c.addr)) =
      .store (p + c.addr) (c.set .freeing).word :: ([headerFlush (p + c.addr)] ++
        (execEvents (onEntries (Function.update m (p + c.addr) (c.set .freeing).word) p (p + c.addr)
          onUp) ++ (onDown.map (fun i => .store (onOff (p + c.addr) i) 0) ++
            [headerFlush (p + c.addr)]))) := by
    rw [hon, execEvents_up hp.aligned, headerFlush_up hp.aligned]
    simp only [relocate, List.map_cons, List.map_append, clearEvents, onDown, onOff_up, List.map_nil]
    rfl
  rw [hev]
  refine Runs.store_bind (Runs.seq (pmemPersist_runs_flagged _ _ _ _) ?_)
  refine Runs.seq (execOn_runs (by simp) onUp _ (onEntries_apart fun s hs => ?_)) ?_
  · replace hs : s ∈ onEntries (Function.update m (p + c.addr) (c.set .freeing).word) p (p + c.addr)
      onUp := hs
    rw [hon] at hs
    obtain ⟨t, htm, rfl⟩ := List.mem_map.mp hs
    have := (h t htm).2
    unfold Clump.InHeader at this
    simp only [upEntry]
    omega
  · exact Runs.seq (clearOn_runs false _ _ onDown) (pmemPersist_runs false _ _ _)

theorem coalesce_runs_at (hp : Mapped p e) (hc : Chain (fileAt p m) pmemClumpOffset (l ++ r) e) :
    Runs false (pmemallocCoalesceFree p) m () (relocate p (mergeEvents [] (l ++ r))) := by
  have hfits := hp.fits
  rw [← mergeEvents_up hp.aligned]
  exact coalesce_runs (chain_up.mpr hc) (by omega)

/-- What `pmemalloc_free` stores before it coalesces. -/
def releaseEvents (d : Mem) (c : Clump) : List Event :=
  if c.tag = .active then commitEvents d c .freeing else [.store c.addr (c.set .free).word, headerFlush c.addr]

/-- Freeing a reserved or active clump, wherever its header is: `cs` is the walk that coalescing
finds. -/
theorem free_runs_of {cs : List Clump} (hp : Mapped p e) (hfit : c.addr + 64 ≤ e)
    (hw : fileAt p m c.addr = c.word) (hd : 64 ∣ c.size) (hheld : c.tag = .reserved ∨ c.tag = .active)
    (ht : c.tag = .active → ∀ s ∈ registered (fileAt p m) c, s.1 < e ∧ ¬ c.InHeader s.1)
    (hc : Chain (applyAll (releaseEvents (fileAt p m) c) (fileAt p m)) pmemClumpOffset cs e) :
    Runs false (pmemallocFree p (c.addr + 64)) m ()
      (relocate p (releaseEvents (fileAt p m) c ++ mergeEvents [] cs)) := by
  have hfits := hp.fits
  have hclp : clumpOf p (c.addr + 64) = p + c.addr := by
    rw [clumpOf_eq (by omega) (by omega)]
    omega
  have hflush : relocate p [headerFlush c.addr] = [headerFlush (p + c.addr)] := by
    rw [headerFlush_up hp.aligned]
    rfl
  rw [← fileAt_applyAll] at hc
  refine runs_persistFlags fun flags => ?_
  rw [hclp]
  refine Runs.load_bind hw ?_
  rw [Clump.clumpState_word hd, Clump.clumpSz_word hd]
  have htail : ∀ m', fileAt p m' = fileAt p (applyAll (relocate p (releaseEvents (fileAt p m) c)) m) →
      Runs false (pmemallocCoalesceFree p) m' () (relocate p (mergeEvents [] cs)) := fun m' hm' =>
    coalesce_runs_at (l := []) hp (hm' ▸ hc)
  rcases hheld with hres | hact
  · have hev : releaseEvents (fileAt p m) c = [.store c.addr (c.set .free).word, headerFlush c.addr] := by
      rw [releaseEvents, hres, if_neg (by decide)]
    rw [hev] at htail ⊢
    rw [hres, if_neg (by simp), if_neg (by decide), relocate_append]
    have hev' : relocate p [.store c.addr (c.set .free).word, headerFlush c.addr] =
        [.store (p + c.addr) (c.set .free).word] ++ relocate p [headerFlush c.addr] := rfl
    rw [hev', List.append_assoc]
    refine Runs.seq (Runs.store false _ _ _) (Runs.seq ?_ (htail _ rfl))
    rw [hflush]
    exact pmemPersist_runs_flagged _ _ _ _
  · have hev : releaseEvents (fileAt p m) c = commitEvents (fileAt p m) c .freeing := if_pos hact
    rw [hev, commitEvents_freeing, relocate_append, relocate_append] at htail
    rw [hev, hact, if_neg (by simp), if_pos rfl, relocate_append, commitEvents_freeing, relocate_append,
      relocate_append, List.append_assoc, List.append_assoc]
    refine Runs.seq (freeActive_runs hp (ht hact)) ?_
    refine Runs.seq (Runs.store false _ _ _) (Runs.seq ?_ (htail _ ?_))
    · rw [hflush]
      exact pmemPersist_runs_flagged _ _ _ _
    · rw [applyAll_append]
      rfl

theorem free_runs (hp : Mapped p e) (hc : Chain (fileAt p m) pmemClumpOffset (l ++ c :: r) e)
    (hact : c.tag = .active) (hq : ∀ b ∈ l ++ r, ∀ d, pending d 0 b = [])
    (ht : ∀ t ∈ registered (fileAt p m) c, Outside (l ++ c :: r) e t.1) :
    Runs false (pmemallocFree p (c.addr + 64)) m () (relocate p (freeEvents (fileAt p m) l c r)) := by
  have hcm : c ∈ l ++ c :: r := by simp
  have hev : releaseEvents (fileAt p m) c = commitEvents (fileAt p m) c .freeing := if_pos hact
  rw [freeEvents, ← hev]
  refine free_runs_of hp (hc.addr_lt hcm) (hc.word hcm) (hc.size_dvd hcm) (Or.inr hact)
    (fun _ s hs => ⟨(ht s hs).lt, (ht s hs).headers c hcm⟩) ?_
  rw [hev]
  exact (commit_done hc (Or.inr rfl) hq ht).chain

end Free

/-- The pool after a crash in the freeing of an active clump and the recoveries that follow: the
outcome of the pool as it was, or of the pool with the clump committed to be freed. -/
theorem free_crash_ends {p p' e : ℕ} {cs l r : List Clump} {c : Clump} {w w' : World} {img d' : Mem}
    (hcs : cs = l ++ c :: r) (hq : Quiescent w p cs e) (hw : w.Persisting) (hc : c.tag = .active)
    (ht : ∀ s ∈ registered (fileAt p w.mem) c, Target cs s.1)
    (hd : ((registered (fileAt p w.mem) c).map Prod.fst).Nodup)
    (hcr : CrashDuring (pmemallocFree p (c.addr + 64)) w img)
    (ha : CrashedAttempts e (fileAt p img) d') (hp' : Mapped p' e) (hb : Booted p' d' w') :
    ∃ m₀ w'', CrashImage w.base w.trace m₀ ∧ recovery p' w' = (.ok (), w'') ∧
      (EndsAs e (fileAt p m₀) cs (fileAt p' w''.mem) ∨
        EndsAs e (committed (fileAt p m₀) c .freeing) (l ++ c.set .freeing :: r)
          (fileAt p' w''.mem)) := by
  have hcm : c ∈ cs := by simp [hcs]
  have hout : ∀ s ∈ registered (fileAt p w.mem) c, Outside cs e s.1 :=
    fun s hs => (ht s hs).outside hq.chain
  have hquiet := (hcs ▸ hq).quiet_rest
  have hruns := free_runs hq.mapped (hcs ▸ hq.chain) hc hquiet (hcs ▸ hout)
  have ho : Orderly (freeEvents (fileAt p w.mem) l c r) :=
    (orderly_commitEvents _ (hq.addr_dvd hcm) _).append (orderly_mergeEvents _ _)
  obtain ⟨j, m₀, hm₀, -, himg⟩ := crashDuring_file hq.mapped.aligned hruns (Or.inr hw) ho hcr
  have hchain := hq.image_chain hm₀
  rcases j with _ | j
  · -- nothing of the call reached memory
    rw [show fileAt p img = fileAt p m₀ from himg] at ha
    obtain ⟨w'', hrun, hend, -⟩ := recovery_ends (SameOutcome.refl hchain (hq.placed _)) (hq.distinct _)
      (hq.within _) ha hp' hb
    exact ⟨m₀, w'', hm₀, hrun, Or.inl hend⟩
  · have hreg := hq.image_registered hm₀ hcm
    rw [← hreg] at hout hd
    rw [hcs] at hchain hout
    have hso : ∃ cs', SameOutcome 0 pmemClumpOffset e (committed (fileAt p m₀) c .freeing)
        (l ++ c.set .freeing :: r) (fileAt p img) cs' := by
      rw [himg, freeEvents, commitEvents_congr (Or.inr rfl) hreg.symm]
      rcases applyAll_take_append (commitEvents (fileAt p m₀) c .freeing)
        (mergeEvents [] (l ++ c.set .free :: r)) (fileAt p m₀) (j + 1) with ⟨-, hcut⟩ | ⟨-, hcut⟩
      · obtain ⟨t, hso, -⟩ := commit_cut hchain (Or.inr rfl) hquiet hout j
        exact ⟨_, hcut ▸ hso⟩
      · have hfree := commit_done hchain (Or.inr rfl) hquiet hout
        obtain ⟨cs', hso', -⟩ := mergeEvents_cut hfree.chain hfree.placed
          (j + 1 - (commitEvents (fileAt p m₀) c .freeing).length)
        exact ⟨cs', hcut ▸ hfree.trans hso'⟩
    obtain ⟨cs', hso⟩ := hso
    obtain ⟨w'', hrun, hend, -⟩ := recovery_ends hso (distinct_committed (Or.inr rfl) hquiet hd)
      (within_committed (Or.inr rfl) hquiet hout) ha hp' hb
    exact ⟨m₀, w'', hm₀, hrun, Or.inr hend⟩

/-- `pmemalloc_free` is all or nothing where its persists are executed. After a crash anywhere in it,
the coalescing included, any number of crashed recoveries and a complete one, either the clump is
active as it was and no destination has changed, or its extent is free and every destination has its
registered value; the other active clumps are as they were. `m₀` is what a crash right before the
call could leave. -/
theorem free_crash_atomic {p p' e : ℕ} {cs : List Clump} {c : Clump} {w w' : World} {img d' : Mem}
    (hq : Quiescent w p cs e) (hw : w.Persisting) (hcm : c ∈ cs) (hc : c.tag = .active)
    (ht : ∀ s ∈ registered (fileAt p w.mem) c, Target cs s.1)
    (hd : ((registered (fileAt p w.mem) c).map Prod.fst).Nodup)
    (hcr : CrashDuring (pmemallocFree p (c.addr + 64)) w img)
    (ha : CrashedAttempts e (fileAt p img) d') (hp' : Mapped p' e) (hb : Booted p' d' w') :
    ∃ m₀ w'' cs', CrashImage w.base w.trace m₀ ∧ recovery p' w' = (.ok (), w'') ∧
      Chain (fileAt p' w''.mem) pmemClumpOffset cs' e ∧
      (c ∈ cs' ∧ (∀ x, c.InPayload x → fileAt p' w''.mem x = fileAt p m₀ x) ∧
          (∀ s ∈ registered (fileAt p w.mem) c, fileAt p' w''.mem s.1 = fileAt p m₀ s.1) ∨
        (∃ f ∈ cs', f.tag = .free ∧ f.addr ≤ c.addr ∧ c.addr + c.size ≤ f.addr + f.size) ∧
          ∀ s ∈ registered (fileAt p w.mem) c, fileAt p' w''.mem s.1 = s.2) ∧
      ∀ b ∈ cs, b ≠ c → b.tag = .active → b ∈ cs' ∧
        ∀ x, b.InPayload x → (∀ s ∈ registered (fileAt p w.mem) c, s.1 ≠ x) →
          fileAt p' w''.mem x = fileAt p m₀ x := by
  obtain ⟨l, r, hcs⟩ := List.append_of_mem hcm
  have hout : ∀ s ∈ registered (fileAt p w.mem) c, Outside cs e s.1 :=
    fun s hs => (ht s hs).outside hq.chain
  obtain ⟨m₀, w'', hm₀, hrun, hend⟩ := free_crash_ends hcs hq hw hc ht hd hcr ha hp' hb
  have hreg := hq.image_registered hm₀ hcm
  have hchain := hq.image_chain hm₀
  rcases hend with hend | hend
  · refine ⟨m₀, w'', normalForm cs, hm₀, hrun, hend.chain, Or.inl ⟨?_, fun x hx => ?_, fun s hs => ?_⟩,
      fun b hbm _ hbt => ⟨mem_normalForm_of_active hbm hbt, fun x hx _ => ?_⟩⟩
    · exact mem_normalForm_of_active hcm hc
    · exact hend.unchanged hq (hx.outside hq.chain hcm)
    · exact hend.unchanged hq (hout s hs)
    · exact hend.unchanged hq (hx.outside hq.chain hbm)
  · rw [← hreg] at hout hd ⊢
    rw [hcs] at hchain hout
    obtain ⟨hset, hkeep⟩ := hend.after_commit (Or.inr rfl) (hcs ▸ hq).quiet_rest hout hd
    refine ⟨m₀, w'', normalForm (l ++ c.set .freeing :: r), hm₀, hrun, hend.chain,
      Or.inr ⟨?_, hset⟩, fun b hbm hbc hbt => ⟨?_, fun x hx hne => ?_⟩⟩
    · exact exists_free_cover (c := c.set .freeing) (chain_committed hchain .freeing).tiles
        (by simp) rfl
    · refine mem_normalForm_of_active ?_ hbt
      rw [hcs] at hbm
      simp only [List.mem_append, List.mem_cons] at hbm ⊢
      tauto
    · exact hkeep x (hcs ▸ hx.outside hq.chain hbm) hne

/-- A pool with an active clump that has two assignments registered, another active one and a free
one. -/
def activePool : Mem := applyAll
  [.store 16384 (128 ||| 3), .store 16400 4096, .store 16408 7, .store 16416 16576, .store 16424 9,
    .store 16512 (128 ||| 3), .store 16640 (64 ||| 0)] fun _ => 0

/-- Freeing the first clump crashes after its first assignment; the next process maps the pool
elsewhere. -/
theorem free_crash_atomic_activePool : ∃ w'' cs',
    recovery 8192 (World.boot (mapAt 8192 (fileAt 65536 (applyAll ((pmemallocFree 65536 16448
      (World.boot (mapAt 65536 activePool) false fun _ => true)).2.trace.take 4)
      (mapAt 65536 activePool)))) false fun _ => true) = (.ok (), w'') ∧
    Chain (fileAt 8192 w''.mem) pmemClumpOffset cs' 16704 ∧ ⟨16512, 128, .active⟩ ∈ cs' := by
  have hq : Quiescent (World.boot (mapAt 65536 activePool) false fun _ => true) 65536
      [⟨16384, 128, .active⟩, ⟨16512, 128, .active⟩, ⟨16640, 64, .free⟩] 16704 :=
    { mapped := ⟨by decide, by decide⟩
      chain := ⟨by simp [Tiles], by decide, by decide⟩
      states := by simp
      headers := fun _ _ => Durable.boot _ _
      marker := Durable.boot _ _ }
  have hreg : registered (fileAt 65536 (mapAt 65536 activePool)) ⟨16384, 128, .active⟩ =
      [(4096, 7), (16576, 9)] := by decide
  obtain ⟨m₀, w'', cs', -, hrun, hchain, -, hactive⟩ := free_crash_atomic hq (Or.inl rfl)
    (List.mem_cons_self : (⟨16384, 128, .active⟩ : Clump) ∈ _) rfl
    (by rw [World.mem_boot, hreg]; simp [Target, InStatic, Clump.InPayload])
    (by rw [World.mem_boot, hreg]; simp)
    ⟨4, CrashImage.all _ _⟩ (CrashedAttempts.refl _) (⟨by decide, by decide⟩ : Mapped 8192 16704)
    (Booted.boot 8192 _ fun _ => true)
  exact ⟨w'', cs', hrun, hchain, (hactive _ (by simp) (by simp) rfl).1⟩

end PmemExamples.Pool
