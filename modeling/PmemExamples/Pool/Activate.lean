import PmemExamples.Pool.Commit

/-! # `pmemalloc_activate` is crash-atomic -/

namespace PmemExamples.Pool
open Persist Libpmem Tiling
set_option autoImplicit false

/-- The trace of an activation: flush the payload, commit, settle. -/
def activateEvents (d : Mem) (c : Clump) : List Event :=
  .flush (clLines (c.addr + 64) (c.word - pmemChunkSize)) :: commitEvents d c .activating

section Activate
variable {m : Mem} {p e : ℕ} {c : Clump}

theorem activate_runs (x : Bool) (hp : Mapped p e) (hc : c.addr + c.size ≤ e)
    (hw : fileAt p m c.addr = c.word) (hpos : 0 < c.size) (hd : 64 ∣ c.size) (ht : c.tag = .reserved)
    (h : ∀ s ∈ registered (fileAt p m) c, s.1 < e ∧ ¬ c.InHeader s.1) :
    Runs x (pmemallocActivate p (c.addr + 64)) m () (relocate p (activateEvents (fileAt p m) c)) := by
  have hfits := hp.fits
  have hsz := Nat.le_of_dvd hpos hd
  have hptr : pmem p (c.addr + 64) = p + (c.addr + 64) := pmem_eq (by omega)
  have hclp : clumpOf p (c.addr + 64) = p + c.addr := by
    rw [clumpOf_eq (by omega) (by omega)]
    omega
  have hstate : clumpState c.word = State.reserved.code := by rw [Clump.clumpState_word hd, ht]
  have hon := onEntries_committed hp (fun s hs => (h s hs).1) .activating
  have hsettle : Runs x (do
      execOn p (p + c.addr) 0 onUp
      clearOn (p + c.addr) onDown
      pmemPersist (p + c.addr) sizeofClump 0
      Prog.store (p + c.addr) (c.size ||| State.active.code)
      pmemPersist (p + c.addr) sizeofClump 0)
      (Function.update m (p + c.addr) (c.set .activating).word) ()
      (relocate p (recoverEvents (committed (fileAt p m) c .activating) 0 (c.set .activating))) := by
    rw [recoverEvents, if_neg (by simp [State.settle]), pending_committed (Or.inl rfl), relocate_append,
      ← execEvents_up hp.aligned, ← finishEvents_up hp.aligned, ← hon]
    refine settle_runs _ fun s hs => ?_
    rw [hon] at hs
    obtain ⟨t, htm, rfl⟩ := List.mem_map.mp hs
    have := (h t htm).2
    unfold Clump.InHeader at this
    simp only [upEntry]
    omega
  have hcommit : relocate p (activateEvents (fileAt p m) c) =
      [.flush (clLines (p + (c.addr + 64)) (c.word - pmemChunkSize))] ++
        (.store (p + c.addr) (c.set .activating).word :: ([headerFlush (p + c.addr)] ++
          relocate p (recoverEvents (committed (fileAt p m) c .activating) 0 (c.set .activating)))) := by
    rw [activateEvents, commitEvents, relocate_flush, relocate_store, clLines_up hp.aligned,
      headerFlush_up hp.aligned]
    rfl
  unfold pmemallocActivate
  rw [hclp, hptr, hcommit]
  refine Runs.load_bind hw ?_
  rw [hstate, assertEq, if_pos rfl, Clump.clumpSz_word hd]
  refine (Runs.pure x m ()).bind_silent ?_
  refine Runs.seq (pmemPersist_runs x m _ (c.word - pmemChunkSize)) ?_
  exact Runs.store_bind (Runs.seq (pmemPersist_runs x _ _ _) hsettle)

theorem orderly_activateEvents (d : Mem) (h : 64 ∣ c.addr) : Orderly (activateEvents d c) :=
  (Orderly.flush _).append (orderly_commitEvents d h .activating)

theorem payload_mem_clLines {x : ℕ} (hd : 64 ∣ c.size) (h : c.InPayload x) :
    lineOf x ∈ clLines (c.addr + 64) (c.word - pmemChunkSize) := by
  have hle : c.size ≤ c.word := by
    rw [Clump.word, or_code hd c.tag.code_lt]
    omega
  obtain ⟨h1, h2⟩ := h
  rw [mem_clLines, lineOf, pmemChunkSize]
  omega

end Activate

/-- What a crash in an activation leaves: nothing of the call, or a pool that recovers as the
committed one and has the payload in memory. `m₀` is what a crash right before the call would have
left. -/
theorem activate_crash_image {p e : ℕ} {cs l r : List Clump} {c : Clump} {w : World} {img : Mem}
    (hcs : cs = l ++ c :: r) (hq : Quiescent w p cs e) (hc : c.tag = .reserved)
    (ht : ∀ s ∈ registered (fileAt p w.mem) c, Outside cs e s.1)
    (hcr : CrashDuring (pmemallocActivate p (c.addr + 64)) w img) :
    ∃ m₀, CrashImage w.base w.trace m₀ ∧ (fileAt p img = fileAt p m₀ ∨
      (∀ x, c.InPayload x → fileAt p m₀ x = fileAt p w.mem x) ∧
      ∃ cs', SameOutcome 0 pmemClumpOffset e (committed (fileAt p m₀) c .activating)
        (l ++ c.set .activating :: r) (fileAt p img) cs') := by
  have hcm : c ∈ cs := by simp [hcs]
  have hdvd := hq.chain.size_dvd hcm
  have hruns := activate_runs true hq.mapped (hq.chain.tiles.bounds hcm).2 (hq.chain.word hcm)
    (hq.chain.size_pos hcm) hdvd hc fun s hs => ⟨(ht s hs).lt, (ht s hs).headers c hcm⟩
  obtain ⟨j, m₀, hm₀, htouch, himg⟩ := crashDuring_file hq.mapped.aligned hruns (Or.inl rfl)
    (orderly_activateEvents _ (hq.addr_dvd hcm)) hcr
  refine ⟨m₀, hm₀, ?_⟩
  rcases j with _ | _ | j
  · -- nothing of the call reached memory
    exact Or.inl himg
  · -- nor did the commit
    exact Or.inl himg
  · have hreg := hq.image_registered hm₀ hcm
    have hchain := hq.image_chain hm₀
    rw [← hreg] at ht
    rw [hcs] at hchain ht
    obtain ⟨t, hso, -⟩ := commit_cut hchain (Or.inl rfl) (hcs ▸ hq).quiet_rest ht j
    rw [commitEvents_congr (Or.inl rfl) hreg] at hso
    refine Or.inr ⟨fun x hx => ?_, _, himg ▸ hso⟩
    exact htouch (.flush (clLines (c.addr + 64) (c.word - pmemChunkSize))) List.mem_cons_self x
      (payload_mem_clLines hdvd hx)

/-- The pool after a crash in an activation and the recoveries that follow. -/
theorem activate_crash_ends {p p' e : ℕ} {cs l r : List Clump} {c : Clump} {w w' : World} {img d' : Mem}
    (hcs : cs = l ++ c :: r) (hq : Quiescent w p cs e) (hc : c.tag = .reserved)
    (ht : ∀ s ∈ registered (fileAt p w.mem) c, Outside cs e s.1)
    (hd : ((registered (fileAt p w.mem) c).map Prod.fst).Nodup)
    (hcr : CrashDuring (pmemallocActivate p (c.addr + 64)) w img)
    (ha : CrashedAttempts e (fileAt p img) d') (hp' : Mapped p' e) (hb : Booted p' d' w') :
    ∃ m₀ w'', CrashImage w.base w.trace m₀ ∧ recovery p' w' = (.ok (), w'') ∧
      (EndsAs e (fileAt p m₀) cs (fileAt p' w''.mem) ∨
        (∀ x, c.InPayload x → fileAt p m₀ x = fileAt p w.mem x) ∧
        EndsAs e (committed (fileAt p m₀) c .activating) (l ++ c.set .activating :: r)
          (fileAt p' w''.mem)) := by
  have hcm : c ∈ cs := by simp [hcs]
  obtain ⟨m₀, hm₀, hold | ⟨hpay, cs', hso⟩⟩ := activate_crash_image hcs hq hc ht hcr
  · rw [hold] at ha
    obtain ⟨w'', hrun, hend, -⟩ := recovery_ends (SameOutcome.refl (hq.image_chain hm₀) (hq.placed _))
      (hq.distinct _) (hq.within _) ha hp' hb
    exact ⟨m₀, w'', hm₀, hrun, Or.inl hend⟩
  · have hquiet := (hcs ▸ hq).quiet_rest
    rw [← hq.image_registered hm₀ hcm] at ht hd
    obtain ⟨w'', hrun, hend, -⟩ := recovery_ends hso (distinct_committed (Or.inl rfl) hquiet hd)
      (within_committed (Or.inl rfl) hquiet (hcs ▸ ht)) ha hp' hb
    exact ⟨m₀, w'', hm₀, hrun, Or.inr ⟨hpay, hend⟩⟩

/-- `pmemalloc_activate` is all or nothing. After a crash anywhere in it, any number of crashed
recoveries and a complete one, either the clump is free and no destination has changed, or it is
active with the payload the application stored and every destination has its registered value; the
other active clumps are as they were. A word that was not durable before the call counts as one of
the values a crash right before the call could leave (`m₀`). -/
theorem activate_crash_atomic {p p' e : ℕ} {cs : List Clump} {c : Clump} {w w' : World} {img d' : Mem}
    (hq : Quiescent w p cs e) (hcm : c ∈ cs) (hc : c.tag = .reserved)
    (ht : ∀ s ∈ registered (fileAt p w.mem) c, Target cs s.1)
    (hd : ((registered (fileAt p w.mem) c).map Prod.fst).Nodup)
    (hcr : CrashDuring (pmemallocActivate p (c.addr + 64)) w img)
    (ha : CrashedAttempts e (fileAt p img) d') (hp' : Mapped p' e) (hb : Booted p' d' w') :
    ∃ m₀ w'' cs', CrashImage w.base w.trace m₀ ∧ recovery p' w' = (.ok (), w'') ∧
      Chain (fileAt p' w''.mem) pmemClumpOffset cs' e ∧
      ((∃ f ∈ cs', f.tag = .free ∧ f.addr ≤ c.addr ∧ c.addr + c.size ≤ f.addr + f.size) ∧
          (∀ s ∈ registered (fileAt p w.mem) c, fileAt p' w''.mem s.1 = fileAt p m₀ s.1) ∨
        c.set .active ∈ cs' ∧
          (∀ s ∈ registered (fileAt p w.mem) c, fileAt p' w''.mem s.1 = s.2) ∧
          ∀ x, c.InPayload x → (∀ s ∈ registered (fileAt p w.mem) c, s.1 ≠ x) →
            fileAt p' w''.mem x = fileAt p w.mem x) ∧
      ∀ b ∈ cs, b.tag = .active → b ∈ cs' ∧
        ∀ x, b.InPayload x → (∀ s ∈ registered (fileAt p w.mem) c, s.1 ≠ x) →
          fileAt p' w''.mem x = fileAt p m₀ x := by
  obtain ⟨l, r, hcs⟩ := List.append_of_mem hcm
  have hout : ∀ s ∈ registered (fileAt p w.mem) c, Outside cs e s.1 :=
    fun s hs => (ht s hs).outside hq.chain
  obtain ⟨m₀, w'', hm₀, hrun, hend⟩ := activate_crash_ends hcs hq hc hout hd hcr ha hp' hb
  have hreg := hq.image_registered hm₀ hcm
  have hchain := hq.image_chain hm₀
  rcases hend with hend | ⟨hpay, hend⟩
  · refine ⟨m₀, w'', normalForm cs, hm₀, hrun, hend.chain, Or.inl ⟨?_, fun s hs => ?_⟩,
      fun b hbm hbt => ⟨mem_normalForm_of_active hbm hbt, fun x hx _ => ?_⟩⟩
    · exact exists_free_cover hchain.tiles hcm (by rw [hc]; rfl)
    · exact hend.unchanged hq (hout s hs)
    · exact hend.unchanged hq (hx.outside hq.chain hbm)
  · rw [← hreg] at hout hd ⊢
    rw [hcs] at hout
    obtain ⟨hset, hkeep⟩ := hend.after_commit (Or.inl rfl) (hcs ▸ hq).quiet_rest hout hd
    refine ⟨m₀, w'', normalForm (l ++ c.set .activating :: r), hm₀, hrun, hend.chain,
      Or.inr ⟨?_, hset, fun x hx hne => ?_⟩, fun b hbm hbt => ⟨?_, fun x hx hne => ?_⟩⟩
    · exact active_mem_normalForm (c := c.set .activating) (by simp) rfl
    · rw [hkeep x (hcs ▸ hx.outside hq.chain hcm) hne, hpay x hx]
    · refine mem_normalForm_of_active ?_ hbt
      have hbc : b ≠ c := fun h => by rw [h, hc] at hbt; cases hbt
      rw [hcs] at hbm
      simp only [List.mem_append, List.mem_cons] at hbm ⊢
      tauto
    · exact hkeep x (hcs ▸ hx.outside hq.chain hbm) hne

/-- A pool with a reserved clump that has one assignment registered, an active and a free clump. -/
def reservedPool : Mem := applyAll
  [.store 16384 (128 ||| 1), .store 16400 4096, .store 16408 7, .store 16512 (64 ||| 3),
    .store 16576 (64 ||| 0)] fun _ => 0

/-- An activation that crashes once its commit is in memory; the next process maps the pool
elsewhere. -/
theorem activate_crash_atomic_reservedPool : ∃ w'' cs',
    recovery 8192 (World.boot (mapAt 8192 (fileAt 65536 (applyAll ((pmemallocActivate 65536 16448
      (World.boot (mapAt 65536 reservedPool) false fun _ => true)).2.trace.take 2)
      (mapAt 65536 reservedPool)))) false fun _ => true) = (.ok (), w'') ∧
    Chain (fileAt 8192 w''.mem) pmemClumpOffset cs' 16640 ∧ ⟨16512, 64, .active⟩ ∈ cs' := by
  have hq : Quiescent (World.boot (mapAt 65536 reservedPool) false fun _ => true) 65536
      [⟨16384, 128, .reserved⟩, ⟨16512, 64, .active⟩, ⟨16576, 64, .free⟩] 16640 :=
    { mapped := ⟨by decide, by decide⟩
      chain := ⟨by simp [Tiles], by decide, by decide⟩
      states := by simp
      headers := fun _ _ => Durable.boot _ _
      marker := Durable.boot _ _ }
  have hreg : registered (fileAt 65536 (mapAt 65536 reservedPool)) ⟨16384, 128, .reserved⟩ =
      [(4096, 7)] := by decide
  obtain ⟨m₀, w'', cs', -, hrun, hchain, -, hactive⟩ := activate_crash_atomic hq
    (List.mem_cons_self : (⟨16384, 128, .reserved⟩ : Clump) ∈ _) rfl
    (by rw [World.mem_boot, hreg]; simp [Target, InStatic])
    (by rw [World.mem_boot, hreg]; simp)
    ⟨2, CrashImage.all _ _⟩ (CrashedAttempts.refl _) (⟨by decide, by decide⟩ : Mapped 8192 16640)
    (Booted.boot 8192 _ fun _ => true)
  exact ⟨w'', cs', hrun, hchain, (hactive _ (by simp) rfl).1⟩

end PmemExamples.Pool
