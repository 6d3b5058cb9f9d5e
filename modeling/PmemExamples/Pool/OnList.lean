import PmemExamples.Pool.Walk

/-! # On-lists: the pending assignments of a clump

`onEntries` reads the list a loop over `on[]` would execute: the entries before the first unused one.
The loops' traces are given here in closed form. -/

namespace PmemExamples.Pool
open Persist Libpmem Tiling
set_option autoImplicit false

/-- The entries before the first with `off == 0`: destination address and value. -/
def onEntries (m : Mem) (pmp clp : ℕ) : List ℕ → List (ℕ × ℕ)
  | [] => []
  | i :: is =>
    if m (onOff clp i) ≠ 0 then (pmem pmp (m (onOff clp i)), m (onPtr clp i)) :: onEntries m pmp clp is
    else []

def execEvents : List (ℕ × ℕ) → List Event
  | [] => []
  | s :: ss => .store s.1 s.2 :: .flush (clLines s.1 sizeofPtr) :: execEvents ss

/-- The flush of a header. -/
def headerFlush (clp : ℕ) : Event := .flush (clLines clp sizeofClump)

def clearEvents (clp : ℕ) : List Event :=
  [.store (onOff clp 2) 0, .store (onOff clp 1) 0, .store (onOff clp 0) 0, headerFlush clp]

/-- Clear the on-list, then commit the size word `word`. -/
def finishEvents (clp word : ℕ) : List Event :=
  clearEvents clp ++ [.store clp word, headerFlush clp]

/-! ## The flags -/

/-- Reading the persist flags changes nothing but the epoch flag's future. -/
theorem persistFlags_apply (w : World) : ∃ flags epoch, persistFlags w =
    (.ok flags, { w with epoch := epoch }) ∧
    (w.Persisting → flags = 0 ∧ World.Persisting { w with epoch := epoch }) := by
  rw [persistFlags, Prog.bind_ok (Prog.isRelaxed_apply w)]
  obtain ⟨base, trace, relaxed, epoch⟩ := w
  cases relaxed
  · exact ⟨0, epoch, rfl, fun h => ⟨rfl, h⟩⟩
  · rw [if_pos rfl, enablePersist, Prog.bind_ok (Prog.readEpoch_apply _)]
    cases h0 : epoch 0
    · refine ⟨dataPersist, fun n => epoch (n + 1), by simp [h0], ?_⟩
      rintro (h | h)
      · cases h
      · exact absurd (h 0) (by simp [h0])
    · refine ⟨0, fun n => epoch (n + 1), by simp [h0], ?_⟩
      rintro (h | h)
      · cases h
      · exact ⟨rfl, Or.inr fun n => h (n + 1)⟩

theorem runs_persistFlags {β : Type} {f : ℕ → Prog β} {m : Mem} {b : β} {evs : List Event}
    (h : ∀ flags, Runs false (f flags) m b evs) : Runs false (persistFlags >>= f) m b evs := by
  intro w hw
  obtain ⟨flags, epoch, hf, hkeep⟩ := persistFlags_apply w
  obtain ⟨w', e, h1, h2, h3, h4, h5, h6⟩ := h flags { w with epoch := epoch } hw
  exact ⟨w', e, by rw [Prog.bind_ok hf, h1], h2, fun hp => h3 (hkeep hp).2, h4, h5,
    fun hx => h6 (hx.imp_right fun hp => (hkeep hp).2)⟩

/-! ## The words of a header -/

theorem onOff_inHeader {c : Clump} {i : ℕ} (h : i < 3) : c.InHeader (onOff c.addr i) := by
  unfold Clump.InHeader onOff; omega

theorem onPtr_inHeader {c : Clump} {i : ℕ} (h : i < 3) : c.InHeader (onPtr c.addr i) := by
  unfold Clump.InHeader onPtr; omega

theorem addr_inHeader (c : Clump) : c.InHeader c.addr := by
  unfold Clump.InHeader; omega

theorem onOff_ne_addr (clp i : ℕ) : onOff clp i ≠ clp := by unfold onOff; omega

theorem onOff_ne_onPtr (clp i j : ℕ) : onOff clp i ≠ onPtr clp j := by unfold onOff onPtr; omega

theorem onOff_injective {clp i j : ℕ} (h : onOff clp i = onOff clp j) : i = j := by
  unfold onOff at h; omega

theorem onPtr_injective {clp i j : ℕ} (h : onPtr clp i = onPtr clp j) : i = j := by
  unfold onPtr at h; omega

theorem lt_of_mem_onUp {i : ℕ} (h : i ∈ onUp) : i < 3 := by simp [onUp] at h; omega

theorem onEntries_cons {m : Mem} {pmp clp i : ℕ} (h : m (onOff clp i) ≠ 0) (is : List ℕ) :
    onEntries m pmp clp (i :: is) =
      (pmem pmp (m (onOff clp i)), m (onPtr clp i)) :: onEntries m pmp clp is := if_pos h

theorem onEntries_unused {m : Mem} {pmp clp i : ℕ} (h : m (onOff clp i) = 0) (is : List ℕ) :
    onEntries m pmp clp (i :: is) = [] := if_neg (not_not.mpr h)

theorem onEntries_congr {m m' : Mem} {pmp clp : ℕ} {is : List ℕ}
    (h : ∀ i ∈ is, m' (onOff clp i) = m (onOff clp i) ∧ m' (onPtr clp i) = m (onPtr clp i)) :
    onEntries m' pmp clp is = onEntries m pmp clp is := by
  induction is with
  | nil => rfl
  | cons i is ih =>
    obtain ⟨h1, h2⟩ := h i List.mem_cons_self
    simp only [onEntries, h1, h2]
    rw [ih (fun j hj => h j (List.mem_cons_of_mem _ hj))]

theorem onEntries_length_le (m : Mem) (pmp clp : ℕ) (is : List ℕ) :
    (onEntries m pmp clp is).length ≤ is.length := by
  induction is with
  | nil => simp [onEntries]
  | cons i is ih => simp only [onEntries]; split <;> simp [ih]

/-! ## The loops -/

@[simp] theorem execEvents_nil : execEvents [] = [] := rfl

theorem execEvents_cons (s : ℕ × ℕ) (ss : List (ℕ × ℕ)) :
    execEvents (s :: ss) = .store s.1 s.2 :: .flush (clLines s.1 sizeofPtr) :: execEvents ss := rfl

theorem execEvents_append (ss ss' : List (ℕ × ℕ)) :
    execEvents (ss ++ ss') = execEvents ss ++ execEvents ss' := by
  induction ss with
  | nil => rfl
  | cons s ss ih => simp [execEvents, ih]

theorem storesOf_execEvents (ss : List (ℕ × ℕ)) : storesOf (execEvents ss) = ss := by
  induction ss with
  | nil => rfl
  | cons s ss ih => rw [execEvents_cons, storesOf_store, storesOf_flush, ih]

theorem writes_execEvents {ss : List (ℕ × ℕ)} {x : ℕ} {e : Event} (he : e ∈ execEvents ss)
    (hx : e.Writes x) : ∃ s ∈ ss, s.1 = x := by
  induction ss with
  | nil => simp at he
  | cons s ss ih =>
    rw [execEvents_cons, List.mem_cons, List.mem_cons] at he
    rcases he with rfl | rfl | he
    · exact ⟨s, List.mem_cons_self, hx⟩
    · exact absurd hx (Event.writes_flush _ _)
    · obtain ⟨s', hs', h⟩ := ih he
      exact ⟨s', List.mem_cons_of_mem _ hs', h⟩

theorem writes_finishEvents {clp word x : ℕ} {e : Event} (he : e ∈ finishEvents clp word)
    (hx : e.Writes x) : x = clp ∨ ∃ i < 3, x = onOff clp i := by
  simp only [finishEvents, clearEvents, headerFlush, List.cons_append, List.nil_append,
    List.mem_cons, List.not_mem_nil, or_false] at he
  rcases he with rfl | rfl | rfl | rfl | rfl | rfl
  · exact Or.inr ⟨2, by omega, hx.symm⟩
  · exact Or.inr ⟨1, by omega, hx.symm⟩
  · exact Or.inr ⟨0, by omega, hx.symm⟩
  · exact absurd hx (Event.writes_flush _ _)
  · exact Or.inl hx.symm
  · exact absurd hx (Event.writes_flush _ _)

/-- Executing a list settles every word it names, whatever was there. -/
theorem applyAll_execEvents_overwrite {ss : List (ℕ × ℕ)} {x : ℕ} (h : ∃ s ∈ ss, s.1 = x)
    (m m' : Mem) : applyAll (execEvents ss) m x = applyAll (execEvents ss) m' x := by
  induction ss generalizing m m' with
  | nil => simp at h
  | cons s ss ih =>
    simp only [execEvents_cons, applyAll_store, applyAll_flush]
    by_cases ht : ∃ t ∈ ss, t.1 = x
    · exact ih ht _ _
    · obtain ⟨t, ht', rfl⟩ := h
      rcases List.mem_cons.mp ht' with rfl | ht'
      · exact applyAll_congr_at _ (by simp)
      · exact absurd ⟨t, ht', rfl⟩ ht

theorem applyAll_execEvents_of_not_mem {ss : List (ℕ × ℕ)} {x : ℕ} (h : ∀ s ∈ ss, s.1 ≠ x)
    (m : Mem) : applyAll (execEvents ss) m x = m x := by
  refine applyAll_of_not_writes (fun e he hw => ?_) m
  obtain ⟨s, hs, hx⟩ := writes_execEvents he hw
  exact h s hs hx

theorem applyAll_execEvents_of_mem {ss : List (ℕ × ℕ)} (hd : (ss.map Prod.fst).Nodup)
    {s : ℕ × ℕ} (hs : s ∈ ss) (m : Mem) : applyAll (execEvents ss) m s.1 = s.2 := by
  induction ss generalizing m with
  | nil => simp at hs
  | cons t ss ih =>
    rw [List.map_cons, List.nodup_cons] at hd
    simp only [execEvents_cons, applyAll_store, applyAll_flush]
    rcases List.mem_cons.mp hs with rfl | hs
    · have hnot : ∀ t ∈ ss, t.1 ≠ s.1 := fun t ht heq => hd.1 (List.mem_map.mpr ⟨t, ht, heq⟩)
      rw [applyAll_execEvents_of_not_mem hnot, Function.update_self]
    · exact ih hd.2 hs _

theorem onEntries_prefix {m m' : Mem} {pmp clp : ℕ} {is : List ℕ}
    (ho : ∀ i ∈ is, m' (onOff clp i) = m (onOff clp i) ∨ m' (onOff clp i) = 0)
    (hp : ∀ i ∈ is, m' (onPtr clp i) = m (onPtr clp i)) :
    onEntries m' pmp clp is <+: onEntries m pmp clp is := by
  induction is with
  | nil => exact List.prefix_refl _
  | cons i is ih =>
    simp only [onEntries]
    rcases ho i List.mem_cons_self with h | h
    · rw [h, hp i List.mem_cons_self]
      split
      · exact (List.prefix_cons_inj _).mpr (ih (fun j hj => ho j (List.mem_cons_of_mem _ hj))
          fun j hj => hp j (List.mem_cons_of_mem _ hj))
      · exact List.prefix_refl _
    · simp [h]

theorem execOn_runs {x : Bool} {pmp clp flags : ℕ} (hx : x = true → flags = 0) :
    ∀ (is : List ℕ) (m : Mem),
      (∀ s ∈ onEntries m pmp clp is, ∀ i ∈ is, s.1 ≠ onOff clp i ∧ s.1 ≠ onPtr clp i) →
      Runs x (execOn pmp clp flags is) m () (execEvents (onEntries m pmp clp is))
  | [], m, _ => Runs.pure x m ()
  | i :: is, m, h => by
    by_cases hz : m (onOff clp i) = 0
    · rw [onEntries_unused hz, execOn]
      refine Runs.load_bind hz ?_
      simpa using Runs.pure x m ()
    · rw [onEntries_cons hz] at h ⊢
      rw [execOn, execEvents_cons]
      refine Runs.load_bind rfl ?_
      rw [if_pos hz]
      refine Runs.load_bind rfl (Runs.store_bind ?_)
      have hd := h _ List.mem_cons_self
      generalize hm' : Function.update m (pmem pmp (m (onOff clp i))) (m (onPtr clp i)) = m'
      have hsame : onEntries m' pmp clp is = onEntries m pmp clp is := by
        refine onEntries_congr fun j hj => ?_
        obtain ⟨h1, h2⟩ := hd j (List.mem_cons_of_mem _ hj)
        rw [← hm', Function.update_of_ne (Ne.symm h1), Function.update_of_ne (Ne.symm h2)]
        exact ⟨rfl, rfl⟩
      have ih := execOn_runs hx is m' (by
        rw [hsame]
        exact fun s hs j hj => h s (List.mem_cons_of_mem _ hs) j (List.mem_cons_of_mem _ hj))
      rw [hsame] at ih
      have hp : Runs x (pmemPersist (pmem pmp (m (onOff clp i))) sizeofPtr flags) m' ()
          [.flush (clLines (pmem pmp (m (onOff clp i))) sizeofPtr)] := by
        cases x
        · exact pmemPersist_runs_flagged _ _ _ _
        · rw [hx rfl]; exact pmemPersist_runs true _ _ _
      exact hp.seq ih

theorem onEntries_apart {m : Mem} {pmp clp : ℕ}
    (h : ∀ s ∈ onEntries m pmp clp onUp, ¬ (clp ≤ s.1 ∧ s.1 < clp + 64)) :
    ∀ s ∈ onEntries m pmp clp onUp, ∀ i ∈ onUp, s.1 ≠ onOff clp i ∧ s.1 ≠ onPtr clp i := by
  intro s hs i hi
  have h1 := h s hs
  have h2 := lt_of_mem_onUp hi
  unfold onOff onPtr
  omega

theorem clearOn_runs (x : Bool) (m : Mem) (clp : ℕ) (is : List ℕ) :
    Runs x (clearOn clp is) m () (is.map fun i => .store (onOff clp i) 0) := by
  induction is generalizing m with
  | nil => exact Runs.pure x m ()
  | cons i is ih => exact Runs.store_bind (ih _)

/-- Clear, flush, commit, flush: the end that recovery, activation and freeing share. -/
theorem finish_runs (x : Bool) (m : Mem) (clp word : ℕ) :
    Runs x (do
      clearOn clp onDown
      pmemPersist clp sizeofClump 0
      Prog.store clp word
      pmemPersist clp sizeofClump 0) m () (finishEvents clp word) := by
  show Runs x _ m () (onDown.map (fun i => .store (onOff clp i) 0) ++
    ([headerFlush clp] ++ (.store clp word :: [headerFlush clp])))
  refine Runs.seq (clearOn_runs x m clp onDown) (Runs.seq (pmemPersist_runs x _ clp _) ?_)
  exact Runs.store_bind (pmemPersist_runs x _ clp _)

/-- Execute the list, clear it, commit `word`: entries outside the header. -/
theorem settle_runs {x : Bool} {m : Mem} {pmp clp : ℕ} (word : ℕ)
    (h : ∀ s ∈ onEntries m pmp clp onUp, ¬ (clp ≤ s.1 ∧ s.1 < clp + 64)) :
    Runs x (do
      execOn pmp clp 0 onUp
      clearOn clp onDown
      pmemPersist clp sizeofClump 0
      Prog.store clp word
      pmemPersist clp sizeofClump 0) m ()
      (execEvents (onEntries m pmp clp onUp) ++ finishEvents clp word) :=
  Runs.seq (execOn_runs (fun _ => rfl) onUp m (onEntries_apart h)) (finish_runs x _ clp word)

end PmemExamples.Pool
