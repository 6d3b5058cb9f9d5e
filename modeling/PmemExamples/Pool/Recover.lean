import PmemExamples.Pool.OnList

/-! # `pmemalloc_recover`

One pass over the walk. Each clump whose state is not settled has its pending assignments executed,
its on-list cleared and its settled size word committed; `recoverEvents` is that trace, and the whole
pass issues the traces of the clumps one after the other (`recoverLoop_runs`). -/

namespace PmemExamples.Pool
open Persist Libpmem Tiling
set_option autoImplicit false

/-- The assignments recovery executes for a clump: the on-list of an `ACTIVATING` or `FREEING` one. -/
def pending (m : Mem) (pmp : ℕ) (c : Clump) : List (ℕ × ℕ) :=
  match c.tag with
  | .activating | .freeing => onEntries m pmp c.addr onUp
  | _ => []

/-- Pending assignments hit neither a header of the walk nor its end marker. -/
def Placed (m : Mem) (pmp : ℕ) (cs : List Clump) (e : ℕ) : Prop :=
  ∀ c ∈ cs, ∀ s ∈ pending m pmp c, s.1 ≠ e ∧ ∀ b ∈ cs, ¬ b.InHeader s.1

/-- What recovery issues for one clump. -/
def recoverEvents (m : Mem) (pmp : ℕ) (c : Clump) : List Event :=
  if c.tag.settle = c.tag then []
  else execEvents (pending m pmp c) ++ finishEvents c.addr c.settle.word

theorem pending_eq_nil {m : Mem} {pmp : ℕ} {c : Clump} (h : c.tag ≠ .activating)
    (h' : c.tag ≠ .freeing) : pending m pmp c = [] := by
  unfold pending
  cases hc : c.tag <;> simp_all

theorem pending_settle (m : Mem) (pmp : ℕ) (c : Clump) : pending m pmp c.settle = [] := by
  rcases c.tag.settle_free_or_active with h | h <;>
    exact pending_eq_nil (by simp [h]) (by simp [h])

theorem pending_congr {m m' : Mem} {pmp : ℕ} {c : Clump} (h : ∀ x, c.InHeader x → m' x = m x) :
    pending m' pmp c = pending m pmp c := by
  have : onEntries m' pmp c.addr onUp = onEntries m pmp c.addr onUp :=
    onEntries_congr fun i hi => ⟨h _ (onOff_inHeader (lt_of_mem_onUp hi)),
      h _ (onPtr_inHeader (lt_of_mem_onUp hi))⟩
  unfold pending
  cases c.tag <;> simp [this]

theorem recoverEvents_congr {m m' : Mem} {pmp : ℕ} {c : Clump}
    (h : ∀ x, c.InHeader x → m' x = m x) : recoverEvents m' pmp c = recoverEvents m pmp c := by
  unfold recoverEvents
  rw [pending_congr h]

theorem flatMap_recoverEvents_congr {m m' : Mem} {pmp : ℕ} {cs : List Clump}
    (h : ∀ c ∈ cs, ∀ x, c.InHeader x → m' x = m x) :
    cs.flatMap (recoverEvents m' pmp) = cs.flatMap (recoverEvents m pmp) := by
  simp only [List.flatMap]
  congr 1
  exact List.map_congr_left fun c hc => recoverEvents_congr (h c hc)

theorem recoverEvents_of_settled {m : Mem} {pmp : ℕ} {c : Clump} (h : c.tag.settle = c.tag) :
    recoverEvents m pmp c = [] := if_pos h

/-- Recovery of a clump stores to its header and to its pending destinations. -/
theorem writes_recoverEvents {m : Mem} {pmp x : ℕ} {c : Clump} {e : Event}
    (he : e ∈ recoverEvents m pmp c) (hx : e.Writes x) :
    c.InHeader x ∨ ∃ s ∈ pending m pmp c, s.1 = x := by
  unfold recoverEvents at he
  split at he
  · simp at he
  · rcases List.mem_append.mp he with he | he
    · exact Or.inr (writes_execEvents he hx)
    · rcases writes_finishEvents he hx with rfl | ⟨i, hi, rfl⟩
      · exact Or.inl (addr_inHeader c)
      · exact Or.inl (onOff_inHeader hi)

/-! ## The loop -/

theorem recoverClump_runs (x : Bool) {m : Mem} {pmp : ℕ} {c : Clump}
    (h : ∀ s ∈ pending m pmp c, ¬ c.InHeader s.1) :
    Runs x (recoverClump pmp c.addr c.size c.tag.code) m () (recoverEvents m pmp c) := by
  obtain ⟨addr, size, tag⟩ := c
  cases tag with
  | free => exact Runs.pure x m ()
  | reserved => exact finish_runs x m addr _
  | activating => exact settle_runs _ h
  | active => exact Runs.pure x m ()
  | freeing => exact settle_runs _ h

/-- The stores made for one clump leave the headers of the others, and the marker, alone. -/
theorem recoverEvents_frame {m m₀ : Mem} {pmp a e : ℕ} {cs : List Clump} {c : Clump}
    (ht : Chain m₀ a cs e) (hp : Placed m pmp cs e) (hc : c ∈ cs) :
    (∀ b ∈ cs, b ≠ c → ∀ x, b.InHeader x → ∀ ev ∈ recoverEvents m pmp c, ¬ ev.Writes x) ∧
    (∀ ev ∈ recoverEvents m pmp c, ¬ ev.Writes e) := by
  refine ⟨fun b hb hne x hx ev hev hw => ?_, fun ev hev hw => ?_⟩
  · rcases writes_recoverEvents hev hw with h | ⟨s, hs, rfl⟩
    · exact ht.header_disjoint hb hc hne hx h
    · exact (hp c hc s hs).2 b hb hx
  · rcases writes_recoverEvents hev hw with h | ⟨s, hs, rfl⟩
    · have := ht.addr_lt hc
      have := h.2
      omega
    · exact (hp c hc s hs).1 rfl

theorem recoverLoop_runs (x : Bool) {pmp e : ℕ} :
    ∀ {cs : List Clump} {m : Mem} {a fuel : ℕ}, Chain m a cs e → Placed m pmp cs e →
      cs.length < fuel → Runs x (recoverLoop pmp fuel a) m () (cs.flatMap (recoverEvents m pmp))
  | [], m, a, fuel + 1, hc, _, _ => by
    obtain rfl : a = e := tiles_nil.mp hc.tiles
    refine Runs.load_bind hc.marker ?_
    exact Runs.pure x m ()
  | c :: cs, m, a, fuel + 1, hc, hp, hf => by
    obtain ⟨ha, hpos, hdvd, hw, hrest⟩ := Chain.cons_iff.mp hc
    refine Runs.load_bind hw ?_
    rw [if_neg (Clump.word_ne_zero hpos hdvd), Clump.clumpSz_word hdvd, Clump.clumpState_word hdvd,
      ← ha]
    have hmem : c ∈ c :: cs := List.mem_cons_self
    obtain ⟨hframe, hmark⟩ := recoverEvents_frame hc hp hmem
    have hne : ∀ b ∈ cs, b ≠ c := fun b hb h => by
      have := hc.tiles.nodup
      rw [List.nodup_cons] at this
      exact this.1 (h ▸ hb)
    -- the rest of the walk is as it was, on-lists included
    have hkeep : ∀ b ∈ cs, ∀ y, b.InHeader y → applyAll (recoverEvents m pmp c) m y = m y :=
      fun b hb y hy => applyAll_of_not_writes
        (hframe b (List.mem_cons_of_mem _ hb) (hne b hb) y hy) m
    rw [List.flatMap_cons, ← flatMap_recoverEvents_congr hkeep]
    refine Runs.seq (recoverClump_runs x fun s hs => (hp c hmem s hs).2 c hmem) ?_
    refine recoverLoop_runs x (e := e) ?_ ?_ (by simpa using hf)
    · rw [ha]
      exact hrest.congr (fun b hb => hkeep b hb _ (addr_inHeader b))
        (applyAll_of_not_writes hmark m)
    · intro b hb s hs
      rw [pending_congr (hkeep b hb)] at hs
      obtain ⟨h1, h2⟩ := hp b (List.mem_cons_of_mem _ hb) s hs
      exact ⟨h1, fun d hd => h2 d (List.mem_cons_of_mem _ hd)⟩

end PmemExamples.Pool
