import PmemExamples.Pool.Coalesce

/-! # What `pmemalloc_coalesce_free` changes

Each of its stores is to the first header of a maximal run of free clumps (`mergeEvents_store`). So it may be
stopped after any of them, and what it leaves is a walk with the same free bytes that another call completes
(`coalesce_interruptible`). -/

namespace PmemExamples.Pool
open Persist Libpmem Tiling
set_option autoImplicit false

/-! ## Maximal runs -/

/-- `run` is a maximal run of at least two free clumps between `l` and `r`. -/
structure FreeRun (l run r : List Clump) : Prop where
  free : ∀ c ∈ run, c.tag = .free
  two : 2 ≤ run.length
  left : ∀ b ∈ l.getLast?, b.tag ≠ .free
  right : ∀ b ∈ r.head?, b.tag ≠ .free

/-- The clump that takes the place of a run that begins with `c`. -/
def Clump.merged (c : Clump) (run : List Clump) : Clump := ⟨c.addr, ((c :: run).map Block.size).sum, .free⟩

theorem isFree_eq_false {s : State} (h : s ≠ .free) : s.isFree = false :=
  Bool.eq_false_iff.mpr fun ht => h (State.isFree_iff.mp ht)

theorem closeRun_store {run : List Clump} {a v : ℕ} (h : .store a v ∈ closeRun run) :
    ∃ c rest, run = c :: rest ∧ 2 ≤ run.length ∧ a = c.addr ∧ v = (c.merged rest).word := by
  match run with
  | [] => simp [closeRun] at h
  | [_] => simp [closeRun] at h
  | c :: d :: run =>
    simp only [closeRun, headerFlush, List.mem_cons, List.not_mem_nil, or_false, reduceCtorEq, Event.store.injEq] at h
    exact ⟨c, d :: run, rfl, by simp, h.1, h.2⟩

theorem mergeEvents_store {a v : ℕ} : ∀ {cs run l : List Clump}, (∀ c ∈ run, c.tag = .free) →
    (∀ b ∈ l.getLast?, b.tag ≠ .free) → .store a v ∈ mergeEvents run cs → ∃ l' c rest r,
      l ++ run ++ cs = l' ++ c :: rest ++ r ∧ FreeRun l' (c :: rest) r ∧ a = c.addr ∧ v = (c.merged rest).word
  | [], run, l, hrun, hl, h => by
    rw [mergeEvents] at h
    obtain ⟨c, rest, rfl, htwo, ha, hv⟩ := closeRun_store h
    exact ⟨l, c, rest, [], rfl, ⟨hrun, htwo, hl, by simp⟩, ha, hv⟩
  | c :: cs, run, l, hrun, hl, h => by
    rw [mergeEvents] at h
    by_cases hfree : c.tag = .free
    · rw [if_pos hfree] at h
      have hrun' : ∀ b ∈ run ++ [c], b.tag = .free := by
        simp only [List.mem_append, List.mem_singleton]
        rintro b (hb | rfl)
        · exact hrun b hb
        · exact hfree
      obtain ⟨l', d, rest, r, heq, hmax⟩ := mergeEvents_store hrun' hl h
      exact ⟨l', d, rest, r, by rw [← heq]; simp, hmax⟩
    · rw [if_neg hfree] at h
      rcases List.mem_append.mp h with h | h
      · obtain ⟨d, rest, rfl, htwo, ha, hv⟩ := closeRun_store h
        exact ⟨l, d, rest, c :: cs, rfl, ⟨hrun, htwo, hl, by simpa using hfree⟩, ha, hv⟩
      · have hlast : ∀ b ∈ (l ++ run ++ [c]).getLast?, b.tag ≠ .free := by simpa using hfree
        obtain ⟨l', d, rest, r, heq, hmax⟩ := mergeEvents_store (l := l ++ run ++ [c]) (by simp) hlast h
        exact ⟨l', d, rest, r, by rw [← heq]; simp, hmax⟩

theorem FreeRun.mem_mergeRuns {l run r : List Clump} {c : Clump} (h : FreeRun l (c :: run) r) :
    c.merged run ∈ mergeRuns State.isFree (l ++ c :: run ++ r) := by
  have hfree : ∀ b ∈ c :: run, b.tag.isFree = true := fun b hb => State.isFree_iff.mpr (h.free b hb)
  have hright : mergeRuns State.isFree (c :: run ++ r) = c.merged run :: mergeRuns State.isFree r := by
    have hc := h.free c List.mem_cons_self
    have hjoin := mergeRuns_join_run (hfree c List.mem_cons_self) (fun b hb => hfree b (List.mem_cons_of_mem _ hb)) r
    rw [hc] at hjoin
    rw [hjoin]
    cases r with
    | nil => rfl
    | cons d r =>
      have hd : d.tag.isFree = false := isFree_eq_false (h.right d rfl)
      rw [mergeRuns_cons, mergeRuns_cons_of_not hd]
      simp [hd, Clump.merged]
  rcases List.eq_nil_or_concat l with rfl | ⟨l, b, rfl⟩
  · rw [List.nil_append, hright]
    exact List.mem_cons_self
  · have hb : b.tag.isFree = false := isFree_eq_false (h.left b (by simp))
    rw [List.concat_eq_append, List.append_assoc, List.append_assoc, List.singleton_append, mergeRuns_append_of_not hb,
      hright]
    simp

/-! ## Free bytes -/

/-- The byte is in a free clump. -/
def FreeByte (cs : List Clump) (x : ℕ) : Prop := ∃ c ∈ cs, c.tag = .free ∧ c.addr ≤ x ∧ x < c.addr + c.size

theorem freeByte_iff {cs : List Clump} {a e x : ℕ} (h : Tiles 64 a cs e) :
    FreeByte cs x ↔ (a ≤ x ∧ x < e) ∧ ∀ c ∈ cs, c.tag ≠ .free → ¬ (c.addr ≤ x ∧ x < c.addr + c.size) := by
  constructor
  · rintro ⟨c, hc, ht, hx⟩
    have hb := h.bounds hc
    refine ⟨by omega, fun b hb hbt hbx => hbt ?_⟩
    rw [h.eq_of_mem_overlap hb hc hbx hx, ht]
  · rintro ⟨hx, hused⟩
    obtain ⟨c, hc, hcx⟩ := h.covers hx
    exact ⟨c, hc, by_contra fun ht => hused c hc ht hcx, hcx⟩

/-- Two walks over the same bytes with the same clumps in use have the same free bytes. -/
theorem freeByte_congr {cs cs' : List Clump} {a e x : ℕ} (h : Tiles 64 a cs e) (h' : Tiles 64 a cs' e)
    (hsame : ∀ c : Clump, c.tag ≠ .free → (c ∈ cs' ↔ c ∈ cs)) : FreeByte cs' x ↔ FreeByte cs x := by
  rw [freeByte_iff h, freeByte_iff h']
  refine and_congr_right fun _ => forall_congr' fun c => ?_
  constructor
  · exact fun hc hm ht => hc ((hsame c ht).mpr hm) ht
  · exact fun hc hm ht => hc ((hsame c ht).mp hm) ht

/-! ## Interruptions -/

section Interrupt
variable {m : Mem} {a e x : ℕ} {cs cs' : List Clump}

/-- What is not the header of a clump of the merged walk keeps its value at every cut. -/
theorem mergeEvents_frame (k : ℕ) (hx : ∀ c ∈ mergeRuns State.isFree cs, c.addr ≠ x) :
    applyAll ((mergeEvents [] cs).take k) m x = m x := by
  refine applyAll_of_not_writes (fun ev hev hw => ?_) m
  cases ev with
  | store b v =>
    obtain rfl : b = x := hw
    obtain ⟨l, c, rest, r, heq, hmax, rfl, -⟩ :=
      mergeEvents_store (l := []) (by simp) (by simp) (List.mem_of_mem_take hev)
    have hm := hmax.mem_mergeRuns
    rw [← heq] at hm
    exact hx _ hm rfl
  | flush ls => exact absurd hw (Event.writes_flush _ _)

theorem mem_of_mergeRuns_eq (h : mergeRuns State.isFree cs' = mergeRuns State.isFree cs) {c : Clump}
    (ht : c.tag ≠ .free) : c ∈ cs' ↔ c ∈ cs := by
  rw [← mem_mergeRuns_of_not (isFree_eq_false ht), h, mem_mergeRuns_of_not (isFree_eq_false ht)]

theorem mergeEvents_done (hc : Chain m a cs e) :
    Chain (applyAll (mergeEvents [] cs) m) a (mergeRuns State.isFree cs) e := by
  have hc₀ : Chain m a ([] ++ [] ++ cs) e := hc
  obtain ⟨cs', hchain, -, -, hfull⟩ := mergeEvents_chain hc₀ (by simp) (mergeEvents [] cs).length
  rw [List.take_length] at hchain
  rw [hfull (le_refl _)] at hchain
  exact hchain

/-- Completing what a cut of the trace has left gives the memory that the full trace gives. -/
theorem mergeEvents_completed (hc : Chain m a cs e) (k : ℕ) (hc' : Chain (applyAll ((mergeEvents [] cs).take k) m) a cs'
    e) (hmerge : mergeRuns State.isFree cs' = mergeRuns State.isFree cs) :
    applyAll (mergeEvents [] cs') (applyAll ((mergeEvents [] cs).take k) m) = applyAll (mergeEvents [] cs) m := by
  have hdone := mergeEvents_done hc
  have hdone' := mergeEvents_done hc'
  rw [hmerge] at hdone'
  funext x
  by_cases hx : ∃ c ∈ mergeRuns State.isFree cs, c.addr = x
  · obtain ⟨c, hcm, rfl⟩ := hx
    rw [hdone.word hcm, hdone'.word hcm]
  · have hx' : ∀ c ∈ mergeRuns State.isFree cs, c.addr ≠ x := fun c hcm heq => hx ⟨c, hcm, heq⟩
    have hfull := mergeEvents_frame (m := m) (mergeEvents [] cs).length hx'
    have hrest := mergeEvents_frame (m := applyAll ((mergeEvents [] cs).take k) m) (mergeEvents [] cs').length
      (hmerge ▸ hx')
    rw [List.take_length] at hfull hrest
    rw [hrest, hfull, mergeEvents_frame k hx']

end Interrupt

/-- `pmemalloc_coalesce_free` returns, and changes the size words of the first clumps of the maximal runs of free
clumps only, each to the sum of its run. Stopped after any of its stores it leaves a walk to the same end
with the same clumps in use and the same free bytes, from which another call completes it. -/
theorem coalesce_interruptible {pmp e : ℕ} {cs : List Clump} {w : World}
    (hc : Chain w.mem (pmp + pmemClumpOffset) cs e) (he : e < 2 ^ 64) :
    ∃ w', pmemallocCoalesceFree pmp w = (.ok (), w') ∧
      (∀ x, w'.mem x ≠ w.mem x → ∃ l c run r, cs = l ++ c :: run ++ r ∧ FreeRun l (c :: run) r ∧ x = c.addr) ∧
      (∀ l c run r, cs = l ++ c :: run ++ r → FreeRun l (c :: run) r →
        w'.mem c.addr = ((c :: run).map Block.size).sum ||| State.free.code) ∧
      ∀ m, StopDuring (pmemallocCoalesceFree pmp) w m → ∃ cs', Chain m (pmp + pmemClumpOffset) cs' e ∧
        (∀ c : Clump, c.tag ≠ .free → (c ∈ cs' ↔ c ∈ cs)) ∧ (∀ x, FreeByte cs' x ↔ FreeByte cs x) ∧
        ∀ w₁ : World, w₁.mem = m → ∃ w₂, pmemallocCoalesceFree pmp w₁ = (.ok (), w₂) ∧ w₂.mem = w'.mem ∧
          Chain w₂.mem (pmp + pmemClumpOffset) (mergeRuns State.isFree cs) e := by
  have hruns := coalesce_runs hc he
  have hdone := mergeEvents_done hc
  have hmem := (hruns.mem_eq rfl).2
  have hrun := (hruns.mem_eq rfl).1
  refine ⟨(pmemallocCoalesceFree pmp w).2, Prod.ext hrun rfl, fun x hx => ?_, fun l c run r heq hmax => ?_,
    fun m hstop => ?_⟩
  · by_contra hnone
    refine hx ?_
    rw [hmem]
    refine applyAll_of_not_writes (fun ev hev hw => hnone ?_) _
    cases ev with
    | store b v =>
      obtain rfl : b = x := hw
      obtain ⟨l, c, run, r, heq, hmax, ha, -⟩ := mergeEvents_store (l := []) (by simp) (by simp) hev
      exact ⟨l, c, run, r, heq, hmax, ha⟩
    | flush ls => exact absurd hw (Event.writes_flush _ _)
  · rw [hmem]
    exact hdone.word (heq ▸ hmax.mem_mergeRuns)
  · obtain ⟨k, rfl⟩ := hruns.stop hstop
    obtain ⟨cs', hchain, hmerge, -⟩ := mergeEvents_chain (l := []) hc (List.forall_mem_nil _) k
    rw [List.nil_append] at hchain hmerge
    refine ⟨cs', hchain, fun c ht => mem_of_mergeRuns_eq hmerge ht,
      fun x => freeByte_congr hc.tiles hchain.tiles fun c ht => mem_of_mergeRuns_eq hmerge ht, fun w₁ hw₁ => ?_⟩
    -- the second call merges what is left
    have hruns₁ := coalesce_runs (hw₁ ▸ hchain) he
    have hmem₁ := (hruns₁.mem_eq rfl).2
    rw [hw₁, mergeEvents_completed hc k hchain hmerge] at hmem₁
    refine ⟨(pmemallocCoalesceFree pmp w₁).2, Prod.ext (hruns₁.mem_eq rfl).1 rfl, hmem₁.trans hmem.symm, ?_⟩
    rw [hmem₁]
    exact hdone

/-- A pool with two free clumps, a reserved one and two free clumps at the end. -/
def unmergedPool : Mem := applyAll
  [.store 81920 64, .store 81984 128, .store 82112 (64 ||| 1), .store 82176 64, .store 82240 64] fun _ => 0

theorem coalesce_interruptible_unmergedPool : ∃ w',
    pmemallocCoalesceFree 65536 (World.boot unmergedPool false fun _ => true) = (.ok (), w') ∧
      w'.mem 81920 = 192 ∧ w'.mem 82176 = 128 := by
  have hc : Chain (World.boot unmergedPool false fun _ => true).mem (65536 + pmemClumpOffset)
      [⟨81920, 64, .free⟩, ⟨81984, 128, .free⟩, ⟨82112, 64, .reserved⟩, ⟨82176, 64, .free⟩, ⟨82240, 64, .free⟩] 82304 :=
    ⟨by simp [Tiles], by decide, by decide⟩
  obtain ⟨w', hrun, -, hsum, -⟩ := coalesce_interruptible hc (by decide)
  exact ⟨w', hrun, hsum [] _ [_] _ rfl ⟨by simp, by simp, by simp, by simp⟩,
    hsum [_, _, _] _ [_] [] rfl ⟨by simp, by simp, by simp, by simp⟩⟩

end PmemExamples.Pool
