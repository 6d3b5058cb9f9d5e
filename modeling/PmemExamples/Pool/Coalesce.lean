import PmemExamples.Pool.Recover

/-! # `pmemalloc_coalesce_free`

The loop carries `firstfree`, `lastfree` and `csize`; together they stand for the run of free clumps
behind it (`Tracks`). A run of two or more is closed by one store to its first header. `mergeEvents`
is the trace, and each of its stores joins a run without changing the normal form. -/

namespace PmemExamples.Pool
open Persist Libpmem Tiling
set_option autoImplicit false

/-- The store that joins a run of at least two clumps. -/
def closeRun : List Clump → List Event
  | c :: d :: run =>
    [.store c.addr ((c.size + ((d :: run).map Block.size).sum) ||| State.free.code),
      headerFlush c.addr]
  | _ => []

/-- The trace of the loop with the open run `run` behind it. -/
def mergeEvents : List Clump → List Clump → List Event
  | run, [] => closeRun run
  | run, c :: cs =>
    if c.tag = .free then mergeEvents (run ++ [c]) cs else closeRun run ++ mergeEvents [] cs

/-- What the three variables of the loop say about the run behind it. -/
structure Tracks (run : List Clump) (firstfree lastfree csize : ℕ) : Prop where
  first : firstfree = (run.head?.map Block.addr).getD 0
  first_ne : run ≠ [] → firstfree ≠ 0
  last : lastfree ≠ 0 ↔ 2 ≤ run.length
  size : csize = (run.map Block.size).sum

theorem Tracks.nil : Tracks [] 0 0 0 := ⟨rfl, fun h => absurd rfl h, by simp, rfl⟩

theorem Tracks.snoc {run : List Clump} {firstfree lastfree csize : ℕ}
    (h : Tracks run firstfree lastfree csize) {c : Clump} (hc : c.addr ≠ 0) (hr : run ≠ []) :
    Tracks (run ++ [c]) firstfree c.addr (csize + c.size) := by
  refine ⟨?_, fun _ => h.first_ne hr, ?_, by simp [h.size]⟩
  · rw [h.first]; cases run <;> simp_all
  · have : 0 < run.length := List.length_pos_iff.mpr hr
    simp [hc]; omega

theorem Tracks.single {c : Clump} (hc : c.addr ≠ 0) : Tracks [c] c.addr 0 c.size :=
  ⟨rfl, fun _ => hc, by simp, by simp⟩

/-- A run of two or more is closed exactly when both pointers are set. -/
theorem Tracks.close {run : List Clump} {firstfree lastfree csize : ℕ}
    (h : Tracks run firstfree lastfree csize) :
    closeRun run = if firstfree ≠ 0 ∧ lastfree ≠ 0 then
      [.store firstfree (csize ||| State.free.code), headerFlush firstfree] else [] := by
  cases run with
  | nil => simp [closeRun, h.first]
  | cons c run =>
    cases run with
    | nil =>
      have : lastfree = 0 := by by_contra hl; have := h.last.mp hl; simp at this
      simp [closeRun, this]
    | cons d run =>
      have h1 := h.first_ne (by simp)
      have h2 : lastfree ≠ 0 := h.last.mpr (by simp)
      rw [if_pos ⟨h1, h2⟩, closeRun, h.first, h.size]
      simp

theorem writes_closeRun {run : List Clump} {x : ℕ} {ev : Event} (he : ev ∈ closeRun run)
    (hx : ev.Writes x) : ∃ c ∈ run, c.addr = x := by
  match run with
  | [] => simp [closeRun] at he
  | [c] => simp [closeRun] at he
  | c :: d :: run =>
    simp only [closeRun, headerFlush, List.mem_cons, List.not_mem_nil, or_false] at he
    rcases he with rfl | rfl
    · exact ⟨c, List.mem_cons_self, hx⟩
    · exact absurd hx (Event.writes_flush _ _)

theorem coalesceLoop_runs {x : Bool} {flags e : ℕ} (hx : x = true → flags = 0) :
    ∀ {cs run : List Clump} {m : Mem} {a fuel firstfree lastfree csize : ℕ}, Chain m a cs e →
      0 < a → cs.length < fuel → Tracks run firstfree lastfree csize →
      (∀ c ∈ run, c.addr < a) →
      Runs x (coalesceLoop flags fuel a firstfree lastfree csize) m () (mergeEvents run cs)
  | [], run, m, a, fuel + 1, ff, lf, n, hc, _, _, ht, _ => by
    obtain rfl : a = e := tiles_nil.mp hc.tiles
    refine Runs.load_bind hc.marker ?_
    rw [if_pos rfl, mergeEvents, ht.close]
    split
    · exact Runs.store_bind (pmemPersist_runs x _ ff _)
    · exact Runs.pure x m ()
  | c :: cs, run, m, a, fuel + 1, ff, lf, n, hc, ha, hf, ht, hlt => by
    obtain ⟨haddr, hpos, hdvd, hw, hrest⟩ := Chain.cons_iff.mp hc
    have hc0 : c.addr ≠ 0 := by omega
    have hf' : cs.length < fuel := by simpa using hf
    refine Runs.load_bind hw ?_
    rw [if_neg (Clump.word_ne_zero hpos hdvd), Clump.clumpSz_word hdvd, Clump.clumpState_word hdvd]
    by_cases hfree : c.tag = .free
    · simp only [mergeEvents, hfree, if_true]
      have hlt' : ∀ d ∈ run ++ [c], d.addr < a + c.size := by
        intro d hd
        rcases List.mem_append.mp hd with hd | hd
        · have := hlt d hd; omega
        · rw [List.mem_singleton.mp hd]; omega
      by_cases hff : ff = 0
      · obtain rfl : run = [] := by
          by_contra hr; exact ht.first_ne hr hff
        have hlf : lf = 0 := by by_contra hl; have := ht.last.mp hl; simp at this
        have hn : n = 0 := ht.size
        rw [if_pos hff, hlf, hn, Nat.zero_add, ← haddr]
        refine coalesceLoop_runs hx (e := e) ?_ (by omega) hf' (Tracks.single hc0) ?_
        · rw [haddr]; exact hrest
        · rw [haddr]; exact hlt'
      · have hr : run ≠ [] := fun hr => hff (by rw [ht.first, hr]; rfl)
        rw [if_neg hff]
        have hsn := ht.snoc hc0 hr
        rw [haddr] at hsn
        exact coalesceLoop_runs hx (e := e) hrest (by omega) hf' hsn hlt'
    · have hcode : ¬ c.tag.code = State.free.code := fun h => hfree (State.code_injective h)
      rw [if_neg hcode, mergeEvents, if_neg hfree, ht.close]
      split
      · next hclose =>
        -- the store goes to a header the loop has passed
        have hsame : ∀ d ∈ cs, d.addr ≠ ff := by
          intro d hd
          obtain ⟨f, run, rfl⟩ : ∃ f r, run = f :: r := by
            cases run with
            | nil => simp [ht.first] at hclose
            | cons f r => exact ⟨f, r, rfl⟩
          have h1 := hlt f List.mem_cons_self
          have h2 := hrest.tiles.bounds hd
          have h3 : ff = f.addr := ht.first
          omega
        have he : e ≠ ff := by
          obtain ⟨f, run, rfl⟩ : ∃ f r, run = f :: r := by
            cases run with
            | nil => simp [ht.first] at hclose
            | cons f r => exact ⟨f, r, rfl⟩
          have h1 := hlt f List.mem_cons_self
          have h2 := hrest.tiles.le
          have h3 : ff = f.addr := ht.first
          omega
        have hrest' : Chain (Function.update m ff (n ||| State.free.code)) (a + c.size) cs e :=
          hrest.congr (fun d hd => Function.update_of_ne (hsame d hd) _ _)
            (Function.update_of_ne he _ _)
        have hp : Runs x (pmemPersist ff sizeofClump flags)
            (Function.update m ff (n ||| State.free.code)) () [headerFlush ff] := by
          cases x
          · exact pmemPersist_runs_flagged _ _ _ _
          · rw [hx rfl]; exact pmemPersist_runs true _ _ _
        refine Runs.store_bind (hp.seq ?_)
        exact coalesceLoop_runs hx (e := e) hrest' (by omega) hf' Tracks.nil (by simp)
      · exact coalesceLoop_runs hx (e := e) hrest (by omega) hf' Tracks.nil (by simp)

theorem coalesce_runs {pmp e : ℕ} {m : Mem} {cs : List Clump}
    (hc : Chain m (pmp + pmemClumpOffset) cs e) (he : e < 2 ^ 64) :
    Runs false (pmemallocCoalesceFree pmp) m () (mergeEvents [] cs) := by
  refine runs_persistFlags fun flags => ?_
  rw [pmem_eq (lt_of_le_of_lt hc.tiles.le he)]
  exact coalesceLoop_runs (by simp) hc (by simp) (hc.length_lt he) Tracks.nil (by simp)

/-! ## What the stores of the loop do to the walk -/

/-- Closing a run: the walk before and after, at every cut of the trace. -/
theorem closeRun_chain {m : Mem} {a e : ℕ} {l run r : List Clump} (hc : Chain m a (l ++ run ++ r) e)
    (hrun : ∀ c ∈ run, c.tag = .free) (k : ℕ) :
    ∃ run', Chain (applyAll ((closeRun run).take k) m) a (l ++ run' ++ r) e ∧
      (∀ s, mergeRuns State.isFree (run' ++ s) = mergeRuns State.isFree (run ++ s)) ∧
      (∀ c ∈ run', c.tag = .free ∧ ∃ b ∈ run, b.addr = c.addr) ∧
      ((closeRun run).length ≤ k → run' = mergeRuns State.isFree run) := by
  match run with
  | [] => exact ⟨[], by simpa [closeRun] using hc, by simp, by simp, by simp⟩
  | [c] =>
    exact ⟨[c], by simpa [closeRun] using hc, by simp,
      fun d hd => ⟨hrun d hd, d, hd, rfl⟩, fun _ => rfl⟩
  | c :: d :: run =>
    have hcfree : c.tag.isFree = true := State.isFree_iff.mpr (hrun c List.mem_cons_self)
    have htail : ∀ b ∈ d :: run, b.tag.isFree = true :=
      fun b hb => State.isFree_iff.mpr (hrun b (List.mem_cons_of_mem _ hb))
    have hjoin := mergeRuns_join_run hcfree htail
    cases k with
    | zero =>
      exact ⟨c :: d :: run, by simpa using hc, by simp,
        fun b hb => ⟨hrun b hb, b, hb, rfl⟩, by simp [closeRun]⟩
    | succ k =>
      have hc' : Chain m a (l ++ c :: ((d :: run) ++ r)) e := by simpa using hc
      have h := hc'.join .free
      refine ⟨[⟨c.addr, c.size + ((d :: run).map Block.size).sum, .free⟩], ?_, ?_, ?_, ?_⟩
      · have hm : applyAll ((closeRun (c :: d :: run)).take (k + 1)) m =
            Function.update m c.addr ((c.size + ((d :: run).map Block.size).sum) ||| State.free.code) := by
          rw [closeRun, List.take_succ_cons, applyAll_store]
          cases k <;> simp [headerFlush]
        rw [hm]
        simpa using h
      · intro s
        have := hjoin s
        rw [hrun c List.mem_cons_self] at this
        simpa using this.symm
      · intro b hb
        rw [List.mem_singleton.mp hb]
        exact ⟨rfl, c, List.mem_cons_self, rfl⟩
      · intro _
        have := hjoin []
        rw [hrun c List.mem_cons_self] at this
        simpa [mergeRuns] using this.symm

/-- At every cut of the loop's trace the walk is well formed and has the normal form it had; the full
trace merges every run. -/
theorem mergeEvents_chain {a e : ℕ} :
    ∀ {cs run l : List Clump} {m : Mem}, Chain m a (l ++ run ++ cs) e → (∀ c ∈ run, c.tag = .free) →
      ∀ k, ∃ cs', Chain (applyAll ((mergeEvents run cs).take k) m) a (l ++ cs') e ∧
        mergeRuns State.isFree cs' = mergeRuns State.isFree (run ++ cs) ∧
        (∀ c ∈ cs', ∃ b ∈ run ++ cs, b.addr = c.addr ∧ b.tag = c.tag) ∧
        ((mergeEvents run cs).length ≤ k → cs' = mergeRuns State.isFree (run ++ cs))
  | [], run, l, m, hc, hrun, k => by
    obtain ⟨run', h1, h2, h3, h4⟩ := closeRun_chain hc hrun k
    have hev : mergeEvents run [] = closeRun run := by simp [mergeEvents]
    rw [hev]
    refine ⟨run', by simpa using h1, by simpa using h2 [], fun c hm => ?_, by simpa using h4⟩
    obtain ⟨ht, b, hb, hba⟩ := h3 c hm
    exact ⟨b, by simpa using hb, hba, by rw [ht, hrun b hb]⟩
  | c :: cs, run, l, m, hc, hrun, k => by
    by_cases hfree : c.tag = .free
    · have hrun' : ∀ d ∈ run ++ [c], d.tag = .free := by
        intro d hd
        rcases List.mem_append.mp hd with hd | hd
        · exact hrun d hd
        · rw [List.mem_singleton.mp hd]; exact hfree
      have hc' : Chain m a (l ++ (run ++ [c]) ++ cs) e := by simpa using hc
      obtain ⟨cs', h1, h2, h3, h4⟩ := mergeEvents_chain hc' hrun' k
      have hev : mergeEvents run (c :: cs) = mergeEvents (run ++ [c]) cs := by
        simp [mergeEvents, hfree]
      rw [hev]
      exact ⟨cs', h1, by simpa using h2, by simpa using h3, by simpa using h4⟩
    · have hcf : c.tag.isFree = false := by
        cases hb : c.tag.isFree with
        | false => rfl
        | true => exact absurd (State.isFree_iff.mp hb) hfree
      have hev : mergeEvents run (c :: cs) = closeRun run ++ mergeEvents [] cs := by
        simp [mergeEvents, hfree]
      rw [hev, List.take_append, applyAll_append]
      obtain ⟨run', h1, h2, h3, h4⟩ := closeRun_chain hc hrun k
      have hc' : Chain (applyAll ((closeRun run).take k) m) a ((l ++ run' ++ [c]) ++ [] ++ cs) e := by
        simpa using h1
      obtain ⟨cs', k1, k2, k3, k4⟩ := mergeEvents_chain hc' (by simp) (k - (closeRun run).length)
      refine ⟨run' ++ c :: cs', by simpa using k1, ?_, ?_, ?_⟩
      · rw [h2, mergeRuns_append_of_not hcf, mergeRuns_append_of_not hcf]
        simpa using k2
      · intro b hb
        rcases List.mem_append.mp hb with hb | hb
        · obtain ⟨ht, d, hd, hda⟩ := h3 b hb
          exact ⟨d, by simp [hd], hda, by rw [ht, hrun d hd]⟩
        · rcases List.mem_cons.mp hb with rfl | hb
          · exact ⟨b, by simp, rfl, rfl⟩
          · obtain ⟨d, hd, hdb⟩ := k3 b hb
            exact ⟨d, by simp at hd; simp [hd], hdb⟩
      · intro hlen
        rw [List.length_append] at hlen
        rw [h4 (by omega), k4 (by omega), mergeRuns_append_of_not hcf]
        simp

theorem writes_mergeEvents {x : ℕ} {ev : Event} :
    ∀ {cs run : List Clump}, ev ∈ mergeEvents run cs → ev.Writes x → ∃ c ∈ run ++ cs, c.addr = x
  | [], run, he, hx => by
    rw [mergeEvents] at he
    obtain ⟨c, hc, h⟩ := writes_closeRun he hx
    exact ⟨c, by simpa using hc, h⟩
  | c :: cs, run, he, hx => by
    rw [mergeEvents] at he
    split at he
    · obtain ⟨d, hd, h⟩ := writes_mergeEvents he hx
      exact ⟨d, by simpa using hd, h⟩
    · rcases List.mem_append.mp he with he | he
      · obtain ⟨d, hd, h⟩ := writes_closeRun he hx
        exact ⟨d, by simp [hd], h⟩
      · obtain ⟨d, hd, h⟩ := writes_mergeEvents he hx
        exact ⟨d, by simp at hd; simp [hd], h⟩

theorem closeRun_of_short : ∀ {run : List Clump}, run.length ≤ 1 → closeRun run = []
  | [], _ => rfl
  | [_], _ => rfl

theorem mergeEvents_of_separated :
    ∀ {cs run : List Clump}, Separated State.isFree (run ++ cs) → (∀ c ∈ run, c.tag = .free) →
      run.length ≤ 1 → mergeEvents run cs = []
  | [], run, _, _, hlen => by rw [mergeEvents, closeRun_of_short hlen]
  | c :: cs, run, hs, hrun, hlen => by
    by_cases hfree : c.tag = .free
    · rw [mergeEvents, if_pos hfree]
      cases run with
      | nil =>
        have hs' : Separated State.isFree ([c] ++ cs) := hs
        exact mergeEvents_of_separated hs' (by simpa using hfree) (by simp)
      | cons d run =>
        -- two free neighbours
        obtain rfl : run = [] := List.length_eq_zero_iff.mp (by simpa using hlen)
        rw [List.singleton_append, Separated, List.isChain_cons_cons] at hs
        exact absurd ⟨State.isFree_iff.mpr (hrun d (by simp)), State.isFree_iff.mpr hfree⟩ hs.1
    · have hs' : Separated State.isFree ([] ++ cs) :=
        (List.IsChain.right_of_append hs).tail
      rw [mergeEvents, if_neg hfree, closeRun_of_short hlen,
        mergeEvents_of_separated hs' (by simp) (by simp), List.append_nil]

/-! ## Some of the runs merged -/

/-- A clump of a walk some of whose free runs are merged: a clump `b` of the old one in its state
`σ b`, or the header of a merged run. -/
def Drawn (σ : Clump → State) (cs : List Clump) (f : Clump) : Prop :=
  (∃ b ∈ cs, f = b.set (σ b)) ∨ f.tag = .free ∧ ∃ b ∈ cs, b.addr = f.addr

theorem Drawn.mono {σ : Clump → State} {cs cs' : List Clump} {f : Clump} (h : Drawn σ cs f)
    (hsub : ∀ b ∈ cs, b ∈ cs') : Drawn σ cs' f := by
  rcases h with ⟨b, hb, hf⟩ | ⟨ht, b, hb, hf⟩
  · exact Or.inl ⟨b, hsub b hb, hf⟩
  · exact Or.inr ⟨ht, b, hsub b hb, hf⟩

theorem tiles_set (σ : Clump → State) {a e : ℕ} {cs : List Clump} (h : Tiles 64 a cs e) :
    Tiles 64 a (cs.map fun b => b.set (σ b)) e := by
  induction cs generalizing a with
  | nil => exact h
  | cons c cs ih => exact ⟨h.1, h.2.1, h.2.2.1, ih h.2.2.2⟩

theorem drawn_unmerged (σ : Clump → State) {m : Mem} {a e : ℕ} {cs : List Clump} (ht : Tiles 64 a cs e)
    (h : ∀ b ∈ cs, m b.addr = (b.set (σ b)).word) :
    ∃ cs' : List Clump, Tiles 64 a cs' e ∧ ∀ f ∈ cs', m f.addr = f.word ∧ Drawn σ cs f := by
  refine ⟨_, tiles_set σ ht, fun f hf => ?_⟩
  obtain ⟨b, hb, rfl⟩ := List.mem_map.mp hf
  exact ⟨h b hb, Or.inl ⟨b, hb, rfl⟩⟩

theorem drawn_closeRun (σ : Clump → State) {m : Mem} {a e : ℕ} {run : List Clump} (ht : Tiles 64 a run e)
    (h : ∀ b ∈ run, m b.addr = (b.set (σ b)).word ∨ .store b.addr (m b.addr) ∈ closeRun run) :
    ∃ run' : List Clump, Tiles 64 a run' e ∧ ∀ f ∈ run', m f.addr = f.word ∧ Drawn σ run f := by
  match run with
  | [] => exact drawn_unmerged σ ht (by simp)
  | [c] => exact drawn_unmerged σ ht fun b hb => (h b hb).resolve_right (by simp [closeRun])
  | c :: d :: run =>
    have hstore : ∀ b ∈ c :: d :: run, .store b.addr (m b.addr) ∈ closeRun (c :: d :: run) →
        b = c ∧ m c.addr = (c.size + ((d :: run).map Block.size).sum) ||| State.free.code := by
      intro b hb hs
      simp only [closeRun, headerFlush, List.mem_cons, List.not_mem_nil, or_false, reduceCtorEq,
        Event.store.injEq] at hs
      obtain rfl := ht.eq_of_addr hb List.mem_cons_self hs.1
      exact ⟨rfl, hs.2⟩
    by_cases hm : m c.addr = (c.set (σ c)).word
    · refine drawn_unmerged σ ht fun b hb => ?_
      rcases h b hb with h | h
      · exact h
      · obtain ⟨rfl, -⟩ := hstore b hb h
        exact hm
    · have hw := (hstore c List.mem_cons_self ((h c List.mem_cons_self).resolve_left hm)).2
      have hsum := ht.sum_sizes
      have hdvd : 64 ∣ c.size + ((d :: run).map Block.size).sum := by
        refine Nat.dvd_add (ht.size_dvd List.mem_cons_self) (List.dvd_sum fun n hn => ?_)
        obtain ⟨b, hb, rfl⟩ := List.mem_map.mp hn
        exact ht.size_dvd (List.mem_cons_of_mem _ hb)
      have hpos := ht.size_pos (List.mem_cons_self : c ∈ c :: d :: run)
      refine ⟨[⟨c.addr, c.size + ((d :: run).map Block.size).sum, .free⟩],
        ⟨ht.1, by dsimp only; omega, hdvd, ?_⟩, fun f hf => ?_⟩
      · rw [List.map_cons, List.sum_cons] at hsum
        exact hsum
      · rw [List.mem_singleton.mp hf]
        exact ⟨hw, Or.inr ⟨rfl, c, List.mem_cons_self, rfl⟩⟩

/-- Where some of the stores of the loop have reached memory, in whatever order, the walk is well
formed. -/
theorem drawn_mergeEvents (σ : Clump → State) {m : Mem} {e : ℕ} :
    ∀ {cs run : List Clump} {a : ℕ}, Tiles 64 a (run ++ cs) e →
      (∀ b ∈ run ++ cs, m b.addr = (b.set (σ b)).word ∨ .store b.addr (m b.addr) ∈ mergeEvents run cs) →
      ∃ cs' : List Clump, Tiles 64 a cs' e ∧ ∀ f ∈ cs', m f.addr = f.word ∧ Drawn σ (run ++ cs) f
  | [], run, a, ht, h => by
    rw [List.append_nil] at ht h ⊢
    rw [mergeEvents] at h
    exact drawn_closeRun σ ht h
  | c :: cs, run, a, ht, h => by
    rw [mergeEvents] at h
    split at h
    · rw [List.append_cons] at ht h ⊢
      exact drawn_mergeEvents σ ht h
    · obtain ⟨b, hrun, hrest⟩ := tiles_append.mp ht
      obtain ⟨rfl, hpos, hdvd, hcs⟩ := hrest
      -- each store of the trace belongs to the part its header lies in
      have hleft : ∀ d ∈ run, .store d.addr (m d.addr) ∉ mergeEvents [] cs := by
        intro d hd hs
        obtain ⟨f, hf, hfd⟩ := writes_mergeEvents hs (Event.writes_store _ _ _ |>.mpr rfl)
        have h1 := (hrun.bounds hd).2
        have h2 := hrun.size_pos hd
        have h3 := (hcs.bounds (by simpa using hf)).1
        omega
      have hright : ∀ d ∈ c :: cs, .store d.addr (m d.addr) ∉ closeRun run := by
        intro d hd hs
        obtain ⟨f, hf, hfd⟩ := writes_closeRun hs (Event.writes_store _ _ _ |>.mpr rfl)
        have h1 := (hrun.bounds hf).2
        have h2 := hrun.size_pos hf
        have h3 : c.addr ≤ d.addr := by
          rcases List.mem_cons.mp hd with rfl | hd
          · exact le_refl _
          · have := (hcs.bounds hd).1
            omega
        omega
      obtain ⟨run', ht₁, h₁⟩ := drawn_closeRun σ hrun fun d hd => by
        rcases h d (by simp [hd]) with h | h
        · exact Or.inl h
        · rcases List.mem_append.mp h with h | h
          · exact Or.inr h
          · exact absurd h (hleft d hd)
      have hcs' : Tiles 64 (c.addr + c.size) ([] ++ cs) e := hcs
      obtain ⟨cs', ht₂, h₂⟩ := drawn_mergeEvents σ hcs' fun d hd => by
        rw [List.nil_append] at hd
        rcases h d (by simp [hd]) with h | h
        · exact Or.inl h
        · rcases List.mem_append.mp h with h | h
          · exact absurd h (hright d (List.mem_cons_of_mem _ hd))
          · exact Or.inr h
      have hcw : m c.addr = (c.set (σ c)).word := by
        rcases h c (by simp) with h | h
        · exact h
        · rcases List.mem_append.mp h with h | h
          · exact absurd h (hright c List.mem_cons_self)
          · obtain ⟨f, hf, hfd⟩ := writes_mergeEvents h (Event.writes_store _ _ _ |>.mpr rfl)
            have := (hcs.bounds (by simpa using hf)).1
            omega
      refine ⟨run' ++ c.set (σ c) :: cs', ht₁.append ⟨rfl, hpos, hdvd, ht₂⟩, fun f hf => ?_⟩
      rcases List.mem_append.mp hf with hf | hf
      · exact ⟨(h₁ f hf).1, (h₁ f hf).2.mono (by simp +contextual)⟩
      · rcases List.mem_cons.mp hf with rfl | hf
        · exact ⟨hcw, Or.inl ⟨c, by simp, rfl⟩⟩
        · exact ⟨(h₂ f hf).1, (h₂ f hf).2.mono (by simp +contextual)⟩

end PmemExamples.Pool
