import PmemExamples.Pool.Cursor

/-! # Coalescing and reserving under the cursor

Coalescing extends the stale part when the run it merges reaches over the cursor; everything else of
the search list stays on the walk. A reservation moves the cursor forward, never back, so the clumps
before it are never reserved again. -/

namespace PmemExamples.Pool
open Persist Libpmem Tiling
set_option autoImplicit false

/-! ## The trace of coalescing -/

theorem mergeEvents_append_of_not {c : Clump} (hc : c.tag ≠ .free) (r : List Clump) :
    ∀ run l : List Clump, mergeEvents run (l ++ c :: r) = mergeEvents run l ++ mergeEvents [] r
  | run, [] => by
    simp only [List.nil_append, mergeEvents, if_neg hc]
  | run, b :: l => by
    rw [List.cons_append, mergeEvents, mergeEvents]
    split
    · exact mergeEvents_append_of_not hc r _ l
    · rw [mergeEvents_append_of_not hc r _ l, List.append_assoc]

theorem mergeEvents_free {fs : List Clump} (hfs : ∀ c ∈ fs, c.tag = .free) (run : List Clump) :
    mergeEvents run fs = closeRun (run ++ fs) := by
  induction fs generalizing run with
  | nil => rw [mergeEvents, List.append_nil]
  | cons c fs ih =>
    rw [mergeEvents, if_pos (hfs c List.mem_cons_self),
      ih (fun d hd => hfs d (List.mem_cons_of_mem _ hd)), List.append_assoc, List.singleton_append]

theorem mergeEvents_writes_free {x : ℕ} {ev : Event} : ∀ {cs run : List Clump},
    (∀ c ∈ run, c.tag = .free) → ev ∈ mergeEvents run cs → ev.Writes x →
      ∃ c ∈ run ++ cs, c.tag = .free ∧ c.addr = x
  | [], run, hrun, he, hx => by
    rw [mergeEvents] at he
    obtain ⟨c, hc, h⟩ := writes_closeRun he hx
    exact ⟨c, by simpa using hc, hrun c hc, h⟩
  | c :: cs, run, hrun, he, hx => by
    rw [mergeEvents] at he
    split at he
    · next hf =>
      have hrun' : ∀ b ∈ run ++ [c], b.tag = .free := by
        intro b hb
        rcases List.mem_append.mp hb with hb | hb
        · exact hrun b hb
        · rw [List.mem_singleton.mp hb]; exact hf
      obtain ⟨b, hb, h⟩ := mergeEvents_writes_free hrun' he hx
      exact ⟨b, by simpa using hb, h⟩
    · rcases List.mem_append.mp he with he | he
      · obtain ⟨b, hb, h⟩ := writes_closeRun he hx
        exact ⟨b, by simp [hb], hrun b hb, h⟩
      · obtain ⟨b, hb, h⟩ := mergeEvents_writes_free (by simp) he hx
        exact ⟨b, by simp at hb; simp [hb], h⟩

theorem closeRun_writes_head {run : List Clump} {f : Clump} {x : ℕ} {ev : Event}
    (he : ev ∈ closeRun (f :: run)) (hx : ev.Writes x) : x = f.addr := by
  cases run with
  | nil => simp [closeRun] at he
  | cons c run =>
    simp only [closeRun, headerFlush, List.mem_cons, List.not_mem_nil, or_false] at he
    rcases he with rfl | rfl
    · exact hx.symm
    · exact absurd hx (Event.writes_flush _ _)

theorem mergeEvents_writes_absorb {x : ℕ} {ev : Event} {f : Clump} {fs : List Clump}
    (hf : f.tag = .free) (hfs : ∀ c ∈ fs, c.tag = .free) : ∀ {ks run : List Clump},
      ev ∈ mergeEvents run (ks ++ f :: fs) → ev.Writes x → ∃ c ∈ run ++ (ks ++ [f]), c.addr = x
  | [], run, he, hx => by
    rw [List.nil_append, mergeEvents, if_pos hf, mergeEvents_free hfs] at he
    cases run with
    | nil => exact ⟨f, by simp, (closeRun_writes_head he hx).symm⟩
    | cons c run => exact ⟨c, by simp, (closeRun_writes_head he hx).symm⟩
  | c :: ks, run, he, hx => by
    rw [List.cons_append, mergeEvents] at he
    split at he
    · obtain ⟨b, hb, h⟩ := mergeEvents_writes_absorb hf hfs he hx
      exact ⟨b, by simpa using hb, h⟩
    · rcases List.mem_append.mp he with he | he
      · obtain ⟨b, hb, h⟩ := writes_closeRun he hx
        exact ⟨b, by simp [hb], h⟩
      · obtain ⟨b, hb, h⟩ := mergeEvents_writes_absorb hf hfs he hx
        refine ⟨b, ?_, h⟩
        simp only [List.nil_append, List.mem_append, List.mem_cons] at hb ⊢
        tauto

theorem exists_free_prefix : ∀ us : List Clump, ∃ fs us', us = fs ++ us' ∧ (∀ c ∈ fs, c.tag = .free) ∧
    (us' = [] ∨ ∃ c r, us' = c :: r ∧ c.tag ≠ .free)
  | [] => ⟨[], [], rfl, by simp, Or.inl rfl⟩
  | c :: us => by
    by_cases hc : c.tag = .free
    · obtain ⟨fs, us', rfl, hfs, hus⟩ := exists_free_prefix us
      refine ⟨c :: fs, us', rfl, ?_, hus⟩
      simpa using ⟨hc, hfs⟩
    · exact ⟨[], c :: us, rfl, by simp, Or.inr ⟨c, us, rfl, hc⟩⟩

theorem isFree_of_ne {c : Clump} (h : c.tag ≠ .free) : c.tag.isFree = false := by
  cases hb : c.tag.isFree with
  | false => rfl
  | true => exact absurd (State.isFree_iff.mp hb) h

/-- At a clump that is not free, or at the end, coalescing the two sides is coalescing the whole. -/
theorem merge_split {l us' : List Clump} (h : us' = [] ∨ ∃ c r, us' = c :: r ∧ c.tag ≠ .free) :
    mergeEvents [] (l ++ us') = mergeEvents [] l ++ mergeEvents [] us' ∧
    mergeRuns State.isFree (l ++ us') = mergeRuns State.isFree l ++ mergeRuns State.isFree us' := by
  rcases h with rfl | ⟨c, r, rfl, hc⟩
  · simp [mergeEvents, closeRun]
  · have hnil : mergeEvents [] (c :: r) = mergeEvents [] r := by
      rw [mergeEvents, if_neg hc]
      rfl
    rw [mergeEvents_append_of_not hc, hnil, mergeRuns_append_of_not (isFree_of_ne hc),
      mergeRuns_cons_of_not (isFree_of_ne hc)]
    exact ⟨rfl, rfl⟩

theorem Chain.merge {d : Mem} {a e : ℕ} {cs : List Clump} (h : Chain d a cs e) :
    Chain (applyAll (mergeEvents [] cs) d) a (mergeRuns State.isFree cs) e := by
  have h₀ : Chain d a ([] ++ [] ++ cs) e := h
  obtain ⟨cs', hc, -, -, hfull⟩ := mergeEvents_chain h₀ (by simp) (mergeEvents [] cs).length
  rw [List.take_length, hfull (le_refl _)] at hc
  exact hc

namespace Heap
variable {d : Mem} {e g : ℕ} {ls ts us hs : List Clump}

theorem coalesce_of_parts (h : Heap d e g ls ts us hs) {ls' ts' us' : List Clump}
    (hmerge : ls' ++ us' = mergeRuns State.isFree (ls ++ us))
    (hsearch : Chain (applyAll (mergeEvents [] (ls ++ us)) d) g (ts' ++ us') e)
    (hne : ts' ++ us' ≠ []) (hgap : ts' = [] ∨ ∃ ks f, ls' = ks ++ [f] ∧ f.tag = .free ∧ f.addr + 64 ≤ g)
    (hts : ∀ c ∈ ts, c ∈ ts') (hcover : ∀ f ∈ ls, f.tag = .free → ∃ f' ∈ ls', f'.tag = .free ∧
      f'.addr ≤ f.addr ∧ f.addr + f.size ≤ f'.addr + f'.size) :
    Heap (applyAll (mergeEvents [] (ls ++ us)) d) e g ls' ts' us' hs := by
  have hwalk : Chain (applyAll (mergeEvents [] (ls ++ us)) d) pmemClumpOffset (ls' ++ us') e := by
    rw [hmerge]
    exact h.walk.merge
  refine ⟨hwalk, hsearch, hne, hgap, fun c hc => ?_, fun b hb => ?_, fun b hb => ?_, h.apart⟩
  · rw [hmerge] at hc
    obtain ⟨b, hb, -, hbt⟩ := exists_of_mem_mergeRuns hc
    rw [← hbt]
    exact h.states b hb
  · obtain ⟨h1, h2, h3⟩ := h.held b hb
    refine ⟨h1, ?_, h3⟩
    rw [applyAll_of_not_writes, h2]
    intro ev hev hw
    obtain ⟨c, hc, hcf, hca⟩ := mergeEvents_writes_free (by simp) hev hw
    exact h.free_addr_ne hb hc hcf hca
  · rcases h.place b hb with hw | ht | ⟨h1, f, hf, hft, h2, h3⟩
    · left
      rw [hmerge]
      exact (mem_mergeRuns_of_not (isFree_of_ne (h.held b hb).1.ne_free)).mpr hw
    · exact Or.inr (Or.inl (hts b ht))
    · obtain ⟨f', hf', hft', h4, h5⟩ := hcover f hf hft
      exact Or.inr (Or.inr ⟨h1, f', hf', hft', by omega, by omega⟩)

/-- The clump before `us` is free: the run it is in swallows the free clumps at the head of `us`. -/
theorem coalesce_absorb {ks : List Clump} {f : Clump} (h : Heap d e g (ks ++ [f]) ts us hs)
    (hf : f.tag = .free) : ∃ ls' ts' us', ls' ++ us' = mergeRuns State.isFree (ks ++ [f] ++ us) ∧
      Heap (applyAll (mergeEvents [] (ks ++ [f] ++ us)) d) e g ls' ts' us' hs := by
  obtain ⟨m, hl, ht, hu⟩ := h.mid
  obtain ⟨fs, us₂, rfl, hfs, hus₂⟩ := exists_free_prefix us
  obtain ⟨m₂, hfsT, hus₂T⟩ := tiles_append.mp hu
  have hlist : ks ++ [f] ++ (fs ++ us₂) = (ks ++ f :: fs) ++ us₂ := by simp
  obtain ⟨hev, hruns⟩ := merge_split (l := ks ++ f :: fs) hus₂
  have hrunT : Tiles 64 pmemClumpOffset (ks ++ f :: fs) m₂ := by
    have := hl.append hfsT
    simpa using this
  obtain ⟨-, hfpos, -, hfend⟩ := hl.split
  have hfm : f.addr + f.size = m := tiles_nil.mp hfend
  have hfsz : 64 ≤ f.size := h.walk.size_ge (by simp)
  have hfg : f.addr + 64 ≤ g := by
    rcases h.gap with rfl | ⟨ks', f', hks, -, hfg⟩
    · have := tiles_nil.mp ht
      omega
    · obtain ⟨-, hff⟩ := List.append_inj' hks rfl
      obtain rfl : f = f' := by simpa using hff
      exact hfg
  have hfree : ∀ c ∈ fs, c.tag.isFree = true := fun c hc => State.isFree_iff.mpr (hfs c hc)
  obtain ⟨ls', f', hls', hft', hfa, -⟩ := mergeRuns_ends (p := State.isFree) (State.isFree_iff.mpr hf)
    hfree hrunT
  -- the size words of `ts` and `fs` are not stored to
  have hkeep : ∀ c ∈ ts ++ fs, applyAll (mergeEvents [] (ks ++ [f] ++ (fs ++ us₂))) d c.addr = d c.addr := by
    intro c hc
    refine applyAll_of_not_writes (fun ev hm hw => ?_) _
    have hbound : ∃ b, (b ∈ ks ++ [f] ∨ b ∈ us₂) ∧ b.addr = c.addr := by
      rcases List.mem_append.mp hc with hc | hc
      · exfalso
        obtain ⟨f₀, hf₀, -, -, h1, h2⟩ := h.stale hc
        obtain ⟨b, hb, hba⟩ := writes_mergeEvents hm hw
        rw [List.nil_append] at hb
        have hbs := h.walk.size_pos hb
        have hcs := ht.size_pos hc
        obtain rfl := h.walk.tiles.eq_of_mem_overlap hb (List.mem_append_left _ hf₀) (x := c.addr)
          ⟨by omega, by omega⟩ ⟨by omega, by omega⟩
        omega
      · rw [hlist, hev, List.mem_append] at hm
        rcases hm with hm | hm
        · obtain ⟨b, hb, hba⟩ := mergeEvents_writes_absorb hf hfs hm hw
          exact ⟨b, Or.inl (by simpa using hb), hba⟩
        · obtain ⟨b, hb, hba⟩ := writes_mergeEvents hm hw
          exact ⟨b, Or.inr (by simpa using hb), hba⟩
    obtain ⟨b, hb, hba⟩ := hbound
    have hcm : m ≤ c.addr → c.addr + c.size ≤ m₂ → 0 < c.size → False := by
      intro h1 h2 h3
      rcases hb with hb | hb
      · have := hl.bounds hb
        have := hl.size_pos hb
        omega
      · have := (hus₂T.bounds hb).1
        omega
    rcases List.mem_append.mp hc with hc | hc
    · obtain ⟨f₀, hf₀, -, -, h1, h2⟩ := h.stale hc
      have hcs := ht.size_pos hc
      rcases hb with hb | hb
      · have hbs := hl.size_pos hb
        obtain rfl := hl.eq_of_mem_overlap hb hf₀ (x := c.addr) ⟨by omega, by omega⟩ ⟨by omega, by omega⟩
        omega
      · have := (hus₂T.bounds hb).1
        have := (ht.bounds hc).2
        have := hfsT.le
        omega
    · have := hfsT.bounds hc
      exact hcm this.1 this.2 (hfsT.size_pos hc)
  have hmerge : mergeRuns State.isFree (ks ++ f :: fs) ++ mergeRuns State.isFree us₂ =
      mergeRuns State.isFree (ks ++ [f] ++ (fs ++ us₂)) := by
    rw [hlist, hruns]
  refine ⟨_, ts ++ fs, _, hmerge, h.coalesce_of_parts hmerge ?_ ?_ (Or.inr ⟨ls', f', hls',
    State.isFree_iff.mp hft', by omega⟩) (fun c hc => List.mem_append_left _ hc) fun f₀ hf₀ hf₀t => ?_⟩
  · have hc := h.walk.merge
    rw [← hmerge] at hc
    obtain ⟨b, hbT, -, hbc⟩ := Chain.append_iff.mp hc
    have h1 := hbT.sum_sizes
    have h2 := (mergeRuns_tiles (p := State.isFree) hrunT).sum_sizes
    obtain rfl : b = m₂ := by omega
    refine Chain.append_iff.mpr ⟨b, ht.append hfsT, fun c hc => ?_, hbc⟩
    rw [hkeep c hc]
    refine h.search.word ?_
    simp only [List.mem_append] at hc ⊢
    tauto
  · intro hnil
    refine h.nonempty ?_
    rw [List.append_assoc, List.append_eq_nil_iff, List.append_eq_nil_iff, mergeRuns_eq_nil] at hnil
    rw [hnil.1, hnil.2.1, hnil.2.2]
    rfl
  · obtain ⟨f₁, hf₁, hf₁t, h1, h2⟩ := exists_mergeRuns_cover (p := State.isFree) hrunT (b := f₀) (by
      simp only [List.mem_append, List.mem_cons, List.not_mem_nil, or_false] at hf₀ ⊢
      tauto)
    refine ⟨f₁, hf₁, ?_, h1, h2⟩
    rw [hf₀t] at hf₁t
    exact State.isFree_iff.mp hf₁t

theorem coalesce (h : Heap d e g ls ts us hs) : ∃ ls' ts' us',
    ls' ++ us' = mergeRuns State.isFree (ls ++ us) ∧
      Heap (applyAll (mergeEvents [] (ls ++ us)) d) e g ls' ts' us' hs := by
  by_cases hlast : ∃ ks f, ls = ks ++ [f] ∧ f.tag = .free
  · obtain ⟨ks, f, rfl, hf⟩ := hlast
    exact h.coalesce_absorb hf
  · -- nothing is merged across the cursor
    obtain rfl : ts = [] := by
      rcases h.gap with hts | ⟨ks, f, hls, hf, -⟩
      · exact hts
      · exact absurd ⟨ks, f, hls, hf⟩ hlast
    obtain ⟨m, hl, ht, -⟩ := h.mid
    obtain rfl : g = m := tiles_nil.mp ht
    have hruns : mergeRuns State.isFree ls ++ mergeRuns State.isFree us =
        mergeRuns State.isFree (ls ++ us) := by
      rcases List.eq_nil_or_concat ls with rfl | ⟨ks, c, rfl⟩
      · rfl
      · rw [List.concat_eq_append] at hlast ⊢
        have hc : c.tag ≠ .free := fun hc => hlast ⟨ks, c, rfl, hc⟩
        rw [mergeRuns_append_of_not (isFree_of_ne hc), List.append_assoc, List.append_assoc,
          List.singleton_append, mergeRuns_append_of_not (isFree_of_ne hc)]
        rfl
    refine ⟨_, [], _, hruns, h.coalesce_of_parts hruns ?_ ?_ (Or.inl rfl) (fun c hc => hc)
      fun f hf hft => ?_⟩
    · have hc := h.walk.merge
      rw [← hruns] at hc
      obtain ⟨b, hbT, -, hbc⟩ := Chain.append_iff.mp hc
      have h1 := hbT.sum_sizes
      have h2 := (mergeRuns_tiles (p := State.isFree) hl).sum_sizes
      obtain rfl : b = g := by omega
      exact hbc
    · rw [List.nil_append, Ne, mergeRuns_eq_nil]
      exact h.nonempty
    · obtain ⟨f₁, hf₁, hf₁t, h1, h2⟩ := exists_mergeRuns_cover (p := State.isFree) hl hf
      refine ⟨f₁, hf₁, ?_, h1, h2⟩
      rw [hft] at hf₁t
      exact State.isFree_iff.mp hf₁t

/-! ## Reserving -/

variable {b c : Clump} {n : ℕ} {l r : List Clump}

theorem search_apart (h : Heap d e g ls ts us hs) (hc : c ∈ ts ++ us) (hf : c.tag = .free)
    (hb : b ∈ hs) : b.addr + b.size ≤ c.addr ∨ c.addr + c.size ≤ b.addr := by
  obtain ⟨m, -, ht, hu⟩ := h.mid
  have hbf := (h.held b hb).1.ne_free
  have hne : ∀ c' : Clump, c'.tag = .free → b ≠ c' := by
    rintro c' hc' rfl
    exact hbf hc'
  rcases h.place b hb with hw | hbt | ⟨h1, -⟩
  · rcases List.mem_append.mp hc with hc | hc
    · obtain ⟨f, hfm, hft, -, h1, h2⟩ := h.stale hc
      rcases h.walk.tiles.disjoint hw (List.mem_append_left _ hfm) (hne f hft) with h3 | h3 <;> omega
    · exact h.walk.tiles.disjoint hw (List.mem_append_right _ hc) (hne c hf)
  · rcases List.mem_append.mp hc with hc | hc
    · exact ht.disjoint hbt hc (hne c hf)
    · have := (ht.bounds hbt).2
      have := (hu.bounds hc).1
      omega
  · have := (h.search.tiles.bounds hc).1
    omega

/-- A stale clump is in the payload of a free clump that starts before the cursor; the walk has no
header in it. -/
theorem walk_apart_stale (h : Heap d e g ls ts us hs) (hc : c ∈ ts) (hb : b ∈ ls ++ us) :
    ¬ (c.addr ≤ b.addr ∧ b.addr < c.addr + c.size) := by
  rintro ⟨h1, h2⟩
  obtain ⟨f, hf, -, -, h3, h4⟩ := h.stale hc
  have hbs := h.walk.size_pos hb
  obtain rfl := h.walk.tiles.eq_of_mem_overlap hb (List.mem_append_left _ hf) (x := b.addr)
    ⟨le_refl _, by omega⟩ ⟨by omega, by omega⟩
  omega

/-- What a reservation in the clump `c` of the search list keeps of the held blocks. -/
theorem reserve_held (h : Heap d e g ls ts us hs) (hc : c ∈ ts ++ us) (hfit : c.Fits n)
    (hb : b ∈ hs) (k : ℕ) :
    applyAll ((reserveEvents c n).take k) d b.addr = d b.addr := by
  refine applyAll_of_not_writes (fun ev hev hw => ?_) _
  obtain ⟨h1, h2⟩ := reserveEvents_within (h.search.size_ge hc) (List.mem_of_mem_take hev) hw
  have := (h.held b hb).2.2.1
  rcases h.search_apart hc hfit.1 hb with h3 | h3 <;> omega

/-- A reservation in a stale clump leaves the walk as it is, at every moment. -/
theorem reserve_stale_walk (h : Heap d e g ls ts us hs) (hc : c ∈ ts) (k : ℕ) :
    Chain (applyAll ((reserveEvents c n).take k) d) pmemClumpOffset (ls ++ us) e := by
  have hsz := h.search.size_ge (List.mem_append_left us hc)
  refine h.walk.applyAll_of_not_writes (fun b hb ev hev hw => ?_) fun ev hev hw => ?_
  · exact h.walk_apart_stale hc hb (reserveEvents_within hsz (List.mem_of_mem_take hev) hw)
  · obtain ⟨h1, h2⟩ := reserveEvents_within hsz (List.mem_of_mem_take hev) hw
    have := (h.search.tiles.bounds (List.mem_append_left us hc)).2
    omega

theorem reserved_apart (h : Heap d e g ls ts us hs) (hc : c ∈ ts ++ us) (hf : c.tag = .free)
    {x : Clump} (hxa : x.addr = c.addr) (hxs : x.size ≤ c.size) :
    ∀ b ∈ x :: hs, ∀ b' ∈ x :: hs, b ≠ b' →
      b.addr + b.size ≤ b'.addr ∨ b'.addr + b'.size ≤ b.addr := by
  have hone : ∀ b ∈ hs, b.addr + b.size ≤ x.addr ∨ x.addr + x.size ≤ b.addr := by
    intro b hb
    rcases h.search_apart hc hf hb with h1 | h1 <;> omega
  intro b hb b' hb' hne
  rcases List.mem_cons.mp hb with rfl | hbs <;> rcases List.mem_cons.mp hb' with rfl | hbs'
  · exact absurd rfl hne
  · exact (hone b' hbs').symm
  · exact hone b hbs
  · exact h.apart b hbs b' hbs' hne

theorem reserve_walk (h : Heap d e g ls ts (l ++ c :: r) hs) (hfit : c.Fits n) (hn : 0 < n)
    (hdvd : 64 ∣ n) : ∃ us' sz, n ≤ sz ∧ us' = reservedAs c n ++ r ∧
      (⟨c.addr, sz, .reserved⟩ : Clump) ∈ us' ∧
      Heap (applyAll (reserveEvents c n) d) e c.addr (ls ++ l) [] us' (⟨c.addr, sz, .reserved⟩ :: hs) := by
  obtain ⟨m, hl, ht, hu⟩ := h.mid
  have hcm : c ∈ ts ++ (l ++ c :: r) := by simp
  have hwalk := h.walk
  rw [← List.append_assoc] at hwalk
  have hchain := reserveEvents_chain hwalk hn hdvd hfit.2
  rw [List.append_assoc] at hchain
  obtain ⟨sz, r₀, hparts, hle, hsz, hfree⟩ := reservedAs_eq c hfit.2
  have hmem : (⟨c.addr, sz, .reserved⟩ : Clump) ∈ (ls ++ l) ++ (reservedAs c n ++ r) := by
    rw [hparts]; simp
  have hcl : Tiles 64 pmemClumpOffset (ls ++ l) c.addr := hwalk.tiles.split.1
  have hml : m ≤ c.addr := (hu.bounds (by simp : c ∈ l ++ c :: r)).1
  have hgm := ht.le
  refine ⟨reservedAs c n ++ r, sz, hle, rfl, by rw [hparts]; simp, hchain, ?_, by rw [hparts]; simp,
    Or.inl rfl, fun b hb => ?_, fun b hb => ?_, fun b hb => ?_,
    h.reserved_apart hcm hfit.1 rfl hsz⟩
  · obtain ⟨a, ha, -, hrest⟩ := Chain.append_iff.mp hchain
    have h1 := ha.sum_sizes
    have h2 := hcl.sum_sizes
    obtain rfl : a = c.addr := by omega
    exact hrest
  · rw [hparts] at hb
    simp only [List.mem_append, List.mem_cons] at hb
    rcases hb with (hb | hb) | (rfl | hb) | hb
    · exact h.states b (by simp [hb])
    · exact h.states b (by simp [hb])
    · exact Or.inr (Or.inl rfl)
    · exact Or.inl (hfree b hb)
    · exact h.states b (by simp [hb])
  · rcases List.mem_cons.mp hb with rfl | hb
    · exact ⟨Or.inl rfl, hchain.word hmem, hchain.size_ge hmem, hchain.size_dvd hmem⟩
    · obtain ⟨h1, h2, h3⟩ := h.held b hb
      have hk := h.reserve_held hcm hfit hb (reserveEvents c n).length
      rw [List.take_length] at hk
      exact ⟨h1, hk.trans h2, h3⟩
  · rcases List.mem_cons.mp hb with rfl | hbs
    · left
      rw [hparts]
      simp
    · have hbc : b ≠ c := fun heq => (h.held b hbs).1.ne_free (heq ▸ hfit.1)
      rcases h.place b hbs with hw | hbt | ⟨h1, f, hf, hft, h2⟩
      · left
        simp only [List.mem_append, List.mem_cons] at hw ⊢
        tauto
      · obtain ⟨f, hf, hft, -, h1, h2⟩ := h.stale hbt
        have := (ht.bounds hbt).2
        exact Or.inr (Or.inr ⟨by omega, f, List.mem_append_left _ hf, hft, h1, h2⟩)
      · exact Or.inr (Or.inr ⟨by omega, f, List.mem_append_left _ hf, hft, h2⟩)

theorem reserve_stale (h : Heap d e g ls (l ++ c :: r) us hs) (hfit : c.Fits n) (hn : 0 < n)
    (hdvd : 64 ∣ n) : ∃ ts' sz, n ≤ sz ∧
      Heap (applyAll (reserveEvents c n) d) e c.addr ls ts' us (⟨c.addr, sz, .reserved⟩ :: hs) := by
  obtain ⟨m, hl, ht, hu⟩ := h.mid
  have hct : c ∈ l ++ c :: r := by simp
  have hcm : c ∈ (l ++ c :: r) ++ us := by simp
  have hsearch := h.search
  rw [List.append_assoc, List.cons_append] at hsearch
  have hchain := reserveEvents_chain hsearch hn hdvd hfit.2
  obtain ⟨sz, r₀, hparts, hle, hsz, hfree⟩ := reservedAs_eq c hfit.2
  have hmem : (⟨c.addr, sz, .reserved⟩ : Clump) ∈ l ++ reservedAs c n ++ (r ++ us) := by
    rw [hparts]; simp
  have hcl : Tiles 64 g l c.addr := hsearch.tiles.split.1
  have hgc := hcl.le
  obtain ⟨f, hf, hft, hfg, hfc, hfe⟩ := h.stale hct
  have hwalk := h.reserve_stale_walk (n := n) hct (reserveEvents c n).length
  rw [List.take_length] at hwalk
  have hrest : Chain (applyAll (reserveEvents c n) d) c.addr (reservedAs c n ++ (r ++ us)) e := by
    rw [List.append_assoc] at hchain
    obtain ⟨a, ha, -, hrest⟩ := Chain.append_iff.mp hchain
    have h1 := ha.sum_sizes
    have h2 := hcl.sum_sizes
    obtain rfl : a = c.addr := by omega
    exact hrest
  have hgap : ∃ ks f, ls = ks ++ [f] ∧ f.tag = .free ∧ f.addr + 64 ≤ c.addr := by
    rcases h.gap with hnil | ⟨ks, f', hls, hf't, hf'g⟩
    · simp at hnil
    · exact ⟨ks, f', hls, hf't, by omega⟩
  refine ⟨reservedAs c n ++ r, sz, hle, hwalk, by rw [List.append_assoc]; exact hrest,
    by rw [hparts]; simp, Or.inr hgap, h.states, fun b hb => ?_, fun b hb => ?_,
    h.reserved_apart hcm hfit.1 rfl hsz⟩
  · rcases List.mem_cons.mp hb with rfl | hb
    · exact ⟨Or.inl rfl, hchain.word hmem, hchain.size_ge hmem, hchain.size_dvd hmem⟩
    · obtain ⟨h1, h2, h3⟩ := h.held b hb
      have hk := h.reserve_held hcm hfit hb (reserveEvents c n).length
      rw [List.take_length] at hk
      exact ⟨h1, hk.trans h2, h3⟩
  · rcases List.mem_cons.mp hb with rfl | hbs
    · right; left
      rw [hparts]
      simp
    · have hbc : b ≠ c := fun heq => (h.held b hbs).1.ne_free (heq ▸ hfit.1)
      rcases h.place b hbs with hw | hbt | ⟨h1, hf₀⟩
      · exact Or.inl hw
      · -- a block between the old cursor and the new one is left behind
        simp only [List.mem_append, List.mem_cons] at hbt
        rcases hbt with hbt | hbt | hbt
        · obtain ⟨f₁, hf₁, hf₁t, -, h2, h3⟩ := h.stale (List.mem_append_left _ hbt)
          exact Or.inr (Or.inr ⟨(hcl.bounds hbt).2, f₁, hf₁, hf₁t, h2, h3⟩)
        · exact absurd hbt hbc
        · exact Or.inr (Or.inl (List.mem_append_right _ hbt))
      · exact Or.inr (Or.inr ⟨by omega, hf₀⟩)

end Heap

end PmemExamples.Pool
