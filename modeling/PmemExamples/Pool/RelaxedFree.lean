import PmemExamples.Pool.Relaxed

/-! # Freeing in the relaxed build

The on-list is cleared under a flush that is always executed, the destinations are stored to under
flushes that may be dropped. So a crash can leave the clump free and a destination as it was
(`Freeing.free_lost`), unless the destination's line is flushed by some executed persist or the word
held the value before (`Unlinks`). -/

namespace PmemExamples.Pool
open Persist Libpmem Tiling
set_option autoImplicit false

/-- Register assignments with `pmemalloc_onfree`, then free. -/
def unlinkFree (pmp ptr_ : ℕ) : List (ℕ × ℕ) → Prog Unit
  | [] => pmemallocFree pmp ptr_
  | s :: ss => do
    pmemallocOnfree pmp ptr_ (pmem pmp s.1) s.2
    unlinkFree pmp ptr_ ss

/-- After `pmemalloc_recover` of the file, if the clump is free every destination has its value. -/
def FreedUnlinked (e : ℕ) (c : Clump) (ss : List (ℕ × ℕ)) (d : Mem) : Prop :=
  ∀ (p : ℕ) (m : Mem) (relaxed : Bool) (epoch : ℕ → Bool), Mapped p e → fileAt p m = d →
    ∃ w cs, pmemallocRecover p (World.boot m relaxed epoch) = (.ok (), w) ∧
      Chain (fileAt p w.mem) pmemClumpOffset cs e ∧
      ((∃ f ∈ cs, f.tag = .free ∧ f.addr ≤ c.addr ∧ c.addr + c.size ≤ f.addr + f.size) →
        ∀ s ∈ ss, fileAt p w.mem s.1 = s.2)

/-- What makes the destination of `z` survive: an executed flush of its line at its own persist or at
a later one; the value was there and an earlier persist flushed the line; or the value was there in
every image a crash before could leave. -/
def Unlinks (w : World) (p : ℕ) (zl : List ((ℕ × ℕ) × Bool)) (z : (ℕ × ℕ) × Bool)
    (zr : List ((ℕ × ℕ) × Bool)) : Prop :=
  (∃ y ∈ z :: zr, y.2 = true ∧ lineOf y.1.1 = lineOf z.1.1) ∨
  (fileAt p w.mem z.1.1 = z.1.2 ∧ ∃ y ∈ zl, y.2 = true ∧ lineOf y.1.1 = lineOf z.1.1) ∨
  ∀ m₀, CrashImage w.base w.trace m₀ → fileAt p m₀ z.1.1 = z.1.2

/-! ## Recovery -/

section Recover
variable {d : Mem} {e : ℕ} {cs : List Clump}

theorem recover_ends {p : ℕ} {m : Mem} (hp : Mapped p e) (hd : fileAt p m = d)
    (hc : Chain d pmemClumpOffset cs e) (hpl : Placed d 0 cs e) (hw : Within d cs e)
    (relaxed : Bool) (epoch : ℕ → Bool) :
    ∃ w, pmemallocRecover p (World.boot m relaxed epoch) = (.ok (), w) ∧
      Chain (fileAt p w.mem) pmemClumpOffset (cs.map Clump.settle) e ∧
      ∀ x, (∀ c ∈ cs, ¬ c.InHeader x) → fileAt p w.mem x = outcome d 0 cs x := by
  subst hd
  have hruns := recover_runs_at true hp hc hpl hw
  obtain ⟨w, -, hrun, -⟩ := hruns (World.boot m relaxed epoch) rfl
  have hmem := (hruns.mem_eq (rfl : (World.boot m relaxed epoch).mem = m)).2
  rw [hrun] at hmem
  have hfile : fileAt p w.mem = applyAll (cs.flatMap (recoverEvents (fileAt p m) 0)) (fileAt p m) := by
    rw [hmem, fileAt_applyAll]
  obtain ⟨cs', hso, hfull⟩ := recoverPass_cut (l := []) hc hpl (by simp)
    (cs.flatMap (recoverEvents (fileAt p m) 0)).length
  rw [List.take_length, ← hfile, hfull (le_refl _)] at hso
  refine ⟨w, hrun, hso.chain, fun x hx => ?_⟩
  rw [hfile, recoverPass_words _ hx, outcome]

/-- A walk on which the clump is still active, or on which every destination has its value or is
pending. -/
theorem freedUnlinked_of_walk {c : Clump} {ss : List (ℕ × ℕ)} (hc : Chain d pmemClumpOffset cs e)
    (hpend : ∀ t ∈ pendings d 0 cs, t ∈ ss) (hd : (ss.map Prod.fst).Nodup)
    (hout : ∀ s ∈ ss, Outside cs e s.1)
    (h : c ∈ cs ∧ c.tag = .active ∨ ∀ s ∈ ss, d s.1 = s.2 ∨ s ∈ pendings d 0 cs) :
    FreedUnlinked e c ss d := by
  intro p m relaxed epoch hp hm
  have hpl : Placed d 0 cs e := by
    intro b hb t ht
    have hts := hout t (hpend t (List.mem_flatMap.mpr ⟨b, hb, ht⟩))
    exact ⟨ne_of_lt hts.lt, hts.headers⟩
  obtain ⟨w, hrun, hchain, hwords⟩ :=
    recover_ends hp hm hc hpl (fun t ht => (hout t (hpend t ht)).lt) relaxed epoch
  refine ⟨w, _, hrun, hchain, fun ⟨f, hf, hft, h1, h2⟩ s hs => ?_⟩
  rcases h with ⟨hcm, hact⟩ | h
  · -- a free clump does not overlap an active one
    have hcm' : c ∈ cs.map Clump.settle :=
      List.mem_map.mpr ⟨c, hcm, Clump.settle_of_active hact⟩
    have hsz := hc.size_pos hcm
    obtain rfl := hchain.tiles.eq_of_mem_overlap hf hcm' ⟨h1, by omega⟩ ⟨le_refl _, by omega⟩
    rw [hact] at hft
    cases hft
  · rw [hwords _ (hout s hs).headers, outcome]
    have hval : ∀ v, .store s.1 v ∈ execEvents (pendings d 0 cs) → v = s.2 := by
      intro v hv
      rw [← mem_storesOf, storesOf_execEvents] at hv
      exact congrArg Prod.snd (List.inj_on_of_nodup_map hd (hpend _ hv) hs rfl)
    rcases h s hs with h | h
    · rcases applyAll_eq_or_store (execEvents (pendings d 0 cs)) d s.1 with h' | h'
      · rw [h', h]
      · exact hval _ h'
    · refine applyAll_of_store ?_ hval d
      rw [← mem_storesOf, storesOf_execEvents]
      exact h

end Recover

/-! ## The stores and flushes of the trace -/

theorem store_mem_destEvents {zs : List ((ℕ × ℕ) × Bool)} {x v : ℕ} :
    .store x v ∈ destEvents zs ↔ (x, v) ∈ zs.map Prod.fst := by
  induction zs with
  | nil => simp [destEvents]
  | cons z zs ih =>
    have hno : .store x v ∉ maybeFlush z.2 (clLines z.1.1 sizeofPtr) :=
      fun h => not_writes_maybeFlush h rfl
    rw [destEvents_cons, List.mem_cons, List.mem_append, ih, List.map_cons, List.mem_cons, Prod.ext_iff]
    simp [hno]

theorem store_mem_commitTrace {c : Clump} {b : Bool} {zs : List ((ℕ × ℕ) × Bool)} {x v : ℕ}
    (h : .store x v ∈ commitTrace c b zs) : (x = c.addr ∧ v = (c.set .freeing).word) ∨
      (x, v) ∈ zs.map Prod.fst ∨ ∃ i < 3, x = onOff c.addr i ∧ v = 0 := by
  have hno : .store x v ∉ maybeFlush b (clLines c.addr sizeofClump) :=
    fun h => not_writes_maybeFlush h rfl
  rw [commitTrace, List.mem_cons, List.mem_append, List.mem_append, store_mem_destEvents] at h
  rcases h with h | h | h | h
  · exact Or.inl ⟨(Event.store.inj h).1, (Event.store.inj h).2⟩
  · exact absurd h hno
  · exact Or.inr (Or.inl h)
  · right; right
    simp only [clearEvents, headerFlush, List.mem_cons, List.not_mem_nil, or_false, reduceCtorEq,
      Event.store.injEq] at h
    rcases h with ⟨rfl, rfl⟩ | ⟨rfl, rfl⟩ | ⟨rfl, rfl⟩ <;> exact ⟨_, by omega, rfl, rfl⟩

theorem flushes_clLines_word {x ℓ : ℕ} (h : 8 ∣ x) :
    (Event.flush (clLines x sizeofPtr)).Flushes ℓ ↔ lineOf x = ℓ := by
  rw [Event.flushes_flush, mem_clLines, lineOf, sizeofPtr]
  omega

theorem flush_mem_destEvents {zs : List ((ℕ × ℕ) × Bool)} {y : (ℕ × ℕ) × Bool} (hy : y ∈ zs)
    (hb : y.2 = true) : .flush (clLines y.1.1 sizeofPtr) ∈ destEvents zs := by
  obtain ⟨l, r, rfl⟩ := List.append_of_mem hy
  rw [destEvents_append, destEvents_cons, hb]
  simp [maybeFlush]

theorem flushes_destEvents {zs : List ((ℕ × ℕ) × Bool)} (h8 : ∀ z ∈ zs, 8 ∣ z.1.1) {ev : Event} {ℓ : ℕ}
    (he : ev ∈ destEvents zs) (hf : ev.Flushes ℓ) : ∃ y ∈ zs, y.2 = true ∧ lineOf y.1.1 = ℓ := by
  obtain ⟨z, hz, he⟩ := List.mem_flatMap.mp he
  rcases List.mem_cons.mp he with rfl | he
  · exact absurd hf (Event.flushes_store _ _ _)
  · unfold maybeFlush at he
    split at he
    · next hb =>
      rw [List.mem_singleton] at he
      subst he
      exact ⟨z, hz, hb, (flushes_clLines_word (h8 z hz)).mp hf⟩
    · simp at he

/-! ## A crash in the freeing -/

/-- A process of the relaxed build with an active clump whose on-list is `ss`. -/
structure Freeing (w : World) (p : ℕ) (l : List Clump) (c : Clump) (r : List Clump) (e : ℕ)
    (ss : List (ℕ × ℕ)) : Prop where
  relaxed : w.relaxed = true
  quiescent : Quiescent w p (l ++ c :: r) e
  tag : c.tag = .active
  entries : registered (fileAt p w.mem) c = ss
  outside : ∀ s ∈ ss, Outside (l ++ c :: r) e s.1
  aligned : ∀ s ∈ ss, 8 ∣ s.1
  distinct : (ss.map Prod.fst).Nodup

namespace Freeing
variable {w : World} {p e : ℕ} {l r : List Clump} {c : Clump} {ss : List (ℕ × ℕ)}
  {zs : List ((ℕ × ℕ) × Bool)} {b : Bool} {img : Mem} {evs rest : List Event}

theorem mem (_h : Freeing w p l c r e ss) : c ∈ l ++ c :: r := by simp

/-- What the freeing stores: the two commits, the assignments, zeros in the on-list, merged sizes. -/
def Issued (l : List Clump) (c : Clump) (r : List Clump) (ss : List (ℕ × ℕ)) (x v : ℕ) : Prop :=
  (x = c.addr ∧ v = (c.set .freeing).word) ∨ (x, v) ∈ ss ∨ (∃ i < 3, x = onOff c.addr i ∧ v = 0) ∨
    (x = c.addr ∧ v = (c.set .free).word) ∨ .store x v ∈ mergeEvents [] (l ++ c.set .free :: r)

theorem issued_of_commitTrace (hz : zs.map Prod.fst = ss) {x v : ℕ}
    (h : .store (p + x) v ∈ relocate p (commitTrace c b zs)) : Issued l c r ss x v := by
  obtain ⟨o, ho, h⟩ := mem_relocate_store.mp h
  obtain rfl : x = o := by omega
  rcases store_mem_commitTrace h with h | h | h
  · exact Or.inl h
  · exact Or.inr (Or.inl (hz ▸ h))
  · exact Or.inr (Or.inr (Or.inl h))

theorem issued_of_mem (hz : zs.map Prod.fst = ss) (hrest : storesOf rest = (p + c.addr, (c.set .free).word) ::
    storesOf (relocate p (mergeEvents [] (l ++ c.set .free :: r)))) {x v : ℕ}
    (h : .store (p + x) v ∈ relocate p (commitTrace c b zs) ++ rest) : Issued l c r ss x v := by
  rcases List.mem_append.mp h with h | h
  · exact issued_of_commitTrace hz h
  · rw [← mem_storesOf, hrest, List.mem_cons, mem_storesOf] at h
    rcases h with h | h
    · obtain ⟨h1, h2⟩ := Prod.ext_iff.mp h
      simp only at h1 h2
      exact Or.inr (Or.inr (Or.inr (Or.inl ⟨by omega, h2⟩)))
    · obtain ⟨o, ho, h⟩ := mem_relocate_store.mp h
      obtain rfl : x = o := by omega
      exact Or.inr (Or.inr (Or.inr (Or.inr h)))

theorem merge_addr {x v : ℕ} (h : .store x v ∈ mergeEvents [] (l ++ c.set .free :: r)) :
    ∃ f ∈ l ++ c :: r, f.addr = x := by
  obtain ⟨f, hf, hfx⟩ := writes_mergeEvents h (Event.writes_store _ _ _ |>.mpr rfl)
  rcases mem_set_iff.mp hf with rfl | hf
  · exact ⟨c, by simp, hfx⟩
  · refine ⟨f, ?_, hfx⟩
    simp only [List.mem_append, List.mem_cons] at hf ⊢
    tauto

/-- Of another clump's header only the size word is stored to, by the coalescing. -/
theorem issued_other (h : Freeing w p l c r e ss) {f : Clump} (hf : f ∈ l ++ c :: r) (hfc : f ≠ c)
    {x v : ℕ} (hx : f.InHeader x) (hi : Issued l c r ss x v) :
    x = f.addr ∧ .store x v ∈ mergeEvents [] (l ++ c.set .free :: r) := by
  have hc := h.quiescent.chain
  have hown : ¬ c.InHeader x := hc.header_disjoint hf h.mem hfc hx
  rcases hi with ⟨rfl, -⟩ | hi | ⟨i, hi, rfl, -⟩ | ⟨rfl, -⟩ | hi
  · exact absurd (addr_inHeader c) hown
  · exact absurd hx ((h.outside _ hi).headers f hf)
  · exact absurd (onOff_inHeader hi) hown
  · exact absurd (addr_inHeader c) hown
  · obtain ⟨g, hg, rfl⟩ := merge_addr hi
    by_cases hfg : f = g
    · exact ⟨by rw [hfg], hi⟩
    · exact absurd (addr_inHeader g) (hc.header_disjoint hf hg hfg hx)

theorem issued_own (h : Freeing w p l c r e ss) {x v : ℕ} (hx : c.InHeader x)
    (hi : Issued l c r ss x v) : x = c.addr ∨ ∃ i < 3, x = onOff c.addr i ∧ v = 0 := by
  rcases hi with ⟨rfl, -⟩ | hi | hi | ⟨rfl, -⟩ | hi
  · exact Or.inl rfl
  · exact absurd hx ((h.outside _ hi).headers c h.mem)
  · exact Or.inr hi
  · exact Or.inl rfl
  · obtain ⟨g, hg, rfl⟩ := merge_addr hi
    by_cases hcg : c = g
    · exact Or.inl (by rw [hcg])
    · exact absurd (addr_inHeader g) (h.quiescent.chain.header_disjoint h.mem hg hcg hx)

theorem not_issued_marker (h : Freeing w p l c r e ss) {v : ℕ} : ¬ Issued l c r ss e v := by
  have hc := h.quiescent.chain
  have hown : ∀ {x : ℕ}, c.InHeader x → x < e := fun hx => by
    have := hc.addr_lt h.mem
    have := hx.2
    omega
  rintro (⟨h1, -⟩ | hi | ⟨i, hi, h1, -⟩ | ⟨h1, -⟩ | hi)
  · exact (hown (addr_inHeader c)).ne h1.symm
  · exact (h.outside _ hi).lt.ne rfl
  · exact (hown (onOff_inHeader hi)).ne h1.symm
  · exact (hown (addr_inHeader c)).ne h1.symm
  · obtain ⟨g, hg, hge⟩ := merge_addr hi
    have := hc.addr_lt hg
    omega

theorem issued_dest (h : Freeing w p l c r e ss) {s : ℕ × ℕ} (hs : s ∈ ss) {v : ℕ}
    (hi : Issued l c r ss s.1 v) : v = s.2 := by
  have hout := (h.outside s hs).headers
  rcases hi with ⟨h1, -⟩ | hi | ⟨i, hi, h1, -⟩ | ⟨h1, -⟩ | hi
  · exact absurd (h1 ▸ addr_inHeader c) (hout c h.mem)
  · exact congrArg Prod.snd (List.inj_on_of_nodup_map h.distinct hi hs rfl)
  · exact absurd (h1 ▸ onOff_inHeader hi) (hout c h.mem)
  · exact absurd (h1 ▸ addr_inHeader c) (hout c h.mem)
  · obtain ⟨g, hg, hge⟩ := merge_addr hi
    exact absurd (hge ▸ addr_inHeader g) (hout g hg)

/-! ### The header words of an image -/

theorem image_word (h : Freeing w p l c r e ss) (hi : CrashImage w.base (w.trace ++ evs) img) {x : ℕ}
    (hx : (∃ f ∈ l ++ c :: r, f.InHeader x) ∨ x = e) :
    fileAt p img x = fileAt p w.mem x ∨ .store (p + x) (fileAt p img x) ∈ evs := by
  have hd : Durable w.base w.trace (lineOf (p + x)) := by
    rcases hx with ⟨f, hf, hx⟩ | rfl
    · rw [lineOf_add h.quiescent.mapped.aligned, lineOf_header (h.quiescent.addr_dvd hf) hx.1 hx.2,
        ← lineOf_add h.quiescent.mapped.aligned]
      exact h.quiescent.headers f hf
    · exact h.quiescent.marker
  obtain ⟨kept, lost, rfl, -, hag⟩ := hd.append_cut hi
  have himg : fileAt p img x = applyAll kept w.mem (p + x) := hag _ rfl
  rw [himg]
  rcases applyAll_eq_or_store kept w.mem (p + x) with h | h
  · exact Or.inl h
  · exact Or.inr (List.mem_append_left _ h)

section Image
variable (h : Freeing w p l c r e ss) (hi : CrashImage w.base (w.trace ++ evs) img)
  (hsub : ∀ x v, .store (p + x) v ∈ evs → Issued l c r ss x v)
include h hi hsub

theorem image_marker : fileAt p img e = 0 := by
  rcases h.image_word hi (Or.inr rfl) with h' | h'
  · rw [h']
    exact h.quiescent.chain.marker
  · exact absurd (hsub _ _ h') h.not_issued_marker

theorem image_other {f : Clump} (hf : f ∈ l ++ c :: r) (hfc : f ≠ c) : fileAt p img f.addr = f.word ∨
    .store f.addr (fileAt p img f.addr) ∈ mergeEvents [] (l ++ c.set .free :: r) := by
  rcases h.image_word hi (Or.inl ⟨f, hf, addr_inHeader f⟩) with h' | h'
  · exact Or.inl (h'.trans (h.quiescent.chain.word hf))
  · exact Or.inr (h.issued_other hf hfc (addr_inHeader f) (hsub _ _ h')).2

theorem image_registered : registered (fileAt p img) c <+: ss := by
  rw [← h.entries]
  have hown : ∀ x, c.InHeader x → x ≠ c.addr → fileAt p img x = fileAt p w.mem x ∨
      fileAt p img x = 0 ∧ ∃ i < 3, x = onOff c.addr i := by
    intro x hx hne
    rcases h.image_word hi (Or.inl ⟨c, h.mem, hx⟩) with h' | h'
    · exact Or.inl h'
    · rcases h.issued_own hx (hsub _ _ h') with h1 | ⟨i, hi, h1, h2⟩
      · exact absurd h1 hne
      · exact Or.inr ⟨h2, i, hi, h1⟩
  refine onEntries_prefix (fun i hi => ?_) fun i hi => ?_
  · rcases hown _ (onOff_inHeader (lt_of_mem_onUp hi)) (onOff_ne_addr _ _) with h | h
    · exact Or.inl h
    · exact Or.inr h.1
  · rcases hown _ (onPtr_inHeader (lt_of_mem_onUp hi)) (by unfold onPtr; omega) with h | ⟨-, j, -, h⟩
    · exact h
    · exact absurd h.symm (onOff_ne_onPtr _ _ _)

/-- An image in which every destination has its value recovers well, whatever else it lost. -/
theorem freedUnlinked_of_dests (hdest : ∀ s ∈ ss, fileAt p img s.1 = s.2) :
    FreedUnlinked e c ss (fileAt p img) := by
  have hc := h.quiescent.chain
  obtain ⟨sc, hsc⟩ : ∃ sc : State, fileAt p img c.addr = (c.set sc).word ∨
      .store c.addr (fileAt p img c.addr) ∈ mergeEvents [] (l ++ c.set .free :: r) := by
    rcases h.image_word hi (Or.inl ⟨c, h.mem, addr_inHeader c⟩) with h' | h'
    · exact ⟨c.tag, Or.inl (h'.trans (hc.word h.mem))⟩
    · rcases hsub _ _ h' with ⟨-, h1⟩ | h1 | ⟨i, -, h1, -⟩ | ⟨-, h1⟩ | h1
      · exact ⟨.freeing, Or.inl h1⟩
      · exact absurd (addr_inHeader c) ((h.outside _ h1).headers c h.mem)
      · exact absurd h1.symm (onOff_ne_addr _ _)
      · exact ⟨.free, Or.inl h1⟩
      · exact ⟨.free, Or.inr h1⟩
  have htiles : Tiles 64 pmemClumpOffset ([] ++ (l ++ c.set .free :: r)) e :=
    (chain_committed hc .free).tiles
  -- the states the headers show: that of the freed clump is `sc`
  obtain ⟨cs', ht', hdrawn⟩ := drawn_mergeEvents (fun f => if f.addr = c.addr then sc else f.tag)
    (m := fileAt p img) htiles fun f hf => by
      rw [List.nil_append] at hf
      rcases mem_set_iff.mp hf with rfl | hf
      · simpa using hsc
      · have hfc := hc.addr_ne.1 f hf
        have hf' : f ∈ l ++ c :: r := by
          simp only [List.mem_append, List.mem_cons] at hf ⊢
          tauto
        simpa [hfc] using h.image_other hi hsub hf' fun heq => hfc (by rw [heq])
  rw [List.nil_append] at hdrawn
  refine freedUnlinked_of_walk ⟨ht', fun f hf => (hdrawn f hf).1, h.image_marker hi hsub⟩
    (fun t ht => ?_) h.distinct (fun s hs => ⟨(h.outside s hs).lt, fun f hf hx => ?_⟩)
    (Or.inr fun s hs => Or.inl (hdest s hs))
  · obtain ⟨f, hf, htf⟩ := List.mem_flatMap.mp ht
    rcases (hdrawn f hf).2 with ⟨g, hg, rfl⟩ | ⟨hfree, -⟩
    · rcases mem_set_iff.mp hg with rfl | hg
      · have htf' : t ∈ pending (fileAt p img) 0 (c.set sc) := by simpa using htf
        have hreg : t ∈ registered (fileAt p img) c := by
          cases sc <;> first | exact htf' | simp [pending] at htf'
        exact (h.image_registered hi hsub).subset hreg
      · have hgc := hc.addr_ne.1 g hg
        simp only [hgc, if_false, Clump.set_self] at htf
        rw [h.quiescent.quiet_rest g hg] at htf
        simp at htf
    · rw [pending_of_settled (by rw [hfree]; rfl)] at htf
      simp at htf
  · have hout := outside_set_iff (s := .free).mpr (h.outside s hs)
    rcases (hdrawn f hf).2 with ⟨g, hg, rfl⟩ | ⟨-, g, hg, hgf⟩
    · exact hout.headers g hg hx
    · unfold Clump.InHeader at hx
      rw [← hgf] at hx
      exact hout.headers g hg hx

/-- Once the destinations have been stored to, a crash leaves in each the value its flushes save. -/
theorem image_dest (hz : zs.map Prod.fst = ss) {front more : List Event}
    (hevs : evs = front ++ (relocate p (destEvents zs) ++ more)) {zl zr : List ((ℕ × ℕ) × Bool)}
    {z : (ℕ × ℕ) × Bool} (hsplit : zs = zl ++ z :: zr) (hu : Unlinks w p zl z zr) :
    fileAt p img z.1.1 = z.1.2 := by
  have hal := h.quiescent.mapped.aligned
  have hzm : z.1 ∈ ss := by rw [← hz, hsplit]; simp
  have h8 : ∀ y ∈ zs, 8 ∣ y.1.1 := fun y hy => h.aligned _ (hz ▸ List.mem_map_of_mem hy)
  have hval : ∀ v, .store (p + z.1.1) v ∈ evs → v = z.1.2 :=
    fun v hv => h.issued_dest hzm (hsub _ _ hv)
  -- the executed flush of `y` flushes its line
  have hflush : ∀ y ∈ zs, lineOf y.1.1 = lineOf z.1.1 →
      ((Event.flush (clLines y.1.1 sizeofPtr)).relocate p).Flushes (lineOf (p + z.1.1)) := by
    intro y hy hl
    exact (Event.flushes_relocate hal).mpr ((flushes_clLines_word (h8 y hy)).mpr hl)
  have hmem : ∀ y ∈ zs, y.2 = true → (Event.flush (clLines y.1.1 sizeofPtr)).relocate p ∈ evs := by
    intro y hy hb
    rw [hevs]
    exact List.mem_append_right _ (List.mem_append_left _ (List.mem_map_of_mem (flush_mem_destEvents hy hb)))
  rcases hi.append_cases (lineOf (p + z.1.1)) with ⟨m₀, hm₀, hno, hag⟩ | ⟨kept, lost, hcut, hno, hag⟩
  · have hnone : ∀ y ∈ zs, y.2 = true → lineOf y.1.1 ≠ lineOf z.1.1 :=
      fun y hy hb hl => hno _ (hmem y hy hb) (hflush y hy hl)
    rw [fileAt_apply, hag _ rfl]
    rcases hu with ⟨y, hy, hb, hl⟩ | ⟨-, y, hy, hb, hl⟩ | hu
    · exact absurd hl (hnone y (by rw [hsplit]; exact List.mem_append_right _ hy) hb)
    · exact absurd hl (hnone y (by rw [hsplit]; exact List.mem_append_left _ hy) hb)
    · exact hu m₀ hm₀
  · have himg : fileAt p img z.1.1 = applyAll kept w.mem (p + z.1.1) := hag _ rfl
    have hvalk : ∀ v, .store (p + z.1.1) v ∈ kept → v = z.1.2 :=
      fun v hv => hval v (by rw [hcut]; exact List.mem_append_left _ hv)
    have hold : fileAt p w.mem z.1.1 = z.1.2 → fileAt p img z.1.1 = z.1.2 := by
      intro hw
      rw [himg]
      rcases applyAll_eq_or_store kept w.mem (p + z.1.1) with h' | h'
      · exact h'.trans hw
      · exact hvalk _ h'
    rcases hu with ⟨y, hy, hb, hl⟩ | ⟨hw, -⟩ | hu
    · -- the flush is kept, and the store stands before it
      rw [himg]
      refine applyAll_of_store ?_ hvalk _
      have hy' : y ∈ zs := by rw [hsplit]; exact List.mem_append_right _ hy
      have hlost : (Event.flush (clLines y.1.1 sizeofPtr)).relocate p ∉ lost :=
        fun hm => hno _ hm (hflush y hy' hl)
      have hafter : (Event.flush (clLines y.1.1 sizeofPtr)) ∈
          maybeFlush z.2 (clLines z.1.1 sizeofPtr) ++ destEvents zr := by
        rcases List.mem_cons.mp hy with rfl | hy
        · exact List.mem_append_left _ (by rw [hb]; simp [maybeFlush])
        · exact List.mem_append_right _ (flush_mem_destEvents hy hb)
      have hevs' : kept ++ lost = (front ++ (relocate p (destEvents zl) ++ [.store (p + z.1.1) z.1.2])) ++
          (relocate p (maybeFlush z.2 (clLines z.1.1 sizeofPtr) ++ destEvents zr) ++ more) := by
        rw [← hcut, hevs, hsplit, destEvents_append, destEvents_cons, relocate_append, relocate_store]
        simp only [List.append_assoc, List.cons_append, List.nil_append]
      rcases List.append_eq_append_iff.mp hevs' with ⟨more', -, hlost'⟩ | ⟨more', hkept, -⟩
      · refine absurd ?_ hlost
        rw [hlost']
        exact List.mem_append_right _ (List.mem_append_left _ (List.mem_map_of_mem hafter))
      · rw [hkept]
        simp
    · exact hold hw
    · exact hold (hu _ (CrashImage.all _ _))

end Image

/-- What precedes the clearing of the on-list. -/
def beforeClear (c : Clump) (b : Bool) (zs : List ((ℕ × ℕ) × Bool)) : List Event :=
  .store c.addr (c.set .freeing).word :: (maybeFlush b (clLines c.addr sizeofClump) ++ destEvents zs)

theorem commitTrace_eq (c : Clump) (b : Bool) (zs : List ((ℕ × ℕ) × Bool)) :
    commitTrace c b zs = beforeClear c b zs ++ clearEvents c.addr := by
  simp [commitTrace, beforeClear]

theorem store_mem_beforeClear {x v : ℕ} (h : .store x v ∈ beforeClear c b zs) :
    (x = c.addr ∧ v = (c.set .freeing).word) ∨ (x, v) ∈ zs.map Prod.fst := by
  have hno : .store x v ∉ maybeFlush b (clLines c.addr sizeofClump) :=
    fun h => not_writes_maybeFlush h rfl
  rw [beforeClear, List.mem_cons, List.mem_append, store_mem_destEvents] at h
  rcases h with h | h | h
  · exact Or.inl ⟨(Event.store.inj h).1, (Event.store.inj h).2⟩
  · exact absurd h hno
  · exact Or.inr h

theorem not_store_other (h : Freeing w p l c r e ss) (hz : zs.map Prod.fst = ss) {f : Clump}
    (hf : f ∈ l ++ r) (v : ℕ) : .store (p + f.addr) v ∉ relocate p (commitTrace c b zs) := by
  have hc := h.quiescent.chain
  have hfc := hc.addr_ne.1 f hf
  have hf' : f ∈ l ++ c :: r := by
    simp only [List.mem_append, List.mem_cons] at hf ⊢
    tauto
  intro hs
  obtain ⟨o, ho, hs⟩ := mem_relocate_store.mp hs
  obtain rfl : f.addr = o := by omega
  rcases store_mem_commitTrace hs with ⟨h1, -⟩ | h1 | ⟨i, hi, h1, -⟩
  · exact hfc h1
  · exact (h.outside _ (hz ▸ h1)).headers f hf' (addr_inHeader f)
  · exact hc.header_disjoint hf' h.mem (fun heq => hfc (by rw [heq])) (addr_inHeader f)
      (h1 ▸ onOff_inHeader hi)

/-- A crash that keeps none of the clearing: the clump is active, or its whole on-list is pending. -/
theorem freedUnlinked_before (h : Freeing w p l c r e ss) (hz : zs.map Prod.fst = ss)
    (hi : CrashImage w.base (w.trace ++ evs) img) (hevs : ∀ ev ∈ evs, ev ∈ relocate p (commitTrace c b zs))
    {kept : List Event} (hkept : ∀ ev ∈ kept, ev ∈ relocate p (beforeClear c b zs))
    (hag : ∀ x, c.InHeader x → fileAt p img x = applyAll kept w.mem (p + x)) :
    FreedUnlinked e c ss (fileAt p img) := by
  have hc := h.quiescent.chain
  have hown : ∀ x, c.InHeader x → fileAt p img x = fileAt p w.mem x ∨
      x = c.addr ∧ fileAt p img x = (c.set .freeing).word := by
    intro x hx
    rw [hag x hx]
    rcases applyAll_eq_or_store kept w.mem (p + x) with h' | h'
    · exact Or.inl h'
    · obtain ⟨o, ho, hs⟩ := mem_relocate_store.mp (hkept _ h')
      obtain rfl : x = o := by omega
      rcases store_mem_beforeClear hs with h1 | h1
      · exact Or.inr h1
      · exact absurd hx ((h.outside _ (hz ▸ h1)).headers c h.mem)
  have hreg : registered (fileAt p img) c = ss := by
    rw [← h.entries]
    refine onEntries_congr fun i hi => ⟨?_, ?_⟩
    · exact (hown _ (onOff_inHeader (lt_of_mem_onUp hi))).resolve_right
        fun h => onOff_ne_addr _ _ h.1
    · refine (hown _ (onPtr_inHeader (lt_of_mem_onUp hi))).resolve_right fun h => ?_
      have := h.1
      unfold onPtr at this
      omega
  have hsub : ∀ x v, .store (p + x) v ∈ evs → Issued l c r ss x v :=
    fun x v hs => issued_of_commitTrace hz (hevs _ hs)
  obtain ⟨sc, hsc, hst⟩ : ∃ sc : State, fileAt p img c.addr = (c.set sc).word ∧
      (sc = .active ∨ sc = .freeing) := by
    rcases hown _ (addr_inHeader c) with h' | ⟨-, h'⟩
    · exact ⟨.active, by rw [h', hc.word h.mem, ← h.tag, Clump.set_self], Or.inl rfl⟩
    · exact ⟨.freeing, h', Or.inr rfl⟩
  have hchain : Chain (fileAt p img) pmemClumpOffset (l ++ c.set sc :: r) e := by
    refine hc.set_state sc hsc (fun f hf => ?_) ((h.image_marker hi hsub).trans hc.marker.symm)
    refine (h.image_word hi (Or.inl ⟨f, ?_, addr_inHeader f⟩)).resolve_right
      fun hs => h.not_store_other hz hf _ (hevs _ hs)
    simp only [List.mem_append, List.mem_cons] at hf ⊢
    tauto
  have hpend : pendings (fileAt p img) 0 (l ++ c.set sc :: r) = pending (fileAt p img) 0 (c.set sc) := by
    have hl : pendings (fileAt p img) 0 l = [] :=
      List.flatMap_eq_nil_iff.mpr fun f hf => h.quiescent.quiet_rest f (by simp [hf]) _
    have hr : pendings (fileAt p img) 0 r = [] :=
      List.flatMap_eq_nil_iff.mpr fun f hf => h.quiescent.quiet_rest f (by simp [hf]) _
    rw [pendings_append, pendings_cons, hl, hr, List.nil_append, List.append_nil]
  have hout : ∀ s ∈ ss, Outside (l ++ c.set sc :: r) e s.1 :=
    fun s hs => outside_set_iff.mpr (h.outside s hs)
  rcases hst with rfl | rfl
  · refine freedUnlinked_of_walk hchain (fun t ht => ?_) h.distinct hout
      (Or.inl ⟨?_, h.tag⟩)
    · rw [hpend] at ht
      exact absurd ht (by simp [pending])
    · rw [← h.tag, Clump.set_self]
      exact h.mem
  · have hpend' : pendings (fileAt p img) 0 (l ++ c.set .freeing :: r) = ss := hpend.trans hreg
    exact freedUnlinked_of_walk hchain (fun t ht => hpend' ▸ ht) h.distinct hout
      (Or.inr fun s hs => Or.inr (hpend'.symm ▸ hs))

theorem free_safe (h : Freeing w p l c r e ss)
    (hu : ∀ zl z zr, ss.zip (destFlushes w.epoch ss.length) = zl ++ z :: zr → Unlinks w p zl z zr)
    (hcr : CrashDuring (pmemallocFree p (c.addr + 64)) w img) :
    FreedUnlinked e c ss (fileAt p img) := by
  have hq := h.quiescent
  obtain ⟨b, w₂, rest, hrun, -, htrace, hstores⟩ := free_relaxed h.relaxed hq.mapped hq.chain h.tag
    hq.quiet_rest (by rw [h.entries]; exact h.outside)
  rw [h.entries] at htrace
  generalize hzs : ss.zip (destFlushes w.epoch ss.length) = zs at htrace hu
  have hz : zs.map Prod.fst = ss := by
    rw [← hzs]
    exact List.map_fst_zip (by rw [length_destFlushes])
  obtain ⟨k, hi⟩ := hcr
  rw [hrun, htrace, List.take_length_add_append] at hi
  have hsub : ∀ x v, .store (p + x) v ∈ (relocate p (commitTrace c b zs) ++ rest).take k →
      Issued l c r ss x v := fun x v hs => issued_of_mem hz hstores (List.mem_of_mem_take hs)
  obtain ⟨kept, lost, hcut, hno, hag⟩ := (hq.headers c h.mem).append_cut hi
  have hag' : ∀ x, c.InHeader x → fileAt p img x = applyAll kept w.mem (p + x) := by
    intro x hx
    refine hag _ ?_
    rw [lineOf_add hq.mapped.aligned, lineOf_add hq.mapped.aligned,
      lineOf_header (hq.addr_dvd h.mem) hx.1 hx.2]
  have hlen : kept.length + lost.length = min k ((relocate p (commitTrace c b zs) ++ rest).length) := by
    rw [← List.length_append, ← hcut, List.length_take]
  have hkept : kept = (relocate p (commitTrace c b zs) ++ rest).take kept.length := by
    have h1 : kept = (kept ++ lost).take kept.length := by simp
    rw [← hcut, List.take_take, min_eq_left (by omega)] at h1
    exact h1
  have hlenA : (relocate p (beforeClear c b zs)).length = (beforeClear c b zs).length := List.length_map _
  have hsplit : relocate p (commitTrace c b zs) ++ rest =
      relocate p (beforeClear c b zs) ++ (relocate p (clearEvents c.addr) ++ rest) := by
    rw [commitTrace_eq, relocate_append, List.append_assoc]
  by_cases hle : kept.length ≤ (beforeClear c b zs).length
  · -- the flush that follows the clearing was not reached
    have hflush : (headerFlush c.addr).relocate p ∉ lost := fun hm =>
      hno _ hm ((Event.flushes_relocate hq.mapped.aligned).mpr (lineOf_mem_clLines c.addr))
    refine h.freedUnlinked_before (b := b) hz hi (fun ev hev => ?_) (fun ev hev => ?_) hag'
    · by_cases hk : k ≤ (relocate p (commitTrace c b zs)).length
      · rw [List.take_append_of_le_length hk] at hev
        exact List.mem_of_mem_take hev
      · exfalso
        refine hflush ?_
        have hclear : (headerFlush c.addr).relocate p ∈ relocate p (clearEvents c.addr) :=
          List.mem_map_of_mem (by simp [clearEvents])
        have hcut' : kept ++ lost = relocate p (beforeClear c b zs) ++
            (relocate p (clearEvents c.addr) ++
              rest.take (k - (relocate p (commitTrace c b zs)).length)) := by
          rw [← hcut, List.take_append, List.take_of_length_le (by omega), commitTrace_eq,
            relocate_append, List.append_assoc]
        rcases List.append_eq_append_iff.mp hcut' with ⟨m, -, hlost⟩ | ⟨m, hk', hlost⟩
        · rw [hlost]
          exact List.mem_append_right _ (List.mem_append_left _ hclear)
        · have hm : m = [] := by
            rw [hk', List.length_append, hlenA] at hle
            exact List.length_eq_zero_iff.mp (by omega)
          rw [hm, List.nil_append] at hlost
          rw [← hlost]
          exact List.mem_append_left _ hclear
    · rw [hkept, hsplit, List.take_append_of_le_length (by omega)] at hev
      exact List.mem_of_mem_take hev
  · refine h.freedUnlinked_of_dests hi hsub fun s hs => ?_
    obtain ⟨z, hzm, rfl⟩ := List.mem_map.mp (hz.symm ▸ hs)
    obtain ⟨zl, zr, hzsplit⟩ := List.append_of_mem hzm
    have hevs : (relocate p (commitTrace c b zs) ++ rest).take k =
        relocate p (.store c.addr (c.set .freeing).word :: maybeFlush b (clLines c.addr sizeofClump)) ++
          (relocate p (destEvents zs) ++
            (relocate p (clearEvents c.addr) ++ rest).take (k - (beforeClear c b zs).length)) := by
      rw [hsplit, List.take_append, List.take_of_length_le (by omega), hlenA, ← List.append_assoc,
        ← relocate_append]
      rfl
    exact h.image_dest hi hsub hz hevs hzsplit (hu zl z zr hzsplit)

/-! ### The image that loses a destination -/

/-- Nothing of a destination that does not survive need be in memory when the on-list is cleared. -/
theorem lost_cut (h : Freeing w p l c r e ss) (hz : zs.map Prod.fst = ss)
    {zl zr : List ((ℕ × ℕ) × Bool)} {z : (ℕ × ℕ) × Bool} (hsplit : zs = zl ++ z :: zr)
    (hu : ¬ Unlinks w p zl z zr) : ∃ kept lost,
      w.trace ++ relocate p (commitTrace c b zs) = kept ++ lost ∧
      (∀ ev ∈ lost, ¬ ev.Flushes (lineOf (p + z.1.1))) ∧ applyAll kept w.base (p + z.1.1) ≠ z.1.2 := by
  have hal := h.quiescent.mapped.aligned
  have hzm : z.1 ∈ ss := by rw [← hz, hsplit]; simp
  have h8 : ∀ y ∈ zs, 8 ∣ y.1.1 := fun y hy => h.aligned _ (hz ▸ List.mem_map_of_mem hy)
  have hline : lineOf z.1.1 ≠ lineOf c.addr := by
    intro hl
    have h1 := (h.outside _ hzm).headers c h.mem
    have h2 := h.quiescent.addr_dvd h.mem
    unfold lineOf at hl
    unfold Clump.InHeader at h1
    omega
  have hheader : ∀ ls : List Event, (∀ ev ∈ ls, ev = headerFlush c.addr ∨ ∃ a v, ev = .store a v) →
      ∀ ev ∈ relocate p ls, ¬ ev.Flushes (lineOf (p + z.1.1)) := by
    intro ls hls ev hev hf
    obtain ⟨ev', hev', rfl⟩ := List.mem_map.mp hev
    rw [Event.flushes_relocate hal] at hf
    rcases hls ev' hev' with rfl | ⟨a, v, rfl⟩
    · rw [headerFlush, Event.flushes_flush, mem_clLines, sizeofClump] at hf
      have h2 := h.quiescent.addr_dvd h.mem
      unfold lineOf at hf hline
      omega
    · exact Event.flushes_store _ _ _ hf
  have hdest : ∀ ys : List ((ℕ × ℕ) × Bool), (∀ y ∈ ys, y ∈ zs) →
      (∀ y ∈ ys, y.2 = true → lineOf y.1.1 ≠ lineOf z.1.1) →
      ∀ ev ∈ relocate p (destEvents ys), ¬ ev.Flushes (lineOf (p + z.1.1)) := by
    intro ys hsub hno ev hev hf
    obtain ⟨ev', hev', rfl⟩ := List.mem_map.mp hev
    rw [Event.flushes_relocate hal] at hf
    obtain ⟨y, hy, hb, hl⟩ := flushes_destEvents (fun y hy => h8 y (hsub y hy)) hev' hf
    exact hno y hy hb hl
  have hhead : ∀ ev ∈ (.store c.addr (c.set .freeing).word :: maybeFlush b (clLines c.addr sizeofClump)),
      ev = headerFlush c.addr ∨ ∃ a v, ev = .store a v := by
    intro ev hev
    rcases List.mem_cons.mp hev with rfl | hev
    · exact Or.inr ⟨_, _, rfl⟩
    · unfold maybeFlush at hev
      split at hev
      · exact Or.inl (List.mem_singleton.mp hev)
      · simp at hev
  have hclear : ∀ ev ∈ clearEvents c.addr, ev = headerFlush c.addr ∨ ∃ a v, ev = .store a v := by
    intro ev hev
    simp only [clearEvents, List.mem_cons, List.not_mem_nil, or_false] at hev
    rcases hev with rfl | rfl | rfl | rfl
    · exact Or.inr ⟨_, _, rfl⟩
    · exact Or.inr ⟨_, _, rfl⟩
    · exact Or.inr ⟨_, _, rfl⟩
    · exact Or.inl rfl
  have hparts : commitTrace c b zs = (.store c.addr (c.set .freeing).word ::
      maybeFlush b (clLines c.addr sizeofClump)) ++ destEvents zl ++
        (destEvents (z :: zr) ++ clearEvents c.addr) := by
    rw [commitTrace, hsplit, destEvents_append]
    simp only [List.cons_append, List.append_assoc]
  unfold Unlinks at hu
  push Not at hu
  obtain ⟨hafter, hbefore, m₀, hm₀, hne⟩ := hu
  by_cases hearly : ∃ y ∈ zl, y.2 = true ∧ lineOf y.1.1 = lineOf z.1.1
  · -- an earlier flush fixes the old value, which is another one
    have hw : fileAt p w.mem z.1.1 ≠ z.1.2 := by
      intro hw
      obtain ⟨y, hy, hb, hl⟩ := hearly
      exact hbefore hw y hy hb hl
    refine ⟨w.trace ++ relocate p ((.store c.addr (c.set .freeing).word ::
      maybeFlush b (clLines c.addr sizeofClump)) ++ destEvents zl),
      relocate p (destEvents (z :: zr) ++ clearEvents c.addr), ?_, ?_, ?_⟩
    · rw [hparts, relocate_append, List.append_assoc]
    · intro ev hev
      rw [relocate_append] at hev
      rcases List.mem_append.mp hev with hev | hev
      · refine hdest (z :: zr) (fun y hy => ?_) (fun y hy hb => hafter y hy hb) ev hev
        rw [hsplit]
        exact List.mem_append_right _ hy
      · exact hheader _ hclear ev hev
    · rw [applyAll_append]
      intro heq
      refine hw ?_
      rw [← heq]
      symm
      refine applyAll_of_not_writes (fun ev hev hwr => ?_) _
      cases ev with
      | flush ls => exact absurd hwr (Event.writes_flush _ _)
      | store a v =>
        obtain rfl : a = p + z.1.1 := hwr
        obtain ⟨o, ho, hs⟩ := mem_relocate_store.mp hev
        obtain rfl : z.1.1 = o := by omega
        have hs' : .store z.1.1 v ∈ beforeClear c b zl := hs
        rcases store_mem_beforeClear hs' with ⟨h1, -⟩ | h1
        · exact hline (by rw [h1])
        · have hd := h.distinct
          rw [← hz, hsplit, List.map_append, List.map_append, List.nodup_append] at hd
          exact hd.2.2 _ (List.mem_map_of_mem h1) z.1.1 (by simp) rfl
  · push Not at hearly
    obtain ⟨kept, lost, htr, hno, hag⟩ := hm₀ (lineOf (p + z.1.1))
    refine ⟨kept, lost ++ relocate p (commitTrace c b zs), by rw [htr, List.append_assoc], ?_, ?_⟩
    · intro ev hev
      rcases List.mem_append.mp hev with hev | hev
      · exact hno ev hev
      · rw [hparts, relocate_append, relocate_append, relocate_append] at hev
        simp only [List.mem_append] at hev
        rcases hev with (hev | hev) | hev | hev
        · exact hheader _ hhead ev hev
        · refine hdest zl (fun y hy => ?_) (fun y hy hb => hearly y hy hb) ev hev
          rw [hsplit]
          exact List.mem_append_left _ hy
        · refine hdest (z :: zr) (fun y hy => ?_) (fun y hy hb => hafter y hy hb) ev hev
          rw [hsplit]
          exact List.mem_append_right _ hy
        · exact hheader _ hclear ev hev
    · rw [← hag _ rfl]
      exact hne

/-- The headers once the on-list is cleared: the clump is being freed and has nothing pending. -/
theorem cleared_walk (h : Freeing w p l c r e ss) (hz : zs.map Prod.fst = ss) {d : Mem}
    (hd : ∀ x, (∃ f ∈ l ++ c :: r, f.InHeader x) ∨ x = e →
      d x = applyAll (commitTrace c b zs) (fileAt p w.mem) x) :
    Chain d pmemClumpOffset (l ++ c.set .freeing :: r) e ∧
      pendings d 0 (l ++ c.set .freeing :: r) = [] := by
  have hc := h.quiescent.chain
  have hstore : ∀ x, (∀ v, .store x v ∉ commitTrace c b zs) →
      applyAll (commitTrace c b zs) (fileAt p w.mem) x = fileAt p w.mem x := fun x hx =>
    (applyAll_eq_or_store _ _ x).resolve_right (hx _)
  have hself : d c.addr = (c.set .freeing).word := by
    rw [hd _ (Or.inl ⟨c, h.mem, addr_inHeader c⟩)]
    refine applyAll_of_store (by rw [commitTrace]; exact List.mem_cons_self) (fun v hv => ?_) _
    rcases store_mem_commitTrace hv with ⟨-, h1⟩ | h1 | ⟨i, -, h1, -⟩
    · exact h1
    · exact absurd (addr_inHeader c) ((h.outside _ (hz ▸ h1)).headers c h.mem)
    · exact absurd h1.symm (onOff_ne_addr _ _)
  have hoff : d (onOff c.addr 0) = 0 := by
    rw [hd _ (Or.inl ⟨c, h.mem, onOff_inHeader (by omega)⟩)]
    refine applyAll_of_store ?_ (fun v hv => ?_) _
    · rw [commitTrace_eq, clearEvents]
      simp
    · rcases store_mem_commitTrace hv with ⟨h1, -⟩ | h1 | ⟨i, -, -, h1⟩
      · exact absurd h1 (onOff_ne_addr _ _)
      · exact absurd (onOff_inHeader (by omega)) ((h.outside _ (hz ▸ h1)).headers c h.mem)
      · exact h1
  have hmem : ∀ f ∈ l ++ r, f ∈ l ++ c :: r := by
    intro f hf
    simp only [List.mem_append, List.mem_cons] at hf ⊢
    tauto
  refine ⟨hc.set_state .freeing hself (fun f hf => ?_) ?_, List.flatMap_eq_nil_iff.mpr fun f hf => ?_⟩
  · rw [hd _ (Or.inl ⟨f, hmem f hf, addr_inHeader f⟩)]
    exact hstore _ fun v hv => h.not_store_other hz hf v (mem_relocate_store.mpr ⟨_, rfl, hv⟩)
  · rw [hd _ (Or.inr rfl)]
    exact hstore _ fun v hv => h.not_issued_marker
      (issued_of_commitTrace (p := p) hz (mem_relocate_store.mpr ⟨_, rfl, hv⟩))
  · rcases mem_set_iff.mp hf with rfl | hf
    · exact onEntries_unused hoff _
    · exact h.quiescent.quiet_rest f hf _

theorem free_lost (h : Freeing w p l c r e ss) {zl zr : List ((ℕ × ℕ) × Bool)} {z : (ℕ × ℕ) × Bool}
    (hsplit : ss.zip (destFlushes w.epoch ss.length) = zl ++ z :: zr) (hu : ¬ Unlinks w p zl z zr) :
    ∃ img, CrashDuring (pmemallocFree p (c.addr + 64)) w img ∧ ¬ FreedUnlinked e c ss (fileAt p img) := by
  have hq := h.quiescent
  have hal := hq.mapped.aligned
  obtain ⟨b, w₂, rest, hrun, -, htrace, -⟩ := free_relaxed h.relaxed hq.mapped hq.chain h.tag
    hq.quiet_rest (by rw [h.entries]; exact h.outside)
  rw [h.entries] at htrace
  generalize hzs : ss.zip (destFlushes w.epoch ss.length) = zs at htrace hsplit
  have hz : zs.map Prod.fst = ss := by
    rw [← hzs]
    exact List.map_fst_zip (by rw [length_destFlushes])
  have hzm : z.1 ∈ ss := by rw [← hz, hsplit]; simp
  have hout := h.outside _ hzm
  obtain ⟨kept, lost, hcut, hno, hne⟩ := h.lost_cut (b := b) hz hsplit hu
  obtain ⟨img, himgdef, himg⟩ : ∃ img : Mem, img = (fun x => if lineOf x = lineOf (p + z.1.1) then
      applyAll kept w.base x else applyAll (w.trace ++ relocate p (commitTrace c b zs)) w.base x) ∧
      CrashImage w.base (w.trace ++ relocate p (commitTrace c b zs)) img :=
    ⟨_, rfl, CrashImage.of_line hcut hno⟩
  refine ⟨img, ⟨(relocate p (commitTrace c b zs)).length, ?_⟩, fun hfreed => ?_⟩
  · rw [hrun, htrace, List.take_length_add_append, List.take_left]
    exact himg
  have hother : ∀ x, lineOf x ≠ lineOf z.1.1 →
      fileAt p img x = applyAll (commitTrace c b zs) (fileAt p w.mem) x := by
    intro x hx
    have hx' : lineOf (p + x) ≠ lineOf (p + z.1.1) := by
      rw [lineOf_add hal, lineOf_add hal]
      omega
    rw [← fileAt_applyAll, fileAt_apply, fileAt_apply, himgdef]
    dsimp only
    rw [if_neg hx', applyAll_append]
    rfl
  have hlost : fileAt p img z.1.1 ≠ z.1.2 := by
    rw [fileAt_apply, himgdef]
    dsimp only
    rw [if_pos rfl]
    exact hne
  have hd : ∀ x, (∃ f ∈ l ++ c :: r, f.InHeader x) ∨ x = e →
      fileAt p img x = applyAll (commitTrace c b zs) (fileAt p w.mem) x := by
    intro x hx
    refine hother x fun hl => ?_
    rcases hx with ⟨f, hf, h1, h2⟩ | rfl
    · have h3 := hout.headers f hf
      have h4 := hq.addr_dvd hf
      unfold lineOf at hl
      unfold Clump.InHeader at h3
      omega
    · have h3 := hout.lt
      have h4 := hq.chain.tiles.end_dvd (by decide)
      unfold lineOf at hl
      omega
  obtain ⟨hchain, hpend⟩ := h.cleared_walk hz hd
  have hnone : ∀ t, t ∉ pendings (fileAt p img) 0 (l ++ c.set .freeing :: r) := by
    intro t
    rw [hpend]
    exact List.not_mem_nil
  obtain ⟨w₃, hrun₃, hchain₃, hwords⟩ := recover_ends hq.mapped rfl hchain
    (fun f hf t ht => absurd (List.mem_flatMap.mpr ⟨f, hf, ht⟩) (hnone t))
    (fun t ht => absurd ht (hnone t)) true w.epoch
  obtain ⟨w₄, cs, hrun₄, hchain₄, hsafe⟩ := hfreed p img true w.epoch hq.mapped rfl
  obtain rfl : w₃ = w₄ := by
    rw [hrun₃] at hrun₄
    exact (Prod.ext_iff.mp hrun₄).2
  obtain ⟨rfl, -⟩ := hchain₃.unique hchain₄
  refine hlost ?_
  rw [← hsafe ⟨c.set .free, List.mem_map.mpr ⟨c.set .freeing, by simp, rfl⟩, rfl, le_refl _, le_refl _⟩ _ hzm,
    hwords _ (outside_set_iff.mpr hout).headers, outcome, hpend]
  rfl

end Freeing

end PmemExamples.Pool
