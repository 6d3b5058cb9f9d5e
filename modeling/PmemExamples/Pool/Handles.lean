import PmemExamples.Pool.Checked

/-! # Several pools in one process

A process may map several pools at once; every call names the one it works on by its handle `pmp`. But
`gclp` belongs to the process, not to a pool. A reservation made while it points into another pool
searches that one. As long as none is, the calls on one handle do what they would do alone
(`handles_independent`). -/

namespace PmemExamples.Pool
open Persist Libpmem Tiling
set_option autoImplicit false

/-- A pool of `size` bytes mapped at `pmp`. -/
structure Handle where
  pmp : ℕ
  size : ℕ

namespace Handle

/-- The offset of the end marker. -/
def last (h : Handle) : ℕ := lastClumpOff h.size

/-- The address lies in the pool. -/
def Contains (h : Handle) (a : ℕ) : Prop := h.pmp ≤ a ∧ a < h.pmp + h.size

/-- The content of the pool, by offset. -/
def pool (h : Handle) (m : Mem) : Mem := fun x => if x < h.size then fileAt h.pmp m x else 0

/-- The two pools are mapped apart. -/
def Apart (h h' : Handle) : Prop := h.pmp + h.size ≤ h'.pmp ∨ h'.pmp + h'.size ≤ h.pmp

/-- `pmemalloc_init` has opened the pool: a file it creates, or one that some process left, stopped
anywhere. The process knows the pointers `held` of some active clumps. -/
structure Opened (h : Handle) (held : List Pointer) (m : Mem) : Prop where
  mapped : Mapped h.pmp h.last
  large : pmemMinPoolSize ≤ h.size
  init : ∃ file relaxed epoch w, (∀ f, file = some f → f.size = h.size ∧ ∃ cs, Stopped h.last f.data cs) ∧
    pmemallocInit file h.size h.pmp relaxed epoch = .ok (.ok (), w) ∧ h.pool m = h.pool w.mem
  blocks : ∃ cs, Chain (h.pool m) pmemClumpOffset cs h.last ∧
    ∀ q ∈ held, ∃ c ∈ cs, c.tag = .active ∧ c.addr + 64 = q.ptr_ ∧ q.size + 64 ≤ c.size
  nodup : held.Pairwise fun q q' => q.ptr_ ≠ q'.ptr_

end Handle

/-- A process with the pools `h i`. -/
structure Process (ι : Type) where
  gclp : ℕ
  held : ι → List Pointer

/-- A call that was made, and the pointers its caller had for the pool afterwards. -/
structure Made (ι : Type) where
  handle : ι
  call : Call
  held : List Pointer

section Process
variable {ι : Type} [DecidableEq ι]

/-- The process, as a client of one pool. -/
def Process.client (s : Process ι) (i : ι) : Client := ⟨s.gclp, s.held i⟩

/-- The process after a call on pool `i` that leaves its client in the state `t`. -/
def Process.after (s : Process ι) (i : ι) (t : Client) : Process ι :=
  ⟨t.gclp, Function.update s.held i t.held⟩

/-- The state of a process that has opened the pools and made the calls `log` on them, all legal and
each meeting `cond`. -/
inductive Interleaved (h : ι → Handle) (w₀ : World) (held₀ : ι → List Pointer)
    (cond : Process ι → ι → Call → Prop) : World → Process ι → List (Made ι) → Prop
  | init : Interleaved h w₀ held₀ cond w₀ ⟨0, held₀⟩ []
  | call {w w' : World} {s : Process ι} {log : List (Made ι)} {i : ι} {c : Call} {t : Client}
      (hr : Interleaved h w₀ held₀ cond w s log) (hl : c.Legal ((h i).pool w.mem) (s.client i))
      (hc : cond s i c) (hrun : c.prog (h i).pmp (s.client i) w = (.ok t, w')) :
      Interleaved h w₀ held₀ cond w' (s.after i t) (log ++ [⟨i, c, t.held⟩])

/-- A reservation finds the cursor unset or in its own pool. -/
def OwnCursor (h : ι → Handle) (s : Process ι) (i : ι) : Call → Prop
  | .reserve _ => s.gclp = 0 ∨ (h i).Contains s.gclp
  | _ => True

end Process

namespace Handle
variable {h h' : Handle} {m m' : Mem} {evs : List Event}

theorem pool_of_lt {x : ℕ} (hx : x < h.size) : h.pool m x = fileAt h.pmp m x := if_pos hx

theorem last_add_le (hl : pmemMinPoolSize ≤ h.size) : h.last + 64 ≤ h.size := by
  simp only [last, lastClumpOff, pmemMinPoolSize, pmemChunkSize] at hl ⊢
  omega

theorem shown_of_pool (hl : pmemMinPoolSize ≤ h.size) (hm : h.pool m = h.pool m') :
    Shown h.pmp h.last (h.pool m') m := by
  intro x hx
  have := last_add_le hl
  rw [← hm, pool_of_lt (by omega)]

/-- The calls on a pool change it as they would change its content alone. -/
theorem pool_applyAll (hl : pmemMinPoolSize ≤ h.size) (hin : ∀ ev ∈ evs, ∀ x, ev.Writes x → InPool h.last x) :
    h.pool (applyAll (relocate h.pmp evs) m) = applyAll evs (h.pool m) := by
  have hle := last_add_le hl
  funext x
  by_cases hx : x < h.size
  · rw [pool_of_lt hx, fileAt_applyAll]
    exact applyAll_congr_at evs (pool_of_lt hx).symm
  · have hout : ∀ ev ∈ evs, ¬ ev.Writes x := fun ev hev hw => by
      have := (hin ev hev x hw).2
      omega
    rw [applyAll_of_not_writes hout, pool, pool, if_neg hx, if_neg hx]

theorem pool_frame (hl : pmemMinPoolSize ≤ h.size) (hap : h.Apart h')
    (hin : ∀ ev ∈ evs, ∀ x, ev.Writes x → InPool h.last x) :
    h'.pool (applyAll (relocate h.pmp evs) m) = h'.pool m := by
  have hle := last_add_le hl
  funext x
  by_cases hx : x < h'.size
  · rw [pool_of_lt hx, pool_of_lt hx, fileAt_apply, fileAt_apply]
    refine applyAll_of_not_writes (fun ev hev hw => ?_) m
    obtain ⟨o, h2, ev', hev', hw'⟩ := writes_relocate hev hw
    have h1 := (hin ev' hev' o hw').2
    rcases hap with h3 | h3 <;> omega
  · rw [pool, pool, if_neg hx, if_neg hx]

theorem not_contains {a : ℕ} (hap : h.Apart h') (ha : h.Contains a) : ¬ h'.Contains a := by
  rintro ⟨h1, h2⟩
  obtain ⟨h3, h4⟩ := ha
  rcases hap with h5 | h5 <;> omega

/-- What `pmemalloc_init` leaves of the pool is `FREE` and `ACTIVE` clumps. -/
theorem Opened.walk {held : List Pointer} (ho : h.Opened held m) : ∃ cs,
    Chain (h.pool m) pmemClumpOffset cs h.last ∧ (∀ c ∈ cs, c.tag = .free ∨ c.tag = .active) := by
  obtain ⟨hp, hl, ⟨file, relaxed, epoch, w, hfile, hinit, hpool⟩, -, -⟩ := ho
  have hle := last_add_le hl
  obtain ⟨f, hf, hsz, cs, hst⟩ : ∃ f : File, recovery h.pmp (World.boot (pmemMap h.pmp f) relaxed epoch) =
      (.ok (), w) ∧ f.size = h.size ∧ ∃ cs, Stopped h.last f.data cs := by
    cases file with
    | none =>
      have hcreate : createPool h.size = .ok _ := if_neg (by omega)
      obtain ⟨-, -, -, hc⟩ := created_chain hcreate
      rw [pmemallocInit, hcreate] at hinit
      refine ⟨_, Except.ok.inj hinit, rfl, _, Stopped.of_quiet hc fun c hcm => pending_of_settled ?_⟩
      obtain rfl : c = _ := by simpa [createdWalk] using hcm
      rfl
    | some f =>
      obtain ⟨hsz, cs, hst⟩ := hfile f rfl
      exact ⟨f, Except.ok.inj hinit, hsz, cs, hst⟩
  have hmap : Stopped h.last (fileAt h.pmp (pmemMap h.pmp f)) cs :=
    hst.congr fun x hx => fileAt_pmemMap (by omega)
  obtain ⟨w', hrun, hrec⟩ := hmap.recovered hp (w := World.boot (pmemMap h.pmp f) relaxed epoch) rfl
  obtain rfl : w' = w := congrArg Prod.snd (hrun.symm.trans hf)
  have hsame : ∀ x < h.size, h.pool m x = fileAt h.pmp w'.mem x := fun x hx => by rw [hpool, pool_of_lt hx]
  exact ⟨normalForm cs, hrec.chain.congr (fun c hc => hsame _ (by have := hrec.chain.addr_lt hc; omega))
    (hsame _ (by omega)), fun c => settled_of_mem_normalForm⟩

theorem Opened.serves {held : List Pointer} (ho : h.Opened held m) :
    Serves (h.pool m) h.last h.pmp ⟨0, held⟩ False := by
  obtain ⟨cs, hc, hstates⟩ := ho.walk
  obtain ⟨-, hl, -, ⟨cs', hc', hheld⟩, hnd⟩ := ho
  obtain ⟨rfl, -⟩ := hc.unique hc'
  have hne : cs ≠ [] := by
    rintro rfl
    have h1 : pmemClumpOffset = h.last := tiles_nil.mp hc.tiles
    simp only [pmemClumpOffset, last, lastClumpOff, pmemMinPoolSize, pmemChunkSize] at h1 hl
    omega
  have hactive : ∀ {b : Clump}, b ∈ cs.filter (fun c => c.tag = .active) → b ∈ cs ∧ b.tag = .active := fun hb => by
    simpa using hb
  refine ⟨Or.inl rfl, [], [], cs, cs.filter fun c => c.tag = .active, ?_, ⟨fun q hq => ?_,
    List.pairwise_map.mpr hnd⟩, False.elim⟩
  · exact
      { walk := hc
        search := hc
        nonempty := hne
        gap := Or.inl rfl
        states := fun c hcm => (hstates c hcm).imp_right Or.inr
        held := fun b hb => by
          obtain ⟨hbm, hbt⟩ := hactive hb
          exact ⟨Or.inr hbt, hc.word hbm, hc.size_ge hbm, hc.size_dvd hbm⟩
        place := fun b hb => Or.inl (hactive hb).1
        apart := fun b hb c hcm hbc => hc.tiles.disjoint (hactive hb).1 (hactive hcm).1 hbc }
  · obtain ⟨c, hcm, hct, hca, hcs⟩ := hheld q hq
    exact ⟨c, by simpa using ⟨hcm, hct⟩, hca, hcs⟩

end Handle

/-! ## The cursor -/

section Cursor
variable {c : Call} {p e g : ℕ} {held : List Pointer} {t : Client} {w w' : World} {d : Mem} {live : Prop}

theorem Call.run_cursor (g' : ℕ) (hc : ∀ n, c ≠ .reserve n) (h : c.prog p ⟨g, held⟩ w = (.ok t, w')) :
    t.gclp = g ∧ c.prog p ⟨g', held⟩ w = (.ok ⟨g', t.held⟩, w') := by
  obtain ⟨body, kept, hbody⟩ : ∃ (body : Prog Unit) (kept : List Pointer),
      ∀ g, c.prog p ⟨g, held⟩ = body >>= fun _ => pure ⟨g, kept⟩ := by
    cases c with
    | reserve n => exact absurd rfl (hc n)
    | store x v => exact ⟨_, _, fun _ => rfl⟩
    | onactive ptr_ parent nptr_ => exact ⟨_, _, fun _ => rfl⟩
    | onfree ptr_ parent nptr_ => exact ⟨_, _, fun _ => rfl⟩
    | activate ptr_ => exact ⟨_, _, fun _ => rfl⟩
    | free ptr_ => exact ⟨pmemallocFree p ptr_, held.filter fun q => q.ptr_ ≠ ptr_, fun _ => rfl⟩
  rw [hbody, Prog.bind_apply] at h
  rw [hbody, Prog.bind_apply]
  match hb : body w, h with
  | (.ok (), v), h =>
    obtain ⟨hres, rfl⟩ := Prod.mk.inj h
    obtain rfl := Outcome.ok.inj hres
    exact ⟨rfl, rfl⟩

theorem Call.legal_cursor (g' : ℕ) (hc : ∀ n, c ≠ .reserve n) (h : c.Legal d ⟨g, held⟩) : c.Legal d ⟨g', held⟩ := by
  cases c with
  | reserve n => exact absurd rfl (hc n)
  | store x v => exact h
  | onactive ptr_ parent nptr_ => exact h
  | onfree ptr_ parent nptr_ => exact h
  | activate ptr_ => exact h
  | free ptr_ => exact h

theorem reserve_cursor {n : ℕ} (hp : Mapped p e) (hs : Serves d e p ⟨g, held⟩ live) (hm : Shown p e d w.mem)
    (hrun : (Call.reserve n).prog p ⟨g, held⟩ w = (.ok t, w')) :
    t.gclp = g ∨ t.gclp ≠ 0 ∧ p ≤ t.gclp ∧ t.gclp + 64 ≤ p + e := by
  obtain ⟨hg, ls, ts, us, hs, hheap, -, -⟩ := hs
  have hreturn : ∀ {r : Reserved} {evs : List Event}, Runs false (pmemallocReserve p g n) w.mem r evs →
      t.gclp = r.gclp := by
    intro r evs hr
    obtain ⟨v, evs', hrun', -⟩ := hr w rfl
    have hprog : (Call.reserve n).prog p ⟨g, held⟩ w = (.ok ⟨r.gclp, _⟩, v) := Prog.bind_ok hrun'
    exact congrArg Client.gclp (Outcome.ok.inj (congrArg Prod.fst (hrun.symm.trans hprog)))
  rcases reserve_runs false hp n hg (hheap.shown hm).search hheap.nonempty with
    ⟨l, c, r, hsplit, -, -, hr⟩ | ⟨-, hr⟩
  · have hcm : c ∈ ts ++ us := by rw [hsplit]; simp
    have hlow : pmemClumpOffset ≤ c.addr := by
      rcases List.mem_append.mp hcm with hc | hc
      · exact hheap.le_of_fixed (Or.inr (Or.inl ⟨c, hc, rfl⟩))
      · exact hheap.le_of_fixed (Or.inl ⟨c, List.mem_append_right _ hc, rfl⟩)
    have hhigh := hheap.search.addr_lt hcm
    have hgclp : t.gclp = p + c.addr := hreturn hr
    simp only [pmemClumpOffset] at hlow
    exact Or.inr ⟨by omega, by omega, by omega⟩
  · exact Or.inl (hreturn hr)

end Cursor

/-! ## The calls on one pool, alone -/

section Alone
variable {ι : Type} [DecidableEq ι] {h : ι → Handle} {w₀ w w' v : World} {held₀ : ι → List Pointer}
  {s s' : Process ι} {log : List (Made ι)} {i j : ι} {c : Call} {t : Client}

/-- The run `(v, s')` is the run `(w, s)` with the calls on the other pools left out. Its cursor is the
same where the calls on pool `i` may look at it. -/
structure Alone (h : ι → Handle) (w₀ : World) (held₀ : ι → List Pointer) (i : ι) (w : World) (s : Process ι)
    (log : List (Made ι)) (v : World) (s' : Process ι) : Prop where
  run : Interleaved h w₀ held₀ (fun _ _ _ => True) v s' (log.filter fun c => c.handle = i)
  held : s'.held i = s.held i
  pool : (h i).pool v.mem = (h i).pool w.mem
  unset : s.gclp = 0 → s'.gclp = 0
  own : (h i).Contains s.gclp → s'.gclp = s.gclp
  serves : Serves ((h i).pool w.mem) (h i).last (h i).pmp ⟨s'.gclp, s.held i⟩ False

/-- What a call does to the process, and to the one that makes the calls on its pool alone. -/
theorem Alone.goes (hp : Mapped (h i).pmp (h i).last) (hl : pmemMinPoolSize ≤ (h i).size)
    (ha : Alone h w₀ held₀ i w s log v s') (hlegal : c.Legal ((h i).pool w.mem) (s.client i))
    (hc : OwnCursor h s i c) : ∃ t t' w' v' evs,
      c.prog (h i).pmp (s.client i) w = (.ok t, w') ∧ w'.mem = applyAll (relocate (h i).pmp evs) w.mem ∧
      c.prog (h i).pmp (s'.client i) v = (.ok t', v') ∧ v'.mem = applyAll (relocate (h i).pmp evs) v.mem ∧
      (∀ ev ∈ evs, ∀ x, ev.Writes x → InPool (h i).last x) ∧ c.Legal ((h i).pool v.mem) (s'.client i) ∧
      (t.gclp = s.gclp ∨ t.gclp ≠ 0 ∧ (h i).Contains t.gclp) ∧
      (t.gclp = 0 → t'.gclp = 0) ∧ ((h i).Contains t.gclp → t'.gclp = t.gclp) ∧ t'.held = t.held ∧
      Serves (applyAll evs ((h i).pool w.mem)) (h i).last (h i).pmp ⟨t'.gclp, t.held⟩ False := by
  have hclient : s'.client i = ⟨s'.gclp, s.held i⟩ := by rw [Process.client, ha.held]
  have hshown := Handle.shown_of_pool hl (m := w.mem) rfl
  have hshown' := Handle.shown_of_pool hl ha.pool
  by_cases hres : ∃ n, c = .reserve n
  · -- both find the same cursor
    obtain ⟨n, rfl⟩ := hres
    have hsame : s'.client i = s.client i := by
      rw [hclient, Process.client]
      rcases hc with h0 | hown
      · rw [ha.unset h0, h0]
      · rw [ha.own hown]
    have hserves := ha.serves
    rw [← hclient, hsame] at hserves
    obtain ⟨t, evs, hruns, -, hin, hafter⟩ := Call.goes hp hserves hlegal
    obtain ⟨w', evs₁, hrun, -⟩ := hruns w.mem hshown w rfl
    obtain ⟨v', evs₂, hrun', -⟩ := hruns v.mem hshown' v rfl
    have hmem := ((hruns w.mem hshown).mem_eq rfl).2
    have hmem' := ((hruns v.mem hshown').mem_eq rfl).2
    rw [hrun] at hmem
    rw [hrun'] at hmem'
    refine ⟨t, t, w', v', evs, hrun, hmem, by rw [hsame, hrun'], hmem', hin, by rwa [ha.pool, hsame], ?_,
      id, fun _ => rfl, rfl, ?_⟩
    · have hle := Handle.last_add_le hl
      rcases reserve_cursor hp hserves hshown hrun with hg | ⟨h0, h1, h2⟩
      · exact Or.inl hg
      · exact Or.inr ⟨h0, h1, by omega⟩
    · obtain ⟨hg, ls, ts, us, hs, hheap, hb, -⟩ := hafter
      exact ⟨hg, ls, ts, us, hs, hheap, hb, False.elim⟩
  · have hnot : ∀ n, c ≠ .reserve n := fun n hn => hres ⟨n, hn⟩
    have hlegal' := Call.legal_cursor s'.gclp hnot hlegal
    obtain ⟨t', evs, hruns, -, hin, hafter⟩ := Call.goes hp ha.serves hlegal'
    obtain ⟨w', evs₁, hrun, -⟩ := hruns w.mem hshown w rfl
    obtain ⟨v', evs₂, hrun', -⟩ := hruns v.mem hshown' v rfl
    have hmem := ((hruns w.mem hshown).mem_eq rfl).2
    have hmem' := ((hruns v.mem hshown').mem_eq rfl).2
    rw [hrun] at hmem
    rw [hrun'] at hmem'
    obtain ⟨hg', hown⟩ := Call.run_cursor s.gclp hnot hrun
    refine ⟨⟨s.gclp, t'.held⟩, t', w', v', evs, hown, hmem, by rw [hclient, hrun'], hmem', hin,
      by rwa [ha.pool, hclient], Or.inl rfl, fun h0 => hg'.trans (ha.unset h0), fun h0 => hg'.trans (ha.own h0),
      rfl, ?_⟩
    obtain ⟨hg, ls, ts, us, hs, hheap, hb, -⟩ := hafter
    exact ⟨hg, ls, ts, us, hs, hheap, hb, False.elim⟩

theorem Alone.call (hp : Mapped (h i).pmp (h i).last) (hl : pmemMinPoolSize ≤ (h i).size)
    (ha : Alone h w₀ held₀ i w s log v s') (hlegal : c.Legal ((h i).pool w.mem) (s.client i))
    (hc : OwnCursor h s i c) (hrun : c.prog (h i).pmp (s.client i) w = (.ok t, w')) :
    ∃ v' s'', Alone h w₀ held₀ i w' (s.after i t) (log ++ [⟨i, c, t.held⟩]) v' s'' := by
  obtain ⟨t₁, t', w₁, v', evs, hrun₁, hmem, hrun', hmem', hin, hlegal', -, hunset, hown, hheld, hserves⟩ :=
    ha.goes hp hl hlegal hc
  obtain ⟨hres, rfl⟩ := Prod.mk.inj (hrun.symm.trans hrun₁)
  obtain rfl := Outcome.ok.inj hres
  refine ⟨v', s'.after i t', ?_, ?_, ?_, hunset, hown, ?_⟩
  · have hstep := ha.run.call hlegal' trivial hrun'
    rw [hheld] at hstep
    rw [List.filter_append]
    simpa using hstep
  · simp [Process.after, hheld]
  · rw [hmem, hmem', Handle.pool_applyAll hl hin, Handle.pool_applyAll hl hin, ha.pool]
  · rw [hmem, Handle.pool_applyAll hl hin]
    simpa [Process.after] using hserves

theorem Alone.other (hp : Mapped (h j).pmp (h j).last) (hl : pmemMinPoolSize ≤ (h j).size) (hij : j ≠ i)
    (hap : (h j).Apart (h i)) (ha : Alone h w₀ held₀ i w s log v s') {v₁ : World} {s₁ : Process ι}
    (hb : Alone h w₀ held₀ j w s log v₁ s₁) (hlegal : c.Legal ((h j).pool w.mem) (s.client j))
    (hc : OwnCursor h s j c) (hrun : c.prog (h j).pmp (s.client j) w = (.ok t, w')) :
    Alone h w₀ held₀ i w' (s.after j t) (log ++ [⟨j, c, t.held⟩]) v s' := by
  obtain ⟨t₁, -, w₁, -, evs, hrun₁, hmem, -, -, hin, -, hcursor, -⟩ := hb.goes hp hl hlegal hc
  obtain ⟨hres, rfl⟩ := Prod.mk.inj (hrun.symm.trans hrun₁)
  obtain rfl := Outcome.ok.inj hres
  have hpool : (h i).pool w'.mem = (h i).pool w.mem := by rw [hmem, Handle.pool_frame hl hap hin]
  have hheld : (s.after j t).held i = s.held i := Function.update_of_ne hij.symm _ _
  refine ⟨?_, ha.held.trans hheld.symm, ha.pool.trans hpool.symm, fun h0 => ?_, fun h0 => ?_, ?_⟩
  · rw [List.filter_append]
    simpa [hij] using ha.run
  · rcases hcursor with hg | ⟨hne, -⟩
    · exact ha.unset (hg.symm.trans h0)
    · exact absurd h0 hne
  · rcases hcursor with hg | ⟨-, hin⟩
    · have h1 : (h i).Contains s.gclp := by rwa [← hg]
      exact (ha.own h1).trans hg.symm
    · exact absurd h0 (Handle.not_contains hap hin)
  · rw [hpool, hheld]
    exact ha.serves

end Alone

/-! ## Independence -/

section Independence
variable {ι : Type} [DecidableEq ι] {h : ι → Handle} {w₀ w : World} {held₀ : ι → List Pointer}
  {s : Process ι} {log : List (Made ι)}

theorem Interleaved.alone (hopen : ∀ i, (h i).Opened (held₀ i) w₀.mem) (hap : Pairwise fun i j => (h i).Apart (h j))
    (hr : Interleaved h w₀ held₀ (OwnCursor h) w s log) : ∀ i, ∃ v s', Alone h w₀ held₀ i w s log v s' := by
  induction hr with
  | init =>
    exact fun i => ⟨w₀, ⟨0, held₀⟩, .init, rfl, rfl, fun _ => rfl, fun _ => rfl, (hopen i).serves⟩
  | @call w w' s log j c t _ hl hc hrun ih =>
    intro i
    obtain ⟨v₁, s₁, hj⟩ := ih j
    by_cases hij : j = i
    · subst hij
      exact hj.call (hopen j).mapped (hopen j).large hl hc hrun
    · obtain ⟨v, s', hi⟩ := ih i
      exact ⟨v, s', hi.other (hopen j).mapped (hopen j).large hij (hap hij) hj hl hc hrun⟩

/-- The pointer is that of a reserved or active block of the pool, big enough. -/
def Inside (d : Mem) (e : ℕ) (q : Pointer) : Prop := ∃ b : Clump, b.addr + 64 = q.ptr_ ∧ d b.addr = b.word ∧
  b.tag.IsHeld ∧ q.size + 64 ≤ b.size ∧ pmemClumpOffset ≤ b.addr ∧ b.addr + b.size ≤ e

theorem Serves.inside {d : Mem} {e p : ℕ} {s : Client} {live : Prop} (hs : Serves d e p s live) :
    ∀ q ∈ s.held, Inside d e q := by
  obtain ⟨-, ls, ts, us, hs, hheap, hb, -⟩ := hs
  intro q hq
  obtain ⟨b, hbm, hba, hbs⟩ := hb.block q hq
  obtain ⟨ht, hw, -⟩ := hheap.held b hbm
  exact ⟨b, hba, hw, ht, hbs, hheap.le_of_fixed (Or.inr (Or.inr (Or.inl ⟨b, hbm, rfl⟩))), hheap.end_le hbm⟩

/-- The calls on pool `i` returned what they would if the others had been left out, and left the same
content, and what they returned are blocks of the pool. -/
def Independent (h : ι → Handle) (w₀ : World) (held₀ : ι → List Pointer) (w : World) (s : Process ι)
    (log : List (Made ι)) (i : ι) : Prop :=
  (∃ v s', Interleaved h w₀ held₀ (fun _ _ _ => True) v s' (log.filter fun c => c.handle = i) ∧
    s'.held i = s.held i ∧ (h i).pool v.mem = (h i).pool w.mem) ∧
  ∀ q ∈ s.held i, Inside ((h i).pool w.mem) (h i).last q

/-- While no reservation finds the cursor in another pool, the calls on each pool are independent of the
others, and every further call returns and changes no other pool. -/
theorem handles_independent (hopen : ∀ i, (h i).Opened (held₀ i) w₀.mem)
    (hap : Pairwise fun i j => (h i).Apart (h j)) (hr : Interleaved h w₀ held₀ (OwnCursor h) w s log) (i : ι) :
    Independent h w₀ held₀ w s log i ∧
      ∀ c : Call, c.Legal ((h i).pool w.mem) (s.client i) → OwnCursor h s i c →
        ∃ t w', c.prog (h i).pmp (s.client i) w = (.ok t, w') ∧
          ∀ j ≠ i, (h j).pool w'.mem = (h j).pool w.mem := by
  obtain ⟨v, s', ha⟩ := hr.alone hopen hap i
  refine ⟨⟨⟨v, s', ha.run, ha.held, ha.pool⟩, ha.serves.inside⟩, fun c hl hc => ?_⟩
  obtain ⟨t, -, w', -, evs, hrun, hmem, -, -, hin, -⟩ := ha.goes (hopen i).mapped (hopen i).large hl hc
  refine ⟨t, w', hrun, fun j hj => ?_⟩
  rw [hmem, Handle.pool_frame (hopen i).large (hap hj.symm) hin]

end Independence

/-! ## Two reservations -/

/-- Two pools of a megabyte. -/
def twoPools (i : Bool) : Handle := ⟨bif i then 2097152 else 65536, 1048576⟩

/-- Both just created, the second after the first. -/
def twoPoolsOpened : World :=
  let f : File := ⟨1048576, applyAll [.store 16384 1032128, .store 12288 signature0, .store 12296 signature1,
    .store 12304 1048576] fun _ => 0⟩
  World.boot (fun a => if a < 2097152 then pmemMap 65536 f a else pmemMap 2097152 f a) false fun _ => true

theorem twoPools_apart : Pairwise fun i j => (twoPools i).Apart (twoPools j) := by
  intro i j hij
  cases i <;> cases j
  · exact absurd rfl hij
  · exact Or.inl (by decide)
  · exact Or.inr (by decide)
  · exact absurd rfl hij

theorem twoPools_opened (i : Bool) : (twoPools i).Opened [] twoPoolsOpened.mem := by
  have hview : ∀ x, (twoPools i).pool twoPoolsOpened.mem x = (twoPools i).pool (World.boot (pmemMap (twoPools i).pmp
      ⟨1048576, applyAll [.store 16384 1032128, .store 12288 signature0, .store 12296 signature1,
        .store 12304 1048576] fun _ => 0⟩) false fun _ => true).mem x := by
    intro x
    by_cases hx : x < 1048576
    · rw [Handle.pool_of_lt hx, Handle.pool_of_lt hx]
      cases i
      · exact if_pos (show 65536 + x < 2097152 by omega)
      · exact if_neg (show ¬ 2097152 + x < 2097152 by omega)
    · exact (if_neg hx).trans (if_neg hx).symm
  have hwalk : Chain ((twoPools i).pool twoPoolsOpened.mem) pmemClumpOffset [⟨16384, 1032128, .free⟩]
      (twoPools i).last := by
    cases i <;> exact ⟨⟨rfl, by decide, by decide, rfl⟩, by decide +kernel, by decide +kernel⟩
  refine ⟨?_, le_refl _, ⟨none, false, fun _ => true, _, by simp, ?_, funext hview⟩, ⟨_, hwalk, by simp⟩,
    List.Pairwise.nil⟩
  · cases i <;> exact ⟨by decide, by decide⟩
  · cases i
    · exact init_megabytePool
    · show pmemallocInit none 1048576 2097152 false (fun _ => true) = _
      rfl

/-- The pools after a reservation in the first, and after one more in the second. -/
def firstReserved : World := (Call.prog 65536 ⟨0, []⟩ (.reserve 10) twoPoolsOpened).2
def bothReserved : World := (Call.prog 2097152 ⟨81920, []⟩ (.reserve 10) firstReserved).2

theorem firstReserved_interleaved {cond : Process Bool → Bool → Call → Prop}
    (hc : cond ⟨0, fun _ => []⟩ false (.reserve 10)) :
    Interleaved twoPools twoPoolsOpened (fun _ => []) cond firstReserved
      ⟨81920, Function.update (fun _ => []) false [⟨16448, 10⟩]⟩ [⟨false, .reserve 10, [⟨16448, 10⟩]⟩] :=
  Interleaved.init.call (t := ⟨81920, [⟨16448, 10⟩]⟩) legal_ten hc (Prod.ext (by decide +kernel) rfl)

/-- The pool that a process left inside `pmemalloc_onfree`, initialised again. -/
def foundAgain : World :=
  (recovery 2097152 (World.boot (pmemMap 2097152 ⟨1048576, fileAt 65536 onfreeStopped⟩) false fun _ => true)).2

/-- The first pool created, the second found with an active block. -/
def foundOpened : World :=
  World.boot (fun a => if a < 2097152 then megabytePool.mem a else foundAgain.mem a) false fun _ => true

/-- The process knows the active block. -/
def foundHeld (i : Bool) : List Pointer := bif i then [⟨16448, 10⟩] else []

theorem foundOpened_opened (i : Bool) : (twoPools i).Opened (foundHeld i) foundOpened.mem := by
  have hview : ∀ x, (twoPools i).pool foundOpened.mem x =
      (twoPools i).pool (bif i then foundAgain else megabytePool).mem x := by
    intro x
    by_cases hx : x < 1048576
    · rw [Handle.pool_of_lt hx, Handle.pool_of_lt hx]
      cases i
      · exact if_pos (show 65536 + x < 2097152 by omega)
      · exact if_neg (show ¬ 2097152 + x < 2097152 by omega)
    · exact (if_neg hx).trans (if_neg hx).symm
  cases i with
  | false =>
    refine ⟨⟨by decide, by decide⟩, le_refl _, ⟨none, false, fun _ => true, _, by simp, init_megabytePool,
      funext hview⟩, ⟨[⟨16384, 1032128, .free⟩], ?_, by simp [foundHeld]⟩, List.Pairwise.nil⟩
    exact ⟨⟨rfl, by decide, by decide, rfl⟩, by decide +kernel, by decide +kernel⟩
  | true =>
    have hp : Mapped 65536 (lastClumpOff 1048576) := ⟨by decide, by decide⟩
    obtain ⟨w₀, hinit, h₀, -⟩ := init_serves (show pmemMinPoolSize ≤ 1048576 by decide) hp false fun _ => true
    obtain rfl : megabytePool = w₀ := by
      rw [init_megabytePool] at hinit
      exact congrArg Prod.snd (Except.ok.inj hinit)
    have hstopped := (Call.stopped hp (reached_activeBlock.serves hp h₀) legal_onfree ⟨3, rfl⟩).1
    refine ⟨⟨by decide, by decide⟩, le_refl _, ⟨some ⟨1048576, fileAt 65536 onfreeStopped⟩, false, fun _ => true,
      foundAgain, ?_, congrArg Except.ok (Prod.ext (by decide +kernel) rfl), funext hview⟩,
      ⟨[⟨16384, 128, .active⟩, ⟨16512, 1032000, .free⟩], ?_, ?_⟩, List.pairwise_singleton _ _⟩
    · rintro f ⟨⟩
      exact ⟨rfl, hstopped⟩
    · exact ⟨⟨rfl, by decide, by decide, rfl, by decide, by decide, rfl⟩, by decide +kernel, by decide +kernel⟩
    · rintro q hq
      obtain rfl := List.mem_singleton.mp hq
      exact ⟨_, List.mem_cons_self, rfl, rfl, by decide⟩

/-- A block reserved in the first pool, the one of the second freed, the first activated, and one more
reserved. -/
def foundReserved : World := (Call.prog 65536 ⟨0, []⟩ (.reserve 10) foundOpened).2
def foundFreed : World := (Call.prog 2097152 ⟨81920, [⟨16448, 10⟩]⟩ (.free 16448) foundReserved).2
def foundActivated : World := (Call.prog 65536 ⟨81920, [⟨16448, 10⟩]⟩ (.activate 16448) foundFreed).2
def foundUsed : World := (Call.prog 65536 ⟨81920, [⟨16448, 10⟩]⟩ (.reserve 10) foundActivated).2

/-- Calls on both pools, each of which is as after its own calls alone. -/
theorem handles_independent_foundUsed : ∃ s log,
    Interleaved twoPools foundOpened foundHeld (OwnCursor twoPools) foundUsed s log ∧
      log.map (fun c => (c.handle, c.call)) =
        [(false, .reserve 10), (true, .free 16448), (false, .activate 16448), (false, .reserve 10)] ∧
      ∀ i, Independent twoPools foundOpened foundHeld foundUsed s log i := by
  have h₁ : Interleaved twoPools foundOpened foundHeld (OwnCursor twoPools) foundReserved _ _ :=
    Interleaved.init.call (i := false) (c := .reserve 10) (t := ⟨81920, [⟨16448, 10⟩]⟩) legal_ten (Or.inl rfl)
      (Prod.ext (by decide +kernel) rfl)
  have hentries : onEntries ((twoPools true).pool foundReserved.mem) 0 16384 onUp = [(4096, 0)] := by
    decide +kernel
  have h₂ : Interleaved twoPools foundOpened foundHeld (OwnCursor twoPools) foundFreed _ _ :=
    h₁.call (i := true) (c := .free 16448) (t := ⟨81920, []⟩)
      (Or.inr ⟨by decide +kernel, fun t ht => by
        rw [show headerOf 16448 = 16384 from rfl, hentries, List.mem_singleton] at ht
        exact ht ▸ owns_static (by decide) ⟨by decide, by decide⟩⟩) trivial (Prod.ext (by decide +kernel) rfl)
  have hnone : onEntries ((twoPools false).pool foundFreed.mem) 0 16384 onUp = [] := by decide +kernel
  have h₃ : Interleaved twoPools foundOpened foundHeld (OwnCursor twoPools) foundActivated _ _ :=
    h₂.call (i := false) (c := .activate 16448) (t := ⟨81920, [⟨16448, 10⟩]⟩)
      ⟨by decide +kernel, fun t ht => by
        rw [show headerOf 16448 = 16384 from rfl, hnone] at ht
        cases ht⟩ trivial (Prod.ext (by decide +kernel) rfl)
  have h₄ : Interleaved twoPools foundOpened foundHeld (OwnCursor twoPools) foundUsed _ _ :=
    h₃.call (i := false) (c := .reserve 10) (t := ⟨82048, [⟨16576, 10⟩, ⟨16448, 10⟩]⟩) legal_ten
      (Or.inr ⟨by decide, by decide⟩) (Prod.ext (by decide +kernel) rfl)
  exact ⟨_, _, h₄, rfl, fun i => (handles_independent foundOpened_opened twoPools_apart h₄ i).1⟩

/-- The second reservation takes a block of the first pool and returns an offset outside its own, though
alone it would return the first block of its pool. -/
theorem bothReserved_not_independent :
    (∀ i, (twoPools i).Opened [] twoPoolsOpened.mem) ∧ (Pairwise fun i j => (twoPools i).Apart (twoPools j)) ∧
      ∃ s log, Interleaved twoPools twoPoolsOpened (fun _ => []) (fun _ _ _ => True) bothReserved s log ∧
        ¬ Independent twoPools twoPoolsOpened (fun _ => []) bothReserved s log true ∧
        (twoPools false).pool bothReserved.mem 16512 ≠ (twoPools false).pool firstReserved.mem 16512 := by
  refine ⟨twoPools_opened, twoPools_apart, _, _, (firstReserved_interleaved trivial).call (i := true)
    (c := .reserve 10) (t := ⟨82048, [⟨18446744073707536576, 10⟩]⟩) legal_ten trivial
    (Prod.ext (by decide +kernel) rfl), ?_, by decide +kernel⟩
  rintro ⟨-, hinside⟩
  obtain ⟨b, hba, -, -, -, -, hend⟩ := hinside ⟨18446744073707536576, 10⟩ (by simp [Process.after])
  have hlast : (twoPools true).last = 1048512 := rfl
  dsimp only at hba
  omega

end PmemExamples.Pool
