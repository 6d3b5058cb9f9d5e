import PmemExamples.Pool.Live
import PmemExamples.Pool.Validate

/-! # A stopped process, `pmemalloc_init`, `pmemalloc_check`

Recovery clears the list of every clump whose state it changes, and of no other. An assignment
registered with `pmemalloc_onfree`, or left behind by freeing a reserved clump, stays in a header that
recovery keeps, and the checker fails on it (`checked_iff`). -/

namespace PmemExamples.Pool
open Persist Libpmem Tiling
set_option autoImplicit false

/-- The lists that recovery keeps are empty: those of the `ACTIVE` clumps, and of the `FREE` ones that no
clump recovering to `FREE` is right in front of. -/
def KeptClear (d : Mem) (cs : List Clump) : Prop := ∀ l b r, cs = l ++ b :: r →
  (b.tag = .active ∨ b.tag = .free ∧ ∀ c ∈ l.getLast?, c.tag.settle = .active) → OnClear d b.addr

/-! ## The words a run leaves alone -/

section Run
variable {d d' m : Mem} {e p : ℕ} {cs : List Clump} {s : Client} {live : Prop}

theorem Call.stopped (hp : Mapped p e) {w : World} (hs : Serves (fileAt p w.mem) e p s live) {c : Call}
    (hl : c.Legal (fileAt p w.mem) s) (hstop : StopDuring (c.prog p s) w m) :
    (∃ cs, Stopped e (fileAt p m) cs) ∧ ∀ x, ¬ InPool e x → fileAt p m x = fileAt p w.mem x := by
  obtain ⟨s', evs, hruns, hcut, hin, -⟩ := Call.goes hp hs hl
  obtain ⟨j, rfl⟩ := (hruns w.mem fun _ _ => rfl).stop hstop
  rw [relocate_take, fileAt_applyAll]
  exact ⟨hcut j, fun x hx => applyAll_of_not_writes
    (fun ev hev hw => hx (hin ev (List.mem_of_mem_take hev) x hw)) _⟩

theorem Reached.frame {w₀ w : World} {cond : Mem → Client → Call → Prop} (hp : Mapped p e)
    (h₀ : Serves (fileAt p w₀.mem) e p ⟨0, []⟩ True) (hr : Reached p w₀ cond w s) {x : ℕ}
    (hx : ¬ InPool e x) : fileAt p w.mem x = fileAt p w₀.mem x := by
  induction hr with
  | init => rfl
  | @call w w' s s' c h hl hc hrun ih =>
    obtain ⟨s'', evs, hruns, -, hin, -⟩ := Call.goes hp (h.serves hp h₀) hl
    obtain ⟨-, hmem⟩ := (hruns w.mem fun _ _ => rfl).mem_eq rfl
    rw [hrun] at hmem
    rw [hmem, fileAt_applyAll, ← ih]
    exact applyAll_of_not_writes (fun ev hev hw => hx (hin ev hev x hw)) _

/-! ## Recovery of the stopped file -/

theorem Stopped.congr (h : Stopped e d cs) (hd : ∀ x, x < e + 64 → d' x = d x) : Stopped e d' cs := by
  have hheader : ∀ c ∈ cs, ∀ x, c.InHeader x → d' x = d x := by
    intro c hc x hx
    have := h.chain.addr_lt hc
    have := hx.2
    exact hd x (by omega)
  have hpend : pendings d' 0 cs = pendings d 0 cs := pendings_congr hheader
  refine ⟨h.chain.congr (fun c hc => hheader c hc _ (addr_inHeader c)) (hd e (by omega)), fun c hc t ht => ?_,
    fun t ht => h.within t (hpend ▸ ht), fun t ht => h.inPool t (hpend ▸ ht)⟩
  rw [pending_congr (hheader c hc)] at ht
  exact h.placed c hc t ht

/-- What recovery leaves of a stopped file. -/
structure Recovered (e : ℕ) (d : Mem) (cs : List Clump) (d' : Mem) : Prop where
  chain : Chain d' pmemClumpOffset (normalForm cs) e
  offs : ∀ c ∈ normalForm cs, ∃ b ∈ cs, b.addr = c.addr ∧ ∀ i < 3, d' (onOff c.addr i) = finalOff d b i
  frame : ∀ x, ¬ InPool e x → d' x = d x
  words : ∀ x, (∀ c ∈ cs, ¬ c.InHeader x) → d' x = outcome d 0 cs x

theorem Stopped.recovered (hp : Mapped p e) {w : World} (hw : fileAt p w.mem = d) (h : Stopped e d cs) :
    ∃ w', recovery p w = (.ok (), w') ∧ Recovered e d cs (fileAt p w'.mem) := by
  subst hw
  have hruns := recovery_runs_at hp h.chain h.placed h.within
  obtain ⟨hres, hmem⟩ := hruns.mem_eq rfl
  obtain ⟨cs', hso, hfull⟩ := recoveryEvents_cut h.chain h.placed
    (recoveryEvents (fileAt p w.mem) 0 cs).length
  rw [List.take_length, hfull (le_refl _)] at hso
  refine ⟨_, Prod.ext hres rfl, ?_⟩
  rw [hmem, fileAt_applyAll]
  refine ⟨hso.chain, fun c hc => ?_, fun x hx => applyAll_of_not_writes (fun ev hev hw => hx ?_) _,
    fun x hx => recovery_words hx⟩
  · obtain ⟨b, hb, hba, hbo⟩ := hso.origin c hc
    exact ⟨b, hb, hba, fun i hi => (finalOff_normalForm hc i).symm.trans (hbo i hi)⟩
  · have hhead : ∀ c ∈ cs, ∀ x, c.InHeader x → InPool e x := by
      intro c hc x hx
      have h1 := h.chain.addr_lt hc
      have h2 := (h.chain.tiles.bounds hc).1
      obtain ⟨h3, h4⟩ := hx
      exact ⟨Or.inr (by omega), by omega⟩
    rcases List.mem_append.mp hev with hev | hev
    · obtain ⟨c, hc, hev⟩ := List.mem_flatMap.mp hev
      rcases writes_recoverEvents hev hw with hin | ⟨t, ht, rfl⟩
      · exact hhead c hc x hin
      · exact h.inPool t (List.mem_flatMap.mpr ⟨c, hc, ht⟩)
    · obtain ⟨c, hc, rfl⟩ := writes_mergeEvents hev hw
      obtain ⟨b, hb, rfl⟩ := List.mem_map.mp (by simpa using hc)
      exact hhead b hb _ (addr_inHeader b)

theorem kept_iff (hc : Chain d pmemClumpOffset cs e) {l r : List Clump} {b : Clump} (hcs : cs = l ++ b :: r) :
    (b.tag.settle = b.tag ∧ ∃ c ∈ normalForm cs, c.addr = b.addr) ↔
      b.tag = .active ∨ b.tag = .free ∧ ∀ c ∈ l.getLast?, c.tag.settle = .active := by
  subst hcs
  have htiles : Tiles 64 pmemClumpOffset (l.map Clump.settle ++ b.settle :: r.map Clump.settle) e := by
    have := hc.tiles.retag (f := State.settle)
    rwa [← Clump.settle_eq_retag, List.map_append, List.map_cons] at this
  have hfree : ∀ t : State, t.settle.isFree = false ↔ t.settle = .active := by
    intro t
    cases t <;> decide
  cases htag : b.tag with
  | active =>
    refine ⟨fun _ => Or.inl rfl, fun _ => ⟨rfl, b, mem_normalForm_of_active (by simp) htag, rfl⟩⟩
  | free =>
    have hb : b.settle.tag.isFree = true := by rw [Clump.settle_tag, htag]; rfl
    have hiff := mem_addr_mergeRuns_iff hb htiles
    rw [← List.map_cons, ← List.map_append] at hiff
    have hlast : (∀ c ∈ (l.map Clump.settle).getLast?, c.tag.isFree = false) ↔
        ∀ c ∈ l.getLast?, c.tag.settle = .active := by
      rw [List.getLast?_map]
      simp only [Option.mem_def, Option.map_eq_some_iff, forall_exists_index, and_imp,
        forall_apply_eq_imp_iff₂, Clump.settle_tag, hfree]
    rw [show (∃ c ∈ normalForm (l ++ b :: r), c.addr = b.addr) ↔ ∀ c ∈ l.getLast?, c.tag.settle = .active from
      hiff.trans hlast]
    simp [State.settle]
  | reserved => simp [State.settle]
  | activating => simp [State.settle]
  | freeing => simp [State.settle]

/-- The lists of the recovered walk are empty if those that recovery kept are. -/
theorem Recovered.clear_iff (hc : Chain d pmemClumpOffset cs e) (h : Recovered e d cs d') :
    (∀ c ∈ normalForm cs, OnClear d' c.addr) ↔ KeptClear d cs := by
  have hlt : ∀ {i : ℕ}, i ∈ onUp → i < 3 := lt_of_mem_onUp
  constructor
  · intro hall l b r hcs hb
    obtain ⟨hset, c, hcm, hca⟩ := (kept_iff hc hcs).mpr hb
    obtain ⟨b', hb', hba, ho⟩ := h.offs c hcm
    have hbm : b ∈ cs := by rw [hcs]; simp
    obtain rfl := hc.tiles.eq_of_addr hb' hbm (by omega)
    intro i hi
    have := ho i (hlt hi)
    rw [finalOff_of_settled hset, hall c hcm i hi] at this
    exact this.symm
  · intro hkept c hcm i hi
    obtain ⟨b, hb, hba, ho⟩ := h.offs c hcm
    rw [ho i (hlt hi)]
    by_cases hset : b.tag.settle = b.tag
    · obtain ⟨l, r, hcs⟩ := List.append_of_mem hb
      rw [finalOff_of_settled hset]
      exact hkept l b r hcs ((kept_iff hc hcs).mp ⟨hset, c, hcm, hba.symm⟩) i hi
    · exact finalOff_of_unsettled hset i

end Run

/-- Wherever a process with legal calls stops, `pmemalloc_init` leaves a pool of `FREE` and `ACTIVE`
clumps, and `pmemalloc_check` accepts it if and only if the lists that recovery keeps are empty. -/
theorem checked_iff {size p p' p'' : ℕ} (hsize : pmemMinPoolSize ≤ size) (hp : Mapped p (lastClumpOff size))
    (hp' : Mapped p' (lastClumpOff size)) (hfit : p'' + size ≤ 2 ^ 64) (relaxed relaxed' : Bool)
    (epoch epoch' : ℕ → Bool) : ∃ w₀, pmemallocInit none size p relaxed epoch = .ok (.ok (), w₀) ∧
      ∀ w s (c : Call) m, Reached p w₀ (fun _ _ _ => True) w s → c.Legal (fileAt p w.mem) s →
        StopDuring (c.prog p s) w m → ∃ cs w' cs',
          Chain (fileAt p m) pmemClumpOffset cs (lastClumpOff size) ∧
          pmemallocInit (some ⟨size, fileAt p m⟩) size p' relaxed' epoch' = .ok (.ok (), w') ∧
          Chain (fileAt p' w'.mem) pmemClumpOffset cs' (lastClumpOff size) ∧
          (∀ b ∈ cs', b.tag = .free ∨ b.tag = .active) ∧
          ((pmemallocCheck loopFuel size p'' (pmemMap p'' ⟨size, fileAt p' w'.mem⟩)).1 = .ok () ↔
            KeptClear (fileAt p m) cs) := by
  obtain ⟨w₀, hinit, h₀, hsig₀, hsig₁⟩ := init_serves hsize hp relaxed epoch
  refine ⟨w₀, hinit, fun w s c m hr hl hstop => ?_⟩
  obtain ⟨⟨cs, hst⟩, hframe⟩ := Call.stopped hp (hr.serves hp h₀) hl hstop
  have hlarge : 1048576 ≤ size := hsize
  have he : lastClumpOff size = size / 64 * 64 - 64 := rfl
  -- the file as the next process maps it
  have hmap : ∀ x < size, fileAt p' (pmemMap p' ⟨size, fileAt p m⟩) x = fileAt p m x := fun x hx =>
    fileAt_pmemMap (f := ⟨size, fileAt p m⟩) hx
  have hst' : Stopped (lastClumpOff size) (fileAt p' (pmemMap p' ⟨size, fileAt p m⟩)) cs :=
    hst.congr fun x hx => hmap x (by omega)
  obtain ⟨w', hrec, hdone⟩ :=
    hst'.recovered hp' (w := World.boot (pmemMap p' ⟨size, fileAt p m⟩) relaxed' epoch') rfl
  rw [World.mem_boot] at hdone
  have hkept : KeptClear (fileAt p' (pmemMap p' ⟨size, fileAt p m⟩)) cs ↔ KeptClear (fileAt p m) cs := by
    refine forall_congr' fun l => forall_congr' fun b => forall_congr' fun r => forall_congr' fun hcs =>
      imp_congr_right fun _ => forall_congr' fun i => forall_congr' fun hi => ?_
    have h1 := hst.chain.addr_lt (c := b) (by rw [hcs]; simp)
    have h2 := (onOff_inHeader (c := b) (lt_of_mem_onUp hi)).2
    rw [hmap _ (by omega)]
  have hout : ∀ x, x = pmemHdrOffset ∨ x = pmemHdrOffset + 8 → ¬ InPool (lastClumpOff size) x := by
    rintro x hx ⟨hin, -⟩
    simp only [InStatic, pmemHdrOffset, pmemStaticOffset, pmemStaticSize, pmemClumpOffset] at hx hin
    omega
  have hsig : ∀ x, x = pmemHdrOffset ∨ x = pmemHdrOffset + 8 → fileAt p' w'.mem x = fileAt p w₀.mem x := by
    intro x hx
    rw [hdone.frame x (hout x hx), hmap x (by simp only [pmemHdrOffset] at hx; omega), hframe x (hout x hx),
      hr.frame hp h₀ (hout x hx)]
  -- and as the checker does
  have hview : ∀ x < size, fileAt p'' (pmemMap p'' ⟨size, fileAt p' w'.mem⟩) x = fileAt p' w'.mem x := fun x hx =>
    fileAt_pmemMap (f := ⟨size, fileAt p' w'.mem⟩) hx
  have hsettled : ∀ b ∈ normalForm cs, b.tag = .free ∨ b.tag = .active := fun b => settled_of_mem_normalForm
  have hchain : Chain (fileAt p'' (pmemMap p'' ⟨size, fileAt p' w'.mem⟩)) pmemClumpOffset (normalForm cs)
      (lastClumpOff size) := hdone.chain.congr
    (fun b hb => hview _ (by have := hdone.chain.addr_lt hb; omega)) (hview _ (by omega))
  have hne : normalForm cs ≠ [] := by
    intro hnil
    have := hdone.chain.tiles
    rw [hnil, tiles_nil] at this
    simp only [pmemClumpOffset] at this
    omega
  refine ⟨cs, w', normalForm cs, hst.chain, congrArg Except.ok hrec, hdone.chain, hsettled, ?_⟩
  have hview₀ : pmemMap p'' ⟨size, fileAt p' w'.mem⟩ (p'' + pmemHdrOffset) = signature0 := by
    rw [← hsig₀, ← hsig _ (Or.inl rfl)]
    exact hview _ (by simp only [pmemHdrOffset]; omega)
  have hview₁ : pmemMap p'' ⟨size, fileAt p' w'.mem⟩ (p'' + pmemHdrOffset + 8) = signature1 := by
    rw [← hsig₁, ← hsig _ (Or.inr rfl), Nat.add_assoc]
    exact hview _ (by simp only [pmemHdrOffset]; omega)
  have hcheck := check_ok_iff_clear (f := ⟨size, fileAt p' w'.mem⟩) hsize hfit hview₀ hview₁ hchain hne
    (hchain.length_lt (by have := hp.fits; omega))
  rw [hcheck, ← hkept, ← hdone.clear_iff hst'.chain]
  refine forall_congr' fun b => forall_congr' fun hb => ?_
  have hclear : OnClear (fileAt p'' (pmemMap p'' ⟨size, fileAt p' w'.mem⟩)) b.addr ↔
      OnClear (fileAt p' w'.mem) b.addr := by
    refine forall_congr' fun i => forall_congr' fun hi => ?_
    have h1 := hdone.chain.addr_lt hb
    have h2 := (onOff_inHeader (c := b) (lt_of_mem_onUp hi)).2
    rw [hview _ (by omega)]
  exact ⟨fun h => hclear.mp (h (hsettled b hb)), fun h _ => hclear.mpr h⟩

/-! ## An assignment that stays registered -/

/-- The pool with one small block, active. -/
def activeBlock : World := (Call.prog 65536 ⟨81920, [⟨16448, 10⟩]⟩ (.activate 16448) oneBlock).2

/-- The same with an assignment registered with `pmemalloc_onfree`. -/
def onfreePool : World := (Call.prog 65536 ⟨81920, [⟨16448, 10⟩]⟩ (.onfree 16448 4096 0) activeBlock).2

/-- The same pool, initialised again. -/
def onfreePoolAgain : World :=
  (recovery 65536 (World.boot (pmemMap 65536 ⟨1048576, fileAt 65536 onfreePool.mem⟩) false fun _ => true)).2

theorem owns_static {d : Mem} {s : Client} {x : ℕ} (h : 8 ∣ x) (hx : InStatic x) : s.Owns d x := ⟨h, Or.inl hx⟩

theorem reached_activeBlock : Reached 65536 megabytePool (fun _ _ _ => True) activeBlock ⟨81920, [⟨16448, 10⟩]⟩ := by
  have h₁ : Reached 65536 megabytePool (fun _ _ _ => True) oneBlock ⟨81920, [⟨16448, 10⟩]⟩ :=
    Reached.init.next (c := .reserve 10) legal_ten trivial (by decide +kernel)
  have hnone : onEntries (fileAt 65536 oneBlock.mem) 0 16384 onUp = [] := by decide +kernel
  exact h₁.next (c := .activate 16448) ⟨by decide +kernel, fun t ht => absurd ht (by
    rw [show headerOf 16448 = 16384 from rfl, hnone]
    simp)⟩ trivial (by decide +kernel)

theorem legal_onfree :
    Call.Legal (fileAt 65536 activeBlock.mem) ⟨81920, [⟨16448, 10⟩]⟩ (.onfree 16448 4096 0) :=
  ⟨by decide +kernel, owns_static (by decide) ⟨by decide, by decide⟩, 0, by decide, by decide +kernel⟩

/-- A process registers an assignment and stops: the checker fails on the pool initialised again. -/
theorem onfreePool_not_checked :
    pmemallocInit none 1048576 65536 false (fun _ => true) = .ok (.ok (), megabytePool) ∧
      Reached 65536 megabytePool (fun _ _ _ => True) onfreePool ⟨81920, [⟨16448, 10⟩]⟩ ∧
      pmemallocInit (some ⟨1048576, fileAt 65536 onfreePool.mem⟩) 1048576 65536 false (fun _ => true) =
        .ok (.ok (), onfreePoolAgain) ∧
      (pmemallocCheck loopFuel 1048576 65536
        (pmemMap 65536 ⟨1048576, fileAt 65536 onfreePoolAgain.mem⟩)).1 =
        .fatal "assertion failure: clp->on[0].off (4096) == 0 (0)" := by
  refine ⟨init_megabytePool, reached_activeBlock.next legal_onfree trivial (by decide +kernel), ?_, by decide +kernel⟩
  exact congrArg Except.ok (Prod.ext (by decide +kernel) rfl)

/-- What is in memory inside `pmemalloc_onfree`, when it has stored `on[0].off`. -/
def onfreeStopped : Mem := applyAll (onfreePool.trace.take (activeBlock.trace.length + 3)) activeBlock.base

/-- A block is reserved and activated, and the process stops inside `pmemalloc_onfree`. -/
theorem checked_iff_onfreeStopped : fileAt 65536 onfreeStopped (onOff 16384 0) = 4096 ∧
    StopDuring (Call.prog 65536 ⟨81920, [⟨16448, 10⟩]⟩ (.onfree 16448 4096 0)) activeBlock onfreeStopped ∧
    ∃ w' cs,
      pmemallocInit (some ⟨1048576, fileAt 65536 onfreeStopped⟩) 1048576 131072 false (fun _ => true) =
        .ok (.ok (), w') ∧
      Chain (fileAt 65536 onfreeStopped) pmemClumpOffset cs 1048512 ∧
      ((pmemallocCheck loopFuel 1048576 65536 (pmemMap 65536 ⟨1048576, fileAt 131072 w'.mem⟩)).1 = .ok () ↔
        KeptClear (fileAt 65536 onfreeStopped) cs) := by
  have hsize : pmemMinPoolSize ≤ 1048576 := by decide
  obtain ⟨w₀, hinit, hall⟩ := checked_iff hsize (p := 65536) ⟨by decide, by decide⟩
    (show Mapped 131072 (lastClumpOff 1048576) from ⟨by decide, by decide⟩)
    (show 65536 + 1048576 ≤ 2 ^ 64 by decide) false false (fun _ => true) fun _ => true
  obtain rfl : megabytePool = w₀ := by
    rw [init_megabytePool] at hinit
    exact congrArg Prod.snd (Except.ok.inj hinit)
  have hstop : StopDuring (Call.prog 65536 ⟨81920, [⟨16448, 10⟩]⟩ (.onfree 16448 4096 0)) activeBlock onfreeStopped :=
    ⟨3, rfl⟩
  obtain ⟨cs, w', -, hc, hinit', -, -, hiff⟩ := hall _ _ _ _ reached_activeBlock legal_onfree hstop
  exact ⟨by decide +kernel, hstop, w', cs, hinit', hc, hiff⟩

end PmemExamples.Pool
