import PmemExamples.Pool.Client
import PmemExamples.Pool.Live

/-! # Several clumps at a time

A process that reserves several clumps before it activates the first. Reservations, registrations and
activations flush what they store in every build, so only the payloads it has stored to may be dirty. -/

namespace PmemExamples.Pool
open Persist Libpmem Tiling
set_option autoImplicit false

/-- A process with a pool none of whose clumps is in transition. Only the words in `D` may be dirty. Memory below the
mapping reads as 0: that stands for memory that is not mapped, where the process would fault. -/
structure Building (w : World) (p : ℕ) (cs : List Clump) (e : ℕ) (D : ℕ → Prop) : Prop where
  mapped : Mapped p e
  chain : Chain (fileAt p w.mem) pmemClumpOffset cs e
  states : ∀ c ∈ cs, c.tag = .free ∨ c.tag = .reserved ∨ c.tag = .active
  durable : ∀ ℓ, (∀ x, D x → lineOf (p + x) ≠ ℓ) → Durable w.base w.trace ℓ
  below : ∀ a < p, w.mem a = 0

/-- What a reservation of `c` makes of the walk `cs` and the file `d`. -/
structure Carved (d d' : Mem) (cs cs' : List Clump) (c : Clump) : Prop where
  mem : c ∈ cs'
  tag : c.tag = .reserved
  off : ∀ i < 3, d' (onOff c.addr i) = 0
  kept : ∀ b ∈ cs, b.tag ≠ .free → b ∈ cs' ∧ b ≠ c
  only : ∀ b ∈ cs', b = c ∨ b.tag = .free ∨ b ∈ cs
  same : ∀ b ∈ cs, b.tag ≠ .free → ∀ x, b.addr ≤ x → x < b.addr + b.size → d' x = d x

/-- A word that a process may have put something in: below the clumps, or in the payload of one that is in use. -/
def Held (cs : List Clump) (x : ℕ) : Prop := x < pmemClumpOffset ∨ ∃ b ∈ cs, b.tag ≠ .free ∧ b.InPayload x

theorem Held.outside {d : Mem} {cs : List Clump} {e x : ℕ} (h : Held cs x) (hc : Chain d pmemClumpOffset cs e)
    (hne : cs ≠ []) : Outside cs e x := by
  rcases h with h | ⟨b, hb, -, hin⟩
  · obtain ⟨c, cs', rfl⟩ := List.exists_cons_of_ne_nil hne
    have hce := hc.addr_lt (c := c) (by simp)
    have hlow : ∀ b ∈ c :: cs', pmemClumpOffset ≤ b.addr := fun b hb => (hc.tiles.bounds hb).1
    have := hlow c (by simp)
    refine ⟨by omega, fun b hb hin => ?_⟩
    have := hlow b hb
    have := hin.1
    omega
  · exact hin.outside hc hb

theorem Carved.held {d d' : Mem} {cs cs' : List Clump} {c : Clump} {x : ℕ} (h : Carved d d' cs cs' c) (hx : Held cs x) :
    Held cs' x :=
  hx.imp_right fun ⟨b, hb, hbt, hin⟩ => ⟨b, (h.kept b hb hbt).1, hbt, hin⟩

theorem Carved.apart {d d' : Mem} {cs cs' : List Clump} {c : Clump} {e x : ℕ} (h : Carved d d' cs cs' c)
    (ht : Tiles 64 pmemClumpOffset cs' e) (hx : Held cs x) : ¬ (c.addr ≤ x ∧ x < c.addr + c.size) := by
  rintro ⟨h1, h2⟩
  rcases hx with hx | ⟨b, hb, hbt, h3, h4⟩
  · have := (ht.bounds h.mem).1
    omega
  · obtain ⟨hb', hbc⟩ := h.kept b hb hbt
    exact hbc (ht.eq_of_mem_overlap hb' h.mem ⟨by omega, h4⟩ ⟨h1, h2⟩)

/-- From the cursor on there is a free clump of at least `n` bytes. -/
def Fitting (p gclp : ℕ) (cs : List Clump) (n : ℕ) : Prop := ∃ b ∈ cs, cursorOff p gclp ≤ b.addr ∧ b.Fits n

theorem fitting_iff {p e gclp n : ℕ} {ps gs : List Clump} (hc : Tiles 64 pmemClumpOffset (ps ++ gs) e)
    (hgs : Tiles 64 (cursorOff p gclp) gs e) (hne : gs ≠ []) : Fitting p gclp (ps ++ gs) n ↔ ∃ b ∈ gs, b.Fits n := by
  constructor
  · rintro ⟨b, hb, hle, hfit⟩
    rcases List.mem_append.mp hb with hbp | hbg
    · obtain ⟨x, hps, hx⟩ := tiles_append.mp hc
      obtain ⟨c, gs, rfl⟩ := List.exists_cons_of_ne_nil hne
      have hstart := (tiles_cons.mp hgs).1.symm.trans (tiles_cons.mp hx).1
      have := (hps.bounds hbp).2
      have := hps.size_pos hbp
      omega
    · exact ⟨b, hbg, hfit⟩
  · rintro ⟨b, hb, hfit⟩
    exact ⟨b, List.mem_append_right _ hb, (hgs.bounds hb).1, hfit⟩

namespace Building
variable {w : World} {p e : ℕ} {cs : List Clump} {D : ℕ → Prop} {c : Clump}

theorem step {α : Type} {prog : Prog α} {a : α} {evs : List Event} {cs' : List Clump} {F : ℕ → Prop}
    (h : Building w p cs e D) (hr : Runs true prog w.mem a evs) (hp : ∀ ev ∈ evs, ∀ y, ev.Writes y → p ≤ y)
    (hc : Chain (fileAt p (applyAll evs w.mem)) pmemClumpOffset cs' e)
    (hs : ∀ c ∈ cs', c.tag = .free ∨ c.tag = .reserved ∨ c.tag = .active)
    (hd : ∀ ℓ, (∀ x, F x → lineOf (p + x) ≠ ℓ) → Durable w.base (w.trace ++ evs) ℓ) :
    ∃ w', prog w = (.ok a, w') ∧ w'.mem = applyAll evs w.mem ∧ Building w' p cs' e F := by
  have hmem := (hr.mem_eq rfl).2
  have htrace := hr.trace_exact rfl (Or.inl rfl)
  obtain ⟨w', -, hrun, hbase, -⟩ := hr w rfl
  rw [hrun] at hmem htrace
  refine ⟨w', hrun, hmem, h.mapped, hmem ▸ hc, hs, fun ℓ hℓ => ?_, fun b hb => ?_⟩
  · rw [hbase, htrace]
    exact hd ℓ hℓ
  · rw [hmem, applyAll_of_not_writes (fun ev hev hw => absurd (hp ev hev b hw) (by omega))]
    exact h.below b hb

theorem weaken {F : ℕ → Prop} (h : Building w p cs e D) (hF : ∀ x, D x → F x) : Building w p cs e F :=
  ⟨h.mapped, h.chain, h.states, fun ℓ hℓ => h.durable ℓ fun x hx => hℓ x (hF x hx), h.below⟩

theorem step_file {α : Type} {prog : Prog α} {a : α} {evs : List Event} {cs' : List Clump} {F : ℕ → Prop}
    (h : Building w p cs e D) (hr : Runs true prog w.mem a (relocate p evs))
    (hc : Chain (applyAll evs (fileAt p w.mem)) pmemClumpOffset cs' e)
    (hs : ∀ c ∈ cs', c.tag = .free ∨ c.tag = .reserved ∨ c.tag = .active)
    (hd : ∀ ℓ, (∀ x, F x → lineOf (p + x) ≠ ℓ) → Durable w.base (w.trace ++ relocate p evs) ℓ) :
    ∃ w', prog w = (.ok a, w') ∧ fileAt p w'.mem = applyAll evs (fileAt p w.mem) ∧ Building w' p cs' e F := by
  have hp : ∀ ev ∈ relocate p evs, ∀ y, ev.Writes y → p ≤ y := by
    intro ev hev y hw
    obtain ⟨x, rfl, -⟩ := writes_relocate hev hw
    exact Nat.le_add_right _ _
  obtain ⟨w', hrun, hmem, h'⟩ := h.step hr hp ((fileAt_applyAll p evs w.mem).symm ▸ hc) hs hd
  exact ⟨w', hrun, by rw [hmem, fileAt_applyAll], h'⟩

theorem store {α : Type} {prog : Prog α} {a : α} {evs : List Event} {P : ℕ → Prop} (h : Building w p cs e D)
    (hne : cs ≠ []) (hr : Runs true prog w.mem a evs) (hP : ∀ x, P x → Held cs x)
    (hw : ∀ ev ∈ evs, ∀ y, ev.Writes y → ∃ x, y = p + x ∧ P x) :
    ∃ w', prog w = (.ok a, w') ∧ w'.mem = applyAll evs w.mem ∧ Building w' p cs e fun x => D x ∨ P x := by
  have hkeep : ∀ x, ¬ Outside cs e x → applyAll evs w.mem (p + x) = w.mem (p + x) := by
    refine fun x hx => applyAll_of_not_writes (fun ev hev hy => hx ?_) _
    obtain ⟨y, heq, hin⟩ := hw ev hev _ hy
    obtain rfl : x = y := Nat.add_left_cancel heq
    exact (hP x hin).outside h.chain hne
  refine h.step hr (fun ev hev y hy => ?_) (h.chain.congr (fun b hb => ?_) ?_) h.states fun ℓ hℓ => ?_
  · obtain ⟨x, rfl, -⟩ := hw ev hev y hy
    exact Nat.le_add_right _ _
  · exact hkeep _ fun hout => hout.headers b hb (addr_inHeader b)
  · exact hkeep _ fun hout => lt_irrefl e hout.lt
  · refine (h.durable ℓ fun x hx => hℓ x (Or.inl hx)).append fun ev hev z hz hl => ?_
    obtain ⟨x, rfl, hx⟩ := hw ev hev z hz
    exact hℓ x (Or.inr hx) hl

/-! ## Reserving -/

theorem carved {d : Mem} {l r : List Clump} {c₀ : Clump} {n : ℕ} (hc : Chain d pmemClumpOffset (l ++ c₀ :: r) e)
    (hfit : c₀.Fits n) : ∃ sz, n ≤ sz ∧ Carved d (applyAll (reserveEvents c₀ n) d) (l ++ c₀ :: r)
      (l ++ reservedAs c₀ n ++ r) ⟨c₀.addr, sz, .reserved⟩ := by
  obtain ⟨sz, r₀, hparts, hle, -, hfree⟩ := reservedAs_eq c₀ hfit.2
  have hcm : c₀ ∈ l ++ c₀ :: r := by simp
  have hne : ∀ b ∈ l ++ c₀ :: r, b.tag ≠ .free → b ≠ c₀ := fun b _ hb heq => hb (heq ▸ hfit.1)
  rw [hparts]
  refine ⟨sz, hle, by simp, rfl, fun i hi => reserveEvents_off hi, fun b hb hbt => ⟨?_, fun heq => ?_⟩,
    fun b hb => ?_, fun b hb hbt x h1 h2 => ?_⟩
  · have := hne b hb hbt
    simp only [List.mem_append, List.mem_cons] at hb ⊢
    tauto
  · exact hne b hb hbt (hc.tiles.eq_of_addr hb hcm (by rw [heq]))
  · simp only [List.mem_append, List.mem_cons] at hb ⊢
    rcases hb with (hb | hb | hb) | hb
    · exact Or.inr (Or.inr (Or.inl hb))
    · exact Or.inl hb
    · exact Or.inr (Or.inl (hfree b hb))
    · exact Or.inr (Or.inr (Or.inr (Or.inr hb)))
  · refine applyAll_of_not_writes (fun ev hev hx => ?_) d
    have hin := reserveEvents_within (hc.size_ge hcm) hev hx
    rcases hc.tiles.disjoint hb hcm (hne b hb hbt) with h' | h' <;> omega

/-- A reservation on the walk `ps ++ gs` with the cursor in front of `gs`. -/
theorem reserve_walk {gclp size : ℕ} {ps gs : List Clump} (h : Building w p (ps ++ gs) e D) (hne : gs ≠ [])
    (hg : gclp = 0 ∨ p ≤ gclp) (hgs : Chain (fileAt p w.mem) (cursorOff p gclp) gs e) (hsize : size + 127 < 2 ^ 64) :
    ∃ res w', pmemallocReserve p gclp size w = (.ok res, w') ∧
      ((res.ptr_ = 0 ∧ res.gclp = gclp ∧ (∀ b ∈ gs, ¬ b.Fits (reserveSize size)) ∧ Building w' p (ps ++ gs) e D) ∨
      ∃ l c₀ r sz, gs = l ++ c₀ :: r ∧ (∀ b ∈ l, ¬ b.Fits (reserveSize size)) ∧ c₀.Fits (reserveSize size) ∧
        res.ptr_ = c₀.addr + 64 ∧ res.gclp = p + c₀.addr ∧ size + 64 ≤ sz ∧
        Carved (fileAt p w.mem) (fileAt p w'.mem) (ps ++ gs) (ps ++ l ++ reservedAs c₀ (reserveSize size) ++ r)
          ⟨c₀.addr, sz, .reserved⟩ ∧
        Building w' p (ps ++ l ++ reservedAs c₀ (reserveSize size) ++ r) e D) := by
  have hn := le_reserveSize hsize
  have hpos : 0 < reserveSize size := by omega
  have hdvd := reserveSize_dvd size
  rcases reserve_runs true h.mapped size hg hgs hne with ⟨l, c₀, r, rfl, hfit, hskip, hr⟩ | ⟨hnone, hr⟩
  · rw [← List.append_assoc] at h ⊢
    have hcm : c₀ ∈ ps ++ l ++ c₀ :: r := by simp
    obtain ⟨sz, hle, hcarved⟩ := carved h.chain hfit
    have hstates : ∀ b ∈ ps ++ l ++ reservedAs c₀ (reserveSize size) ++ r,
        b.tag = .free ∨ b.tag = .reserved ∨ b.tag = .active := by
      intro b hb
      rcases hcarved.only b hb with rfl | hb | hb
      · exact Or.inr (Or.inl rfl)
      · exact Or.inl hb
      · exact h.states b hb
    obtain ⟨w', hrun, hfile, hbuild⟩ := h.step_file (F := D) hr (reserveEvents_chain h.chain hpos hdvd hfit.2) hstates
      fun ℓ hℓ => (h.durable ℓ hℓ).orderly ((orderly_reserveEvents
        (h.chain.tiles.addr_dvd (by decide) hcm) hdvd).relocate h.mapped.aligned)
    exact ⟨_, w', hrun, Or.inr ⟨l, c₀, r, sz, rfl, hskip, hfit, rfl, rfl, le_trans hn hle, hfile ▸ hcarved, hbuild⟩⟩
  · have hr' : Runs true (pmemallocReserve p gclp size) w.mem _ (relocate p []) := hr
    obtain ⟨w', hrun, -, h'⟩ := h.step_file (F := D) hr' h.chain h.states fun ℓ hℓ => by
      rw [relocate_nil, List.append_nil]
      exact h.durable ℓ hℓ
    exact ⟨_, w', hrun, Or.inl ⟨rfl, rfl, hnone, h'⟩⟩

theorem reserve {gclp size : ℕ} (h : Building w p cs e D) (hne : cs ≠ [])
    (hg : gclp = 0 ∨ ∃ c ∈ cs, gclp = p + c.addr) (hsize : size + 127 < 2 ^ 64) :
    ∃ res w', pmemallocReserve p gclp size w = (.ok res, w') ∧
      ((res.ptr_ = 0 ∧ res.gclp = gclp ∧ ¬ Fitting p gclp cs (reserveSize size) ∧ Building w' p cs e D) ∨
      ∃ c cs', res.ptr_ = c.addr + 64 ∧ res.gclp = p + c.addr ∧ size + 64 ≤ c.size ∧
        Fitting p gclp cs (reserveSize size) ∧ Carved (fileAt p w.mem) (fileAt p w'.mem) cs cs' c ∧
        Building w' p cs' e D) := by
  obtain ⟨hg', ps, gs, rfl, hgs, hsearch⟩ := search_of_walk h.chain hne hg
  have hiff := fitting_iff (n := reserveSize size) h.chain.tiles hsearch.tiles hgs
  obtain ⟨res, w', hrun, ⟨hptr, hgclp, hnone, h'⟩ | ⟨l, c₀, r, sz, rfl, -, hfit, hptr, hgclp, hsz, hcarved, h'⟩⟩ :=
    h.reserve_walk hgs hg' hsearch hsize
  · refine ⟨res, w', hrun, Or.inl ⟨hptr, hgclp, fun hf => ?_, h'⟩⟩
    obtain ⟨b, hb, hfit⟩ := hiff.mp hf
    exact hnone b hb hfit
  · exact ⟨res, w', hrun, Or.inr ⟨⟨c₀.addr, sz, .reserved⟩, _, hptr, hgclp, hsz, hiff.mpr ⟨c₀, by simp, hfit⟩, hcarved,
      h'⟩⟩

/-! ## Activating -/

variable {o v : ℕ}

theorem register (h : Building w p cs e D) (hc : c ∈ cs) (ht : c.tag = .reserved)
    (hoff : ∀ i < 3, fileAt p w.mem (onOff c.addr i) = 0) (ho : o ≠ 0) (hoe : o < e) :
    ∃ w', pmemallocOnactive p (c.addr + 64) (pmem p o) v w = (.ok (), w') ∧ Building w' p cs e D ∧
      registered (fileAt p w'.mem) c = [(o, v)] ∧ ∀ x, ¬ c.InHeader x → fileAt p w'.mem x = fileAt p w.mem x := by
  have hfits := h.mapped.fits
  have haddr : 64 ∣ c.addr := h.chain.tiles.addr_dvd (by decide) hc
  have hparent : off p (pmem p o) = o := by
    rw [pmem_eq (by omega), off_eq (by omega) (by omega)]
    omega
  have hup : onUp = ([] : List ℕ) ++ 0 :: [1, 2] := rfl
  have hr := onactive_runs true h.mapped (h.chain.addr_lt hc) (h.chain.word hc) (h.chain.size_dvd hc) ht hup
    (hoff 0 (by omega)) (by simp) (pmem p o) v
  rw [hparent] at hr
  have hkeep : ∀ x, ¬ c.InHeader x ∨ x = c.addr →
      applyAll (registerEvents c.addr 0 o v) (fileAt p w.mem) x = fileAt p w.mem x := by
    intro x hx
    refine applyAll_of_not_writes (fun ev hev hw => ?_) _
    unfold Clump.InHeader at hx
    rcases writes_registerEvents hev hw with rfl | rfl
    · unfold onPtr at hx; omega
    · unfold onOff at hx; omega
  have hchain : Chain (applyAll (registerEvents c.addr 0 o v) (fileAt p w.mem)) pmemClumpOffset cs e := by
    refine h.chain.congr (fun b hb => hkeep _ ?_) (hkeep _ (Or.inl fun hin => ?_))
    · by_cases hbc : b = c
      · exact Or.inr (hbc ▸ rfl)
      · exact Or.inl (h.chain.header_disjoint hb hc hbc (addr_inHeader b))
    · have := h.chain.addr_lt hc
      have := hin.2
      omega
  obtain ⟨w', hrun, hfile, h'⟩ := h.step_file (F := D) hr hchain h.states fun ℓ hℓ =>
    (h.durable ℓ hℓ).orderly ((orderly_registerEvents haddr (by omega) o v).relocate h.mapped.aligned)
  refine ⟨w', hrun, h', ?_, fun x hx => by rw [hfile, hkeep x (Or.inl hx)]⟩
  rw [hfile, registered_register hoff ho, pmem_eq (by omega), Nat.zero_add]

theorem activate (h : Building w p cs e D) (hc : c ∈ cs) (ht : c.tag = .reserved)
    (hreg : registered (fileAt p w.mem) c = [(o, v)]) (hout : Outside cs e o) :
    ∃ w' cs', pmemallocActivate p (c.addr + 64) w = (.ok (), w') ∧
      Building w' p cs' e (fun x => D x ∧ ¬ c.InPayload x) ∧ c.set .active ∈ cs' ∧
      (∀ b ∈ cs, b ≠ c → b ∈ cs') ∧ (∀ b ∈ cs', b = c.set .active ∨ b ∈ cs ∧ b ≠ c) ∧
      fileAt p w'.mem o = v ∧ ∀ x, x ≠ o → ¬ c.InHeader x → fileAt p w'.mem x = fileAt p w.mem x := by
  obtain ⟨l, r, rfl⟩ := List.append_of_mem hc
  have hdvd := h.chain.size_dvd hc
  have haddr : 64 ∣ c.addr := h.chain.tiles.addr_dvd (by decide) hc
  have hone : ∀ s ∈ registered (fileAt p w.mem) c, Outside (l ++ c :: r) e s.1 := by
    rw [hreg]
    simpa using hout
  have hrest : ∀ b ∈ l ++ r, b ∈ l ++ c :: r := fun b hb => mem_set_iff (s := c.tag).mpr (Or.inr hb)
  have hquiet : ∀ b ∈ l ++ r, ∀ d, pending d 0 b = [] :=
    fun b hb d => pending_of_states (h.states b (hrest b hb)) d 0
  have hr := activate_runs true h.mapped (h.chain.tiles.bounds hc).2 (h.chain.word hc) (h.chain.size_pos hc)
    hdvd ht fun s hs => ⟨(hone s hs).lt, (hone s hs).headers c hc⟩
  have hchain : Chain (applyAll (activateEvents (fileAt p w.mem) c) (fileAt p w.mem)) pmemClumpOffset
      (l ++ c.set .active :: r) e := (commit_done h.chain (Or.inl rfl) hquiet hone).chain
  have hstates : ∀ b ∈ l ++ c.set .active :: r, b.tag = .free ∨ b.tag = .reserved ∨ b.tag = .active := by
    intro b hb
    rcases mem_set_iff.mp hb with rfl | hb
    · exact Or.inr (Or.inr rfl)
    · exact h.states b (hrest b hb)
  obtain ⟨w', hrun, hfile, h'⟩ := h.step_file (F := fun x => D x ∧ ¬ c.InPayload x) hr hchain hstates fun ℓ hℓ => by
    rw [activateEvents, relocate_flush, List.append_cons]
    refine Durable.orderly ?_ ((orderly_commitEvents _ haddr _).relocate h.mapped.aligned)
    by_cases hin : ∃ x, c.InPayload x ∧ lineOf (p + x) = ℓ
    · obtain ⟨x, hx, rfl⟩ := hin
      refine Durable.flush ?_
      rw [lineOf_add h.mapped.aligned]
      exact List.mem_map_of_mem (payload_mem_clLines hdvd hx)
    · exact (h.durable ℓ fun x hx heq => hℓ x ⟨hx, fun hp => hin ⟨x, hp, heq⟩⟩ heq).snoc (by simp)
  have hcommit : fileAt p w'.mem = applyAll (commitEvents (fileAt p w.mem) c .activating) (fileAt p w.mem) := hfile
  refine ⟨w', _, hrun, h', by simp, fun b hb hbc => ?_, fun b hb => ?_, ?_, fun x hxo hx => ?_⟩
  · refine mem_set_iff.mpr (Or.inr ?_)
    simp only [List.mem_append, List.mem_cons] at hb ⊢
    tauto
  · exact (mem_set_iff.mp hb).imp_right fun hb => ⟨hrest b hb, fun heq => h.chain.addr_ne.1 b hb (heq ▸ rfl)⟩
  · rw [hcommit, commitEvents_eq (Or.inl rfl), hreg]
    refine applyAll_of_last_store [.store c.addr _, headerFlush c.addr]
      (.flush (clLines o sizeofPtr) :: finishEvents c.addr _) rfl fun ev hev hw => ?_
    rcases List.mem_cons.mp hev with rfl | hev
    · exact absurd hw (Event.writes_flush _ _)
    · refine hout.headers c hc ?_
      rcases writes_finishEvents hev hw with rfl | ⟨i, hi, rfl⟩
      · exact addr_inHeader c
      · exact onOff_inHeader hi
  · rw [hcommit]
    refine applyAll_of_not_writes (fun ev hev hw => ?_) _
    rcases writes_commitEvents (Or.inl rfl) hev hw with rfl | ⟨i, hi, rfl⟩ | ⟨s, hs, rfl⟩
    · exact hx (addr_inHeader c)
    · exact hx (onOff_inHeader hi)
    · rw [hreg, List.mem_singleton] at hs
      exact hxo (by rw [hs])

end Building

/-! ## Opening a pool -/

/-- What `pmemalloc_init` leaves of a pool it creates, or of one that it finds as a crash left it. -/
inductive Opened (p e : ℕ) (w₀ : World) : Prop where
  | created {size : ℕ} {relaxed : Bool} {epoch : ℕ → Bool} (hsize : pmemMinPoolSize ≤ size) (he : e = lastClumpOff size)
      (h : pmemallocInit none size p relaxed epoch = .ok (.ok (), w₀))
  | found {f : File} {size : ℕ} {relaxed : Bool} {epoch : ℕ → Bool} (hlt : pmemClumpOffset < e)
      (hf : RecoversTo e (fileAt p (pmemMap p f)) fun _ _ => True)
      (h : pmemallocInit (some f) size p relaxed epoch = .ok (.ok (), w₀))

theorem Opened.building {p e : ℕ} {w₀ : World} (h : Opened p e w₀) (hp : Mapped p e) : ∃ cs,
    Building w₀ p cs e (fun _ => True) ∧ (∀ c ∈ cs, c.tag = .free ∨ c.tag = .active) ∧ cs ≠ [] := by
  cases h with
  | @created size relaxed epoch hsize he h =>
    subst he
    obtain ⟨f, w, hf, hinit, hc, -, hmem, hclean⟩ := init_file hsize hp relaxed epoch
    obtain rfl : w = w₀ := by
      rw [hinit] at h
      exact (Prod.mk.inj (Except.ok.inj h)).2
    have hfree : ∀ c ∈ createdWalk (lastClumpOff size), c.tag = .free := by simp [createdWalk]
    refine ⟨_, ⟨hp, hc, fun c hcm => Or.inl (hfree c hcm), fun ℓ _ => hclean ℓ, fun a ha => ?_⟩,
      fun c hcm => Or.inl (hfree c hcm), by simp [createdWalk]⟩
    rw [hmem, pmemMap, if_neg (by omega)]
  | @found f size relaxed epoch hlt hf h =>
    obtain ⟨cs, hchain, hplaced, hw, -⟩ := hf
    have hruns := recovery_runs_at hp hchain hplaced hw
    obtain ⟨-, hmem⟩ := hruns.mem_eq (w := World.boot (pmemMap p f) relaxed epoch) rfl
    obtain ⟨w', evs, hrun, hbase, -, htrace, hstores, -⟩ := hruns (World.boot (pmemMap p f) relaxed epoch) rfl
    obtain rfl : (recovery p (World.boot (pmemMap p f) relaxed epoch)).2 = w₀ := (Prod.mk.inj (Except.ok.inj h)).2
    obtain ⟨cs', hso, hfull⟩ := recoveryEvents_cut hchain hplaced (recoveryEvents (fileAt p (pmemMap p f)) 0 cs).length
    obtain rfl := hfull (le_refl _)
    rw [List.take_length, ← fileAt_applyAll, ← hmem] at hso
    have hstates : ∀ c ∈ normalForm cs, c.tag = .free ∨ c.tag = .active := fun c hcm => settled_of_mem_normalForm hcm
    refine ⟨_, ⟨hp, hso.chain, fun c hcm => (hstates c hcm).imp_right Or.inr, fun ℓ hℓ => ?_, fun a ha => ?_⟩,
      hstates, fun hnil => ?_⟩
    · -- recovery stores nothing below the pool
      rw [hrun, hbase, htrace]
      refine (Durable.boot _ ℓ).append fun ev hev z hz hl => ?_
      cases ev with
      | flush ls => exact absurd hz (Event.writes_flush z ls)
      | store b v =>
        obtain rfl : b = z := hz
        obtain ⟨x, rfl, -⟩ := mem_relocate_store.mp (mem_storesOf.mp (hstores ▸ mem_storesOf.mpr hev))
        exact hℓ x trivial hl
    · rw [hmem, applyAll_of_not_writes (fun ev hev hwr => ?_), pmemMap, if_neg (by omega)]
      obtain ⟨x, rfl, -⟩ := writes_relocate hev hwr
      omega
    · have htiles := hso.chain.tiles
      rw [hnil, tiles_nil] at htiles
      omega

theorem Opened.building_of_clean {p e : ℕ} {w₀ : World} (h : Opened p e w₀) (hp : Mapped p e) (hclean : w₀.Clean) : ∃ cs,
    Building w₀ p cs e (fun _ => False) ∧ (∀ c ∈ cs, c.tag = .free ∨ c.tag = .active) ∧ cs ≠ [] := by
  obtain ⟨cs, hbuild, hfa, hne⟩ := h.building hp
  exact ⟨cs, ⟨hbuild.mapped, hbuild.chain, hbuild.states, fun ℓ _ => hclean ℓ, hbuild.below⟩, hfa, hne⟩

theorem clean_of_created {p size : ℕ} {relaxed : Bool} {epoch : ℕ → Bool} {w₀ : World}
    (hp : Mapped p (lastClumpOff size))
    (hsize : pmemMinPoolSize ≤ size) (h : pmemallocInit none size p relaxed epoch = .ok (.ok (), w₀)) : w₀.Clean := by
  obtain ⟨f, w, -, hinit, -, -, -, hclean⟩ := init_file hsize hp relaxed epoch
  rw [hinit] at h
  obtain rfl := (Prod.mk.inj (Except.ok.inj h)).2
  exact hclean

end PmemExamples.Pool
