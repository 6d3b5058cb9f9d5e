import PmemExamples.BTree.Create

/-! # Blocks by their addresses

What a process knows of its clumps: the addresses it was given and how many bytes it asked for. Two blocks do
not overlap, and neither a reservation nor an activation touches the others. -/

namespace PmemExamples.Pool
open Persist Tiling BTree
set_option autoImplicit false

/-- `n` bytes at `a` are in a clump that is not free. -/
def BlockAt (p : ℕ) (cs : List Clump) (a n : ℕ) : Prop :=
  ∃ c ∈ cs, c.tag ≠ .free ∧ a = p + (c.addr + 64) ∧ n + 64 ≤ c.size

/-- They are in a reserved one for which nothing is registered. -/
def FreshAt (d : Mem) (p : ℕ) (cs : List Clump) (a n : ℕ) : Prop :=
  ∃ c ∈ cs, c.tag = .reserved ∧ (∀ i < 3, d (onOff c.addr i) = 0) ∧ a = p + (c.addr + 64) ∧ n + 64 ≤ c.size

/-- A process with a pool and its cursor; what it stored may still be in the cache. -/
structure Resident (w : World) (p gclp : ℕ) (cs : List Clump) (e : ℕ) : Prop where
  building : Building w p cs e fun _ => True
  cursor : gclp = 0 ∨ ∃ c ∈ cs, gclp = p + c.addr
  nonempty : cs ≠ []
  base : 0 < p

/-- The clumps from the cursor on. -/
def ahead (p gclp : ℕ) (cs : List Clump) : List Clump := cs.dropWhile fun c => c.addr < cursorOff p gclp

/-- From the cursor on one clump is free, of `x` bytes. -/
def Spare (p gclp : ℕ) (cs : List Clump) (x : ℕ) : Prop :=
  ∃ c, c.size = x ∧ ∀ b, (b ∈ cs ∧ cursorOff p gclp ≤ b.addr ∧ b.tag = .free) ↔ b = c

/-- A store to a word of a block, or below the clumps. -/
def Allowed (p : ℕ) (cs : List Clump) (y : ℕ) : Prop :=
  (p ≤ y ∧ y < p + pmemClumpOffset) ∨ ∃ a n, BlockAt p cs a n ∧ a ≤ y ∧ y < a + n

section Blocks
variable {d : Mem} {p e a b n m : ℕ} {cs cs' : List Clump} {c : Clump}

theorem FreshAt.block (h : FreshAt d p cs a n) : BlockAt p cs a n := by
  obtain ⟨c, hc, ht, -, ha, hn⟩ := h
  exact ⟨c, hc, by rw [ht]; decide, ha, hn⟩

theorem BlockAt.mono (h : BlockAt p cs a n) (hm : m ≤ n) : BlockAt p cs a m := by
  obtain ⟨c, hc, ht, ha, hn⟩ := h
  exact ⟨c, hc, ht, ha, by omega⟩

theorem BlockAt.bounds (h : BlockAt p cs a n) (ht : Tiles 64 pmemClumpOffset cs e) :
    p + pmemClumpOffset + 64 ≤ a ∧ a + n ≤ p + e := by
  obtain ⟨c, hc, -, ha, hn⟩ := h
  have hb := ht.bounds hc
  omega

theorem BlockAt.aligned (h : BlockAt p cs a n) (ht : Tiles 64 pmemClumpOffset cs e) (hp : 64 ∣ p) : 64 ∣ a := by
  obtain ⟨c, hc, -, ha, -⟩ := h
  have hd := ht.addr_dvd (by decide) hc
  omega

theorem BlockAt.apart (h : BlockAt p cs a n) (h' : BlockAt p cs b m) (ht : Tiles 64 pmemClumpOffset cs e) (hab : a ≠ b) :
    a + n ≤ b ∨ b + m ≤ a := by
  obtain ⟨c, hc, -, ha, hn⟩ := h
  obtain ⟨c', hc', -, hb, hm⟩ := h'
  have hne : c ≠ c' := fun heq => hab (by rw [ha, hb, heq])
  have hdis := ht.disjoint hc hc' hne
  omega

theorem BlockAt.held {y : ℕ} (h : BlockAt p cs a n) (h₁ : a ≤ y) (h₂ : y < a + n) : ∃ x, y = p + x ∧ Held cs x := by
  obtain ⟨c, hc, ht, ha, hn⟩ := h
  refine ⟨y - p, by omega, Or.inr ⟨c, hc, ht, ?_, ?_⟩⟩ <;> omega

theorem Allowed.held {y : ℕ} (h : Allowed p cs y) : ∃ x, y = p + x ∧ Held cs x := by
  rcases h with ⟨h₁, h₂⟩ | ⟨a, n, hb, h₁, h₂⟩
  · exact ⟨y - p, by omega, Or.inl (by omega)⟩
  · exact hb.held h₁ h₂

theorem Allowed.of_block {y : ℕ} (h : BlockAt p cs a n) (h₁ : a ≤ y) (h₂ : y < a + n) : Allowed p cs y :=
  Or.inr ⟨a, n, h, h₁, h₂⟩

theorem FreshAt.congr {d' : Mem} (h : FreshAt d p cs a n)
    (hd : ∀ c ∈ cs, c.tag = .reserved → ∀ x, c.InHeader x → d' x = d x) : FreshAt d' p cs a n := by
  obtain ⟨c, hc, ht, hoff, ha, hn⟩ := h
  refine ⟨c, hc, ht, fun i hi => ?_, ha, hn⟩
  rw [hd c hc ht _ (onOff_inHeader hi), hoff i hi]

theorem ahead_eq {gclp : ℕ} {ps gs : List Clump} (ht : Tiles 64 pmemClumpOffset (ps ++ gs) e)
    (hgs : Tiles 64 (cursorOff p gclp) gs e) (hne : gs ≠ []) : ahead p gclp (ps ++ gs) = gs := by
  obtain ⟨g, gs, rfl⟩ := List.exists_cons_of_ne_nil hne
  obtain ⟨x, hps, hx⟩ := tiles_append.mp ht
  have hg : g.addr = cursorOff p gclp := (tiles_cons.mp hgs).1
  have hgx : g.addr = x := (tiles_cons.mp hx).1
  have hlow : ∀ b ∈ ps, (decide (b.addr < cursorOff p gclp)) = true := by
    intro b hb
    have h₁ := hps.bounds hb
    have h₂ := hps.size_pos hb
    rw [decide_eq_true_iff]
    omega
  rw [ahead, List.dropWhile_append_of_pos hlow, List.dropWhile_cons_of_neg]
  rw [decide_eq_true_iff]
  omega

theorem Spare.fitting_iff {gclp x : ℕ} (h : Spare p gclp cs x) : Fitting p gclp cs n ↔ n ≤ x := by
  obtain ⟨c, rfl, hc⟩ := h
  constructor
  · rintro ⟨b, hb, hle, hfree, hfit⟩
    obtain rfl := (hc b).mp ⟨hb, hle, hfree⟩
    exact hfit
  · intro hn
    obtain ⟨hb, hle, hfree⟩ := (hc c).mpr rfl
    exact ⟨c, hb, hle, hfree, hn⟩

theorem Spare.carve {gclp g x : ℕ} {l r : List Clump} (h : Spare p gclp (l ++ c :: r) x)
    (ht : Tiles 64 pmemClumpOffset (l ++ c :: r) e)
    (hle : cursorOff p gclp ≤ c.addr) (hg : cursorOff p g = c.addr) (hfit : c.Fits n) :
    (n + pmemChunkSize * 2 ≤ x → Spare p g (l ++ reservedAs c n ++ r) (x - n)) ∧
      (x < n + pmemChunkSize * 2 → ∀ m, ¬ Fitting p g (l ++ reservedAs c n ++ r) m) := by
  obtain ⟨c', rfl, hc'⟩ := h
  obtain rfl := (hc' c).mp ⟨by simp, hle, hfit.1⟩
  have hnd := List.nodup_middle.mp ht.nodup
  have hrest : ∀ b ∈ l ++ r, c.addr ≤ b.addr → b.tag ≠ .free := by
    intro b hb hcb hfree
    have hmem : b ∈ l ++ c :: r := by
      simp only [List.mem_append, List.mem_cons] at hb ⊢
      tauto
    obtain rfl := (hc' b).mp ⟨hmem, by omega, hfree⟩
    exact (List.nodup_cons.mp hnd).1 hb
  have hparts : ∀ b ∈ l ++ reservedAs c n ++ r, b ∈ l ++ r ∨ b ∈ reservedAs c n := by
    intro b hb
    simp only [List.mem_append] at hb ⊢
    tauto
  constructor
  · intro hsplit
    replace hsplit := Nat.le_sub_of_add_le' hsplit
    refine ⟨⟨c.addr + n, c.size - n, .free⟩, rfl, fun b => ⟨fun ⟨hb, hcb, hfree⟩ => ?_, ?_⟩⟩
    · rcases hparts b hb with hb | hb
      · exact absurd hfree (hrest b hb (by omega))
      · rw [reservedAs, if_pos hsplit] at hb
        simp only [List.mem_cons, List.not_mem_nil, or_false] at hb
        rcases hb with rfl | rfl
        · cases hfree
        · rfl
    · rintro rfl
      refine ⟨?_, by rw [hg]; exact Nat.le_add_right _ _, rfl⟩
      rw [reservedAs, if_pos hsplit]
      simp
  · intro hx
    have hsplit : ¬ pmemChunkSize * 2 ≤ c.size - n := by
      simp only [pmemChunkSize] at hx ⊢
      omega
    rintro m ⟨b, hb, hcb, hfree, -⟩
    rcases hparts b hb with hb | hb
    · exact hrest b hb (by omega) hfree
    · rw [reservedAs, if_neg hsplit] at hb
      obtain rfl := List.mem_singleton.mp hb
      cases hfree

end Blocks

namespace Resident
variable {w : World} {p gclp e a b n : ℕ} {cs : List Clump}

theorem tiles (h : Resident w p gclp cs e) : Tiles 64 pmemClumpOffset cs e := h.building.chain.tiles

theorem fits (h : Resident w p gclp cs e) : p + e + 64 ≤ 2 ^ 64 := h.building.mapped.fits

theorem fitting_iff (h : Resident w p gclp cs e) {m : ℕ} : Fitting p gclp cs m ↔ ∃ b ∈ ahead p gclp cs, b.Fits m := by
  obtain ⟨-, ps, gs, rfl, hne, hgs⟩ := search_of_walk h.building.chain h.nonempty h.cursor
  rw [Pool.fitting_iff h.tiles hgs.tiles hne, ahead_eq h.tiles hgs.tiles hne]

theorem ahead_start (h : Resident w p 0 cs e) : ahead p 0 cs = cs := by
  have ht : Tiles 64 pmemClumpOffset ([] ++ cs) e := h.tiles
  exact ahead_eq ht h.tiles h.nonempty

theorem store {α : Type} {prog : Prog α} {r : α} {evs : List Event} (h : Resident w p gclp cs e)
    (hr : Runs true prog w.mem r evs) (hw : ∀ ev ∈ evs, ∀ y, ev.Writes y → Allowed p cs y) :
    ∃ w', prog w = (.ok r, w') ∧ w'.mem = applyAll evs w.mem ∧ Resident w' p gclp cs e ∧
      ∀ c ∈ cs, ∀ x, c.InHeader x → fileAt p w'.mem x = fileAt p w.mem x := by
  have hwx : ∀ ev ∈ evs, ∀ y, ev.Writes y → ∃ x, y = p + x ∧ Held cs x := fun ev hev y hy => (hw ev hev y hy).held
  obtain ⟨w', hrun, hmem, h'⟩ := h.building.store h.nonempty hr (fun x hx => hx) hwx
  refine ⟨w', hrun, hmem, ⟨h'.weaken fun _ _ => trivial, h.cursor, h.nonempty, h.base⟩, fun c hc x hx => ?_⟩
  rw [fileAt_apply, hmem, fileAt_apply]
  refine applyAll_of_not_writes (fun ev hev hy => ?_) _
  obtain ⟨z, hz, hheld⟩ := hwx ev hev _ hy
  obtain rfl : x = z := Nat.add_left_cancel hz
  exact (hheld.outside h.building.chain h.nonempty).headers c hc hx

/-- What a reservation leaves of the blocks of a process, the new one at `a` apart. -/
structure Reserves (w w' : World) (p : ℕ) (cs cs' : List Clump) (a n : ℕ) : Prop where
  fresh : FreshAt (fileAt p w'.mem) p cs' a n
  kept : ∀ {b m : ℕ}, BlockAt p cs b m → BlockAt p cs' b m ∧ b ≠ a
  others : ∀ {b m : ℕ}, FreshAt (fileAt p w.mem) p cs b m → FreshAt (fileAt p w'.mem) p cs' b m
  same : ∀ {b m : ℕ}, BlockAt p cs b m → ∀ y, b ≤ y → y < b + m → w'.mem y = w.mem y

theorem reserves_of_carved {w' : World} {cs' : List Clump} {c : Clump}
    (h : Carved (fileAt p w.mem) (fileAt p w'.mem) cs cs' c) (ht : Tiles 64 pmemClumpOffset cs' e)
    (hn : n + 64 ≤ c.size) : Reserves w w' p cs cs' (p + (c.addr + 64)) n where
  fresh := ⟨c, h.mem, h.tag, h.off, rfl, hn⟩
  kept := by
    rintro b m ⟨x, hx, hnf, rfl, hm⟩
    obtain ⟨hx', hne⟩ := h.kept x hx hnf
    refine ⟨⟨x, hx', hnf, rfl, hm⟩, fun heq => hne ?_⟩
    exact ht.eq_of_addr hx' h.mem (by omega)
  others := by
    rintro b m ⟨x, hx, hres, hoff, rfl, hm⟩
    have hnf : x.tag ≠ .free := by rw [hres]; decide
    refine ⟨x, (h.kept x hx hnf).1, hres, fun i hi => ?_, rfl, hm⟩
    have hin := onOff_inHeader (c := x) hi
    rw [h.same x hx hnf _ hin.1 (by have := hin.2; omega), hoff i hi]
  same := by
    rintro b m ⟨x, hx, hnf, rfl, hm⟩ y h₁ h₂
    have hy := h.same x hx hnf (y - p) (by omega) (by omega)
    rw [fileAt_apply, fileAt_apply, show p + (y - p) = y by omega] at hy
    exact hy

theorem reserve (h : Resident w p gclp cs e) (hn : n + 127 < 2 ^ 64) :
    ∃ res w', pmemallocReserve p gclp n w = (.ok res, w') ∧
    ((¬ Fitting p gclp cs (reserveSize n) ∧ res.ptr_ = 0 ∧ Resident w' p res.gclp cs e ∧ w'.mem = w.mem) ∨
      (Fitting p gclp cs (reserveSize n) ∧ 0 < res.ptr_ ∧ ∃ cs', Resident w' p res.gclp cs' e ∧
        Reserves w w' p cs cs' (p + res.ptr_) n ∧
        (∀ m, Fitting p res.gclp cs' m ↔ Roomy (reserveSize n) m (ahead p gclp cs)) ∧
        ∀ x, Spare p gclp cs x → (reserveSize n + pmemChunkSize * 2 ≤ x → Spare p res.gclp cs' (x - reserveSize n)) ∧
          (x < reserveSize n + pmemChunkSize * 2 → ∀ m, ¬ Fitting p res.gclp cs' m))) := by
  obtain ⟨hg, ps, gs, rfl, hne, hgs⟩ := search_of_walk h.building.chain h.nonempty h.cursor
  have hahead := ahead_eq h.tiles hgs.tiles hne
  have hfitting := h.fitting_iff (m := reserveSize n)
  rw [hahead] at hfitting ⊢
  obtain ⟨res, w', hrun, ⟨hptr, hgclp, hnone, h'⟩ | ⟨l, c, r, sz, rfl, hskip, hfit, hptr, hgclp, hsz, hcarved, h'⟩⟩ :=
    h.building.reserve_walk hne hg hgs hn
  · refine ⟨res, w', hrun, Or.inl ⟨fun hf => ?_, hptr, ⟨h', hgclp ▸ h.cursor, h.nonempty, h.base⟩, ?_⟩⟩
    · obtain ⟨b, hb, hbf⟩ := hfitting.mp hf
      exact hnone b hb hbf
    · rcases reserve_runs true h.building.mapped n hg hgs hne with ⟨l, c, r, rfl, hfit, -, -⟩ | ⟨-, hr⟩
      · exact absurd hfit (hnone c (by simp))
      · have hmem := (hr.mem_eq rfl).2
        rwa [hrun] at hmem
  · have hmem := hcarved.mem
    refine ⟨res, w', hrun, Or.inr ⟨hfitting.mpr ⟨c, by simp, hfit⟩, by omega, _, ⟨h', Or.inr ⟨_, hmem, hgclp⟩,
      List.ne_nil_of_mem hmem, h.base⟩, ?_, fun m => ?_, fun x hx => ?_⟩⟩
    · rw [hptr]
      exact reserves_of_carved (c := ⟨c.addr, sz, .reserved⟩) hcarved h'.chain.tiles hsz
    · rw [hgclp]
      exact fitting_iff_roomy h.base.ne' hfit hskip h'.chain.tiles
    · have ht := h.tiles
      rw [← List.append_assoc] at hx ht
      have hbase := h.base
      refine hx.carve ht (hgs.tiles.bounds (by simp)).1 ?_ hfit
      rw [cursorOff, hgclp, if_neg (by omega), Nat.add_sub_cancel_left]

theorem roomy_of_spare (h : Resident w p gclp cs e) {x m : ℕ} (hx : Spare p gclp cs x) (hn : n + 127 < 2 ^ 64)
    (hnx : reserveSize n + pmemChunkSize * 2 ≤ x) (hm : m ≤ x - reserveSize n) :
    Roomy (reserveSize n) m (ahead p gclp cs) := by
  obtain ⟨res, w', -, ⟨hnone, -⟩ | ⟨-, -, cs', -, -, hroom, hspare⟩⟩ := h.reserve hn
  · exact absurd (hx.fitting_iff.mpr (by omega)) hnone
  · exact (hroom m).mp (((hspare x hx).1 hnx).fitting_iff.mpr hm)

/-- What the activation of the block at `a` leaves. -/
structure Activates (w w' : World) (p gclp : ℕ) (cs cs' : List Clump) (a : ℕ) : Prop where
  kept : ∀ {b m : ℕ}, BlockAt p cs b m → BlockAt p cs' b m
  others : ∀ {b m : ℕ}, b ≠ a → FreshAt (fileAt p w.mem) p cs b m → FreshAt (fileAt p w'.mem) p cs' b m
  same : ∀ {b m : ℕ}, BlockAt p cs b m → ∀ y, b ≤ y → y < b + m → w'.mem y = w.mem y
  slot : w'.mem (p + pmemStaticOffset) + p = a
  room : ∀ m, Fitting p gclp cs' m ↔ Fitting p gclp cs m
  spare : ∀ x, Spare p gclp cs x → Spare p gclp cs' x

theorem activate (h : Resident w p gclp cs e) (ha : FreshAt (fileAt p w.mem) p cs a n) : ∃ w₁ w₂ cs',
    pmemallocOnactive p (a - p) (pmem p pmemStaticOffset) (a - p) w = (.ok (), w₁) ∧
    pmemallocActivate p (a - p) w₁ = (.ok (), w₂) ∧ Resident w₂ p gclp cs' e ∧ Activates w w₂ p gclp cs cs' a := by
  obtain ⟨c, hc, ht, hoff, rfl, hsz⟩ := ha
  rw [Nat.add_sub_cancel_left]
  have hbound := h.tiles.bounds hc
  have hroot : Outside cs e pmemStaticOffset := inStatic_root.outside h.building.chain
  obtain ⟨w₁, hrun₁, h₁, hreg, hkeep₁⟩ := h.building.register (v := c.addr + 64) hc ht hoff (by decide) hroot.lt
  obtain ⟨w₂, cs', hrun₂, h₂, hmem, hkept, honly, hslot, hkeep₂⟩ := h₁.activate hc ht hreg hroot
  have hkeep : ∀ x, x ≠ pmemStaticOffset → ¬ c.InHeader x → fileAt p w₂.mem x = fileAt p w.mem x := by
    intro x hx hxc
    rw [hkeep₂ x hx hxc, hkeep₁ x hxc]
  have hapart : ∀ b ∈ cs, b.tag ≠ .free → ∀ x, b.addr ≤ x → x < b.addr + b.size → b ≠ c ∨ c.addr + 64 ≤ x →
      fileAt p w₂.mem x = fileAt p w.mem x := by
    intro b hb hbt x h₁ h₂ hor
    have hbb := (h.tiles.bounds hb).1
    refine hkeep x (by simp only [pmemClumpOffset, pmemStaticOffset] at hbb ⊢; omega) fun hin => ?_
    have hin₂ := hin.2
    rcases hor with hne | hle
    · exact hne (h.tiles.eq_of_mem_overlap hb hc ⟨h₁, h₂⟩ ⟨hin.1, by omega⟩)
    · omega
  have hne : ∀ b ∈ cs, b.addr ≠ c.addr → b ≠ c := fun b _ hba heq => hba (by rw [heq])
  have hfree : ∀ b : Clump, b.tag = .free → (b ∈ cs' ↔ b ∈ cs) := by
    intro b hb
    constructor
    · intro hb'
      rcases honly b hb' with rfl | ⟨hb', -⟩
      · exact State.noConfusion hb
      · exact hb'
    · refine fun hb' => hkept b hb' fun heq => ?_
      rw [heq, ht] at hb
      cases hb
  refine ⟨w₁, w₂, cs', hrun₁, hrun₂, ⟨h₂.weaken fun _ _ => trivial, ?_, List.ne_nil_of_mem hmem, h.base⟩, ?_, ?_, ?_,
    ?_, ?_, ?_⟩
  · refine h.cursor.imp_right fun ⟨b, hb, hg⟩ => ?_
    by_cases hbc : b = c
    · exact ⟨c.set .active, hmem, by rw [hg, hbc]; rfl⟩
    · exact ⟨b, hkept b hb hbc, hg⟩
  · rintro b m ⟨x, hx, hxt, rfl, hm⟩
    by_cases hxc : x = c
    · subst hxc
      exact ⟨x.set .active, hmem, fun hfree => State.noConfusion hfree, rfl, hm⟩
    · exact ⟨x, hkept x hx hxc, hxt, rfl, hm⟩
  · rintro b m hb ⟨x, hx, hxt, hxoff, rfl, hm⟩
    have hxc : x ≠ c := fun heq => hb (by rw [heq])
    refine ⟨x, hkept x hx hxc, hxt, fun i hi => ?_, rfl, hm⟩
    have hin := onOff_inHeader (c := x) hi
    rw [hapart x hx (by rw [hxt]; decide) _ hin.1 (by have := hin.2; omega) (Or.inl hxc), hxoff i hi]
  · rintro b m ⟨x, hx, hxt, rfl, hm⟩ y h₁ h₂
    have hy := hapart x hx hxt (y - p) (by omega) (by omega)
    rw [fileAt_apply, fileAt_apply, show p + (y - p) = y by omega] at hy
    refine hy ?_
    by_cases hxc : x = c
    · subst hxc
      exact Or.inr (by omega)
    · exact Or.inl hxc
  · rw [fileAt_apply] at hslot
    rw [hslot]
    omega
  · intro m
    exact exists_congr fun b => ⟨fun ⟨hb, hle, hfit⟩ => ⟨(hfree b hfit.1).mp hb, hle, hfit⟩,
      fun ⟨hb, hle, hfit⟩ => ⟨(hfree b hfit.1).mpr hb, hle, hfit⟩⟩
  · rintro x ⟨c', hx, hc'⟩
    refine ⟨c', hx, fun b => Iff.trans ?_ (hc' b)⟩
    exact ⟨fun ⟨hb, hle, hbf⟩ => ⟨(hfree b hbf).mp hb, hle, hbf⟩, fun ⟨hb, hle, hbf⟩ => ⟨(hfree b hbf).mpr hb, hle, hbf⟩⟩

end Resident

end PmemExamples.Pool
