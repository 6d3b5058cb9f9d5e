import PmemExamples.Pool.Checked

/-! # What a request gets

When `pmemalloc_reserve` may say that nothing is left (`reserve_fails_iff`), for which sizes what it returns
is right (`reserve_right_iff`): the rounding wraps around for the 127 largest sizes; and that a crash in it
leaves no trace (`reserve_crash_invisible`). -/

namespace PmemExamples.Pool
open Persist Libpmem Tiling
set_option autoImplicit false

/-! ## Requests that are turned down -/

/-- `NULL` only when no clump of the walk `cs` is free and large enough. -/
def FailsOnlyIfFull (p : ℕ) (w : World) (s : Client) (size : ℕ) (cs : List Clump) : Prop :=
  ∀ r w', pmemallocReserve p s.gclp size w = (.ok r, w') → r.ptr_ = 0 →
    r.errno = some .ENOMEM ∧ ∀ c ∈ cs, ¬ c.Fits (reserveSize size)

section Serves
variable {w : World} {e p : ℕ} {s : Client} {live : Prop}

/-- A request is turned down if and only if the search from the cursor meets nothing for it. -/
theorem Serves.fails_iff (hp : Mapped p e) (h : Serves (fileAt p w.mem) e p s live) (size : ℕ) :
    ∃ cs gs, Chain (fileAt p w.mem) pmemClumpOffset cs e ∧
      Chain (fileAt p w.mem) (cursorOff p s.gclp) gs e ∧
      (FailsOnlyIfFull p w s size cs ↔
        ((∃ c ∈ cs, c.Fits (reserveSize size)) → ∃ c ∈ gs, c.Fits (reserveSize size))) := by
  obtain ⟨hg, ls, ts, us, hs, hheap, -, -⟩ := h
  refine ⟨_, _, hheap.walk, hheap.search, ?_⟩
  rcases reserve_runs false hp size hg hheap.search hheap.nonempty with
    ⟨l, c, r, hsplit, hfit, -, hr⟩ | ⟨hnone, hr⟩
  · -- it gets the clump
    have hres := (hr.mem_eq rfl).1
    refine iff_of_true (fun res w' hrun h0 => ?_) fun _ => ⟨c, by rw [hsplit]; simp, hfit⟩
    rw [hrun] at hres
    obtain rfl := Outcome.ok.inj hres
    simp at h0
  · obtain ⟨w', -, hrun, -⟩ := hr w rfl
    constructor
    · intro hfull ⟨c, hc, hfit⟩
      exact absurd hfit ((hfull _ _ hrun rfl).2 c hc)
    · intro himp res w'' hrun' h0
      rw [hrun] at hrun'
      obtain ⟨hres, -⟩ := Prod.mk.inj hrun'
      obtain rfl := Outcome.ok.inj hres
      refine ⟨rfl, fun c hc hfit => ?_⟩
      obtain ⟨b, hb, hbfit⟩ := himp ⟨c, hc, hfit⟩
      exact hnone b hb hbfit

end Serves

/-- In every run of legal calls on a created pool: the next request is turned down only if no free clump
of the walk is large enough, if and only if one of those behind the cursor is whenever any is. -/
theorem reserve_fails_iff {size p : ℕ} (hsize : pmemMinPoolSize ≤ size) (hp : Mapped p (lastClumpOff size))
    (relaxed : Bool) (epoch : ℕ → Bool) : ∃ w₀, pmemallocInit none size p relaxed epoch = .ok (.ok (), w₀) ∧
      ∀ w s, Reached p w₀ (fun _ _ _ => True) w s → ∀ n, n + 127 < 2 ^ 64 → ∃ cs gs,
        Chain (fileAt p w.mem) pmemClumpOffset cs (lastClumpOff size) ∧
        Chain (fileAt p w.mem) (cursorOff p s.gclp) gs (lastClumpOff size) ∧
        (FailsOnlyIfFull p w s n cs ↔
          ((∃ c ∈ cs, c.Fits (reserveSize n)) → ∃ c ∈ gs, c.Fits (reserveSize n))) := by
  obtain ⟨w₀, hinit, h₀, -⟩ := init_serves hsize hp relaxed epoch
  exact ⟨w₀, hinit, fun w s hr n _ => (hr.serves hp h₀).fails_iff hp n⟩

/-- A block reserved: the search for the next one starts at its clump. -/
theorem reserve_fails_iff_oneBlock : ∃ cs gs,
    Chain (fileAt 65536 oneBlock.mem) pmemClumpOffset cs 1048512 ∧
    Chain (fileAt 65536 oneBlock.mem) (cursorOff 65536 81920) gs 1048512 ∧
    (FailsOnlyIfFull 65536 oneBlock ⟨81920, [⟨16448, 10⟩]⟩ 1031936 cs ↔
      ((∃ c ∈ cs, c.Fits 1032000) → ∃ c ∈ gs, c.Fits 1032000)) := by
  have hsize : pmemMinPoolSize ≤ 1048576 := by decide
  obtain ⟨w₀, hinit, hall⟩ := reserve_fails_iff (p := 65536) hsize ⟨by decide, by decide⟩ false fun _ => true
  obtain rfl : megabytePool = w₀ := by
    rw [init_megabytePool] at hinit
    exact congrArg Prod.snd (Except.ok.inj hinit)
  have hreached : Reached 65536 megabytePool (fun _ _ _ => True) oneBlock ⟨81920, [⟨16448, 10⟩]⟩ :=
    Reached.init.next (c := .reserve 10) legal_ten trivial (by decide +kernel)
  exact hall _ _ hreached 1031936 (by decide)

/-- A small block and one that takes the rest of the pool, then the small one freed. -/
def tailPool : World :=
  let w := (Call.prog 65536 ⟨81920, [⟨16448, 10⟩]⟩ (.reserve 1031936) oneBlock).2
  (Call.prog 65536 ⟨82048, [⟨16576, 1031936⟩, ⟨16448, 10⟩]⟩ (.free 16448) w).2

/-- The small block is free again, and a request of its size is turned down. -/
theorem tailPool_fails :
    pmemallocInit none 1048576 65536 false (fun _ => true) = .ok (.ok (), megabytePool) ∧
      Reached 65536 megabytePool (fun _ _ _ => True) tailPool ⟨82048, [⟨16576, 1031936⟩]⟩ ∧
      (pmemallocReserve 65536 82048 10 tailPool).1 = .ok ⟨0, some .ENOMEM, 82048⟩ ∧
      Chain (fileAt 65536 tailPool.mem) pmemClumpOffset
        [⟨16384, 128, .free⟩, ⟨16512, 1032000, .reserved⟩] 1048512 ∧
      reserveSize 10 = 128 ∧
      ¬ FailsOnlyIfFull 65536 tailPool ⟨82048, [⟨16576, 1031936⟩]⟩ 10
        [⟨16384, 128, .free⟩, ⟨16512, 1032000, .reserved⟩] := by
  have hrun : (pmemallocReserve 65536 82048 10 tailPool).1 = .ok ⟨0, some .ENOMEM, 82048⟩ := by decide +kernel
  refine ⟨init_megabytePool, ?_, hrun, ?_, by decide, fun h => ?_⟩
  · have h₁ : Reached 65536 megabytePool (fun _ _ _ => True) oneBlock ⟨81920, [⟨16448, 10⟩]⟩ :=
      Reached.init.next (c := .reserve 10) legal_ten trivial (by decide +kernel)
    have hlegal : Call.Legal (fileAt 65536 oneBlock.mem) ⟨81920, [⟨16448, 10⟩]⟩ (.reserve 1031936) :=
      show 1031936 + 127 < 2 ^ 64 by decide
    have h₂ : Reached 65536 megabytePool (fun _ _ _ => True) _ ⟨82048, [⟨16576, 1031936⟩, ⟨16448, 10⟩]⟩ :=
      h₁.next (c := .reserve 1031936) hlegal trivial (by decide +kernel)
    exact h₂.next (c := .free 16448) (Or.inl (by decide +kernel)) trivial (by decide +kernel)
  · exact ⟨⟨rfl, by decide, by decide, rfl, by decide, by decide, rfl⟩, by decide +kernel, by decide +kernel⟩
  · exact (h _ _ (Prod.ext hrun rfl) rfl).2 ⟨16384, 128, .free⟩ (by simp) ⟨rfl, by decide⟩

/-! ## Requests that are granted -/

/-- What becomes of the clump `c`: it is kept whole, with less than 128 bytes to spare, or parted in two. -/
def Parted (c : Clump) (size : ℕ) (parts : List Clump) : Prop :=
  parts = [c.set .reserved] ∧ size + 64 ≤ c.size ∧ c.size < (size + 127) / 64 * 64 + pmemChunkSize * 2 ∨
    ∃ n k, parts = [⟨c.addr, n, .reserved⟩, ⟨c.addr + n, k, .free⟩] ∧ 0 < n ∧ 0 < k ∧ 64 ∣ n ∧ 64 ∣ k ∧
      n + k = c.size ∧ size + 64 ≤ n

/-- The pointer is the payload of a clump of the walk `cs` of `d` that was free, is reserved in `d'`, and is
the only one changed. -/
structure Granted (e : ℕ) (d : Mem) (cs : List Clump) (size ptr_ : ℕ) (d' : Mem) : Prop where
  aligned : 64 ∣ ptr_
  clump : ∃ l c r parts, cs = l ++ c :: r ∧ c.tag = .free ∧ c.addr + 64 = ptr_ ∧ Parted c size parts ∧
    Chain d' pmemClumpOffset (l ++ parts ++ r) e ∧ (∀ i < 3, d' (onOff c.addr i) = 0) ∧
    ∀ x, x < c.addr ∨ c.addr + c.size ≤ x → d' x = d x

section Granted
variable {w : World} {d d' : Mem} {e p gclp size ptr_ : ℕ} {l r cs : List Clump} {c : Clump}

theorem parted_reservedAs (hsize : size + 127 < 2 ^ 64) (hfit : reserveSize size ≤ c.size) (hd : 64 ∣ c.size) :
    Parted c size (reservedAs c (reserveSize size)) := by
  have hle := le_reserveSize hsize
  have hdvd := reserveSize_dvd size
  have heq := reserveSize_eq hsize
  unfold reservedAs
  split
  · next hs =>
    rw [pmemChunkSize] at hs
    exact Or.inr ⟨_, _, rfl, by omega, by omega, hdvd, Nat.dvd_sub hd hdvd, by omega, hle⟩
  · next hs =>
    refine Or.inl ⟨rfl, by omega, ?_⟩
    rw [pmemChunkSize] at hs ⊢
    omega

theorem granted_of_fits (hc : Chain d pmemClumpOffset (l ++ c :: r) e) (hsize : size + 127 < 2 ^ 64)
    (hfit : c.Fits (reserveSize size)) : Granted e d (l ++ c :: r) size (c.addr + 64)
      (applyAll (reserveEvents c (reserveSize size)) d) := by
  have hcm : c ∈ l ++ c :: r := by simp
  have hpos : 0 < reserveSize size := by
    have := le_reserveSize hsize
    omega
  refine ⟨Nat.dvd_add (hc.tiles.addr_dvd (by decide) hcm) (dvd_refl 64), l, c, r, _, rfl, hfit.1, rfl,
    parted_reservedAs hsize hfit.2 (hc.size_dvd hcm),
    reserveEvents_chain hc hpos (reserveSize_dvd size) hfit.2, fun i hi => reserveEvents_off hi, fun x hx => ?_⟩
  refine applyAll_of_not_writes (fun ev hev hw => ?_) d
  have := reserveEvents_within (hc.size_ge hcm) hev hw
  omega

theorem Granted.size_le (hc : Chain d pmemClumpOffset cs e) (h : Granted e d cs size ptr_ d') : size + 64 ≤ e := by
  obtain ⟨l, c, r, parts, rfl, -, -, hparts, -⟩ := h.clump
  have hle := (hc.tiles.bounds (b := c) (by simp)).2
  rcases hparts with ⟨-, hs, -⟩ | ⟨n, k, -, -, -, -, -, hsum, hn⟩ <;> omega

theorem reserveSize_of_wrap (hsize : size < 2 ^ 64) (hwrap : ¬ size + 127 < 2 ^ 64) : reserveSize size ≤ 64 := by
  unfold reserveSize
  rw [pmemChunkSize]
  omega

end Granted

/-- A request that is granted is granted rightly if and only if the rounding does not wrap around, or
nothing is free from the cursor on. -/
theorem reserve_right_iff {w : World} {e p gclp size : ℕ} {cs : List Clump} (hp : Mapped p e)
    (hc : Chain (fileAt p w.mem) pmemClumpOffset cs e) (hne : cs ≠ [])
    (hg : gclp = 0 ∨ ∃ c ∈ cs, gclp = p + c.addr) (hsize : size < 2 ^ 64) :
    ∃ res w', pmemallocReserve p gclp size w = (.ok res, w') ∧
      ((res.ptr_ ≠ 0 → Granted e (fileAt p w.mem) cs size res.ptr_ (fileAt p w'.mem)) ↔
        size + 127 < 2 ^ 64 ∨ ∀ c ∈ cs, c.tag = .free → c.addr < cursorOff p gclp) := by
  obtain ⟨hg', ps, gs, rfl, hgs, hsearch⟩ := search_of_walk hc hne hg
  rcases reserve_runs false hp size hg' hsearch hgs with ⟨l, c, r, rfl, hfit, -, hr⟩ | ⟨hnone, hr⟩
  · obtain ⟨w', -, hrun, -⟩ := hr w rfl
    have hmem := (hr.mem_eq rfl).2
    rw [hrun] at hmem
    refine ⟨_, w', hrun, ?_⟩
    rw [hmem, fileAt_applyAll]
    constructor
    · intro hgrant
      -- the clump cannot hold a request that wraps around
      have hle := (hgrant (by simp)).size_le hc
      have := hp.fits
      exact Or.inl (by omega)
    · rintro (hw | hfree)
      · rw [← List.append_assoc] at hc ⊢
        exact fun _ => granted_of_fits hc hw hfit
      · have h1 := hfree c (by simp) hfit.1
        have h2 := (hsearch.tiles.bounds (b := c) (by simp)).1
        omega
  · obtain ⟨w', -, hrun, -⟩ := hr w rfl
    refine ⟨_, w', hrun, iff_of_true (fun h0 => absurd rfl h0) ?_⟩
    by_cases hw : size + 127 < 2 ^ 64
    · exact Or.inl hw
    · refine Or.inr fun c hcm hfree => ?_
      obtain ⟨b, hps, hgs'⟩ := tiles_append.mp hc.tiles
      rcases List.mem_append.mp hcm with hps' | hgs'
      · have h1 := (hps.bounds hps').2
        have h2 := hps.size_pos hps'
        obtain ⟨a, gs', rfl⟩ := List.exists_cons_of_ne_nil hgs
        have h3 := (tiles_cons.mp hsearch.tiles).1
        have h4 := (tiles_cons.mp ‹Tiles 64 b (a :: gs') e›).1
        omega
      · refine absurd ⟨hfree, ?_⟩ (hnone c hgs')
        have := hsearch.size_ge hgs'
        have := reserveSize_of_wrap hsize hw
        omega

/-- A request of ten bytes. -/
theorem reserve_right_iff_megabytePool : ∃ res w', pmemallocReserve 65536 0 10 megabytePool = (.ok res, w') ∧
    ((res.ptr_ ≠ 0 → Granted 1048512 (fileAt 65536 megabytePool.mem) [⟨16384, 1032128, .free⟩] 10 res.ptr_
        (fileAt 65536 w'.mem)) ↔
      10 + 127 < 2 ^ 64 ∨ ∀ c ∈ [(⟨16384, 1032128, .free⟩ : Clump)], c.tag = .free → c.addr < 16384) :=
  reserve_right_iff (e := 1048512) ⟨by decide, by decide⟩
    ⟨⟨rfl, by decide, by decide, rfl⟩, by decide +kernel, by decide +kernel⟩ (by simp) (Or.inl rfl) (by decide)

/-- A request 100 bytes short of 2^64 gets the first clump, whose size word is then 1: the walk over the
pool stays there for ever. -/
theorem wrappedRequest_not_granted :
    (pmemallocReserve 65536 0 (2 ^ 64 - 100) megabytePool).1 = .ok ⟨16448, none, 81920⟩ ∧
      fileAt 65536 (pmemallocReserve 65536 0 (2 ^ 64 - 100) megabytePool).2.mem 16384 = 1 ∧
      ¬ Granted 1048512 (fileAt 65536 megabytePool.mem) [⟨16384, 1032128, .free⟩] (2 ^ 64 - 100) 16448
        (fileAt 65536 (pmemallocReserve 65536 0 (2 ^ 64 - 100) megabytePool).2.mem) := by
  refine ⟨by decide +kernel, by decide +kernel, fun h => ?_⟩
  have hwalk : Chain (fileAt 65536 megabytePool.mem) pmemClumpOffset [⟨16384, 1032128, .free⟩] 1048512 :=
    ⟨⟨rfl, by decide, by decide, rfl⟩, by decide +kernel, by decide +kernel⟩
  exact absurd (h.size_le hwalk) (by decide)

/-! ## A crash in a request -/

section Crash
variable {w w₁ : World} {img : Mem} {e p p' gclp size : ℕ} {cs : List Clump}

/-- What a crash in a request leaves: a pool that recovers to the normal form of the walk, and the payloads
as a crash right before the request could have left them. -/
theorem reserve_crash_stopped (hq : Quiescent w p cs e) (hne : cs ≠ [])
    (hg : gclp = 0 ∨ ∃ c ∈ cs, gclp = p + c.addr) (hsize : size + 127 < 2 ^ 64)
    (hcr : CrashDuring (pmemallocReserve p gclp size) w img) :
    ∃ m₀ cs', CrashImage w.base w.trace m₀ ∧ Chain (fileAt p img) pmemClumpOffset cs' e ∧
      normalForm cs' = normalForm cs ∧ (∀ c ∈ cs', c.tag = .free ∨ c.tag = .reserved ∨ c.tag = .active) ∧
      ∀ c ∈ cs, c.tag = .active → c ∈ cs' ∧ ∀ x, c.InPayload x → fileAt p img x = fileAt p m₀ x := by
  obtain ⟨hg', ps, gs, rfl, hgs, hsearch⟩ := search_of_walk hq.chain hne hg
  rcases reserve_runs true hq.mapped size hg' hsearch hgs with ⟨l, c, r, rfl, hfit, -, hr⟩ | ⟨-, hr⟩
  · rw [← List.append_assoc] at hq ⊢
    have hcm : c ∈ ps ++ l ++ c :: r := by simp
    have hdvd := reserveSize_dvd size
    have hpos : 0 < reserveSize size := by
      have := le_reserveSize hsize
      omega
    obtain ⟨j, m₀, hm₀, -, himg⟩ := crashDuring_file hq.mapped.aligned hr (Or.inl rfl)
      (orderly_reserveEvents (hq.addr_dvd hcm) hdvd) hcr
    have hchain := hq.image_chain hm₀
    -- the clump that is chosen holds no payload of another
    have hpay : ∀ b ∈ ps ++ l ++ c :: r, b.tag = .active → ∀ x, b.InPayload x →
        fileAt p img x = fileAt p m₀ x := by
      intro b hb ht x hx
      rw [himg]
      refine applyAll_of_not_writes (fun ev hev hw => ?_) _
      have hin := reserveEvents_within (hchain.size_ge hcm) (List.mem_of_mem_take hev) hw
      have hbc : b ≠ c := fun h => by rw [h, hfit.1] at ht; cases ht
      obtain ⟨hx1, hx2⟩ := hx
      rcases hchain.tiles.disjoint hb hcm hbc with h | h <;> omega
    rcases reserve_cut hchain hpos hdvd hfit.2 j with ⟨-, hcut⟩ | hcut
    · exact ⟨m₀, _, hm₀, himg ▸ hcut, rfl, hq.states, fun b hb ht => ⟨hb, hpay b hb ht⟩⟩
    · refine ⟨m₀, _, hm₀, himg ▸ hcut, normalForm_reservedAs hfit.1 hfit.2 _ _, fun b hb => ?_,
        fun b hb ht => ⟨?_, hpay b hb ht⟩⟩
      · obtain ⟨sz, r₀, hparts, -, -, hfree⟩ := reservedAs_eq c hfit.2
        rw [hparts] at hb
        simp only [List.mem_append, List.mem_cons] at hb
        rcases hb with (hb | rfl | hb) | hb
        · exact hq.states b (by simp only [List.mem_append, List.mem_cons]; tauto)
        · exact Or.inr (Or.inl rfl)
        · exact Or.inl (hfree b hb)
        · exact hq.states b (by simp only [List.mem_append, List.mem_cons]; tauto)
      · have hbc : b ≠ c := fun h => by rw [h, hfit.1] at ht; cases ht
        simp only [List.mem_append, List.mem_cons] at hb ⊢
        tauto
  · have hr' : Runs true (pmemallocReserve p gclp size) w.mem _ (relocate p []) := hr
    obtain ⟨j, m₀, hm₀, -, himg⟩ := crashDuring_file hq.mapped.aligned hr' (Or.inl rfl) Orderly.nil hcr
    rw [List.take_nil, applyAll_nil] at himg
    exact ⟨m₀, _, hm₀, himg ▸ hq.image_chain hm₀, rfl, hq.states, fun b hb _ => ⟨hb, fun x _ => by rw [himg]⟩⟩

/-- Recovery of a pool with no clump in transition stores to headers only. -/
theorem recovered_of_states (hp : Mapped p e) (hc : Chain (fileAt p w.mem) pmemClumpOffset cs e)
    (hstates : ∀ c ∈ cs, c.tag = .free ∨ c.tag = .reserved ∨ c.tag = .active) :
    ∃ w', recovery p w = (.ok (), w') ∧ Chain (fileAt p w'.mem) pmemClumpOffset (normalForm cs) e ∧
      ∀ x, Outside cs e x → fileAt p w'.mem x = fileAt p w.mem x := by
  have hquiet : ∀ c ∈ cs, pending (fileAt p w.mem) 0 c = [] := fun c hcm => pending_of_states (hstates c hcm) _ 0
  obtain ⟨w', hrun, hrec⟩ := (Stopped.of_quiet hc hquiet).recovered hp rfl
  refine ⟨w', hrun, hrec.chain, fun x hx => ?_⟩
  rw [hrec.words x hx.headers, outcome, pendings, List.flatMap_eq_nil_iff.mpr hquiet]
  rfl

/-- A crash in `pmemalloc_reserve` is invisible after recovery: the walk is the one recovery makes of the pool
before the call, and the payloads of the active clumps are as a crash right before the call could leave them
(`m₀`): as in memory then, where that was durable. -/
theorem reserve_crash_invisible (hq : Quiescent w p cs e) (hlt : pmemClumpOffset < e)
    (hg : gclp = 0 ∨ ∃ c ∈ cs, gclp = p + c.addr) (hsize : size + 127 < 2 ^ 64)
    (hcr : CrashDuring (pmemallocReserve p gclp size) w img) (hp' : Mapped p' e) {w₂ : World}
    (h₁ : fileAt p' w₁.mem = fileAt p img) (h₂ : fileAt p' w₂.mem = fileAt p w.mem) :
    ∃ m₀ w₁' w₂' cs', CrashImage w.base w.trace m₀ ∧
      recovery p' w₁ = (.ok (), w₁') ∧ Chain (fileAt p' w₁'.mem) pmemClumpOffset cs' e ∧
      recovery p' w₂ = (.ok (), w₂') ∧ Chain (fileAt p' w₂'.mem) pmemClumpOffset cs' e ∧
      ∀ c ∈ cs, c.tag = .active → ∀ x, c.InPayload x → fileAt p' w₁'.mem x = fileAt p m₀ x ∧
        (Durable w.base w.trace (lineOf (p + x)) → fileAt p' w₁'.mem x = fileAt p' w₂'.mem x) := by
  have hne : cs ≠ [] := by
    rintro rfl
    exact absurd (tiles_nil.mp hq.chain.tiles) (ne_of_lt hlt)
  obtain ⟨m₀, cs', hm₀, hchain, hnf, hstates, hpay⟩ := reserve_crash_stopped hq hne hg hsize hcr
  obtain ⟨w₁', hrun₁, hc₁, hw₁⟩ := recovered_of_states hp' (h₁ ▸ hchain) hstates
  obtain ⟨w₂', hrun₂, hc₂, hw₂⟩ := recovered_of_states hp' (h₂ ▸ hq.chain) hq.states
  refine ⟨m₀, w₁', w₂', _, hm₀, hrun₁, hc₁, hrun₂, hnf ▸ hc₂, fun c hcm ht x hx => ?_⟩
  obtain ⟨hcm', hpay⟩ := hpay c hcm ht
  have hfirst : fileAt p' w₁'.mem x = fileAt p m₀ x := by rw [hw₁ x (hx.outside hchain hcm'), h₁, hpay x hx]
  refine ⟨hfirst, fun hd => ?_⟩
  rw [hfirst, hw₂ x (hx.outside hq.chain hcm), h₂]
  exact hd.image hm₀ rfl

end Crash

/-- A pool with an active clump and a free one large enough to be split. -/
def splitPool : Mem := applyAll [.store 16384 (128 ||| 3), .store 16448 7, .store 16512 (512 ||| 0)] fun _ => 0

/-- A crash after the header of the split-off part was stored, before it was flushed; the next process maps
the pool elsewhere. -/
theorem reserve_crash_invisible_splitPool :
    let img := applyAll ((pmemallocReserve 65536 0 100
      (World.boot (mapAt 65536 splitPool) false fun _ => true)).2.trace.take 9) (mapAt 65536 splitPool)
    ∃ w₁' w₂' cs', recovery 8192 (World.boot (mapAt 8192 (fileAt 65536 img)) false fun _ => true) = (.ok (), w₁') ∧
      Chain (fileAt 8192 w₁'.mem) pmemClumpOffset cs' 17024 ∧
      recovery 8192 (World.boot (mapAt 8192 splitPool) false fun _ => true) = (.ok (), w₂') ∧
      Chain (fileAt 8192 w₂'.mem) pmemClumpOffset cs' 17024 ∧
      fileAt 8192 w₁'.mem 16448 = fileAt 8192 w₂'.mem 16448 := by
  have hq : Quiescent (World.boot (mapAt 65536 splitPool) false fun _ => true) 65536
      [⟨16384, 128, .active⟩, ⟨16512, 512, .free⟩] 17024 :=
    { mapped := ⟨by decide, by decide⟩
      chain := ⟨by simp [Tiles], by decide, by decide⟩
      states := by simp
      headers := fun _ _ => Durable.boot _ _
      marker := Durable.boot _ _ }
  intro img
  have h₁ : fileAt 8192 (World.boot (mapAt 8192 (fileAt 65536 img)) false fun _ => true).mem =
      fileAt 65536 img := fileAt_mapAt _ _
  have h₂ : fileAt 8192 (World.boot (mapAt 8192 splitPool) false fun _ => true).mem =
      fileAt 65536 (World.boot (mapAt 65536 splitPool) false fun _ => true).mem :=
    (fileAt_mapAt _ _).trans (fileAt_mapAt _ _).symm
  obtain ⟨m₀, w₁', w₂', cs', -, hrun₁, hc₁, hrun₂, hc₂, hpay⟩ := reserve_crash_invisible hq (by decide)
    (Or.inl rfl) (show 100 + 127 < 2 ^ 64 by decide) ⟨9, CrashImage.all _ _⟩
    (⟨by decide, by decide⟩ : Mapped 8192 17024) h₁ h₂
  exact ⟨w₁', w₂', cs', hrun₁, hc₁, hrun₂, hc₂,
    (hpay _ List.mem_cons_self rfl 16448 ⟨by decide, by decide⟩).2 (Durable.boot _ _)⟩

end PmemExamples.Pool
