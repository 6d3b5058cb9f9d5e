import PmemExamples.BTree.Memory
import PmemExamples.BTree.Search
import PmemExamples.Pool.Building

/-! # `bt_create`

The struct and the first node are reserved, filled, and activated one after the other. Both activations store
to the root slot, that of the struct last (`btCreate_ok`). -/

namespace PmemExamples.BTree
open Persist Libpmem Pool Tiling
set_option autoImplicit false

/-! ## The stores -/

theorem setBits_runs (x : Bool) (m : Mem) (a : ℕ) (f : ℕ → ℕ) :
    Runs x (setBits a f) m () [.store a (f (m a))] :=
  Runs.load_bind rfl (Runs.store x m a _)

theorem setBits_bind {β : Type} {x : Bool} {m : Mem} {a v : ℕ} {f : ℕ → ℕ} {g : Unit → Prog β} {b : β}
    {evs : List Event} (hv : m a = v) (h : Runs x (g ()) (Function.update m a (f v)) b evs) :
    Runs x (setBits a f >>= g) m b (.store a (f v) :: evs) := by
  subst hv
  exact (setBits_runs x m a f).bind h

theorem bzeroWords_runs (x : Bool) (m : Mem) (a : ℕ) (js : List ℕ) :
    Runs x (bzeroWords a js) m () (js.map fun j => .store (a + 8 * j) 0) := by
  induction js generalizing m with
  | nil => exact Runs.pure x m ()
  | cons j js ih => exact Runs.store_bind (ih _)

theorem clearBtree_runs (x : Bool) (m : Mem) (btr : ℕ) : ∃ evs, Runs x (clearBtree btr) m () evs ∧
    ∀ ev ∈ evs, ∀ y, ev.Writes y → btr ≤ y ∧ y < btr + sizeofBtree := by
  refine ⟨_, Runs.store_bind (Runs.store_bind ((setBits_runs x _ _ _).seq ((setBits_runs x _ _ _).seq
    ((setBits_runs x _ _ _).seq ((setBits_runs x _ _ _).seq ((setBits_runs x _ _ _).seq
    (setBits_runs x _ _ _))))))), ?_⟩
  intro ev hev y hy
  simp only [List.mem_cons, List.mem_append, List.not_mem_nil, or_false] at hev
  rcases hev with rfl | rfl | rfl | rfl | rfl | rfl | rfl | rfl <;>
    (rw [Event.writes_store] at hy; simp only [sizeofBtree]; omega)

/-- The stores of `initBtree`, from the words of the struct. -/
def initEvents (m : Mem) (btr tmp cmp t : ℕ) : List Event :=
  [.store (btr + 40) tmp, .store (btr + 8) cmp, .store (btr + 16) (setLow (m (btr + 16)) sizeofBtreenode),
    .store (btr + 16) (setHigh (setLow (m (btr + 16)) sizeofBtreenode) (sizeofBtreenode + (2 * t - 1) * 8)),
    .store (btr + 24) (setLow (m (btr + 24)) (2 * t - 1)),
    .store (btr + 24) (setHigh (setLow (m (btr + 24)) (2 * t - 1)) t),
    .store (btr + 32) (setLow (m (btr + 32)) (log2 (2 * t - 1) 32 + 1)),
    .store (btr + 32) (setLow (setLow (m (btr + 32)) (log2 (2 * t - 1) 32 + 1)) (nbitsOf (2 * t - 1))),
    .store (btr + 32) (setHigh (setLow (setLow (m (btr + 32)) (log2 (2 * t - 1) 32 + 1)) (nbitsOf (2 * t - 1)))
      (8 + (2 * t - 1) * 16))]

theorem initBtree_runs (x : Bool) (m : Mem) (btr tmp cmp t : ℕ) :
    Runs x (initBtree btr tmp cmp t) m () (initEvents m btr tmp cmp t) := by
  unfold initBtree initEvents
  refine Runs.store_bind (Runs.store_bind (setBits_bind ?_ (setBits_bind (Function.update_self ..) (setBits_bind ?_
    (setBits_bind (Function.update_self ..) (setBits_bind ?_ (setBits_bind (Function.update_self ..)
      (Runs.load_bind (Function.update_self ..) (Runs.store x _ _ _)))))))))
  all_goals simp [Function.update]

theorem writes_initEvents {m : Mem} {btr tmp cmp t : ℕ} {ev : Event} {y : ℕ} (hev : ev ∈ initEvents m btr tmp cmp t)
    (hy : ev.Writes y) : btr ≤ y ∧ y < btr + sizeofBtree := by
  simp only [initEvents, List.mem_cons, List.not_mem_nil, or_false] at hev
  rcases hev with rfl | rfl | rfl | rfl | rfl | rfl | rfl | rfl | rfl <;>
    (rw [Event.writes_store] at hy; simp only [sizeofBtree]; omega)

/-- The fields of the `struct btree` at `btr` that `bt_create` computes from the degree. -/
structure Fields (m : Mem) (btr t : ℕ) : Prop where
  keyoff : lowInt (m (btr + 16)) = sizeofBtreenode
  nodeptroff : highInt (m (btr + 16)) = sizeofBtreenode + (2 * t - 1) * 8
  degree : highInt (m (btr + 24)) = t
  nbits : lowInt (m (btr + 32)) = nbitsOf (2 * t - 1)
  textra : highInt (m (btr + 32)) = 8 + (2 * t - 1) * 16

theorem Fields.congr {m m' : Mem} {btr t : ℕ} (h : Fields m btr t)
    (hm : ∀ y, btr + 16 ≤ y → y < btr + sizeofBtree → m' y = m y) : Fields m' btr t := by
  have h16 := hm (btr + 16) (by omega) (by simp only [sizeofBtree]; omega)
  have h24 := hm (btr + 24) (by omega) (by simp only [sizeofBtree]; omega)
  have h32 := hm (btr + 32) (by omega) (by simp only [sizeofBtree]; omega)
  exact ⟨by rw [h16, h.keyoff], by rw [h16, h.nodeptroff], by rw [h24, h.degree], by rw [h32, h.nbits],
    by rw [h32, h.textra]⟩

theorem Fields.file {m : Mem} {p x t : ℕ} (h : Fields m (p + x) t) : Fields (fileAt p m) x t := by
  obtain ⟨h1, h2, h3, h4, h5⟩ := h
  rw [Nat.add_assoc] at h1 h2 h3 h4 h5
  exact ⟨h1, h2, h3, h4, h5⟩

theorem Fields.mapped {m : Mem} {p x t : ℕ} (h : Fields (fileAt p m) x t) : Fields m (p + x) t := by
  obtain ⟨h1, h2, h3, h4, h5⟩ := h
  simp only [fileAt_apply, ← Nat.add_assoc] at h1 h2 h3 h4 h5
  exact ⟨h1, h2, h3, h4, h5⟩

theorem initBtree_fields (m : Mem) (btr tmp cmp : ℕ) {t : ℕ} (ht₀ : 0 < t) (ht : t < 2 ^ 27) :
    Fields (applyAll (initEvents m btr tmp cmp t) m) btr t := by
  have hnbits : nbitsOf (2 * t - 1) ≤ 32 := nbitsOf_le (by omega) (by omega)
  have h16 : applyAll (initEvents m btr tmp cmp t) m (btr + 16) =
      setHigh (setLow (m (btr + 16)) sizeofBtreenode) (sizeofBtreenode + (2 * t - 1) * 8) :=
    applyAll_of_last_store ((initEvents m btr tmp cmp t).take 3) ((initEvents m btr tmp cmp t).drop 4) rfl
      (by simp [initEvents])
  have h24 : applyAll (initEvents m btr tmp cmp t) m (btr + 24) = setHigh (setLow (m (btr + 24)) (2 * t - 1)) t :=
    applyAll_of_last_store ((initEvents m btr tmp cmp t).take 5) ((initEvents m btr tmp cmp t).drop 6) rfl
      (by simp [initEvents])
  have h32 : applyAll (initEvents m btr tmp cmp t) m (btr + 32) = setHigh (setLow (setLow (m (btr + 32))
      (log2 (2 * t - 1) 32 + 1)) (nbitsOf (2 * t - 1))) (8 + (2 * t - 1) * 16) :=
    applyAll_of_last_store ((initEvents m btr tmp cmp t).take 8) ((initEvents m btr tmp cmp t).drop 9) rfl
      (by simp [initEvents])
  constructor
  · rw [h16, lowInt_setHigh, lowInt_setLow]
    rfl
  · rw [h16, highInt_setHigh]
    exact Nat.mod_eq_of_lt (by simp only [sizeofBtreenode]; omega)
  · rw [h24, highInt_setHigh]
    exact Nat.mod_eq_of_lt (by omega)
  · rw [h32, lowInt_setHigh, lowInt_setLow]
    exact Nat.mod_eq_of_lt (by omega)
  · rw [h32, highInt_setHigh]
    exact Nat.mod_eq_of_lt (by omega)

/-! ## The allocations -/

section Steps
variable {w : World} {p e gclp : ℕ} {cs : List Clump} {D : ℕ → Prop}

theorem reservVirtual_ok {size : ℕ} {res : Reserved} {w' : World} (h : pmemallocReserve p gclp size w = (.ok res, w')) :
    pmemallocReservVirtual p size gclp w = (.ok ((pmem p res.ptr_, res.ptr_), res.gclp), w') := Prog.bind_ok h

/-- `PMEM(pmp, NULL)` is not `NULL`, and there is no clump below the pool. -/
theorem activateLocal_null (hp : p ≠ 0) (hfit : p < 2 ^ 64) (ha : 64 ∣ p) (hlow : ∀ a < p, w.mem a = 0) :
    ∃ msg w', pmemallocActivateLocal p 0 w = (.fatal msg, w') := by
  have hclp : clumpOf p 0 < p := by
    unfold clumpOf pmem pmemChunkSize
    omega
  have hload : Prog.load (clumpOf p 0) w = (.ok 0, w) := by rw [Prog.load_apply, hlow _ hclp]
  have hactive : pmemallocOnactive p 0 (pmem p pmemStaticOffset) 0 w = (.fatal _, w) := Prog.bind_ok hload
  exact ⟨_, w, by rw [pmemallocActivateLocal, Prog.bind_apply, hactive]⟩

theorem blankNode_runs (x : Bool) (m : Mem) (btn n : ℕ) : ∃ evs, Runs x (do
    bzeroWords btn (List.range ((sizeofBtreenode + n) / 8))
    setBits btn (setLeafBit · true)) m () evs ∧
    (∀ ev ∈ evs, ∀ y, ev.Writes y → btn ≤ y ∧ y < btn + (sizeofBtreenode + n)) ∧ applyAll evs m btn = 1 := by
  have hzero : applyAll ((List.range ((sizeofBtreenode + n) / 8)).map fun j => .store (btn + 8 * j) 0) m btn = 0 := by
    refine applyAll_of_store (List.mem_map.mpr ⟨0, List.mem_range.mpr ?_, by rw [Nat.mul_zero, Nat.add_zero]⟩)
      (fun v hv => ?_) m
    · simp only [sizeofBtreenode]
      omega
    · obtain ⟨j, -, heq⟩ := List.mem_map.mp hv
      exact (Event.store.inj heq).2.symm
  refine ⟨_, (bzeroWords_runs x m btn _).seq (setBits_runs x _ btn _), fun ev hev y hy => ?_, ?_⟩
  · rcases List.mem_append.mp hev with hev | hev
    · obtain ⟨j, hj, rfl⟩ := List.mem_map.mp hev
      have := List.mem_range.mp hj
      rw [Event.writes_store] at hy
      omega
    · obtain rfl := List.mem_singleton.mp hev
      rw [Event.writes_store] at hy
      simp only [sizeofBtreenode]
      omega
  · rw [applyAll_append, applyAll_store, applyAll_nil, Function.update_self, hzero]
    rfl

theorem carved_fill {d d' d'' : Mem} {cs' : List Clump} {c : Clump} (h : Carved d d' cs cs' c)
    (hc : Chain d' pmemClumpOffset cs' e) (hd : ∀ x, ¬ c.InPayload x → d'' x = d' x) : Carved d d'' cs cs' c := by
  refine ⟨h.mem, h.tag, fun i hi => ?_, h.kept, h.only, fun b hb hbt x h1 h2 => ?_⟩
  · rw [hd _ fun hin => (hin.outside hc h.mem).headers c h.mem (onOff_inHeader hi), h.off i hi]
  · rw [hd x fun hin => ?_, h.same b hb hbt x h1 h2]
    obtain ⟨hb', hbc⟩ := h.kept b hb hbt
    have := hin.1
    exact hbc (hc.tiles.eq_of_mem_overlap hb' h.mem ⟨h1, h2⟩ ⟨by omega, hin.2⟩)

theorem allocbtreenode_ok (h : Building w p cs e D) (hne : cs ≠ []) (hg : gclp = 0 ∨ ∃ c ∈ cs, gclp = p + c.addr)
    (hp : p ≠ 0) {n : ℕ} (hn : n < 2 ^ 32) :
    ∃ tmp g w', allocbtreenode p n gclp w = (.ok ((pmem p tmp, tmp), g), w') ∧
      ((tmp = 0 ∧ ¬ Fitting p gclp cs (reserveSize (sizeofBtreenode + n)) ∧ ∀ a < p, w'.mem a = 0) ∨
      ∃ c cs', tmp = c.addr + 64 ∧ sizeofBtreenode + n + 64 ≤ c.size ∧
        Fitting p gclp cs (reserveSize (sizeofBtreenode + n)) ∧
        Carved (fileAt p w.mem) (fileAt p w'.mem) cs cs' c ∧ w'.mem (p + tmp) = 1 ∧
        Building w' p cs' e fun x => D x ∨ c.InPayload x) := by
  have hfits := h.mapped.fits
  have hsize : sizeofBtreenode + n + 127 < 2 ^ 64 := by
    simp only [sizeofBtreenode]
    omega
  obtain ⟨res, w₁, hres, hcases⟩ := h.reserve hne hg hsize
  obtain ⟨evs, hruns, hwr, hone⟩ := blankNode_runs true w₁.mem (pmem p res.ptr_) n
  have hgo : ∀ w', (do
      bzeroWords (pmem p res.ptr_) (List.range ((sizeofBtreenode + n) / 8))
      setBits (pmem p res.ptr_) (setLeafBit · true)) w₁ = (.ok (), w') → pmem p res.ptr_ ≠ 0 →
      allocbtreenode p n gclp w = (.ok ((pmem p res.ptr_, res.ptr_), res.gclp), w') := by
    intro w' hrun hnz
    rw [allocbtreenode, Proc.bind_ok (reservVirtual_ok hres)]
    dsimp only
    rw [if_neg hnz, Proc.bind_ok (Proc.lift_ok hrun)]
    rfl
  rcases hcases with ⟨h0, -, hnone, h₁⟩ | ⟨c, cs', hptr, -, hsz, hfit, hcarved, h₁⟩
  · have hbtn : pmem p res.ptr_ = p := by rw [h0, pmem_eq (by omega), Nat.add_zero]
    obtain ⟨hres₂, hmem₂⟩ := hruns.mem_eq (w := w₁) rfl
    refine ⟨res.ptr_, _, _, hgo _ (Prod.ext hres₂ rfl) (by rwa [hbtn]), Or.inl ⟨h0, hnone, fun a ha => ?_⟩⟩
    rw [hmem₂, applyAll_of_not_writes fun ev hev hw => ?_, h₁.below a ha]
    have := (hwr ev hev a hw).1
    omega
  · have hb := h₁.chain.tiles.bounds hcarved.mem
    have hbtn : pmem p res.ptr_ = p + (c.addr + 64) := by rw [hptr, pmem_eq (by omega)]
    have hin : ∀ ev ∈ evs, ∀ y, ev.Writes y → ∃ x, y = p + x ∧ c.InPayload x := by
      intro ev hev y hy
      have := hwr ev hev y hy
      exact ⟨y - p, by omega, by omega, by omega⟩
    obtain ⟨w₂, hrun₂, hmem₂, h₂⟩ := h₁.store (List.ne_nil_of_mem hcarved.mem) hruns
      (fun x hx => Or.inr ⟨c, hcarved.mem, by rw [hcarved.tag]; decide, hx⟩) hin
    refine ⟨res.ptr_, _, w₂, hgo w₂ hrun₂ (by omega), Or.inr ⟨c, cs', hptr, hsz, hfit, ?_, ?_, h₂⟩⟩
    · refine carved_fill hcarved h₁.chain fun x hx => ?_
      rw [fileAt_apply, hmem₂]
      refine applyAll_of_not_writes (fun ev hev hw => ?_) _
      obtain ⟨y, heq, hy⟩ := hin ev hev _ hw
      exact hx (Nat.add_left_cancel heq ▸ hy)
    · rw [hmem₂, hptr, ← hbtn]
      exact hone

theorem allocRoot_ok (h : Building w p cs e D) (hne : cs ≠ []) (hg : gclp = 0 ∨ ∃ c ∈ cs, gclp = p + c.addr)
    (hp : p ≠ 0) {n x₀ : ℕ} (hn : n < 2 ^ 32) (hx : Held cs x₀) :
    ∃ tmp g w', allocRoot p (p + x₀) n gclp w = (.ok (tmp, g), w') ∧
      ((tmp = 0 ∧ ¬ Fitting p gclp cs (reserveSize (sizeofBtreenode + n)) ∧ ∀ a < p, w'.mem a = 0) ∨
      ∃ c cs', tmp = c.addr + 64 ∧ sizeofBtreenode + n + 64 ≤ c.size ∧
        Fitting p gclp cs (reserveSize (sizeofBtreenode + n)) ∧ w'.mem (p + x₀) = p + tmp ∧ w'.mem (p + tmp) = 1 ∧
        (∃ d, Carved (fileAt p w.mem) d cs cs' c ∧ ∀ x, x ≠ x₀ → ¬ c.InPayload x → fileAt p w'.mem x = d x) ∧
        Building w' p cs' e fun x => (D x ∨ c.InPayload x) ∨ x = x₀ ∨ c.InPayload x) := by
  have hfits := h.mapped.fits
  obtain ⟨tmp, g, w₁, halloc, hcases⟩ := allocbtreenode_ok h hne hg hp hn
  have hgo : ∀ w', (do
      Prog.store (p + x₀) (pmem p tmp)
      Prog.store (pmem p tmp + 8) tmp) w₁ = (.ok (), w') → pmem p tmp ≠ 0 →
      allocRoot p (p + x₀) n gclp w = (.ok (tmp, g), w') := by
    intro w' hrun hnz
    obtain rfl : _ = w' := congrArg Prod.snd hrun
    rw [allocRoot, Proc.bind_ok halloc]
    dsimp only
    rw [Proc.bind_ok (Proc.lift_ok (Prog.store_apply _ _ _)), if_neg hnz,
      Proc.bind_ok (Proc.lift_ok (Prog.store_apply _ _ _))]
    rfl
  have hruns : Runs true (do
      Prog.store (p + x₀) (pmem p tmp)
      Prog.store (pmem p tmp + 8) tmp) w₁.mem () [.store (p + x₀) (pmem p tmp), .store (pmem p tmp + 8) tmp] :=
    Runs.store_bind (Runs.store true _ _ _)
  rcases hcases with ⟨rfl, hnone, hlow⟩ | ⟨c, cs', rfl, hsz, hfit, hcarved, hone, h₁⟩
  · have hbtn : pmem p 0 = p := by rw [pmem_eq (by omega), Nat.add_zero]
    have hmem₂ := (hruns.mem_eq rfl).2
    obtain ⟨w₂, -, hrun₂, -⟩ := hruns w₁ rfl
    rw [hrun₂] at hmem₂
    refine ⟨0, g, w₂, hgo w₂ hrun₂ (by rwa [hbtn]), Or.inl ⟨rfl, hnone, fun a ha => ?_⟩⟩
    rw [hmem₂, hbtn, applyAll_store, applyAll_store, applyAll_nil, Function.update_of_ne (by omega),
      Function.update_of_ne (by omega), hlow a ha]
  · have hb := h₁.chain.tiles.bounds hcarved.mem
    simp only [sizeofBtreenode] at hsz
    have hbtn : pmem p (c.addr + 64) = p + (c.addr + 64) := pmem_eq (by omega)
    rw [hbtn] at hgo hruns
    have hapart : ¬ (c.addr ≤ x₀ ∧ x₀ < c.addr + c.size) := hcarved.apart h₁.chain.tiles hx
    have hin : ∀ ev ∈ [Event.store (p + x₀) (p + (c.addr + 64)), .store (p + (c.addr + 64) + 8) (c.addr + 64)],
        ∀ y, ev.Writes y → ∃ x, y = p + x ∧ (x = x₀ ∨ c.InPayload x) := by
      intro ev hev y hy
      rcases List.mem_cons.mp hev with rfl | hev
      · exact ⟨x₀, hy.symm, Or.inl rfl⟩
      · obtain rfl := List.mem_singleton.mp hev
        exact ⟨c.addr + 64 + 8, by rw [← hy, Nat.add_assoc], Or.inr ⟨by omega, by omega⟩⟩
    have hheld : ∀ x, x = x₀ ∨ c.InPayload x → Held cs' x := by
      rintro x (rfl | hx)
      · exact hcarved.held hx
      · exact Or.inr ⟨c, hcarved.mem, by rw [hcarved.tag]; decide, hx⟩
    obtain ⟨w₂, hrun₂, hmem₂, h₂⟩ := h₁.store (List.ne_nil_of_mem hcarved.mem) hruns hheld hin
    refine ⟨_, g, w₂, hgo w₂ hrun₂ (by omega), Or.inr ⟨c, cs', rfl, hsz, hfit, ?_, ?_, ⟨_, hcarved, fun x hx hxc => ?_⟩,
      h₂⟩⟩
    · rw [hmem₂, applyAll_store, applyAll_store, applyAll_nil, Function.update_of_ne (by omega), Function.update_self]
    · rw [hmem₂, applyAll_store, applyAll_store, applyAll_nil, Function.update_of_ne (by omega),
        Function.update_of_ne (by omega), hone]
    · rw [fileAt_apply, hmem₂]
      refine applyAll_of_not_writes (fun ev hev hw => ?_) _
      obtain ⟨y, heq, hy⟩ := hin ev hev _ hw
      obtain rfl : x = y := Nat.add_left_cancel heq
      exact hy.elim hx hxc

theorem activateLocal_ok {c : Clump} (h : Building w p cs e D) (hc : c ∈ cs) (ht : c.tag = .reserved)
    (hoff : ∀ i < 3, fileAt p w.mem (onOff c.addr i) = 0) :
    ∃ w' cs', pmemallocActivateLocal p (c.addr + 64) w = (.ok (), w') ∧
      Building w' p cs' e (fun x => D x ∧ ¬ c.InPayload x) ∧ c.set .active ∈ cs' ∧
      (∀ b ∈ cs, b ≠ c → b ∈ cs') ∧ (∀ b ∈ cs', b = c.set .active ∨ b ∈ cs ∧ b ≠ c) ∧
      fileAt p w'.mem pmemStaticOffset = c.addr + 64 ∧
      ∀ x, x ≠ pmemStaticOffset → ¬ c.InHeader x → fileAt p w'.mem x = fileAt p w.mem x := by
  have hout : Outside cs e pmemStaticOffset := inStatic_root.outside h.chain
  obtain ⟨w₁, hrun₁, h₁, hreg, hkeep₁⟩ := h.register (v := c.addr + 64) hc ht hoff (by decide) hout.lt
  obtain ⟨w₂, cs', hrun₂, h₂, hmem, hkept, honly, hslot, hkeep₂⟩ := h₁.activate hc ht hreg hout
  refine ⟨w₂, cs', by rw [pmemallocActivateLocal, Prog.bind_ok hrun₁, hrun₂], h₂, hmem, hkept, honly, hslot,
    fun x hx hxc => ?_⟩
  rw [hkeep₂ x hx hxc, hkeep₁ x hxc]

theorem initStruct_ok (h : Building w p cs e D) (hne : cs ≠ []) {x₀ t : ℕ} (tmp cmp : ℕ) (ht₀ : 0 < t) (ht : t < 2 ^ 27)
    (hheld : ∀ x, x₀ ≤ x ∧ x < x₀ + sizeofBtree → Held cs x) :
    ∃ w₁ w₂, clearBtree (p + x₀) w = (.ok (), w₁) ∧ initBtree (p + x₀) tmp cmp t w₁ = (.ok (), w₂) ∧
      Building w₂ p cs e (fun x => D x ∨ x₀ ≤ x ∧ x < x₀ + sizeofBtree) ∧ Fields w₂.mem (p + x₀) t ∧
      ∀ x, ¬ (x₀ ≤ x ∧ x < x₀ + sizeofBtree) → fileAt p w₂.mem x = fileAt p w.mem x := by
  have hoffset : ∀ {evs : List Event}, (∀ ev ∈ evs, ∀ y, ev.Writes y → p + x₀ ≤ y ∧ y < p + x₀ + sizeofBtree) →
      ∀ ev ∈ evs, ∀ y, ev.Writes y → ∃ x, y = p + x ∧ x₀ ≤ x ∧ x < x₀ + sizeofBtree := by
    intro evs hw ev hev y hy
    have := hw ev hev y hy
    exact ⟨y - p, by omega, by omega, by omega⟩
  have hkeep : ∀ {evs : List Event} {m : Mem}, (∀ ev ∈ evs, ∀ y, ev.Writes y → p + x₀ ≤ y ∧ y < p + x₀ + sizeofBtree) →
      ∀ x, ¬ (x₀ ≤ x ∧ x < x₀ + sizeofBtree) → applyAll evs m (p + x) = m (p + x) := by
    intro evs m hw x hx
    refine applyAll_of_not_writes (fun ev hev hy => hx ?_) m
    have := hw ev hev _ hy
    omega
  obtain ⟨evs, hruns₁, hw₁⟩ := clearBtree_runs true w.mem (p + x₀)
  obtain ⟨w₁, hrun₁, hmem₁, h₁⟩ := h.store hne hruns₁ hheld (hoffset hw₁)
  have hw₂ : ∀ ev ∈ initEvents w₁.mem (p + x₀) tmp cmp t, ∀ y, ev.Writes y → p + x₀ ≤ y ∧ y < p + x₀ + sizeofBtree :=
    fun ev hev y hy => writes_initEvents hev hy
  obtain ⟨w₂, hrun₂, hmem₂, h₂⟩ := h₁.store hne (initBtree_runs true w₁.mem (p + x₀) tmp cmp t) hheld (hoffset hw₂)
  refine ⟨w₁, w₂, hrun₁, hrun₂, h₂.weaken fun x hx => by tauto, ?_, fun x hx => ?_⟩
  · rw [hmem₂]
    exact initBtree_fields w₁.mem (p + x₀) tmp cmp ht₀ ht
  · rw [fileAt_apply, fileAt_apply, hmem₂, hkeep hw₂ x hx, hmem₁, hkeep hw₁ x hx]

theorem plantRoot_ok (h : Building w p cs e D) (hne : cs ≠ []) (hg : gclp = 0 ∨ ∃ c ∈ cs, gclp = p + c.addr)
    (hp : p ≠ 0) {n x₀ : ℕ} (hn : n < 2 ^ 32) (hx : Held cs x₀) (hslot : x₀ ≠ pmemStaticOffset) :
    ∃ tmp g w₁, allocRoot p (p + x₀) n gclp w = (.ok (tmp, g), w₁) ∧
      ((¬ Fitting p gclp cs (reserveSize (sizeofBtreenode + n)) ∧
          ∃ msg w₂, pmemallocActivateLocal p tmp w₁ = (.fatal msg, w₂)) ∨
        Fitting p gclp cs (reserveSize (sizeofBtreenode + n)) ∧
        ∃ w₂ b cs', pmemallocActivateLocal p tmp w₁ = (.ok (), w₂) ∧ Building w₂ p cs' e (fun x => D x ∨ x = x₀) ∧
          b ∈ cs' ∧ b.tag = .active ∧ sizeofBtreenode + n + 64 ≤ b.size ∧ w₂.mem (p + x₀) = p + (b.addr + 64) ∧
          w₂.mem (p + (b.addr + 64)) = 1 ∧ (∀ c ∈ cs, c.tag ≠ .free → c ∈ cs' ∧ c ≠ b) ∧
          (∀ c ∈ cs', c = b ∨ c.tag = .free ∨ c ∈ cs) ∧ ∀ c ∈ cs, c.tag ≠ .free → ∀ x, x ≠ x₀ → c.addr ≤ x →
            x < c.addr + c.size → fileAt p w₂.mem x = fileAt p w.mem x) := by
  obtain ⟨tmp, g, w₁, hroot, hcases⟩ := allocRoot_ok h hne hg hp hn hx
  refine ⟨tmp, g, w₁, hroot, ?_⟩
  have hfits := h.mapped.fits
  rcases hcases with ⟨rfl, hnone, hlow⟩ | ⟨c, cs', rfl, hsz, hfit, hroot, hone, ⟨d, hcarved, hsame⟩, h₁⟩
  · exact Or.inl ⟨hnone, activateLocal_null hp (by omega) h.mapped.aligned hlow⟩
  have hb := h₁.chain.tiles.bounds hcarved.mem
  simp only [sizeofBtreenode, pmemClumpOffset] at hsz hb
  have hapart : ¬ (c.addr ≤ x₀ ∧ x₀ < c.addr + c.size) := hcarved.apart h₁.chain.tiles hx
  have hoff : ∀ i < 3, fileAt p w₁.mem (onOff c.addr i) = 0 := by
    intro i hi
    rw [hsame, hcarved.off i hi]
    · unfold onOff
      omega
    · intro hin
      have := hin.1
      unfold onOff at this
      omega
  obtain ⟨w₂, cs'', hrun, h₂, hmem, hkept, honly, -, hkeep⟩ := activateLocal_ok h₁ hcarved.mem hcarved.tag hoff
  have hout : ∀ x, ¬ (c.addr ≤ x ∧ x < c.addr + c.size) → ¬ c.InHeader x :=
    fun x hx hin => hx ⟨hin.1, by have := hin.2; omega⟩
  refine Or.inr ⟨hfit, w₂, c.set .active, cs'', hrun, h₂.weaken fun x hx => by tauto, hmem, rfl, hsz, ?_, ?_,
    fun b hb hbt => ?_, fun b hb => ?_, fun b hb hbt x hx₀ h1 h2 => ?_⟩
  · exact (hkeep x₀ hslot (hout x₀ hapart)).trans hroot
  · refine (hkeep (c.addr + 64) (by simp only [pmemStaticOffset]; omega) fun hin => ?_).trans hone
    have := hin.2
    omega
  · obtain ⟨hb', hbc⟩ := hcarved.kept b hb hbt
    exact ⟨hkept b hb' hbc, fun heq => hbc (h₁.chain.tiles.eq_of_addr hb' hcarved.mem (by rw [heq]; rfl))⟩
  · refine (honly b hb).imp_right fun ⟨hb', hbc⟩ => ?_
    exact (hcarved.only b hb').resolve_left hbc
  · obtain ⟨hb', hbc⟩ := hcarved.kept b hb hbt
    have hbb := (h₁.chain.tiles.bounds hb').1
    simp only [pmemClumpOffset] at hbb
    have hxc : ¬ (c.addr ≤ x ∧ x < c.addr + c.size) :=
      fun hin => hbc (h₁.chain.tiles.eq_of_mem_overlap hb' hcarved.mem ⟨h1, h2⟩ hin)
    rw [hkeep x (by simp only [pmemStaticOffset]; omega) (hout x hxc),
      hsame x hx₀ fun hin => hxc ⟨by have := hin.1; omega, hin.2⟩, hcarved.same b hb hbt x h1 h2]

end Steps

/-! ## The tree -/

/-- The file holds what `bt_create` makes: the struct in `a` and its root in `b`. -/
structure Planted (d : Mem) (p : ℕ) (cs : List Clump) (a b : Clump) (t : ℕ) : Prop where
  struct : a ∈ cs ∧ a.tag = .active ∧ sizeofBtree + 64 ≤ a.size
  node : b ∈ cs ∧ b.tag = .active ∧ sizeofBtreenode + (8 + (2 * t - 1) * 16) + 64 ≤ b.size
  slot : d pmemStaticOffset = a.addr + 64
  root : d (a.addr + 64) = p + (b.addr + 64)
  fields : Fields d (a.addr + 64) t

/-- Two reservations, of `n` and of `n'` bytes, that look from the front of the walk: the second from where
the first found room. -/
def Roomy (n n' : ℕ) : List Clump → Prop
  | [] => False
  | c :: cs => if c.Fits n then ∃ b ∈ reservedAs c n ++ cs, b.Fits n' else Roomy n n' cs

theorem roomy_append {n n' : ℕ} {l r : List Clump} (hl : ∀ b ∈ l, ¬ b.Fits n) : Roomy n n' (l ++ r) ↔ Roomy n n' r := by
  induction l with
  | nil => rfl
  | cons c l ih =>
    rw [List.cons_append, Roomy, if_neg (hl c (by simp))]
    exact ih fun b hb => hl b (List.mem_cons_of_mem c hb)

theorem not_roomy {n n' : ℕ} {cs : List Clump} (h : ∀ b ∈ cs, ¬ b.Fits n) : ¬ Roomy n n' cs := by
  have : Roomy n n' (cs ++ []) ↔ Roomy n n' [] := roomy_append h
  rw [List.append_nil] at this
  exact this.not.mpr id

theorem fitting_iff_roomy {p e n n' : ℕ} {ps l r : List Clump} {c : Clump} (hp : p ≠ 0) (hfit : c.Fits n)
    (hskip : ∀ b ∈ l, ¬ b.Fits n) (ht : Tiles 64 pmemClumpOffset (ps ++ l ++ reservedAs c n ++ r) e) :
    Fitting p (p + c.addr) (ps ++ l ++ reservedAs c n ++ r) n' ↔ Roomy n n' (l ++ c :: r) := by
  obtain ⟨sz, r', hres, -⟩ := reservedAs_eq c hfit.2
  have hcursor : cursorOff p (p + c.addr) = c.addr := by
    rw [cursorOff, if_neg (by omega), Nat.add_sub_cancel_left]
  rw [List.append_assoc (ps ++ l)] at ht ⊢
  obtain ⟨x, -, hx⟩ := tiles_append.mp ht
  have hxc : c.addr = x := by
    rw [hres] at hx
    exact (tiles_cons.mp hx).1
  rw [fitting_iff ht (by rw [hcursor, hxc]; exact hx) (by rw [hres]; simp), roomy_append hskip, Roomy, if_pos hfit]

/-- What `bt_create` reserves for the root. -/
def rootRoom (size : Int32) : ℕ := reserveSize (sizeofBtreenode + (8 + (2 * (degree size).toNat - 1) * 16))

theorem reserveStruct_ok {w : World} {p e gclp : ℕ} {D : ℕ → Prop} {ps gs : List Clump} (h : Building w p (ps ++ gs) e D)
    (hne : gs ≠ []) (hg : gclp = 0 ∨ p ≤ gclp) (hgs : Chain (fileAt p w.mem) (cursorOff p gclp) gs e) (hp : p ≠ 0)
    (n' : ℕ) : ∃ res w' x₀ cs', pmemallocReserve p gclp sizeofBtree w = (.ok res, w') ∧ pmem p res.ptr_ = p + x₀ ∧
      Building w' p cs' e D ∧ cs' ≠ [] ∧ (res.gclp = 0 ∨ ∃ c ∈ cs', res.gclp = p + c.addr) ∧
      (∀ x, x₀ ≤ x ∧ x < x₀ + sizeofBtree → x ≠ pmemStaticOffset ∧ Held cs' x) ∧
      (res.ptr_ = 0 ∧ ¬ Roomy (reserveSize sizeofBtree) n' gs ∨ ∃ a, res.ptr_ = a.addr + 64 ∧ x₀ = a.addr + 64 ∧
        sizeofBtree + 64 ≤ a.size ∧ Carved (fileAt p w.mem) (fileAt p w'.mem) (ps ++ gs) cs' a ∧
        (Fitting p res.gclp cs' n' ↔ Roomy (reserveSize sizeofBtree) n' gs)) := by
  have hfits := h.mapped.fits
  obtain ⟨res, w₁, hres, ⟨h0, hgc, hnone, h₁⟩ | ⟨l, c, r, sz, rfl, hskip, hfit, hptr, hgc, hsz, hcarved, h₁⟩⟩ :=
    h.reserve_walk hne hg hgs (show sizeofBtree + 127 < 2 ^ 64 by decide)
  · refine ⟨res, w₁, 0, ps ++ gs, hres, by rw [h0, pmem_eq (by omega)], h₁, List.append_ne_nil_of_right_ne_nil ps hne,
      ?_, fun x hx => ⟨?_, Or.inl ?_⟩, Or.inl ⟨h0, not_roomy hnone⟩⟩
    · rw [hgc, or_iff_not_imp_left]
      intro hg0
      obtain ⟨c, gs, rfl⟩ := List.exists_cons_of_ne_nil hne
      have haddr := (tiles_cons.mp hgs.tiles).1
      rw [cursorOff, if_neg hg0] at haddr
      exact ⟨c, by simp, by omega⟩
    · simp only [sizeofBtree, pmemStaticOffset] at hx ⊢
      omega
    · simp only [sizeofBtree, pmemClumpOffset] at hx ⊢
      omega
  · have hb := h₁.chain.tiles.bounds hcarved.mem
    have hmem := hcarved.mem
    simp only [sizeofBtree, pmemClumpOffset] at hb hsz
    refine ⟨res, w₁, c.addr + 64, _, hres, by rw [hptr, pmem_eq (by omega)], h₁, List.ne_nil_of_mem hmem,
      Or.inr ⟨_, hmem, hgc⟩, fun x hx => ⟨?_, Or.inr ⟨_, hmem, fun heq => State.noConfusion heq, hx.1, ?_⟩⟩,
      Or.inr ⟨⟨c.addr, sz, .reserved⟩, hptr, rfl, hsz, hcarved, ?_⟩⟩
    · simp only [pmemStaticOffset]
      omega
    · simp only [sizeofBtree] at hx
      dsimp only
      omega
    · rw [hgc]
      exact fitting_iff_roomy hp hfit hskip h₁.chain.tiles

theorem btCreate_cases {w : World} {p e gclp : ℕ} {D : ℕ → Prop} {ps gs : List Clump} {size : Int32}
    (h : Building w p (ps ++ gs) e D) (hfa : ∀ c ∈ ps ++ gs, c.tag = .free ∨ c.tag = .active) (hne : gs ≠ [])
    (hg : gclp = 0 ∨ p ≤ gclp) (hgs : Chain (fileAt p w.mem) (cursorOff p gclp) gs e) (hp : p ≠ 0) (cmp : ℕ)
    (hsize : 2 ≤ degree size) :
    (¬ Roomy (reserveSize sizeofBtree) (rootRoom size) gs ∧ ∃ msg w', btCreate p cmp size gclp w = (.fatal msg, w')) ∨
    Roomy (reserveSize sizeofBtree) (rootRoom size) gs ∧ ∃ g w' cs' a b,
      btCreate p cmp size gclp w = (.ok (p + (a.addr + 64), g), w') ∧ Building w' p cs' e D ∧
      (∀ c ∈ cs', c.tag = .free ∨ c.tag = .active) ∧ Planted (fileAt p w'.mem) p cs' a b (degree size).toNat ∧ a ≠ b ∧
      w'.mem (p + (b.addr + 64)) = 1 := by
  have hfits := h.mapped.fits
  have ht := degree_lt size
  have hpos : 0 < (size - 24).toInt / 16 := by
    unfold degree at hsize
    omega
  have hn₀ : 0 < (degree size).toNat := by omega
  have hn' : (degree size).toNat < 2 ^ 27 := by omega
  have hn : 8 + (2 * (degree size).toNat - 1) * 16 < 2 ^ 32 := by omega
  obtain ⟨res, w₁, x₀, cs₁, hres, hbtr, h₁, hne₁, hg₁, hheld, hkind⟩ := reserveStruct_ok h hne hg hgs hp (rootRoom size)
  have hx₀ : x₀ ≤ x₀ ∧ x₀ < x₀ + sizeofBtree := ⟨le_refl _, by simp only [sizeofBtree]; omega⟩
  obtain ⟨w₂, w₃, hclear, hinit, h₃, hfields, hkeep₃⟩ := initStruct_ok h₁ hne₁ res.ptr_ cmp
    hn₀ hn' fun x hx => (hheld x hx).2
  obtain ⟨tmp, g₄, w₄, hroot, hcases⟩ := plantRoot_ok h₃ hne₁ hg₁ hp hn (hheld x₀ hx₀).2 (hheld x₀ hx₀).1
  have hgo : btCreate p cmp size gclp w = (do
      Proc.lift (pmemallocActivateLocal p tmp)
      Proc.lift (pmemallocActivateLocal p res.ptr_)
      return p + x₀ : Proc ℕ) g₄ w₄ := by
    rw [btCreate, if_pos ⟨hpos, hsize⟩]
    dsimp only
    rw [Proc.bind_ok (reservVirtual_ok hres)]
    dsimp only
    rw [if_neg (hbtr ▸ (Nat.add_pos_left (Nat.pos_of_ne_zero hp) x₀).ne'), hbtr, Proc.bind_ok (Proc.lift_ok hclear),
      Proc.bind_ok (Proc.lift_ok hinit), Proc.bind_ok hroot]
  rcases hcases with ⟨hnone, msg, w₅, hfatal⟩ | ⟨hfit, w₅, b, cs₅, hlink, h₅, hb, hbt, hbsz, hpoint, hone, hkept, honly,
    hkeep₅⟩
  · refine Or.inl ⟨?_, msg, w₅, by rw [hgo, Proc.bind_fatal (Proc.lift_fatal hfatal)]⟩
    rcases hkind with ⟨-, hno⟩ | ⟨a, -, -, -, -, hiff⟩
    · exact hno
    · exact fun hroomy => hnone (hiff.mpr hroomy)
  rw [Proc.bind_ok (Proc.lift_ok hlink)] at hgo
  rcases hkind with ⟨h0, hno⟩ | ⟨a, hptr, rfl, hasz, hcarved, hiff⟩
  · obtain ⟨msg, w₆, hfatal⟩ := activateLocal_null hp (by omega) h.mapped.aligned h₅.below
    rw [h0] at hgo
    exact Or.inl ⟨hno, msg, w₆, by rw [hgo, Proc.bind_fatal (Proc.lift_fatal hfatal)]⟩
  have hab := hcarved.mem
  have hanf : a.tag ≠ .free := by rw [hcarved.tag]; decide
  obtain ⟨ha₅, hne_ab⟩ := hkept a hab hanf
  simp only [sizeofBtree] at hasz
  have hoff : ∀ i < 3, fileAt p w₅.mem (onOff a.addr i) = 0 := by
    intro i hi
    rw [hkeep₅ a hab hanf _ (by unfold onOff; omega) (by unfold onOff; omega) (by unfold onOff; omega),
      hkeep₃ _ (by unfold onOff; omega), hcarved.off i hi]
  obtain ⟨w₆, cs₆, hactive, h₆, hmem₆, hkept₆, honly₆, hslot₆, hkeep₆⟩ := activateLocal_ok h₅ ha₅ hcarved.tag hoff
  rw [hptr, Proc.bind_ok (Proc.lift_ok hactive)] at hgo
  have hb₅ := h₅.chain.tiles.bounds hb
  have ha₅' := h₅.chain.tiles.bounds ha₅
  simp only [pmemClumpOffset, sizeofBtreenode] at hb₅ ha₅' hbsz
  have hstruct : ∀ x, a.addr + 64 ≤ x → x < a.addr + a.size → fileAt p w₆.mem x = fileAt p w₅.mem x := by
    intro x h1 h2
    refine hkeep₆ x (by simp only [pmemStaticOffset]; omega) fun hin => ?_
    have := hin.2
    omega
  refine Or.inr ⟨hiff.mp hfit, g₄, w₆, cs₆, a.set .active, b, hgo, h₆.weaken fun x hx => ?_, fun c hc => ?_,
    ⟨⟨hmem₆, rfl, ?_⟩, ⟨hkept₆ b hb (Ne.symm hne_ab), hbt, ?_⟩, hslot₆, ?_, ?_⟩, fun heq => ?_, ?_⟩
  · obtain ⟨(hx | hx) | hx, hxa⟩ := hx
    · exact hx
    · exact absurd ⟨by omega, by simp only [sizeofBtree] at hx; omega⟩ hxa
    · exact absurd ⟨by omega, by omega⟩ hxa
  · rcases honly₆ c hc with rfl | ⟨hc, hca⟩
    · exact Or.inr rfl
    · rcases honly c hc with rfl | hc | hc
      · exact Or.inr hbt
      · exact Or.inl hc
      · rcases hcarved.only c hc with rfl | hc | hc
        · exact absurd rfl hca
        · exact Or.inl hc
        · exact hfa c hc
  · simpa using hasz
  · exact hbsz
  · exact (hstruct (a.addr + 64) (le_refl _) (by omega)).trans hpoint
  · refine hfields.file.congr fun y h1 h2 => ?_
    simp only [sizeofBtree] at h2
    rw [hstruct y (by omega) (by omega), hkeep₅ a hab hanf y (by omega) (by omega) (by omega)]
  · exact hne_ab (h₅.chain.tiles.eq_of_addr ha₅ hb (by rw [← heq]; rfl))
  · refine (hkeep₆ (b.addr + 64) (by simp only [pmemStaticOffset]; omega) fun hin => hne_ab ?_).trans hone
    obtain ⟨h1, h2⟩ := hin
    exact h₅.chain.tiles.eq_of_mem_overlap ha₅ hb ⟨h1, by omega⟩ ⟨by omega, by omega⟩

theorem btCreate_ok {w w' : World} {p e gclp g btr cmp : ℕ} {D : ℕ → Prop} {cs : List Clump} {size : Int32}
    (h : Building w p cs e D) (hfa : ∀ c ∈ cs, c.tag = .free ∨ c.tag = .active) (hne : cs ≠ [])
    (hg : gclp = 0 ∨ ∃ c ∈ cs, gclp = p + c.addr) (hp : p ≠ 0)
    (hrun : btCreate p cmp size gclp w = (.ok (btr, g), w')) :
    ∃ cs' a b, Building w' p cs' e D ∧ (∀ c ∈ cs', c.tag = .free ∨ c.tag = .active) ∧
      Planted (fileAt p w'.mem) p cs' a b (degree size).toNat ∧ a ≠ b ∧ btr = p + (a.addr + 64) ∧
      2 ≤ degree size ∧ w'.mem (p + (b.addr + 64)) = 1 := by
  have ht : 2 ≤ degree size := by
    by_contra hlt
    rw [btCreate, if_neg fun hsize => hlt hsize.2] at hrun
    cases hrun
  obtain ⟨hg', ps, gs, rfl, hgs, hsearch⟩ := search_of_walk h.chain hne hg
  rcases btCreate_cases h hfa hgs hg' hsearch hp cmp ht with
    ⟨-, msg, w₁, hfatal⟩ | ⟨-, g₁, w₁, cs', a, b, hok, h', hfa', hplant, hab, hone⟩
  · rw [hfatal] at hrun
    cases hrun
  · rw [hok] at hrun
    obtain ⟨hres, rfl⟩ := Prod.mk.inj hrun
    obtain ⟨rfl, -⟩ := Prod.mk.inj (Outcome.ok.inj hres)
    exact ⟨cs', a, b, h', hfa', hplant, hab, rfl, ht, hone⟩

end PmemExamples.BTree
