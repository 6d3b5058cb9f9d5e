import PmemExamples.Pool.Client

/-! # Prepending to a linked list (`libpmemalloc/pmemalloc_test1.c`)

The documented allocation pattern: reserve a node, fill it in, register the store to the list head,
activate. Between two prepends the active clumps are exactly the nodes of the list (`ListOf`). A
prepend that runs to its end adds a node or finds no room; a crash in it leaves a file that recovers
to the list with or without that node. -/

namespace PmemExamples.Test1
open Persist Libpmem Tiling Pool
set_option autoImplicit false

/-! ## The program -/

/-- `sizeof(struct node)`: `next_`, then `value` and four bytes of padding. -/
@[simp] abbrev sizeofNode : ℕ := 16

/-- A store to an `int` in the low half of a word. -/
def storeInt (a : ℕ) (v : UInt32) : Prog Unit := do
  let word ← Prog.load a
  Prog.store a (word / 2 ^ 32 * 2 ^ 32 + v.toNat)

/-- `PMEM(pmp, np_)->next_ = sp->rootnp_; PMEM(pmp, np_)->value = value;` -/
def fillNode (pmp np_ : ℕ) (value : UInt32) : Prog Unit := do
  let rootnp_ ← Prog.load (pmem pmp pmemStaticOffset)
  Prog.store (pmem pmp np_) rootnp_
  storeInt (pmem pmp np_ + 8) value

/-- The body of the loop over the numbers; `none` when `pmemalloc_reserve` returns `NULL`, else the
cursor it leaves. -/
def prepend (pmp gclp : ℕ) (value : UInt32) : Prog (Option ℕ) := do
  let res ← pmemallocReserve pmp gclp sizeofNode
  if res.ptr_ = 0 then return none
  else do
    fillNode pmp res.ptr_ value
    pmemallocOnactive pmp res.ptr_ (pmem pmp pmemStaticOffset) res.ptr_
    pmemallocActivate pmp res.ptr_
    return some res.gclp

/-! ## The list in the file -/

/-- The nodes met from a pointer on, each with its value; 0 ends the list. -/
def ListFrom (d : Mem) : ℕ → List (ℕ × UInt32) → Prop
  | ptr_, [] => ptr_ = 0
  | ptr_, (np_, v) :: rest => ptr_ = np_ ∧ np_ ≠ 0 ∧ d (np_ + 8) % 2 ^ 32 = v.toNat ∧
      ListFrom d (d np_) rest

theorem ListFrom.congr {d d' : Mem} :
    ∀ {nodes : List (ℕ × UInt32)} {ptr_ : ℕ}, ListFrom d ptr_ nodes →
      (∀ n ∈ nodes.map Prod.fst, d' n = d n ∧ d' (n + 8) = d (n + 8)) → ListFrom d' ptr_ nodes
  | [], _, h, _ => h
  | (np_, v) :: rest, _, ⟨h1, h2, h3, h4⟩, hd => by
    obtain ⟨hn, hv⟩ := hd np_ (by simp)
    refine ⟨h1, h2, by rw [hv]; exact h3, ?_⟩
    rw [hn]
    exact h4.congr fun n hm => hd n (by simp [hm])

theorem ListFrom.unique {d : Mem} :
    ∀ {nodes nodes' : List (ℕ × UInt32)} {ptr_ : ℕ}, ListFrom d ptr_ nodes →
      ListFrom d ptr_ nodes' → nodes = nodes'
  | [], [], _, _, _ => rfl
  | [], _ :: _, _, h, h' => absurd (h'.1.symm.trans h) h'.2.1
  | _ :: _, [], _, h, h' => absurd (h.1.symm.trans h') h.2.1
  | (n, v) :: rest, (n', v') :: rest', _, h, h' => by
    obtain rfl : n = n' := h.1.symm.trans h'.1
    obtain rfl : v = v' := UInt32.toNat_inj.mp (h.2.2.1.symm.trans h'.2.2.1)
    rw [ListFrom.unique h.2.2.2 h'.2.2.2]

/-- The list from the head in the static area is `nodes`, and the active clumps are its nodes. -/
structure ListOf (nodes : List (ℕ × UInt32)) (d : Mem) (cs : List Clump) : Prop where
  list : ListFrom d (d pmemStaticOffset) nodes
  nodup : (nodes.map Prod.fst).Nodup
  actives : ∀ n, n ∈ nodes.map Prod.fst ↔ ∃ c ∈ cs, c.tag = .active ∧ c.addr + 64 = n
  room : ∀ c ∈ cs, c.tag = .active → 128 ≤ c.size

theorem ListOf.payload {nodes : List (ℕ × UInt32)} {d : Mem} {cs : List Clump} {n : ℕ}
    (h : ListOf nodes d cs) (hn : n ∈ nodes.map Prod.fst) :
    ∃ c ∈ cs, c.tag = .active ∧ c.InPayload n ∧ c.InPayload (n + 8) := by
  obtain ⟨c, hc, ht, rfl⟩ := (h.actives n).mp hn
  have := h.room c hc ht
  exact ⟨c, hc, ht, ⟨by omega, by omega⟩, ⟨by omega, by omega⟩⟩

theorem stable_listOf (nodes : List (ℕ × UInt32)) : Stable (ListOf nodes) := by
  intro d d' cs cs' h hcs hstatic hpay
  refine ⟨?_, h.nodup, fun n => ?_, fun c hc ht => h.room c ((hcs c ht).mp hc) ht⟩
  · rw [hstatic _ inStatic_root]
    refine h.list.congr fun n hn => ?_
    obtain ⟨c, hc, ht, h1, h2⟩ := h.payload hn
    exact ⟨hpay c hc ht _ h1, hpay c hc ht _ h2⟩
  · rw [h.actives]
    constructor
    · rintro ⟨c, hc, ht, hn⟩; exact ⟨c, (hcs c ht).mpr hc, ht, hn⟩
    · rintro ⟨c, hc, ht, hn⟩; exact ⟨c, (hcs c ht).mp hc, ht, hn⟩

theorem ListOf.link {d d' : Mem} {cs cs' : List Clump} {nodes : List (ℕ × UInt32)} {c : Clump}
    {v : UInt32} (h : ListOf nodes d cs) (hc : c.tag = .active) (hsz : 128 ≤ c.size)
    (hfresh : ∀ b ∈ cs, b.tag = .active → b.addr ≠ c.addr)
    (hcs : ∀ b : Clump, b.tag = .active → (b ∈ cs' ↔ b = c ∨ b ∈ cs))
    (hroot : d' pmemStaticOffset = c.addr + 64) (hnext : d' (c.addr + 64) = d pmemStaticOffset)
    (hval : d' (c.addr + 64 + 8) % 2 ^ 32 = v.toNat)
    (hpay : ∀ b ∈ cs, b.tag = .active → ∀ x, b.InPayload x → d' x = d x) :
    ListOf ((c.addr + 64, v) :: nodes) d' cs' := by
  have hnew : c.addr + 64 ∉ nodes.map Prod.fst := by
    intro hm
    obtain ⟨b, hb, hbt, hbn⟩ := (h.actives _).mp hm
    exact hfresh b hb hbt (by omega)
  refine ⟨⟨hroot, by omega, hval, ?_⟩, ?_, fun n => ?_, fun b hb hbt => ?_⟩
  · rw [hnext]
    refine h.list.congr fun n hn => ?_
    obtain ⟨b, hb, hbt, h1, h2⟩ := h.payload hn
    exact ⟨hpay b hb hbt _ h1, hpay b hb hbt _ h2⟩
  · rw [List.map_cons, List.nodup_cons]
    exact ⟨hnew, h.nodup⟩
  · rw [List.map_cons, List.mem_cons, h.actives]
    constructor
    · rintro (rfl | ⟨b, hb, hbt, hbn⟩)
      · exact ⟨c, (hcs c hc).mpr (Or.inl rfl), hc, rfl⟩
      · exact ⟨b, (hcs b hbt).mpr (Or.inr hb), hbt, hbn⟩
    · rintro ⟨b, hb, hbt, rfl⟩
      rcases (hcs b hbt).mp hb with rfl | hb
      · exact Or.inl rfl
      · exact Or.inr ⟨b, hb, hbt, rfl⟩
  · rcases (hcs b hbt).mp hb with rfl | hb
    · exact hsz
    · exact h.room b hb hbt

/-! ## The steps of a prepend -/

section Steps
variable {w : World} {p gclp e : ℕ} {l r cs : List Clump} {c : Clump} {nodes : List (ℕ × UInt32)}
  {v : UInt32}

/-- What `fillNode` stores. -/
def fillEvents (d : Mem) (c : Clump) (v : UInt32) : List Event :=
  [.store (c.addr + 64) (d pmemStaticOffset),
    .store (c.addr + 64 + 8) (d (c.addr + 64 + 8) / 2 ^ 32 * 2 ^ 32 + v.toNat)]

theorem fillNode_runs (x : Bool) {m : Mem} (hp : Mapped p e) (hc : c.addr + 128 ≤ e)
    (hs : pmemClumpOffset ≤ e) (v : UInt32) :
    Runs x (fillNode p (c.addr + 64) v) m () (relocate p (fillEvents (fileAt p m) c v)) := by
  have hfits := hp.fits
  simp only [pmemClumpOffset] at hs
  have h1 : pmem p pmemStaticOffset = p + pmemStaticOffset :=
    pmem_eq (by simp only [pmemStaticOffset]; omega)
  have h2 : pmem p (c.addr + 64) = p + (c.addr + 64) := pmem_eq (by omega)
  have h3 : Function.update m (p + (c.addr + 64)) (m (p + pmemStaticOffset)) (p + (c.addr + 64) + 8) =
      m (p + (c.addr + 64 + 8)) := Function.update_of_ne (by omega) _ _
  unfold fillNode
  rw [h1, h2]
  refine Runs.load_bind rfl (Runs.store_bind (Runs.load_bind h3 ?_))
  exact Runs.store x _ _ _

theorem writes_fillEvents {d : Mem} {ev : Event} {y : ℕ} (hev : ev ∈ fillEvents d c v)
    (hy : ev.Writes y) : y = c.addr + 64 ∨ y = c.addr + 64 + 8 := by
  simp only [fillEvents, List.mem_cons, List.not_mem_nil, or_false] at hev
  rcases hev with rfl | rfl
  · exact Or.inl hy.symm
  · exact Or.inr hy.symm

/-- The words of a node that points to the head of the list. -/
structure Filled (d : Mem) (c : Clump) (v : UInt32) : Prop where
  next_ : d (c.addr + 64) = d pmemStaticOffset
  value : d (c.addr + 64 + 8) % 2 ^ 32 = v.toNat

theorem fill_step (h : Holding w p l c r e (ListOf nodes)) (hsz : 128 ≤ c.size) (v : UInt32)
    (hoff : ∀ i < 3, fileAt p w.mem (onOff c.addr i) = 0) :
    Survives w (fillNode p (c.addr + 64) v) (fun img => RecoversTo e (fileAt p img) (ListOf nodes))
      fun _ w' => Holding w' p l c r e (ListOf nodes) ∧
        (∀ i < 3, fileAt p w'.mem (onOff c.addr i) = 0) ∧ Filled (fileAt p w'.mem) c v := by
  have hb := h.chain.tiles.bounds h.mem
  have hc : c.addr + 128 ≤ e := by omega
  have hruns := fillNode_runs true (m := w.mem) h.mapped hc h.chain.tiles.le v
  have hin : ∀ ev ∈ fillEvents (fileAt p w.mem) c v, ∀ y, ev.Writes y → c.InPayload y := by
    intro ev hev y hy
    rcases writes_fillEvents hev hy with rfl | rfl <;> constructor <;> omega
  refine (h.step hruns (fun ev hev y hy => (hin ev hev y hy).isPrivate) (Or.inr hin)).mono
    (fun _ => id) ?_
  rintro - w' ⟨-, hhold, hfile⟩
  have hroot : pmemStaticOffset ≠ c.addr + 64 ∧ pmemStaticOffset ≠ c.addr + 64 + 8 := by
    simp only [pmemClumpOffset] at hb
    simp only [pmemStaticOffset]
    omega
  refine ⟨hhold, fun i hi => ?_, ⟨?_, ?_⟩⟩
  · rw [hfile, applyAll_of_not_writes, hoff i hi]
    intro ev hev hy
    have := (hin ev hev _ hy).1
    unfold onOff at this
    omega
  · rw [hfile, fillEvents, applyAll_store, applyAll_store, applyAll_nil,
      Function.update_of_ne (by omega), Function.update_self, Function.update_of_ne hroot.2,
      Function.update_of_ne hroot.1]
  · rw [hfile, fillEvents, applyAll_store, applyAll_store, applyAll_nil, Function.update_self]
    have := v.toNat_lt
    omega

theorem register_step (h : Holding w p l c r e (ListOf nodes)) (hsz : 128 ≤ c.size)
    (hoff : ∀ i < 3, fileAt p w.mem (onOff c.addr i) = 0) (hf : Filled (fileAt p w.mem) c v) :
    Survives w (pmemallocOnactive p (c.addr + 64) (pmem p pmemStaticOffset) (c.addr + 64))
      (fun img => RecoversTo e (fileAt p img) (ListOf nodes))
      fun _ w' => Holding w' p l c r e (ListOf nodes) ∧ Filled (fileAt p w'.mem) c v ∧
        registered (fileAt p w'.mem) c = [(pmemStaticOffset, c.addr + 64)] := by
  have hroot := inStatic_root.outside h.chain
  have ho : pmemStaticOffset ≠ 0 := by decide
  refine (h.register hoff ho hroot.lt (c.addr + 64)).mono (fun _ => id) ?_
  rintro - w' ⟨hhold, hreg, hkeep⟩
  have hpay : ∀ x, c.InPayload x → fileAt p w'.mem x = fileAt p w.mem x :=
    fun x hx => hkeep x ((hx.outside h.chain h.mem).headers c h.mem)
  refine ⟨hhold, ⟨?_, ?_⟩, hreg⟩
  · rw [hkeep _ (hroot.headers c h.mem), hpay _ ⟨by omega, by omega⟩, hf.next_]
  · rw [hpay _ ⟨by omega, by omega⟩, hf.value]

theorem activate_step (h : Holding w p l c r e (ListOf nodes)) (hsz : 128 ≤ c.size)
    (hf : Filled (fileAt p w.mem) c v)
    (hreg : registered (fileAt p w.mem) c = [(pmemStaticOffset, c.addr + 64)]) :
    Survives w (pmemallocActivate p (c.addr + 64))
      (fun img => RecoversTo e (fileAt p img) (ListOf nodes) ∨
        RecoversTo e (fileAt p img) (ListOf ((c.addr + 64, v) :: nodes)))
      fun _ w' => Ready w' p (p + c.addr) (l ++ c.set .active :: r) e
        (ListOf ((c.addr + 64, v) :: nodes)) := by
  have hroot := inStatic_root.outside h.chain
  refine h.activate (by simpa [hreg] using hroot) (by simp [hreg]) (stable_listOf _)
    fun d' cs' hcs hd => ?_
  have hpay : ∀ b ∈ l ++ c :: r, ∀ x, b.InPayload x → d' x = fileAt p w.mem x := by
    intro b hb x hx
    rw [hd x (hx.outside h.chain hb), hreg]
    refine applyAll_execEvents_of_not_mem (fun s hs heq => ?_) _
    rw [List.mem_singleton] at hs
    have hb' := (h.chain.tiles.bounds hb).1
    have hx' := hx.1
    simp only [pmemClumpOffset] at hb'
    rw [← heq, hs] at hx'
    simp only [pmemStaticOffset] at hx'
    omega
  refine h.state.link (c := c.set .active) rfl hsz (fun b hb hbt heq => ?_) hcs ?_ ?_ ?_
    fun b hb _ x hx => hpay b hb x hx
  · obtain rfl := h.chain.tiles.eq_of_addr hb h.mem heq
    rw [h.tag] at hbt
    cases hbt
  · rw [hd _ hroot, hreg]
    exact applyAll_execEvents_of_mem (by simp) (List.mem_singleton_self _) _
  · exact (hpay c h.mem _ ⟨le_refl _, by omega⟩).trans hf.next_
  · exact (congrArg (· % 2 ^ 32) (hpay c h.mem (c.addr + 64 + 8) ⟨by omega, by omega⟩)).trans hf.value

/-- A prepend adds the node, or the clumps `gs` of its search have no room and it changes nothing; a crash in
it leaves a file that recovers to the list with or without the node. -/
theorem prepend_step (h : Ready w p gclp cs e (ListOf nodes)) (v : UInt32) :
    Survives w (prepend p gclp v)
      (fun img => RecoversTo e (fileAt p img) (ListOf nodes) ∨
        ∃ n, RecoversTo e (fileAt p img) (ListOf ((n, v) :: nodes)))
      fun o w' => ∃ gs, Chain (fileAt p w.mem) (cursorOff p gclp) gs e ∧
        ((o = none ∧ (∀ b ∈ gs, ¬ b.Fits (reserveSize sizeofNode)) ∧ Ready w' p gclp cs e (ListOf nodes)) ∨
          (∃ b ∈ gs, b.Fits (reserveSize sizeofNode)) ∧
            ∃ n g cs', o = some g ∧ Ready w' p g cs' e (ListOf ((n, v) :: nodes))) := by
  unfold prepend
  refine ((h.reserve (by norm_num)).mono (fun img hi => Or.inl hi) fun _ _ => id).bind ?_
  rintro ⟨ptr_, errno, g⟩ w₁ ⟨gs, hgs, ⟨h0, hnone, h₁⟩ | ⟨hsome, l, c, r, hptr, hg, h₁, hsz, hoff⟩⟩
  · obtain rfl : ptr_ = 0 := h0
    refine Survives.pure none (fun img hi => Or.inl ?_) ⟨gs, hgs, Or.inl ⟨rfl, hnone, h₁⟩⟩
    rw [h₁.clean.image hi]
    exact h₁.recoversTo
  obtain rfl : ptr_ = c.addr + 64 := hptr
  obtain rfl : g = p + c.addr := hg
  have hsz' : 128 ≤ c.size := hsz
  rw [if_neg (by dsimp only; omega)]
  refine ((fill_step h₁ hsz' v hoff).mono (fun img hi => Or.inl hi) fun _ _ => id).bind ?_
  rintro - w₂ ⟨h₂, hoff, hf⟩
  refine ((register_step h₂ hsz' hoff hf).mono (fun img hi => Or.inl hi) fun _ _ => id).bind ?_
  rintro - w₃ ⟨h₃, hf, hreg⟩
  refine ((activate_step h₃ hsz' hf hreg).mono (fun img hi => hi.imp_right fun h => ⟨_, h⟩)
    fun _ _ => id).bind ?_
  rintro - w₄ h₄
  refine Survives.pure _ (fun img hi => Or.inr ⟨c.addr + 64, ?_⟩)
    ⟨gs, hgs, Or.inr ⟨hsome, c.addr + 64, _, _, rfl, h₄⟩⟩
  rw [h₄.clean.image hi]
  exact h₄.recoversTo

end Steps

end PmemExamples.Test1
