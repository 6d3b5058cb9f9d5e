import PmemExamples.BTree.Leaf

/-! # Crashes of an insertion

As long as the root is a leaf with room, every crash of `bt_insert` recovers to a tree whose nodes are in
active clumps (`btInsert_survives`). An insertion that meets a full root activates new nodes, and each
activation stores to the root slot (`fullRoot_lost`). -/

namespace PmemExamples.BTree
open Persist Libpmem Pool Tiling
set_option autoImplicit false

/-! ## What is reachable -/

/-- The nodes reached from the struct at `btr`, by the first `n + 1` pointers of those that are no leaves. -/
inductive Reachable (m : Mem) (btr : ℕ) : ℕ → Prop where
  | root : Reachable m btr (m btr)
  | child {x : ℕ} {i : ℤ} (h : Reachable m btr x) (hleaf : leafBit (m x) = false) (h₀ : 0 ≤ i) (hn : i ≤ nField (m x)) :
      Reachable m btr (m (slotAddr (x + highInt (m (btr + 16))) i))

/-- The root slot leads to the struct at `btr`, and every node reached from it lies in an active clump. -/
def Intact (m : Mem) (p btr e : ℕ) : Prop :=
  fileAt p m pmemStaticOffset = off p btr ∧ ∃ cs, Chain (fileAt p m) pmemClumpOffset cs e ∧
    ∀ x, Reachable m btr x → ∃ c ∈ cs, c.tag = .active ∧ p + (c.addr + 64) ≤ x ∧
      x + sizeofBtreenode + highInt (m (btr + 32)) ≤ p + (c.addr + c.size)

/-- The file is as `d` but for the payload of `b`, which holds a leaf. -/
def SameShape (p : ℕ) (d : Mem) (b : Clump) (img : Mem) : Prop :=
  (∀ x, ¬ b.InPayload x → fileAt p img x = d x) ∧ leafBit (img (p + (b.addr + 64))) = true

section Tree
variable {w : World} {d img m : Mem} {p e t btr k g : ℕ} {cs : List Clump} {a b : Clump} {cmp : ℕ → ℕ → ℤ}

theorem Planted.bounds (h : Planted d p cs a b t) (hc : Chain d pmemClumpOffset cs e) :
    (16384 ≤ a.addr ∧ a.addr + a.size ≤ e ∧ 112 ≤ a.size) ∧ 16384 ≤ b.addr ∧ b.addr + b.size ≤ e ∧
      88 + (2 * t - 1) * 16 ≤ b.size := by
  have ha := hc.tiles.bounds h.struct.1
  have hb := hc.tiles.bounds h.node.1
  have hasz := h.struct.2.2
  have hbsz := h.node.2.2
  simp only [pmemClumpOffset, sizeofBtree, sizeofBtreenode] at ha hb hasz hbsz
  omega

theorem Planted.struct_kept (h : Planted d p cs a b t) (hc : Chain d pmemClumpOffset cs e) (hab : a ≠ b) {x : ℕ}
    (hx : a.addr ≤ x ∧ x < a.addr + a.size) : ¬ b.InPayload x := by
  rintro ⟨h1, h2⟩
  exact hab (hc.tiles.eq_of_mem_overlap h.struct.1 h.node.1 hx ⟨by omega, h2⟩)

theorem SameShape.congr (h : SameShape p d b img) (hm : ∀ x, ¬ b.InPayload x → fileAt p m x = fileAt p img x)
    (hleaf : m (p + (b.addr + 64)) = img (p + (b.addr + 64))) : SameShape p d b m :=
  ⟨fun x hx => (hm x hx).trans (h.1 x hx), by rw [hleaf, h.2]⟩

theorem SameShape.fields (h : SameShape p d b img) (hp : Planted d p cs a b t) (hc : Chain d pmemClumpOffset cs e)
    (hab : a ≠ b) : img (p + (a.addr + 64)) = p + (b.addr + 64) ∧ Fields img (p + (a.addr + 64)) t := by
  have hkept : ∀ x, a.addr ≤ x ∧ x < a.addr + a.size → fileAt p img x = d x :=
    fun x hx => h.1 x (hp.struct_kept hc hab hx)
  obtain ⟨⟨-, -, hasz⟩, -⟩ := hp.bounds hc
  refine ⟨(hkept (a.addr + 64) ⟨by omega, by omega⟩).trans hp.root,
    (hp.fields.congr fun y h1 h2 => hkept y ?_).mapped⟩
  simp only [sizeofBtree] at h2
  omega

theorem reachable_leaf (hr : m btr = k) (hleaf : leafBit (m k) = true) {x : ℕ} (h : Reachable m btr x) : x = k := by
  induction h with
  | root => exact hr
  | child _ hl _ _ ih =>
    rw [ih, hleaf] at hl
    cases hl

theorem SameShape.recovered (h : SameShape p d b img) (hp : Planted d p cs a b t) (hc : Chain d pmemClumpOffset cs e)
    (hab : a ≠ b) (hfa : ∀ c ∈ cs, c.tag = .free ∨ c.tag = .active) (hm : Mapped p e) {w₁ : World}
    (hw₁ : fileAt p w₁.mem = fileAt p img) :
    ∃ w₂, recovery p w₁ = (.ok (), w₂) ∧ Intact w₂.mem p (p + (a.addr + 64)) e := by
  obtain ⟨⟨ha, hae, hasz⟩, hb, hbe, hbsz⟩ := hp.bounds hc
  have hfits := hm.fits
  have hout : ∀ x, b.InPayload x → Outside cs e x := fun x hx => hx.outside hc hp.node.1
  have hchain : Chain (fileAt p img) pmemClumpOffset cs e :=
    hc.congr (fun c hcm => h.1 _ fun hin => (hout _ hin).headers c hcm (addr_inHeader c))
      (h.1 _ fun hin => lt_irrefl e (hout _ hin).lt)
  obtain ⟨w₂, hrun, hchain₂, hsame⟩ := recovered_of_states hm (hw₁ ▸ hchain) fun c hcm => (hfa c hcm).imp_right Or.inr
  rw [hw₁] at hsame
  refine ⟨w₂, hrun, ?_⟩
  -- recovery stores to headers only
  have hstruct : ∀ x, a.InPayload x → fileAt p w₂.mem x = fileAt p img x :=
    fun x hx => hsame x (hx.outside hc hp.struct.1)
  have hslot : fileAt p w₂.mem pmemStaticOffset = a.addr + 64 := by
    rw [hsame _ (inStatic_root.outside hc), h.1 _ fun hin => ?_, hp.slot]
    have := hin.1
    simp only [pmemStaticOffset] at this
    omega
  obtain ⟨hroot, hfields⟩ := h.fields hp hc hab
  have hroot₂ : w₂.mem (p + (a.addr + 64)) = p + (b.addr + 64) := (hstruct _ ⟨by omega, by omega⟩).trans hroot
  have hfields₂ : Fields w₂.mem (p + (a.addr + 64)) t := by
    refine (hfields.file.congr fun y h1 h2 => hstruct y ⟨by omega, ?_⟩).mapped
    simp only [sizeofBtree] at h2
    omega
  have hleaf₂ : leafBit (w₂.mem (p + (b.addr + 64))) = true := by
    rw [show w₂.mem (p + (b.addr + 64)) = img (p + (b.addr + 64)) from hsame _ (hout _ ⟨by omega, by omega⟩), h.2]
  refine ⟨?_, normalForm cs, hchain₂, fun x hx => ⟨b, mem_normalForm_of_active hp.node.1 hp.node.2.1, hp.node.2.1, ?_⟩⟩
  · rw [hslot, off_eq (by omega) (by omega)]
    omega
  · rw [reachable_leaf hroot₂ hleaf₂ hx, hfields₂.textra]
    simp only [sizeofBtreenode]
    omega

/-! ## Insertions -/

/-- A process whose tree is one leaf with `n` keys, planted as in `d`. -/
structure Leafy (w : World) (p : ℕ) (d : Mem) (b : Clump) (n : ℕ) : Prop where
  images : ∀ img, CrashImage w.base w.trace img → SameShape p d b img
  count : nField (w.mem (p + (b.addr + 64))) = n

theorem Leafy.room {n : ℕ} (h : Leafy w p d b n) (hp : Planted d p cs a b t) (hc : Chain d pmemClumpOffset cs e)
    (hab : a ≠ b) (hm : Mapped p e) (hlt : n < 2 * t - 1) (hshort : n < 2 ^ 14) :
    Room w.mem (p + (a.addr + 64)) (p + (b.addr + 64)) t n := by
  obtain ⟨⟨ha, hae, hasz⟩, hb, hbe, hbsz⟩ := hp.bounds hc
  have hfits := hm.fits
  have hshape := h.images _ (CrashImage.all _ _)
  obtain ⟨hroot, hfields⟩ := hshape.fields hp hc hab
  refine ⟨hroot, hfields.keyoff, hfields.degree, hshape.2, h.count, hlt, hshort, ?_, ?_⟩
  · simp only [sizeofBtree, sizeofBtreenode]
    rcases hc.tiles.disjoint hp.struct.1 hp.node.1 hab with h' | h' <;> omega
  · simp only [sizeofBtreenode]
    omega

/-- An insertion that finds room: a crash in it leaves a tree of one leaf, and so does its end. -/
theorem Leafy.insert {n : ℕ} (h : Leafy w p d b n) (hp : Planted d p cs a b t) (hc : Chain d pmemClumpOffset cs e)
    (hab : a ≠ b) (hm : Mapped p e) (hlt : n < 2 * t - 1) (hshort : n < 2 ^ 14) (cmp : ℕ → ℕ → ℤ) :
    Survives w (btInsert (pmemOps p (p + (a.addr + 64))) cmp loopFuel k g) (SameShape p d b) fun r w' =>
      r = ((), g) ∧ (n + 1 < 2 ^ 14 → Leafy w' p d b (n + 1)) := by
  obtain ⟨-, hb, hbe, hbsz⟩ := hp.bounds hc
  obtain ⟨evs, hruns, hw, hleaf, hn⟩ := btInsert_runs (p := p) (k := k) (g := g)
    (h.room hp hc hab hm hlt hshort) cmp
  have hcrash : ∀ img, CrashDuring (btInsert (pmemOps p (p + (a.addr + 64))) cmp loopFuel k g) w img →
      SameShape p d b img := by
    refine fun img hcr => ⟨fun x hx => ?_, ?_⟩
    · refine hruns.crash_word (P := fun v => v = d x) hcr (fun m₀ hm₀ => (h.images m₀ hm₀).1 x hx) fun v hv => ?_
      have hin := hw _ hv (p + x) rfl
      simp only [sizeofBtreenode] at hin
      exact absurd ⟨by omega, by omega⟩ hx
    · exact hruns.crash_word (P := fun v => leafBit v = true) hcr (fun m₀ hm₀ => (h.images m₀ hm₀).2) hleaf
  have hmem := (hruns.mem_eq rfl).2
  have hext := hruns.extends_world rfl
  obtain ⟨w', -, hrun, -⟩ := hruns w rfl
  rw [hrun] at hmem hext
  refine ⟨hcrash, _, w', hrun, hext, rfl, fun hnext => ⟨fun img hi => hcrash img (hruns.crash_after ?_), ?_⟩⟩
  · rw [hrun]
    exact hi
  · rw [hmem]
    exact_mod_cast hn hnext

theorem Leafy.inserts (hp : Planted d p cs a b t) (hc : Chain d pmemClumpOffset cs e) (hab : a ≠ b) (hm : Mapped p e)
    (cmp : ℕ → ℕ → ℤ) :
    ∀ (ks : List ℕ) {n : ℕ} {w : World}, Leafy w p d b n → n + ks.length < 2 * t - 1 → n + ks.length < 2 ^ 14 →
      ∃ w', btInserts p (p + (a.addr + 64)) cmp ks g w = (.ok ((), g), w') ∧ Leafy w' p d b (n + ks.length)
  | [], n, w, h, _, _ => ⟨w, rfl, h⟩
  | k :: ks, n, w, h, hlt, hshort => by
    rw [List.length_cons] at hlt hshort
    obtain ⟨-, _, w₁, hrun, -, rfl, h₁⟩ := h.insert (k := k) (g := g) hp hc hab hm (by omega) (by omega) cmp
    obtain ⟨w', hruns, h'⟩ := Leafy.inserts hp hc hab hm cmp ks (h₁ (by omega)) (by omega) (by omega)
    refine ⟨w', ?_, ?_⟩
    · rw [btInserts, Proc.bind_ok hrun, hruns]
    · rw [List.length_cons, show n + (ks.length + 1) = n + 1 + ks.length by omega]
      exact h'

end Tree

/-! ## From the pool on -/

/-- On a pool just opened, with nothing of its recovery still to be written back, as long as no insertion, the one
that is interrupted included, meets a full root leaf: the insertions return, and every crash of one more recovers to
the struct of `bt_create` in the root slot and a tree in active clumps. -/
theorem btInsert_survives {p e : ℕ} (hp : Mapped p e) (hp0 : p ≠ 0) {w₀ w : World} (hopen : Opened p e w₀)
    (hclean : w₀.Clean) {size : Int32} {cmpAddr btr g : ℕ} (hcreate : btCreate p cmpAddr size 0 w₀ = (.ok (btr, g), w))
    (cmp : ℕ → ℕ → ℤ) (ks : List ℕ) (hroom : ks.length < 2 * degree size - 1) (hshort : ks.length < 2 ^ 14) :
    ∃ w', btInserts p btr cmp ks g w = (.ok ((), g), w') ∧ ∀ k img,
      CrashDuring (btInsert (pmemOps p btr) cmp loopFuel k g) w' img → ∀ w₁ : World, fileAt p w₁.mem = fileAt p img →
        ∃ w₂, recovery p w₁ = (.ok (), w₂) ∧ Intact w₂.mem p btr e := by
  obtain ⟨cs₀, hbuild₀, hfa₀, hne₀⟩ := hopen.building_of_clean hp hclean
  obtain ⟨cs, a, b, hbuild, hfa, hplant, hab, rfl, ht, hone⟩ := btCreate_ok hbuild₀ hfa₀ hne₀ (Or.inl rfl) hp0 hcreate
  have hstart : Leafy w p (fileAt p w.mem) b 0 := by
    refine ⟨fun img hi => ?_, by rw [hone]; rfl⟩
    have hclean : w.Clean := fun ℓ => hbuild.durable ℓ fun _ hf => hf.elim
    rw [hclean.image hi]
    exact ⟨fun x _ => rfl, by rw [hone]; rfl⟩
  obtain ⟨w', hruns, h'⟩ := Leafy.inserts (g := g) hplant hbuild.chain hab hp cmp ks hstart (by omega) (by omega)
  rw [Nat.zero_add] at h'
  refine ⟨w', hruns, fun k img hcr w₁ hw₁ => ?_⟩
  have hcrash := (h'.insert hplant hbuild.chain hab hp (by omega) hshort cmp).crash img hcr
  exact hcrash.recovered hplant hbuild.chain hab hfa hp hw₁

/-- The pool that `bt_create` makes. -/
def treePool : World :=
  World.boot (pmemMap 65536 ⟨536870912, applyAll
    [.store 16384 536854464, .store 12288 signature0, .store 12296 signature1, .store 12304 536870912]
    fun _ => 0⟩) false fun _ => true

theorem init_treePool :
    pmemallocInit none (1024 * 1024 * 512) 65536 false (fun _ => true) = .ok (.ok (), treePool) := rfl

/-- The tree of nodes of 72 bytes, three keys each. -/
def smallTree : World := (btCreate 65536 0 72 0 treePool).2

theorem run_eq {α : Type} {x : Outcome α × World} {a : Outcome α} (h : x.1 = a) : x = (a, x.2) := by
  rw [← h]

theorem crashDuring_all {α : Type} (prog : Prog α) (w : World) :
    CrashDuring prog w (applyAll (prog w).2.trace w.base) := by
  refine ⟨(prog w).2.trace.length, ?_⟩
  rw [List.take_of_length_le (Nat.le_add_left _ _)]
  exact CrashImage.all _ _

theorem create_smallTree : btCreate 65536 0 72 0 treePool = (.ok (81984, 82048), smallTree) := by
  unfold smallTree
  exact run_eq (by decide +kernel)

/-- A crash in the insertion of a second key. -/
theorem btInsert_survives_smallTree :
    ∃ w', btInserts 65536 81984 byValue [5] 82048 smallTree = (.ok ((), 82048), w') ∧ ∀ k img,
      CrashDuring (btInsert (pmemOps 65536 81984) byValue loopFuel k 82048) w' img →
        ∀ w₁ : World, fileAt 65536 w₁.mem = fileAt 65536 img →
          ∃ w₂, recovery 65536 w₁ = (.ok (), w₂) ∧ Intact w₂.mem 65536 81984 536870848 :=
  btInsert_survives ⟨by decide, by decide⟩ (by decide) (.created (by decide) rfl init_treePool)
    (clean_of_created ⟨by decide, by decide⟩ (by decide) init_treePool) create_smallTree byValue [5] (by decide)
      (by decide)

/-- The tree with a root that is full. -/
def fullTree : World := (btInserts 65536 81984 byValue [1, 2, 3] 82048 smallTree).2

/-- The memory if all that the insertion of a fourth key stored got there. -/
def splitImage : Mem :=
  applyAll (btInsert (pmemOps 65536 81984) byValue loopFuel 4 82048 fullTree).2.trace fullTree.base

theorem crash_splitImage :
    CrashDuring (btInsert (pmemOps 65536 81984) byValue loopFuel 4 82048) fullTree splitImage := by
  unfold splitImage
  exact crashDuring_all _ _

theorem inserts_fullTree : btInserts 65536 81984 byValue [1, 2, 3] 82048 smallTree = (.ok ((), 82048), fullTree) := by
  unfold fullTree
  exact run_eq (by decide +kernel)

/-- Recovery of that memory. -/
def lostPool : World := (recovery 65536 (World.boot splitImage false fun _ => true)).2

theorem recovery_splitImage : recovery 65536 (World.boot splitImage false fun _ => true) = (.ok (), lostPool) := by
  unfold lostPool
  exact run_eq (by decide +kernel)

theorem lostPool_slot : fileAt 65536 lostPool.mem pmemStaticOffset = 16768 := by decide +kernel

/-- Power is lost at the end of the insertion that splits the root, when all it stored is in memory: the
root slot holds the offset of the last node activated. -/
theorem fullRoot_lost :
    pmemallocInit none (1024 * 1024 * 512) 65536 false (fun _ => true) = .ok (.ok (), treePool) ∧
      btCreate 65536 0 72 0 treePool = (.ok (81984, 82048), smallTree) ∧
      btInserts 65536 81984 byValue [1, 2, 3] 82048 smallTree = (.ok ((), 82048), fullTree) ∧
      CrashDuring (btInsert (pmemOps 65536 81984) byValue loopFuel 4 82048) fullTree splitImage ∧
      recovery 65536 (World.boot splitImage false fun _ => true) = (.ok (), lostPool) ∧
      fileAt 65536 lostPool.mem pmemStaticOffset = 16768 ∧ off 65536 81984 = 16448 ∧
      ¬ Intact lostPool.mem 65536 81984 536870848 := by
  have hoff : off 65536 81984 = 16448 := off_eq (by decide) (by decide)
  exact ⟨init_treePool, create_smallTree, inserts_fullTree, crash_splitImage, recovery_splitImage, lostPool_slot, hoff,
    fun h => absurd (lostPool_slot.symm.trans (h.1.trans hoff)) (by decide)⟩

end PmemExamples.BTree
