import PmemExamples.WordTree.Shape

/-! # `tree_free`

The recursion frees a node after its subtrees, and each freeing writes `NULL` to the slot that linked
it. So between any two stores the file recovers to the tree less the subtrees freed so far, and its
active clumps are the nodes that are left. -/

namespace PmemExamples.WordTree
open Persist Libpmem Tiling Pool SearchTree
set_option autoImplicit false

variable {α : Type} {addr : α → ℕ} {t : BinaryTree α} {c : Context α} {d d' : Mem} {cs cs' : List Clump}
  {e p : ℕ} {w : World}

theorem NodesOf.prune {x : α} (h : NodesOf addr (c.plug (.node x .nil .nil)) d cs)
    (hc : Chain d pmemClumpOffset cs e) {b : Clump} (hb : b ∈ cs) (hba : b.addr + 64 = addr x)
    (hslot : d' (slot addr c) = 0)
    (hd : ∀ y, LinkWord addr (c.before ++ c.after) y → y ≠ slot addr c → d' y = d y)
    (hcs : ∀ a : Clump, a.tag = .active → (a ∈ cs' ↔ a ≠ b ∧ a ∈ cs)) : NodesOf addr (c.plug .nil) d' cs' := by
  have hsub : (inorder (c.plug .nil)).Sublist (inorder (c.plug (.node x .nil .nil))) := by
    rw [Context.inorder_plug, Context.inorder_plug]
    exact ((List.nil_sublist _).append_left _).append_right _
  have hmem : ∀ n, n ∈ (inorder (c.plug (.node x .nil .nil))).map addr ↔
      n = addr x ∨ n ∈ (inorder (c.plug .nil)).map addr := by
    intro n
    simp only [Context.inorder_plug, inorder_node, inorder_nil, List.map_append, List.mem_append, List.nil_append,
      List.append_nil, List.map_cons, List.map_nil, List.mem_cons, List.not_mem_nil, or_false]
    tauto
  have hx : addr x ∉ (inorder (c.plug .nil)).map addr := by
    have hn := h.nodup
    simp only [Context.inorder_plug, inorder_node, inorder_nil, List.map_append, List.nil_append, List.append_nil,
      List.map_cons, List.map_nil] at hn ⊢
    rw [List.append_assoc] at hn
    exact (List.nodup_middle.mp hn).notMem
  refine ⟨?_, h.nodup.sublist (hsub.map addr), fun n => ?_, fun a ha hat => h.room a ((hcs a hat).mp ha).2 hat⟩
  · exact h.links.replace (h.spread hc) hd hslot
  · constructor
    · intro hn
      obtain ⟨a, ha, hat, rfl⟩ := (h.actives n).mp ((hmem n).mpr (Or.inr hn))
      refine ⟨a, (hcs a hat).mpr ⟨?_, ha⟩, hat, rfl⟩
      rintro rfl
      exact hx (hba ▸ hn)
    · rintro ⟨a, ha, hat, rfl⟩
      obtain ⟨hne, ha⟩ := (hcs a hat).mp ha
      rcases (hmem _).mp ((h.actives _).mpr ⟨a, ha, hat, rfl⟩) with heq | hn
      · exact absurd (hc.tiles.eq_of_addr ha hb (by omega)) hne
      · exact hn

/-- A process in `tree_free`, between two calls of the library: the tree is `t`, every on-list is
empty and no two free clumps are side by side. -/
structure Freeing (w : World) (p e : ℕ) (addr : α → ℕ) (t : BinaryTree α) (cs : List Clump) : Prop where
  ready : Ready w p 0 cs e (NodesOf addr t)
  separated : Separated State.isFree cs
  clear : ∀ b ∈ cs, b.tag = .active → ∀ i < 3, fileAt p w.mem (onOff b.addr i) = 0

namespace Freeing

theorem node_lt (h : Freeing w p e addr t cs) {x : α} (hx : x ∈ inorder t) :
    pmem p (addr x) = p + addr x ∧ addr x + 64 ≤ e := by
  obtain ⟨b, hb, -, ha, hsz⟩ := h.ready.state.clump hx
  have h1 := (h.ready.chain.tiles.bounds hb).2
  have h2 := h.ready.mapped.fits
  exact ⟨pmem_eq (by omega), by omega⟩

theorem root_slot (h : Freeing w p e addr t cs) : pmem p pmemStaticOffset = p + slot addr (.top : Context α) := by
  have h1 := h.ready.chain.tiles.le
  have h2 := h.ready.mapped.fits
  simp only [pmemClumpOffset] at h1
  simp only [pmemStaticOffset, slot]
  exact pmem_eq (by omega)

theorem free_leaf {x : α} {β : Type} (g : ℕ → β) (h : Freeing w p e addr (c.plug (.node x .nil .nil)) cs) :
    Survives w (do
      pmemallocOnfree p (← Prog.load (p + slot addr c)) (p + slot addr c) 0
      let root_ ← Prog.load (p + slot addr c)
      pmemallocFree p root_
      return g root_)
      (fun img => ∃ t', RecoversTo e (fileAt p img) (NodesOf addr t'))
      fun b w' => b = g (addr x) ∧ ∃ cs', Freeing w' p e addr (c.plug .nil) cs' := by
  have hx : x ∈ inorder (c.plug (.node x .nil .nil)) := by simp [Context.inorder_plug]
  obtain ⟨b, hb, hbt, hba, hsz⟩ := h.ready.state.clump hx
  -- the slot is in the static area or in another node
  have hout : Outside cs e (slot addr c) := by
    rcases h.ready.state.slot_mem with hs | ⟨a, ha, -, hs⟩
    · exact hs.outside h.ready.chain
    · exact hs.outside h.ready.chain ha
  have hload : w.mem (p + slot addr c) = addr x := (links_plug.mp h.ready.state.links).2.1
  have hpmem : p + slot addr c = pmem p (slot addr c) := by
    have := h.ready.mapped.fits
    have := hout.lt
    rw [pmem_eq (by omega)]
  have hne : slot addr c ≠ 0 := by
    rcases h.ready.state.slot_mem with hs | ⟨a, ha, -, hs⟩
    · have := hs.1
      simp only [pmemStaticOffset] at this
      omega
    · have := hs.1
      omega
  refine Survives.load_bind hload ?_
  rw [← hba, hpmem]
  refine ((h.ready.onfree hb hbt (h.clear b hb hbt) hne hout.lt 0).mono (fun img hi => ⟨_, hi⟩) fun _ _ => id).bind ?_
  rintro - w₁ ⟨h₁, hreg, hkeep⟩
  have hload₁ : w₁.mem (pmem p (slot addr c)) = b.addr + 64 := by
    rw [← hpmem, hba]
    exact (links_plug.mp h₁.state.links).2.1
  refine Survives.load_bind hload₁ ?_
  have hspread := h₁.state.spread h₁.chain
  have hfree := h₁.free hb hbt (by rw [hreg]; simpa using hout) (by rw [hreg]; simp)
    (stable_nodesOf addr (c.plug .nil)) fun d' cs' hcs hd => ?_
  · refine (hfree.mono (fun img hi => hi.elim (fun h => ⟨_, h⟩) fun h => ⟨_, h⟩) fun _ _ => id).bind ?_
    rintro - w₂ ⟨cs', h₂, hsep, hact, hon⟩
    refine Survives.pure _ (fun img hi => ⟨c.plug .nil, ?_⟩) ⟨by rw [hba], cs', h₂, hsep, fun a ha hat i hi => ?_⟩
    · rw [h₂.clean.image hi]
      exact h₂.recoversTo
    · obtain ⟨hab, ham⟩ := (hact a hat).mp ha
      rw [hon a ha hat i hi, hkeep _ fun hin => h.ready.chain.header_disjoint ham hb hab (onOff_inHeader hi) hin]
      exact h.clear a ham hat i hi
  · -- what the assignment makes of the tree
    have hwords : ∀ y, LinkWord addr (c.before ++ c.after) y → Outside cs e y := by
      intro y hy
      have hy' : LinkWord addr (inorder (c.plug (.node x .nil .nil))) y := hy.mono fun z hz => by
        rw [Context.inorder_plug]
        simp only [List.mem_append] at hz ⊢
        tauto
      rcases h₁.state.linkWord hy' with hs | ⟨a, ha, -, hs⟩
      · exact hs.outside h₁.chain
      · exact hs.outside h₁.chain ha
    refine h₁.state.prune h₁.chain hb hba ?_ (fun y hy hys => ?_) hcs
    · rw [hd _ hout, hreg]
      exact applyAll_execEvents_of_mem (by simp) (List.mem_singleton_self _) _
    · rw [hd y (hwords y hy), hreg]
      refine applyAll_execEvents_of_not_mem (fun s hs heq => hys ?_) _
      rw [List.mem_singleton.mp hs] at heq
      exact heq.symm

theorem free_subtree : ∀ {t : BinaryTree α} {c : Context α} {w : World} {cs : List Clump} {fuel : ℕ},
    Freeing w p e addr (c.plug t) cs → t.height < fuel →
    Survives w (treeFreeSubtree p fuel (p + slot addr c))
      (fun img => ∃ t', RecoversTo e (fileAt p img) (NodesOf addr t'))
      fun freed w' => freed = (postorder t).map addr ∧ ∃ cs', Freeing w' p e addr (c.plug .nil) cs'
  | .nil, c, w, cs, fuel + 1, h, _ => by
    refine Survives.load_bind (links_plug.mp h.ready.state.links).2 ?_
    rw [if_pos rfl]
    refine Survives.pure _ (fun img hi => ⟨c.plug .nil, ?_⟩) ⟨rfl, cs, h⟩
    rw [h.ready.clean.image hi]
    exact h.ready.recoversTo
  | .node x l r, c, w, cs, fuel + 1, h, hf => by
    have hx : x ∈ inorder (c.plug (.node x l r)) := by simp [Context.inorder_plug]
    obtain ⟨hpx, hlt⟩ := h.node_lt hx
    rw [BinaryTree.height] at hf
    have hnz : addr x ≠ 0 := (links_plug.mp h.ready.state.links).2.2.1
    refine Survives.load_bind (links_plug.mp h.ready.state.links).2.1 ?_
    rw [if_neg hnz, show leftOf p (addr x) = p + slot addr (.left x r c) from hpx]
    refine (free_subtree (c := .left x r c) h (by omega)).bind ?_
    rintro freedL w₁ ⟨rfl, cs₁, h₁⟩
    refine Survives.load_bind (links_plug.mp h₁.ready.state.links).1.2.1 ?_
    have hright : rightOf p (addr x) = p + slot addr (.right x .nil c) := by
      rw [rightOf, hpx, Nat.add_assoc]
      rfl
    rw [hright]
    refine (free_subtree (c := .right x .nil c) h₁ (by omega)).bind ?_
    rintro freedR w₂ ⟨rfl, cs₂, h₂⟩
    refine (h₂.free_leaf fun root_ => (postorder l).map addr ++ (postorder r).map addr ++ [root_]).mono
      (fun _ => id) ?_
    rintro freed w' ⟨rfl, h'⟩
    exact ⟨by simp [postorder], h'⟩

end Freeing

theorem eq_singleton_of_separated (hs : Separated State.isFree cs) (hc : Chain d pmemClumpOffset cs e)
    (hfree : ∀ b ∈ cs, b.tag = .free) (hlt : pmemClumpOffset < e) :
    cs = [⟨pmemClumpOffset, e - pmemClumpOffset, .free⟩] := by
  match cs, hs, hc, hfree with
  | [], _, hc, _ => exact absurd (tiles_nil.mp hc.tiles) (ne_of_lt hlt)
  | [⟨a, size, tag⟩], _, hc, hfree =>
    obtain rfl : tag = .free := hfree _ (List.mem_singleton_self _)
    obtain ⟨ha, -, -, hend⟩ := tiles_cons.mp hc.tiles
    have hsz := tiles_nil.mp hend
    simp only at ha hsz
    rw [ha, show size = e - pmemClumpOffset by omega]
  | b :: b' :: cs, hs, _, hfree =>
    have hb := hfree b (by simp)
    have hb' := hfree b' (by simp)
    exact absurd ⟨by rw [hb]; rfl, by rw [hb']; rfl⟩ (List.isChain_cons_cons.mp hs).1

/-- `tree_free` frees every node once, leaves the root `NULL` and the pool as one free clump; and after a
crash anywhere in it recovery leaves a tree whose nodes are the active clumps. -/
theorem tree_free_crash_safe {t : BinaryTree ℕ} (hp : Mapped p e) (hlt : pmemClumpOffset < e)
    (hw : w.Persisting) (hclean : w.Clean) (hc : Chain (fileAt p w.mem) pmemClumpOffset cs e)
    (hsep : Separated State.isFree cs) (hstates : ∀ b ∈ cs, b.tag = .free ∨ b.tag = .active)
    (ht : NodesOf id t (fileAt p w.mem) cs)
    (hclear : ∀ b ∈ cs, b.tag = .active → ∀ i < 3, fileAt p w.mem (onOff b.addr i) = 0) :
    (∃ freed w', treeFree p w = (.ok freed, w') ∧ fileAt p w'.mem pmemStaticOffset = 0 ∧
      Chain (fileAt p w'.mem) pmemClumpOffset [⟨pmemClumpOffset, e - pmemClumpOffset, .free⟩] e ∧
      freed.Nodup ∧ ∀ n, n ∈ freed ↔ n ∈ inorder t) ∧
    ∀ img, CrashDuring (treeFree p) w img → ∀ p' w₂, Mapped p' e → Booted p' (fileAt p img) w₂ →
      ∃ w₃ cs' t', recovery p' w₂ = (.ok (), w₃) ∧ Chain (fileAt p' w₃.mem) pmemClumpOffset cs' e ∧
        (∀ b ∈ cs', b.tag = .free ∨ b.tag = .active) ∧ NodesOf id t' (fileAt p' w₃.mem) cs' := by
  have hne : cs ≠ [] := by
    rintro rfl
    exact absurd (tiles_nil.mp hc.tiles) (ne_of_lt hlt)
  have hfreeing : Freeing w p e id (Context.top.plug t) cs :=
    ⟨⟨hp, hw, hclean, hc, hne, hstates, stable_nodesOf _ _, ht, Or.inl rfl⟩, hsep, hclear⟩
  have hfits := hp.fits
  have hheight : t.height < loopFuel := by
    refine lt_of_le_of_lt ?_ (hc.length_lt (by omega))
    exact (height_le_length t).trans (ht.length_le)
  have hfree := hfreeing.free_subtree hheight
  rw [← hfreeing.root_slot] at hfree
  obtain ⟨hcrash, freed, w', hrun, -, rfl, cs', h'⟩ := hfree
  have hnone : ∀ b ∈ cs', b.tag = .free := fun b hb => (h'.ready.settled b hb).resolve_right fun hbt =>
    absurd ((h'.ready.state.actives _).mpr ⟨b, hb, hbt, rfl⟩) (by simp [Context.plug])
  rw [List.map_id] at hrun
  refine ⟨⟨_, w', hrun, h'.ready.state.links, ?_, ?_, fun n => (postorder_perm t).mem_iff⟩, ?_⟩
  · rw [← eq_singleton_of_separated h'.separated h'.ready.chain hnone hlt]
    exact h'.ready.chain
  · exact (postorder_perm t).nodup_iff.mpr (by simpa using ht.nodup)
  · intro img hcr p' w₂ hp' hb
    obtain ⟨t', hrec⟩ := hcrash img hcr
    obtain ⟨-, _, w₃, hrun', -, cs₃, hready⟩ := hrec.init (stable_nodesOf _ _) hlt hp' hb
    exact ⟨w₃, cs₃, t', hrun', hready.chain, hready.settled, hready.state⟩

/-- A pool with a node and its left child. -/
def twoNodes : Mem := applyAll [.store 4096 16448, .store 16384 (128 ||| 3), .store 16448 16576,
  .store 16512 (128 ||| 3), .store 16640 (64 ||| 0)] fun _ => 0

/-- Freeing both; or a crash after the child was committed to be freed, the next process mapping the pool
elsewhere. -/
theorem tree_free_crash_safe_twoNodes :
    let w := World.boot (mapAt 65536 twoNodes) false fun _ => true
    let img := applyAll ((treeFree 65536 w).2.trace.take 6) (mapAt 65536 twoNodes)
    (∃ freed w', treeFree 65536 w = (.ok freed, w') ∧ freed.Nodup ∧
      Chain (fileAt 65536 w'.mem) pmemClumpOffset [⟨16384, 320, .free⟩] 16704) ∧
    ∃ w₃ cs' t', recovery 8192 (World.boot (mapAt 8192 (fileAt 65536 img)) false fun _ => true) = (.ok (), w₃) ∧
      NodesOf id t' (fileAt 8192 w₃.mem) cs' := by
  have ht : NodesOf id (.node 16448 (.node 16576 .nil .nil) .nil) twoNodes
      [⟨16384, 128, .active⟩, ⟨16512, 128, .active⟩, ⟨16640, 64, .free⟩] :=
    { links := by simp [Links, twoNodes, Function.update]
      nodup := by decide
      actives := fun n => by
        simp only [inorder_node, inorder_nil, List.map_append, List.map_cons, List.map_nil, id, List.mem_append,
          List.mem_cons, List.not_mem_nil, or_false, false_or, exists_eq_or_imp, true_and, reduceCtorEq,
          false_and, Nat.reduceAdd, exists_eq_left]
        omega
      room := by decide }
  have hchain : Chain (fileAt 65536 (mapAt 65536 twoNodes)) pmemClumpOffset
      [⟨16384, 128, .active⟩, ⟨16512, 128, .active⟩, ⟨16640, 64, .free⟩] 16704 := ⟨by simp [Tiles], by decide, by decide⟩
  obtain ⟨⟨freed, w', hrun, -, hc, hn, -⟩, hcrash⟩ := tree_free_crash_safe (p := 65536) (e := 16704)
    (w := World.boot (mapAt 65536 twoNodes) false fun _ => true) ⟨by decide, by decide⟩ (by decide) (Or.inl rfl)
    (fun _ => Durable.boot _ _) hchain (by unfold Separated; decide) (by decide) (by simpa using ht) (by decide)
  obtain ⟨w₃, cs', t', hrun', -, -, ht'⟩ := hcrash _ ⟨6, CrashImage.all _ _⟩ 8192 _ ⟨by decide, by decide⟩
    (Booted.boot 8192 _ fun _ => true)
  exact ⟨⟨freed, w', hrun, hn, hc⟩, w₃, cs', t', hrun', ht'⟩

end PmemExamples.WordTree
