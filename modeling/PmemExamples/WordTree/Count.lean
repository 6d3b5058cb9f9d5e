import PmemExamples.Pool.Live
import PmemExamples.WordTree.Grow

/-! # Counting words

A run of insertions on a new pool, in any build: the tree at the root is sorted, and each node counts
how often its string was inserted. -/

namespace PmemExamples.WordTree
open Persist Libpmem Tiling Pool SearchTree
set_option autoImplicit false

/-! ## The tree an insertion makes -/

/-- A new node for `s` in the slot the search leads to, or one more for the node of `s`. -/
inductive Inserted (s : CString) : BinaryTree Tnode → BinaryTree Tnode → Prop where
  | new (c : Context Tnode) (n : ℕ) (h : Leads Tnode.s s c) :
      Inserted s (c.plug .nil) (c.plug (.node ⟨n, 1, s⟩ .nil .nil))
  | old (c : Context Tnode) (x : Tnode) (l r : BinaryTree Tnode) (h : x.s = s) :
      Inserted s (c.plug (.node x l r)) (c.plug (.node { x with count := (x.count + 1) % 2 ^ 32 } l r))

/-- The tree maps each string to its count. -/
structure Counts (t : BinaryTree Tnode) (f : CString → ℕ) : Prop where
  count : ∀ x ∈ inorder t, x.count = f x.s ∧ 0 < f x.s
  node : ∀ k, 0 < f k → ∃ x ∈ inorder t, x.s = k

theorem Inserted.counts {s : CString} {t t' : BinaryTree Tnode} {f : CString → ℕ} (h : Inserted s t t')
    (hs : Sorted Tnode.s t) (hf : Counts t f) (hlt : f s + 1 < 2 ^ 32) :
    Counts t' (Function.update f s (f s + 1)) := by
  cases h with
  | new c n hlead =>
    obtain ⟨hbefore, hafter⟩ := hlead.apart hs
    have hmem : ∀ x, x ∈ inorder (c.plug (.node ⟨n, 1, s⟩ .nil .nil)) ↔ x = ⟨n, 1, s⟩ ∨ x ∈ inorder (c.plug .nil) := by
      intro x
      rw [Context.mem_plug_node, Context.inorder_plug_nil]
    have hne : ∀ x ∈ inorder (c.plug .nil), x.s ≠ s := by
      intro x hx
      rw [Context.inorder_plug, inorder_nil, List.append_nil, List.mem_append] at hx
      exact hx.elim (fun h => (hbefore x h).ne) fun h => (hafter x h).ne'
    have hzero : f s = 0 := by
      by_contra hpos
      obtain ⟨x, hx, hxs⟩ := hf.node s (Nat.pos_of_ne_zero hpos)
      exact hne x hx hxs
    refine ⟨fun x hx => ?_, fun k hk => ?_⟩
    · rcases (hmem x).mp hx with rfl | hx
      · simp [hzero]
      · rw [Function.update_of_ne (hne x hx)]
        exact hf.count x hx
    · by_cases hks : k = s
      · exact ⟨_, (hmem _).mpr (Or.inl rfl), hks.symm⟩
      · rw [Function.update_of_ne hks] at hk
        obtain ⟨x, hx, hxk⟩ := hf.node k hk
        exact ⟨x, (hmem x).mpr (Or.inr hx), hxk⟩
  | old c x l r hx =>
    subst hx
    have hne := hs.key_ne
    have hx := hf.count x (Context.mem_plug_node.mpr (Or.inl rfl))
    refine ⟨fun y hy => ?_, fun k hk => ?_⟩
    · rcases Context.mem_plug_node.mp hy with rfl | hy
      · rw [Function.update_self]
        exact ⟨by dsimp only; omega, by omega⟩
      · rw [Function.update_of_ne (hne y hy)]
        exact hf.count y (Context.mem_plug_node.mpr (Or.inr hy))
    · by_cases hks : k = x.s
      · exact ⟨_, Context.mem_plug_node.mpr (Or.inl rfl), hks.symm⟩
      · rw [Function.update_of_ne hks] at hk
        obtain ⟨y, hy, hyk⟩ := hf.node k hk
        rcases Context.mem_plug_node.mp hy with rfl | hy
        · exact absurd hyk.symm hks
        · exact ⟨y, Context.mem_plug_node.mpr (Or.inr hy), hyk⟩

/-! ## The search -/

section Search
variable {w : World} {p gclp e : ℕ} {cs : List Clump} {s : CString} {t : BinaryTree Tnode}

/-- The descent of `tree_insert_subtree`, `new` being done at an empty slot and `old` at the node of the string. -/
def descend (pmp : ℕ) (s : CString) (new old : ℕ → Prog ℕ) : ℕ → ℕ → Prog ℕ
  | 0, _ => Prog.hang
  | fuel + 1, rootp_ => do
    let root_ ← Prog.load rootp_
    if root_ = 0 then new rootp_
    else do
      let diff ← strcmp s.bytes (stringOf pmp root_)
      if diff = 0 then old root_
      else if diff < 0 then descend pmp s new old fuel (leftOf pmp root_)
      else descend pmp s new old fuel (rightOf pmp root_)

theorem treeInsertSubtree_eq (p gclp : ℕ) (s : CString) (fuel rootp_ : ℕ) : treeInsertSubtree p gclp s fuel rootp_ =
    descend p s (fun rootp_ => insertNode p gclp rootp_ s)
      (fun root_ => do
        bumpCount p root_
        return gclp) fuel rootp_ := by
  induction fuel generalizing rootp_ with
  | zero => rfl
  | succ fuel ih => simp only [treeInsertSubtree, descend, ih]

/-- The search ends in the empty slot it leads to, or at the node of the string. -/
theorem search_descend (h : Ready w p gclp cs e (TreeOf t)) (new old : ℕ → Prog ℕ) :
    ∀ (t' : BinaryTree Tnode) (c : Context Tnode) (fuel : ℕ), c.plug t' = t → Leads Tnode.s s c → t'.height < fuel →
    (∃ c' : Context Tnode, Leads Tnode.s s c' ∧ t = c'.plug .nil ∧ ∀ v : World, v.mem = w.mem →
      descend p s new old fuel (p + slot Tnode.ptr_ c) v = new (p + slot Tnode.ptr_ c') v) ∨
    ∃ (c' : Context Tnode) (x : Tnode) (l r : BinaryTree Tnode), x.s = s ∧ t = c'.plug (.node x l r) ∧
    ∀ v : World, v.mem = w.mem → descend p s new old fuel (p + slot Tnode.ptr_ c) v = old x.ptr_ v
  | .nil, c, fuel + 1, ht, hlead, _ => by
    refine Or.inl ⟨c, hlead, ht.symm, fun v hv => ?_⟩
    have hlinks := h.state.nodes.links
    rw [← ht, links_plug] at hlinks
    have hload : v.mem (p + slot Tnode.ptr_ c) = 0 := by
      rw [hv]
      exact hlinks.2
    rw [descend, Prog.bind_ok (Prog.load_apply _ v), hload, if_pos rfl]
  | .node x l r, c, fuel + 1, ht, hlead, hf => by
    have hlinks := h.state.nodes.links
    rw [← ht, links_plug] at hlinks
    obtain ⟨-, hptr, hnz, -⟩ := hlinks
    have hx : x ∈ inorder t := ht ▸ Context.mem_plug_node.mpr (Or.inl rfl)
    obtain ⟨⟨b, hb, -, hba, hsz⟩, -, hstring⟩ := h.state.written x hx
    have hbounds := h.chain.tiles.bounds hb
    have hfits := h.mapped.fits
    have h8 : 8 ∣ p := dvd_trans (by norm_num) h.mapped.aligned
    simp only [sizeofTnode] at hsz
    have hpx : pmem p x.ptr_ = p + x.ptr_ := pmem_eq (by omega)
    rw [stringAt_fileAt h8] at hstring
    rw [BinaryTree.height] at hf
    -- one level of the recursion
    have hlevel : ∀ v : World, v.mem = w.mem → descend p s new old (fuel + 1) (p + slot Tnode.ptr_ c) v =
        (if compareBytes s.bytes x.s.bytes = 0 then old x.ptr_
          else if compareBytes s.bytes x.s.bytes < 0 then descend p s new old fuel (leftOf p x.ptr_)
          else descend p s new old fuel (rightOf p x.ptr_)) v := by
      intro v hv
      have hload : v.mem (p + slot Tnode.ptr_ c) = x.ptr_ := by
        rw [hv]
        exact hptr
      have hcmp : strcmp s.bytes (stringOf p x.ptr_) v = (.ok (compareBytes s.bytes x.s.bytes), v) := by
        refine strcmp_apply (fun b hb => (s.range b hb).1) ?_
        rw [stringOf, hpx, Nat.add_assoc, hv]
        exact hstring
      rw [descend, Prog.bind_ok (Prog.load_apply _ v), hload, if_neg hnz, Prog.bind_ok hcmp]
    obtain ⟨hzero, hneg⟩ := CString.compare_sign s x.s
    rcases lt_trichotomy s x.s with hlt | heq | hgt
    · have hleft : leftOf p x.ptr_ = p + slot Tnode.ptr_ (.left x r c) := hpx
      have hgo : ∀ v : World, v.mem = w.mem → descend p s new old (fuel + 1) (p + slot Tnode.ptr_ c) v =
          descend p s new old fuel (p + slot Tnode.ptr_ (.left x r c)) v := fun v hv => by
        rw [hlevel v hv, if_neg fun h0 => hlt.ne (hzero.mp h0), if_pos (hneg.mpr hlt), hleft]
      rcases search_descend h new old l (.left x r c) fuel ht ⟨hlt, hlead⟩ (by omega) with
        ⟨c', h1, h2, h3⟩ | ⟨c', y, l', r', h1, h2, h3⟩
      · exact Or.inl ⟨c', h1, h2, fun v hv => (hgo v hv).trans (h3 v hv)⟩
      · exact Or.inr ⟨c', y, l', r', h1, h2, fun v hv => (hgo v hv).trans (h3 v hv)⟩
    · refine Or.inr ⟨c, x, l, r, heq.symm, ht.symm, fun v hv => ?_⟩
      rw [hlevel v hv, if_pos (hzero.mpr heq)]
    · have hright : rightOf p x.ptr_ = p + slot Tnode.ptr_ (.right x l c) := by
        rw [rightOf, hpx, Nat.add_assoc]
        rfl
      have hgo : ∀ v : World, v.mem = w.mem → descend p s new old (fuel + 1) (p + slot Tnode.ptr_ c) v =
          descend p s new old fuel (p + slot Tnode.ptr_ (.right x l c)) v := fun v hv => by
        rw [hlevel v hv, if_neg fun h0 => hgt.ne' (hzero.mp h0), if_neg fun h0 => hgt.not_gt (hneg.mp h0), hright]
      rcases search_descend h new old r (.right x l c) fuel ht ⟨hgt, hlead⟩ (by omega) with
        ⟨c', h1, h2, h3⟩ | ⟨c', y, l', r', h1, h2, h3⟩
      · exact Or.inl ⟨c', h1, h2, fun v hv => (hgo v hv).trans (h3 v hv)⟩
      · exact Or.inr ⟨c', y, l', r', h1, h2, fun v hv => (hgo v hv).trans (h3 v hv)⟩

theorem search_subtree (h : Ready w p gclp cs e (TreeOf t)) (t' : BinaryTree Tnode) (c : Context Tnode) (fuel : ℕ)
    (ht : c.plug t' = t) (hlead : Leads Tnode.s s c) (hf : t'.height < fuel) :
    (∃ c' : Context Tnode, Leads Tnode.s s c' ∧ t = c'.plug .nil ∧ ∀ v : World, v.mem = w.mem →
      treeInsertSubtree p gclp s fuel (p + slot Tnode.ptr_ c) v = insertNode p gclp (p + slot Tnode.ptr_ c') s v) ∨
    ∃ (c' : Context Tnode) (x : Tnode) (l r : BinaryTree Tnode), x.s = s ∧ t = c'.plug (.node x l r) ∧
    ∀ v : World, v.mem = w.mem → treeInsertSubtree p gclp s fuel (p + slot Tnode.ptr_ c) v = (do
        bumpCount p x.ptr_
        return gclp) v := by
  rw [treeInsertSubtree_eq]
  exact search_descend h _ _ t' c fuel ht hlead hf

theorem height_lt_loopFuel (h : Ready w p gclp cs e (TreeOf t)) : t.height < loopFuel := by
  have hfits := h.mapped.fits
  refine lt_of_le_of_lt ?_ (h.chain.length_lt (by omega))
  exact (height_le_length t).trans h.state.nodes.length_le

theorem root_slot (h : Ready w p gclp cs e (TreeOf t)) :
    pmem p pmemStaticOffset = p + slot Tnode.ptr_ (.top : Context Tnode) := by
  have h1 := h.chain.tiles.le
  have h2 := h.mapped.fits
  simp only [pmemClumpOffset] at h1
  simp only [pmemStaticOffset, slot]
  exact pmem_eq (by omega)

/-- `tree_insert` runs out of memory, in any build, or it inserts the string. -/
theorem insert_step (h : Ready w p gclp cs e (TreeOf t)) (s : CString) :
    (∀ v : World, v.mem = w.mem → ∃ v', treeInsert p gclp s v = (.fatal "pmem_alloc", v')) ∨
    ∃ g evs cs' t', Inserted s t t' ∧ Runs false (treeInsert p gclp s) w.mem g evs ∧
      ∃ w', treeInsert p gclp s w = (.ok g, w') ∧ Ready w' p g cs' e (TreeOf t') := by
  unfold treeInsert
  rw [root_slot h]
  rcases search_subtree (s := s) h t .top loopFuel rfl trivial (height_lt_loopFuel h) with
    ⟨c, hlead, rfl, hgo⟩ | ⟨c, x, l, r, rfl, rfl, hgo⟩
  · -- a new node, if a clump fits
    obtain ⟨hg, ps, gs, hcs, hne, hgs⟩ := search_of_walk h.chain h.nonempty h.cursor
    rcases reserve_runs true h.mapped (sizeofTnode + (s.bytes.length + 1)) hg hgs hne with
      ⟨l, b, r, hgs', hfit, -, hr⟩ | ⟨-, hr⟩
    · right
      have hcs' : cs = (ps ++ l) ++ b :: r := by rw [hcs, hgs', List.append_assoc]
      obtain ⟨⟨evs, hlinkruns⟩, -, _, w₁, hrun₁, -, rfl, cs₁, h₁⟩ := link_step h hcs' hfit hr
      obtain ⟨hfillruns, w₂, hrun₂, -, h₂⟩ := fill_step h₁ h.state.sorted hlead
      have hruns : Runs false (insertNode p gclp (p + slot Tnode.ptr_ c) s) w.mem (p + b.addr)
          (evs ++ (relocate p (fillEvents (fileAt p w₁.mem) (b.addr + 64) s) ++ [])) := by
        rw [insertNode_eq]
        exact hlinkruns.weaken.bind_run hrun₁ (hfillruns.bind (Runs.pure false _ _))
      refine ⟨p + b.addr, _, cs₁, _, .new c _ hlead, hruns.of_eq hgo, w₂, ?_, h₂⟩
      rw [hgo w rfl, insertNode_eq, Prog.bind_ok hrun₁, Prog.bind_ok hrun₂]
      rfl
    · left
      intro v hv
      obtain ⟨v', -, hrun, -⟩ := hr v hv
      refine ⟨v', ?_⟩
      rw [hgo v hv, insertNode, Prog.bind_ok hrun, if_pos rfl]
      rfl
  · right
    obtain ⟨hruns, -, _, w₁, hrun₁, -, h₁⟩ := bump_step h
    refine ⟨gclp, _, cs, _, .old c x l r rfl, (hruns.bind (Runs.pure false _ gclp)).of_eq hgo, w₁, ?_, h₁⟩
    rw [hgo w rfl, Prog.bind_ok hrun₁]
    rfl

end Search

/-! ## Runs -/

/-- Insertions one after another. -/
def treeInserts (pmp : ℕ) : ℕ → List CString → Prog ℕ
  | gclp, [] => return gclp
  | gclp, s :: ss => do
    let gclp ← treeInsert pmp gclp s
    treeInserts pmp gclp ss

section Run
variable {w : World} {m : Mem} {p gclp e : ℕ} {cs : List Clump} {t : BinaryTree Tnode} {f : CString → ℕ}

theorem inserts_run : ∀ (ss : List CString) {gclp : ℕ} {cs : List Clump} {t : BinaryTree Tnode} {f : CString → ℕ}
    {w : World}, Poised w p gclp cs e (TreeOf t) → Counts t f →
    (∀ s, f s + ss.count s < 2 ^ 32) →
    (∃ w', treeInserts p gclp ss w = (.fatal "pmem_alloc", w')) ∨
    ∃ g w' cs' t', treeInserts p gclp ss w = (.ok g, w') ∧
      Poised w' p g cs' e (TreeOf t') ∧ Counts t' fun s => f s + ss.count s
  | [], gclp, cs, t, f, w, h, hf, _ => Or.inr ⟨gclp, w, cs, t, rfl, h, by simpa using hf⟩
  | s :: ss, gclp, cs, t, f, w, h, hf, hlt => by
    have hs := hlt s
    rw [List.count_cons_self] at hs
    rcases insert_step h s with hfatal | ⟨g, evs, cs₁, t₁, hins, hruns, w₁, hrun₁, h₁⟩
    · obtain ⟨w', hw'⟩ := hfatal w rfl
      refine Or.inl ⟨w', ?_⟩
      rw [treeInserts, Prog.bind_apply, hw']
    · -- the memory in this build is the one where nothing could be lost
      obtain ⟨hres, hmem⟩ := hruns.mem_eq (w := w) rfl
      have hmem₁ := (hruns.mem_eq rfl).2
      rw [hrun₁] at hmem₁
      rw [← hmem₁] at hmem
      have hrun : treeInsert p gclp s w = (.ok g, (treeInsert p gclp s w).2) := Prod.ext hres rfl
      have hready : Poised (treeInsert p gclp s w).2 p g cs₁ e (TreeOf t₁) := by
        rw [Poised, hmem]
        exact h₁.poised
      have hcount : ∀ k, Function.update f s (f s + 1) k + ss.count k = f k + (s :: ss).count k := by
        intro k
        by_cases hk : k = s
        · rw [hk, Function.update_self, List.count_cons_self, Nat.add_assoc, Nat.add_comm 1]
        · rw [Function.update_of_ne hk, List.count_cons_of_ne (Ne.symm hk)]
      have hgo : treeInserts p gclp (s :: ss) w = treeInserts p g ss (treeInsert p gclp s w).2 := by
        rw [treeInserts, Prog.bind_ok hrun]
      rw [hgo]
      have hrest := inserts_run ss hready (hins.counts h.state.sorted hf (by omega)) fun k => by
        rw [hcount]
        exact hlt k
      simpa only [hcount] using hrest

theorem walk_subtree : ∀ {t : BinaryTree Tnode} {ptr_ : ℕ} (fuel : ℕ), Links Tnode.ptr_ (fileAt p w.mem) ptr_ t →
    (∀ x ∈ inorder t, pmem p x.ptr_ = p + x.ptr_) → t.height < fuel →
    treeWalkSubtree p fuel ptr_ w = (.ok ((inorder t).map Tnode.ptr_), w)
  | .nil, _, fuel + 1, h, _, _ => by
    rw [treeWalkSubtree, show _ = 0 from h, if_pos rfl]
    rfl
  | .node x l r, _, fuel + 1, ⟨hx, hnz, hl, hr⟩, hp, hf => by
    subst hx
    rw [BinaryTree.height] at hf
    have hpx := hp x (by simp)
    have hleft := walk_subtree fuel hl (fun y hy => hp y (by simp [hy])) (by omega)
    have hright := walk_subtree fuel hr (fun y hy => hp y (by simp [hy])) (by omega)
    have hloadl : Prog.load (leftOf p x.ptr_) w = (.ok (fileAt p w.mem x.ptr_), w) := by
      rw [leftOf, hpx]
      rfl
    have hloadr : Prog.load (rightOf p x.ptr_) w = (.ok (fileAt p w.mem (x.ptr_ + 8)), w) := by
      rw [rightOf, hpx, Nat.add_assoc]
      rfl
    rw [treeWalkSubtree, if_neg hnz, Prog.bind_ok hloadl, Prog.bind_ok hleft, Prog.bind_ok hloadr, Prog.bind_ok hright,
      inorder_node, List.map_append, List.map_cons]
    rfl

theorem walk_run (h : Poised w p gclp cs e (TreeOf t)) :
    treeWalk p w = (.ok ((inorder t).map Tnode.ptr_), w) := by
  have hload : Prog.load (pmem p pmemStaticOffset) w = (.ok (fileAt p w.mem pmemStaticOffset), w) := by
    rw [root_slot h]
    rfl
  rw [treeWalk, Prog.bind_ok hload]
  refine walk_subtree loopFuel h.state.nodes.links (fun x hx => ?_) (height_lt_loopFuel h)
  obtain ⟨b, hb, -, hba, hsz⟩ := (h.state.written x hx).clump
  have := (h.chain.tiles.bounds hb).2
  have := h.mapped.fits
  simp only [sizeofTnode] at hsz
  exact pmem_eq (by omega)

end Run

/-! ## Counting on a new pool -/

/-- The bytes a node takes. -/
def Tnode.size (x : Tnode) : ℕ := sizeofTnode + (x.s.bytes.length + 1)

theorem TreeOf.apart {t : BinaryTree Tnode} {d : Mem} {cs : List Clump} {e : ℕ} (h : TreeOf t d cs)
    (hc : Chain d pmemClumpOffset cs e) :
    (inorder t).Pairwise fun x y => x.ptr_ + x.size ≤ y.ptr_ ∨ y.ptr_ + y.size ≤ x.ptr_ := by
  refine (List.pairwise_map.mp h.nodes.nodup).imp_of_mem fun {x y} hx hy hne => ?_
  obtain ⟨a, ha, -, haa, hasz⟩ := (h.written x hx).clump
  obtain ⟨b, hb, -, hba, hbsz⟩ := (h.written y hy).clump
  have hab : a ≠ b := fun heq => hne (by rw [← haa, ← hba, heq])
  unfold Tnode.size
  rcases hc.tiles.disjoint ha hb hab with h | h <;> omega

/-- On a new pool, in any build, a run of insertions ends for want of memory or it counts: the nodes that a
walk from the root visits have the distinct strings of the run in the order of `strcmp`, each with the
number of its occurrences, and are apart in active clumps. -/
theorem tree_insert_counts {size p : ℕ} (hsize : pmemMinPoolSize ≤ size) (hp : Mapped p (lastClumpOff size))
    (relaxed : Bool) (epoch : ℕ → Bool) : ∃ w₀, pmemallocInit none size p relaxed epoch = .ok (.ok (), w₀) ∧
      ∀ ss : List CString, (∀ s, ss.count s < 2 ^ 32) →
        (∃ w, treeInserts p 0 ss w₀ = (.fatal "pmem_alloc", w)) ∨
        ∃ g w cs t, treeInserts p 0 ss w₀ = (.ok g, w) ∧
          Chain (fileAt p w.mem) pmemClumpOffset cs (lastClumpOff size) ∧ TreeOf t (fileAt p w.mem) cs ∧
          treeWalk p w = (.ok ((inorder t).map Tnode.ptr_), w) ∧
          ((inorder t).Pairwise fun x y => compareBytes x.s.bytes y.s.bytes < 0) ∧
          (∀ s, s ∈ ss ↔ ∃ x ∈ inorder t, x.s = s) ∧ (∀ x ∈ inorder t, x.count = ss.count x.s) ∧
          (inorder t).Pairwise fun x y => x.ptr_ + x.size ≤ y.ptr_ ∨ y.ptr_ + y.size ≤ x.ptr_ := by
  obtain ⟨f, w₀, hf, hinit, hc, hsame, -⟩ := init_file hsize hp relaxed epoch
  obtain ⟨-, hsz, hlt, -⟩ := created_chain hf
  have hroot : fileAt p w₀.mem pmemStaticOffset = 0 := by
    simp only [pmemClumpOffset] at hlt
    rw [hsame _ (by simp only [pmemStaticOffset]; omega)]
    exact created_root hf
  have h₀ : Poised w₀ p 0 (createdWalk (lastClumpOff size)) (lastClumpOff size) (TreeOf .nil) :=
    { mapped := hp
      persisting := Or.inl rfl
      clean := Durable.boot _
      chain := hc
      nonempty := by simp [createdWalk]
      settled := by simp [createdWalk]
      stable := stable_treeOf _
      state := ⟨⟨hroot, by simp, by simp [createdWalk], by simp [createdWalk]⟩, by simp, List.Pairwise.nil⟩
      cursor := Or.inl rfl }
  refine ⟨w₀, hinit, fun ss hss => ?_⟩
  rcases inserts_run ss (f := fun _ => 0) h₀ ⟨by simp, by simp⟩ (by simpa using hss) with
    hfatal | ⟨g, w, cs, t, hrun, h, hcounts⟩
  · exact Or.inl hfatal
  · refine Or.inr ⟨g, w, cs, t, hrun, h.chain, h.state, walk_run h,
      h.state.sorted.imp fun {x y} hxy => (CString.compare_sign x.s y.s).2.mpr hxy, fun s => ?_, fun x hx => ?_,
      h.state.apart h.chain⟩
    · rw [← List.count_pos_iff]
      constructor
      · exact fun hs => hcounts.node s (by simpa using hs)
      · rintro ⟨x, hx, rfl⟩
        simpa using (hcounts.count x hx).2
    · simpa using (hcounts.count x hx).1

/-- Three insertions of two words. -/
theorem tree_insert_counts_threeWords :
    let a : CString := ⟨[97], by decide, by decide⟩
    let b : CString := ⟨[98], by decide, by decide⟩
    ∃ g w cs t, treeInserts 65536 0 [b, a, b] megabytePool = (.ok g, w) ∧ TreeOf t (fileAt 65536 w.mem) cs ∧
      (∃ x ∈ inorder t, x.s = a ∧ x.count = 1) ∧ ∃ x ∈ inorder t, x.s = b ∧ x.count = 2 := by
  intro a b
  have hsize : pmemMinPoolSize ≤ 1048576 := by decide
  obtain ⟨w₀, hinit, hall⟩ := tree_insert_counts (p := 65536) hsize ⟨by decide, by decide⟩ false fun _ => true
  obtain rfl : megabytePool = w₀ := by
    rw [init_megabytePool] at hinit
    exact congrArg Prod.snd (Except.ok.inj hinit)
  have hshort : ∀ s, [b, a, b].count s < 2 ^ 32 := fun s => lt_of_le_of_lt List.count_le_length (by decide)
  rcases hall [b, a, b] hshort with ⟨w, hfatal⟩ | ⟨g, w, cs, t, hrun, -, ht, -, -, hmem, hcount, -⟩
  · have hok : (treeInserts 65536 0 [b, a, b] megabytePool).1 ≠ .fatal "pmem_alloc" := by decide +kernel
    exact absurd (congrArg Prod.fst hfatal) hok
  · obtain ⟨x, hx, hxa⟩ := (hmem a).mp (by simp)
    obtain ⟨y, hy, hyb⟩ := (hmem b).mp (by simp)
    refine ⟨g, w, cs, t, hrun, ht, ⟨x, hx, hxa, ?_⟩, y, hy, hyb, ?_⟩
    · rw [hcount x hx, hxa]
      decide
    · rw [hcount y hy, hyb]
      decide

end PmemExamples.WordTree
