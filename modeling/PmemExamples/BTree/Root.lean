import PmemExamples.BTree.HeapDeletion
import PmemExamples.BTree.HeapInsertion
import PmemExamples.BTree.HeapSearch

/-! # The calls on a tree

`bt_insert`, `bt_delete` and the searches, on a heap that holds a tree. -/

namespace PmemExamples.BTree
set_option autoImplicit false

/-- The tree `x` is at the root, and of the nodes to come none is in it. -/
structure Heap.Holds (h : Heap) (supply : ℕ → ℕ) (t : ℕ) (x : AnyTree) : Prop where
  root : h.root = x.tree.addr
  node : NodeAt (x.height = 0) (addrOf x.height) (rep x.height) h x.tree
  apart : x.addrs.Nodup
  fresh : Fresh supply h.next x.addrs
  sized : x.Sized t

section Calls
variable {t N k fuel : ℕ} {supply : ℕ → ℕ} {strict : Bool} {cmp : ℕ → ℕ → ℤ} {h : Heap} {x : AnyTree}

variable (strict) in
theorem root_does (hx : h.Holds supply t x) :
    Does N h (heapOps t (nbitsOf (2 * t - 1)) supply strict).root (.ok x.tree.addr) h :=
  Does.of_eval fun m => by
    rw [← hx.root]
    rfl

/-! ## `bt_insert` -/

theorem drawn_nodup (hs : Supply supply) (c c' : ℕ) : (drawn supply c c').Nodup :=
  Multiset.coe_nodup.mpr (List.Nodup.map hs.inj (List.nodup_range' ..))

theorem mem_drawn {c c' a : ℕ} : a ∈ drawn supply c c' ↔ ∃ i, c ≤ i ∧ i < c' ∧ supply i = a := by
  rw [drawn, Multiset.mem_coe, List.mem_map]
  constructor
  · rintro ⟨i, hi, rfl⟩
    obtain ⟨j, hj, rfl⟩ := List.mem_range'.mp hi
    exact ⟨c + 1 * j, by omega, by omega, rfl⟩
  · rintro ⟨i, hi, hi', rfl⟩
    exact ⟨i, List.mem_range'.mpr ⟨i - c, by omega, by omega⟩, rfl⟩

theorem Draws.apart {c : ℕ} {before : Multiset ℕ} {after : Multiset ℕ × ℕ} (h : Draws supply c before after)
    (hs : Supply supply)
    (hnd : before.Nodup) (hfresh : Fresh supply c before) : after.1.Nodup ∧ Fresh supply after.2 after.1 := by
  obtain ⟨hle, heq⟩ := h
  rw [heq]
  constructor
  · refine Multiset.nodup_add.mpr ⟨hnd, drawn_nodup hs _ _, Multiset.disjoint_left.mpr fun {a} ha hnew => ?_⟩
    obtain ⟨i, hi, -, rfl⟩ := mem_drawn.mp hnew
    exact hfresh i hi ha
  · intro i hi hmem
    rcases Multiset.mem_add.mp hmem with hmem | hmem
    · exact hfresh i (by omega) hmem
    · obtain ⟨j, -, hj, heq⟩ := mem_drawn.mp hmem
      have := hs.inj heq
      omega

variable (strict) in
theorem newRoot_does (ht : 2 ≤ t) (hs : Supply supply) (hx : h.Holds supply t x) : ∃ h',
    (∀ (f : ℕ → ℕ → HeapM Unit) {o : Except Fault Unit} {h'' : Heap},
    Does N h' (f (supply h.next) (supply h.next)) o h'' → Does N h (do
        let (s, tmp) ← (heapOps t (nbitsOf (2 * t - 1)) supply strict).alloc
        (heapOps t (nbitsOf (2 * t - 1)) supply strict).setPPtr s tmp
        (heapOps t (nbitsOf (2 * t - 1)) supply strict).setRoot s
        (heapOps t (nbitsOf (2 * t - 1)) supply strict).setLeaf s false
        (heapOps t (nbitsOf (2 * t - 1)) supply strict).setN s 0
        (heapOps t (nbitsOf (2 * t - 1)) supply strict).setNode s 0 x.tree.addr
        f s tmp) o h'') ∧
      InnerAt (x.height = 0) (addrOf x.height) (rep x.height) h' ⟨supply h.next, [] ++ [], [] ++ x.tree :: []⟩ ∧
      h'.root = supply h.next ∧ h'.next = h.next + 1 := by
  have hsame : ∀ a ∈ x.addrs, a ≠ supply h.next := fun a ha heq => hx.fresh h.next (le_refl _) (heq ▸ ha)
  have hroot : ∀ (s : ℕ) (h : Heap) (m : Memo), (heapOps t (nbitsOf (2 * t - 1)) supply strict).setRoot s h m =
      (.ok (), { h with root := s }, m) := fun _ _ _ => rfl
  refine ⟨?h', fun f o h'' hf m hm hN => ?run, ?node, ?root, ?next⟩
  case run =>
    obtain ⟨m', hm', hlen, hrun⟩ := hf m hm hN
    refine ⟨m', hm', hlen, ?_⟩
    simp (disch := omega) only [HeapM.bind_apply, eval_alloc, eval_setPPtr, hroot, eval_setLeaf, eval_setN, eval_setNode,
      Heap.set_same, Heap.set_set]
    exact hrun
  case node =>
    refine ⟨hs.live _, ?_, fun c hc => ?_⟩
    · rw [Heap.set_same]
      exact ⟨rfl, rfl, Slots.Filled.nil _, Slots.Filled.push (l := []) (Slots.Filled.nil _) x.tree.addr,
        fun hl => absurd hl (by decide)⟩
    · obtain rfl := List.mem_singleton.mp hc
      refine framed_node (framed_rep x.height) _ _ _ hx.node fun b hb => ?_
      rw [Heap.set_ne _ (hsame b hb)]
      change ((h.alloc (supply h.next)).set (supply h.next) _).nodes b = _
      rw [Heap.set_ne _ (hsame b hb), Heap.alloc_ne _ (hsame b hb)]
  case root => rfl
  case next => rfl

variable (fuel strict) in
theorem btInsert_sim (ht : 2 ≤ t) (hsmall : 2 * t - 1 < 2 ^ 14) (hN : 2 * t - 1 ≤ N) (hs : Supply supply)
    (hx : h.Holds supply t x) (hfuel : x.height + 1 < fuel) (cmp : ℕ → ℕ → ℤ) (k : ℕ) :
    ∃ h', Does N h (btInsert (heapOps t (nbitsOf (2 * t - 1)) supply strict) cmp fuel k) (.ok ()) h' ∧
      h'.Holds supply t (insertRoot t cmp k supply h.next x).1 := by
  obtain ⟨hsized, hdraws, -⟩ := insertRoot_spec ht hx.sized cmp k supply h.next
  obtain ⟨hnd, hfresh⟩ := hdraws.apart hs hx.apart hx.fresh
  have hroot := root_does strict (N := N) hx
  have hrec := hx.node.record
  by_cases hfull : x.tree.keys.length = 2 * t - 1
  · obtain ⟨h₁, hnew, hat₁, hroot₁, hnext₁⟩ := newRoot_does strict (N := N) ht hs hx
    have hadd : TreeNode.addrs (TreeNode.addrs (addrs x.height)) ⟨supply h.next, [] ++ [], [] ++ x.tree :: []⟩ =
        x.addrs + {supply h.next} := by
      rw [addrs_kid]
      simp only [List.map_nil, List.sum_nil, add_zero]
      exact add_comm _ _
    have hnd₁ : (TreeNode.addrs (TreeNode.addrs (addrs x.height))
      ⟨supply h.next, [] ++ [], [] ++ x.tree :: []⟩).Nodup := by
      rw [hadd, Multiset.nodup_add]
      exact ⟨hx.apart, Multiset.nodup_singleton _, Multiset.disjoint_singleton.mpr (hx.fresh h.next (le_refl _))⟩
    have hfresh₁ : Fresh supply h₁.next
        (TreeNode.addrs (TreeNode.addrs (addrs x.height)) ⟨supply h.next, [] ++ [], [] ++ x.tree :: []⟩) := by
      intro i hi hmem
      rw [hadd, Multiset.mem_add, Multiset.mem_singleton] at hmem
      rcases hmem with hmem | heq
      · exact hx.fresh i (by omega) hmem
      · have := hs.inj heq
        omega
    obtain ⟨h₂, hsplit, hat₂, -, hroot₂, hnext₂⟩ := btreesplitchild_sim strict (N := N) ht hsmall
      (framed_rep x.height) hs hat₁ rfl rfl (by simp; omega) hfull hx.sized.branches hnd₁ hfresh₁
    obtain ⟨hsized₂, hlen₂, -, hadd₂⟩ := splitRoot_spec ht hx.sized hfull (supply h.next) (supply (h.next + 1))
    rw [hnext₁] at hat₂ hnext₂
    have hgone : ∀ a ∈ addrs (x.height + 2) (splitChild t (supply (h.next + 1)) 0 ⟨supply h.next, [], [x.tree]⟩),
        a ∈ x.addrs ∨ a = supply h.next ∨ a = supply (h.next + 1) := fun a ha => by
      rw [hadd₂, Multiset.mem_add, Multiset.mem_add, Multiset.mem_singleton, Multiset.mem_singleton, or_assoc] at ha
      exact ha
    have hnd₂ : (addrs (x.height + 2) (splitChild t (supply (h.next + 1)) 0 ⟨supply h.next, [], [x.tree]⟩)).Nodup := by
      rw [hadd₂, Multiset.nodup_add, Multiset.nodup_add]
      refine ⟨⟨hx.apart, Multiset.nodup_singleton _, Multiset.disjoint_singleton.mpr (hx.fresh h.next (le_refl _))⟩,
        Multiset.nodup_singleton _, Multiset.disjoint_singleton.mpr fun hmem => ?_⟩
      rcases Multiset.mem_add.mp hmem with hmem | hmem
      · exact hx.fresh (h.next + 1) (Nat.le_succ _) hmem
      · have := hs.inj (Multiset.mem_singleton.mp hmem)
        omega
    obtain ⟨h₃, hins⟩ := btreeinsertnonfull_sim supply strict (N := N) (k := k) ht hsmall hN hs cmp
      (x.height + 1) _ fuel h₂ (splitChild t (supply (h.next + 1)) 0 ⟨supply h.next, [], [x.tree]⟩) hfuel hsized₂
      (by omega) hat₂ hnd₂ fun i hi hmem => by
        rcases hgone _ hmem with hmem | heq | heq
        · exact hx.fresh i (by omega) hmem
        · have := hs.inj heq
          omega
        · have := hs.inj heq
          omega
    rw [hnext₂] at hins
    have hinsert : insertRoot t cmp k supply h.next x = (⟨x.height + 1, (insertNonfull t cmp k supply (x.height + 1)
        (h.next + 1 + 1) (splitChild t (supply (h.next + 1)) 0 ⟨supply h.next, [], [x.tree]⟩)).1⟩,
        (insertNonfull t cmp k supply (x.height + 1) (h.next + 1 + 1)
          (splitChild t (supply (h.next + 1)) 0 ⟨supply h.next, [], [x.tree]⟩)).2) := by
      rw [insertRoot, if_pos hfull]
    rw [hinsert] at hsized hnd hfresh ⊢
    refine ⟨h₃, hroot.bind ((n_does hrec).bind (t_does.bind ?_)), ?_, hins.holds, hnd, ?_, hsized⟩
    · rw [if_pos (by omega)]
      refine hnew (fun s tmp => do
        btreesplitchild (heapOps t (nbitsOf (2 * t - 1)) supply strict) s 0 x.tree.addr
        (heapOps t (nbitsOf (2 * t - 1)) supply strict).activate tmp
        btreeinsertnonfull (heapOps t (nbitsOf (2 * t - 1)) supply strict) cmp k fuel s) ?_
      exact hsplit.bind ((Does.of_eval fun _ => rfl).bind hins.does)
    · rw [hins.root, hroot₂, hroot₁]
      exact hins.addr_eq.symm
    · rw [hins.next]
      exact hfresh
  · have hinsert : insertRoot t cmp k supply h.next x = (⟨x.height,
      (insertNonfull t cmp k supply x.height h.next x.tree).1⟩,
        (insertNonfull t cmp k supply x.height h.next x.tree).2) := by
      rw [insertRoot, if_neg hfull]
    rw [hinsert] at hsized hnd hfresh ⊢
    obtain ⟨h', hins⟩ := btreeinsertnonfull_sim _ strict (N := N) (k := k) ht hsmall hN hs cmp x.height _ fuel h x.tree
      (by omega) hx.sized (lt_of_le_of_ne hx.sized.high hfull) hx.node hx.apart hx.fresh
    refine ⟨h', hroot.bind ((n_does hrec).bind (t_does.bind ?_)), ?_, hins.holds, hnd, ?_, hsized⟩
    · rw [if_neg (by omega)]
      exact hins.does
    · rw [hins.root, hx.root]
      exact hins.addr_eq.symm
    · rw [hins.next]
      exact hfresh

/-! ## `bt_delete` -/

variable (supply strict) in
theorem collapse_does (ht : 2 ≤ t) {d : ℕ} {x : Tree d} (hx : x.Within t 0 (d = 0) (Sized t d)) (hroot : h.root = x.addr)
    (hat : NodeAt (d = 0) (addrOf d) (rep d) h x) (hnd : (addrs (d + 1) x).Nodup)
    (hfresh : Fresh supply h.next (addrs (d + 1) x)) (e : ℕ) : ∃ h', Does N h (do
        let root ← (heapOps t (nbitsOf (2 * t - 1)) supply strict).root
        if (← (heapOps t (nbitsOf (2 * t - 1)) supply strict).n root) = 0 ∧
            (← (heapOps t (nbitsOf (2 * t - 1)) supply strict).leaf root) = false then
          (heapOps t (nbitsOf (2 * t - 1)) supply strict).setRoot
            (← (heapOps t (nbitsOf (2 * t - 1)) supply strict).node root 0)
          (heapOps t (nbitsOf (2 * t - 1)) supply strict).free
            (← (heapOps t (nbitsOf (2 * t - 1)) supply strict).pPtr root)
        return e) (.ok e) h' ∧ h'.Holds supply t (collapse ⟨d, x⟩) := by
  obtain ⟨hsized, -, -⟩ := collapse_spec ht hx
  have hstart : Does N h (heapOps t (nbitsOf (2 * t - 1)) supply strict).root (.ok x.addr) h := Does.of_eval fun m => by
    rw [← hroot]
    rfl
  have hrec := hat.record
  have hstay : (x.keys ≠ [] ∨ d = 0) → collapse ⟨d, x⟩ = ⟨d, x⟩ → ∃ h', Does N h (do
        let root ← (heapOps t (nbitsOf (2 * t - 1)) supply strict).root
        if (← (heapOps t (nbitsOf (2 * t - 1)) supply strict).n root) = 0 ∧
            (← (heapOps t (nbitsOf (2 * t - 1)) supply strict).leaf root) = false then
          (heapOps t (nbitsOf (2 * t - 1)) supply strict).setRoot
            (← (heapOps t (nbitsOf (2 * t - 1)) supply strict).node root 0)
          (heapOps t (nbitsOf (2 * t - 1)) supply strict).free
            (← (heapOps t (nbitsOf (2 * t - 1)) supply strict).pPtr root)
        return e) (.ok e) h' ∧ h'.Holds supply t (collapse ⟨d, x⟩) := by
    intro hor hcol
    rw [hcol] at hsized ⊢
    refine ⟨h, hstart.bind ((n_does hrec).bind ((leaf_does hrec).bind ?_)), hroot, hat, hnd, hfresh, hsized⟩
    rw [if_neg]
    · exact Does.pure e
    · rintro ⟨h0, hleaf⟩
      rcases hor with hne | rfl
      · exact hne (List.length_eq_zero_iff.mp (by exact_mod_cast h0))
      · simp at hleaf
  cases d with
  | zero => exact hstay (Or.inr rfl) rfl
  | succ d =>
    obtain ⟨a, ks, cs⟩ := x
    cases ks with
    | cons k ks => exact hstay (Or.inl (by simp)) rfl
    | nil =>
      obtain ⟨c, rfl⟩ : ∃ c, cs = [c] := List.length_eq_one_iff.mp hx.branches
      have hc := hat.kids c (by simp)
      have hadd : addrs (d + 2) (⟨a, [], [c]⟩ : Tree (d + 1)) = {a} + addrs (d + 1) c := by
        rw [addrs_succ, TreeNode.addrs]
        simp
      rw [hadd] at hnd hfresh
      refine ⟨{ h with root := c.addr }, hstart.bind ((n_does hrec).bind ((leaf_does hrec).bind ?_)), rfl, ?_,
        (Multiset.nodup_add.mp hnd).2.1, fun i hi hmem => hfresh i hi (Multiset.mem_add.mpr (Or.inr hmem)), hsized⟩
      · rw [if_pos ⟨rfl, rfl⟩]
        have hnode := node_does (nbitsOf (2 * t - 1)) supply strict (N := N) (t := t) (L := []) hrec
          (Nat.zero_le _) (Nat.zero_le _) (by omega)
        exact hnode.bind (Does.of_eval fun _ => rfl)
      · exact framed_rep (d + 1) _ _ c hc fun _ _ => rfl

/-- A leaf that has lost a key it did not have. -/
structure Heap.Broken (h : Heap) : Prop where
  live : h.root ≠ 0
  leaf : (h.nodes h.root).leaf = true
  count : (h.nodes h.root).n = -1

/-- How a call of `bt_delete` ends, where `res` is what comes out on the tree. -/
inductive RootDeletes (strict : Bool) (N : ℕ) (supply : ℕ → ℕ) (t : ℕ) (h : Heap) (act : HeapM ℕ) (x : AnyTree)
    (res : Option (ℕ × AnyTree)) : Prop
  | done {h' : Heap} {e : ℕ} {x' : AnyTree} (hdoes : Does N h act (.ok e) h') (hholds : h'.Holds supply t x')
      (hheight : x'.height ≤ x.height) (hres : res = some (e, x') ∨ res = none ∧ strict = false)
  | faults {h' : Heap} (hdoes : Does N h act (.error .slot) h') (hres : res = none) (hstrict : strict = true)
  | breaks {h' : Heap} {e : ℕ} (hdoes : Does N h act (.ok e) h') (hbroken : h'.Broken) (hempty : x.inorder = [])
      (hstrict : strict = false)

variable (fuel strict) in
theorem btDelete_sim (ht : 2 ≤ t) (hsmall : 2 * t - 1 < 2 ^ 14) (hN : 2 * t - 1 ≤ N) (hx : h.Holds supply t x)
    (hfuel : x.height < fuel) (cmp : ℕ → ℕ → ℤ) (k : ℕ) : RootDeletes strict N supply t h
      (btDelete (heapOps t (nbitsOf (2 * t - 1)) supply strict) cmp fuel k) x (deleteRoot t cmp k x) := by
  have hroot := root_does strict (N := N) hx
  obtain ⟨d, x⟩ := x
  by_cases hne : x.keys ≠ [] ∨ d = 0 ∧ strict = true ∧ (0 : ℕ) = 0
  · have hdel := nodedeletekey_sim supply strict (N := N) ht hsmall hN cmp d _ fuel k 0 h x hfuel hx.sized
      hx.node hx.apart hne
    cases hdel with
    | @done h₁ e x' hdoes honly hat haddr hsh hres =>
      obtain ⟨hwithin, freed, hfreed⟩ := hsh
      have hapart := hx.apart
      have hfresh := hx.fresh
      rw [AnyTree.addrs, addrs_succ, hfreed] at hapart hfresh
      obtain ⟨h₂, hcol, hholds⟩ := collapse_does supply strict (N := N) ht
        (hwithin.weaken (Nat.zero_le _)) (honly.root.trans (hx.root.trans haddr.symm)) hat
        (Multiset.nodup_add.mp hapart).1
        (fun i hi hmem => hfresh i (honly.next ▸ hi) (Multiset.mem_add.mpr (Or.inl hmem))) e
      refine .done (hroot.bind (hdoes.bind hcol)) hholds (collapse_height _) ?_
      rcases hres with hres | ⟨hres, hs⟩
      · exact Or.inl (by rw [deleteRoot, hres]; rfl)
      · exact Or.inr ⟨by rw [deleteRoot, hres]; rfl, hs⟩
    | @faults h₁ hdoes honly hres hs => exact .faults (hroot.bind hdoes.fault) (by rw [deleteRoot, hres]; rfl) hs
  · -- an empty tree, and not a strict reading
    obtain ⟨hkeys, hstrict⟩ := not_or.mp hne
    have hkeys : x.keys = [] := not_not.mp hkeys
    obtain rfl : d = 0 := (RootSized.some_key hx.sized).resolve_right fun hne => hne hkeys
    obtain rfl : strict = false := by
      cases strict with
      | true => exact absurd ⟨rfl, rfl, rfl⟩ hstrict
      | false => rfl
    have hrec := hx.node.record
    have hindex := deleteIndex_does supply false _ hrec hx.sized.high hN hsmall cmp k 0
    rw [hkeys, Tree.kids_nil x] at hrec
    rw [hkeys] at hindex
    obtain ⟨h', hdoes, hleaf, hn, hroot'⟩ := deleteLeafKey_empty (nbitsOf (2 * t - 1)) supply (N := N) (t := t)
      (by omega) hrec
    have hr : h'.root = x.addr := hroot'.trans hx.root
    obtain ⟨fuel, rfl⟩ : ∃ f, fuel = f + 1 := ⟨fuel - 1, by dsimp only at hfuel; omega⟩
    have hbroken : h'.Broken := by
      refine ⟨?_, ?_, ?_⟩
      · rw [hr]
        exact hx.node.live
      · rw [hr]
        exact hleaf
      · rw [hr]
        exact hn
    refine .breaks (e := (h.nodes x.addr).pPtr) (hroot.bind ?_) hbroken ((inorder_leaf x).trans hkeys) rfl
    · refine Does.via (h.nodes x.addr).pPtr h' ?_ ?_
      · rw [nodedeletekey, if_neg hx.node.live]
        refine hindex.bind ((leaf_does hrec).bind ?_)
        exact hdoes
      · refine Does.of_eval fun m => ?_
        have hroot : (heapOps t (nbitsOf (2 * t - 1)) supply false).root h' m = (.ok x.addr, h', m) := by
          rw [← hr]
          rfl
        simp only [HeapM.bind_apply, hroot, eval_n, eval_leaf, hn, hleaf]
        rfl

/-! ## The searches -/

variable (fuel strict) in
theorem btFind_sim (ht : 1 ≤ t) (hsmall : 2 * t - 1 < 2 ^ 14) (hN : 2 * t - 1 ≤ N) (hx : h.Holds supply t x)
    (hfuel : x.height < fuel) (cmp : ℕ → ℕ → ℤ) (k : ℕ) :
    ∃ e, Does N h (btFind (heapOps t (nbitsOf (2 * t - 1)) supply strict) cmp fuel k) (.ok e) h ∧
      (Comparison cmp → Ascending cmp x.inorder → Finds cmp k x.inorder e) := by
  obtain ⟨e, hdoes, hfinds⟩ := findnodekey_sim supply strict (N := N) ht hsmall hN cmp k x.height _ fuel
    x.tree hfuel hx.sized hx.node
  exact ⟨e, (root_does _ hx).bind hdoes, hfinds⟩

theorem some_key (hx : x.Sized t) (hne : x.inorder ≠ []) : x.tree.keys ≠ [] := by
  obtain ⟨d, x⟩ := x
  intro hkeys
  obtain rfl : d = 0 := (RootSized.some_key hx).resolve_right fun h => h hkeys
  exact hne ((inorder_leaf x).trans hkeys)

variable (fuel strict) in
theorem btMin_sim (ht : 2 ≤ t) (hx : h.Holds supply t x) (hfuel : x.height < fuel) (hne : x.inorder ≠ []) :
    ∃ e r, Does N h (btMin (heapOps t (nbitsOf (2 * t - 1)) supply strict) fuel) (.ok e) h ∧ x.inorder = e :: r := by
  obtain ⟨e, r, hdoes, hin⟩ := findminnode_sim supply strict (N := N) ht x.height _ fuel x.tree hfuel
    hx.sized hx.node (some_key hx.sized hne)
  exact ⟨e, r, (root_does _ hx).bind hdoes, hin⟩

variable (fuel strict) in
theorem btMax_sim (ht : 2 ≤ t) (hx : h.Holds supply t x) (hfuel : x.height < fuel) (hne : x.inorder ≠ []) :
    ∃ l e, Does N h (btMax (heapOps t (nbitsOf (2 * t - 1)) supply strict) fuel) (.ok e) h ∧ x.inorder = l ++ [e] := by
  obtain ⟨l, e, hdoes, hin⟩ := findmaxnode_sim supply strict (N := N) ht x.height _ fuel x.tree hfuel
    hx.sized hx.node (some_key hx.sized hne)
  exact ⟨l, e, (root_does _ hx).bind hdoes, hin⟩

theorem empty_leaf (hx : h.Holds supply t x) (hempty : x.inorder = []) :
    (h.nodes x.tree.addr).Holds true [] [] := by
  obtain ⟨d, x⟩ := x
  have hkeys : x.keys = [] := List.sublist_nil.mp (hempty ▸ keys_sublist hx.sized.branches _)
  obtain rfl : d = 0 := (RootSized.some_key hx.sized).resolve_right fun h => h hkeys
  have hrec := hx.node.record
  rw [hkeys, Tree.kids_nil x] at hrec
  exact hrec

theorem btMin_empty (ht : 2 ≤ t) (hx : h.Holds supply t x) (hfuel : 0 < fuel) (hempty : x.inorder = []) :
    Does N h (btMin (heapOps t (nbitsOf (2 * t - 1)) supply strict) fuel) (.ok ((h.nodes x.tree.addr).keys 0)) h := by
  obtain ⟨fuel, rfl⟩ : ∃ f, fuel = f + 1 := ⟨fuel - 1, by omega⟩
  have hrec := empty_leaf hx hempty
  refine (root_does _ hx).bind ?_
  rw [findminnode]
  refine (leaf_does hrec).bind (Does.of_eval fun m => ?_)
  rw [if_pos rfl, eval_key (le_refl _) (by rw [hrec.count]; simp) (by omega)]
  rfl

theorem btMax_empty (ht : 2 ≤ t) (hx : h.Holds supply t x) (hfuel : 0 < fuel) (hempty : x.inorder = []) :
    Does N h (btMax (heapOps t (nbitsOf (2 * t - 1)) supply false) fuel) (.ok (h.nodes x.tree.addr).pPtr) h := by
  obtain ⟨fuel, rfl⟩ : ∃ f, fuel = f + 1 := ⟨fuel - 1, by omega⟩
  have hrec := empty_leaf hx hempty
  refine (root_does _ hx).bind ?_
  rw [findmaxnode]
  refine (leaf_does hrec).bind ?_
  rw [if_pos rfl]
  exact (n_does hrec).bind (Does.of_eval fun _ => if_pos ⟨by simp, by simp; omega, by simp⟩)

end Calls

end PmemExamples.BTree
