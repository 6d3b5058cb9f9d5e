import PmemExamples.BTree.Bags

/-! # The objects in a tree

Keys are pointers, and different pointers may be equal keys. What `bt_delete` returns, and what is left, pointer by
pointer. -/

namespace PmemExamples.BTree
set_option autoImplicit false

/-! ## One heap, one tree -/

section Unique
variable {α : Type} {N t : ℕ} {h h₁ h₂ : Heap} {act : HeapM α} {o o' : Except Fault α} {supply : ℕ → ℕ}

theorem Does.unique (hd : Does N h act o h₁) (hd' : Does N h act o' h₂) : o = o' ∧ h₁ = h₂ := by
  have hexact : Memo.Exact ⟨N, fun _ => -1, []⟩ := ⟨fun _ _ _ => Or.inl rfl, fun _ h => absurd h List.not_mem_nil⟩
  obtain ⟨m, -, -, hrun⟩ := hd _ hexact (le_refl N)
  obtain ⟨m', -, -, hrun'⟩ := hd' _ hexact (le_refl N)
  have heq := Prod.mk.inj (hrun.symm.trans hrun')
  exact ⟨heq.1, (Prod.mk.inj heq.2).1⟩

theorem keys_unique {r : NodeRec} {leaf leaf' : Bool} {ks ks' cs cs' : List ℕ} (hr : r.Holds leaf ks cs)
    (hr' : r.Holds leaf' ks' cs') : ks = ks' := by
  have hlen : ks.length = ks'.length := by
    have := hr.count.symm.trans hr'.count
    exact_mod_cast this
  exact List.ext_getElem hlen fun i hi hi' => (hr.keySlots i hi).symm.trans (hr'.keySlots i hi')

theorem tree_unique : ∀ (d d' m m' : ℕ) (x : Tree d) (y : Tree d'), x.Within t m (d = 0) (Sized t d) →
    y.Within t m' (d' = 0) (Sized t d') → NodeAt (d = 0) (addrOf d) (rep d) h x → NodeAt (d' = 0) (addrOf d')
    (rep d') h y → x.addr = y.addr → (⟨d, x⟩ : AnyTree) = ⟨d', y⟩ := by
  intro d
  induction d with
  | zero =>
    intro d' m m' x y hx hy hat hat' haddr
    have hrec := hat.record
    rw [haddr] at hrec
    have hkind := hrec.kind.symm.trans hat'.record.kind
    have hkeys := keys_unique hrec hat'.record
    cases d' with
    | succ d' => simp at hkind
    | zero =>
      obtain ⟨a, ks, cs⟩ := x
      obtain ⟨b, ks', cs'⟩ := y
      obtain rfl : a = b := haddr
      obtain rfl : ks = ks' := hkeys
      obtain rfl : cs = [] := Tree.kids_nil ⟨a, ks, cs⟩
      obtain rfl : cs' = [] := Tree.kids_nil ⟨a, ks, cs'⟩
      rfl
  | succ d ih =>
    intro d' m m' x y hx hy hat hat' haddr
    have hrec := hat.record
    rw [haddr] at hrec
    have hkind := hrec.kind.symm.trans hat'.record.kind
    have hkeys := keys_unique hrec hat'.record
    cases d' with
    | zero => simp at hkind
    | succ d' =>
      obtain ⟨a, ks, cs⟩ := x
      obtain ⟨b, ks', cs'⟩ := y
      obtain rfl : a = b := haddr
      obtain rfl : ks = ks' := hkeys
      have hlen : cs.length = ks.length + 1 := hx.branches
      have hlen' : cs'.length = ks.length + 1 := hy.branches
      -- each child is the one that the pointer leads to
      have hkid : ∀ (i : ℕ) (hi : i < cs.length) (hi' : i < cs'.length), (⟨d, cs[i]⟩ : AnyTree) = ⟨d', cs'[i]⟩ := by
        intro i hi hi'
        have hslot := hrec.kidSlots i (by simpa using hi)
        have hslot' := hat'.record.kidSlots i (by simpa using hi')
        rw [List.getElem_map] at hslot hslot'
        exact ih d' _ _ cs[i] cs'[i] (hx.kids _ (List.getElem_mem hi)) (hy.kids _ (List.getElem_mem hi'))
          (hat.kids _ (List.getElem_mem hi)) (hat'.kids _ (List.getElem_mem hi')) (hslot.symm.trans hslot')
      obtain ⟨rfl, -⟩ := AnyTree.mk.inj (hkid 0 (by omega) (by omega))
      obtain rfl : cs = cs' := List.ext_getElem (hlen.trans hlen'.symm) fun i hi hi' =>
        eq_of_heq (AnyTree.mk.inj (hkid i hi hi')).2
      rfl

theorem Heap.Holds.unique {x y : AnyTree} (hx : h.Holds supply t x) (hy : h.Holds supply t y) : x = y :=
  tree_unique x.height y.height _ _ x.tree y.tree hx.sized hy.sized hx.node hy.node (hx.root.symm.trans hy.root)

end Unique

/-! ## Deletion -/

/-- The tree is left with the same pointers but one, which is equal to `k` and is returned. -/
def Btree.RemovesStored (N fuel : ℕ) (b : Btree) (strict : Bool) (k : ℕ) (x : AnyTree) : Prop :=
  ∃ e h' x', Does N b.heap (btDelete (b.ops strict) b.cmp fuel k) (.ok e) h' ∧ h'.Holds b.supply b.t x' ∧ e ∈ x.inorder ∧
    b.cmp k e = 0 ∧ x'.inorder.Perm (x.inorder.erase e)

section Delete
variable {cmp : ℕ → ℕ → ℤ} {k e : ℕ} {keys keys' : List ℕ} {clean : Prop}

/-- The key `k` gets no rarer by rewriting, and more frequent unless nothing changes. -/
theorem Rewritten.count (h : Rewritten cmp k keys keys') :
    keys.count k ≤ keys'.count k ∧ (keys.count k = keys'.count k → keys = keys') := by
  induction h with
  | nil => exact ⟨le_refl _, fun _ => rfl⟩
  | @cons a b as bs hab _ ih =>
    obtain ⟨hle, heq⟩ := ih
    simp only [List.count_cons, beq_iff_eq]
    rcases hab with rfl | ⟨rfl, -⟩
    · exact ⟨by omega, fun hc => by rw [heq (by omega)]⟩
    · rw [if_pos rfl]
      by_cases hak : a = b
      · rw [if_pos hak]
        exact ⟨by omega, fun hc => by rw [heq (by omega), hak]⟩
      · rw [if_neg hak]
        exact ⟨by omega, fun hc => by omega⟩

theorem Removed.stored_iff (h : Removed cmp k clean e keys keys') :
    (e ∈ keys ∧ cmp k e = 0 ∧ keys'.Perm (keys.erase e)) ↔ clean := by
  obtain ⟨l, r, hrew, rfl, h0, hclean⟩ := h
  rw [hclean]
  constructor
  · rintro ⟨he, -, hperm⟩
    have hback : (l ++ e :: r).Perm keys :=
      List.perm_middle.trans ((hperm.cons e).trans (List.perm_cons_erase he).symm)
    exact hrew.count.2 (hback.count_eq k).symm
  · rintro rfl
    refine ⟨by simp, h0, ?_⟩
    have hmiddle : (l ++ e :: r).Perm (e :: (l ++ r)) := List.perm_middle
    have herase := hmiddle.erase e
    rw [List.erase_cons_head] at herase
    exact herase.symm

/-- `bt_delete` of a key that is there, up to equality: exactly where case 2c never finds another pointer than `k`. -/
theorem btDelete_stored_iff {b : Btree} {N fuel : ℕ} (hb : b.Ready N) (hcmp : Comparison b.cmp) {x : AnyTree}
    (hx : b.heap.Holds b.supply b.t x) (hs : Ascending b.cmp x.inorder) (hk : ∃ e ∈ x.inorder, b.cmp k e = 0)
    (hfuel : x.height < fuel) (strict : Bool) : b.RemovesStored N fuel strict k x ↔ x.Clean b.t b.cmp k := by
  obtain ⟨e, x', hres, hgone⟩ := deleteRoot_removed hb.two_le hx.sized hcmp hs hk
  have hsim := btDelete_sim fuel strict (N := N) hb.two_le hb.small hb.table hx hfuel b.cmp k
  rw [hres] at hsim
  rw [← hgone.stored_iff, Btree.RemovesStored, hb.ops_eq]
  cases hsim with
  | @done h' e₁ x₁ hdoes hholds _ heq =>
    obtain ⟨rfl, rfl⟩ : e = e₁ ∧ x' = x₁ := by
      rcases heq with heq | ⟨heq, -⟩
      · cases heq
        exact ⟨rfl, rfl⟩
      · cases heq
    constructor
    · rintro ⟨e₂, h₂, x₂, hdoes₂, hholds₂, he, h0, hperm⟩
      obtain ⟨hret, rfl⟩ := hdoes.unique hdoes₂
      obtain rfl := Except.ok.inj hret
      obtain rfl := hholds.unique hholds₂
      exact ⟨he, h0, hperm⟩
    · rintro ⟨he, h0, hperm⟩
      exact ⟨e, h', x', hdoes, hholds, he, h0, hperm⟩
  | faults _ heq => cases heq
  | breaks _ _ hempty =>
    obtain ⟨e', he', -⟩ := hk
    rw [hempty] at he'
    cases he'

end Delete

/-! ## Tens -/

/-- Pointers to numbers that are compared by their tens. -/
def byTens (a b : ℕ) : ℤ := (a / 10 : ℕ) - (b / 10 : ℕ)

theorem comparison_byTens : Comparison byTens := by
  constructor
  · intro a b
    unfold byTens
    omega
  · intro a b c
    unfold byTens
    omega

/-- A root of one key, and two leaves of one key each. -/
def tensTree : AnyTree := ⟨1, ⟨2, [20], [⟨1, [10], []⟩, ⟨3, [30], []⟩]⟩⟩

def tensBtree : Btree := ⟨2, nbitsOf 3, byTens, (· + 1), 2, fun a =>
  if a = 2 then ⟨false, 1, fun _ => 20, fun i => if i = 0 then 1 else 3, 2⟩
  else ⟨true, 1, fun _ => if a = 1 then 10 else 30, fun _ => 0, a⟩, 3⟩

theorem ready_tensBtree : tensBtree.Ready 3 := ⟨le_refl 2, by decide, rfl, supply_succ, le_refl 3⟩

theorem filled_singleton {f : ℕ → ℕ} {a : ℕ} (h : f 0 = a) : Slots.Filled f [a] := fun i hi => by
  obtain rfl : i = 0 := by simpa using hi
  exact h

theorem holds_tensBtree : tensBtree.heap.Holds tensBtree.supply tensBtree.t tensTree := by
  have hleaf : ∀ a k : ℕ, a ≠ 0 → a ≠ 2 → (if a = 1 then 10 else 30) = k →
      NodeAt true (addrOf 0) (rep 0) tensBtree.heap ⟨a, [k], []⟩ := fun a k ha hne hk => by
    refine ⟨ha, ?_, fun c => c.elim⟩
    have hnode : tensBtree.heap.nodes a = ⟨true, 1, fun _ => if a = 1 then 10 else 30, fun _ => 0, a⟩ := if_neg hne
    dsimp only
    rw [hnode]
    exact ⟨rfl, rfl, filled_singleton hk, Slots.Filled.nil _, fun _ _ => rfl⟩
  refine ⟨rfl, ⟨by decide, ⟨rfl, rfl, filled_singleton rfl, ?_, fun h => by cases h⟩, fun c hc =>
    ?_⟩, by decide, fun i hi hmem => ?_, ?_⟩
  · change Slots.Filled _ ([1] ++ [3])
    exact Slots.Filled.append_iff.mpr ⟨filled_singleton rfl, fun i hi => by
      obtain rfl : i = 0 := by simpa using hi
      rfl⟩
  · rcases List.mem_pair.mp hc with rfl | rfl
    · exact hleaf 1 10 (by decide) (by decide) rfl
    · exact hleaf 3 30 (by decide) (by decide) rfl
  · have haddrs : tensTree.addrs = {2, 1, 3} := by decide
    have hi : 3 ≤ i := hi
    rw [haddrs] at hmem
    simp [tensBtree] at hmem
    omega
  · refine ⟨by decide, by decide, rfl, fun c hc => ?_⟩
    rcases List.mem_pair.mp hc with rfl | rfl
    · exact ⟨by decide, by decide, rfl, fun c => c.elim⟩
    · exact ⟨by decide, by decide, rfl, fun c => c.elim⟩

theorem ascending_tensTree : Ascending byTens tensTree.inorder := by
  have hin : tensTree.inorder = [10, 20, 30] := rfl
  rw [hin, Ascending]
  decide

theorem btDelete_stored_iff_tens : tensBtree.RemovesStored 3 2 false 21 tensTree ↔ tensTree.Clean 2 byTens 21 :=
  btDelete_stored_iff ready_tensBtree comparison_byTens holds_tensBtree ascending_tensTree ⟨20, by decide, by decide⟩
    (by decide) false

/-- Here `bt_delete` returns 21, which is not in the tree. -/
theorem btDelete_returns_key : tensBtree.Ready 3 ∧ Comparison tensBtree.cmp ∧
    tensBtree.heap.Holds tensBtree.supply tensBtree.t tensTree ∧ Ascending tensBtree.cmp tensTree.inorder ∧
    tensTree.inorder.Nodup ∧ (∃ e ∈ tensTree.inorder, tensBtree.cmp 21 e = 0) ∧ ∀ fuel, 1 < fuel →
      ¬ tensBtree.RemovesStored 3 fuel false 21 tensTree := by
  refine ⟨ready_tensBtree, comparison_byTens, holds_tensBtree, ascending_tensTree, by decide, ⟨20, by decide, by decide⟩,
    fun fuel hfuel => ?_⟩
  rintro ⟨e, h', x', hdoes, -, he, -⟩
  have hres : deleteRoot 2 byTens 21 tensTree = some (21, ⟨0, ⟨1, [10, 30], []⟩⟩) := rfl
  have hsim := btDelete_sim fuel false ready_tensBtree.two_le ready_tensBtree.small ready_tensBtree.table
    holds_tensBtree hfuel byTens 21
  rw [show tensBtree.t = 2 from rfl, hres] at hsim
  cases hsim with
  | done hdoes₁ _ _ heq =>
    obtain ⟨hret, -⟩ := hdoes.unique hdoes₁
    rcases heq with heq | ⟨heq, -⟩
    · cases heq
      obtain rfl := Except.ok.inj hret
      exact absurd he (by decide)
    · cases heq
  | faults _ heq => cases heq
  | breaks _ _ hempty => exact absurd hempty (by decide)

end PmemExamples.BTree
