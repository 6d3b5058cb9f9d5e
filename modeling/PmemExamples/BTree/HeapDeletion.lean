import PmemExamples.BTree.Simulation

/-! # Deletion in the heap

`nodedeletekey` does on the heap what `deleteKey` does on the tree, at the addresses of the tree. Where there is nothing
to delete in a leaf, a strict reading ends with a fault; else the first key of the leaf is lost. -/

namespace PmemExamples.BTree
set_option autoImplicit false

section Delete
variable {α : Type} {addr : α → ℕ} {g : α → Multiset ℕ} {rep : Heap → α → Prop} {q : α → Prop} {leaf : Bool}
  {t N m k s fuel : ℕ} {supply : ℕ → ℕ} {strict : Bool} {cmp : ℕ → ℕ → ℤ} {h : Heap}

/-- How a call ends for the node `x`, where `res` is what comes out on the tree. -/
inductive Deletes (strict : Bool) (N t m : ℕ) (leaf : Bool) (addr : α → ℕ) (rep : Heap → α → Prop) (q : α → Prop)
    (g : α → Multiset ℕ) (h : Heap) (act : HeapM ℕ) (x : TreeNode α) (res : Option (ℕ × TreeNode α)) : Prop
  | done {h' : Heap} {e : ℕ} {x' : TreeNode α} (hdoes : Does N h act (.ok e) h') (honly : Only {b | b ∈ x.addrs g} h h')
      (hat : NodeAt leaf addr rep h' x') (haddr : x'.addr = x.addr) (hshrunk : Shrunk t m leaf q g x x')
      (hres : res = some (e, x') ∨ res = none ∧ strict = false)
  | faults {h' : Heap} (hdoes : Does N h act (.error .slot) h') (honly : Only {b | b ∈ x.addrs g} h h')
    (hres : res = none) (hstrict : strict = true)

/-! ## Leaves -/

theorem removeLeaf_none {x : TreeNode α} (h : removeLeaf cmp k s x = none) (hne : x.keys ≠ [] ∨ s = 0) :
    (if s = 2 then (pick cmp k s true x.keys).1 + 1 else (pick cmp k s true x.keys).1) = -1 := by
  obtain ⟨hlow, hhigh⟩ := pick_bounds cmp k s true x.keys
  by_contra hi
  have hrange : 0 ≤ (if s = 2 then (pick cmp k s true x.keys).1 + 1 else (pick cmp k s true x.keys).1) ∧
      (if s = 2 then (pick cmp k s true x.keys).1 + 1 else (pick cmp k s true x.keys).1) < x.keys.length := by
    constructor
    · split at hi <;> split <;> omega
    · split
      · next hs =>
        subst hs
        have hpos := List.length_pos_iff.mpr (hne.resolve_right (by decide))
        simp only [pick]
        omega
      · exact hhigh
  -- a key is at the index
  rw [removeLeaf] at h
  generalize (if s = 2 then (pick cmp k s true x.keys).1 + 1 else (pick cmp k s true x.keys).1) = i at h hrange
  rw [if_neg (by omega), List.drop_eq_getElem_cons (show i.toNat < x.keys.length by omega)] at h
  cases h

theorem nodedeletekey_leaf (hsmall : 2 * t - 1 < 2 ^ 14) (hN : 2 * t - 1 ≤ N) {x : TreeNode α} (hx : x.Within t m true q)
    (hat : NodeAt true addr rep h x) (hne : x.keys ≠ [] ∨ strict = true ∧ s = 0) (cmp : ℕ → ℕ → ℤ) (k fuel : ℕ) :
    Deletes strict N t m true addr rep q g h
      (nodedeletekey (heapOps t (nbitsOf (2 * t - 1)) supply strict) cmp (fuel + 1) x.addr k s) x
      (removeLeaf cmp k s x) := by
  have hrec := hat.record
  have hhigh := hx.high
  have hkids : x.kids = [] := List.length_eq_zero_iff.mp hx.branches
  have hself : ({x.addr} : Set ℕ) ⊆ {b | b ∈ x.addrs g} := by
    rintro b rfl
    exact mem_addrs.mpr (Or.inl rfl)
  have hgo : ∀ {o h'}, Does N h (deleteLeafKey (heapOps t (nbitsOf (2 * t - 1)) supply strict) x.addr
      (if s = 2 then (pick cmp k s true x.keys).1 + 1 else (pick cmp k s true x.keys).1)) o h' →
      Does N h (nodedeletekey (heapOps t (nbitsOf (2 * t - 1)) supply strict) cmp (fuel + 1) x.addr k s) o h' := by
    intro o h' hdel
    rw [nodedeletekey, if_neg hat.live]
    refine (deleteIndex_does _ _ _ hrec hhigh hN hsmall cmp k s).bind ((leaf_does hrec).bind ?_)
    rw [if_pos rfl]
    exact hdel
  cases hres : removeLeaf cmp k s x with
  | some res =>
    obtain ⟨e, x'⟩ := res
    obtain ⟨l, r, hkeys, rfl, hlen⟩ := removeLeaf_some hres
    rw [hkeys, hkids] at hrec
    obtain ⟨h', hdoes, hrec', honly⟩ := deleteLeafKey_does (nbitsOf (2 * t - 1)) supply strict (N := N) (t :=
      t) hsmall hrec (hkeys ▸ hhigh)
    rw [hlen] at hdoes
    have hat' : NodeAt true addr rep h' ⟨x.addr, l ++ r, x.kids⟩ := by
      refine ⟨hat.live, ?_, ?_⟩
      · dsimp only
        rw [hkids]
        exact hrec'
      · dsimp only
        rw [hkids]
        simp
    exact .done (hgo hdoes) (honly.mono hself) hat' rfl (removeLeaf_shrunk hx hres g) (Or.inl rfl)
  | none =>
    have hidx := removeLeaf_none hres (hne.imp id And.right)
    rw [hidx] at hgo
    cases strict with
    | true => exact .faults (hgo deleteLeafKey_fault) (Only.refl _ _) rfl rfl
    | false =>
      obtain ⟨e, r, hkeys⟩ := List.exists_cons_of_ne_nil (hne.resolve_right (by simp))
      rw [hkeys, hkids] at hrec
      obtain ⟨h', hdoes, hrec', honly⟩ := deleteLeafKey_before (nbitsOf (2 * t - 1)) supply (N := N) (t :=
        t) hsmall hrec (hkeys ▸ hhigh)
      have hat' : NodeAt true addr rep h' ⟨x.addr, r, x.kids⟩ := by
        refine ⟨hat.live, ?_, ?_⟩
        · dsimp only
          rw [hkids]
          exact hrec'
        · dsimp only
          rw [hkids]
          simp
      refine .done (hgo hdoes) (honly.mono hself) hat' rfl ⟨?_, 0, (add_zero _).symm⟩ (Or.inr ⟨rfl, rfl⟩)
      have hlow := hx.low
      rw [hkeys, List.length_cons] at hlow hhigh
      exact ⟨by dsimp only; omega, by dsimp only; omega, hx.branches, hx.kids⟩

/-! ## Other nodes -/

section Inner
variable {x : TreeNode (TreeNode α)}

theorem pick_some {keys : List ℕ} (hne : keys ≠ []) (cmp : ℕ → ℕ → ℤ) (k s : ℕ) :
    ∃ r, (pick cmp k s false keys).2 = some r ∧ (r = 0 → 0 ≤ (pick cmp k s false keys).1) := by
  match s with
  | 0 => exact (kindex_bounds cmp k keys).2.2 hne
  | 1 => exact ⟨1, rfl, by simp⟩
  | s + 2 => exact ⟨-1, rfl, by simp⟩

theorem hit_iff (hb : x.kids.length = x.keys.length + 1) (cmp : ℕ → ℕ → ℤ) (k s : ℕ) {r : ℤ}
    (hr : (pick cmp k s false x.keys).2 = some r) (hpos : r = 0 → 0 ≤ (pick cmp k s false x.keys).1) :
    hit cmp k s x = none ↔ r ≠ 0 := by
  have hhigh := (pick_bounds cmp k s false x.keys).2
  constructor
  · rintro hw rfl
    have hlt : (pick cmp k s false x.keys).1.toNat < x.keys.length := by
      have := hpos rfl
      omega
    obtain ⟨w, hw'⟩ := around_some hlt hb
    rw [hit, if_pos hr, hw'] at hw
    cases hw
  · intro hne
    rw [hit, if_neg]
    rw [hr]
    simpa using hne

theorem Deletes.lift {h₁ : Heap} {act whole : HeapM ℕ} {y : TreeNode α} {res : Option (ℕ × TreeNode α)}
    (hchild : Deletes strict N t t leaf addr rep q g h₁ act y res)
    (post : ℕ → HeapM ℕ) (ret : ℕ → ℕ) (f : ℕ → TreeNode α → TreeNode (TreeNode α))
    (hsub : ∀ b ∈ y.addrs g, b ∈ x.addrs (TreeNode.addrs g)) (honly : Only {b | b ∈ x.addrs (TreeNode.addrs g)} h h₁)
    (hwhole : ∀ {o h'}, Does N h₁ (act >>= post) o h' → Does N h whole o h') (haddr : ∀ e c, (f e c).addr = x.addr)
    (hpost : ∀ {e c h₂}, NodeAt leaf addr rep h₂ c → c.addr = y.addr → Shrunk t t leaf q g y c →
      Only {b | b ∈ y.addrs g} h₁ h₂ → ∃ h₃, Does N h₂ (post e) (.ok (ret e)) h₃ ∧ InnerAt leaf addr rep h₃ (f e c) ∧
        Only {b | b ∈ x.addrs (TreeNode.addrs g)} h₂ h₃)
    (hshrunk : ∀ {e c}, Shrunk t t leaf q g y c →
      Shrunk t m false (TreeNode.Within t (t - 1) leaf q) (TreeNode.addrs g) x (f e c)) :
    Deletes strict N t m false TreeNode.addr (NodeAt leaf addr rep) (TreeNode.Within t (t - 1) leaf q)
    (TreeNode.addrs g) h whole x (res.map fun res => (ret res.1, f res.1 res.2)) := by
  cases hchild with
  | @done h₂ e c hdoes honly' hat haddr' hsh hres =>
    obtain ⟨h₃, hdoes', hat', honly''⟩ := hpost (e := e) hat haddr' hsh honly'
    refine .done (hwhole (hdoes.bind hdoes')) ((honly.trans (honly'.mono hsub)).trans honly'') hat' (haddr e c)
      (hshrunk hsh) ?_
    rcases hres with rfl | ⟨rfl, hs⟩
    · exact Or.inl rfl
    · exact Or.inr ⟨rfl, hs⟩
  | @faults h₂ hdoes honly' hres hs =>
    subst hres
    exact .faults (hwhole hdoes.fault) (honly.trans (honly'.mono hsub)) rfl hs

variable (supply strict) in
theorem setKey_sim (nbits : ℕ) {w : Around α} {a : ℕ} {y z : TreeNode α} (hF : Framed g rep)
    (hat : InnerAt leaf addr rep h (w.put a w.key y z)) (hnd : ((w.put a w.key y z).addrs (TreeNode.addrs g)).Nodup)
    (hle : w.left.length + w.right.length + 1 ≤ 2 * t - 1) (e : ℕ) : ∃ h', Does N h (do
      (heapOps t nbits supply strict).setKey a w.left.length e
      (heapOps t nbits supply strict).persist a
      return w.key) (.ok w.key) h' ∧ InnerAt leaf addr rep h' (w.put a e y z) ∧ Only {a} h h' := by
  obtain ⟨h', hdoes, hrec, honly⟩ := setKey_does nbits supply strict (N := N) (t := t)
    hat.record (by rw [List.length_append, List.length_cons]; omega) e
  exact ⟨h', hdoes.bind (Does.of_eval fun _ => rfl), hat.rekey (framed_node hF) hnd hrec honly, honly⟩

theorem Shrunk.nodup {β : Type} {g : β → Multiset ℕ} {q : β → Prop} {x x' : TreeNode β} (hsh : Shrunk t m leaf q g x x')
    (hnd : (x.addrs g).Nodup) : (x'.addrs g).Nodup := by
  obtain ⟨-, freed, hfreed⟩ := hsh
  rw [hfreed] at hnd
  exact (Multiset.nodup_add.mp hnd).1

theorem nodedeletekey_inner (ht : 2 ≤ t) (hsmall : 2 * t - 1 < 2 ^ 14) (hN : 2 * t - 1 ≤ N) (hF : Framed g rep)
    (hx : x.Within t m false (TreeNode.Within t (t - 1) leaf q)) (hne : x.keys ≠ []) (hat : InnerAt leaf addr rep h x)
    (hnd : (x.addrs (TreeNode.addrs g)).Nodup) (del : ℕ → ℕ → TreeNode α → Option (ℕ × TreeNode α))
    (hdel : ∀ {h : Heap} {k s : ℕ} {y : TreeNode α}, y.Within t t leaf q → NodeAt leaf addr rep h y → (y.addrs g).Nodup →
      Deletes strict N t t leaf addr rep q g h
        (nodedeletekey (heapOps t (nbitsOf (2 * t - 1)) supply strict) cmp fuel y.addr k s) y (del k s y)) (k s : ℕ) :
    Deletes strict N t m false TreeNode.addr (NodeAt leaf addr rep) (TreeNode.Within t (t - 1) leaf q)
    (TreeNode.addrs g) h (nodedeletekey (heapOps t (nbitsOf (2 * t - 1)) supply strict) cmp (fuel + 1) x.addr k s) x
      (removeInner t cmp del k s x) := by
  have hrec := hat.record
  have hindex := deleteIndex_does supply strict false hrec hx.high hN hsmall cmp k s
  obtain ⟨r, hr, hpos⟩ := pick_some hne cmp k s
  have hhit := hit_iff hx.branches cmp k s hr hpos
  have hlow := (pick_bounds cmp k s false x.keys).1
  have hcase := removeInner_cases ht hx hne del cmp k s
  generalize removeInner t cmp del k s x = res at hcase
  rcases hp : pick cmp k s false x.keys with ⟨i, o⟩
  rw [hp] at hindex hr hlow hpos
  obtain rfl : o = some r := hr
  have hself : ({x.addr} : Set ℕ) ⊆ {b | b ∈ x.addrs (TreeNode.addrs g)} := by
    rintro b rfl
    exact mem_addrs.mpr (Or.inl rfl)
  -- the key of case 2, and what is around it
  have hkey : ∀ {w}, hit cmp k s x = some w → r = 0 ∧ ∃ j : ℕ, i = j ∧ around j x = some w := fun {w} hw => by
    obtain rfl : r = 0 := by
      by_contra hr0
      rw [hhit.mpr hr0] at hw
      cases hw
    have haround := hit_around hw
    rw [hp] at haround
    exact ⟨rfl, i.toNat, by have := hpos rfl; dsimp only at this; omega, haround⟩
  have hle : ∀ {j w}, around j x = some w → w.left.length + w.right.length + 1 ≤ 2 * t - 1 := fun {j w} hw => by
    have hhigh := hx.high
    rw [(around_eq hw).1, put_length] at hhigh
    exact hhigh
  have hsub : ∀ {c}, c ∈ x.kids → ∀ b ∈ c.addrs g, b ∈ x.addrs (TreeNode.addrs g) := fun hc b hb =>
    mem_addrs.mpr (Or.inr ⟨_, hc, hb⟩)
  cases hcase with
  | @before w hw hy =>
    obtain ⟨rfl, j, rfl, haround⟩ := hkey hw
    have hfits := around_fits hx haround
    obtain ⟨heq, hl, hL⟩ := around_eq haround
    have hmem := List.mem_of_getElem? (around_y haround)
    obtain ⟨hnode, hn⟩ := child_does (nbitsOf (2 * t - 1)) supply strict (N := N) (by omega)
      hat hx (around_y haround)
    refine (hdel ⟨hy, hfits.y.high, hfits.y.branches, hfits.y.kids⟩ (hat.kids w.y hmem) (kid_apart (heq ▸ hnd)).1).lift
      (fun e => do
        (heapOps t (nbitsOf (2 * t - 1)) supply strict).setKey x.addr j e
        (heapOps t (nbitsOf (2 * t - 1)) supply strict).persist x.addr
        return w.key) (fun _ => w.key) (fun e c => w.put x.addr e c w.z) (hsub hmem) (Only.refl _ _)
      (fun hgo => ?_) (fun _ _ => rfl) (@fun e c h₂ hatc hca hsh hoc => ?_) (fun hsh => shrunk_before haround hx hsh _)
    · rw [nodedeletekey, if_neg hat.live]
      refine hindex.bind ((leaf_does hrec).bind ?_)
      rw [if_neg (by decide)]
      dsimp only
      rw [if_pos rfl]
      refine t_does.bind (hnode.bind (hn.bind ?_))
      rw [if_pos (by exact_mod_cast hy)]
      exact (middle_does hat hx haround).bind hgo
    · have hnd₂ := (shrunk_before (m := m) haround hx hsh w.key).nodup hnd
      rw [heq] at hat hnd
      obtain ⟨h₃, hdoes, hat₃, honly₃⟩ := setKey_sim supply strict (nbitsOf (2 * t - 1)) (t := t) hF
        (hat.putBack (framed_node hF) hnd (fun b _ hb => hoc.nodes b hb) hatc hca) hnd₂ (hle haround) e
      rw [hl] at hdoes
      exact ⟨h₃, hdoes, hat₃, honly₃.mono hself⟩
  | @behind w hw hy hz =>
    obtain ⟨rfl, j, rfl, haround⟩ := hkey hw
    have hfits := around_fits hx haround
    obtain ⟨heq, hl, hL⟩ := around_eq haround
    have hsecond : x.kids[j + 1]? = some w.z := by
      rw [heq]
      exact second_kid (Nat.succ_pos j) hL
    have hmem := List.mem_of_getElem? hsecond
    obtain ⟨hnode, hn⟩ := child_does (nbitsOf (2 * t - 1)) supply strict (N := N) (by omega)
      hat hx (around_y haround)
    obtain ⟨hnode', hn'⟩ := child_does (nbitsOf (2 * t - 1)) supply strict (N := N)
      (by omega) hat hx hsecond
    have heq' : x = ⟨x.addr, w.left ++ w.key :: w.right, (w.kidsLeft ++ [w.y]) ++ w.z :: w.kidsRight⟩ := by
      rw [← List.append_cons]
      exact heq
    refine (hdel ⟨hz, hfits.z.high, hfits.z.branches, hfits.z.kids⟩ (hat.kids w.z hmem) (kid_apart (heq' ▸ hnd)).1).lift
      (fun e => do
        (heapOps t (nbitsOf (2 * t - 1)) supply strict).setKey x.addr j e
        (heapOps t (nbitsOf (2 * t - 1)) supply strict).persist x.addr
        return w.key) (fun _ => w.key) (fun e c => w.put x.addr e w.y c) (hsub hmem) (Only.refl _ _)
      (fun hgo => ?_) (fun _ _ => rfl) (@fun e c h₂ hatc hca hsh hoc => ?_) (fun hsh => shrunk_behind haround hx hsh _)
    · rw [nodedeletekey, if_neg hat.live]
      refine hindex.bind ((leaf_does hrec).bind ?_)
      rw [if_neg (by decide)]
      dsimp only
      rw [if_pos rfl]
      refine t_does.bind (hnode.bind (hn.bind ?_))
      rw [if_neg (by omega)]
      refine hnode'.bind (hn'.bind ?_)
      rw [if_pos (by exact_mod_cast hz)]
      exact (middle_does hat hx haround).bind hgo
    · have hnd₂ := (shrunk_behind (m := m) haround hx hsh w.key).nodup hnd
      rw [heq'] at hat hnd
      have hback := hat.putBack (framed_node hF) hnd (fun b _ hb => hoc.nodes b hb) hatc hca
      rw [← List.append_cons] at hback
      obtain ⟨h₃, hdoes, hat₃, honly₃⟩ := setKey_sim supply strict (nbitsOf (2 * t - 1)) (t := t) hF hback hnd₂
        (hle haround) e
      rw [hl] at hdoes
      exact ⟨h₃, hdoes, hat₃, honly₃.mono hself⟩
  | @between w hw hy hz =>
    obtain ⟨rfl, j, rfl, haround⟩ := hkey hw
    have hfits := around_fits hx haround
    obtain ⟨heq, hl, hL⟩ := around_eq haround
    have hsecond : x.kids[j + 1]? = some w.z := by
      rw [heq]
      exact second_kid (Nat.succ_pos j) hL
    obtain ⟨hnode, hn⟩ := child_does (nbitsOf (2 * t - 1)) supply strict (N := N) (by omega)
      hat hx (around_y haround)
    obtain ⟨hnode', hn'⟩ := child_does (nbitsOf (2 * t - 1)) supply strict (N := N)
      (by omega) hat hx hsecond
    obtain ⟨h₁, h₂, habs, hdrop, hat₂, honly⟩ := merge_does (nbitsOf (2 * t - 1)) supply strict (N := N) (by omega)
      hsmall hF hat hnd hx haround hy hz k
    have hjoin : x.addrs (TreeNode.addrs g) =
        (w.join x.addr (w.y.merge k w.z)).addrs (TreeNode.addrs g) + {w.z.addr} := by
      conv_lhs => rw [heq]
      exact join_addrs
    have hnd₂ : ((w.join x.addr (w.y.merge k w.z)).addrs (TreeNode.addrs g)).Nodup := by
      rw [hjoin] at hnd
      exact (Multiset.nodup_add.mp hnd).1
    refine (hdel (within_merge (by omega) hfits hy hz k) (hat₂.kids (w.y.merge k w.z) (by simp [Around.join]))
      (kid_apart hnd₂).1).lift pure id (fun _ c => w.join x.addr c) (fun b hb => ?_)
      (honly.mono (around_mem haround)) (fun hgo => ?_) (fun _ _ => rfl) (fun hatc hca hsh hoc => ?_)
      (fun hsh => shrunk_between haround hx hsh)
    · rw [hjoin]
      exact Multiset.mem_add.mpr (Or.inl (mem_addrs.mpr (Or.inr ⟨w.y.merge k w.z, by simp [Around.join], hb⟩)))
    · rw [nodedeletekey, if_neg hat.live]
      refine hindex.bind ((leaf_does hrec).bind ?_)
      rw [if_neg (by decide)]
      dsimp only
      rw [if_pos rfl]
      refine t_does.bind (hnode.bind (hn.bind ?_))
      rw [if_neg (by omega)]
      refine hnode'.bind (hn'.bind ?_)
      rw [if_neg (by omega), if_pos (by omega)]
      refine Does.via w.y.addr h₂ ?_ hgo.of_pure
      exact hnode.bind
        (hnode'.bind (habs.bind ((Does.of_eval fun _ => rfl).bind (hdrop.bind (Does.of_eval fun _ => rfl)))))
    · exact ⟨_, Does.pure _, hat₂.putBack (framed_node hF) hnd₂ (fun b _ hb => hoc.nodes b hb) hatc hca, Only.refl _ _⟩
  | @below v hw hv hprep =>
    have hr0 : r ≠ 0 := hhit.mp hw
    have hidx : i + 1 = (descent cmp k s x.keys : ℕ) := by
      rw [descent, hp]
      dsimp only at hlow ⊢
      omega
    obtain ⟨h₁, c, hc, hdoes, hat₁, honly⟩ := prepareChild_does (nbitsOf (2 * t - 1)) supply strict (N := N) ht hsmall
      hF hat hnd hx hne (descent_le cmp k s x.keys)
    rw [hv] at hc hat₁
    obtain rfl : v.child = c := Option.some.inj ((getElem?_middle rfl).symm.trans hc)
    obtain ⟨freed, hfreed⟩ := hprep.addrs g
    have hnd₁ : ((v.put x.addr v.child).addrs (TreeNode.addrs g)).Nodup := by
      rw [hfreed] at hnd
      exact (Multiset.nodup_add.mp hnd).1
    refine (hdel hprep.child (hat₁.kids v.child (by simp [Cut.put])) (kid_apart hnd₁).1).lift pure id
      (fun _ c => v.put x.addr c) (fun b hb => ?_) honly (fun hgo => ?_) (fun _ _ => rfl) (fun hatc hca hsh hoc => ?_)
      (fun hsh => hprep.shrunk hx hsh)
    · rw [hfreed]
      exact Multiset.mem_add.mpr (Or.inl (mem_addrs.mpr (Or.inr ⟨v.child, by simp [Cut.put], hb⟩)))
    · rw [nodedeletekey, if_neg hat.live]
      refine hindex.bind ((leaf_does hrec).bind ?_)
      rw [if_neg (by decide)]
      dsimp only
      rw [if_neg hr0, hidx]
      exact hdoes.bind hgo.of_pure
    · refine ⟨_, Does.pure _, hat₁.putBack (framed_node hF) hnd₁ (fun b _ hb => hoc.nodes b hb) hatc hca, Only.refl _ _⟩

end Inner

end Delete

/-! ## All levels -/

section Levels
variable {t N k s : ℕ} {supply : ℕ → ℕ} {strict : Bool} {h : Heap}

variable (supply strict) in
theorem nodedeletekey_sim (ht : 2 ≤ t) (hsmall : 2 * t - 1 < 2 ^ 14) (hN : 2 * t - 1 ≤ N) (cmp : ℕ → ℕ → ℤ) :
    ∀ (d m fuel k s : ℕ) (h : Heap) (x : Tree d), d < fuel → x.Within t m (d = 0) (Sized t d) →
      NodeAt (d = 0) (addrOf d) (rep d) h x → (addrs (d + 1) x).Nodup → x.keys ≠ [] ∨ d = 0 ∧ strict = true ∧ s = 0 →
      Deletes strict N t m (d = 0) (addrOf d) (rep d) (Sized t d) (addrs d) h
        (nodedeletekey (heapOps t (nbitsOf (2 * t - 1)) supply strict) cmp fuel x.addr k s) x (deleteKey t cmp d k s x)
  | 0, m, fuel + 1, k, s, h, x, _, hx, hat, _, hne =>
    nodedeletekey_leaf hsmall hN hx hat (hne.imp id And.right) cmp k fuel
  | d + 1, m, fuel + 1, k, s, h, x, hfuel, hx, hat, hnd, hne =>
    nodedeletekey_inner ht hsmall hN (framed_rep d) hx (hne.resolve_right fun hd => Nat.succ_ne_zero d hd.1) hat hnd
      (deleteKey t cmp d) (fun {h k s y} hy hy' hnd' => nodedeletekey_sim ht hsmall hN cmp d t fuel k s h y (by omega)
        hy hy' hnd' (Or.inl (List.ne_nil_of_length_pos (lt_of_lt_of_le (by omega) hy.low)))) k s

end Levels

end PmemExamples.BTree
