import PmemExamples.BTree.Records

/-! # Trees in the heap

What it means that the nodes of a heap are a tree, and that the code of case 3 does on the heap what `prepare` does on
the tree. A level of nodes is described by what is said of the level below it, `rep`, with the addresses that this
looks at. -/

namespace PmemExamples.BTree
set_option autoImplicit false

/-! ## Nodes that are there -/

section Node
variable {α : Type} {addr : α → ℕ} {g : α → Multiset ℕ} {rep : Heap → α → Prop} {leaf : Bool} {h h' : Heap}
    {x : TreeNode α}
  {a : ℕ} {ks : List ℕ} {L R : List α} {c c' : α}

/-- The record of `x`, and what hangs below it. -/
structure NodeAt (leaf : Bool) (addr : α → ℕ) (rep : Heap → α → Prop) (h : Heap) (x : TreeNode α) : Prop where
  live : x.addr ≠ 0
  record : (h.nodes x.addr).Holds leaf x.keys (x.kids.map addr)
  kids : ∀ c ∈ x.kids, rep h c

/-- `rep` looks at no other addresses. -/
def Framed (g : α → Multiset ℕ) (rep : Heap → α → Prop) : Prop :=
  ∀ (h h' : Heap) (c : α), rep h c → (∀ a ∈ g c, h'.nodes a = h.nodes a) → rep h' c

theorem mem_kids {xs : List α} : a ∈ (xs.map g).sum ↔ ∃ c ∈ xs, a ∈ g c := by
  induction xs with
  | nil => simp
  | cons c xs ih => simp [ih]

theorem mem_addrs : a ∈ x.addrs g ↔ a = x.addr ∨ ∃ c ∈ x.kids, a ∈ g c := by
  rw [TreeNode.addrs, Multiset.mem_add, Multiset.mem_singleton, mem_kids]

theorem framed_node (hF : Framed g rep) : Framed (TreeNode.addrs g) (NodeAt leaf addr rep) := by
  intro h h' x hx hsame
  refine ⟨hx.live, ?_, fun c hc => hF _ _ c (hx.kids c hc) fun a ha => hsame a (mem_addrs.mpr (Or.inr ⟨c, hc, ha⟩))⟩
  rw [hsame x.addr (mem_addrs.mpr (Or.inl rfl))]
  exact hx.record

theorem addr_apart (hnd : (x.addrs g).Nodup) (hc : c ∈ x.kids) : x.addr ∉ g c := by
  rw [TreeNode.addrs, Multiset.nodup_add] at hnd
  obtain ⟨-, -, hdis⟩ := hnd
  exact fun ha => Multiset.disjoint_left.mp hdis (Multiset.mem_singleton_self _) (mem_kids.mpr ⟨c, hc, ha⟩)

theorem kid_apart (hnd : (TreeNode.addrs g ⟨a, ks, L ++ c :: R⟩).Nodup) :
    (g c).Nodup ∧ a ∉ g c ∧ ∀ b, b ∈ L ∨ b ∈ R → ∀ e ∈ g b, e ∉ g c := by
  rw [addrs_kid, Multiset.nodup_add] at hnd
  obtain ⟨-, hc, hdis⟩ := hnd
  refine ⟨hc, fun ha => ?_, fun b hb e he => ?_⟩
  · exact Multiset.disjoint_left.mp hdis (by simp) ha
  · refine Multiset.disjoint_left.mp hdis ?_
    rw [Multiset.mem_add, Multiset.mem_add, mem_kids, mem_kids]
    rcases hb with hb | hb
    · exact Or.inl (Or.inr ⟨b, hb, he⟩)
    · exact Or.inr ⟨b, hb, he⟩

theorem NodeAt.putBack (hF : Framed g rep) (hat : NodeAt leaf addr rep h ⟨a, ks, L ++ c :: R⟩)
    (hnd : (TreeNode.addrs g ⟨a, ks, L ++ c :: R⟩).Nodup)
    (hsame : ∀ b ∈ TreeNode.addrs g ⟨a, ks, L ++ c :: R⟩, b ∉ g c → h'.nodes b = h.nodes b) (hc : rep h' c')
    (haddr : addr c' = addr c) : NodeAt leaf addr rep h' ⟨a, ks, L ++ c' :: R⟩ := by
  obtain ⟨-, ha, hrest⟩ := kid_apart hnd
  refine ⟨hat.live, ?_, fun b hb => ?_⟩
  · have hrec := hat.record
    dsimp only at hrec ⊢
    rw [hsame a (mem_addrs.mpr (Or.inl rfl)) ha]
    rw [List.map_append, List.map_cons] at hrec ⊢
    rwa [haddr]
  · have hside : ∀ b, b ∈ L ∨ b ∈ R → rep h' b := fun b hb => by
      have hmem : b ∈ L ++ c :: R := by
        simp only [List.mem_append, List.mem_cons]
        tauto
      exact hF _ _ b (hat.kids b hmem) fun e he => hsame e (mem_addrs.mpr (Or.inr ⟨b, hmem, he⟩)) (hrest b hb e he)
    rcases List.mem_append.mp hb with hb | hb
    · exact hside b (Or.inl hb)
    · rcases List.mem_cons.mp hb with rfl | hb
      · exact hc
      · exact hside b (Or.inr hb)

theorem NodeAt.rekey (hF : Framed g rep) (hat : NodeAt leaf addr rep h x) (hnd : (x.addrs g).Nodup) {keys : List ℕ}
    (hrec : (h'.nodes x.addr).Holds leaf keys (x.kids.map addr)) (honly : Only {x.addr} h h') :
    NodeAt leaf addr rep h' ⟨x.addr, keys, x.kids⟩ := by
  refine ⟨hat.live, hrec, fun c hc => hF _ _ c (hat.kids c hc) fun b hb => honly.nodes b fun heq => ?_⟩
  rw [Set.mem_singleton_iff] at heq
  exact addr_apart hnd hc (heq ▸ hb)

theorem Only.trans {S : Set ℕ} {h'' : Heap} (h₁ : Only S h h') (h₂ : Only S h' h'') : Only S h h'' :=
  ⟨fun a ha => (h₂.nodes a ha).trans (h₁.nodes a ha), h₂.root.trans h₁.root, h₂.next.trans h₁.next⟩

theorem Only.mono {S T : Set ℕ} (honly : Only S h h') (hS : S ⊆ T) : Only T h h' :=
  ⟨fun a ha => honly.nodes a fun hs => ha (hS hs), honly.root, honly.next⟩

theorem Only.refl (S : Set ℕ) (h : Heap) : Only S h h := ⟨fun _ _ => rfl, rfl, rfl⟩

end Node

/-- The address of a tree, and what it means that it is in the heap. -/
def addrOf : (d : ℕ) → Below d → ℕ
  | 0, e => nomatch e
  | _ + 1, x => x.addr

def rep : (d : ℕ) → Heap → Below d → Prop
  | 0, _, e => nomatch e
  | d + 1, h, x => NodeAt (d = 0) (addrOf d) (rep d) h x

theorem framed_rep : ∀ d : ℕ, Framed (addrs d) (rep d)
  | 0 => fun _ _ e _ _ => nomatch e
  | d + 1 => framed_node (framed_rep d)

/-! ## Around a key -/

section Around
variable {α : Type} {addr : α → ℕ} {g : α → Multiset ℕ} {rep : Heap → α → Prop} {leaf : Bool} {h h' : Heap}
    {w : Around α} {a : ℕ}

/-- The two levels of a node that is no leaf. -/
abbrev InnerAt (leaf : Bool) (addr : α → ℕ) (rep : Heap → α → Prop) (h : Heap) (x : TreeNode (TreeNode α)) : Prop :=
  NodeAt false TreeNode.addr (NodeAt leaf addr rep) h x

/-- The nodes around a key are different ones, and none of them is further down. -/
structure Apart (g : α → Multiset ℕ) (w : Around α) (a : ℕ) : Prop where
  xy : a ≠ w.y.addr
  xz : a ≠ w.z.addr
  yz : w.y.addr ≠ w.z.addr
  rest : ∀ c, c ∈ w.kidsLeft ∨ c ∈ w.kidsRight → ∀ b ∈ c.addrs g, b ∉ ({a, w.y.addr, w.z.addr} : Set ℕ)
  kids : ∀ c, c ∈ w.y.kids ∨ c ∈ w.z.kids → ∀ b ∈ g c, b ∉ ({a, w.y.addr, w.z.addr} : Set ℕ)

theorem apart_of_nodup {e : ℕ} (hnd : ((w.put a e w.y w.z).addrs (TreeNode.addrs g)).Nodup) : Apart g w a := by
  rw [Around.put, addrs_key, Multiset.nodup_add] at hnd
  obtain ⟨hout, hin, hdis⟩ := hnd
  have hy : w.y.addr ∈ w.y.addrs g := mem_addrs.mpr (Or.inl rfl)
  have hz : w.z.addr ∈ w.z.addrs g := mem_addrs.mpr (Or.inl rfl)
  obtain ⟨hny, hnz, hyz⟩ := Multiset.nodup_add.mp hin
  rw [add_assoc, Multiset.nodup_add] at hout
  obtain ⟨-, -, ha⟩ := hout
  have hout : ∀ b, b ∈ w.y.addrs g ∨ b ∈ w.z.addrs g → b ≠ a := fun b hb heq =>
    Multiset.disjoint_left.mp hdis (by simp [heq]) (Multiset.mem_add.mpr hb)
  have hside : ∀ c, c ∈ w.kidsLeft ∨ c ∈ w.kidsRight → ∀ b ∈ c.addrs g,
      b ∈ (w.kidsLeft.map (TreeNode.addrs g)).sum + (w.kidsRight.map (TreeNode.addrs g)).sum := fun c hc b hb => by
    rw [Multiset.mem_add, mem_kids, mem_kids]
    exact hc.imp (fun hc => ⟨c, hc, hb⟩) fun hc => ⟨c, hc, hb⟩
  refine ⟨fun heq => hout _ (Or.inl hy) heq.symm, fun heq => hout _ (Or.inr hz) heq.symm,
    fun heq => Multiset.disjoint_left.mp hyz hy (heq ▸ hz), fun c hc b hb hmem => ?_, fun c hc b hb hmem => ?_⟩
  · have hb := hside c hc b hb
    have hin : b ∉ w.y.addrs g + w.z.addrs g :=
      Multiset.disjoint_left.mp hdis (by rw [add_assoc]; exact Multiset.mem_add.mpr (Or.inr hb))
    rcases hmem with rfl | rfl | hbz
    · exact Multiset.disjoint_left.mp ha (Multiset.mem_singleton_self _) hb
    · exact hin (Multiset.mem_add.mpr (Or.inl hy))
    · exact hin (Multiset.mem_add.mpr (Or.inr (Set.mem_singleton_iff.mp hbz ▸ hz)))
  · have hby : c ∈ w.y.kids → b ∈ w.y.addrs g := fun hc => mem_addrs.mpr (Or.inr ⟨c, hc, hb⟩)
    have hbz : c ∈ w.z.kids → b ∈ w.z.addrs g := fun hc => mem_addrs.mpr (Or.inr ⟨c, hc, hb⟩)
    rcases hmem with rfl | rfl | hmem
    · exact hout b (hc.imp hby hbz) rfl
    · rcases hc with hc | hc
      · exact addr_apart hny hc hb
      · exact Multiset.disjoint_left.mp hyz hy (hbz hc)
    · rw [Set.mem_singleton_iff] at hmem
      subst hmem
      rcases hc with hc | hc
      · exact Multiset.disjoint_left.mp hyz (hby hc) hz
      · exact addr_apart hnz hc hb

theorem Apart.frame (hap : Apart g w a) (hF : Framed g rep) {e : ℕ} (hat : InnerAt leaf addr rep h (w.put a e w.y w.z))
    (honly : Only {a, w.y.addr, w.z.addr} h h') :
    (∀ c, c ∈ w.kidsLeft ∨ c ∈ w.kidsRight → NodeAt leaf addr rep h' c) ∧ ∀ c, c ∈ w.y.kids ∨ c ∈ w.z.kids →
    rep h' c := by
  have hkids := hat.kids
  refine ⟨fun c hc => framed_node hF _ _ c (hkids c ?_) fun b hb => honly.nodes b (hap.rest c hc b hb),
    fun c hc => hF _ _ c ?_ fun b hb => honly.nodes b (hap.kids c hc b hb)⟩
  · simp only [Around.put, List.mem_append, List.mem_cons]
    tauto
  · rcases hc with hc | hc
    · exact (hkids w.y (by simp [Around.put])).kids c hc
    · exact (hkids w.z (by simp [Around.put])).kids c hc

end Around

/-! ## Reading a node -/

section Read
variable {t nbits N : ℕ} {supply : ℕ → ℕ} {strict : Bool} {h : Heap} {x c e k s : ℕ} {leaf : Bool}
    {ks l r cs L R : List ℕ}

theorem n_does (hx : (h.nodes x).Holds leaf ks cs) :
    Does N h ((heapOps t nbits supply strict).n x) (.ok (ks.length : ℤ)) h :=
  Does.of_eval fun m => by rw [eval_n, hx.count]

theorem leaf_does (hx : (h.nodes x).Holds leaf ks cs) : Does N h ((heapOps t nbits supply strict).leaf x) (.ok leaf) h :=
  Does.of_eval fun m => by rw [eval_leaf, hx.kind]

theorem t_does : Does N h (heapOps t nbits supply strict).t (.ok (t : ℤ)) h := Does.of_eval fun _ => rfl

variable (nbits supply strict) in
theorem key_does (hx : (h.nodes x).Holds leaf (l ++ e :: r) cs) (hle : (l ++ e :: r).length ≤ 2 * t - 1) :
    Does N h ((heapOps t nbits supply strict).key x l.length) (.ok e) h := by
  have hn := hx.count
  rw [List.length_append, List.length_cons] at hn hle
  refine Does.of_eval fun m => ?_
  rw [eval_key (by omega) (by omega) (by omega), Int.toNat_natCast, hx.keySlots.get]

variable (nbits supply strict) in
theorem node_does (hx : (h.nodes x).Holds leaf ks (L ++ c :: R)) (hL : L.length ≤ ks.length)
    (hle : ks.length ≤ 2 * t - 1)
    (ht : 1 ≤ t) : Does N h ((heapOps t nbits supply strict).node x L.length) (.ok c) h := by
  have hn := hx.count
  refine Does.of_eval fun m => ?_
  rw [eval_node (by omega) (by omega) (by omega), Int.toNat_natCast, hx.kidSlots.get]

variable (supply strict) in
theorem readable_heap (hx : (h.nodes x).Holds leaf ks cs) (hle : ks.length ≤ 2 * t - 1) (hN : 2 * t - 1 ≤ N)
    (hsmall : 2 * t - 1 < 2 ^ 14) :
    Readable (heapReads N h) (heapOps t (nbitsOf (2 * t - 1)) supply strict) x ks (nbitsOf (2 * t - 1)) := by
  refine ⟨n_does hx, Does.of_eval fun _ => rfl, fun i hi => ?_, fun a ha hlt m hm hlen => ?_⟩
  · obtain ⟨l, r, hks, hl⟩ : ∃ l r, ks = l ++ ks[i] :: r ∧ l.length = i :=
      ⟨ks.take i, ks.drop (i + 1), (split_middle (List.getElem?_eq_getElem hi)).1, by rw [List.length_take]; omega⟩
    rw [hks] at hx hle
    have hkey := key_does (nbitsOf (2 * t - 1)) supply strict (N := N) hx hle
    rw [hl] at hkey
    exact hkey
  · obtain ⟨j, hj, hbits⟩ := nbitsOf_spec (show 0 < 2 * t - 1 by omega) (by omega)
    have hroom : a < 2 ^ nbitsOf (2 * t - 1) := by omega
    obtain ⟨hval, hm', halloc⟩ := hm.log2 hj ha hroom (by omega)
    refine ⟨_, hm', halloc.trans (if_neg (by omega)), ?_⟩
    change (Except.ok (m.log2 a (nbitsOf (2 * t - 1))).1.toNat, h, _) = _
    rw [hval, Int.toNat_natCast]

variable (supply strict) in
theorem findkindex_does (hx : (h.nodes x).Holds leaf ks cs) (hle : ks.length ≤ 2 * t - 1) (hN : 2 * t - 1 ≤ N)
    (hsmall : 2 * t - 1 < 2 ^ 14) (cmp : ℕ → ℕ → ℤ) (k : ℕ) :
    Does N h (findkindex (heapOps t (nbitsOf (2 * t - 1)) supply strict) cmp x k) (.ok (kindex cmp k ks)) h :=
  findkindex_kindex (readable_heap _ _ hx hle hN hsmall) cmp k

variable (supply strict leaf) in
theorem deleteIndex_does (hx : (h.nodes x).Holds leaf ks cs) (hle : ks.length ≤ 2 * t - 1) (hN : 2 * t - 1 ≤ N)
    (hsmall : 2 * t - 1 < 2 ^ 14) (cmp : ℕ → ℕ → ℤ) (k s : ℕ) :
    Does N h (deleteIndex (heapOps t (nbitsOf (2 * t - 1)) supply strict) cmp x k s) (.ok (pick cmp k s leaf ks)) h := by
  match s with
  | 0 => exact findkindex_does _ _ hx hle hN hsmall cmp k
  | 1 => exact (n_does hx).bind ((leaf_does hx).bind (Does.pure _))
  | s + 2 => exact (leaf_does hx).bind (Does.pure _)

end Read

/-! ## Case 3 -/

section Prepare
variable {α : Type} {addr : α → ℕ} {g : α → Multiset ℕ} {rep : Heap → α → Prop} {q : α → Prop} {leaf : Bool}
  {t nbits N m j : ℕ} {supply : ℕ → ℕ} {strict : Bool} {h h' : Heap} {x : TreeNode (TreeNode α)} {w : Around α} {a : ℕ}

theorem Apart.put (hap : Apart g w a) (hF : Framed g rep) (hat : InnerAt leaf addr rep h (w.put a w.key w.y w.z))
    (honly : Only {a, w.y.addr, w.z.addr} h h') {e : ℕ} {y z : TreeNode α} (hya : y.addr = w.y.addr)
    (hza : z.addr = w.z.addr)
    (hx : (h'.nodes a).Holds false (w.left ++ e :: w.right) ((w.put a w.key w.y w.z).kids.map TreeNode.addr))
    (hy : (h'.nodes w.y.addr).Holds leaf y.keys (y.kids.map addr))
    (hz : (h'.nodes w.z.addr).Holds leaf z.keys (z.kids.map addr))
    (hkids : ∀ c, c ∈ y.kids ∨ c ∈ z.kids → c ∈ w.y.kids ∨ c ∈ w.z.kids) : InnerAt leaf addr rep h' (w.put a e y z) := by
  obtain ⟨hrest, hbelow⟩ := hap.frame hF hat honly
  have hlive := hat.kids
  refine ⟨hat.live, ?_, fun c hc => ?_⟩
  · simp only [Around.put, List.map_append, List.map_cons, hya, hza] at hx ⊢
    exact hx
  simp only [Around.put, List.mem_append, List.mem_cons] at hc hlive
  rcases hc with hc | rfl | rfl | hc
  · exact hrest c (Or.inl hc)
  · exact ⟨hya ▸ (hlive w.y (by simp)).live, by rw [hya]; exact hy, fun b hb => hbelow b (hkids b (Or.inl hb))⟩
  · exact ⟨hza ▸ (hlive w.z (by simp)).live, by rw [hza]; exact hz, fun b hb => hbelow b (hkids b (Or.inr hb))⟩
  · exact hrest c (Or.inr hc)

theorem Apart.join (hap : Apart g w a) (hF : Framed g rep) (hat : InnerAt leaf addr rep h (w.put a w.key w.y w.z))
    (honly : Only {a, w.y.addr, w.z.addr} h h') {e : ℕ}
    (hx : (h'.nodes a).Holds false (w.left ++ w.right) ((w.kidsLeft ++ w.y :: w.kidsRight).map TreeNode.addr))
    (hy : (h'.nodes w.y.addr).Holds leaf (w.y.keys ++ e :: w.z.keys) (w.y.kids.map addr ++ w.z.kids.map addr)) :
    InnerAt leaf addr rep h' (w.join a (w.y.merge e w.z)) := by
  obtain ⟨hrest, hbelow⟩ := hap.frame hF hat honly
  have hlive := hat.kids
  refine ⟨hat.live, ?_, fun c hc => ?_⟩
  · simp only [Around.join, TreeNode.merge, List.map_append, List.map_cons] at hx ⊢
    exact hx
  simp only [Around.put, List.mem_append, List.mem_cons] at hlive
  simp only [Around.join, List.mem_append, List.mem_cons] at hc
  rcases hc with hc | rfl | hc
  · exact hrest c (Or.inl hc)
  · refine ⟨(hlive w.y (by simp)).live, ?_, fun b hb => hbelow b (List.mem_append.mp hb)⟩
    rw [TreeNode.merge, List.map_append]
    exact hy
  · exact hrest c (Or.inr hc)

theorem InnerAt.around (hat : InnerAt leaf addr rep h x) (hw : around j x = some w) :
    (h.nodes x.addr).Holds false (w.left ++ w.key :: w.right)
      (w.kidsLeft.map TreeNode.addr ++ w.y.addr :: w.z.addr :: w.kidsRight.map TreeNode.addr) ∧
      (h.nodes w.y.addr).Holds leaf w.y.keys (w.y.kids.map addr) ∧
      (h.nodes w.z.addr).Holds leaf w.z.keys (w.z.kids.map addr) := by
  obtain ⟨heq, -, -⟩ := around_eq hw
  have hrec := hat.record
  have hkids := hat.kids
  rw [heq] at hrec hkids
  refine ⟨?_, (hkids w.y (by simp [Around.put])).record, (hkids w.z (by simp [Around.put])).record⟩
  simp only [Around.put, List.map_append, List.map_cons] at hrec
  exact hrec

variable (nbits supply strict) in
theorem leftSibling_does (hat : InnerAt leaf addr rep h x) (hx : x.Within t m false (TreeNode.Within t (t - 1) leaf q))
    (ht : 1 ≤ t) (hj : j ≤ x.keys.length) : Does N h (leftSibling (heapOps t nbits supply strict) x.addr j)
      (.ok ((aroundLeft j x).map fun w => (w.y.addr, (w.y.keys.length : ℤ)))) h := by
  rcases Nat.eq_zero_or_pos j with rfl | hj0
  · exact Does.pure _
  obtain ⟨w, hw⟩ := aroundLeft_some hj0 hj hx.branches
  obtain ⟨heq, hl, hL⟩ := around_eq (aroundLeft_eq hw).2
  obtain ⟨hrx, hry, -⟩ := hat.around (aroundLeft_eq hw).2
  have hhigh := hx.high
  have hkeys : x.keys.length = w.left.length + w.right.length + 1 := by
    rw [heq]
    exact put_length ..
  have hidx : ((j : ℤ) - 1) = ((w.kidsLeft.map TreeNode.addr).length : ℕ) := by
    rw [List.length_map]
    omega
  rw [hw, leftSibling, if_pos (by exact_mod_cast hj0), hidx]
  refine (node_does _ _ _ hrx ?_ ?_ ht).bind ((n_does hry).bind (Does.pure _))
  · rw [List.length_map, List.length_append]
    omega
  · rw [List.length_append, List.length_cons]
    omega

variable (nbits supply strict) in
theorem rightSibling_does (hat : InnerAt leaf addr rep h x) (hx : x.Within t m false (TreeNode.Within t (t - 1) leaf q))
    (ht : 1 ≤ t) : Does N h (rightSibling (heapOps t nbits supply strict) x.addr j)
      (.ok ((around j x).map fun w => (w.z.addr, (w.z.keys.length : ℤ)))) h := by
  refine (n_does hat.record).bind ?_
  by_cases hj : j < x.keys.length
  · obtain ⟨w, hw⟩ := around_some hj hx.branches
    obtain ⟨heq, hl, hL⟩ := around_eq hw
    obtain ⟨hrx, -, hrz⟩ := hat.around hw
    have hhigh := hx.high
    have hkeys : x.keys.length = w.left.length + w.right.length + 1 := by
      rw [heq]
      exact put_length ..
    have hidx : ((j : ℤ) + 1) = ((w.kidsLeft.map TreeNode.addr ++ [w.y.addr]).length : ℕ) := by
      rw [List.length_append, List.length_map, List.length_singleton]
      omega
    rw [List.append_cons (w.kidsLeft.map TreeNode.addr)] at hrx
    rw [hw, if_pos (by exact_mod_cast hj), hidx]
    refine (node_does _ _ _ hrx ?_ ?_ ht).bind ((n_does hrz).bind (Does.pure _))
    · rw [List.length_append, List.length_append, List.length_map, List.length_singleton, List.length_cons]
      omega
    · rw [List.length_append, List.length_cons]
      omega
  · rw [around_none (by omega), if_neg (by omega)]
    exact Does.pure _

variable (nbits supply strict) in
theorem merge_does (ht : 1 ≤ t) (hsmall : 2 * t - 1 < 2 ^ 14) (hF : Framed g rep) (hat : InnerAt leaf addr rep h x)
    (hnd : (x.addrs (TreeNode.addrs g)).Nodup) (hx : x.Within t m false (TreeNode.Within t (t - 1) leaf q))
    (hw : around j x = some w) (hy : w.y.keys.length = t - 1) (hz : w.z.keys.length = t - 1) (e : ℕ) :
    ∃ h₁ h₂, Does N h (absorb (heapOps t nbits supply strict) w.y.addr w.z.addr e) (.ok ()) h₁ ∧
      Does N h₁ (dropKey (heapOps t nbits supply strict) x.addr j) (.ok ()) h₂ ∧
      InnerAt leaf addr rep h₂ (w.join x.addr (w.y.merge e w.z)) ∧ Only {x.addr, w.y.addr, w.z.addr} h h₂ := by
  obtain ⟨heq, hl, hL⟩ := around_eq hw
  have hfits := around_fits hx hw
  obtain ⟨hrx, hry, hrz⟩ := hat.around hw
  have hhigh := hx.high
  have hkeys : x.keys.length = w.left.length + w.right.length + 1 := by
    rw [heq]
    exact put_length ..
  have hapart : Apart g w x.addr := apart_of_nodup (e := w.key) (heq ▸ hnd)
  have hby : (w.y.kids.map addr).length = if leaf then 0 else w.y.keys.length + 1 := by
    rw [List.length_map]
    exact hfits.y.branches
  have hbz : (w.z.kids.map addr).length = if leaf then 0 else w.z.keys.length + 1 := by
    rw [List.length_map]
    exact hfits.z.branches
  obtain ⟨h₁, habs, hy₁, honly₁⟩ := absorb_does nbits supply strict (N := N) (t := t)
    hapart.yz hsmall hry hrz hby hbz (by omega) e
  have hrx₁ : (h₁.nodes x.addr).Holds false (w.left ++ w.key :: w.right)
      (w.kidsLeft.map TreeNode.addr ++ w.y.addr :: w.z.addr :: w.kidsRight.map TreeNode.addr) := by
    rw [honly₁.nodes x.addr hapart.xy]
    exact hrx
  obtain ⟨h₂, hdrop, hx₂, honly₂⟩ := dropKey_does nbits supply strict (N := N) (t := t)
    hsmall hrx₁ (by rw [List.length_map, hfits.lefts]) (by rw [List.length_map, hfits.rights])
    (by rw [List.length_append, List.length_cons]; omega)
  rw [hl] at hdrop
  have honly : Only {x.addr, w.y.addr, w.z.addr} h h₂ :=
    (honly₁.mono (by simp)).trans (honly₂.mono (by simp))
  refine ⟨h₁, h₂, habs, hdrop, hapart.join hF (heq ▸ hat) honly ?_ ?_, honly⟩
  · rw [List.map_append, List.map_cons]
    exact hx₂
  · rw [honly₂.nodes w.y.addr hapart.xy.symm]
    exact hy₁

variable (nbits supply strict) in
theorem takeFromLeft_sim (ht : 2 ≤ t) (hsmall : 2 * t - 1 < 2 ^ 14) (hF : Framed g rep) (hat : InnerAt leaf addr rep h x)
    (hnd : (x.addrs (TreeNode.addrs g)).Nodup) (hx : x.Within t m false (TreeNode.Within t (t - 1) leaf q))
    (hw : aroundLeft j x = some w) (hy : t ≤ w.y.keys.length) (hz : w.z.keys.length = t - 1) :
    ∃ h', Does N h (takeFromLeft (heapOps t nbits supply strict) x.addr w.z.addr w.y.addr j) (.ok ()) h' ∧
      InnerAt leaf addr rep h' (w.fromLeft x.addr) ∧ Only {x.addr, w.y.addr, w.z.addr} h h' := by
  obtain ⟨hj, hw⟩ := aroundLeft_eq hw
  obtain ⟨heq, hl, hL⟩ := around_eq hw
  have hfits := around_fits hx hw
  obtain ⟨hrx, hry, hrz⟩ := hat.around hw
  have hhigh := hx.high
  have hhighy := hfits.y.high
  have hkeys : x.keys.length = w.left.length + w.right.length + 1 := by
    rw [heq]
    exact put_length ..
  have hapart : Apart g w x.addr := apart_of_nodup (e := w.key) (heq ▸ hnd)
  have hne : w.y.keys ≠ [] := List.ne_nil_of_length_pos (by omega)
  obtain ⟨ks, k₀, hks⟩ : ∃ ks k₀, w.y.keys = ks ++ [k₀] := ⟨_, _, (List.dropLast_append_getLast hne).symm⟩
  have hlen : w.y.keys.length = ks.length + 1 := by rw [hks, List.length_append, List.length_singleton]
  have hby : (w.y.kids.map addr).length = if leaf then 0 else ks.length + 2 := by
    rw [List.length_map, show w.y.kids.length = _ from hfits.y.branches, hlen]
  have hbz : (w.z.kids.map addr).length = if leaf then 0 else w.z.keys.length + 1 := by
    rw [List.length_map]
    exact hfits.z.branches
  rw [hks] at hry
  obtain ⟨h', hdoes, hx', hy', hz', honly⟩ := takeFromLeft_does nbits supply strict (N := N) (t := t) (i := j)
    (by omega) hapart.xy hapart.xz hapart.yz hsmall hrx hry hrz hby hbz
    (by rw [List.length_append, List.length_cons]; omega) (by omega) (by omega)
  refine ⟨h', hdoes, hapart.put hF (heq ▸ hat) honly rfl rfl ?_ ?_ ?_ fun c hc => ?_, honly⟩
  · simp only [Around.put, List.map_append, List.map_cons]
    rw [hks, List.getLastD_concat]
    exact hx'
  · dsimp only
    rw [hks, List.dropLast_concat, List.map_dropLast]
    exact hy'
  · dsimp only
    rw [List.map_append, ← Option.toList_map, ← List.getLast?_map]
    exact hz'
  · dsimp only at hc
    rcases hc with hc | hc
    · exact Or.inl (List.mem_of_mem_dropLast hc)
    · rcases List.mem_append.mp hc with hc | hc
      · exact Or.inl (List.mem_of_getLast? (Option.mem_toList.mp hc))
      · exact Or.inr hc

variable (nbits supply strict) in
theorem takeFromRight_sim (ht : 2 ≤ t) (hsmall : 2 * t - 1 < 2 ^ 14) (hF : Framed g rep)
    (hat : InnerAt leaf addr rep h x)
    (hnd : (x.addrs (TreeNode.addrs g)).Nodup) (hx : x.Within t m false (TreeNode.Within t (t - 1) leaf q))
    (hw : around j x = some w) (hy : w.y.keys.length = t - 1) (hz : t ≤ w.z.keys.length) :
    ∃ h', Does N h (takeFromRight (heapOps t nbits supply strict) x.addr w.y.addr w.z.addr j) (.ok ()) h' ∧
      InnerAt leaf addr rep h' (w.fromRight x.addr) ∧ Only {x.addr, w.y.addr, w.z.addr} h h' := by
  obtain ⟨heq, hl, hL⟩ := around_eq hw
  have hfits := around_fits hx hw
  obtain ⟨hrx, hry, hrz⟩ := hat.around hw
  have hhigh := hx.high
  have hhighz := hfits.z.high
  have hkeys : x.keys.length = w.left.length + w.right.length + 1 := by
    rw [heq]
    exact put_length ..
  have hapart : Apart g w x.addr := apart_of_nodup (e := w.key) (heq ▸ hnd)
  obtain ⟨k₀, ks, hks⟩ := List.exists_cons_of_length_pos (show 0 < w.z.keys.length by omega)
  have hlen : w.z.keys.length = ks.length + 1 := by rw [hks, List.length_cons]
  have hby : (w.y.kids.map addr).length = if leaf then 0 else w.y.keys.length + 1 := by
    rw [List.length_map]
    exact hfits.y.branches
  have hbz : (w.z.kids.map addr).length = if leaf then 0 else ks.length + 2 := by
    rw [List.length_map, show w.z.kids.length = _ from hfits.z.branches, hlen]
  rw [hks] at hrz
  obtain ⟨h', hdoes, hx', hy', hz', honly⟩ := takeFromRight_does nbits supply strict (N := N) (t := t) hapart.xy
    hapart.xz hapart.yz hsmall hrx hry hrz hby hbz
    (by rw [List.length_append, List.length_cons]; omega) (by omega) (by omega)
  rw [hl] at hdoes
  refine ⟨h', hdoes, hapart.put hF (heq ▸ hat) honly rfl rfl ?_ ?_ ?_ fun c hc => ?_, honly⟩
  · simp only [Around.put, List.map_append, List.map_cons]
    rw [hks]
    exact hx'
  · dsimp only
    rw [List.map_append, List.map_take]
    exact hy'
  · dsimp only
    rw [hks, List.map_drop]
    exact hz'
  · dsimp only at hc
    rcases hc with hc | hc
    · exact (List.mem_append.mp hc).imp id List.mem_of_mem_take
    · exact Or.inr (List.mem_of_mem_drop hc)

variable (nbits supply strict) in
theorem child_does (ht : 1 ≤ t) (hat : InnerAt leaf addr rep h x)
    (hx : x.Within t m false (TreeNode.Within t (t - 1) leaf q)) {c : TreeNode α} (hc : x.kids[j]? = some c) :
    Does N h ((heapOps t nbits supply strict).node x.addr j) (.ok c.addr) h ∧
      Does N h ((heapOps t nbits supply strict).n c.addr) (.ok (c.keys.length : ℤ)) h := by
  obtain ⟨hkids, hL⟩ := split_middle hc
  have hrec := hat.record
  have hhigh := hx.high
  have hb : x.kids.length = x.keys.length + 1 := hx.branches
  have hj : j < x.kids.length := (List.getElem?_eq_some_iff.mp hc).1
  rw [hkids, List.map_append, List.map_cons] at hrec
  have hnode := node_does nbits supply strict (N := N) (t := t) hrec
    (by rw [List.length_map]; omega) hhigh ht
  rw [List.length_map, hL] at hnode
  exact ⟨hnode, n_does (hat.kids c (List.mem_of_getElem? hc)).record⟩

theorem around_mem (hw : around j x = some w) :
    ({x.addr, w.y.addr, w.z.addr} : Set ℕ) ⊆ {b | b ∈ x.addrs (TreeNode.addrs g)} := by
  obtain ⟨heq, -, -⟩ := around_eq hw
  have hy : w.y ∈ x.kids := by
    rw [heq]
    simp [Around.put]
  have hz : w.z ∈ x.kids := by
    rw [heq]
    simp [Around.put]
  rintro b (rfl | rfl | rfl)
  · exact mem_addrs.mpr (Or.inl rfl)
  · exact mem_addrs.mpr (Or.inr ⟨w.y, hy, mem_addrs.mpr (Or.inl rfl)⟩)
  · exact mem_addrs.mpr (Or.inr ⟨w.z, hz, mem_addrs.mpr (Or.inl rfl)⟩)

theorem second_kid {e : ℕ} {y z : TreeNode α} (hj : 0 < j) (hL : w.kidsLeft.length = j - 1) :
    (w.put a e y z).kids[j]? = some z := by
  have hlen : (w.kidsLeft ++ [y]).length = j := by
    rw [List.length_append, List.length_singleton, hL]
    omega
  simp only [Around.put]
  rw [List.append_cons]
  exact getElem?_middle hlen

theorem no_spare {o : Option (Around α)} {f : Around α → ℕ × ℤ} {n : ℤ} (h : ∀ v, o = some v → (f v).2 < n) :
    (o.map f).filter (fun y => decide (y.2 ≥ n)) = none := by
  cases o with
  | none => rfl
  | some v =>
    have hlt := h v rfl
    simp only [Option.map_some, Option.filter, ge_iff_le, decide_eq_true_eq, if_neg (not_le.mpr hlt)]

theorem middle_does (hat : InnerAt leaf addr rep h x) (hx : x.Within t m false (TreeNode.Within t (t - 1) leaf q))
    (hw : around j x = some w) : Does N h ((heapOps t nbits supply strict).key x.addr j) (.ok w.key) h := by
  obtain ⟨heq, hl, -⟩ := around_eq hw
  have hhigh := hx.high
  rw [heq] at hhigh
  rw [← hl]
  exact key_does _ _ _ (hat.around hw).1 hhigh

variable (nbits supply strict) in
theorem prepareChild_does (ht : 2 ≤ t) (hsmall : 2 * t - 1 < 2 ^ 14) (hF : Framed g rep)
    (hat : InnerAt leaf addr rep h x)
    (hnd : (x.addrs (TreeNode.addrs g)).Nodup) (hx : x.Within t m false (TreeNode.Within t (t - 1) leaf q))
    (hne : x.keys ≠ []) (hj : j ≤ x.keys.length) : ∃ h' c, (prepare t j x).1.kids[(prepare t j x).2]? = some c ∧
      Does N h (prepareChild (heapOps t nbits supply strict) x.addr j) (.ok c.addr) h' ∧
      InnerAt leaf addr rep h' (prepare t j x).1 ∧ Only {b | b ∈ x.addrs (TreeNode.addrs g)} h h' := by
  have hleft := leftSibling_does nbits supply strict (N := N) hat hx (by omega) hj
  have hright := rightSibling_does nbits supply strict (N := N) (j := j) hat hx (by omega)
  have hcase := prepare_cases hx hne hj
  generalize prepare t j x = res at hcase ⊢
  cases hcase with
  | @enough c hc h =>
    obtain ⟨hnode, hn⟩ := child_does nbits supply strict (N := N) (by omega) hat hx hc
    refine ⟨_, c, hc, hnode.bind (t_does.bind (hn.bind ?_)), hat, Only.refl _ _⟩
    rw [if_neg (by omega)]
    exact Does.pure _
  | @fromLeft w hw hz hy =>
    obtain ⟨hnode, hn⟩ := child_does nbits supply strict (N := N) (by omega) hat hx
      (aroundLeft_z hw)
    obtain ⟨h', hdoes, hat', honly⟩ := takeFromLeft_sim nbits supply strict (N := N) ht
      hsmall hF hat hnd hx hw hy hz
    refine ⟨h', _, second_kid (aroundLeft_eq hw).1 (around_eq (aroundLeft_eq hw).2).2.2,
      hnode.bind (t_does.bind (hn.bind ?_)), hat', honly.mono (around_mem (aroundLeft_eq hw).2)⟩
    rw [if_pos (by omega)]
    refine hleft.bind ?_
    simp only [hw, Option.map_some, Option.filter, ge_iff_le, Nat.cast_le, hy, decide_true, if_true]
    exact hdoes.bind (Does.pure _)
  | @fromRight w hl hw hy hz =>
    obtain ⟨hnode, hn⟩ := child_does nbits supply strict (N := N) (by omega) hat hx
      (around_y hw)
    obtain ⟨h', hdoes, hat', honly⟩ := takeFromRight_sim nbits supply strict (N := N) ht
      hsmall hF hat hnd hx hw hy hz
    refine ⟨h', _, getElem?_middle (around_eq hw).2.2, hnode.bind (t_does.bind (hn.bind ?_)), hat',
      honly.mono (around_mem hw)⟩
    rw [if_pos (by omega)]
    refine hleft.bind ?_
    rw [no_spare fun v hv => by have := hl v hv; dsimp only; omega]
    refine hright.bind ?_
    simp only [hw, Option.map_some, Option.filter, ge_iff_le, Nat.cast_le, hz, decide_true, if_true]
    exact hdoes.bind (Does.pure _)
  | @mergeLeft w hw hz hy hr =>
    obtain ⟨hnode, hn⟩ := child_does nbits supply strict (N := N) (by omega) hat hx
      (aroundLeft_z hw)
    obtain ⟨hj0, hw'⟩ := aroundLeft_eq hw
    obtain ⟨h₁, h₂, habs, hdrop, hat', honly⟩ := merge_does nbits supply strict (N := N)
      (by omega) hsmall hF hat hnd hx hw' hy hz w.key
    refine ⟨h₂, _, getElem?_middle (around_eq hw').2.2, hnode.bind (t_does.bind (hn.bind ?_)), hat',
      honly.mono (around_mem hw')⟩
    rw [if_pos (by omega)]
    refine hleft.bind ?_
    rw [no_spare fun v hv => ?_]
    · refine hright.bind ?_
      rw [no_spare fun v hv => ?_]
      · have hsome : (↑w.y.keys.length : ℤ) = ↑t - 1 := by omega
        simp only [hw, Option.map_some, Option.filter, hsome, decide_true, if_true]
        refine Does.via () h₂ ?_ (Does.pure _)
        have hidx : (j : ℤ) - 1 = (j - 1 : ℕ) := by omega
        rw [mergeLeft, hidx]
        exact (middle_does hat hx hw').bind (habs.bind (hdrop.bind (Does.of_eval fun _ => rfl)))
      · have := hr v hv
        dsimp only
        omega
    · obtain rfl := Option.some.inj (hw.symm.trans hv)
      dsimp only
      omega
  | @mergeRight w hl hw hy hz =>
    obtain ⟨hnode, hn⟩ := child_does nbits supply strict (N := N) (by omega) hat hx
      (around_y hw)
    obtain ⟨h₁, h₂, habs, hdrop, hat', honly⟩ := merge_does nbits supply strict (N := N)
      (by omega) hsmall hF hat hnd hx hw hy hz w.key
    refine ⟨h₂, _, getElem?_middle (around_eq hw).2.2, hnode.bind (t_does.bind (hn.bind ?_)), hat',
      honly.mono (around_mem hw)⟩
    rw [if_pos (by omega)]
    refine hleft.bind ?_
    rw [hl]
    refine hright.bind ?_
    rw [no_spare fun v hv => ?_]
    · have hsome : (↑w.z.keys.length : ℤ) = ↑t - 1 := by omega
      simp only [hw, Option.map_some, Option.map_none, Option.filter, hsome, decide_true, if_true]
      refine Does.via () h₂ ?_ (Does.pure _)
      rw [mergeRight]
      exact (middle_does hat hx hw).bind (habs.bind (hdrop.bind (Does.of_eval fun _ => rfl)))
    · obtain rfl := Option.some.inj (hw.symm.trans hv)
      dsimp only
      omega

end Prepare

end PmemExamples.BTree
