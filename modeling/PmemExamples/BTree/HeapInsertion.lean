import PmemExamples.BTree.Simulation

/-! # Insertion in the heap

`btreeinsertnonfull` does on the heap what `insertNonfull` does on the tree, at the addresses of the tree and at new
ones. -/

namespace PmemExamples.BTree
set_option autoImplicit false

/-- What the nodes will be that are still to be allocated. -/
structure Supply (supply : ℕ → ℕ) : Prop where
  inj : Function.Injective supply
  live : ∀ i, supply i ≠ 0

theorem supply_succ : Supply (· + 1) := ⟨fun _ _ h => Nat.succ_injective h, fun i => Nat.succ_ne_zero i⟩

/-- None of them is there yet. -/
def Fresh (supply : ℕ → ℕ) (c : ℕ) (S : Multiset ℕ) : Prop := ∀ i, c ≤ i → supply i ∉ S

section Insert
variable {α : Type} {addr : α → ℕ} {g : α → Multiset ℕ} {rep : Heap → α → Prop} {q : α → Prop} {leaf : Bool}
  {t N m k fuel : ℕ} {supply : ℕ → ℕ} {strict : Bool} {cmp : ℕ → ℕ → ℤ} {h : Heap}

/-- How a call ends for the node `x`, where `res` is what comes out on the tree. -/
structure Inserts (N : ℕ) (leaf : Bool) (addr : α → ℕ) (rep : Heap → α → Prop) (g : α → Multiset ℕ) (supply : ℕ → ℕ)
    (h : Heap) (act : HeapM Unit) (x : TreeNode α) (res : TreeNode α × ℕ) (h' : Heap) : Prop where
  does : Does N h act (.ok ()) h'
  holds : NodeAt leaf addr rep h' res.1
  addr_eq : res.1.addr = x.addr
  same : ∀ a, a ∉ x.addrs g → (∀ i, h.next ≤ i → supply i ≠ a) → h'.nodes a = h.nodes a
  root : h'.root = h.root
  next : h'.next = res.2

theorem btreeinsertnonfull_leaf (hsmall : 2 * t - 1 < 2 ^ 14) (hN : 2 * t - 1 ≤ N) {x : TreeNode α}
    (hx : x.Within t m true q)
    (hat : NodeAt true addr rep h x) (hroom : x.keys.length < 2 * t - 1) (cmp : ℕ → ℕ → ℤ) (k fuel : ℕ) :
    ∃ h', Inserts N true addr rep g supply h
      (btreeinsertnonfull (heapOps t (nbitsOf (2 * t - 1)) supply strict) cmp k (fuel + 1) x.addr) x
      (insertLeaf cmp k x, h.next) h' := by
  have hrec := hat.record
  have hkids : x.kids = [] := List.length_eq_zero_iff.mp hx.branches
  have hindex := findkindex_does supply strict hrec hx.high hN hsmall cmp k
  obtain ⟨hlow, -, -⟩ := kindex_bounds cmp k x.keys
  have hle := place_le cmp k x.keys
  have hi : (kindex cmp k x.keys).1 + 1 = (x.keys.take (place cmp k x.keys)).length := by
    rw [List.length_take, min_eq_left hle, place]
    omega
  rw [hkids, ← List.take_append_drop (place cmp k x.keys) x.keys] at hrec
  obtain ⟨h', hdoes, hrec', honly⟩ := putKey_does (nbitsOf (2 * t - 1)) supply strict (N := N) (t := t) hi hsmall hrec
    (by rwa [List.take_append_drop]) k
  refine ⟨h', ?_, ⟨hat.live, ?_, ?_⟩, rfl, fun a ha _ => honly.nodes a fun hax => ha ?_, honly.root, honly.next⟩
  · rw [btreeinsertnonfull]
    refine (leaf_does hat.record).bind ?_
    rw [if_pos rfl]
    exact hindex.bind hdoes
  · simp only [insertLeaf, hkids]
    exact hrec'
  · simp [insertLeaf, hkids]
  · rw [Set.mem_singleton_iff.mp hax]
    exact mem_addrs.mpr (Or.inl rfl)

/-! ## Full children -/

section Inner
variable {a : ℕ} {l r : List ℕ} {L R : List (TreeNode α)} {y : TreeNode α}

theorem addrs_splitChild {z : ℕ} :
    TreeNode.addrs (TreeNode.addrs g) ⟨a, l ++ median t y :: r, L ++ lower t y :: upper t z y :: R⟩ =
    TreeNode.addrs (TreeNode.addrs g) ⟨a, l ++ r, L ++ y :: R⟩ + {z} := by
  rw [addrs_key, addrs_kid, addrs_split]
  abel

variable (strict) in
theorem btreesplitchild_sim (ht : 2 ≤ t) (hsmall : 2 * t - 1 < 2 ^ 14) (hF : Framed g rep) (hs : Supply supply)
    (hat : InnerAt leaf addr rep h ⟨a, l ++ r, L ++ y :: R⟩) (hL : L.length = l.length) (hR : R.length = r.length)
    (hroom : (l ++ r).length < 2 * t - 1) (hfull : y.keys.length = 2 * t - 1) (hb : y.Branches leaf)
    (hnd : (TreeNode.addrs (TreeNode.addrs g) ⟨a, l ++ r, L ++ y :: R⟩).Nodup)
    (hfresh : Fresh supply h.next (TreeNode.addrs (TreeNode.addrs g) ⟨a, l ++ r, L ++ y :: R⟩)) :
    ∃ h', Does N h (btreesplitchild (heapOps t (nbitsOf (2 * t - 1)) supply strict) a l.length y.addr) (.ok ()) h' ∧
      InnerAt leaf addr rep h' ⟨a, l ++ median t y :: r, L ++ lower t y :: upper t (supply h.next) y :: R⟩ ∧
      (∀ b, b ≠ a → b ≠ y.addr → b ≠ supply h.next → h'.nodes b = h.nodes b) ∧ h'.root = h.root ∧
      h'.next = h.next + 1 := by
  obtain ⟨hndy, hay, hrest⟩ := kid_apart hnd
  have hymem : y.addr ∈ y.addrs g := mem_addrs.mpr (Or.inl rfl)
  have hyat := hat.kids y (by simp)
  have hz : ∀ b ∈ TreeNode.addrs (TreeNode.addrs g) ⟨a, l ++ r, L ++ y :: R⟩, b ≠ supply h.next := fun b hb heq =>
    hfresh h.next (le_refl _) (heq ▸ hb)
  have hin : ∀ {c}, c ∈ L ++ y :: R → ∀ b ∈ c.addrs g, b ∈ TreeNode.addrs (TreeNode.addrs g) ⟨a, l ++ r, L ++ y :: R⟩ :=
    fun hc b hb => mem_addrs.mpr (Or.inr ⟨_, hc, hb⟩)
  have hay' : a ≠ y.addr := fun heq => hay (heq ▸ hymem)
  have hrec := hat.record
  dsimp only at hrec
  rw [List.map_append, List.map_cons] at hrec
  obtain ⟨h', hdoes, hx', hy', hz', hsame, hroot, hnext⟩ := btreesplitchild_does (nbitsOf (2 * t - 1)) supply strict
    (N := N) (t := t) ht hsmall hay'
    (hz a (mem_addrs.mpr (Or.inl rfl))) (hz y.addr (hin (by simp) _ hymem)) hrec (by rw [List.length_map, hL])
    (by rw [List.length_map, hR]) hroom hyat.record hfull (by rw [List.length_map]; exact hb)
  have hbelow : ∀ c ∈ y.kids, rep h' c := fun c hc => hF _ _ c (hyat.kids c hc) fun b hbc => by
    have hby : b ∈ y.addrs g := mem_addrs.mpr (Or.inr ⟨c, hc, hbc⟩)
    exact hsame b (fun heq => hay (heq ▸ hby)) (fun heq => addr_apart hndy hc (heq ▸ hbc)) (hz b (hin (by simp) b hby))
  have hside : ∀ c, c ∈ L ∨ c ∈ R → NodeAt leaf addr rep h' c := fun c hc => by
    have hmem : c ∈ L ++ y :: R := by
      simp only [List.mem_append, List.mem_cons]
      tauto
    refine framed_node hF _ _ c (hat.kids c hmem) fun b hbc => hsame b (fun heq => ?_) (fun heq => ?_)
      (hz b (hin hmem b hbc))
    · exact addr_apart hnd hmem (heq ▸ hbc)
    · exact hrest c hc b hbc (heq ▸ hymem)
  refine ⟨h', hdoes, ⟨hat.live, ?_, fun c hc => ?_⟩, hsame, hroot, hnext⟩
  · dsimp only
    rw [List.map_append, List.map_cons, List.map_cons]
    exact hx'
  simp only [List.mem_append, List.mem_cons] at hc
  rcases hc with hc | rfl | rfl | hc
  · exact hside c (Or.inl hc)
  · refine ⟨hyat.live, ?_, fun c hc => hbelow c (List.mem_of_mem_take hc)⟩
    simp only [lower, List.map_take]
    exact hy'
  · refine ⟨hs.live _, ?_, fun c hc => hbelow c (List.mem_of_mem_drop hc)⟩
    simp only [upper, List.map_drop]
    exact hz'
  · exact hside c (Or.inr hc)

theorem Inserts.putBack {h₁ h₂ : Heap} {ks : List ℕ} {act whole : HeapM Unit} {res : TreeNode α × ℕ}
    {x : TreeNode (TreeNode α)} (hF : Framed g rep) (hchild : Inserts N leaf addr rep g supply h₁ act y res h₂)
    (hat : InnerAt leaf addr rep h₁ ⟨x.addr, ks, L ++ y :: R⟩)
    (hnd : (TreeNode.addrs (TreeNode.addrs g) ⟨x.addr, ks, L ++ y :: R⟩).Nodup)
    (hfresh : Fresh supply h₁.next (TreeNode.addrs (TreeNode.addrs g) ⟨x.addr, ks, L ++ y :: R⟩))
    (hwhole : ∀ {o h'}, Does N h₁ act o h' → Does N h whole o h') (hle : h.next ≤ h₁.next) (hroot : h₁.root = h.root)
    (hsub : ∀ b ∈ TreeNode.addrs (TreeNode.addrs g) ⟨x.addr, ks, L ++ y :: R⟩,
      b ∈ x.addrs (TreeNode.addrs g) ∨ ∃ i, h.next ≤ i ∧ supply i = b)
    (hsame : ∀ b, b ∉ x.addrs (TreeNode.addrs g) → (∀ i, h.next ≤ i → supply i ≠ b) → h₁.nodes b = h.nodes b) :
    Inserts N false TreeNode.addr (NodeAt leaf addr rep) (TreeNode.addrs g) supply h whole x
      (⟨x.addr, ks, L ++ res.1 :: R⟩, res.2) h₂ := by
  refine ⟨hwhole hchild.does, hat.putBack (framed_node hF) hnd (fun b hb hby => hchild.same b hby fun i hi heq => ?_)
    hchild.holds hchild.addr_eq, rfl, fun b hb hnew => ?_, hchild.root.trans hroot, hchild.next⟩
  · exact hfresh i hi (heq ▸ hb)
  · rw [hchild.same b (fun hby => ?_) fun i hi => hnew i (hle.trans hi), hsame b hb hnew]
    rcases hsub b (mem_addrs.mpr (Or.inr ⟨y, by simp, hby⟩)) with hx | ⟨i, hi, heq⟩
    · exact hb hx
    · exact hnew i hi heq

theorem btreeinsertnonfull_inner (ht : 2 ≤ t) (hsmall : 2 * t - 1 < 2 ^ 14) (hN : 2 * t - 1 ≤ N) (hF : Framed g rep)
    (hs : Supply supply) {x : TreeNode (TreeNode α)} (hx : x.Within t m false (TreeNode.Within t (t - 1) leaf q))
    (hroom : x.keys.length < 2 * t - 1) (hat : InnerAt leaf addr rep h x) (hnd : (x.addrs (TreeNode.addrs g)).Nodup)
    (hfresh : Fresh supply h.next (x.addrs (TreeNode.addrs g))) (ins : ℕ → TreeNode α → TreeNode α × ℕ)
    (hins : ∀ {h : Heap} {y : TreeNode α}, y.Within t (t - 1) leaf q → y.keys.length < 2 * t - 1 →
    NodeAt leaf addr rep h y →
      (y.addrs g).Nodup → Fresh supply h.next (y.addrs g) → ∃ h', Inserts N leaf addr rep g supply h
        (btreeinsertnonfull (heapOps t (nbitsOf (2 * t - 1)) supply strict) cmp k fuel y.addr) y (ins h.next y) h') :
    ∃ h', Inserts N false TreeNode.addr (NodeAt leaf addr rep) (TreeNode.addrs g) supply h
      (btreeinsertnonfull (heapOps t (nbitsOf (2 * t - 1)) supply strict) cmp k (fuel + 1) x.addr) x
      (insertInner t cmp k supply ins h.next x) h' := by
  have hindex := findkindex_does supply strict hat.record hx.high hN hsmall cmp k
  obtain ⟨hlow, -, -⟩ := kindex_bounds cmp k x.keys
  have hle := place_le cmp k x.keys
  obtain ⟨l, r, L, y, R, hx', hl, -, hL, hR, hcase⟩ := insertInner_cases hx ins cmp k supply h.next
  generalize insertInner t cmp k supply ins h.next x = res at hcase
  have hi : (kindex cmp k x.keys).1 + 1 = (l.length : ℕ) := by
    rw [hl, List.length_take, min_eq_left hle, place]
    omega
  have hmem : y ∈ x.kids := by
    rw [hx']
    simp
  have hy := hx.kids y hmem
  have hlen : (l ++ r).length = x.keys.length := by
    conv_rhs => rw [hx']
  have hget : x.kids[l.length]? = some y := by
    rw [hx']
    exact getElem?_middle hL
  obtain ⟨hnode, hn⟩ := child_does (nbitsOf (2 * t - 1)) supply strict (N := N) (by omega)
    hat hx hget
  have hat₀ := hat
  have hnd₀ := hnd
  have hfresh₀ := hfresh
  rw [hx'] at hat₀ hnd₀ hfresh₀
  have hself : ∀ b ∈ TreeNode.addrs (TreeNode.addrs g) ⟨x.addr, l ++ r, L ++ y :: R⟩,
    b ∈ x.addrs (TreeNode.addrs g) := by
    rw [← hx']
    exact fun b hb => hb
  -- down to the call for the child
  have hgo : ∀ {o h'}, Does N h (if (y.keys.length : ℤ) = 2 * t - 1 then do
        btreesplitchild (heapOps t (nbitsOf (2 * t - 1)) supply strict) x.addr l.length y.addr
        let i : ℤ := if cmp k (← (heapOps t (nbitsOf (2 * t - 1)) supply strict).key x.addr l.length) > 0
          then l.length + 1 else l.length
        btreeinsertnonfull (heapOps t (nbitsOf (2 * t - 1)) supply strict) cmp k fuel
          (← (heapOps t (nbitsOf (2 * t - 1)) supply strict).node x.addr i)
      else btreeinsertnonfull (heapOps t (nbitsOf (2 * t - 1)) supply strict) cmp k fuel y.addr) o h' →
      Does N h (btreeinsertnonfull (heapOps t (nbitsOf (2 * t - 1)) supply strict) cmp k (fuel + 1) x.addr) o h' := by
    intro o h' hrest
    have hi' : (kindex cmp k x.keys).1 + 2 = (l.length : ℕ) + 1 := by omega
    rw [btreeinsertnonfull]
    refine (leaf_does hat.record).bind ?_
    rw [if_neg (by decide)]
    refine hindex.bind ?_
    dsimp only
    rw [hi, hi']
    exact hnode.bind (hn.bind (t_does.bind hrest))
  have hyx : ∀ b ∈ y.addrs g, b ∈ x.addrs (TreeNode.addrs g) := fun b hb => mem_addrs.mpr (Or.inr ⟨y, hmem, hb⟩)
  by_cases hfull : y.keys.length = 2 * t - 1
  · obtain ⟨hlo, hup⟩ := within_split (by omega) hy hfull (supply h.next)
    obtain ⟨h₁, hsplit, hat₁, hsame₁, hroot₁, hnext₁⟩ := btreesplitchild_sim strict (N := N) ht hsmall hF hs hat₀ hL
      hR (by omega) hfull hy.branches hnd₀ hfresh₀
    have hadd := addrs_splitChild (g := g) (t := t) (a := x.addr) (l := l) (r := r) (L := L) (R := R) (y := y)
      (z := supply h.next)
    have hnd₁ : (TreeNode.addrs (TreeNode.addrs g)
        ⟨x.addr, l ++ median t y :: r, L ++ lower t y :: upper t (supply h.next) y :: R⟩).Nodup := by
      rw [hadd, Multiset.nodup_add]
      exact ⟨hnd₀, Multiset.nodup_singleton _, Multiset.disjoint_singleton.mpr (hfresh₀ h.next (le_refl _))⟩
    have hfresh₁ : Fresh supply h₁.next (TreeNode.addrs (TreeNode.addrs g)
        ⟨x.addr, l ++ median t y :: r, L ++ lower t y :: upper t (supply h.next) y :: R⟩) := by
      intro i hi hmem
      rw [hadd, Multiset.mem_add, Multiset.mem_singleton] at hmem
      rcases hmem with hmem | heq
      · exact hfresh₀ i (by omega) hmem
      · have := hs.inj heq
        omega
    have hsub : ∀ b ∈ TreeNode.addrs (TreeNode.addrs g)
        ⟨x.addr, l ++ median t y :: r, L ++ lower t y :: upper t (supply h.next) y :: R⟩,
        b ∈ x.addrs (TreeNode.addrs g) ∨ ∃ i, h.next ≤ i ∧ supply i = b := fun b hb => by
      rw [hadd, Multiset.mem_add, Multiset.mem_singleton] at hb
      exact hb.imp (hself b) fun heq => ⟨h.next, le_refl _, heq.symm⟩
    have hsame : ∀ b, b ∉ x.addrs (TreeNode.addrs g) → (∀ i, h.next ≤ i → supply i ≠ b) → h₁.nodes b = h.nodes b :=
      fun b hb hnew => hsame₁ b (fun heq => hb (heq ▸ mem_addrs.mpr (Or.inl rfl)))
        (fun heq => hb (heq ▸ hyx _ (mem_addrs.mpr (Or.inl rfl)))) fun heq => hnew h.next (le_refl _) heq.symm
    have hkey := key_does (nbitsOf (2 * t - 1)) supply strict (N := N) (t := t) hat₁.record
      (by simp only [List.length_append, List.length_cons] at hlen ⊢; omega)
    have hcs : (l ++ median t y :: r).length = x.keys.length + 1 := by
      simp only [List.length_append, List.length_cons] at hlen ⊢
      omega
    have hcl : l.length + 1 ≤ (l ++ median t y :: r).length := by
      rw [List.length_append, List.length_cons]
      omega
    have hrec₁ := hat₁.record
    dsimp only at hrec₁
    rw [List.map_append, List.map_cons, List.map_cons] at hrec₁
    cases hcase with
    | room h => exact absurd hfull h
    | low _ hk =>
      have hchild := node_does (nbitsOf (2 * t - 1)) supply strict (N := N) (t := t) hrec₁
        (by rw [List.length_map]; omega) (by omega) (by omega)
      rw [List.length_map, hL] at hchild
      obtain ⟨h₂, hres⟩ := hins hlo (by rw [lower, List.length_take]; omega) (hat₁.kids (lower t y) (by simp))
        (kid_apart hnd₁).1 fun i hi hmem => hfresh₁ i hi (mem_addrs.mpr (Or.inr ⟨lower t y, by simp, hmem⟩))
      rw [hnext₁] at hres
      refine ⟨h₂, hres.putBack hF hat₁ hnd₁ hfresh₁ (fun hdo => hgo ?_) (by omega) hroot₁ hsub hsame⟩
      rw [if_pos (by omega)]
      refine hsplit.bind (hkey.bind ?_)
      rw [if_neg (by omega)]
      exact hchild.bind hdo
    | high _ hk =>
      have hnext : (l.length : ℤ) + 1 = ((L ++ [lower t y]).map TreeNode.addr).length := by
        rw [List.length_map, List.length_append, List.length_singleton, hL]
        omega
      rw [List.append_cons (L.map TreeNode.addr), ← List.map_singleton, ← List.map_append] at hrec₁
      have hchild := node_does (nbitsOf (2 * t - 1)) supply strict (N := N) (t := t) hrec₁
        (by rw [List.length_map, List.length_append, List.length_singleton]; omega) (by omega) (by omega)
      rw [← hnext] at hchild
      rw [List.append_cons L] at hat₁ hnd₁ hfresh₁ hsub
      obtain ⟨h₂, hres⟩ := hins hup (by rw [upper, List.length_drop]; omega)
        (hat₁.kids (upper t (supply h.next) y) (by simp))
        (kid_apart hnd₁).1 fun i hi hmem => hfresh₁ i hi (mem_addrs.mpr
          (Or.inr ⟨upper t (supply h.next) y, by simp, hmem⟩))
      rw [hnext₁] at hres
      have hback := hres.putBack hF hat₁ hnd₁ hfresh₁ (fun hdo => hgo ?_) (by omega) hroot₁ hsub hsame
      · rw [← List.append_cons] at hback
        exact ⟨h₂, hback⟩
      rw [if_pos (by omega)]
      refine hsplit.bind (hkey.bind ?_)
      rw [if_pos hk]
      exact hchild.bind hdo
  · cases hcase with
    | room _ =>
      obtain ⟨h₂, hres⟩ := hins hy (lt_of_le_of_ne hy.high hfull) (hat.kids y hmem) (kid_apart hnd₀).1 fun i hi hb =>
        hfresh i hi (hyx _ hb)
      refine ⟨h₂, hres.putBack hF hat₀ hnd₀ hfresh₀ (fun hdo => hgo ?_) (le_refl _) rfl (fun b hb => Or.inl (hself b hb))
        fun _ _ _ => rfl⟩
      rw [if_neg (by omega)]
      exact hdo
    | low h _ => exact absurd h hfull
    | high h _ => exact absurd h hfull

end Inner

end Insert

/-! ## All levels -/

theorem btreeinsertnonfull_sim {t N k : ℕ} (supply : ℕ → ℕ) (strict : Bool) (ht : 2 ≤ t) (hsmall : 2 * t - 1 < 2 ^ 14)
    (hN : 2 * t - 1 ≤ N) (hs : Supply supply) (cmp : ℕ → ℕ → ℤ) : ∀ (d m fuel : ℕ) (h : Heap) (x : Tree d), d < fuel →
      x.Within t m (d = 0) (Sized t d) → x.keys.length < 2 * t - 1 → NodeAt (d = 0) (addrOf d) (rep d) h x →
      (addrs (d + 1) x).Nodup → Fresh supply h.next (addrs (d + 1) x) →
      ∃ h', Inserts N (d = 0) (addrOf d) (rep d) (addrs d) supply h
        (btreeinsertnonfull (heapOps t (nbitsOf (2 * t - 1)) supply strict) cmp k fuel x.addr) x
        (insertNonfull t cmp k supply d h.next x) h'
  | 0, _, fuel + 1, _, _, _, hx, hroom, hat, _, _ => btreeinsertnonfull_leaf hsmall hN hx hat hroom cmp k fuel
  | d + 1, _, fuel + 1, _, _, hfuel, hx, hroom, hat, hnd, hfresh =>
    btreeinsertnonfull_inner ht hsmall hN (framed_rep d) hs hx hroom hat hnd hfresh (insertNonfull t cmp k supply d)
      fun hy hroomy hy' hndy hfreshy =>
        btreeinsertnonfull_sim supply strict ht hsmall hN hs cmp d (t - 1) fuel _ _ (by omega) hy hroomy hy' hndy hfreshy

end PmemExamples.BTree
