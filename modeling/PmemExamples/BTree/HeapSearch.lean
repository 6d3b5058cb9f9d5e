import PmemExamples.BTree.Simulation

/-! # Search in the heap -/

namespace PmemExamples.BTree
set_option autoImplicit false

/-- What `bt_find` may return. -/
def Finds (cmp : ℕ → ℕ → ℤ) (k : ℕ) (keys : List ℕ) (e : ℕ) : Prop :=
  e ∈ keys ∧ cmp k e = 0 ∨ e = 0 ∧ ∀ e' ∈ keys, cmp k e' ≠ 0

section Search
variable {α : Type} {t N m k fuel : ℕ} {supply : ℕ → ℕ} {strict leaf : Bool} {cmp : ℕ → ℕ → ℤ} {h : Heap} {a : ℕ}
    {ks cs : List ℕ}

theorem findnodekey_hit (hsmall : 2 * t - 1 < 2 ^ 14) (hN : 2 * t - 1 ≤ N) (ha : a ≠ 0)
    (hrec : (h.nodes a).Holds leaf ks cs) (hle : ks.length ≤ 2 * t - 1) (hr : (kindex cmp k ks).2 = some 0) (fuel : ℕ) :
    ∃ e, Does N h (findnodekey (heapOps t (nbitsOf (2 * t - 1)) supply strict) cmp k (fuel + 1) a) (.ok e) h ∧ e ∈ ks ∧
      (Comparison cmp → Ascending cmp ks → cmp k e = 0) := by
  have hread := readable_heap supply strict (N := N) hrec hle hN hsmall
  obtain ⟨-, hhigh, hpos⟩ := kindex_bounds cmp k ks
  have hne : ks ≠ [] := by
    rintro rfl
    cases hr
  obtain ⟨r, hr', h0⟩ := hpos hne
  obtain rfl : r = 0 := Option.some.inj (hr'.symm.trans hr)
  have hi := h0 rfl
  have hlt : (kindex cmp k ks).1.toNat < ks.length := by omega
  refine ⟨ks[(kindex cmp k ks).1.toNat], ?_, List.getElem_mem hlt, fun hcmp hs => ?_⟩
  · rw [findnodekey, if_neg ha]
    refine (findkindex_does _ _ hrec hle hN hsmall cmp k).bind ?_
    dsimp only
    rw [if_pos ⟨hi, hr⟩]
    have hkey := hread.key _ hlt
    rw [Int.toNat_of_nonneg hi] at hkey
    exact hkey
  · obtain ⟨l, e, r, rfl, hidx, hzero⟩ := kindex_hit hcmp hs hr
    have hget : (kindex cmp k (l ++ e :: r)).1.toNat = l.length := by omega
    simp only [hget]
    simpa using hzero

theorem findnodekey_miss (hsmall : 2 * t - 1 < 2 ^ 14) (hN : 2 * t - 1 ≤ N) (ha : a ≠ 0)
    (hrec : (h.nodes a).Holds leaf ks cs)
    (hle : ks.length ≤ 2 * t - 1) (hr : (kindex cmp k ks).2 ≠ some 0) {o : Except Fault ℕ}
    (hgo : Does N h (if leaf then pure 0 else do
      findnodekey (heapOps t (nbitsOf (2 * t - 1)) supply strict) cmp k fuel
        (← (heapOps t (nbitsOf (2 * t - 1)) supply strict).node a (place cmp k ks))) o h) :
    Does N h (findnodekey (heapOps t (nbitsOf (2 * t - 1)) supply strict) cmp k (fuel + 1) a) o h := by
  have hlow := (kindex_bounds cmp k ks).1
  have hplace : (kindex cmp k ks).1 + 1 = (place cmp k ks : ℕ) := by
    rw [place]
    omega
  rw [findnodekey, if_neg ha]
  refine (findkindex_does _ _ hrec hle hN hsmall cmp k).bind ?_
  dsimp only
  rw [if_neg fun hboth => hr hboth.2, hplace]
  refine (leaf_does hrec).bind ?_
  cases leaf with
  | true => exact hgo
  | false => exact hgo

end Search

section Levels
variable {t N k : ℕ} {supply : ℕ → ℕ} {strict : Bool} {h : Heap}

theorem equal_below {α : Type} {m : ℕ} {leaf : Bool} {q : α → Prop} {f : α → List ℕ} {cmp : ℕ → ℕ → ℤ}
    (hcmp : Comparison cmp) {x : TreeNode (TreeNode α)} (hx : x.Within t m false (TreeNode.Within t (t - 1) leaf q))
    (hs : Ascending cmp (x.inorder (TreeNode.inorder f))) (hr : (kindex cmp k x.keys).2 ≠ some 0) {c : TreeNode α}
    (hc : x.kids[place cmp k x.keys]? = some c) : Ascending cmp (c.inorder f) ∧
      (∀ e ∈ c.inorder f, e ∈ x.inorder (TreeNode.inorder f)) ∧
      ∀ e ∈ x.inorder (TreeNode.inorder f), cmp k e = 0 → e ∈ c.inorder f := by
  obtain ⟨hleft, hright⟩ := kindex_miss hcmp (ascending_keys hx.branches hs) hr
  obtain ⟨hkids, hL⟩ := split_middle hc
  have hb : x.kids.length = x.keys.length + 1 := hx.branches
  have hle := place_le cmp k x.keys
  have hl : (x.kids.take (place cmp k x.keys)).length = (x.keys.take (place cmp k x.keys)).length := by
    rw [List.length_take, List.length_take]
    omega
  have hin : x.inorder (TreeNode.inorder f) = lefts (x.keys.take (place cmp k x.keys))
      ((x.kids.take (place cmp k x.keys)).map (TreeNode.inorder f)) ++ c.inorder f ++
        rights (x.keys.drop (place cmp k x.keys)) ((x.kids.drop (place cmp k x.keys + 1)).map (TreeNode.inorder f)) := by
    rw [← inorder_kid (a := x.addr) hl, List.take_append_drop, ← hkids]
  rw [hin] at hs ⊢
  refine ⟨hs.left.right, fun e he => List.mem_append_left _ (List.mem_append_right _ he), fun e he h0 => ?_⟩
  have hll := lefts_all (hcmp.before_lt k) (by rw [List.length_map, hl]) hs.left.left hleft
  have hrr := rights_all (hcmp.behind_gt k)
    (by rw [List.length_map, List.length_drop, List.length_drop, hb]; omega) hs.right hright
  rcases List.mem_append.mp he with he | he
  · refine (List.mem_append.mp he).resolve_left fun he => ?_
    have := hll e he
    omega
  · have := hrr e he
    omega

variable (supply strict) in
theorem findnodekey_sim (ht : 1 ≤ t) (hsmall : 2 * t - 1 < 2 ^ 14) (hN : 2 * t - 1 ≤ N) (cmp : ℕ → ℕ → ℤ) (k : ℕ) :
    ∀ (d m fuel : ℕ) (x : Tree d), d < fuel → x.Within t m (d = 0) (Sized t d) → NodeAt (d = 0) (addrOf d) (rep d) h x →
      ∃ e, Does N h (findnodekey (heapOps t (nbitsOf (2 * t - 1)) supply strict) cmp k fuel x.addr) (.ok e) h ∧
        (Comparison cmp → Ascending cmp (inorder (d + 1) x) → Finds cmp k (inorder (d + 1) x) e)
  | 0, m, fuel + 1, x, _, hx, hat => by
    rw [inorder_leaf]
    by_cases hr : (kindex cmp k x.keys).2 = some 0
    · obtain ⟨e, hdoes, hmem, hzero⟩ := findnodekey_hit hsmall hN hat.live hat.record hx.high hr fuel
      exact ⟨e, hdoes, fun hcmp hs => Or.inl ⟨hmem, hzero hcmp hs⟩⟩
    · refine ⟨0, findnodekey_miss hsmall hN hat.live hat.record hx.high hr (Does.pure 0), fun hcmp hs =>
        Or.inr ⟨rfl, fun e he h0 => ?_⟩⟩
      obtain ⟨hleft, hright⟩ := kindex_miss hcmp hs hr
      rw [← List.take_append_drop (place cmp k x.keys) x.keys] at he
      rcases List.mem_append.mp he with he | he
      · have := hleft e he
        omega
      · have := hright e he
        omega
  | d + 1, m, fuel + 1, x, hfuel, hx, hat => by
    by_cases hr : (kindex cmp k x.keys).2 = some 0
    · obtain ⟨e, hdoes, hmem, hzero⟩ := findnodekey_hit hsmall hN hat.live hat.record hx.high hr fuel
      refine ⟨e, hdoes, fun hcmp hs => Or.inl ⟨(keys_sublist hx.branches _).mem hmem, hzero hcmp
        (ascending_keys hx.branches hs)⟩⟩
    · have hb : x.kids.length = x.keys.length + 1 := hx.branches
      have hle := place_le cmp k x.keys
      have hget : x.kids[place cmp k x.keys]? = some x.kids[place cmp k x.keys] := List.getElem?_eq_getElem (by omega)
      generalize x.kids[place cmp k x.keys] = c at hget
      have hmem := List.mem_of_getElem? hget
      obtain ⟨e, hdoes, hfinds⟩ := findnodekey_sim ht hsmall hN cmp k d (t - 1) fuel c (by omega) (hx.kids c hmem)
        (hat.kids c hmem)
      refine ⟨e, findnodekey_miss hsmall hN hat.live hat.record hx.high hr ?_, fun hcmp hs => ?_⟩
      · exact (child_does _ _ _ ht hat hx hget).1.bind hdoes
      · obtain ⟨hsc, hsub, hequal⟩ := equal_below hcmp hx hs hr hget
        rcases hfinds hcmp hsc with ⟨he, h0⟩ | ⟨he, hnone⟩
        · exact Or.inl ⟨hsub e he, h0⟩
        · exact Or.inr ⟨he, fun e' he' h0 => hnone e' (hequal e' he' h0) h0⟩

/-! ## The ends -/

variable (supply strict) in
theorem findminnode_sim (ht : 2 ≤ t) : ∀ (d m fuel : ℕ) (x : Tree d), d < fuel → x.Within t m (d = 0) (Sized t d) →
    NodeAt (d = 0) (addrOf d) (rep d) h x → x.keys ≠ [] →
      ∃ e r, Does N h (findminnode (heapOps t (nbitsOf (2 * t - 1)) supply strict) fuel x.addr) (.ok e) h ∧
        inorder (d + 1) x = e :: r
  | 0, m, fuel + 1, x, _, hx, hat, hne => by
    obtain ⟨e, r, hkeys⟩ := List.exists_cons_of_ne_nil hne
    have hrec := hat.record
    rw [hkeys] at hrec
    refine ⟨e, r, ?_, by rw [inorder_leaf, hkeys]⟩
    rw [findminnode]
    refine (leaf_does hrec).bind ?_
    exact key_does _ _ _ (l := []) hrec (hkeys ▸ hx.high)
  | d + 1, m, fuel + 1, x, hfuel, hx, hat, hne => by
    have hb : x.kids.length = x.keys.length + 1 := hx.branches
    obtain ⟨c, R, hkids⟩ := List.exists_cons_of_length_eq_add_one hb
    have hget : x.kids[0]? = some c := by
      rw [hkids]
      rfl
    have hc : c.Within t (t - 1) (d = 0) (Sized t d) := hx.kids c (List.mem_of_getElem? hget)
    obtain ⟨e, r, hdoes, hin⟩ := findminnode_sim ht d (t - 1) fuel c (by omega) hc
      (hat.kids c (List.mem_of_getElem? hget)) (List.ne_nil_of_length_pos (lt_of_lt_of_le (by omega) hc.low))
    refine ⟨e, r ++ rights x.keys (R.map (inorder (d + 1))), ?_, ?_⟩
    · rw [findminnode]
      exact (leaf_does hat.record).bind ((child_does _ _ _ (by omega) hat hx hget).1.bind hdoes)
    · rw [inorder_succ, TreeNode.inorder, hkids, List.map_cons, weave, hin]
      rfl

variable (supply strict) in
theorem findmaxnode_sim (ht : 2 ≤ t) : ∀ (d m fuel : ℕ) (x : Tree d), d < fuel → x.Within t m (d = 0) (Sized t d) →
    NodeAt (d = 0) (addrOf d) (rep d) h x → x.keys ≠ [] →
      ∃ l e, Does N h (findmaxnode (heapOps t (nbitsOf (2 * t - 1)) supply strict) fuel x.addr) (.ok e) h ∧
        inorder (d + 1) x = l ++ [e]
  | 0, m, fuel + 1, x, _, hx, hat, hne => by
    obtain ⟨l, e, hkeys⟩ : ∃ l e, x.keys = l ++ [e] := ⟨_, _, (List.dropLast_append_getLast hne).symm⟩
    have hrec := hat.record
    rw [hkeys] at hrec
    have hlen : ((l ++ [e]).length : ℤ) - 1 = l.length := by
      rw [List.length_append, List.length_singleton]
      omega
    refine ⟨l, e, ?_, by rw [inorder_leaf, hkeys]⟩
    rw [findmaxnode]
    refine (leaf_does hrec).bind ?_
    rw [if_pos (by rfl)]
    refine (n_does hrec).bind ?_
    rw [hlen]
    exact key_does _ _ _ hrec (hkeys ▸ hx.high)
  | d + 1, m, fuel + 1, x, hfuel, hx, hat, hne => by
    have hb : x.kids.length = x.keys.length + 1 := hx.branches
    have hget : x.kids[x.keys.length]? = some x.kids[x.keys.length] := List.getElem?_eq_getElem (by omega)
    generalize x.kids[x.keys.length] = c at hget
    obtain ⟨hkids, hL⟩ := split_middle hget
    have hc : c.Within t (t - 1) (d = 0) (Sized t d) := hx.kids c (List.mem_of_getElem? hget)
    obtain ⟨l, e, hdoes, hin⟩ := findmaxnode_sim ht d (t - 1) fuel c (by omega) hc
      (hat.kids c (List.mem_of_getElem? hget)) (List.ne_nil_of_length_pos (lt_of_lt_of_le (by omega) hc.low))
    have hsplit := inorder_kid (f := inorder (d + 1)) (a := x.addr) (l := x.keys) (r := []) (L :=
      x.kids.take x.keys.length) (R := []) (c := c) hL
    have hlast : x.kids.drop (x.keys.length + 1) = [] := List.drop_eq_nil_of_le (by omega)
    refine ⟨lefts x.keys ((x.kids.take x.keys.length).map (inorder (d + 1))) ++ l, e, ?_, ?_⟩
    · rw [findmaxnode]
      exact (leaf_does hat.record).bind ((n_does hat.record).bind ((child_does _ _ _ (by omega) hat hx hget).1.bind
        hdoes))
    · rw [hlast] at hkids
      rw [List.append_nil, ← hkids, List.map_nil, rights_nil, List.append_nil, hin] at hsplit
      rw [inorder_succ, List.append_assoc]
      exact hsplit

end Levels

end PmemExamples.BTree
