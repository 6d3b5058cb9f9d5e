import PmemExamples.BTree.Tree

/-! # Insertion into a B-tree

What `bt_insert` does, on trees as values. New nodes come from a supply of addresses, of which the first so many
are used. -/

namespace PmemExamples.BTree
set_option autoImplicit false

/-- Where `k` goes among the keys of a node. -/
def place (cmp : ℕ → ℕ → ℤ) (k : ℕ) (keys : List ℕ) : ℕ := ((kindex cmp k keys).1 + 1).toNat

section Step
variable {α : Type} (t : ℕ) (cmp : ℕ → ℕ → ℤ) (k : ℕ) (supply : ℕ → ℕ)

/-- The halves of a full node, and the key between them. -/
def lower (y : TreeNode α) : TreeNode α := ⟨y.addr, y.keys.take (t - 1), y.kids.take t⟩
def upper (z : ℕ) (y : TreeNode α) : TreeNode α := ⟨z, y.keys.drop t, y.kids.drop t⟩
def median (y : TreeNode α) : ℕ := y.keys.getD (t - 1) 0

/-- `btreesplitchild` for the child `m`. -/
def splitChild (z m : ℕ) (x : TreeNode (TreeNode α)) : TreeNode (TreeNode α) :=
  match x.kids[m]? with
  | none => x
  | some y => ⟨x.addr, x.keys.take m ++ median t y :: x.keys.drop m,
      x.kids.take m ++ lower t y :: upper t z y :: x.kids.drop (m + 1)⟩

def insertLeaf (x : TreeNode α) : TreeNode α :=
  ⟨x.addr, x.keys.take (place cmp k x.keys) ++ k :: x.keys.drop (place cmp k x.keys), x.kids⟩

/-- `ins` inserts into a child, from an index of the supply on, and returns the next one. -/
def insertInner (ins : ℕ → TreeNode α → TreeNode α × ℕ) (c : ℕ) (x : TreeNode (TreeNode α)) :
    TreeNode (TreeNode α) × ℕ :=
  let m := place cmp k x.keys
  match x.kids[m]? with
  | none => (x, c)
  | some y =>
    if y.keys.length = 2 * t - 1 then
      let x := splitChild t (supply c) m x
      let m := if 0 < cmp k (median t y) then m + 1 else m
      match x.kids[m]? with
      | none => (x, c + 1)
      | some y => (⟨x.addr, x.keys, x.kids.set m (ins (c + 1) y).1⟩, (ins (c + 1) y).2)
    else (⟨x.addr, x.keys, x.kids.set m (ins c y).1⟩, (ins c y).2)

/-- `btreeinsertnonfull`. -/
def insertNonfull : (d : ℕ) → ℕ → Tree d → Tree d × ℕ
  | 0, c, x => (insertLeaf cmp k x, c)
  | d + 1, c, x => insertInner t cmp k supply (insertNonfull d) c x

/-- `bt_insert`. -/
def insertRoot (c : ℕ) (x : AnyTree) : AnyTree × ℕ :=
  if x.tree.keys.length = 2 * t - 1 then
    let s : TreeNode (TreeNode (Below x.height)) := ⟨supply c, [], [x.tree]⟩
    let res := insertNonfull t cmp k supply (x.height + 1) (c + 2) (splitChild t (supply (c + 1)) 0 s)
    (⟨x.height + 1, res.1⟩, res.2)
  else
    let res := insertNonfull t cmp k supply x.height c x.tree
    (⟨x.height, res.1⟩, res.2)

end Step

section Facts
variable {α : Type} {t c k m : ℕ} {cmp : ℕ → ℕ → ℤ} {supply : ℕ → ℕ} {leaf : Bool} {q : α → Prop}

/-! ## The place of a key -/

theorem place_le (cmp : ℕ → ℕ → ℤ) (k : ℕ) (keys : List ℕ) : place cmp k keys ≤ keys.length := by
  obtain ⟨h, h', -⟩ := kindex_bounds cmp k keys
  unfold place
  omega

theorem place_parts (hcmp : Comparison cmp) {keys : List ℕ} (hs : Ascending cmp keys) :
    Parts cmp k (keys.take (place cmp k keys)) (keys.drop (place cmp k keys)) := by
  obtain ⟨l, r, heq, hfound⟩ := kindex_found hcmp hs k
  have hlen : place cmp k keys = l.length := by
    rw [place, hfound.index]
    omega
  rw [hlen, heq, List.take_left, List.drop_left]
  exact hfound.parts

/-- The key that is found, or that none of the keys is equal to `k`. -/
theorem kindex_hit (hcmp : Comparison cmp) {keys : List ℕ} (hs : Ascending cmp keys)
    (h : (kindex cmp k keys).2 = some 0) :
    ∃ l e r, keys = l ++ e :: r ∧ (kindex cmp k keys).1 = l.length ∧ cmp k e = 0 := by
  obtain ⟨l, r, heq, hfound⟩ := kindex_found hcmp hs k
  obtain ⟨l, e, rfl⟩ : ∃ l' e, l = l' ++ [e] :=
    ⟨_, _, (List.dropLast_append_getLast fun hnil => hfound.first hnil h).symm⟩
  have hlast := hfound.last e (by simp)
  have hidx := hfound.index
  rw [List.length_append, List.length_singleton] at hidx
  exact ⟨l, e, r, by rw [heq, ← List.append_cons], by omega, Option.some.inj (hlast.symm.trans h)⟩

theorem kindex_miss (hcmp : Comparison cmp) {keys : List ℕ} (hs : Ascending cmp keys)
    (h : (kindex cmp k keys).2 ≠ some 0) :
    (∀ e ∈ keys.take (place cmp k keys), 0 < cmp k e) ∧ ∀ e ∈ keys.drop (place cmp k keys), cmp k e < 0 := by
  obtain ⟨l, r, heq, hfound⟩ := kindex_found hcmp hs k
  have hlen : place cmp k keys = l.length := by
    rw [place, hfound.index]
    omega
  rw [hlen]
  conv => rw [heq]
  rw [List.take_left, List.drop_left]
  refine ⟨fun e he => ?_, hfound.parts.right⟩
  obtain ⟨l, e₀, rfl⟩ : ∃ l' e₀, l = l' ++ [e₀] := ⟨_, _, (List.dropLast_append_getLast (List.ne_nil_of_mem he)).symm⟩
  have hne : cmp k e₀ ≠ 0 := fun h0 => h (h0 ▸ hfound.last e₀ (by simp))
  have hpos : 0 < cmp k e₀ := lt_of_le_of_ne (hfound.parts.left e₀ (by simp)) (Ne.symm hne)
  rcases List.mem_append.mp he with he | he
  · rw [heq] at hs
    exact hcmp.before_lt k e e₀ ((List.pairwise_append.mp hs.left).2.2 e he e₀ (by simp)) hpos
  · rw [List.mem_singleton.mp he]
    exact hpos

/-! ## Full nodes -/

theorem within_split (ht : 1 ≤ t) {y : TreeNode α} (h : y.Within t (t - 1) leaf q) (hfull : y.keys.length = 2 * t - 1)
    (z : ℕ) : (lower t y).Within t (t - 1) leaf q ∧ (upper t z y).Within t (t - 1) leaf q := by
  have hb := h.branches
  refine ⟨⟨?_, ?_, ?_, fun c hc => h.kids c (List.mem_of_mem_take hc)⟩,
    ⟨?_, ?_, ?_, fun c hc => h.kids c (List.mem_of_mem_drop hc)⟩⟩
  all_goals
    simp only [TreeNode.Branches, lower, upper, List.length_take, List.length_drop]
  any_goals omega
  all_goals
    rw [show y.kids.length = _ from hb]
    cases leaf
    · simp only [Bool.false_eq_true, if_false]
      omega
    · simp

theorem keys_split (ht : 1 ≤ t) {y : TreeNode α} (hfull : y.keys.length = 2 * t - 1) :
    y.keys = (lower t y).keys ++ median t y :: y.keys.drop t := by
  have hlt : t - 1 < y.keys.length := by omega
  rw [lower, median, List.getD_eq_getElem _ _ hlt]
  conv_lhs => rw [← List.take_append_drop (t - 1) y.keys, List.drop_eq_getElem_cons hlt, Nat.sub_add_cancel ht]

theorem inorder_split (ht : 1 ≤ t) {y : TreeNode α} (h : y.Within t (t - 1) leaf q) (hfull : y.keys.length = 2 * t - 1)
    (z : ℕ) (f : α → List ℕ) :
    y.inorder f = (lower t y).inorder f ++ median t y :: (upper t z y).inorder f := by
  obtain ⟨hl, hu⟩ := within_split ht h hfull z
  have hy : y = (lower t y).merge (median t y) (upper t z y) := by
    cases y with
    | mk b ks cs =>
      congr 1
      · exact keys_split ht hfull
      · exact (List.take_append_drop t cs).symm
  conv_lhs => rw [hy]
  exact inorder_merge hl.branches hu.branches _ f

/-! ## One level -/

/-- The child to insert into, in its node: it has room, or it is split first. -/
inductive InsertsAt (t : ℕ) (cmp : ℕ → ℕ → ℤ) (k : ℕ) (supply : ℕ → ℕ) (ins : ℕ → TreeNode α → TreeNode α × ℕ) (c a : ℕ)
    (l r : List ℕ) (L : List (TreeNode α)) (y : TreeNode α) (R : List (TreeNode α)) : TreeNode (TreeNode α) × ℕ → Prop
  | room (h : y.keys.length ≠ 2 * t - 1) :
      InsertsAt t cmp k supply ins c a l r L y R (⟨a, l ++ r, L ++ (ins c y).1 :: R⟩, (ins c y).2)
  | low (h : y.keys.length = 2 * t - 1) (hk : cmp k (median t y) ≤ 0) :
      InsertsAt t cmp k supply ins c a l r L y R
        (⟨a, l ++ median t y :: r, L ++ (ins (c + 1) (lower t y)).1 :: upper t (supply c) y :: R⟩,
          (ins (c + 1) (lower t y)).2)
  | high (h : y.keys.length = 2 * t - 1) (hk : 0 < cmp k (median t y)) :
      InsertsAt t cmp k supply ins c a l r L y R
        (⟨a, l ++ median t y :: r, L ++ lower t y :: (ins (c + 1) (upper t (supply c) y)).1 :: R⟩,
          (ins (c + 1) (upper t (supply c) y)).2)

theorem splitChild_eq {a z : ℕ} {l r : List ℕ} {L R : List (TreeNode α)} (hl : l.length = m) (hL : L.length = m)
    (y : TreeNode α) : splitChild t z m ⟨a, l ++ r, L ++ y :: R⟩ =
      ⟨a, l ++ median t y :: r, L ++ lower t y :: upper t z y :: R⟩ := by
  have htake : (L ++ y :: R).take m = L := by rw [← hL, List.take_left]
  have hdrop : (L ++ y :: R).drop (m + 1) = R := by
    rw [← hL, ← List.drop_drop, List.drop_left]
    rfl
  have htake' : (l ++ r).take m = l := by rw [← hl, List.take_left]
  have hdrop' : (l ++ r).drop m = r := by rw [← hl, List.drop_left]
  rw [splitChild]
  simp only [getElem?_middle hL, htake, hdrop, htake', hdrop']

theorem insertInner_cases {q : TreeNode α → Prop} {x : TreeNode (TreeNode α)} (hx : x.Within t m false q)
    (ins : ℕ → TreeNode α → TreeNode α × ℕ) (cmp : ℕ → ℕ → ℤ) (k : ℕ) (supply : ℕ → ℕ) (c : ℕ) :
    ∃ l r L y R, x = ⟨x.addr, l ++ r, L ++ y :: R⟩ ∧ l = x.keys.take (place cmp k x.keys) ∧
      r = x.keys.drop (place cmp k x.keys) ∧ L.length = l.length ∧ R.length = r.length ∧
      InsertsAt t cmp k supply ins c x.addr l r L y R (insertInner t cmp k supply ins c x) := by
  have hle := place_le cmp k x.keys
  have hb : x.kids.length = x.keys.length + 1 := hx.branches
  have hm : place cmp k x.keys < x.kids.length := by omega
  have hget := List.getElem?_eq_getElem hm
  obtain ⟨hkids, hL⟩ := split_middle hget
  generalize x.kids[place cmp k x.keys] = y at hget hkids
  have hl : (x.keys.take (place cmp k x.keys)).length = place cmp k x.keys := by
    rw [List.length_take]
    omega
  obtain ⟨l, r, hkeys, hl', hr'⟩ : ∃ l r, x.keys = l ++ r ∧ l = x.keys.take (place cmp k x.keys) ∧
      r = x.keys.drop (place cmp k x.keys) := ⟨_, _, (List.take_append_drop _ _).symm, rfl, rfl⟩
  rw [← hl'] at hl
  generalize x.kids.take (place cmp k x.keys) = L at hkids hL
  generalize x.kids.drop (place cmp k x.keys + 1) = R at hkids
  have hx' : x = ⟨x.addr, l ++ r, L ++ y :: R⟩ := by
    cases x
    congr
  refine ⟨l, r, L, y, R, hx', hl', hr', hL.trans hl.symm, ?_, ?_⟩
  · have h1 := congrArg List.length hkids
    have h2 := congrArg List.length hkeys
    rw [List.length_append] at h1 h2
    rw [List.length_cons] at h1
    omega
  have hset : ∀ n, l.length = n → L.length = n → ∀ z c', splitChild t z n x =
      ⟨x.addr, l ++ median t y :: r, L ++ lower t y :: upper t z y :: R⟩ ∧
      x.kids.set n c' = L ++ c' :: R := fun n hl hL z c' => by
    rw [hkids, set_middle hL]
    refine ⟨?_, rfl⟩
    conv_lhs => rw [hx']
    exact splitChild_eq hl hL y
  rw [insertInner]
  simp only [hget]
  by_cases hfull : y.keys.length = 2 * t - 1
  · rw [if_pos hfull, (hset _ hl hL (supply c) y).1]
    by_cases hk : 0 < cmp k (median t y)
    · have hnext : (L ++ [lower t y]).length = place cmp k x.keys + 1 := by
        rw [List.length_append, hL]
        rfl
      have hgetu : (L ++ lower t y :: upper t (supply c) y :: R)[place cmp k x.keys + 1]? = some (upper t (supply c)
        y) := by
        rw [List.append_cons]
        exact getElem?_middle hnext
      have hsetu : ∀ c', (L ++ lower t y :: upper t (supply c) y :: R).set (place cmp k x.keys + 1) c' =
          L ++ lower t y :: c' :: R := fun c' => by
        rw [List.append_cons, set_middle hnext, List.append_assoc]
        rfl
      simp only [if_pos hk, hgetu, hsetu]
      exact .high hfull hk
    · simp only [if_neg hk, getElem?_middle hL, set_middle hL]
      exact .low hfull (by omega)
  · rw [if_neg hfull, (hset _ hl hL 0 _).2, hkeys]
    exact .room hfull

theorem insertInner_within {x : TreeNode (TreeNode α)} {ins : ℕ → TreeNode α → TreeNode α × ℕ} (ht : 2 ≤ t)
    (hx : x.Within t m false (TreeNode.Within t (t - 1) leaf q)) (hroom : x.keys.length < 2 * t - 1)
    (hins : ∀ c y, y.Within t (t - 1) leaf q → y.keys.length < 2 * t - 1 → (ins c y).1.Within t (t - 1) leaf q)
    (cmp : ℕ → ℕ → ℤ) (k : ℕ) (supply : ℕ → ℕ) (c : ℕ) :
    (insertInner t cmp k supply ins c x).1.Within t m false (TreeNode.Within t (t - 1) leaf q) := by
  obtain ⟨l, r, L, y, R, hx', -, -, hL, hR, hcase⟩ := insertInner_cases hx ins cmp k supply c
  have hlen : x.keys.length = l.length + r.length := by
    rw [hx']
    exact List.length_append
  have hlow := hx.low
  have hkids : ∀ b ∈ L ++ y :: R, b.Within t (t - 1) leaf q := fun b hb => hx.kids b (by rw [hx']; exact hb)
  have hy := hkids y (by simp)
  have hrest : ∀ b, b ∈ L ∨ b ∈ R → b.Within t (t - 1) leaf q := fun b hb => hkids b (by simp; tauto)
  have hcount : ∀ (b e : ℕ) (y' z' : TreeNode α), y'.Within t (t - 1) leaf q → z'.Within t (t - 1) leaf q →
      TreeNode.Within t m false (TreeNode.Within t (t - 1) leaf q) ⟨b, l ++ e :: r, L ++ y' :: z' :: R⟩ :=
    fun b e y' z' hy' hz' => within_key hL hR hy' hz' hrest (by omega) (by omega)
  generalize insertInner t cmp k supply ins c x = res at hcase
  cases hcase with
  | room h =>
    exact within_kid hL hR (hins _ y hy (lt_of_le_of_ne hy.high h)) hrest (by omega) (by omega)
  | low h hk =>
    obtain ⟨hlo, hup⟩ := within_split (by omega) hy h (supply c)
    refine hcount _ _ _ _ (hins _ _ hlo ?_) hup
    rw [lower, List.length_take]
    omega
  | high h hk =>
    obtain ⟨hlo, hup⟩ := within_split (by omega) hy h (supply c)
    refine hcount _ _ _ _ hlo (hins _ _ hup ?_)
    rw [upper, List.length_drop]
    omega

theorem insertLeaf_within {x : TreeNode α} (hx : x.Within t m true q) (hroom : x.keys.length < 2 * t - 1)
    (cmp : ℕ → ℕ → ℤ) (k : ℕ) : (insertLeaf cmp k x).Within t m true q := by
  have hle := place_le cmp k x.keys
  have hlow := hx.low
  refine ⟨?_, ?_, hx.branches, hx.kids⟩
  all_goals
    simp only [insertLeaf, List.length_append, List.length_cons, List.length_take, List.length_drop]
    omega

/-! ## The order of the keys -/

/-- `k` has come between what is at most `k` and what is at least `k`. -/
def Inserted (cmp : ℕ → ℕ → ℤ) (k : ℕ) (keys keys' : List ℕ) : Prop :=
  ∃ l r, keys = l ++ r ∧ keys' = l ++ k :: r ∧ (∀ e ∈ l, 0 ≤ cmp k e) ∧ ∀ e ∈ r, cmp k e ≤ 0

theorem Inserted.ascending (hcmp : Comparison cmp) {keys keys' : List ℕ} (h : Inserted cmp k keys keys')
    (hs : Ascending cmp keys) : Ascending cmp keys' := by
  obtain ⟨l, r, rfl, rfl, hl, hr⟩ := h
  obtain ⟨hsl, hsr, hlr⟩ := List.pairwise_append.mp hs
  refine List.pairwise_append.mpr ⟨hsl, List.pairwise_cons.mpr ⟨hr, hsr⟩, fun a ha b hb => ?_⟩
  rcases List.mem_cons.mp hb with rfl | hb
  · exact (hcmp.le_swap a b).mpr (hl a ha)
  · exact hlr a ha b hb

theorem Inserted.within {keys keys' a b : List ℕ} (h : Inserted cmp k keys keys') (ha : ∀ e ∈ a, 0 ≤ cmp k e)
    (hb : ∀ e ∈ b, cmp k e ≤ 0) : Inserted cmp k (a ++ keys ++ b) (a ++ keys' ++ b) := by
  obtain ⟨l, r, rfl, rfl, hl, hr⟩ := h
  refine ⟨a ++ l, r ++ b, by simp, by simp, fun e he => ?_, fun e he => ?_⟩
  · exact (List.mem_append.mp he).elim (ha e) (hl e)
  · exact (List.mem_append.mp he).elim (hr e) (hb e)

theorem insertLeaf_inserted (hcmp : Comparison cmp) {x : TreeNode α} (hs : Ascending cmp x.keys) :
    Inserted cmp k x.keys (insertLeaf cmp k x).keys := by
  have hparts := place_parts (k := k) hcmp hs
  exact ⟨_, _, (List.take_append_drop _ _).symm, rfl, hparts.left, fun e he => (hparts.right e he).le⟩

theorem ascending_keys {f : α → List ℕ} {x : TreeNode α} (hb : x.Branches leaf) (hs : Ascending cmp (x.inorder f)) :
    Ascending cmp x.keys := hs.sublist (keys_sublist hb f)

theorem insertInner_inserted {f : α → List ℕ} {x : TreeNode (TreeNode α)} {ins : ℕ → TreeNode α → TreeNode α × ℕ}
    (ht : 2 ≤ t) (hcmp : Comparison cmp) (hx : x.Within t m false (TreeNode.Within t (t - 1) leaf q))
    (hs : Ascending cmp (x.inorder (TreeNode.inorder f)))
    (hins : ∀ c y, y.Within t (t - 1) leaf q → y.keys.length < 2 * t - 1 → Ascending cmp (y.inorder f) →
      Inserted cmp k (y.inorder f) ((ins c y).1.inorder f)) (supply : ℕ → ℕ) (c : ℕ) :
    Inserted cmp k (x.inorder (TreeNode.inorder f))
    ((insertInner t cmp k supply ins c x).1.inorder (TreeNode.inorder f)) := by
  obtain ⟨l, r, L, y, R, hx', hl, hr, hL, hR, hcase⟩ := insertInner_cases hx ins cmp k supply c
  have hparts := place_parts (k := k) hcmp (ascending_keys hx.branches hs)
  rw [← hl, ← hr] at hparts
  have hy := hx.kids y (by rw [hx']; simp)
  have hin := inorder_kid (f := TreeNode.inorder f) (a := x.addr) (r := r) (R := R) (c := y) hL
  rw [← hx'] at hin
  rw [hin] at hs ⊢
  have hsl : Ascending cmp (lefts l (L.map (TreeNode.inorder f))) := hs.left.left
  have hleft := lefts_all (hcmp.before_le k) (by rw [List.length_map, hL]) hsl hparts.left
  have hright := rights_all (hcmp.behind_ge k) (by rw [List.length_map, hR]) hs.right fun e he => (hparts.right e he).le
  have hsy : Ascending cmp (y.inorder f) := hs.left.right
  generalize insertInner t cmp k supply ins c x = res at hcase
  cases hcase with
  | room h =>
    rw [inorder_kid hL]
    exact (hins _ y hy (lt_of_le_of_ne hy.high h) hsy).within hleft hright
  | low h hk =>
    obtain ⟨hlo, hup⟩ := within_split (by omega) hy h (supply c)
    rw [inorder_split (by omega) hy h (supply c) f] at hsy ⊢
    obtain ⟨hslo, hsup, -⟩ := List.pairwise_append.mp hsy
    rw [inorder_key hL]
    have hnew := (hins (c + 1) _ hlo (by rw [lower, List.length_take]; omega) hslo).within (a := []) (by simp)
      (b := median t y :: (upper t (supply c) y).inorder f) fun e he => ?_
    · simpa using hnew.within hleft hright
    · rcases List.mem_cons.mp he with rfl | he
      · exact hk
      · exact hcmp.behind_ge k _ e ((List.pairwise_cons.mp hsup).1 e he) hk
  | high h hk =>
    obtain ⟨hlo, hup⟩ := within_split (by omega) hy h (supply c)
    rw [inorder_split (by omega) hy h (supply c) f] at hsy ⊢
    obtain ⟨hslo, hsup, hbefore⟩ := List.pairwise_append.mp hsy
    rw [inorder_key hL]
    have hnew := (hins (c + 1) _ hup (by rw [upper, List.length_drop]; omega) (List.pairwise_cons.mp hsup).2).within
      (a := (lower t y).inorder f ++ [median t y]) (fun e he => ?_) (b := []) (by simp)
    · simpa using hnew.within hleft hright
    · rcases List.mem_append.mp he with he | he
      · exact hcmp.before_le k e _ (hbefore e he _ List.mem_cons_self) hk.le
      · rw [List.mem_singleton.mp he]
        exact hk.le

/-! ## The addresses -/

/-- The addresses of the supply from `c` to `c'`. -/
def drawn (supply : ℕ → ℕ) (c c' : ℕ) : Multiset ℕ := ((List.range' c (c' - c)).map supply : List ℕ)

theorem drawn_self (supply : ℕ → ℕ) (c : ℕ) : drawn supply c c = 0 := by simp [drawn]

theorem drawn_succ {c' : ℕ} (h : c < c') : drawn supply c c' = {supply c} + drawn supply (c + 1) c' := by
  rw [drawn, show c' - c = (c' - (c + 1)) + 1 by omega, List.range'_succ, List.map_cons]
  rfl

/-- A tree has got the addresses drawn meanwhile. -/
def Draws (supply : ℕ → ℕ) (c : ℕ) (before : Multiset ℕ) (after : Multiset ℕ × ℕ) : Prop :=
  c ≤ after.2 ∧ after.1 = before + drawn supply c after.2

theorem addrs_split (t z : ℕ) (y : TreeNode α) (g : α → Multiset ℕ) :
    (lower t y).addrs g + (upper t z y).addrs g = y.addrs g + {z} := by
  have hkids : (y.kids.map g).sum = ((y.kids.take t).map g).sum + ((y.kids.drop t).map g).sum := by
    rw [← List.sum_append, ← List.map_append, List.take_append_drop]
  simp only [TreeNode.addrs, lower, upper, hkids]
  abel

theorem insertInner_draws {g : α → Multiset ℕ} {x : TreeNode (TreeNode α)} {ins : ℕ → TreeNode α → TreeNode α × ℕ}
    (ht : 2 ≤ t) (hx : x.Within t m false (TreeNode.Within t (t - 1) leaf q))
    (hins : ∀ c y, y.Within t (t - 1) leaf q → Draws supply c (y.addrs g) ((ins c y).1.addrs g, (ins c y).2))
    (cmp : ℕ → ℕ → ℤ) (k c : ℕ) :
    Draws supply c (x.addrs (TreeNode.addrs g)) ((insertInner t cmp k supply ins c x).1.addrs (TreeNode.addrs g),
      (insertInner t cmp k supply ins c x).2) := by
  obtain ⟨l, r, L, y, R, hx', -, -, -, -, hcase⟩ := insertInner_cases hx ins cmp k supply c
  have hbefore : x.addrs (TreeNode.addrs g) =
      {x.addr} + (L.map (TreeNode.addrs g)).sum + (R.map (TreeNode.addrs g)).sum + y.addrs g := by
    conv_lhs => rw [hx']
    exact addrs_kid
  have hy := hx.kids y (by rw [hx']; simp)
  rw [hbefore]
  generalize insertInner t cmp k supply ins c x = res at hcase
  cases hcase with
  | room h =>
    obtain ⟨hle, heq⟩ := hins c y hy
    refine ⟨hle, ?_⟩
    dsimp only at heq ⊢
    rw [addrs_kid, heq, ← add_assoc (_ + _)]
  | low h hk =>
    obtain ⟨hle, heq⟩ := hins (c + 1) (lower t y) (within_split (by omega) hy h 0).1
    have hsplit := addrs_split t (supply c) y g
    refine ⟨by dsimp only at hle ⊢; omega, ?_⟩
    dsimp only at hle heq ⊢
    rw [drawn_succ (by omega), addrs_key, heq, add_right_comm _ (drawn _ _ _), hsplit]
    abel
  | high h hk =>
    obtain ⟨hle, heq⟩ := hins (c + 1) (upper t (supply c) y) (within_split (by omega) hy h (supply c)).2
    have hsplit := addrs_split t (supply c) y g
    refine ⟨by dsimp only at hle ⊢; omega, ?_⟩
    dsimp only at hle heq ⊢
    rw [drawn_succ (by omega), addrs_key, heq, ← add_assoc (TreeNode.addrs _ _), hsplit]
    abel

/-! ## All levels -/

theorem insertNonfull_within (ht : 2 ≤ t) (cmp : ℕ → ℕ → ℤ) (k : ℕ) (supply : ℕ → ℕ) : ∀ (d c m : ℕ) (x : Tree d),
    x.Within t m (d = 0) (Sized t d) → x.keys.length < 2 * t - 1 →
      (insertNonfull t cmp k supply d c x).1.Within t m (d = 0) (Sized t d)
  | 0, _, _, _, hx, hroom => insertLeaf_within hx hroom cmp k
  | d + 1, c, _, _, hx, hroom =>
    insertInner_within ht hx hroom
      (fun c y hy hroomy => insertNonfull_within ht cmp k supply d c (t - 1) y hy hroomy) cmp k supply c

theorem insertNonfull_inserted (ht : 2 ≤ t) (hcmp : Comparison cmp) (k : ℕ) (supply : ℕ → ℕ) :
    ∀ (d c m : ℕ) (x : Tree d), x.Within t m (d = 0) (Sized t d) → Ascending cmp (inorder (d + 1) x) →
      Inserted cmp k (inorder (d + 1) x) (inorder (d + 1) (insertNonfull t cmp k supply d c x).1)
  | 0, c, m, x, hx, hs => by
    rw [inorder_leaf] at hs ⊢
    rw [inorder_leaf]
    exact insertLeaf_inserted hcmp hs
  | d + 1, c, _, _, hx, hs =>
    insertInner_inserted (q := Sized t d) ht hcmp hx hs
      (fun c y hy _ hsy => insertNonfull_inserted ht hcmp k supply d c (t - 1) y hy hsy) supply c

theorem insertNonfull_draws (ht : 2 ≤ t) (cmp : ℕ → ℕ → ℤ) (k : ℕ) (supply : ℕ → ℕ) : ∀ (d c m : ℕ) (x : Tree d),
    x.Within t m (d = 0) (Sized t d) → Draws supply c (addrs (d + 1) x)
      (addrs (d + 1) (insertNonfull t cmp k supply d c x).1, (insertNonfull t cmp k supply d c x).2)
  | 0, c, m, x, _ => by
    refine ⟨le_refl c, ?_⟩
    dsimp only [insertNonfull]
    rw [addrs_leaf, addrs_leaf, drawn_self, add_zero]
    rfl
  | d + 1, c, _, _, hx =>
    insertInner_draws (q := Sized t d) ht hx
      (fun c y hy => insertNonfull_draws ht cmp k supply d c (t - 1) y hy) cmp k c

theorem splitRoot_spec (ht : 2 ≤ t) {d : ℕ} {x : Tree d} (hx : RootSized t d x) (hfull : x.keys.length = 2 * t - 1)
    (a z : ℕ) : RootSized t (d + 1) (splitChild t z 0 (⟨a, [], [x]⟩ : TreeNode (TreeNode (Below d)))) ∧
      (splitChild t z 0 (⟨a, [], [x]⟩ : TreeNode (TreeNode (Below d)))).keys.length = 1 ∧
      inorder (d + 2) (splitChild t z 0 (⟨a, [], [x]⟩ : TreeNode (TreeNode (Below d)))) = inorder (d + 1) x ∧
      addrs (d + 2) (splitChild t z 0 (⟨a, [], [x]⟩ : TreeNode (TreeNode (Below d)))) = addrs (d + 1) x + {a} + {z} := by
  have hsplit : splitChild t z 0 (⟨a, [], [x]⟩ : TreeNode (TreeNode (Below d))) = ⟨a, [median t x],
    [lower t x, upper t z x]⟩ := rfl
  have hx' : x.Within t (t - 1) (d = 0) (Sized t d) := ⟨by omega, hx.high, hx.branches, hx.kids⟩
  obtain ⟨hlo, hup⟩ := within_split (by omega) hx' hfull z
  have hroot : TreeNode.Within t 1 false (TreeNode.Within t (t - 1) (d = 0) (Sized t d))
      ⟨a, [] ++ median t x :: [], [] ++ lower t x :: upper t z x :: []⟩ :=
    within_key rfl rfl hlo hup (by simp) (by simp) (by simp; omega)
  rw [hsplit]
  refine ⟨hroot, rfl, ?_, ?_⟩
  · rw [inorder_succ, inorder_succ, inorder_split (by omega) hx' hfull z]
    simp only [TreeNode.inorder, List.map_cons, List.map_nil, weave, rights_cons, rights_nil, List.append_nil]
    rfl
  · have hadd := addrs_split t z x (addrs d)
    rw [addrs_succ, addrs_succ, TreeNode.addrs, add_right_comm, ← hadd]
    simp only [List.map_cons, List.map_nil, List.sum_cons, List.sum_nil, add_zero]
    rw [add_comm]
    rfl

/-- `bt_insert` keeps the sizes, uses addresses of the supply, and puts `k` in its place. -/
theorem insertRoot_spec (ht : 2 ≤ t) {x : AnyTree} (hx : x.Sized t) (cmp : ℕ → ℕ → ℤ) (k : ℕ) (supply : ℕ → ℕ) (c : ℕ) :
    (insertRoot t cmp k supply c x).1.Sized t ∧
      Draws supply c x.addrs ((insertRoot t cmp k supply c x).1.addrs, (insertRoot t cmp k supply c x).2) ∧
      (Comparison cmp → Ascending cmp x.inorder →
      Inserted cmp k x.inorder (insertRoot t cmp k supply c x).1.inorder) := by
  obtain ⟨d, x⟩ := x
  rw [insertRoot]
  dsimp only [AnyTree.Sized] at hx ⊢
  by_cases hfull : x.keys.length = 2 * t - 1
  · obtain ⟨hs, hlen, hin, hadd⟩ := splitRoot_spec ht hx hfull (supply c) (supply (c + 1))
    rw [if_pos hfull]
    dsimp only [AnyTree.addrs, AnyTree.inorder]
    have hroom : (splitChild t (supply (c + 1)) 0
        (⟨supply c, [], [x]⟩ : TreeNode (TreeNode (Below d)))).keys.length < 2 * t - 1 := by
      omega
    refine ⟨insertNonfull_within ht cmp k supply (d + 1) _ _ _ hs hroom, ?_, fun hcmp hasc => ?_⟩
    · obtain ⟨hle, heq⟩ := insertNonfull_draws ht cmp k supply (d + 1) (c + 2) _ _ hs
      dsimp only at hle heq
      refine ⟨by dsimp only; omega, ?_⟩
      dsimp only
      rw [heq, hadd, drawn_succ (c := c) (by omega), drawn_succ (c := c + 1) (by omega)]
      abel
    · rw [← hin] at hasc ⊢
      exact insertNonfull_inserted ht hcmp k supply (d + 1) _ _ _ hs hasc
  · rw [if_neg hfull]
    have hroom : x.keys.length < 2 * t - 1 := lt_of_le_of_ne hx.high hfull
    exact ⟨insertNonfull_within ht cmp k supply d c _ x hx hroom, insertNonfull_draws ht cmp k supply d c _ x hx,
      fun hcmp hasc => insertNonfull_inserted ht hcmp k supply d c _ x hx hasc⟩

theorem insertRoot_height (t : ℕ) (cmp : ℕ → ℕ → ℤ) (k : ℕ) (supply : ℕ → ℕ) (c : ℕ) (x : AnyTree) :
    (insertRoot t cmp k supply c x).1.height ≤ x.height + 1 := by
  rw [insertRoot]
  split
  · exact le_refl _
  · exact Nat.le_succ _

end Facts

end PmemExamples.BTree
