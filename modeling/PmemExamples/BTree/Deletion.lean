import PmemExamples.BTree.Insertion

/-! # Deletion from a B-tree

What `bt_delete` does, on trees as values. A result is missing where the code goes to a slot that is not there: the
key it looks for is before all keys of a leaf. -/

namespace PmemExamples.BTree
set_option autoImplicit false

section Step
variable {α : Type}

/-- A key of a node, the children around it, and what is to both sides. -/
structure Around (α : Type) where
  left : List ℕ
  key : ℕ
  right : List ℕ
  kidsLeft : List (TreeNode α)
  y : TreeNode α
  z : TreeNode α
  kidsRight : List (TreeNode α)

def around (m : ℕ) (x : TreeNode (TreeNode α)) : Option (Around α) :=
  match x.keys.drop m, x.kids.drop m with
  | e :: r, y :: z :: R => some ⟨x.keys.take m, e, r, x.kids.take m, y, z, R⟩
  | _, _ => none

/-- The key before the child `j`, if there is one. -/
def aroundLeft (j : ℕ) (x : TreeNode (TreeNode α)) : Option (Around α) := if 0 < j then around (j - 1) x else none

namespace Around
variable (w : Around α) (a : ℕ)

/-- The node with another key and other children there. -/
def put (e : ℕ) (y z : TreeNode α) : TreeNode (TreeNode α) :=
  ⟨a, w.left ++ e :: w.right, w.kidsLeft ++ y :: z :: w.kidsRight⟩

/-- The node without the key, and with one child for the two. -/
def join (c : TreeNode α) : TreeNode (TreeNode α) := ⟨a, w.left ++ w.right, w.kidsLeft ++ c :: w.kidsRight⟩

/-- A key goes through the node from one child to the other. -/
def fromLeft : TreeNode (TreeNode α) :=
  w.put a (w.y.keys.getLastD 0) ⟨w.y.addr, w.y.keys.dropLast, w.y.kids.dropLast⟩
    ⟨w.z.addr, w.key :: w.z.keys, w.y.kids.getLast?.toList ++ w.z.kids⟩

def fromRight : TreeNode (TreeNode α) :=
  w.put a (w.z.keys.headD 0) ⟨w.y.addr, w.y.keys ++ [w.key], w.y.kids ++ w.z.kids.take 1⟩
    ⟨w.z.addr, w.z.keys.drop 1, w.z.kids.drop 1⟩

end Around

variable (t : ℕ) (cmp : ℕ → ℕ → ℤ)

/-- Case 3 for the child `j`: the node, and the index of the child to go on with. -/
def prepare (j : ℕ) (x : TreeNode (TreeNode α)) : TreeNode (TreeNode α) × ℕ :=
  if (x.kids[j]?.map fun c => c.keys.length) = some (t - 1) then
    match (aroundLeft j x).filter fun w => t ≤ w.y.keys.length with
    | some w => (w.fromLeft x.addr, j)
    | none =>
      match (around j x).filter fun w => t ≤ w.z.keys.length with
      | some w => (w.fromRight x.addr, j)
      | none =>
        match aroundLeft j x with
        | some w => (w.join x.addr (w.y.merge w.key w.z), j - 1)
        | none =>
          match around j x with
          | some w => (w.join x.addr (w.y.merge w.key w.z), j)
          | none => (x, j)
  else (x, j)

/-- `i` and `r` at the head of `nodedeletekey`. -/
def pick (k s : ℕ) (leaf : Bool) (keys : List ℕ) : ℤ × Option ℤ :=
  match s with
  | 0 => kindex cmp k keys
  | 1 => ((keys.length : ℤ) - 1, some (if leaf then 0 else 1))
  | _ => (-1, some (if leaf then 0 else -1))

/-- Case 1. -/
def removeLeaf (k s : ℕ) (x : TreeNode α) : Option (ℕ × TreeNode α) :=
  let i := if s = 2 then (pick cmp k s true x.keys).1 + 1 else (pick cmp k s true x.keys).1
  if i < 0 then none
  else match x.keys.drop i.toNat with
    | e :: r => some (e, ⟨x.addr, x.keys.take i.toNat ++ r, x.kids⟩)
    | [] => none

/-- The key that case 2 is about. -/
def hit (k s : ℕ) (x : TreeNode (TreeNode α)) : Option (Around α) :=
  if (pick cmp k s false x.keys).2 = some 0 then around (pick cmp k s false x.keys).1.toNat x else none

/-- Cases 2 and 3; `del` deletes from a child. -/
def removeInner (del : ℕ → ℕ → TreeNode α → Option (ℕ × TreeNode α)) (k s : ℕ) (x : TreeNode (TreeNode α)) :
    Option (ℕ × TreeNode (TreeNode α)) :=
  match hit cmp k s x with
  | some w =>
    if t ≤ w.y.keys.length then (del 0 1 w.y).map fun res => (w.key, w.put x.addr res.1 res.2 w.z)
    else if t ≤ w.z.keys.length then (del 0 2 w.z).map fun res => (w.key, w.put x.addr res.1 w.y res.2)
    else (del k s (w.y.merge k w.z)).map fun res => (res.1, w.join x.addr res.2)
  | none =>
    let p := prepare t ((pick cmp k s false x.keys).1 + 1).toNat x
    match p.1.kids[p.2]? with
    | none => none
    | some c => (del k s c).map fun res => (res.1, ⟨p.1.addr, p.1.keys, p.1.kids.set p.2 res.2⟩)

/-- `nodedeletekey`: the key it returns, and the node. -/
def deleteKey : (d : ℕ) → ℕ → ℕ → Tree d → Option (ℕ × Tree d)
  | 0, k, s, x => removeLeaf cmp k s x
  | d + 1, k, s, x => removeInner t cmp (deleteKey d) k s x

/-- An empty root above a single child goes. -/
def collapse : AnyTree → AnyTree
  | ⟨0, x⟩ => ⟨0, x⟩
  | ⟨d + 1, x⟩ =>
    match x.keys, x.kids with
    | [], c :: _ => ⟨d, c⟩
    | _, _ => ⟨d + 1, x⟩

/-- `bt_delete`. -/
def deleteRoot (k : ℕ) (x : AnyTree) : Option (ℕ × AnyTree) :=
  (deleteKey t cmp x.height k 0 x.tree).map fun res => (res.1, collapse ⟨x.height, res.2⟩)

end Step

section Facts
variable {α : Type} {t k m j s : ℕ} {cmp : ℕ → ℕ → ℤ} {leaf : Bool} {q : α → Prop} {x : TreeNode (TreeNode α)}
    {w : Around α}
  {f : α → List ℕ} {g : α → Multiset ℕ}

/-! ## Around a key -/

theorem around_eq (h : around m x = some w) :
    x = w.put x.addr w.key w.y w.z ∧ w.left.length = m ∧ w.kidsLeft.length = m := by
  rw [around] at h
  split at h
  · next e r y z R hkeys hkids =>
    cases h
    have hm := congrArg List.length hkeys
    have hm' := congrArg List.length hkids
    simp only [List.length_drop, List.length_cons] at hm hm'
    refine ⟨?_, by rw [List.length_take]; omega, by rw [List.length_take]; omega⟩
    rw [Around.put, ← hkeys, ← hkids, List.take_append_drop, List.take_append_drop]
  · cases h

theorem around_some (hm : m < x.keys.length) (hb : x.kids.length = x.keys.length + 1) : ∃ w, around m x = some w := by
  refine ⟨⟨x.keys.take m, x.keys[m], x.keys.drop (m + 1), x.kids.take m, x.kids[m], x.kids[m + 1], x.kids.drop (m + 2)⟩,
    ?_⟩
  rw [around, List.drop_eq_getElem_cons hm, List.drop_eq_getElem_cons (show m < x.kids.length by omega),
    List.drop_eq_getElem_cons (show m + 1 < x.kids.length by omega)]

theorem around_none (hm : x.keys.length ≤ m) : around m x = none := by
  rw [around, List.drop_eq_nil_of_le hm]

/-- The parts of a node of a B-tree. -/
structure Around.Fits (t : ℕ) (leaf : Bool) (q : α → Prop) (w : Around α) : Prop where
  lefts : w.kidsLeft.length = w.left.length
  rights : w.kidsRight.length = w.right.length
  y : w.y.Within t (t - 1) leaf q
  z : w.z.Within t (t - 1) leaf q
  rest : ∀ c, c ∈ w.kidsLeft ∨ c ∈ w.kidsRight → c.Within t (t - 1) leaf q

theorem around_fits (hx : x.Within t m false (TreeNode.Within t (t - 1) leaf q)) (h : around j x = some w) :
    w.Fits t leaf q := by
  obtain ⟨heq, hl, hL⟩ := around_eq h
  have hb := hx.branches
  have hkids := hx.kids
  rw [heq] at hb hkids
  simp only [TreeNode.Branches, Around.put, List.length_append, List.length_cons, Bool.false_eq_true, if_false] at hb
  exact ⟨by omega, by omega, hkids _ (by simp [Around.put]), hkids _ (by simp [Around.put]),
    fun c hc => hkids c (by simp [Around.put]; tauto)⟩

theorem aroundLeft_eq (h : aroundLeft j x = some w) : 0 < j ∧ around (j - 1) x = some w := by
  rw [aroundLeft] at h
  split at h
  · next hj => exact ⟨hj, h⟩
  · cases h

theorem around_y (h : around j x = some w) : x.kids[j]? = some w.y := by
  obtain ⟨heq, -, hL⟩ := around_eq h
  rw [heq]
  exact getElem?_middle hL

theorem aroundLeft_z (h : aroundLeft j x = some w) : x.kids[j]? = some w.z := by
  obtain ⟨hj, h⟩ := aroundLeft_eq h
  obtain ⟨heq, -, hL⟩ := around_eq h
  have hlen : (w.kidsLeft ++ [w.y]).length = j := by
    rw [List.length_append, List.length_singleton, hL]
    omega
  rw [heq]
  simp only [Around.put]
  rw [List.append_cons]
  exact getElem?_middle hlen

theorem aroundLeft_some (hj : 0 < j) (hle : j ≤ x.keys.length) (hb : x.kids.length = x.keys.length + 1) :
    ∃ w, aroundLeft j x = some w := by
  obtain ⟨w, hw⟩ := around_some (m := j - 1) (by omega) hb
  exact ⟨w, by rw [aroundLeft, if_pos hj, hw]⟩

/-! ## Case 3 -/

/-- What it does, with the tests that have led there. -/
inductive Prepares (t j : ℕ) (x : TreeNode (TreeNode α)) : TreeNode (TreeNode α) × ℕ → Prop
  | enough {c : TreeNode α} (hc : x.kids[j]? = some c) (h : t ≤ c.keys.length) : Prepares t j x (x, j)
  | fromLeft {w : Around α} (hw : aroundLeft j x = some w) (hc : w.z.keys.length = t - 1) (h : t ≤ w.y.keys.length) :
      Prepares t j x (w.fromLeft x.addr, j)
  | fromRight {w : Around α} (hl : ∀ v, aroundLeft j x = some v → v.y.keys.length = t - 1) (hw : around j x = some w)
      (hc : w.y.keys.length = t - 1) (h : t ≤ w.z.keys.length) : Prepares t j x (w.fromRight x.addr, j)
  | mergeLeft {w : Around α} (hw : aroundLeft j x = some w) (hc : w.z.keys.length = t - 1)
      (h : w.y.keys.length = t - 1) (hr : ∀ v, around j x = some v → v.z.keys.length = t - 1) :
      Prepares t j x (w.join x.addr (w.y.merge w.key w.z), j - 1)
  | mergeRight {w : Around α} (hl : aroundLeft j x = none) (hw : around j x = some w) (hc : w.y.keys.length = t - 1)
      (h : w.z.keys.length = t - 1) : Prepares t j x (w.join x.addr (w.y.merge w.key w.z), j)

theorem prepare_cases (hx : x.Within t m false (TreeNode.Within t (t - 1) leaf q)) (hne : x.keys ≠ [])
    (hj : j ≤ x.keys.length) : Prepares t j x (prepare t j x) := by
  have hb : x.kids.length = x.keys.length + 1 := hx.branches
  have hpos : 0 < x.keys.length := List.length_pos_iff.mpr hne
  have hget : x.kids[j]? = some x.kids[j] := List.getElem?_eq_getElem (by omega)
  have hchild := hx.kids _ (List.getElem_mem (show j < x.kids.length by omega))
  generalize x.kids[j] = c at hget hchild
  have hlow := hchild.low
  rw [prepare]
  by_cases hc : c.keys.length = t - 1
  · rw [if_pos (by rw [hget, Option.map_some, hc])]
    have hz : ∀ v, aroundLeft j x = some v → v.z.keys.length = t - 1 ∧
      (¬ t ≤ v.y.keys.length → v.y.keys.length = t - 1) := by
      intro v hv
      obtain rfl : v.z = c := Option.some.inj ((aroundLeft_z hv).symm.trans hget)
      have hy := (around_fits hx (aroundLeft_eq hv).2).y.low
      exact ⟨hc, by omega⟩
    have hy : ∀ v, around j x = some v → v.y.keys.length = t - 1 ∧
      (¬ t ≤ v.z.keys.length → v.z.keys.length = t - 1) := by
      intro v hv
      obtain rfl : v.y = c := Option.some.inj ((around_y hv).symm.trans hget)
      have hz := (around_fits hx hv).z.low
      exact ⟨hc, by omega⟩
    cases hleft : aroundLeft j x with
    | none =>
      obtain rfl : j = 0 := by
        by_contra hj0
        obtain ⟨v, hv⟩ := aroundLeft_some (by omega) hj hb
        rw [hv] at hleft
        cases hleft
      obtain ⟨w, hw⟩ := around_some hpos hb
      obtain ⟨hwy, hwz⟩ := hy w hw
      rw [hw]
      by_cases hr : t ≤ w.z.keys.length
      · simp only [Option.filter, hr, decide_true, if_true]
        exact .fromRight (fun v hv => by rw [hleft] at hv; cases hv) hw hwy hr
      · simp only [Option.filter, hr, decide_false, Bool.false_eq_true, if_false]
        exact .mergeRight hleft hw hwy (hwz hr)
    | some v =>
      obtain ⟨hvz, hvy⟩ := hz v hleft
      by_cases hl : t ≤ v.y.keys.length
      · simp only [Option.filter, hl, decide_true, if_true]
        exact .fromLeft hleft hvz hl
      · have hl' : ∀ v', aroundLeft j x = some v' → v'.y.keys.length = t - 1 := fun v' hv' => by
          obtain rfl := Option.some.inj (hleft.symm.trans hv')
          exact hvy hl
        simp only [Option.filter, hl, decide_false, Bool.false_eq_true, if_false]
        cases hright : around j x with
        | none => exact .mergeLeft hleft hvz (hvy hl) fun v' hv' => by rw [hright] at hv'; cases hv'
        | some w =>
          obtain ⟨hwy, hwz⟩ := hy w hright
          by_cases hr : t ≤ w.z.keys.length
          · simp only [hr, decide_true, if_true]
            exact .fromRight hl' hright hwy hr
          · simp only [hr, decide_false, Bool.false_eq_true, if_false]
            refine .mergeLeft hleft hvz (hvy hl) fun v' hv' => ?_
            obtain rfl := Option.some.inj (hright.symm.trans hv')
            exact hwz hr
  · rw [if_neg (by rw [hget, Option.map_some]; simpa using hc)]
    exact .enough hget (by omega)

/-! ## Keys that go around -/

section Rotate
variable {y z b : TreeNode α}

theorem rotate_inorder (hy : y.Branches leaf) (hb : b.Branches leaf) (hz : z.Branches leaf) (e k : ℕ) (f : α → List ℕ) :
    (y.merge e b).inorder f ++ k :: z.inorder f = y.inorder f ++ e :: (b.merge k z).inorder f := by
  rw [inorder_merge hy hb, inorder_merge hb hz]
  simp

theorem rotate_addrs (h : b.addr = z.addr) (e k : ℕ) (g : α → Multiset ℕ) :
    (y.merge e b).addrs g + z.addrs g = y.addrs g + (b.merge k z).addrs g := by
  have h1 := addrs_merge y b e g
  have h2 := addrs_merge b z k g
  rw [h] at h1
  refine add_right_cancel (b := {z.addr} + b.addrs g) ?_
  calc (y.merge e b).addrs g + z.addrs g + ({z.addr} + b.addrs g)
      = ((y.merge e b).addrs g + {z.addr}) + (b.addrs g + z.addrs g) := by abel
    _ = y.addrs g + (b.merge k z).addrs g + ({z.addr} + b.addrs g) := by
      rw [h1, ← h2]
      abel

/-- The last key of a node, and what is behind it; the first key, and what is before it. -/
theorem cut_last (hb : y.Branches leaf) (hne : y.keys ≠ []) (a : ℕ) :
    y = (⟨y.addr, y.keys.dropLast, y.kids.dropLast⟩ : TreeNode α).merge (y.keys.getLastD 0)
        ⟨a, [], y.kids.getLast?.toList⟩ ∧
      (⟨y.addr, y.keys.dropLast, y.kids.dropLast⟩ : TreeNode α).Branches leaf ∧
      (⟨a, [], y.kids.getLast?.toList⟩ : TreeNode α).Branches leaf ∧ y.keys.getLastD 0 ∈ y.keys := by
  obtain ⟨b, ks, cs⟩ := y
  obtain ⟨l, e, rfl⟩ : ∃ l e, ks = l ++ [e] := ⟨_, _, (List.dropLast_append_getLast hne).symm⟩
  have hb' : cs.length = if leaf then 0 else (l ++ [e]).length + 1 := hb
  cases leaf with
  | true =>
    obtain rfl : cs = [] := List.length_eq_zero_iff.mp hb'
    simp [TreeNode.merge, TreeNode.Branches]
  | false =>
    obtain ⟨L, c, rfl⟩ : ∃ L c, cs = L ++ [c] :=
      ⟨_, _, (List.dropLast_append_getLast (List.ne_nil_of_length_eq_add_one hb')).symm⟩
    have hL : L.length = l.length + 1 := by simpa using hb'
    simp [TreeNode.merge, TreeNode.Branches, hL]

theorem cut_first (hb : z.Branches leaf) (hne : z.keys ≠ []) :
    z = (⟨z.addr, [], z.kids.take 1⟩ : TreeNode α).merge (z.keys.headD 0) ⟨z.addr, z.keys.drop 1, z.kids.drop 1⟩ ∧
      (⟨z.addr, [], z.kids.take 1⟩ : TreeNode α).Branches leaf ∧
      (⟨z.addr, z.keys.drop 1, z.kids.drop 1⟩ : TreeNode α).Branches leaf ∧ z.keys.headD 0 ∈ z.keys := by
  obtain ⟨b, ks, cs⟩ := z
  obtain ⟨e, r, rfl⟩ := List.exists_cons_of_ne_nil hne
  have hb' : cs.length = if leaf then 0 else (e :: r).length + 1 := hb
  cases leaf with
  | true =>
    obtain rfl : cs = [] := List.length_eq_zero_iff.mp hb'
    simp [TreeNode.merge, TreeNode.Branches]
  | false =>
    obtain ⟨c, R, rfl⟩ := List.exists_cons_of_length_eq_add_one hb'
    have hR : R.length = r.length + 1 := by simpa using hb'
    simp [TreeNode.merge, TreeNode.Branches, hR]

end Rotate

/-! ## A node ready to go down -/

/-- A node seen from one of its children. -/
structure Cut (α : Type) where
  left : List ℕ
  right : List ℕ
  kidsLeft : List (TreeNode α)
  child : TreeNode α
  kidsRight : List (TreeNode α)

def Cut.put (v : Cut α) (a : ℕ) (c : TreeNode α) : TreeNode (TreeNode α) :=
  ⟨a, v.left ++ v.right, v.kidsLeft ++ c :: v.kidsRight⟩

/-- Case 3 leaves a child that can lose a key, and changes nothing of what is in the tree. -/
structure Prepared (t j : ℕ) (leaf : Bool) (q : α → Prop) (x : TreeNode (TreeNode α)) (v : Cut α) : Prop where
  lefts : v.kidsLeft.length = v.left.length
  rights : v.kidsRight.length = v.right.length
  child : v.child.Within t t leaf q
  rest : ∀ c, c ∈ v.kidsLeft ∨ c ∈ v.kidsRight → c.Within t (t - 1) leaf q
  low : x.keys.length ≤ v.left.length + v.right.length + 1
  high : v.left.length + v.right.length ≤ x.keys.length
  left : v.left.length ≤ j
  right : v.right.length ≤ x.keys.length - j
  inorder : ∀ f, x.inorder (TreeNode.inorder f) = (v.put x.addr v.child).inorder (TreeNode.inorder f)
  addrs : ∀ g, ∃ freed, x.addrs (TreeNode.addrs g) = (v.put x.addr v.child).addrs (TreeNode.addrs g) + freed
  below : ∀ {cmp : ℕ → ℕ → ℤ} {p : ℕ → Prop} (f : α → List ℕ), (∀ a b, cmp a b ≤ 0 → p b → p a) →
    Ascending cmp (x.inorder (TreeNode.inorder f)) → (∀ e ∈ x.keys.take j, p e) → ∀ e ∈ v.left, p e
  above : ∀ {cmp : ℕ → ℕ → ℤ} {p : ℕ → Prop} (f : α → List ℕ), (∀ a b, cmp a b ≤ 0 → p a → p b) →
    Ascending cmp (x.inorder (TreeNode.inorder f)) → (∀ e ∈ x.keys.drop j, p e) → ∀ e ∈ v.right, p e

theorem put_inorder {e : ℕ} {y z : TreeNode α} (hw : w.Fits t leaf q) (a : ℕ)
    (h : w.y.inorder f ++ w.key :: w.z.inorder f = y.inorder f ++ e :: z.inorder f) :
    (w.put a w.key w.y w.z).inorder (TreeNode.inorder f) = (w.put a e y z).inorder (TreeNode.inorder f) := by
  rw [Around.put, Around.put, inorder_key hw.lefts, inorder_key hw.lefts, h]

theorem put_addrs {a e : ℕ} {y z : TreeNode α} (h : y.addrs g + z.addrs g = w.y.addrs g + w.z.addrs g) :
    (w.put a w.key w.y w.z).addrs (TreeNode.addrs g) = (w.put a e y z).addrs (TreeNode.addrs g) := by
  rw [Around.put, Around.put, addrs_key, addrs_key, h]

theorem join_inorder {c : TreeNode α} (hw : w.Fits t leaf q) (a : ℕ)
    (h : w.y.inorder f ++ w.key :: w.z.inorder f = c.inorder f) :
    (w.put a w.key w.y w.z).inorder (TreeNode.inorder f) = (w.join a c).inorder (TreeNode.inorder f) := by
  rw [Around.put, Around.join, inorder_key hw.lefts, inorder_kid hw.lefts, h]

theorem join_addrs {a k : ℕ} : (w.put a w.key w.y w.z).addrs (TreeNode.addrs g) =
    (w.join a (w.y.merge k w.z)).addrs (TreeNode.addrs g) + {w.z.addr} := by
  rw [Around.put, Around.join, addrs_key, addrs_kid, ← addrs_merge w.y w.z k g]
  abel

/-! ## What case 3 does -/

theorem around_keys (h : around m x = some w) : x.keys.take m = w.left ∧ x.keys.drop m = w.key :: w.right ∧
    x.keys.take (m + 1) = w.left ++ [w.key] ∧ x.keys.drop (m + 1) = w.right := by
  obtain ⟨heq, hl, -⟩ := around_eq h
  rw [heq]
  simp only [Around.put]
  subst hl
  refine ⟨List.take_left, List.drop_left, ?_, ?_⟩
  · rw [List.append_cons, List.take_left' (by simp)]
  · rw [List.append_cons, List.drop_left' (by simp)]

theorem ascending_around {cmp : ℕ → ℕ → ℤ} (hw : w.Fits t leaf q) {a : ℕ}
    (hs : Ascending cmp ((w.put a w.key w.y w.z).inorder (TreeNode.inorder f))) :
    (∀ e ∈ w.y.keys, cmp e w.key ≤ 0) ∧ ∀ e ∈ w.z.keys, cmp w.key e ≤ 0 := by
  rw [Around.put, inorder_key hw.lefts] at hs
  obtain ⟨-, hz, hy⟩ := List.pairwise_append.mp hs.left.right
  exact ⟨fun e he => hy e ((keys_sublist hw.y.branches f).mem he) _ List.mem_cons_self,
    fun e he => (List.pairwise_cons.mp hz).1 e ((keys_sublist hw.z.branches f).mem he)⟩

theorem within_merge (ht : 1 ≤ t) (hw : w.Fits t leaf q) (hy : w.y.keys.length = t - 1) (hz : w.z.keys.length = t - 1)
    (k : ℕ) : (w.y.merge k w.z).Within t t leaf q := by
  refine ⟨?_, ?_, branches_merge hw.y.branches hw.z.branches k, fun c hc => ?_⟩
  · simp only [TreeNode.merge, List.length_append, List.length_cons]
    omega
  · simp only [TreeNode.merge, List.length_append, List.length_cons]
    omega
  · exact (List.mem_append.mp hc).elim (hw.y.kids c) (hw.z.kids c)

theorem within_fromLeft (hw : w.Fits t leaf q) (hz : w.z.keys.length = t - 1) (hy : t ≤ w.y.keys.length) (ht : 2 ≤ t) :
    TreeNode.Within t (t - 1) leaf q ⟨w.y.addr, w.y.keys.dropLast, w.y.kids.dropLast⟩ ∧
      TreeNode.Within t t leaf q ⟨w.z.addr, w.key :: w.z.keys, w.y.kids.getLast?.toList ++ w.z.kids⟩ := by
  obtain ⟨-, hb, hb', -⟩ := cut_last hw.y.branches (List.ne_nil_of_length_pos (by omega)) w.z.addr
  have hhigh := hw.y.high
  refine ⟨⟨?_, ?_, hb, fun c hc => hw.y.kids c (List.mem_of_mem_dropLast hc)⟩,
    ⟨?_, ?_, branches_merge hb' hw.z.branches w.key, fun c hc => ?_⟩⟩
  · rw [List.length_dropLast]
    omega
  · rw [List.length_dropLast]
    omega
  · rw [List.length_cons, hz]
    omega
  · rw [List.length_cons, hz]
    omega
  · rcases List.mem_append.mp hc with hc | hc
    · exact hw.y.kids c (List.mem_of_getLast? (Option.mem_toList.mp hc))
    · exact hw.z.kids c hc

theorem within_fromRight (hw : w.Fits t leaf q) (hy : w.y.keys.length = t - 1) (hz : t ≤ w.z.keys.length) (ht : 2 ≤ t) :
    TreeNode.Within t t leaf q ⟨w.y.addr, w.y.keys ++ [w.key], w.y.kids ++ w.z.kids.take 1⟩ ∧
      TreeNode.Within t (t - 1) leaf q ⟨w.z.addr, w.z.keys.drop 1, w.z.kids.drop 1⟩ := by
  obtain ⟨-, hb, hb', -⟩ := cut_first hw.z.branches (List.ne_nil_of_length_pos (by omega))
  have hhigh := hw.z.high
  refine ⟨⟨?_, ?_, branches_merge hw.y.branches hb w.key, fun c hc => ?_⟩,
    ⟨?_, ?_, hb', fun c hc => hw.z.kids c (List.mem_of_mem_drop hc)⟩⟩
  · rw [List.length_append, List.length_singleton, hy]
    omega
  · rw [List.length_append, List.length_singleton, hy]
    omega
  · rcases List.mem_append.mp hc with hc | hc
    · exact hw.y.kids c hc
    · exact hw.z.kids c (List.mem_of_mem_take hc)
  · rw [List.length_drop]
    omega
  · rw [List.length_drop]
    omega

theorem fromLeft_inorder (hw : w.Fits t leaf q) (hne : w.y.keys ≠ []) (a : ℕ) (f : α → List ℕ) :
    (w.put a w.key w.y w.z).inorder (TreeNode.inorder f) = (w.fromLeft a).inorder (TreeNode.inorder f) := by
  obtain ⟨hcut, hb, hb', -⟩ := cut_last hw.y.branches hne w.z.addr
  have hrot := rotate_inorder hb hb' hw.z.branches (w.y.keys.getLastD 0) w.key f
  rw [← hcut] at hrot
  exact put_inorder hw a hrot

theorem fromLeft_addrs (hw : w.Fits t leaf q) (hne : w.y.keys ≠ []) (a : ℕ) (g : α → Multiset ℕ) :
    (w.put a w.key w.y w.z).addrs (TreeNode.addrs g) = (w.fromLeft a).addrs (TreeNode.addrs g) := by
  obtain ⟨hcut, -, -, -⟩ := cut_last hw.y.branches hne w.z.addr
  have hrot := rotate_addrs (y := ⟨w.y.addr, w.y.keys.dropLast, w.y.kids.dropLast⟩)
    (b := ⟨w.z.addr, [], w.y.kids.getLast?.toList⟩) (z := w.z) rfl (w.y.keys.getLastD 0) w.key g
  rw [← hcut] at hrot
  exact put_addrs hrot.symm

theorem fromRight_inorder (hw : w.Fits t leaf q) (hne : w.z.keys ≠ []) (a : ℕ) (f : α → List ℕ) :
    (w.put a w.key w.y w.z).inorder (TreeNode.inorder f) = (w.fromRight a).inorder (TreeNode.inorder f) := by
  obtain ⟨hcut, hb, hb', -⟩ := cut_first hw.z.branches hne
  have hrot := rotate_inorder hw.y.branches hb hb' w.key (w.z.keys.headD 0) f
  rw [← hcut] at hrot
  exact put_inorder hw a hrot.symm

theorem fromRight_addrs (hw : w.Fits t leaf q) (hne : w.z.keys ≠ []) (a : ℕ) (g : α → Multiset ℕ) :
    (w.put a w.key w.y w.z).addrs (TreeNode.addrs g) = (w.fromRight a).addrs (TreeNode.addrs g) := by
  obtain ⟨hcut, -, -, -⟩ := cut_first hw.z.branches hne
  have hrot := rotate_addrs (y := w.y) (b := ⟨w.z.addr, [], w.z.kids.take 1⟩)
    (z := ⟨w.z.addr, w.z.keys.drop 1, w.z.kids.drop 1⟩) rfl w.key (w.z.keys.headD 0) g
  rw [← hcut] at hrot
  exact put_addrs hrot

theorem put_length (a e : ℕ) (y z : TreeNode α) : (w.put a e y z).keys.length = w.left.length + w.right.length + 1 := by
  simp only [Around.put, List.length_append, List.length_cons]
  omega

theorem fromLeft_prepared (ht : 2 ≤ t) (hw : w.Fits t leaf q) (hx : x = w.put x.addr w.key w.y w.z)
    (hl : aroundLeft j x = some w) (hz : w.z.keys.length = t - 1) (hy : t ≤ w.y.keys.length) :
    ∃ v : Cut α, (w.fromLeft x.addr, j) = (v.put x.addr v.child, v.kidsLeft.length) ∧ Prepared t j leaf q x v := by
  obtain ⟨hj, hl⟩ := aroundLeft_eq hl
  obtain ⟨-, hlen, hlen'⟩ := around_eq hl
  obtain ⟨-, -, htake, hdrop⟩ := around_keys hl
  rw [Nat.sub_add_cancel hj] at htake hdrop
  have hkeys : x.keys.length = w.left.length + w.right.length + 1 := by
    rw [hx]
    exact put_length ..
  have hne : w.y.keys ≠ [] := List.ne_nil_of_length_pos (by omega)
  obtain ⟨hy', hz'⟩ := within_fromLeft hw hz hy ht
  have hput : w.fromLeft x.addr = ⟨x.addr, (w.left ++ [w.y.keys.getLastD 0]) ++ w.right,
      (w.kidsLeft ++ [⟨w.y.addr, w.y.keys.dropLast, w.y.kids.dropLast⟩]) ++
        ⟨w.z.addr, w.key :: w.z.keys, w.y.kids.getLast?.toList ++ w.z.kids⟩ :: w.kidsRight⟩ := by
    rw [← List.append_cons, ← List.append_cons]
    rfl
  refine ⟨⟨w.left ++ [w.y.keys.getLastD 0], w.right, w.kidsLeft ++ [⟨w.y.addr, w.y.keys.dropLast, w.y.kids.dropLast⟩],
    ⟨w.z.addr, w.key :: w.z.keys, w.y.kids.getLast?.toList ++ w.z.kids⟩, w.kidsRight⟩, ?_, ?_⟩
  · rw [Prod.mk.injEq, List.length_append, List.length_singleton]
    exact ⟨hput, by omega⟩
  refine ⟨?_, hw.rights, hz', fun c hc => ?_, ?_, ?_, ?_, ?_, fun f => ?_, fun g => ⟨0, ?_⟩, fun f hp hs hall e he => ?_,
    fun f _ _ hall e he => hall e (hdrop ▸ he)⟩
  · rw [List.length_append, List.length_append, hw.lefts]
    rfl
  · rcases hc with hc | hc
    · rcases List.mem_append.mp hc with hc | hc
      · exact hw.rest c (Or.inl hc)
      · rw [List.mem_singleton.mp hc]
        exact hy'
    · exact hw.rest c (Or.inr hc)
  · rw [List.length_append, List.length_singleton]
    dsimp only
    omega
  · rw [List.length_append, List.length_singleton]
    dsimp only
    omega
  · rw [List.length_append, List.length_singleton]
    omega
  · dsimp only
    omega
  · conv_lhs => rw [hx]
    rw [fromLeft_inorder hw hne, hput]
    rfl
  · conv_lhs => rw [hx]
    rw [fromLeft_addrs hw hne, hput, add_zero]
    rfl
  · rw [htake] at hall
    rcases List.mem_append.mp he with he | he
    · exact hall e (List.mem_append_left _ he)
    · rw [List.mem_singleton.mp he]
      rw [hx] at hs
      obtain ⟨-, -, -, hmem⟩ := cut_last hw.y.branches hne 0
      exact hp _ _ ((ascending_around hw hs).1 _ hmem) (hall _ (by simp))

theorem fromRight_prepared (ht : 2 ≤ t) (hw : w.Fits t leaf q) (hx : x = w.put x.addr w.key w.y w.z)
    (hr : around j x = some w) (hy : w.y.keys.length = t - 1) (hz : t ≤ w.z.keys.length) :
    ∃ v : Cut α, (w.fromRight x.addr, j) = (v.put x.addr v.child, v.kidsLeft.length) ∧ Prepared t j leaf q x v := by
  obtain ⟨-, hlen, hlen'⟩ := around_eq hr
  obtain ⟨htake, hdrop, -, -⟩ := around_keys hr
  have hkeys : x.keys.length = w.left.length + w.right.length + 1 := by
    rw [hx]
    exact put_length ..
  have hne : w.z.keys ≠ [] := List.ne_nil_of_length_pos (by omega)
  obtain ⟨hy', hz'⟩ := within_fromRight hw hy hz ht
  refine ⟨⟨w.left, w.z.keys.headD 0 :: w.right, w.kidsLeft, ⟨w.y.addr, w.y.keys ++ [w.key], w.y.kids ++ w.z.kids.take 1⟩,
    ⟨w.z.addr, w.z.keys.drop 1, w.z.kids.drop 1⟩ :: w.kidsRight⟩, ?_, ?_⟩
  · rw [Prod.mk.injEq]
    exact ⟨rfl, hlen'.symm⟩
  refine ⟨hw.lefts, ?_, hy', fun c hc => ?_, ?_, ?_, hlen.le, ?_, fun f => ?_, fun g => ⟨0, ?_⟩,
    fun f _ _ hall e he => hall e (htake ▸ he), fun f hp hs hall e he => ?_⟩
  · rw [List.length_cons, List.length_cons, hw.rights]
  · rcases hc with hc | hc
    · exact hw.rest c (Or.inl hc)
    · rcases List.mem_cons.mp hc with rfl | hc
      · exact hz'
      · exact hw.rest c (Or.inr hc)
  · rw [List.length_cons]
    dsimp only
    omega
  · rw [List.length_cons]
    dsimp only
    omega
  · rw [List.length_cons]
    omega
  · conv_lhs => rw [hx]
    exact fromRight_inorder hw hne x.addr f
  · conv_lhs => rw [hx]
    rw [fromRight_addrs hw hne, add_zero]
    rfl
  · rw [hdrop] at hall
    rcases List.mem_cons.mp he with rfl | he
    · rw [hx] at hs
      obtain ⟨-, -, -, hmem⟩ := cut_first hw.z.branches hne
      exact hp _ _ ((ascending_around hw hs).2 _ hmem) (hall _ List.mem_cons_self)
    · exact hall e (List.mem_cons_of_mem _ he)

theorem merge_prepared (ht : 2 ≤ t) (hw : w.Fits t leaf q) (hx : x = w.put x.addr w.key w.y w.z)
    (hy : w.y.keys.length = t - 1) (hz : w.z.keys.length = t - 1) (hleft : ∀ e ∈ w.left, e ∈ x.keys.take j)
    (hright : ∀ e ∈ w.right, e ∈ x.keys.drop j) (hl : w.left.length ≤ j) (hr : w.right.length ≤ x.keys.length - j) :
    Prepared t j leaf q x ⟨w.left, w.right, w.kidsLeft, w.y.merge w.key w.z, w.kidsRight⟩ := by
  have hkeys : x.keys.length = w.left.length + w.right.length + 1 := by
    rw [hx]
    exact put_length ..
  refine ⟨hw.lefts, hw.rights, within_merge (by omega) hw hy hz w.key, hw.rest, hkeys.le, ?_, hl, hr, fun f => ?_,
    fun g => ⟨{w.z.addr}, ?_⟩, fun f _ _ hall e he => hall e (hleft e he), fun f _ _ hall e he => hall e (hright e he)⟩
  · dsimp only
    omega
  · conv_lhs => rw [hx]
    exact join_inorder hw x.addr (inorder_merge hw.y.branches hw.z.branches w.key f).symm
  · conv_lhs => rw [hx]
    exact join_addrs

theorem prepare_spec (ht : 2 ≤ t) (hx : x.Within t m false (TreeNode.Within t (t - 1) leaf q)) (hne : x.keys ≠ [])
    (hj : j ≤ x.keys.length) :
    ∃ v : Cut α, prepare t j x = (v.put x.addr v.child, v.kidsLeft.length) ∧ Prepared t j leaf q x v := by
  have hcase := prepare_cases hx hne hj
  generalize prepare t j x = res at hcase
  cases hcase with
  | @enough c hc h =>
    obtain ⟨hkids, hL⟩ := split_middle hc
    have hchild := hx.kids c (List.mem_of_getElem? hc)
    have hb : x.kids.length = x.keys.length + 1 := hx.branches
    have hl : (x.keys.take j).length = j := by
      rw [List.length_take]
      omega
    have hput : x = Cut.put ⟨x.keys.take j, x.keys.drop j, x.kids.take j, c, x.kids.drop (j + 1)⟩ x.addr c := by
      rw [Cut.put, ← hkids, List.take_append_drop]
    refine ⟨⟨x.keys.take j, x.keys.drop j, x.kids.take j, c, x.kids.drop (j + 1)⟩, ?_, ?_⟩
    · rw [← hput, hL]
    refine ⟨hL.trans hl.symm, ?_, ⟨h, hchild.high, hchild.branches, hchild.kids⟩, fun b hb => ?_, ?_, ?_, hl.le, ?_,
      fun f => ?_, fun g => ⟨0, ?_⟩, fun f _ _ hall => hall, fun f _ _ hall => hall⟩
    · rw [List.length_drop, List.length_drop]
      omega
    · exact hx.kids b (hb.elim List.mem_of_mem_take List.mem_of_mem_drop)
    · rw [hl, List.length_drop]
      omega
    · rw [hl, List.length_drop]
      omega
    · rw [List.length_drop]
    · rw [← hput]
    · rw [← hput, add_zero]
  | @fromLeft w hw hc h =>
    have hl := (aroundLeft_eq hw).2
    exact fromLeft_prepared ht (around_fits hx hl) (around_eq hl).1 hw hc h
  | @fromRight w hl hw hc h => exact fromRight_prepared ht (around_fits hx hw) (around_eq hw).1 hw hc h
  | @mergeLeft w hw hc h hr =>
    obtain ⟨hj0, hl⟩ := aroundLeft_eq hw
    obtain ⟨heq, hlen, hlen'⟩ := around_eq hl
    obtain ⟨-, -, htake, hdrop⟩ := around_keys hl
    rw [Nat.sub_add_cancel hj0] at htake hdrop
    refine ⟨_, ?_, merge_prepared ht (around_fits hx hl) heq h hc (fun e he => ?_) (fun e he => hdrop ▸ he) (by omega)
      ?_⟩
    · rw [Prod.mk.injEq]
      exact ⟨rfl, hlen'.symm⟩
    · rw [htake]
      exact List.mem_append_left _ he
    · rw [← hdrop, List.length_drop]
  | @mergeRight w hl hw hc h =>
    obtain ⟨heq, hlen, hlen'⟩ := around_eq hw
    obtain ⟨htake, hdrop, -, -⟩ := around_keys hw
    refine ⟨_, ?_, merge_prepared ht (around_fits hx hw) heq hc h (fun e he => htake ▸ he) (fun e he => ?_) hlen.le ?_⟩
    · rw [Prod.mk.injEq]
      exact ⟨rfl, hlen'.symm⟩
    · rw [hdrop]
      exact List.mem_cons_of_mem _ he
    · have hlen := congrArg List.length hdrop
      rw [List.length_drop, List.length_cons] at hlen
      omega

end Facts

end PmemExamples.BTree
