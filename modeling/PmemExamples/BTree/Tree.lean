import PmemExamples.BTree.Search

/-! # B-trees as values

A tree whose leaves are all `d` levels down, with the addresses of its nodes. What is said of a node and its
children alone is said for children of any kind; a recursion over the levels then puts it together. -/

namespace PmemExamples.BTree
set_option autoImplicit false

/-- A node: its address, its keys, and what hangs below it. -/
structure TreeNode (α : Type) where
  addr : ℕ
  keys : List ℕ
  kids : List α

/-- What hangs below a node that is `d` levels above the leaves. -/
@[reducible] def Below : ℕ → Type
  | 0 => Empty
  | d + 1 => TreeNode (Below d)

abbrev Tree (d : ℕ) : Type := TreeNode (Below d)

theorem Tree.kids_nil (T : Tree 0) : T.kids = [] := by
  cases h : T.kids with
  | nil => rfl
  | cons e _ => exact e.elim

/-! ## In order -/

section Weave
variable {ks l r : List ℕ} {cs L R : List (List ℕ)} {c : List ℕ} {k : ℕ}

/-- Each key with what is to the left of it, or to the right. -/
def lefts (ks : List ℕ) (cs : List (List ℕ)) : List ℕ := (List.zipWith (fun k c => c ++ [k]) ks cs).flatten
def rights (ks : List ℕ) (cs : List (List ℕ)) : List ℕ := (List.zipWith (fun k c => k :: c) ks cs).flatten

/-- The keys between what hangs below them. -/
def weave (ks : List ℕ) : List (List ℕ) → List ℕ
  | [] => ks
  | c :: cs => c ++ rights ks cs

@[simp] theorem lefts_nil : lefts [] [] = [] := rfl
@[simp] theorem rights_nil : rights [] [] = [] := rfl

@[simp] theorem lefts_cons : lefts (k :: ks) (c :: cs) = c ++ k :: lefts ks cs := by simp [lefts]

@[simp] theorem rights_cons : rights (k :: ks) (c :: cs) = k :: c ++ rights ks cs := by simp [rights]

theorem lefts_append (h : L.length = l.length) : lefts (l ++ r) (L ++ R) = lefts l L ++ lefts r R := by
  rw [lefts, List.zipWith_append h.symm, List.flatten_append]
  rfl

theorem rights_append (h : L.length = l.length) : rights (l ++ r) (L ++ R) = rights l L ++ rights r R := by
  rw [rights, List.zipWith_append h.symm, List.flatten_append]
  rfl

theorem weave_split (h : L.length = l.length) : weave (l ++ r) (L ++ c :: R) = lefts l L ++ c ++ rights r R := by
  induction l generalizing L with
  | nil =>
    obtain rfl := List.length_eq_zero_iff.mp h
    simp [weave]
  | cons k l ih =>
    obtain ⟨b, L, rfl⟩ := List.exists_cons_of_length_eq_add_one h
    have hrest := ih (L := L) (by simpa using h)
    cases L with
    | nil =>
      obtain rfl : l = [] := by simpa using h.symm
      simp [weave]
    | cons b' L =>
      simp only [List.cons_append, weave] at hrest ⊢
      rw [rights_cons, lefts_cons, List.cons_append, hrest]
      simp

theorem sublist_rights (h : cs.length = ks.length) : ks.Sublist (rights ks cs) := by
  induction ks generalizing cs with
  | nil => exact List.nil_sublist _
  | cons k ks ih =>
    obtain ⟨c, cs, rfl⟩ := List.exists_cons_of_length_eq_add_one h
    rw [rights_cons, List.cons_append]
    exact ((ih (by simpa using h)).trans (List.sublist_append_right _ _)).cons_cons k

theorem weave_merge {ks' : List ℕ} {cs' : List (List ℕ)} (h : cs.length = ks.length + 1)
    (h' : cs'.length = ks'.length + 1) : weave (ks ++ k :: ks') (cs ++ cs') = weave ks cs ++ k :: weave ks' cs' := by
  obtain ⟨L, c, rfl⟩ : ∃ L c, cs = L ++ [c] := by
    refine ⟨cs.dropLast, cs.getLast (by rintro rfl; simp at h), (List.dropLast_append_getLast _).symm⟩
  obtain ⟨c', R, rfl⟩ := List.exists_cons_of_length_eq_add_one h'
  have hL : L.length = ks.length := by simpa using h
  have hfirst : weave ks (L ++ [c]) = lefts ks L ++ c := by
    have hsplit := weave_split (r := []) (R := []) (c := c) hL
    rw [List.append_nil, rights_nil, List.append_nil] at hsplit
    exact hsplit
  rw [List.append_assoc, List.singleton_append, weave_split hL, rights_cons, hfirst, weave]
  simp

variable {cmp : ℕ → ℕ → ℤ} {e : ℕ}

theorem Ascending.left {a b : List ℕ} (h : Ascending cmp (a ++ b)) : Ascending cmp a := (List.pairwise_append.mp h).1

theorem Ascending.right {a b : List ℕ} (h : Ascending cmp (a ++ b)) : Ascending cmp b := (List.pairwise_append.mp h).2.1

/-- What holds of some keys, and of all that is before them in order, holds to their left. -/
theorem lefts_all {p : ℕ → Prop} (hp : ∀ a b, cmp a b ≤ 0 → p b → p a) (hlen : cs.length = ks.length)
    (h : Ascending cmp (lefts ks cs)) (hk : ∀ e ∈ ks, p e) : ∀ e ∈ lefts ks cs, p e := by
  induction ks generalizing cs with
  | nil =>
    obtain rfl := List.length_eq_zero_iff.mp hlen
    simp
  | cons e₁ ks ih =>
    obtain ⟨c, cs, rfl⟩ := List.exists_cons_of_length_eq_add_one hlen
    rw [lefts_cons] at h ⊢
    obtain ⟨-, hrest, hbefore⟩ := List.pairwise_append.mp h
    intro e he
    rcases List.mem_append.mp he with he | he
    · exact hp e e₁ (hbefore e he e₁ List.mem_cons_self) (hk e₁ List.mem_cons_self)
    · rcases List.mem_cons.mp he with rfl | he
      · exact hk e List.mem_cons_self
      · exact ih (by simpa using hlen) (List.pairwise_cons.mp hrest).2 (fun a ha => hk a (List.mem_cons_of_mem _ ha)) e
          he

theorem rights_all {p : ℕ → Prop} (hp : ∀ a b, cmp a b ≤ 0 → p a → p b) (hlen : cs.length = ks.length)
    (h : Ascending cmp (rights ks cs)) (hk : ∀ e ∈ ks, p e) : ∀ e ∈ rights ks cs, p e := by
  induction ks generalizing cs with
  | nil =>
    obtain rfl := List.length_eq_zero_iff.mp hlen
    simp
  | cons e₁ ks ih =>
    obtain ⟨c, cs, rfl⟩ := List.exists_cons_of_length_eq_add_one hlen
    rw [rights_cons, List.cons_append] at h ⊢
    obtain ⟨hbehind, hrest⟩ := List.pairwise_cons.mp h
    intro e he
    rcases List.mem_cons.mp he with rfl | he
    · exact hk e List.mem_cons_self
    rcases List.mem_append.mp he with hec | her
    · exact hp e₁ e (hbehind e he) (hk e₁ List.mem_cons_self)
    · exact ih (by simpa using hlen) (Ascending.right hrest) (fun a ha => hk a (List.mem_cons_of_mem _ ha)) e her

end Weave

/-! ## Nodes -/

section Node
variable {α : Type}

/-- The keys of a node and of what hangs below it, and the addresses. -/
def TreeNode.inorder (f : α → List ℕ) (x : TreeNode α) : List ℕ := weave x.keys (x.kids.map f)
def TreeNode.addrs (f : α → Multiset ℕ) (x : TreeNode α) : Multiset ℕ := {x.addr} + (x.kids.map f).sum

/-- As many children as a node of this kind has. -/
def TreeNode.Branches (leaf : Bool) (x : TreeNode α) : Prop := x.kids.length = if leaf then 0 else x.keys.length + 1

/-- A node with at least `m` and at most `2 * t - 1` keys, and one child more unless it is a leaf; the children
are as `q` says. -/
structure TreeNode.Within (t m : ℕ) (leaf : Bool) (q : α → Prop) (x : TreeNode α) : Prop where
  low : m ≤ x.keys.length
  high : x.keys.length ≤ 2 * t - 1
  branches : x.Branches leaf
  kids : ∀ c ∈ x.kids, q c

theorem TreeNode.Within.weaken {t m m' : ℕ} {leaf : Bool} {q : α → Prop} {x : TreeNode α} (h : x.Within t m leaf q)
    (hm : m' ≤ m) : x.Within t m' leaf q := ⟨hm.trans h.low, h.high, h.branches, h.kids⟩

theorem within_kid {t m a : ℕ} {q : α → Prop} {l r : List ℕ} {L R : List α} {c : α} (hL : L.length = l.length)
    (hR : R.length = r.length) (hc : q c) (hrest : ∀ b, b ∈ L ∨ b ∈ R → q b) (hlow : m ≤ l.length + r.length)
    (hhigh : l.length + r.length ≤ 2 * t - 1) : TreeNode.Within t m false q ⟨a, l ++ r, L ++ c :: R⟩ := by
  refine ⟨?_, ?_, ?_, fun b hb => ?_⟩
  · rwa [List.length_append]
  · rwa [List.length_append]
  · simp only [TreeNode.Branches, List.length_append, List.length_cons, Bool.false_eq_true, if_false]
    omega
  · rcases List.mem_append.mp hb with hb | hb
    · exact hrest b (Or.inl hb)
    · rcases List.mem_cons.mp hb with rfl | hb
      · exact hc
      · exact hrest b (Or.inr hb)

theorem within_key {t m a e : ℕ} {q : α → Prop} {l r : List ℕ} {L R : List α} {y z : α} (hL : L.length = l.length)
    (hR : R.length = r.length) (hy : q y) (hz : q z) (hrest : ∀ b, b ∈ L ∨ b ∈ R → q b)
    (hlow : m ≤ l.length + r.length + 1)
    (hhigh : l.length + r.length + 1 ≤ 2 * t - 1) : TreeNode.Within t m false q ⟨a, l ++ e :: r, L ++ y :: z :: R⟩ := by
  refine within_kid hL ?_ hy (fun b hb => ?_) ?_ ?_
  · rw [List.length_cons, List.length_cons, hR]
  · rcases hb with hb | hb
    · exact hrest b (Or.inl hb)
    · rcases List.mem_cons.mp hb with rfl | hb
      · exact hz
      · exact hrest b (Or.inr hb)
  · rw [List.length_cons]
    omega
  · rw [List.length_cons]
    omega

/-- A node seen from one of its children, and from a key and the two children around it. -/
theorem inorder_kid {f : α → List ℕ} {a : ℕ} {l r : List ℕ} {L R : List α} {c : α} (h : L.length = l.length) :
    TreeNode.inorder f ⟨a, l ++ r, L ++ c :: R⟩ = lefts l (L.map f) ++ f c ++ rights r (R.map f) := by
  rw [TreeNode.inorder, List.map_append, List.map_cons]
  exact weave_split (by rw [List.length_map, h])

theorem inorder_key {f : α → List ℕ} {a e : ℕ} {l r : List ℕ} {L R : List α} {y z : α} (h : L.length = l.length) :
    TreeNode.inorder f ⟨a, l ++ e :: r, L ++ y :: z :: R⟩ =
      lefts l (L.map f) ++ (f y ++ e :: f z) ++ rights r (R.map f) := by
  rw [inorder_kid h, List.map_cons, rights_cons]
  simp

/-- Two nodes of a level and a key between them, put together. -/
def TreeNode.merge (y : TreeNode α) (k : ℕ) (z : TreeNode α) : TreeNode α :=
    ⟨y.addr, y.keys ++ k :: z.keys, y.kids ++ z.kids⟩

theorem inorder_merge {leaf : Bool} {y z : TreeNode α} (h : y.Branches leaf) (h' : z.Branches leaf) (k : ℕ)
    (f : α → List ℕ) : (y.merge k z).inorder f = y.inorder f ++ k :: z.inorder f := by
  obtain ⟨a, ks, cs⟩ := y
  obtain ⟨b, ks', cs'⟩ := z
  cases leaf with
  | true =>
    obtain rfl : cs = [] := List.length_eq_zero_iff.mp h
    obtain rfl : cs' = [] := List.length_eq_zero_iff.mp h'
    rfl
  | false =>
    have hlen : (cs.map f).length = ks.length + 1 := by
      rw [List.length_map]
      exact h
    have hlen' : (cs'.map f).length = ks'.length + 1 := by
      rw [List.length_map]
      exact h'
    rw [TreeNode.inorder, TreeNode.merge, List.map_append]
    exact weave_merge hlen hlen'

theorem branches_merge {leaf : Bool} {y z : TreeNode α} (h : y.Branches leaf) (h' : z.Branches leaf) (k : ℕ) :
    (y.merge k z).Branches leaf := by
  simp only [TreeNode.Branches, TreeNode.merge, List.length_append, List.length_cons] at h h' ⊢
  rw [h, h']
  cases leaf with
  | true => rfl
  | false =>
    simp only [Bool.false_eq_true, if_false]
    omega

theorem addrs_merge (y z : TreeNode α) (k : ℕ) (g : α → Multiset ℕ) :
    (y.merge k z).addrs g + {z.addr} = y.addrs g + z.addrs g := by
  simp only [TreeNode.addrs, TreeNode.merge, List.map_append, List.sum_append]
  abel

theorem keys_sublist {leaf : Bool} {x : TreeNode α} (hb : x.Branches leaf) (f : α → List ℕ) :
    x.keys.Sublist (x.inorder f) := by
  obtain ⟨a, ks, cs⟩ := x
  cases leaf with
  | true =>
    obtain rfl : cs = [] := List.length_eq_zero_iff.mp hb
    exact List.Sublist.refl _
  | false =>
    obtain ⟨c, cs, rfl⟩ := List.exists_cons_of_length_eq_add_one (show cs.length = ks.length + 1 from hb)
    have hlen : (cs.map f).length = ks.length := by
      rw [List.length_map]
      simpa [TreeNode.Branches] using hb
    exact (sublist_rights hlen).trans (List.sublist_append_right (f c) _)

theorem addrs_kid {g : α → Multiset ℕ} {a : ℕ} {ks : List ℕ} {L R : List α} {c : α} :
    TreeNode.addrs g ⟨a, ks, L ++ c :: R⟩ = {a} + (L.map g).sum + (R.map g).sum + g c := by
  simp only [TreeNode.addrs, List.map_append, List.map_cons, List.sum_append, List.sum_cons]
  abel

theorem addrs_key {g : α → Multiset ℕ} {a : ℕ} {ks : List ℕ} {L R : List α} {y z : α} :
    TreeNode.addrs g ⟨a, ks, L ++ y :: z :: R⟩ = {a} + (L.map g).sum + (R.map g).sum + (g y + g z) := by
  rw [addrs_kid, List.map_cons, List.sum_cons]
  abel

end Node

/-- The keys in order. -/
def inorder : (d : ℕ) → Below d → List ℕ
  | 0, e => nomatch e
  | d + 1, x => TreeNode.inorder (inorder d) x

/-- The addresses of the nodes. -/
def addrs : (d : ℕ) → Below d → Multiset ℕ
  | 0, e => nomatch e
  | d + 1, x => TreeNode.addrs (addrs d) x

/-- The nodes below the root have between `t - 1` and `2 * t - 1` keys. -/
def Sized (t : ℕ) : (d : ℕ) → Below d → Prop
  | 0, e => nomatch e
  | d + 1, x => TreeNode.Within t (t - 1) (d = 0) (Sized t d) x

/-- The root has at most `2 * t - 1`, and at least one if it is no leaf. -/
def RootSized (t d : ℕ) (x : Tree d) : Prop := x.Within t (if d = 0 then 0 else 1) (d = 0) (Sized t d)

theorem inorder_succ {d : ℕ} (x : Tree d) : inorder (d + 1) x = x.inorder (inorder d) := rfl
theorem addrs_succ {d : ℕ} (x : Tree d) : addrs (d + 1) x = x.addrs (addrs d) := rfl

theorem inorder_leaf (x : Tree 0) : inorder 1 x = x.keys := by
  rw [inorder_succ, TreeNode.inorder, Tree.kids_nil x]
  rfl

theorem addrs_leaf (x : Tree 0) : addrs 1 x = {x.addr} := by
  rw [addrs_succ, TreeNode.addrs, Tree.kids_nil x]
  rfl

/-- A tree of some height. -/
structure AnyTree where
  height : ℕ
  tree : Tree height

namespace AnyTree

def inorder (x : AnyTree) : List ℕ := BTree.inorder (x.height + 1) x.tree
def addrs (x : AnyTree) : Multiset ℕ := BTree.addrs (x.height + 1) x.tree
def Sized (t : ℕ) (x : AnyTree) : Prop := RootSized t x.height x.tree

end AnyTree

/-! ## Parts of a list -/

section Parts
variable {β : Type} {xs L R : List β} {m : ℕ} {y : β}

theorem getElem?_middle (h : L.length = m) : (L ++ y :: R)[m]? = some y := by
  rw [← h]
  simp

theorem set_middle (h : L.length = m) (c : β) : (L ++ y :: R).set m c = L ++ c :: R := by
  rw [← h]
  simp

theorem split_middle (h : xs[m]? = some y) : xs = xs.take m ++ y :: xs.drop (m + 1) ∧ (xs.take m).length = m := by
  obtain ⟨hm, rfl⟩ := List.getElem?_eq_some_iff.mp h
  refine ⟨?_, by rw [List.length_take]; omega⟩
  rw [List.getElem_cons_drop, List.take_append_drop]

end Parts

end PmemExamples.BTree
