import PmemExamples.BTree.Deletion

/-! # What deletion removes

A call that gets to the end has taken one key out of the tree, and keeps it a B-tree. Under a comparison the key
compares equal to `k`; other keys that do may have been replaced by `k` itself. -/

namespace PmemExamples.BTree
set_option autoImplicit false

section Facts
variable {α : Type} {t k m j s : ℕ} {cmp : ℕ → ℕ → ℤ} {leaf : Bool} {q : α → Prop} {x : TreeNode (TreeNode α)}
    {w : Around α}
  {f : α → List ℕ} {g : α → Multiset ℕ}

/-! ## One level -/

theorem pick_bounds (cmp : ℕ → ℕ → ℤ) (k s : ℕ) (leaf : Bool) (keys : List ℕ) :
    -1 ≤ (pick cmp k s leaf keys).1 ∧ (pick cmp k s leaf keys).1 < keys.length := by
  match s with
  | 0 => exact ⟨(kindex_bounds cmp k keys).1, (kindex_bounds cmp k keys).2.1⟩
  | 1 => exact ⟨by simp only [pick]; omega, by simp only [pick]; omega⟩
  | s + 2 => exact ⟨le_refl _, by simp only [pick]; omega⟩

/-- The child to go on with. -/
def descent (cmp : ℕ → ℕ → ℤ) (k s : ℕ) (keys : List ℕ) : ℕ := ((pick cmp k s false keys).1 + 1).toNat

theorem descent_le (cmp : ℕ → ℕ → ℤ) (k s : ℕ) (keys : List ℕ) : descent cmp k s keys ≤ keys.length := by
  obtain ⟨h, h'⟩ := pick_bounds cmp k s false keys
  unfold descent
  omega

/-- The case of a node that is no leaf. -/
inductive Removes (t : ℕ) (cmp : ℕ → ℕ → ℤ) (leaf : Bool) (q : α → Prop)
    (del : ℕ → ℕ → TreeNode α → Option (ℕ × TreeNode α)) (k s : ℕ) (x : TreeNode (TreeNode α)) :
    Option (ℕ × TreeNode (TreeNode α)) → Prop
  | before {w : Around α} (hw : hit cmp k s x = some w) (h : t ≤ w.y.keys.length) :
      Removes t cmp leaf q del k s x ((del 0 1 w.y).map fun res => (w.key, w.put x.addr res.1 res.2 w.z))
  | behind {w : Around α} (hw : hit cmp k s x = some w) (hy : w.y.keys.length = t - 1) (h : t ≤ w.z.keys.length) :
      Removes t cmp leaf q del k s x ((del 0 2 w.z).map fun res => (w.key, w.put x.addr res.1 w.y res.2))
  | between {w : Around α} (hw : hit cmp k s x = some w) (hy : w.y.keys.length = t - 1) (hz : w.z.keys.length = t - 1) :
      Removes t cmp leaf q del k s x ((del k s (w.y.merge k w.z)).map fun res => (res.1, w.join x.addr res.2))
  | below {v : Cut α} (hw : hit cmp k s x = none)
      (hv : prepare t (descent cmp k s x.keys) x = (v.put x.addr v.child, v.kidsLeft.length))
      (h : Prepared t (descent cmp k s x.keys) leaf q x v) :
      Removes t cmp leaf q del k s x ((del k s v.child).map fun res => (res.1, v.put x.addr res.2))

theorem hit_around (hw : hit cmp k s x = some w) : around (pick cmp k s false x.keys).1.toNat x = some w := by
  rw [hit] at hw
  split at hw
  · exact hw
  · cases hw

theorem removeInner_cases (ht : 2 ≤ t) (hx : x.Within t m false (TreeNode.Within t (t - 1) leaf q)) (hne : x.keys ≠ [])
    (del : ℕ → ℕ → TreeNode α → Option (ℕ × TreeNode α)) (cmp : ℕ → ℕ → ℤ) (k s : ℕ) :
    Removes t cmp leaf q del k s x (removeInner t cmp del k s x) := by
  rw [removeInner]
  cases hw : hit cmp k s x with
  | some w =>
    have hfits := around_fits hx (hit_around hw)
    have hy := hfits.y.low
    have hz := hfits.z.low
    dsimp only
    by_cases h : t ≤ w.y.keys.length
    · rw [if_pos h]
      exact .before hw h
    rw [if_neg h]
    by_cases h' : t ≤ w.z.keys.length
    · rw [if_pos h']
      exact .behind hw (by omega) h'
    · rw [if_neg h']
      exact .between hw (by omega) (by omega)
  | none =>
    obtain ⟨v, hv, hprep⟩ := prepare_spec ht hx hne (descent_le cmp k s x.keys)
    have hget : (v.put x.addr v.child).kids[v.kidsLeft.length]? = some v.child := getElem?_middle rfl
    have hset : ∀ c, (v.put x.addr v.child).kids.set v.kidsLeft.length c = (v.put x.addr c).kids :=
      fun c => set_middle rfl c
    have hcase : Removes t cmp leaf q del k s x _ := .below hw hv hprep
    unfold descent at hv
    simp only [hv, hget, hset]
    exact hcase

/-! ## Sizes and addresses -/

/-- A node has lost a key, and maybe addresses. -/
structure Shrunk (t m : ℕ) (leaf : Bool) (q : α → Prop) (g : α → Multiset ℕ) (x x' : TreeNode α) : Prop where
  within : x'.Within t (m - 1) leaf q
  addrs : ∃ freed, x.addrs g = x'.addrs g + freed

theorem removeLeaf_some {x x' : TreeNode α} {e : ℕ} (h : removeLeaf cmp k s x = some (e, x')) :
    ∃ l r, x.keys = l ++ e :: r ∧ x' = ⟨x.addr, l ++ r, x.kids⟩ ∧
      (l.length : ℤ) = if s = 2 then (pick cmp k s true x.keys).1 + 1 else (pick cmp k s true x.keys).1 := by
  rw [removeLeaf] at h
  generalize hi : (if s = 2 then (pick cmp k s true x.keys).1 + 1 else (pick cmp k s true x.keys).1) = i at h ⊢
  split at h
  · cases h
  split at h
  · next e' r hdrop =>
    cases h
    have hlen := congrArg List.length hdrop
    rw [List.length_drop, List.length_cons] at hlen
    refine ⟨x.keys.take i.toNat, r, ?_, rfl, ?_⟩
    · rw [← hdrop, List.take_append_drop]
    · rw [List.length_take]
      omega
  · cases h

theorem removeLeaf_shrunk {x x' : TreeNode α} {e : ℕ} (hx : x.Within t m true q)
    (h : removeLeaf cmp k s x = some (e, x')) (g : α → Multiset ℕ) : Shrunk t m true q g x x' := by
  obtain ⟨l, r, hkeys, rfl, -⟩ := removeLeaf_some h
  have hlow := hx.low
  have hhigh := hx.high
  rw [hkeys, List.length_append, List.length_cons] at hlow hhigh
  refine ⟨⟨?_, ?_, hx.branches, hx.kids⟩, 0, (add_zero _).symm⟩
  · rw [List.length_append]
    omega
  · rw [List.length_append]
    omega

theorem Prepared.shrunk {v : Cut α} (h : Prepared t j leaf q x v)
    (hx : x.Within t m false (TreeNode.Within t (t - 1) leaf q)) {c : TreeNode α} (hc : Shrunk t t leaf q g v.child c) :
    Shrunk t m false (TreeNode.Within t (t - 1) leaf q) (TreeNode.addrs g) x (v.put x.addr c) := by
  have hlow := hx.low
  have hhigh := hx.high
  have hkl := h.low
  have hkh := h.high
  obtain ⟨freed, hfreed⟩ := h.addrs g
  obtain ⟨freed', hfreed'⟩ := hc.addrs
  refine ⟨within_kid h.lefts h.rights hc.within h.rest (by omega) (by omega), freed' + freed, ?_⟩
  rw [hfreed, Cut.put, Cut.put, addrs_kid, addrs_kid, hfreed', ← add_assoc, ← add_assoc]

/-- A child that has lost a key, around another key or in place of both. -/
theorem shrunk_before (hw : around j x = some w) (hx : x.Within t m false (TreeNode.Within t (t - 1) leaf q))
    {c : TreeNode α} (hc : Shrunk t t leaf q g w.y c) (e : ℕ) :
    Shrunk t m false (TreeNode.Within t (t - 1) leaf q) (TreeNode.addrs g) x (w.put x.addr e c w.z) := by
  obtain ⟨heq, -, -⟩ := around_eq hw
  have hfits := around_fits hx hw
  have hlow := hx.low
  have hhigh := hx.high
  have hlen : x.keys.length = w.left.length + w.right.length + 1 := by
    rw [heq]
    exact put_length ..
  obtain ⟨hwithin, freed, hfreed⟩ := hc
  refine ⟨within_key hfits.lefts hfits.rights hwithin hfits.z hfits.rest (by omega) (by omega), freed, ?_⟩
  conv_lhs => rw [heq]
  rw [Around.put, Around.put, addrs_key, addrs_key, hfreed]
  abel

theorem shrunk_behind (hw : around j x = some w) (hx : x.Within t m false (TreeNode.Within t (t - 1) leaf q))
    {c : TreeNode α} (hc : Shrunk t t leaf q g w.z c) (e : ℕ) :
    Shrunk t m false (TreeNode.Within t (t - 1) leaf q) (TreeNode.addrs g) x (w.put x.addr e w.y c) := by
  obtain ⟨heq, -, -⟩ := around_eq hw
  have hfits := around_fits hx hw
  have hlow := hx.low
  have hhigh := hx.high
  have hlen : x.keys.length = w.left.length + w.right.length + 1 := by
    rw [heq]
    exact put_length ..
  obtain ⟨hwithin, freed, hfreed⟩ := hc
  refine ⟨within_key hfits.lefts hfits.rights hfits.y hwithin hfits.rest (by omega) (by omega), freed, ?_⟩
  conv_lhs => rw [heq]
  rw [Around.put, Around.put, addrs_key, addrs_key, hfreed]
  abel

theorem shrunk_between (hw : around j x = some w) (hx : x.Within t m false (TreeNode.Within t (t - 1) leaf q))
    {c : TreeNode α} {e : ℕ} (hc : Shrunk t t leaf q g (w.y.merge e w.z) c) :
    Shrunk t m false (TreeNode.Within t (t - 1) leaf q) (TreeNode.addrs g) x (w.join x.addr c) := by
  obtain ⟨heq, -, -⟩ := around_eq hw
  have hfits := around_fits hx hw
  have hlow := hx.low
  have hhigh := hx.high
  have hlen : x.keys.length = w.left.length + w.right.length + 1 := by
    rw [heq]
    exact put_length ..
  obtain ⟨hwithin, freed, hfreed⟩ := hc
  refine ⟨within_kid hfits.lefts hfits.rights hwithin hfits.rest (by omega) (by omega), freed + {w.z.addr}, ?_⟩
  conv_lhs => rw [heq]
  rw [join_addrs (k := e), Around.join, Around.join, addrs_kid, addrs_kid, hfreed]
  abel

theorem removeInner_shrunk (ht : 2 ≤ t) (hx : x.Within t m false (TreeNode.Within t (t - 1) leaf q)) (hne : x.keys ≠ [])
    {del : ℕ → ℕ → TreeNode α → Option (ℕ × TreeNode α)}
    (hdel : ∀ k s y e y', y.Within t t leaf q → del k s y = some (e, y') → Shrunk t t leaf q g y y') {e : ℕ}
    {x' : TreeNode (TreeNode α)} (h : removeInner t cmp del k s x = some (e, x')) :
    Shrunk t m false (TreeNode.Within t (t - 1) leaf q) (TreeNode.addrs g) x x' := by
  have hcase := removeInner_cases ht hx hne del cmp k s
  rw [h] at hcase
  generalize hres : some (e, x') = res at hcase
  cases hcase with
  | @before w hw hy =>
    obtain ⟨⟨e', y'⟩, hy', heq⟩ := Option.map_eq_some_iff.mp hres.symm
    cases heq
    have hfits := around_fits hx (hit_around hw)
    exact shrunk_before (hit_around hw) hx
      (hdel 0 1 w.y e' y' ⟨hy, hfits.y.high, hfits.y.branches, hfits.y.kids⟩ hy') e'
  | @behind w hw hy hz =>
    obtain ⟨⟨e', z'⟩, hz', heq⟩ := Option.map_eq_some_iff.mp hres.symm
    cases heq
    have hfits := around_fits hx (hit_around hw)
    exact shrunk_behind (hit_around hw) hx
      (hdel 0 2 w.z e' z' ⟨hz, hfits.z.high, hfits.z.branches, hfits.z.kids⟩ hz') e'
  | @between w hw hy hz =>
    obtain ⟨⟨e', c⟩, hc, heq⟩ := Option.map_eq_some_iff.mp hres.symm
    cases heq
    have hfits := around_fits hx (hit_around hw)
    exact shrunk_between (hit_around hw) hx (hdel k s _ e' c (within_merge (by omega) hfits hy hz k) hc)
  | @below v hw hv hprep =>
    obtain ⟨⟨e', c⟩, hc, heq⟩ := Option.map_eq_some_iff.mp hres.symm
    cases heq
    exact hprep.shrunk hx (hdel k s _ e' c hprep.child hc)

/-! ## The ends of a subtree -/

/-- `e` is gone from the end that `s` says. -/
def Ends (s e : ℕ) (keys keys' : List ℕ) : Prop := if s = 1 then keys = keys' ++ [e] else keys = e :: keys'

theorem hit_ends (hs : s = 1 ∨ s = 2) : hit cmp k s x = none := by
  rcases hs with rfl | rfl <;> exact if_neg (by simp [pick])

variable (cmp k) in
theorem removeLeaf_ends {x : TreeNode α} (hs : s = 1 ∨ s = 2) (hne : x.keys ≠ []) :
    ∃ e x', removeLeaf cmp k s x = some (e, x') ∧ Ends s e x.keys x'.keys := by
  rcases hs with rfl | rfl
  · obtain ⟨l, e, hkeys⟩ : ∃ l e, x.keys = l ++ [e] := ⟨_, _, (List.dropLast_append_getLast hne).symm⟩
    refine ⟨e, ⟨x.addr, l, x.kids⟩, ?_, hkeys⟩
    have hlen : ((x.keys.length : ℤ) - 1).toNat = l.length := by
      rw [hkeys, List.length_append, List.length_singleton]
      omega
    rw [removeLeaf]
    simp only [pick, show ¬ (1 : ℕ) = 2 by decide, if_false, hlen]
    rw [if_neg (by have := List.length_pos_iff.mpr hne; omega), hkeys]
    simp
  · obtain ⟨e, r, hkeys⟩ := List.exists_cons_of_ne_nil hne
    refine ⟨e, ⟨x.addr, r, x.kids⟩, ?_, hkeys⟩
    rw [removeLeaf]
    simp [pick, hkeys]

theorem removeInner_ends (ht : 2 ≤ t) (hx : x.Within t m false (TreeNode.Within t (t - 1) leaf q)) (hne : x.keys ≠ [])
    (hs : s = 1 ∨ s = 2) {del : ℕ → ℕ → TreeNode α → Option (ℕ × TreeNode α)}
    (hdel : ∀ y, y.Within t t leaf q → ∃ e y', del k s y = some (e, y') ∧ Ends s e (y.inorder f) (y'.inorder f)) :
    ∃ e x', removeInner t cmp del k s x = some (e, x') ∧
      Ends s e (x.inorder (TreeNode.inorder f)) (x'.inorder (TreeNode.inorder f)) := by
  have hcase := removeInner_cases ht hx hne del cmp k s
  generalize removeInner t cmp del k s x = res at hcase
  cases hcase with
  | before hw | behind hw | between hw =>
    rw [hit_ends hs] at hw
    cases hw
  | @below v hw hv hprep =>
    obtain ⟨e, c, hc, hends⟩ := hdel v.child hprep.child
    refine ⟨e, v.put x.addr c, by rw [hc]; rfl, ?_⟩
    have hl := hprep.left
    have hr := hprep.right
    have hll := hprep.lefts
    have hrr := hprep.rights
    rw [hprep.inorder, Cut.put, Cut.put, inorder_kid hll, inorder_kid hll]
    rcases hs with rfl | rfl
    · have hright : v.right = [] := by
        refine List.length_eq_zero_iff.mp ?_
        simp only [descent, pick] at hr
        omega
      have hkids : v.kidsRight = [] := List.length_eq_zero_iff.mp (by rw [hrr, hright]; rfl)
      have hends : v.child.inorder f = c.inorder f ++ [e] := hends
      rw [hright, hkids, hends]
      rw [Ends, if_pos rfl]
      simp
    · have hleft : v.left = [] := List.length_eq_zero_iff.mp (by simpa [descent, pick] using hl)
      have hkids : v.kidsLeft = [] := List.length_eq_zero_iff.mp (by rw [hll, hleft]; rfl)
      have hends : v.child.inorder f = e :: c.inorder f := hends
      rw [hleft, hkids, hends]
      rw [Ends, if_neg (by decide)]
      simp

/-! ## The key that is removed -/

/-- Some keys that are equal to `k` have become `k`. -/
def Rewritten (cmp : ℕ → ℕ → ℤ) (k : ℕ) : List ℕ → List ℕ → Prop := List.Forall₂ fun a b => a = b ∨ b = k ∧ cmp k a = 0

theorem Rewritten.refl (cmp : ℕ → ℕ → ℤ) (k : ℕ) (keys : List ℕ) : Rewritten cmp k keys keys :=
  List.forall₂_same.mpr fun _ _ => Or.inl rfl

theorem Rewritten.append {a b c d : List ℕ} (h : Rewritten cmp k a b) (h' : Rewritten cmp k c d) :
    Rewritten cmp k (a ++ c) (b ++ d) := List.rel_append h h'

theorem Rewritten.trans {a b c : List ℕ} (h : Rewritten cmp k a b) (h' : Rewritten cmp k b c) : Rewritten cmp k a c := by
  induction h generalizing c with
  | nil =>
    cases h'
    exact .nil
  | cons hab _ ih =>
    cases h' with
    | cons hbc hrest =>
      refine .cons ?_ (ih hrest)
      rcases hab with rfl | ⟨rfl, h0⟩
      · exact hbc
      · rcases hbc with rfl | ⟨rfl, -⟩ <;> exact Or.inr ⟨rfl, h0⟩

theorem Rewritten.stays {l r : List ℕ} {e : ℕ} (h : Rewritten cmp k (l ++ k :: r) (l ++ e :: r)) : e = k := by
  induction l with
  | nil =>
    cases h with
    | cons hke _ => exact hke.elim Eq.symm And.left
  | cons _ l ih =>
    cases h with
    | cons _ hrest => exact ih hrest

/-- `e` is gone, and `clean` says that no other key is. -/
def Removed (cmp : ℕ → ℕ → ℤ) (k : ℕ) (clean : Prop) (e : ℕ) (keys keys' : List ℕ) : Prop :=
  ∃ l r, Rewritten cmp k keys (l ++ e :: r) ∧ keys' = l ++ r ∧ cmp k e = 0 ∧ (clean ↔ keys = l ++ e :: r)

variable {clean : Prop} {e : ℕ} {keys keys' : List ℕ}

theorem Removed.of_clean {l r : List ℕ} (h0 : cmp k e = 0) : Removed cmp k True e (l ++ e :: r) (l ++ r) :=
  ⟨l, r, Rewritten.refl cmp k _, rfl, h0, by simp⟩

theorem Removed.within (h : Removed cmp k clean e keys keys') (a b : List ℕ) :
    Removed cmp k clean e (a ++ keys ++ b) (a ++ keys' ++ b) := by
  obtain ⟨l, r, hrew, rfl, h0, hclean⟩ := h
  refine ⟨a ++ l, r ++ b, ?_, by simp, h0, hclean.trans ?_⟩
  · have happ := ((Rewritten.refl cmp k a).append hrew).append (Rewritten.refl cmp k b)
    simpa using happ
  · rw [show a ++ l ++ e :: (r ++ b) = a ++ (l ++ e :: r) ++ b by simp, List.append_cancel_right_eq,
      List.append_cancel_left_eq]

theorem Ascending.replace (hcmp : Comparison cmp) {a b : List ℕ} {e₀ : ℕ} (hs : Ascending cmp (a ++ e₀ :: b))
    (h0 : cmp k e₀ = 0) : Ascending cmp (a ++ k :: b) := by
  obtain ⟨ha, hb, hab⟩ := List.pairwise_append.mp hs
  obtain ⟨hb₀, hb⟩ := List.pairwise_cons.mp hb
  refine List.pairwise_append.mpr ⟨ha, List.pairwise_cons.mpr ⟨fun e he => ?_, hb⟩, fun e he e' he' => ?_⟩
  · exact hcmp.behind_ge k e₀ e (hb₀ e he) h0.le
  · rcases List.mem_cons.mp he' with rfl | he'
    · exact (hcmp.le_swap e e').mpr (hcmp.before_le e' e e₀ (hab e he e₀ List.mem_cons_self) h0.ge)
    · exact hab e he e' (List.mem_cons_of_mem _ he')

theorem Removed.swap {a b : List ℕ} {e₀ : ℕ} (h0 : cmp k e₀ = 0) (h : Removed cmp k clean e (a ++ k :: b) keys') :
    Removed cmp k (e₀ = k ∧ clean) e (a ++ e₀ :: b) keys' := by
  obtain ⟨l, r, hrew, rfl, he, hclean⟩ := h
  have hfirst : Rewritten cmp k (a ++ e₀ :: b) (a ++ k :: b) :=
    (Rewritten.refl cmp k a).append (.cons (Or.inr ⟨rfl, h0⟩) (Rewritten.refl cmp k b))
  refine ⟨l, r, hfirst.trans hrew, rfl, he, ?_⟩
  constructor
  · rintro ⟨rfl, hc⟩
    exact hclean.mp hc
  · intro heq
    rw [← heq] at hrew
    obtain rfl := hrew.stays
    exact ⟨rfl, hclean.mpr heq⟩

/-! ### Where `k` is -/

theorem hit_zero (hcmp : Comparison cmp) (hs : Ascending cmp x.keys) (hw : hit cmp k 0 x = some w) :
    cmp k w.key = 0 := by
  have hr : (kindex cmp k x.keys).2 = some 0 := by
    by_contra hne
    rw [hit, if_neg (by exact hne)] at hw
    cases hw
  obtain ⟨l, e, r, heq, hidx, h0⟩ := kindex_hit hcmp hs hr
  have hidx : (pick cmp k 0 false x.keys).1.toNat = l.length := by
    simp only [pick]
    omega
  obtain ⟨-, hdrop, -, -⟩ := around_keys (hit_around hw)
  rw [hidx, heq, List.drop_left] at hdrop
  obtain ⟨rfl, -⟩ := List.cons_eq_cons.mp hdrop
  exact h0

theorem hit_none (hcmp : Comparison cmp) (hs : Ascending cmp x.keys) (hb : x.kids.length = x.keys.length + 1)
    (hw : hit cmp k 0 x = none) : (∀ e ∈ x.keys.take (descent cmp k 0 x.keys), 0 < cmp k e) ∧
      ∀ e ∈ x.keys.drop (descent cmp k 0 x.keys), cmp k e < 0 := by
  refine kindex_miss hcmp hs fun hr => ?_
  obtain ⟨l, e, r, heq, hidx, -⟩ := kindex_hit hcmp hs hr
  have hlt : (pick cmp k 0 false x.keys).1.toNat < x.keys.length := by
    have hlen := congrArg List.length heq
    rw [List.length_append, List.length_cons] at hlen
    simp only [pick]
    omega
  obtain ⟨w, hsome⟩ := around_some hlt hb
  rw [hit, if_pos (by exact hr), hsome] at hw
  cases hw

theorem removeLeaf_removed {x : TreeNode α} (hcmp : Comparison cmp) (hs : Ascending cmp x.keys)
    (hk : ∃ e ∈ x.keys, cmp k e = 0) :
    ∃ e x', removeLeaf cmp k 0 x = some (e, x') ∧ Removed cmp k True e x.keys x'.keys := by
  have hr : (kindex cmp k x.keys).2 = some 0 := by
    by_contra hne
    obtain ⟨hleft, hright⟩ := kindex_miss hcmp hs hne
    obtain ⟨e, he, h0⟩ := hk
    rw [← List.take_append_drop (place cmp k x.keys) x.keys] at he
    rcases List.mem_append.mp he with he | he
    · have := hleft e he
      omega
    · have := hright e he
      omega
  obtain ⟨l, e, r, heq, hidx, h0⟩ := kindex_hit hcmp hs hr
  refine ⟨e, ⟨x.addr, l ++ r, x.kids⟩, ?_, ?_⟩
  · rw [removeLeaf]
    simp only [pick, hidx, show ¬ (0 : ℕ) = 2 by decide, if_false]
    rw [if_neg (by omega), heq, Int.toNat_natCast, List.drop_left, List.take_left]
  · rw [heq]
    exact Removed.of_clean h0

/-! ### Through the levels -/

/-- A deletion that finds a key equal to `k` between two minimal children finds `k` itself, and `clean` holds of the
two merged; one that finds none here goes on in a child, made larger where it is minimal, of which `clean` holds. -/
def cleanInner (t : ℕ) (cmp : ℕ → ℕ → ℤ) (clean : TreeNode α → Prop) (k : ℕ) (x : TreeNode (TreeNode α)) : Prop :=
  match hit cmp k 0 x with
  | some w => w.y.keys.length < t → w.z.keys.length < t → w.key = k ∧ clean (w.y.merge k w.z)
  | none => ∀ c, (prepare t (descent cmp k 0 x.keys) x).1.kids[(prepare t (descent cmp k 0 x.keys) x).2]? = some c →
    clean c

/-- On its way down the deletion meets no key that equals `k` and is another one, where it merges around it (case
2c, which writes `k` and not the key found). -/
def Clean (t : ℕ) (cmp : ℕ → ℕ → ℤ) : (d : ℕ) → ℕ → Tree d → Prop
  | 0, _, _ => True
  | d + 1, k, x => cleanInner t cmp (Clean t cmp d k) k x

theorem cleanInner_between {c : TreeNode α → Prop} (ht : 1 ≤ t) (hw : hit cmp k 0 x = some w)
    (hy : w.y.keys.length = t - 1)
    (hz : w.z.keys.length = t - 1) : cleanInner t cmp c k x ↔ w.key = k ∧ c (w.y.merge k w.z) := by
  simp only [cleanInner, hw, hy, hz, show t - 1 < t by omega, true_imp_iff]

theorem cleanInner_full {c : TreeNode α → Prop} (hw : hit cmp k 0 x = some w)
    (h : t ≤ w.y.keys.length ∨ t ≤ w.z.keys.length) : cleanInner t cmp c k x := by
  simp only [cleanInner, hw]
  intro hy hz
  omega

theorem cleanInner_below {c : TreeNode α → Prop} {v : Cut α} (hw : hit cmp k 0 x = none)
    (hv : prepare t (descent cmp k 0 x.keys) x = (v.put x.addr v.child, v.kidsLeft.length)) :
    cleanInner t cmp c k x ↔ c v.child := by
  have hget : (v.put x.addr v.child).kids[v.kidsLeft.length]? = some v.child := getElem?_middle rfl
  simp only [cleanInner, hw, hv, hget, Option.some.injEq, forall_eq']

theorem removeInner_removed {c : TreeNode α → Prop} (ht : 2 ≤ t) (hcmp : Comparison cmp)
    (hx : x.Within t m false (TreeNode.Within t (t - 1) leaf q)) (hne : x.keys ≠ [])
    (hs : Ascending cmp (x.inorder (TreeNode.inorder f))) (hk : ∃ e ∈ x.inorder (TreeNode.inorder f), cmp k e = 0)
    {del : ℕ → ℕ → TreeNode α → Option (ℕ × TreeNode α)}
    (hdel : ∀ y, y.Within t t leaf q → Ascending cmp (y.inorder f) → (∃ e ∈ y.inorder f, cmp k e = 0) →
      ∃ e y', del k 0 y = some (e, y') ∧ Removed cmp k (c y) e (y.inorder f) (y'.inorder f))
    (hends : ∀ s y, s = 1 ∨ s = 2 → y.Within t t leaf q →
      ∃ e y', del 0 s y = some (e, y') ∧ Ends s e (y.inorder f) (y'.inorder f)) :
    ∃ e x', removeInner t cmp del k 0 x = some (e, x') ∧
      Removed cmp k (cleanInner t cmp c k x) e (x.inorder (TreeNode.inorder f)) (x'.inorder (TreeNode.inorder f)) := by
  have hcase := removeInner_cases ht hx hne del cmp k 0
  have hkeys := ascending_keys hx.branches hs
  have hparts : ∀ {w}, hit cmp k 0 x = some w → w.Fits t leaf q ∧ cmp k w.key = 0 ∧ x.inorder (TreeNode.inorder f) =
      lefts w.left (w.kidsLeft.map (TreeNode.inorder f)) ++ (w.y.inorder f ++ w.key :: w.z.inorder f) ++
        rights w.right (w.kidsRight.map (TreeNode.inorder f)) := fun {w} hw => by
    have hfits := around_fits hx (hit_around hw)
    refine ⟨hfits, hit_zero hcmp hkeys hw, ?_⟩
    conv_lhs => rw [(around_eq (hit_around hw)).1]
    exact inorder_key hfits.lefts
  generalize removeInner t cmp del k 0 x = res at hcase
  cases hcase with
  | @before w hw hy =>
    obtain ⟨hfits, h0, hin⟩ := hparts hw
    obtain ⟨e, y', hy', hend⟩ := hends 1 w.y (Or.inl rfl) ⟨hy, hfits.y.high, hfits.y.branches, hfits.y.kids⟩
    refine ⟨w.key, w.put x.addr e y' w.z, by rw [hy']; rfl, ?_⟩
    have hend : w.y.inorder f = y'.inorder f ++ [e] := hend
    rw [hin, Around.put, inorder_key hfits.lefts, hend, iff_true_intro (cleanInner_full hw (Or.inl hy))]
    have hgone := (Removed.of_clean (l := y'.inorder f ++ [e]) (r := w.z.inorder f) h0).within
      (lefts w.left (w.kidsLeft.map (TreeNode.inorder f))) (rights w.right (w.kidsRight.map (TreeNode.inorder f)))
    rw [List.append_cons (y'.inorder f) e (w.z.inorder f)]
    exact hgone
  | @behind w hw hy hz =>
    obtain ⟨hfits, h0, hin⟩ := hparts hw
    obtain ⟨e, z', hz', hend⟩ := hends 2 w.z (Or.inr rfl) ⟨hz, hfits.z.high, hfits.z.branches, hfits.z.kids⟩
    refine ⟨w.key, w.put x.addr e w.y z', by rw [hz']; rfl, ?_⟩
    have hend : w.z.inorder f = e :: z'.inorder f := hend
    rw [hin, Around.put, inorder_key hfits.lefts, hend, iff_true_intro (cleanInner_full hw (Or.inr hz))]
    exact (Removed.of_clean h0).within _ _
  | @between w hw hy hz =>
    obtain ⟨hfits, h0, hin⟩ := hparts hw
    have hmerge := inorder_merge hfits.y.branches hfits.z.branches k f
    have hs' : Ascending cmp (w.y.inorder f ++ w.key :: w.z.inorder f) := by
      rw [hin] at hs
      exact hs.left.right
    obtain ⟨e, b, hb, hgone⟩ := hdel _ (within_merge (by omega) hfits hy hz k) (by
      rw [hmerge]
      exact hs'.replace hcmp h0) ⟨k, by rw [hmerge]; simp, hcmp.refl k⟩
    refine ⟨e, w.join x.addr b, by rw [hb]; rfl, ?_⟩
    rw [hmerge] at hgone
    rw [hin, Around.join, inorder_kid hfits.lefts, cleanInner_between (by omega) hw hy hz]
    exact (hgone.swap h0).within _ _
  | @below v hw hv hprep =>
    obtain ⟨hleft, hright⟩ := hit_none hcmp hkeys hx.branches hw
    have hll := hprep.lefts
    have hbelow := hprep.below f (hcmp.before_lt k) hs hleft
    have habove := hprep.above f (hcmp.behind_gt k) hs hright
    rw [hprep.inorder, Cut.put, inorder_kid hll] at hs hk ⊢
    have hl := lefts_all (hcmp.before_lt k) (by rw [List.length_map, hll]) hs.left.left hbelow
    have hr := rights_all (hcmp.behind_gt k) (by rw [List.length_map, hprep.rights]) hs.right habove
    obtain ⟨e₁, he₁, h₁⟩ := hk
    have hmem : e₁ ∈ v.child.inorder f := by
      rcases List.mem_append.mp he₁ with he₁ | he₁
      · refine (List.mem_append.mp he₁).resolve_left fun he₁ => ?_
        have := hl e₁ he₁
        omega
      · have := hr e₁ he₁
        omega
    obtain ⟨e, b, hb, hgone⟩ := hdel v.child hprep.child hs.left.right ⟨e₁, hmem, h₁⟩
    refine ⟨e, v.put x.addr b, by rw [hb]; rfl, ?_⟩
    rw [cleanInner_below hw hv, Cut.put, inorder_kid hll]
    exact hgone.within _ _

/-! ## All levels -/

theorem deleteKey_shrunk (ht : 2 ≤ t) (cmp : ℕ → ℕ → ℤ) :
    ∀ (d k s m e : ℕ) (x x' : Tree d), x.Within t m (d = 0) (Sized t d) →
    (d = 0 ∨ x.keys ≠ []) → deleteKey t cmp d k s x = some (e, x') → Shrunk t m (d = 0) (Sized t d) (addrs d) x x'
  | 0, _, _, _, _, _, _, hx, _, h => removeLeaf_shrunk hx h _
  | d + 1, _, _, _, _, _, _, hx, hne, h =>
    removeInner_shrunk ht hx (hne.resolve_left (Nat.succ_ne_zero d)) (fun k s y e y' hy hy' =>
      deleteKey_shrunk ht cmp d k s t e y y' hy (Or.inr (List.ne_nil_of_length_pos (lt_of_lt_of_le (by omega) hy.low)))
        hy') h

theorem deleteKey_ends (ht : 2 ≤ t) (cmp : ℕ → ℕ → ℤ) (hs : s = 1 ∨ s = 2) (k : ℕ) : ∀ (d m : ℕ) (x : Tree d),
    x.Within t m (d = 0) (Sized t d) → x.keys ≠ [] →
      ∃ e x', deleteKey t cmp d k s x = some (e, x') ∧ Ends s e (inorder (d + 1) x) (inorder (d + 1) x')
  | 0, _, x, _, hne => by
    obtain ⟨e, x', hx', hends⟩ := removeLeaf_ends k cmp hs hne
    refine ⟨e, x', hx', ?_⟩
    rwa [inorder_leaf, inorder_leaf]
  | d + 1, _, _, hx, hne =>
    removeInner_ends ht hx hne hs fun y hy =>
      deleteKey_ends ht cmp hs k d t y hy (List.ne_nil_of_length_pos (lt_of_lt_of_le (by omega) hy.low))

theorem deleteKey_removed (ht : 2 ≤ t) (hcmp : Comparison cmp) (k : ℕ) : ∀ (d m : ℕ) (x : Tree d),
    x.Within t m (d = 0) (Sized t d) → (d = 0 ∨ x.keys ≠ []) → Ascending cmp (inorder (d + 1) x) →
      (∃ e ∈ inorder (d + 1) x, cmp k e = 0) → ∃ e x', deleteKey t cmp d k 0 x = some (e, x') ∧
        Removed cmp k (Clean t cmp d k x) e (inorder (d + 1) x) (inorder (d + 1) x')
  | 0, _, x, _, _, hs, hk => by
    rw [inorder_leaf] at hs hk ⊢
    obtain ⟨e, x', hx', hgone⟩ := removeLeaf_removed hcmp hs hk
    exact ⟨e, x', hx', by rwa [inorder_leaf]⟩
  | d + 1, _, _, hx, hne, hs, hk =>
    have hpos : ∀ {y : Tree d}, y.Within t t (d = 0) (Sized t d) → y.keys ≠ [] :=
      fun hy => List.ne_nil_of_length_pos (lt_of_lt_of_le (by omega) hy.low)
    removeInner_removed ht hcmp hx (hne.resolve_left (Nat.succ_ne_zero d)) hs hk
      (fun y hy => deleteKey_removed ht hcmp k d t y hy (Or.inr (hpos hy)))
      (fun s y hs hy => deleteKey_ends ht cmp hs 0 d t y hy (hpos hy))

/-! ## The root -/

namespace AnyTree

def Clean (t : ℕ) (cmp : ℕ → ℕ → ℤ) (k : ℕ) (x : AnyTree) : Prop := BTree.Clean t cmp x.height k x.tree

end AnyTree

theorem collapse_spec (ht : 2 ≤ t) {d : ℕ} {x : Tree d} (hx : x.Within t 0 (d = 0) (Sized t d)) :
    (collapse ⟨d, x⟩).Sized t ∧ (collapse ⟨d, x⟩).inorder = inorder (d + 1) x ∧
      ∃ freed, addrs (d + 1) x = (collapse ⟨d, x⟩).addrs + freed := by
  cases d with
  | zero => exact ⟨hx, rfl, 0, (add_zero _).symm⟩
  | succ d =>
    obtain ⟨a, ks, cs⟩ := x
    have hb : cs.length = ks.length + 1 := hx.branches
    cases ks with
    | nil =>
      obtain ⟨c, rfl⟩ := List.length_eq_one_iff.mp hb
      have hc : c.Within t (t - 1) (d = 0) (Sized t d) := hx.kids c List.mem_cons_self
      refine ⟨hc.weaken ?_, ?_, {a}, ?_⟩
      · split <;> omega
      · simp [collapse, AnyTree.inorder, inorder_succ (d := d + 1), TreeNode.inorder, weave]
      · simp [collapse, AnyTree.addrs, addrs_succ (d := d + 1), TreeNode.addrs, add_comm]
    | cons e ks =>
      have hroot : RootSized t (d + 1) ⟨a, e :: ks, cs⟩ := ⟨by simp, hx.high, hx.branches, hx.kids⟩
      exact ⟨hroot, rfl, 0, (add_zero _).symm⟩

theorem collapse_height (x : AnyTree) : (collapse x).height ≤ x.height := by
  obtain ⟨d, x⟩ := x
  cases d with
  | zero => exact le_refl _
  | succ d =>
    rw [collapse]
    split
    · exact Nat.le_succ d
    · exact le_refl _

theorem RootSized.some_key {d : ℕ} {x : Tree d} (hx : RootSized t d x) : d = 0 ∨ x.keys ≠ [] := by
  refine or_iff_not_imp_left.mpr fun hd => ?_
  have hlow := hx.low
  rw [if_neg hd] at hlow
  exact List.ne_nil_of_length_pos hlow

theorem deleteRoot_sized (ht : 2 ≤ t) {x x' : AnyTree} (hx : x.Sized t) {cmp : ℕ → ℕ → ℤ} {k e : ℕ}
    (h : deleteRoot t cmp k x = some (e, x')) : x'.Sized t ∧ ∃ freed, x.addrs = x'.addrs + freed := by
  obtain ⟨⟨e', y⟩, hy, heq⟩ := Option.map_eq_some_iff.mp h
  cases heq
  obtain ⟨hwithin, freed, hfreed⟩ := deleteKey_shrunk ht cmp x.height k 0 _ e' x.tree y hx (RootSized.some_key hx) hy
  obtain ⟨hsized, -, freed', hfreed'⟩ := collapse_spec ht (hwithin.weaken (Nat.zero_le _))
  refine ⟨hsized, freed' + freed, ?_⟩
  rw [AnyTree.addrs, addrs_succ, hfreed, ← addrs_succ, hfreed', add_assoc]

theorem deleteRoot_removed (ht : 2 ≤ t) {x : AnyTree} (hx : x.Sized t) (hcmp : Comparison cmp)
    (hs : Ascending cmp x.inorder) (hk : ∃ e ∈ x.inorder, cmp k e = 0) :
    ∃ e x', deleteRoot t cmp k x = some (e, x') ∧ Removed cmp k (x.Clean t cmp k) e x.inorder x'.inorder := by
  obtain ⟨e, y, hy, hgone⟩ := deleteKey_removed ht hcmp k x.height _ x.tree hx (RootSized.some_key hx) hs hk
  obtain ⟨hwithin, -⟩ := deleteKey_shrunk ht cmp x.height k 0 _ e x.tree y hx (RootSized.some_key hx) hy
  obtain ⟨-, hin, -⟩ := collapse_spec ht (hwithin.weaken (Nat.zero_le _))
  refine ⟨e, collapse ⟨x.height, y⟩, by rw [deleteRoot, hy]; rfl, ?_⟩
  rw [hin]
  exact hgone

end Facts

end PmemExamples.BTree
