import PmemExamples.BTree.Bags

/-! # `bt_checktree`

The check descends to the null pointers of the leaves and compares two neighbouring keys at each. A root without keys is
the one node in which it looks at a slot that is not in use. -/

namespace PmemExamples.BTree
set_option autoImplicit false

/-- Each key below the next. -/
def Increasing (cmp : ℕ → ℕ → ℤ) (keys : List ℕ) : Prop := keys.IsChain fun a b => cmp a b < 0

instance (cmp : ℕ → ℕ → ℤ) (keys : List ℕ) : Decidable (Increasing cmp keys) :=
  inferInstanceAs (Decidable (keys.IsChain fun a b => cmp a b < 0))

section Chains
variable {cmp : ℕ → ℕ → ℤ} {lo hi k : ℕ} {ks : List ℕ} {ps : List (List ℕ)}

theorem increasing_iff_pairwise (h : Comparison cmp) {keys : List ℕ} :
    Increasing cmp keys ↔ keys.Pairwise fun a b => cmp a b < 0 := by
  have : Trans (fun a b : ℕ => cmp a b < 0) (fun a b => cmp a b < 0) (fun a b => cmp a b < 0) :=
    ⟨fun hab hbc => h.lt_of_lt_of_le hab hbc.le⟩
  exact List.isChain_iff_pairwise

/-- What is below child `i`, with the keys on both sides. -/
def segment (lo hi : ℕ) (ks : List ℕ) (ps : List (List ℕ)) (i : ℕ) : List ℕ :=
  (lo :: ks).getD i 0 :: (ps.getD i [] ++ [(ks ++ [hi]).getD i 0])

theorem segment_first (hne : ks ≠ []) : segment lo hi ks ps 0 = lo :: (ps.getD 0 [] ++ [ks.getD 0 0]) := by
  obtain ⟨k, ks, rfl⟩ := List.exists_cons_of_ne_nil hne
  rfl

theorem segment_between {i : ℕ} (hi' : i + 1 < ks.length) :
    segment lo hi ks ps (i + 1) = ks.getD i 0 :: (ps.getD (i + 1) [] ++ [ks.getD (i + 1) 0]) := by
  rw [segment, List.getD_eq_getElem?_getD (l := ks ++ [hi]), List.getElem?_append_left hi', ← List.getD_eq_getElem?_getD]
  rfl

theorem segment_last (hne : ks ≠ []) :
    segment lo hi ks ps ks.length = ks.getD (ks.length - 1) 0 :: (ps.getD ks.length [] ++ [hi]) := by
  obtain ⟨k, ks, rfl⟩ := List.exists_cons_of_ne_nil hne
  have hhi : (k :: ks ++ [hi]).getD (k :: ks).length 0 = hi := by simp
  rw [segment, hhi]
  rfl

theorem increasing_weave (h : ps.length = ks.length + 1) : Increasing cmp (lo :: (weave ks ps ++ [hi])) ↔
    ∀ i ≤ ks.length, Increasing cmp (segment lo hi ks ps i) := by
  induction ks generalizing lo ps with
  | nil =>
    obtain ⟨p, rfl⟩ := List.length_eq_one_iff.mp h
    simp [weave, segment]
  | cons k ks ih =>
    obtain ⟨p, ps, rfl⟩ := List.exists_cons_of_length_eq_add_one h
    have hlen : ps.length = ks.length + 1 := by simpa using h
    have hweave : weave (k :: ks) (p :: ps) = p ++ k :: weave ks ps := by
      obtain ⟨p', ps, rfl⟩ := List.exists_cons_of_length_eq_add_one hlen
      simp [weave]
    have hsplit : Increasing cmp (lo :: (p ++ k :: weave ks ps ++ [hi])) ↔
        Increasing cmp (lo :: (p ++ [k])) ∧ Increasing cmp (k :: (weave ks ps ++ [hi])) := by
      have happ : Increasing cmp ((lo :: p) ++ k :: (weave ks ps ++ [hi])) ↔ Increasing cmp ((lo :: p) ++ [k]) ∧
          Increasing cmp (k :: (weave ks ps ++ [hi])) := List.isChain_split
      simpa using happ
    rw [hweave, hsplit, ih hlen]
    constructor
    · rintro ⟨hfirst, hrest⟩ i hi
      cases i with
      | zero => exact hfirst
      | succ i => exact hrest i (by simpa using hi)
    · intro hall
      exact ⟨hall 0 (Nat.zero_le _), fun i hi => hall (i + 1) (by simpa using hi)⟩

theorem increasing_segments (h : ps.length = ks.length + 1) (hne : ks ≠ []) :
    decide (Increasing cmp (lo :: (weave ks ps ++ [hi]))) = (decide (Increasing cmp (segment lo hi ks ps 0)) &&
      ((List.range' 1 (ks.length - 1)).all (fun i => decide (Increasing cmp (segment lo hi ks ps i))) &&
        decide (Increasing cmp (segment lo hi ks ps ks.length)))) := by
  have hpos := List.length_pos_of_ne_nil hne
  rw [Bool.eq_iff_iff, decide_eq_true_iff, increasing_weave h]
  simp only [Bool.and_eq_true, List.all_eq_true, decide_eq_true_eq, List.mem_range'_1]
  constructor
  · exact fun hall => ⟨hall 0 (Nat.zero_le _), fun i hi => hall i (by omega), hall _ (le_refl _)⟩
  · rintro ⟨hfirst, hmid, hlast⟩ i hi
    rcases Nat.eq_zero_or_pos i with rfl | hi0
    · exact hfirst
    · rcases Nat.lt_or_ge i ks.length with hlt | hge
      · exact hmid i (by omega)
      · obtain rfl : i = ks.length := by omega
        exact hlast

theorem weave_nothing : weave ks (List.replicate (ks.length + 1) []) = ks := by
  have hrights : ∀ ks : List ℕ, rights ks (List.replicate ks.length []) = ks := by
    intro ks
    induction ks with
    | nil => rfl
    | cons k ks ih => rw [List.length_cons, List.replicate_succ, rights_cons, ih, List.singleton_append]
  rw [List.replicate_succ, weave, hrights, List.nil_append]

end Chains

/-! ## One node -/

section Node
variable {t nbits N fuel a : ℕ} {supply : ℕ → ℕ} {strict leaf : Bool} {h : Heap} {cmp : ℕ → ℕ → ℤ} {ks cs : List ℕ}
    {ps : List (List ℕ)}

theorem checkKeys_does {check : ℤ → HeapM Bool} {b : ℕ → Bool} : ∀ count i : ℕ,
    (∀ j, i ≤ j → j < i + count → Does N h (check j) (.ok (b j)) h) →
      Does N h (checkKeys check count i) (.ok ((List.range' i count).all b)) h := by
  intro count
  induction count with
  | zero => exact fun i _ => Does.pure true
  | succ count ih =>
    intro i hcheck
    rw [checkKeys, List.range'_succ, List.all_cons]
    refine (hcheck i (le_refl i) (by omega)).bind ?_
    cases b i with
    | false => exact Does.pure false
    | true =>
      have hrest := ih (i + 1) fun j hj hlt => hcheck j (by omega) (by omega)
      rw [Nat.cast_succ] at hrest
      exact hrest

theorem check_null (lo hi : ℕ) (isroot : Bool) :
    Does N h (checkbtreenode (heapOps t nbits supply strict) cmp (fuel + 1) 0 lo hi isroot)
    (.ok (decide (Increasing cmp [lo, hi]))) h := by
  have hpair : decide (Increasing cmp [lo, hi]) = !decide (cmp lo hi ≥ 0) := by
    rw [← decide_not]
    simp [Increasing]
  rw [checkbtreenode, if_pos rfl, hpair]
  exact Does.pure _

theorem check_node (hrec : (h.nodes a).Holds leaf ks cs) (ha : a ≠ 0) (hne : ks ≠ []) (hle : ks.length ≤ 2 * t - 1)
    (lo hi : ℕ) {isroot : Bool} (hlow : isroot = false → t - 1 ≤ ks.length) (hps : ps.length = ks.length + 1)
    (hkids : ∀ i ≤ ks.length, ∀ lo hi, Does N h
      (checkbtreenode (heapOps t nbits supply strict) cmp fuel ((h.nodes a).kids i) lo hi false)
      (.ok (decide (Increasing cmp (lo :: (ps.getD i [] ++ [hi]))))) h) :
    Does N h (checkbtreenode (heapOps t nbits supply strict) cmp (fuel + 1) a lo hi isroot)
      (.ok (decide (Increasing cmp (lo :: (weave ks ps ++ [hi]))))) h := by
  have hn := hrec.count
  have hpos := List.length_pos_of_ne_nil hne
  have hnode : ∀ i ≤ ks.length, Does N h ((heapOps t nbits supply strict).node a i) (.ok ((h.nodes a).kids i)) h :=
    fun i hi =>
    Does.of_eval fun m => by rw [eval_node (by omega) (by omega) (by omega), Int.toNat_natCast]
  have hkey : ∀ i < ks.length, Does N h ((heapOps t nbits supply strict).key a i) (.ok (ks.getD i 0)) h := fun i hi =>
    Does.of_eval fun m => by
      rw [eval_key (by omega) (by omega) (by omega), Int.toNat_natCast, hrec.keySlots i hi, List.getD_eq_getElem _ _ hi]
  have hfirst := hkids 0 (Nat.zero_le _) lo (ks.getD 0 0)
  rw [← segment_first hne] at hfirst
  have hmid : Does N h (checkKeys (fun i => do
      checkbtreenode (heapOps t nbits supply strict) cmp fuel (← (heapOps t nbits supply strict).node a i)
        (← (heapOps t nbits supply strict).key a (i - 1)) (← (heapOps t nbits supply strict).key a i) false)
          (ks.length - 1) (1 : ℕ))
      (.ok ((List.range' 1 (ks.length - 1)).all fun i => decide (Increasing cmp (segment lo hi ks ps i)))) h := by
    refine checkKeys_does _ _ fun j hj hlt => ?_
    obtain ⟨j, rfl⟩ : ∃ i, j = i + 1 := ⟨j - 1, by omega⟩
    have hprev := hkey j (by omega)
    rw [show (j : ℤ) = (j + 1 : ℕ) - 1 by omega] at hprev
    refine (hnode (j + 1) (by omega)).bind (hprev.bind ((hkey (j + 1) (by omega)).bind ?_))
    rw [segment_between (by omega)]
    exact hkids (j + 1) (by omega) _ _
  have hlast := hkids ks.length (le_refl _) (ks.getD (ks.length - 1) 0) hi
  rw [← segment_last hne] at hlast
  have hprev := hkey (ks.length - 1) (by omega)
  have hend := hnode ks.length (le_refl _)
  rw [increasing_segments hps hne, checkbtreenode, if_neg ha]
  refine (n_does hrec).bind (t_does.bind ?_)
  have hsize : ((!isroot) && (decide ((ks.length : ℤ) < t - 1) || decide ((ks.length : ℤ) > 2 * t - 1))) = false := by
    cases isroot with
    | true => rfl
    | false =>
      have := hlow rfl
      simp
      omega
  have hn0 : ¬ ((ks.length : ℤ) = 0) := by omega
  have hmax : max 1 (ks.length : ℤ) = ks.length := by omega
  have hmax' : (ks.length : ℤ) - 1 = (ks.length - 1 : ℕ) := by omega
  simp only [hsize, Bool.false_eq_true, if_false, hn0, false_and, hmax, hmax']
  refine (leaf_does hrec).bind ((hnode 0 (Nat.zero_le _)).bind ((hkey 0 hpos).bind (hfirst.bind ?_)))
  cases decide (Increasing cmp (segment lo hi ks ps 0)) with
  | false => exact Does.pure false
  | true =>
    refine Does.bind hmid ?_
    cases (List.range' 1 (ks.length - 1)).all fun i => decide (Increasing cmp (segment lo hi ks ps i)) with
    | false => exact Does.pure false
    | true => exact hend.bind (hprev.bind hlast)

end Node

/-! ## All levels -/

section Levels
variable {t nbits N : ℕ} {supply : ℕ → ℕ} {strict : Bool} {h : Heap} {cmp : ℕ → ℕ → ℤ} {x : AnyTree}

theorem check_sim (ht : 2 ≤ t) : ∀ (d m fuel : ℕ) (x : Tree d) (lo hi : ℕ) (isroot : Bool), d + 1 < fuel →
    x.Within t m (d = 0) (Sized t d) → (isroot = false → t - 1 ≤ m) → x.keys ≠ [] → NodeAt (d = 0) (addrOf d)
    (rep d) h x → Does N h (checkbtreenode (heapOps t nbits supply strict) cmp fuel x.addr lo hi isroot)
        (.ok (decide (Increasing cmp (lo :: (inorder (d + 1) x ++ [hi]))))) h := by
  intro d
  induction d with
  | zero =>
    intro m fuel x lo hi isroot hfuel hx hm hne hat
    obtain ⟨fuel, rfl⟩ : ∃ f, fuel = f + 2 := ⟨fuel - 2, by omega⟩
    have hkeys : x.keys = weave x.keys (List.replicate (x.keys.length + 1) []) := weave_nothing.symm
    rw [inorder_leaf, hkeys]
    refine check_node hat.record hat.live hne hx.high lo hi (fun hr => (hm hr).trans hx.low) List.length_replicate
      fun i hi lo hi => ?_
    rw [hat.record.null rfl, List.getD_replicate _ (by omega)]
    exact check_null lo hi false
  | succ d ih =>
    intro m fuel x lo hi isroot hfuel hx hm hne hat
    obtain ⟨fuel, rfl⟩ : ∃ f, fuel = f + 1 := ⟨fuel - 1, by omega⟩
    have hb : x.kids.length = x.keys.length + 1 := hx.branches
    refine check_node hat.record hat.live hne hx.high lo hi (fun hr => (hm hr).trans hx.low)
      (show (x.kids.map (inorder (d + 1))).length = x.keys.length + 1 by rw [List.length_map, hb]) fun i hi' lo hi => ?_
    have hi : i < x.kids.length := by omega
    have hc : x.kids[i].Within t (t - 1) (d = 0) (Sized t d) := hx.kids _ (List.getElem_mem hi)
    have hslot := hat.record.kidSlots i (by simpa using hi)
    rw [List.getElem_map] at hslot
    rw [hslot, List.getD_eq_getElem _ _ (by simpa using hi), List.getElem_map]
    exact ih (t - 1) fuel x.kids[i] _ _ false (by omega) hc (fun _ => le_refl _)
      (List.ne_nil_of_length_pos (lt_of_lt_of_le (by omega) hc.low)) (hat.kids _ (List.getElem_mem hi))

variable (cmp) (strict) in
theorem btChecktree_sim (ht : 2 ≤ t) (hx : h.Holds supply t x) {fuel : ℕ} (hfuel : x.height + 1 < fuel)
    (hne : x.inorder ≠ [])
    (kmin kmax : ℕ) : Does N h (btChecktree (heapOps t (nbitsOf (2 * t - 1)) supply strict) cmp fuel kmin kmax)
      (.ok (decide (Increasing cmp (kmin :: (x.inorder ++ [kmax]))))) h :=
  (root_does strict hx).bind (check_sim ht x.height _ fuel x.tree kmin kmax true hfuel hx.sized (fun h => by cases h)
    (some_key hx.sized hne) hx.node)

variable (cmp) in
/-- A root without keys: its first slot is compared as if it were a key. -/
theorem btChecktree_empty (ht : 2 ≤ t) (hx : h.Holds supply t x) {fuel : ℕ} (hfuel : 1 < fuel) (hempty : x.inorder = [])
    (kmin kmax : ℕ) : Does N h (btChecktree (heapOps t (nbitsOf (2 * t - 1)) supply false) cmp fuel kmin kmax)
      (.ok (decide (cmp kmin ((h.nodes h.root).keys 0) < 0 ∧ cmp ((h.nodes h.root).keys 0) kmax < 0))) h := by
  obtain ⟨fuel, rfl⟩ : ∃ f, fuel = f + 2 := ⟨fuel - 2, by omega⟩
  have hrec := empty_leaf hx hempty
  rw [hx.root]
  generalize hslot : (h.nodes x.tree.addr).keys 0 = slot
  have hkey : Does N h ((heapOps t (nbitsOf (2 * t - 1)) supply false).key x.tree.addr 0) (.ok slot) h :=
    Does.of_eval fun m => by
      rw [eval_key (le_refl _) (by rw [hrec.count]; simp) (by omega), ← hslot]
      rfl
  have hnull : ∀ i : ℤ, 0 ≤ i → i ≤ 1 →
      Does N h ((heapOps t (nbitsOf (2 * t - 1)) supply false).node x.tree.addr i) (.ok 0) h := fun i hi hi' =>
    Does.of_eval fun m => (if_pos ⟨hi, by omega, by simp⟩).trans (by rw [HeapM.get, hrec.null rfl])
  have hpair : ∀ lo hi, Does N h (checkbtreenode (heapOps t (nbitsOf (2 * t - 1)) supply false) cmp (fuel + 1) 0 lo hi
    false) (.ok (decide (cmp lo hi < 0))) h := fun lo hi => by
    have hlt : decide (cmp lo hi < 0) = decide (Increasing cmp [lo, hi]) := by simp [Increasing]
    rw [hlt]
    exact check_null lo hi false
  refine (root_does false hx).bind ?_
  rw [checkbtreenode, if_neg hx.node.live]
  refine (n_does hrec).bind (t_does.bind ((leaf_does hrec).bind ?_))
  rw [if_neg (by simp), if_neg (by simp)]
  refine (hnull 0 (le_refl _) (by decide)).bind (hkey.bind ((hpair kmin slot).bind ?_))
  by_cases hmin : cmp kmin slot < 0
  · simp only [hmin, decide_true, if_true, true_and]
    exact (hnull 1 (by decide) (le_refl _)).bind (hkey.bind (hpair slot kmax))
  · simp only [hmin, decide_false, false_and]
    exact Does.pure false

end Levels

/-! ## After any legal calls -/

/-- The check returns, and returns 1 if and only if all is in strict order. -/
def Btree.Decides (fuel : ℕ) (b : Btree) (memo : Memo) (keys : List ℕ) (kmin kmax : ℕ) : Prop :=
  ∃ r m', btChecktree (b.ops false) b.cmp fuel kmin kmax b.heap memo = (.ok r, b.heap, m') ∧
    (r = true ↔ (kmin :: (keys ++ [kmax])).Pairwise fun a b' => b.cmp a b' < 0)

/-- What is left in the first slot of the root is between the bounds. -/
def Btree.SlotBetween (b : Btree) (kmin kmax : ℕ) : Prop :=
  b.cmp kmin ((b.heap.nodes b.heap.root).keys 0) < 0 ∧ b.cmp ((b.heap.nodes b.heap.root).keys 0) kmax < 0

section Runs
variable {calls : List Call} {fuel : ℕ}

theorem Does.decides_iff {b : Btree} {N : ℕ} {memo : Memo} (hm : memo.Exact) (hN : N ≤ memo.alloced) {kmin kmax : ℕ}
    {q : Prop} [Decidable q]
    (hdoes : Does N b.heap (btChecktree (b.ops false) b.cmp fuel kmin kmax) (.ok (decide q)) b.heap) (keys : List ℕ) :
    b.Decides fuel memo keys kmin kmax ↔ (q ↔ (kmin :: (keys ++ [kmax])).Pairwise fun a b' => b.cmp a b' < 0) := by
  obtain ⟨m', -, -, hrun⟩ := hdoes memo hm hN
  rw [Btree.Decides, hrun]
  constructor
  · rintro ⟨r, m'', heq, hr⟩
    cases heq
    rwa [decide_eq_true_iff] at hr
  · intro hq
    exact ⟨_, _, rfl, decide_eq_true_iff.trans hq⟩

/-- The check is right about every tree with a key, and about an empty one if its first slot looks right. -/
theorem btChecktree_decides_iff (hcalls : LegalRun [] calls) (hfuel : calls.length + 1 < fuel) :
    ∃ p, Process.start.run false fuel calls = (.ok (), p) ∧ p.trees.length = (bagsAfter [] calls).length ∧
      ∀ (i : ℕ) (b : Btree), p.trees[i]? = some b → ∃ x, b.heap.Holds b.supply b.t x ∧
        ∀ kmin kmax, b.cmp kmin kmax < 0 →
          (b.Decides fuel p.memo x.inorder kmin kmax ↔ (x.inorder ≠ [] ∨ b.SlotBetween kmin kmax)) := by
  obtain ⟨p, hrun, hp⟩ := Process.stores_start.run false hcalls (show 0 + calls.length < fuel by omega)
  refine ⟨p, hrun, hp.length, fun i b hb => ?_⟩
  obtain ⟨b', B, hb', hB, hst⟩ := hp.find (hp.length ▸ (List.getElem?_eq_some_iff.mp hb).1)
  obtain rfl := Option.some.inj (hb'.symm.trans hb)
  obtain ⟨x, hx, hle, -⟩ := hst.tree
  refine ⟨x, hx, fun kmin kmax hlt => ?_⟩
  have htwo := hst.ready.two_le
  by_cases hempty : x.inorder = []
  · have hdoes := btChecktree_empty (N := p.memo.alloced) b'.cmp htwo hx (show 1 < fuel by omega) hempty kmin kmax
    rw [← hst.ready.ops_eq] at hdoes
    rw [Does.decides_iff hp.memo.toExact (le_refl _) hdoes, hempty]
    simp [Btree.SlotBetween, hlt]
  · have hdoes := btChecktree_sim (N := p.memo.alloced) false b'.cmp htwo hx (show x.height + 1 < fuel by omega)
      hempty kmin kmax
    rw [← hst.ready.ops_eq] at hdoes
    rw [Does.decides_iff hp.memo.toExact (le_refl _) hdoes, increasing_iff_pairwise hst.comparison]
    simp [hempty]

theorem btChecktree_decides_iff_someCalls : ∃ p, Process.start.run false 14 someCalls = (.ok (), p) ∧
    p.trees.length = (bagsAfter [] someCalls).length ∧
      ∀ (i : ℕ) (b : Btree), p.trees[i]? = some b → ∃ x, b.heap.Holds b.supply b.t x ∧
        ∀ kmin kmax, b.cmp kmin kmax < 0 →
          (b.Decides 14 p.memo x.inorder kmin kmax ↔ (x.inorder ≠ [] ∨ b.SlotBetween kmin kmax)) :=
  btChecktree_decides_iff legal_someCalls (by decide)

/-- A new tree, where the first slot is null: there is nothing out of order between 1 and 5, and the check fails. -/
theorem btChecktree_newTree : ∃ p b, LegalRun [] [.create 72 byValue (· + 1)] ∧
    Process.start.run false 9 [.create 72 byValue (· + 1)] = (.ok (), p) ∧ p.trees[0]? = some b ∧ b.cmp 1 5 < 0 ∧
    (∃ x, b.heap.Holds b.supply b.t x ∧ x.inorder = []) ∧ ¬ b.Decides 9 p.memo [] 1 5 := by
  have hlegal : LegalRun [] [.create 72 byValue (· + 1)] :=
    ⟨⟨by decide, by decide, comparison_byValue, supply_succ⟩, trivial⟩
  obtain ⟨hmemo, -, -, htrees⟩ :=
    create_memo (p := .start) Memo.ready_start (show 2 ≤ degree 72 by decide) byValue (· + 1)
  have hready := create_ready (show 2 ≤ degree 72 by decide) (by decide) supply_succ byValue (le_refl _)
  have hx := Heap.holds_start supply_succ (degree 72).toNat
  refine ⟨Process.start.create 72 byValue (· + 1), _, hlegal, rfl, by rw [htrees]; rfl, by decide, ⟨_, hx, rfl⟩, ?_⟩
  have hdoes := btChecktree_empty (N := 0) byValue hready.two_le hx (show 1 < 9 by decide) rfl 1 5
  have hops := hready.ops_eq false
  dsimp only at hops hdoes
  rw [← hops] at hdoes
  rw [Does.decides_iff hmemo.toExact (Nat.zero_le _) hdoes]
  decide

end Runs

end PmemExamples.BTree
