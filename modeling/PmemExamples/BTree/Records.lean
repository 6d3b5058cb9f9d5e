import PmemExamples.BTree.Heap

/-! # What the code does to the records

One lemma for each way in which insertion and deletion change nodes, on the lists that the slots of the nodes hold. -/

namespace PmemExamples.BTree
open Slots
set_option autoImplicit false

/-! ## Evaluation -/

@[simp] theorem Heap.set_same (h : Heap) (x : ℕ) (r : NodeRec) : (h.set x r).nodes x = r := Function.update_self ..

@[simp] theorem Heap.set_ne (h : Heap) {x y : ℕ} (hne : y ≠ x) (r : NodeRec) : (h.set x r).nodes y = h.nodes y :=
  Function.update_of_ne hne ..

@[simp] theorem Heap.set_root (h : Heap) (x : ℕ) (r : NodeRec) : (h.set x r).root = h.root := rfl
@[simp] theorem Heap.set_next (h : Heap) (x : ℕ) (r : NodeRec) : (h.set x r).next = h.next := rfl

@[simp] theorem Heap.alloc_same (h : Heap) (x : ℕ) : (h.alloc x).nodes x = .blank := Function.update_self ..

@[simp] theorem Heap.alloc_ne (h : Heap) {x y : ℕ} (hne : y ≠ x) : (h.alloc x).nodes y = h.nodes y :=
  Function.update_of_ne hne ..

@[simp] theorem HeapM.pure_apply {α : Type} (a : α) (h : Heap) (m : Memo) : (pure a : HeapM α) h m = (.ok a, h, m) := rfl

@[simp] theorem HeapM.bind_apply {α β : Type} (act : HeapM α) (f : α → HeapM β) (h : Heap) (m : Memo) : (act >>= f) h m =
    match act h m with
    | (.ok a, h, m) => f a h m
    | (.error e, h, m) => (.error e, h, m) := rfl

theorem Does.of_eval {α : Type} {N : ℕ} {h h' : Heap} {act : HeapM α} {o : Except Fault α}
    (heval : ∀ m, act h m = (o, h', m)) : Does N h act o h' := fun m hm _ => ⟨m, hm, rfl, heval m⟩

section Eval
variable {t nbits : ℕ} {supply : ℕ → ℕ} {strict : Bool} {h : Heap} {m : Memo} {x y k : ℕ} {i j count : ℤ}

@[simp] theorem eval_n : (heapOps t nbits supply strict).n x h m = (.ok (h.nodes x).n, h, m) := rfl
@[simp] theorem eval_leaf : (heapOps t nbits supply strict).leaf x h m = (.ok (h.nodes x).leaf, h, m) := rfl
@[simp] theorem eval_t : (heapOps t nbits supply strict).t h m = (.ok (t : ℤ), h, m) := rfl
@[simp] theorem eval_pPtr : (heapOps t nbits supply strict).pPtr x h m = (.ok (h.nodes x).pPtr, h, m) := rfl
@[simp] theorem eval_persist : (heapOps t nbits supply strict).persist x h m = (.ok (), h, m) := rfl
@[simp] theorem eval_free : (heapOps t nbits supply strict).free x h m = (.ok (), h, m) := rfl
@[simp] theorem eval_activate : (heapOps t nbits supply strict).activate x h m = (.ok (), h, m) := rfl

@[simp] theorem eval_setLeaf (b : Bool) : (heapOps t nbits supply strict).setLeaf x b h m =
    (.ok (), h.set x { h.nodes x with leaf := b }, m) := rfl

@[simp] theorem eval_setPPtr : (heapOps t nbits supply strict).setPPtr x k h m =
    (.ok (), h.set x { h.nodes x with pPtr := k }, m) := rfl

@[simp] theorem eval_alloc : (heapOps t nbits supply strict).alloc h m =
    (.ok (supply h.next, supply h.next), h.alloc (supply h.next), m) := rfl

@[simp] theorem eval_setN (h₀ : 0 ≤ i) (hlt : i < 2 ^ 14) : (heapOps t nbits supply strict).setN x i h m =
    (.ok (), h.set x { h.nodes x with n := i }, m) := by
  change (_, h.set x { h.nodes x with n := i.bmod (2 ^ 15) }, m) = _
  rw [bmod_count h₀ hlt]

@[simp] theorem eval_key (h₀ : 0 ≤ i) (hi : i ≤ (h.nodes x).n) (hlt : i < 2 * t - 1) :
    (heapOps t nbits supply strict).key x i h m = (.ok ((h.nodes x).keys i.toNat), h, m) := by
  refine (if_pos ⟨by omega, hlt, fun _ => ⟨h₀, hi⟩⟩).trans ?_
  rw [HeapM.get, NodeRec.slot, if_neg (by omega)]

@[simp] theorem eval_node (h₀ : 0 ≤ i) (hi : i ≤ (h.nodes x).n) (hlt : i < 2 * t) :
    (heapOps t nbits supply strict).node x i h m = (.ok ((h.nodes x).kids i.toNat), h, m) :=
    if_pos ⟨h₀, hlt, fun _ => hi⟩

@[simp] theorem eval_setKey (h₀ : 0 ≤ i) (hlt : i < 2 * t - 1) : (heapOps t nbits supply strict).setKey x i k h m =
    (.ok (), h.set x { h.nodes x with keys := Function.update (h.nodes x).keys i.toNat k }, m) := if_pos ⟨h₀, hlt⟩

@[simp] theorem eval_setNode (h₀ : 0 ≤ i) (hlt : i < 2 * t) : (heapOps t nbits supply strict).setNode x i k h m =
    (.ok (), h.set x { h.nodes x with kids := Function.update (h.nodes x).kids i.toNat k }, m) := if_pos ⟨h₀, hlt⟩

@[simp] theorem eval_moveKeys (hc : 0 ≤ count) (hi : 0 ≤ i) (hic : i + count ≤ 2 * t - 1) (hj : 0 ≤ j)
    (hjc : j + count ≤ 2 * t - 1)
    (hjn : j + count ≤ (h.nodes y).n ∨ x = y ∧ i = 0 ∧ j = 1 ∧ count ≤ (h.nodes y).n) :
    (heapOps t nbits supply strict).moveKeys x i y j count h m = (.ok (), h.set x { h.nodes x with
      keys := move (h.nodes x).keys (h.nodes y).keys i.toNat j.toNat count.toNat }, m) := by
  refine (if_pos ⟨hc, by omega, hic, hj, hjc, fun _ => ⟨hi, hjn⟩⟩).trans ?_
  rw [HeapM.put, NodeRec.moveKeys, if_pos hi]

@[simp] theorem eval_moveNodes (hc : 0 ≤ count) (hi : 0 ≤ i) (hic : i + count ≤ 2 * t) (hj : 0 ≤ j)
    (hjc : j + count ≤ 2 * t)
    (hjn : j + count ≤ (h.nodes y).n + 1 ∨ x = y ∧ i = 0 ∧ j = 1 ∧ count ≤ (h.nodes y).n + 1) :
    (heapOps t nbits supply strict).moveNodes x i y j count h m = (.ok (), h.set x { h.nodes x with
      kids := move (h.nodes x).kids (h.nodes y).kids i.toNat j.toNat count.toNat }, m) :=
  if_pos ⟨hc, hi, hic, hj, hjc, fun _ => hjn⟩

end Eval

/-! ## Records that hold lists -/

/-- The slots in use hold these keys and children; the pointers of a leaf are all null. -/
structure NodeRec.Holds (r : NodeRec) (leaf : Bool) (keys kids : List ℕ) : Prop where
  kind : r.leaf = leaf
  count : r.n = keys.length
  keySlots : Filled r.keys keys
  kidSlots : Filled r.kids kids
  null : leaf = true → ∀ i, r.kids i = 0

/-- Only the nodes in `S` have changed. -/
structure Only (S : Set ℕ) (h h' : Heap) : Prop where
  nodes : ∀ a, a ∉ S → h'.nodes a = h.nodes a
  root : h'.root = h.root
  next : h'.next = h.next

section Moves
variable {t nbits N : ℕ} {supply : ℕ → ℕ} {strict : Bool} {h : Heap} {x y z k e : ℕ} {leaf : Bool}
    {ks ks' l r cs cs' L R : List ℕ}

variable (nbits supply strict) in
theorem deleteLeafKey_does (hsmall : 2 * t - 1 < 2 ^ 14) (hx : (h.nodes x).Holds true (l ++ e :: r) [])
    (hle : (l ++ e :: r).length ≤ 2 * t - 1) :
    ∃ h', Does N h (deleteLeafKey (heapOps t nbits supply strict) x l.length) (.ok e) h' ∧
      (h'.nodes x).Holds true (l ++ r) [] ∧ Only {x} h h' := by
  have hn := hx.count
  rw [List.length_append, List.length_cons] at hn hle
  push_cast at hn
  have hcount : ((l.length : ℤ) + (r.length + 1) - l.length - 1).toNat = r.length := by omega
  have hnext : ((l.length : ℤ) + 1).toNat = l.length + 1 := by omega
  refine ⟨?h', Does.of_eval fun m => ?run, ?hx, ?only⟩
  case run =>
    unfold deleteLeafKey
    simp (disch := first | omega | (simp only [Heap.set_same, hn]; omega)) only [HeapM.bind_apply, HeapM.pure_apply,
      eval_n, eval_key, eval_moveKeys, eval_setN, eval_persist, Heap.set_same, hn, Int.toNat_natCast, hcount, hnext,
      hx.keySlots.get]
    rfl
  case hx =>
    rw [Heap.set_same]
    refine ⟨hx.kind, ?_, hx.keySlots.erase, Filled.nil _, hx.null⟩
    rw [List.length_append]
    push_cast
    omega
  case only => exact ⟨fun a ha => by simp [show a ≠ x from ha], rfl, rfl⟩

variable (nbits supply) in
/-- Case 1 before the first key: `p_ptr` is returned, and gets the first key. -/
theorem deleteLeafKey_before (hsmall : 2 * t - 1 < 2 ^ 14) (hx : (h.nodes x).Holds true (e :: r) [])
    (hle : (e :: r).length ≤ 2 * t - 1) :
    ∃ h', Does N h (deleteLeafKey (heapOps t nbits supply false) x (-1)) (.ok (h.nodes x).pPtr) h' ∧
      (h'.nodes x).Holds true r [] ∧ Only {x} h h' := by
  have hn := hx.count
  rw [List.length_cons] at hn hle
  push_cast at hn
  have hcount : ((r.length : ℤ) + 1 - (-1) - 1).toNat = r.length + 1 := by omega
  have hkey : ∀ m, (heapOps t nbits supply false).key x (-1) h m = (.ok (h.nodes x).pPtr, h, m) := fun m =>
    if_pos ⟨le_refl _, by omega, by simp⟩
  have hmove : ∀ m, (heapOps t nbits supply false).moveKeys x (-1) x (-1 + 1) ((r.length : ℤ) + 1 - (-1) - 1) h m =
      (.ok (), h.set x { h.nodes x with
        pPtr := (h.nodes x).keys 0, keys := move (h.nodes x).keys (h.nodes x).keys 0 1 r.length }, m) := fun m => by
    refine (if_pos ⟨by omega, by omega, by omega, by omega, by omega, by simp⟩).trans ?_
    rw [hcount]
    rfl
  refine ⟨?h', Does.of_eval fun m => ?run, ?hx, ?only⟩
  case run =>
    unfold deleteLeafKey
    simp (disch := first | omega | (simp only [Heap.set_same, hn]; omega)) only [HeapM.bind_apply, HeapM.pure_apply,
      hkey, eval_n, hn, hmove, eval_setN, eval_persist, Heap.set_same]
    rfl
  case hx =>
    rw [Heap.set_same]
    exact ⟨hx.kind, by simp, Filled.erase (l := []) hx.keySlots, Filled.nil _, hx.null⟩
  case only => exact ⟨fun a ha => by simp [show a ≠ x from ha], rfl, rfl⟩

variable (nbits supply) in
theorem deleteLeafKey_empty (ht : 1 ≤ t) (hx : (h.nodes x).Holds true [] []) :
    ∃ h', Does N h (deleteLeafKey (heapOps t nbits supply false) x (-1)) (.ok (h.nodes x).pPtr) h' ∧
      (h'.nodes x).leaf = true ∧ (h'.nodes x).n = -1 ∧ h'.root = h.root := by
  have hn : (h.nodes x).n = 0 := hx.count
  have hkey : ∀ m, (heapOps t nbits supply false).key x (-1) h m = (.ok (h.nodes x).pPtr, h, m) := fun m =>
    if_pos ⟨le_refl _, by omega, by simp⟩
  have hmove : ∀ m, (heapOps t nbits supply false).moveKeys x (-1) x (-1 + 1) (0 - (-1) - 1) h m =
      (.ok (), h.set x (h.nodes x), m) := fun m =>
    if_pos ⟨by omega, by omega, by omega, by omega, by omega, by simp⟩
  have hset : ∀ (h : Heap) m, (h.nodes x).n = 0 → (heapOps t nbits supply false).setN x ((h.nodes x).n - 1) h m =
      (.ok (), h.set x { h.nodes x with n := -1 }, m) := fun h m h0 => by
    rw [h0]
    rfl
  refine ⟨?h', Does.of_eval fun m => ?run, ?leaf, ?n, ?root⟩
  case run =>
    unfold deleteLeafKey
    simp (disch := simp only [Heap.set_same, hn]) only [HeapM.bind_apply, HeapM.pure_apply, hkey, eval_n, hn, hmove,
      hset, eval_persist]
    rfl
  case leaf =>
    rw [Heap.set_same]
    dsimp only
    rw [Heap.set_same]
    exact hx.kind
  case n => rw [Heap.set_same]
  case root => rfl

theorem deleteLeafKey_fault : Does N h (deleteLeafKey (heapOps t nbits supply true) x (-1)) (.error .slot) h :=
  Does.fault (Does.unguarded (by simp))

variable (nbits supply strict) in
theorem setKey_does (hx : (h.nodes x).Holds leaf (l ++ e :: r) cs) (hle : (l ++ e :: r).length ≤ 2 * t - 1) (k : ℕ) :
    ∃ h', Does N h ((heapOps t nbits supply strict).setKey x l.length k) (.ok ()) h' ∧
      (h'.nodes x).Holds leaf (l ++ k :: r) cs ∧ Only {x} h h' := by
  have hn := hx.count
  rw [List.length_append, List.length_cons] at hn hle
  refine ⟨_, Does.of_eval fun m => eval_setKey (by omega) (by omega), ?_, fun a ha => Heap.set_ne _ (show a ≠ x from ha)
    _, rfl, rfl⟩
  rw [Heap.set_same, Int.toNat_natCast]
  exact ⟨hx.kind, by rw [hn]; simp, hx.keySlots.set k, hx.kidSlots, hx.null⟩

/-- One more key, and one child more where there are children, from another array. -/
theorem holds_append {r r' : NodeRec} (hr : r.Holds leaf ks cs) (hr' : r'.Holds leaf ks' cs')
    (hb : cs.length = if leaf then 0 else ks.length + 1) (hb' : cs'.length = if leaf then 0 else ks'.length + 1)
    (k p : ℕ) :
    (⟨r.leaf, ks.length + 1 + ks'.length, move (Function.update r.keys ks.length k) r'.keys (ks.length + 1) 0 ks'.length,
      move r.kids r'.kids (ks.length + 1) 0 (ks'.length + 1), p⟩ : NodeRec).Holds leaf (ks ++ k :: ks') (cs ++ cs') := by
  refine ⟨hr.kind, by simp; omega, ?_, ?_, fun hl i => ?_⟩
  · have hpush := (hr.keySlots.push k).append hr'.keySlots
    rw [List.length_append, List.length_singleton, List.append_assoc] at hpush
    exact hpush
  · cases leaf with
    | true =>
      obtain rfl := List.length_eq_zero_iff.mp hb
      obtain rfl := List.length_eq_zero_iff.mp hb'
      exact Filled.nil _
    | false =>
      have happ := hr.kidSlots.append hr'.kidSlots
      rw [hb, hb'] at happ
      exact happ
  · dsimp only [move]
    split
    · exact hr'.null hl _
    · exact hr.null hl i

variable (nbits supply strict) in
theorem absorb_does (hyz : y ≠ z) (hsmall : 2 * t - 1 < 2 ^ 14) (hy : (h.nodes y).Holds leaf ks cs)
    (hz : (h.nodes z).Holds leaf ks' cs') (hb : cs.length = if leaf then 0 else ks.length + 1)
    (hb' : cs'.length = if leaf then 0 else ks'.length + 1) (hle : ks.length + 1 + ks'.length ≤ 2 * t - 1) (k : ℕ) :
    ∃ h', Does N h (absorb (heapOps t nbits supply strict) y z k) (.ok ()) h' ∧
      (h'.nodes y).Holds leaf (ks ++ k :: ks') (cs ++ cs') ∧ Only {y} h h' := by
  have hn := hy.count
  have hn' := hz.count
  have hnext : ((ks.length : ℤ) + 1).toNat = ks.length + 1 := by omega
  have hnext' : ((ks'.length : ℤ) + 1).toNat = ks'.length + 1 := by omega
  refine ⟨?h', Does.of_eval fun m => ?run, ?hy, ?only⟩
  case run =>
    unfold absorb
    simp (disch :=
      first | omega | (simp only [Heap.set_same, Heap.set_ne, ne_eq, hyz.symm, not_false_eq_true, hn, hn']; omega)) only
      [HeapM.bind_apply, eval_n, eval_setKey, eval_moveKeys, eval_moveNodes, eval_setN, Heap.set_same, Heap.set_ne,
        hn, hn', hnext, hnext', Int.toNat_natCast, Int.toNat_zero]
    rfl
  case hy =>
    rw [Heap.set_same]
    exact holds_append hy hz hb hb' k _
  case only => exact ⟨fun a ha => by simp [show a ≠ y from ha], rfl, rfl⟩

variable (nbits supply strict) in
theorem dropKey_does {c c' : ℕ} (hsmall : 2 * t - 1 < 2 ^ 14)
    (hx : (h.nodes x).Holds false (l ++ e :: r) (L ++ c :: c' :: R))
    (hL : L.length = l.length) (hR : R.length = r.length) (hle : (l ++ e :: r).length ≤ 2 * t - 1) :
    ∃ h', Does N h (dropKey (heapOps t nbits supply strict) x l.length) (.ok ()) h' ∧
      (h'.nodes x).Holds false (l ++ r) (L ++ c :: R) ∧ Only {x} h h' := by
  have hn := hx.count
  rw [List.length_append, List.length_cons] at hn hle
  push_cast at hn
  have hcount : ((l.length : ℤ) + (r.length + 1) - l.length - 1).toNat = r.length := by omega
  have hnext : ((l.length : ℤ) + 1).toNat = l.length + 1 := by omega
  have hnext' : ((l.length : ℤ) + 2).toNat = l.length + 1 + 1 := by omega
  refine ⟨?h', Does.of_eval fun m => ?run, ?hx, ?only⟩
  case run =>
    unfold dropKey
    simp (disch := first | omega | (simp only [Heap.set_same, hn]; omega)) only [HeapM.bind_apply, eval_n, eval_moveKeys,
      eval_moveNodes, eval_setN, Heap.set_same, hn, Int.toNat_natCast, hcount, hnext, hnext']
    rfl
  case hx =>
    rw [Heap.set_same]
    refine ⟨hx.kind, ?_, hx.keySlots.erase, ?_, fun hl => absurd hl (by decide)⟩
    · rw [List.length_append]
      push_cast
      omega
    · have hkids := hx.kidSlots
      rw [List.append_cons] at hkids
      have herase := hkids.erase
      rw [List.length_append, List.length_singleton, hL, hR, List.append_assoc] at herase
      exact herase
  case only => exact ⟨fun a ha => by simp [show a ≠ x from ha], rfl, rfl⟩

/-- The slots of a node that gets a key, and a child where there are children, in front. -/
theorem holds_cons {r : NodeRec} (hr : r.Holds leaf ks cs) (hb : cs.length = if leaf then 0 else ks.length + 1)
    {c : List ℕ} {v : ℕ} (hc : if leaf then c = [] ∧ v = 0 else c = [v]) (k p : ℕ) :
    (⟨r.leaf, ks.length + 1, Function.update (move r.keys r.keys 1 0 ks.length) 0 k,
      Function.update (move r.kids r.kids 1 0 (ks.length + 1)) 0 v, p⟩ : NodeRec).Holds leaf (k :: ks) (c ++ cs) := by
  refine ⟨hr.kind, by simp, Filled.insert (l := []) hr.keySlots k, ?_, fun hl i => ?_⟩
  · cases leaf with
    | true =>
      obtain rfl := List.length_eq_zero_iff.mp hb
      rw [hc.1]
      exact Filled.nil _
    | false =>
      have hins := Filled.insert (l := []) hr.kidSlots v
      rw [hb] at hins
      rw [show c = [v] from hc]
      exact hins
  · subst hl
    dsimp only
    by_cases hi : i = 0
    · rw [hi, Function.update_self]
      exact hc.2
    · rw [Function.update_of_ne hi, move]
      split
      · exact hr.null rfl _
      · exact hr.null rfl i

/-- Of a node that gets them at the end, and of one that loses them in front. -/
theorem holds_push {r : NodeRec} (hr : r.Holds leaf ks cs) (hb : cs.length = if leaf then 0 else ks.length + 1)
    {c : List ℕ} {v : ℕ} (hc : if leaf then c = [] ∧ v = 0 else c = [v]) (k p : ℕ) :
    (⟨r.leaf, ks.length + 1, Function.update r.keys ks.length k, Function.update r.kids (ks.length + 1) v, p⟩ :
      NodeRec).Holds leaf (ks ++ [k]) (cs ++ c) := by
  refine ⟨hr.kind, by simp, hr.keySlots.push k, ?_, fun hl i => ?_⟩
  · cases leaf with
    | true =>
      obtain rfl := List.length_eq_zero_iff.mp hb
      rw [hc.1]
      exact Filled.nil _
    | false =>
      have hpush := hr.kidSlots.push v
      rw [hb] at hpush
      rw [show c = [v] from hc]
      exact hpush
  · subst hl
    dsimp only
    by_cases hi : i = ks.length + 1
    · rw [hi, Function.update_self]
      exact hc.2
    · rw [Function.update_of_ne hi]
      exact hr.null rfl i

theorem holds_tail {r : NodeRec} {k₀ : ℕ} (hr : r.Holds leaf (k₀ :: ks) cs)
    (hb : cs.length = if leaf then 0 else ks.length + 2)
    (p : ℕ) : (⟨r.leaf, ks.length, move r.keys r.keys 0 1 ks.length, move r.kids r.kids 0 1 (ks.length + 1), p⟩ :
      NodeRec).Holds leaf ks (cs.drop 1) := by
  refine ⟨hr.kind, rfl, Filled.erase (l := []) hr.keySlots, ?_, fun hl i => ?_⟩
  · cases leaf with
    | true =>
      obtain rfl := List.length_eq_zero_iff.mp hb
      exact Filled.nil _
    | false =>
      obtain ⟨c, cs, rfl⟩ := List.exists_cons_of_length_eq_add_one hb
      have herase := Filled.erase (l := []) hr.kidSlots
      rw [show cs.length = ks.length + 1 by simpa using hb] at herase
      exact herase
  · dsimp only [move]
    split
    · exact hr.null hl _
    · exact hr.null hl i

theorem holds_init {r : NodeRec} {k₀ : ℕ} (hr : r.Holds leaf (ks ++ [k₀]) cs)
    (hb : cs.length = if leaf then 0 else ks.length + 2)
    (p : ℕ) : (⟨r.leaf, ks.length, r.keys, r.kids, p⟩ : NodeRec).Holds leaf ks cs.dropLast := by
  refine ⟨hr.kind, rfl, hr.keySlots.left, ?_, hr.null⟩
  cases leaf with
  | true =>
    obtain rfl := List.length_eq_zero_iff.mp hb
    exact Filled.nil _
  | false =>
    have hkids := hr.kidSlots
    rw [← List.dropLast_append_getLast (List.ne_nil_of_length_eq_add_one hb)] at hkids
    exact hkids.left

theorem first_kid {r : NodeRec} {k₀ : ℕ} (hr : r.Holds leaf (k₀ :: ks) cs)
    (hb : cs.length = if leaf then 0 else ks.length + 2) :
    if leaf then cs.take 1 = [] ∧ r.kids 0 = 0 else cs.take 1 = [r.kids 0] := by
  cases leaf with
  | true =>
    obtain rfl := List.length_eq_zero_iff.mp hb
    exact ⟨rfl, hr.null rfl 0⟩
  | false =>
    obtain ⟨c, cs, rfl⟩ := List.exists_cons_of_length_eq_add_one hb
    exact congrArg (· :: []) hr.kidSlots.get_first.symm

theorem last_kid {r : NodeRec} {k₀ : ℕ} (hr : r.Holds leaf (ks ++ [k₀]) cs)
    (hb : cs.length = if leaf then 0 else ks.length + 2) :
    if leaf then cs.getLast?.toList = [] ∧ r.kids (ks.length + 1) = 0
    else cs.getLast?.toList = [r.kids (ks.length + 1)] := by
  cases leaf with
  | true =>
    obtain rfl := List.length_eq_zero_iff.mp hb
    exact ⟨rfl, hr.null rfl _⟩
  | false =>
    obtain ⟨L, c, rfl⟩ : ∃ L c, cs = L ++ [c] :=
      ⟨_, _, (List.dropLast_append_getLast (List.ne_nil_of_length_eq_add_one hb)).symm⟩
    have hL : L.length = ks.length + 1 := by simpa using hb
    have hget := hr.kidSlots.get
    rw [hL] at hget
    simp [hget]

variable (nbits supply strict) in
theorem takeFromRight_does {k₀ : ℕ} (hxy : x ≠ y) (hxz : x ≠ z) (hyz : y ≠ z) (hsmall : 2 * t - 1 < 2 ^ 14)
    (hx : (h.nodes x).Holds false (l ++ e :: r) L) (hy : (h.nodes y).Holds leaf ks cs)
    (hz : (h.nodes z).Holds leaf (k₀ :: ks') cs') (hb : cs.length = if leaf then 0 else ks.length + 1)
    (hb' : cs'.length = if leaf then 0 else ks'.length + 2) (hle : (l ++ e :: r).length ≤ 2 * t - 1)
    (hley : ks.length + 1 ≤ 2 * t - 1) (hlez : ks'.length + 1 ≤ 2 * t - 1) :
    ∃ h', Does N h (takeFromRight (heapOps t nbits supply strict) x y z l.length) (.ok ()) h' ∧
      (h'.nodes x).Holds false (l ++ k₀ :: r) L ∧ (h'.nodes y).Holds leaf (ks ++ [e]) (cs ++ cs'.take 1) ∧
      (h'.nodes z).Holds leaf ks' (cs'.drop 1) ∧ Only {x, y, z} h h' := by
  have hn := hx.count
  have hn' := hy.count
  have hn'' := hz.count
  rw [List.length_append, List.length_cons] at hn hle
  rw [List.length_cons] at hn''
  push_cast at hn hn''
  have hnext : ((ks.length : ℤ) + 1).toNat = ks.length + 1 := by omega
  have hnext' : ((ks'.length : ℤ) + 1).toNat = ks'.length + 1 := by omega
  have hkey : (h.nodes x).keys l.length = e := hx.keySlots.get
  have hfirst : (h.nodes z).keys 0 = k₀ := hz.keySlots.get_first
  have hkid := first_kid hz hb'
  refine ⟨?h', Does.of_eval fun m => ?run, ?hx, ?hy, ?hz, ?only⟩
  case run =>
    unfold takeFromRight
    simp (disch := first | omega | (simp only [Heap.set_same, Heap.set_ne, ne_eq, hxy, hxz, hyz, hxy.symm, hxz.symm,
      hyz.symm, not_false_eq_true, true_and, hn, hn', hn'', add_sub_cancel_right]; omega)) only [HeapM.bind_apply,
      eval_n, eval_key, eval_node, eval_setKey, eval_setNode, eval_moveKeys, eval_moveNodes, eval_setN, eval_persist,
      Heap.set_same, Heap.set_ne, hn', hn'', hnext, hnext', hkey, hfirst, add_sub_cancel_right, Int.toNat_natCast,
      Int.toNat_zero, Int.toNat_one]
    rfl
  case hx =>
    simp only [Heap.set_same, Heap.set_ne, ne_eq, hxy, hxz, not_false_eq_true]
    exact ⟨hx.kind, by rw [hn]; simp, hx.keySlots.set k₀, hx.kidSlots, hx.null⟩
  case hy =>
    simp only [Heap.set_same, Heap.set_ne, ne_eq, hyz, not_false_eq_true]
    exact holds_push hy hb hkid e _
  case hz =>
    rw [Heap.set_same]
    exact holds_tail hz hb' _
  case only =>
    refine ⟨fun a ha => ?_, rfl, rfl⟩
    simp only [Set.mem_insert_iff, Set.mem_singleton_iff, not_or] at ha
    simp [ha]

variable (nbits supply strict) in
theorem takeFromLeft_does {k₀ : ℕ} {i : ℤ} (hi : i - 1 = l.length) (hxy : x ≠ y) (hxz : x ≠ z) (hyz : y ≠ z)
    (hsmall : 2 * t - 1 < 2 ^ 14) (hx : (h.nodes x).Holds false (l ++ e :: r) L)
    (hy : (h.nodes y).Holds leaf (ks ++ [k₀]) cs)
    (hz : (h.nodes z).Holds leaf ks' cs') (hb : cs.length = if leaf then 0 else ks.length + 2)
    (hb' : cs'.length = if leaf then 0 else ks'.length + 1) (hle : (l ++ e :: r).length ≤ 2 * t - 1)
    (hley : ks.length + 1 ≤ 2 * t - 1) (hlez : ks'.length + 1 ≤ 2 * t - 1) :
    ∃ h', Does N h (takeFromLeft (heapOps t nbits supply strict) x z y i) (.ok ()) h' ∧
      (h'.nodes x).Holds false (l ++ k₀ :: r) L ∧ (h'.nodes y).Holds leaf ks cs.dropLast ∧
      (h'.nodes z).Holds leaf (e :: ks') (cs.getLast?.toList ++ cs') ∧ Only {x, y, z} h h' := by
  have hn := hx.count
  have hn' := hy.count
  have hn'' := hz.count
  rw [List.length_append, List.length_cons] at hn hle
  rw [List.length_append, List.length_singleton] at hn'
  push_cast at hn hn'
  have hnext : ((ks.length : ℤ) + 1).toNat = ks.length + 1 := by omega
  have hnext' : ((ks'.length : ℤ) + 1).toNat = ks'.length + 1 := by omega
  have hkey : (h.nodes x).keys l.length = e := hx.keySlots.get
  have hlast : (h.nodes y).keys ks.length = k₀ := hy.keySlots.get
  have hkid := last_kid hy hb
  refine ⟨?h', Does.of_eval fun m => ?run, ?hx, ?hy, ?hz, ?only⟩
  case run =>
    unfold takeFromLeft
    simp (disch := first | omega | (simp only [Heap.set_same, Heap.set_ne, ne_eq, hxy, hxz, hyz, hxy.symm, hxz.symm,
      hyz.symm, not_false_eq_true, hn, hn', hn'', add_sub_cancel_right]; omega)) only [HeapM.bind_apply, eval_n,
      eval_key, eval_node, eval_setKey, eval_setNode, eval_moveKeys, eval_moveNodes, eval_setN, eval_persist,
      Heap.set_same, Heap.set_ne, hi, hn', hn'', hnext, hnext', hkey, hlast, add_sub_cancel_right, Int.toNat_natCast,
      Int.toNat_zero, Int.toNat_one]
    rfl
  case hx =>
    simp only [Heap.set_same, Heap.set_ne, ne_eq, hxy, hxz, not_false_eq_true]
    exact ⟨hx.kind, by rw [hn]; simp, hx.keySlots.set k₀, hx.kidSlots, hx.null⟩
  case hy =>
    simp only [Heap.set_same, Heap.set_ne, ne_eq, hyz, not_false_eq_true]
    exact holds_init hy hb _
  case hz =>
    rw [Heap.set_same]
    exact holds_cons hz hb' hkid e _
  case only =>
    refine ⟨fun a ha => ?_, rfl, rfl⟩
    simp only [Set.mem_insert_iff, Set.mem_singleton_iff, not_or] at ha
    simp [ha]

variable (nbits supply strict) in
theorem putKey_does {i : ℤ} (hi : i + 1 = l.length) (hsmall : 2 * t - 1 < 2 ^ 14)
    (hx : (h.nodes x).Holds true (l ++ r) []) (hroom : (l ++ r).length < 2 * t - 1) (k : ℕ) :
    ∃ h', Does N h (do
      let n ← (heapOps t nbits supply strict).n x
      if i ≠ n - 1 then (heapOps t nbits supply strict).moveKeys x (i + 2) x (i + 1) (n - i - 1)
      (heapOps t nbits supply strict).setKey x (i + 1) k
      (heapOps t nbits supply strict).setN x ((← (heapOps t nbits supply strict).n x) + 1)
      (heapOps t nbits supply strict).persist x) (.ok ()) h' ∧
      (h'.nodes x).Holds true (l ++ k :: r) [] ∧ Only {x} h h' := by
  have hn := hx.count
  rw [List.length_append] at hn hroom
  push_cast at hn
  have hstart : (i + 2).toNat = l.length + 1 := by omega
  have hcount : ((l.length : ℤ) + r.length - i - 1).toNat = r.length := by omega
  have hins := hx.keySlots.insert k
  by_cases hlast : r = []
  · subst hlast
    rw [List.length_nil, move_zero] at hins
    refine ⟨?h', Does.of_eval fun m => ?run, ?hx, ?only⟩
    case run =>
      have hend : i = (h.nodes x).n - 1 := by
        rw [List.length_nil] at hn
        omega
      simp (disch := first | omega | (simp only [Heap.set_same, hn]; omega)) only [HeapM.bind_apply, eval_n,
        eval_setKey, eval_setN, eval_persist, Heap.set_same, hi, Int.toNat_natCast, ← hend, ne_eq,
        not_true_eq_false, if_false]
      rfl
    case hx =>
      rw [Heap.set_same]
      exact ⟨hx.kind, by rw [hn]; simp, hins, Filled.nil _, hx.null⟩
    case only => exact ⟨fun a ha => by simp [show a ≠ x from ha], rfl, rfl⟩
  · have hpos := List.length_pos_iff.mpr hlast
    refine ⟨?h₁, Does.of_eval fun m => ?run₁, ?hx₁, ?only₁⟩
    case run₁ =>
      have hend : i ≠ (l.length : ℤ) + r.length - 1 := by omega
      simp (disch := first | omega | (simp only [Heap.set_same, hn]; omega)) only [HeapM.bind_apply, eval_n,
        eval_moveKeys, eval_setKey, eval_setN, eval_persist, Heap.set_same, hi, hn, hstart, hcount, Int.toNat_natCast,
        if_pos hend]
      rfl
    case hx₁ =>
      rw [Heap.set_same]
      exact ⟨hx.kind, by simp; omega, hins, Filled.nil _, hx.null⟩
    case only₁ => exact ⟨fun a ha => by simp [show a ≠ x from ha], rfl, rfl⟩

/-! ## Loops -/

@[simp] theorem Heap.set_self (h : Heap) (x : ℕ) :
    h.set x ⟨(h.nodes x).leaf, (h.nodes x).n, (h.nodes x).keys, (h.nodes x).kids, (h.nodes x).pPtr⟩ = h := by
  change h.set x (h.nodes x) = h
  rw [Heap.set, Function.update_eq_self]

@[simp] theorem Heap.set_set (h : Heap) (x : ℕ) (r r' : NodeRec) : (h.set x r).set x r' = h.set x r' := by
  rw [Heap.set, Heap.set, Heap.set, Function.update_idem]

theorem forUp_eval {m : Memo} (body : ℤ → HeapM Unit) : ∀ (count : ℕ) (j : ℤ) (st : ℕ → Heap),
    (∀ s < count, body (j + s) (st s) m = (.ok (), st (s + 1), m)) → forUp body count j (st 0) m = (.ok (), st count, m)
  | 0, _, _, _ => rfl
  | count + 1, j, st, hbody => by
    have hfirst := hbody 0 (Nat.succ_pos _)
    rw [Nat.cast_zero, add_zero] at hfirst
    have hrest := forUp_eval body count (j + 1) (fun s => st (s + 1)) fun s hs => by
      have := hbody (s + 1) (by omega)
      rwa [Nat.cast_succ, ← add_assoc, add_right_comm] at this
    simp only [forUp, HeapM.bind_apply, hfirst]
    exact hrest

theorem forDown_eval {m : Memo} (body : ℤ → HeapM Unit) : ∀ (count : ℕ) (j : ℤ) (st : ℕ → Heap),
    (∀ s < count, body (j - s) (st s) m = (.ok (), st (s + 1), m)) →
      forDown body count j (st 0) m = (.ok (), st count, m)
  | 0, _, _, _ => rfl
  | count + 1, j, st, hbody => by
    have hfirst := hbody 0 (Nat.succ_pos _)
    rw [Nat.cast_zero, sub_zero] at hfirst
    have hrest := forDown_eval body count (j - 1) (fun s => st (s + 1)) fun s hs => by
      have := hbody (s + 1) (by omega)
      rwa [Nat.cast_succ, show j - ((s : ℤ) + 1) = j - 1 - s by ring] at this
    simp only [forDown, HeapM.bind_apply, hfirst]
    exact hrest

theorem copyKeys_eval {m : Memo} (hzy : z ≠ y) (hn : (h.nodes y).n = 2 * t - 1) {count : ℕ} (hc : count ≤ t - 1) :
    (forUp (fun j => do (heapOps t nbits supply strict).setKey z j (← (heapOps t nbits supply strict).key y (j + t)))
    count 0 : HeapM Unit) h m =
      (.ok (), h.set z { h.nodes z with keys := move (h.nodes z).keys (h.nodes y).keys 0 t count }, m) := by
  have hloop := forUp_eval (m := m) (fun j => do
    (heapOps t nbits supply strict).setKey z j (← (heapOps t nbits supply strict).key y (j + t))) count 0
    (fun s => h.set z { h.nodes z with keys := move (h.nodes z).keys (h.nodes y).keys 0 t s }) fun s hs => by
      have hidx : (0 + (s : ℤ)).toNat = 0 + s := by omega
      have hidx' : (0 + (s : ℤ) + t).toNat = t + s := by omega
      simp (disch := first | omega | (simp only [Heap.set_ne, ne_eq, hzy.symm, not_false_eq_true, hn]; omega)) only
        [HeapM.bind_apply, eval_key, eval_setKey, Heap.set_same, Heap.set_ne, Heap.set_set, hidx, hidx', move_succ_left]
  simp only [move_zero, Heap.set_self] at hloop
  exact hloop

theorem copyNodes_eval {m : Memo} (hzy : z ≠ y) (hn : (h.nodes y).n = 2 * t - 1) {count : ℕ} (hc : count ≤ t) :
    (forUp (fun j => do (heapOps t nbits supply strict).setNode z j (← (heapOps t nbits supply strict).node y (j + t)))
    count 0 : HeapM Unit) h m =
      (.ok (), h.set z { h.nodes z with kids := move (h.nodes z).kids (h.nodes y).kids 0 t count }, m) := by
  have hloop := forUp_eval (m := m) (fun j => do
    (heapOps t nbits supply strict).setNode z j (← (heapOps t nbits supply strict).node y (j + t))) count 0
    (fun s => h.set z { h.nodes z with kids := move (h.nodes z).kids (h.nodes y).kids 0 t s }) fun s hs => by
      have hidx : (0 + (s : ℤ)).toNat = 0 + s := by omega
      have hidx' : (0 + (s : ℤ) + t).toNat = t + s := by omega
      simp (disch := first | omega | (simp only [Heap.set_ne, ne_eq, hzy.symm, not_false_eq_true, hn]; omega)) only
        [HeapM.bind_apply, eval_node, eval_setNode, Heap.set_same, Heap.set_ne, Heap.set_set, hidx, hidx',
          move_succ_left]
  simp only [move_zero, Heap.set_self] at hloop
  exact hloop

theorem copyNodes_unless {β : Type} {m : Memo} (hzy : z ≠ y) (hn : (h.nodes y).n = 2 * t - 1) {count : ℕ}
    (hc : count ≤ t) (b : Bool) (jp : Unit → HeapM β) :
    (if (!b) = true then (do
      let u ← forUp (fun j => do
        (heapOps t nbits supply strict).setNode z j (← (heapOps t nbits supply strict).node y (j + t))) count 0
      jp u) else jp ()) h m = jp () (h.set z { h.nodes z with
        kids := if b then (h.nodes z).kids else move (h.nodes z).kids (h.nodes y).kids 0 t count }) m := by
  cases b with
  | true =>
    simp only [Bool.not_true, Bool.false_eq_true, if_false, if_true, Heap.set_self]
  | false =>
    simp only [Bool.not_false, if_true, Bool.false_eq_true, if_false, HeapM.bind_apply, copyNodes_eval hzy hn hc]

theorem shiftNodes_eval {m : Memo} (lo : ℕ) {count : ℕ} {j : ℤ} (hj : j + 1 = lo + count) (hn : j ≤ (h.nodes x).n)
    (hlt : j + 1 < 2 * t) :
    (forDown (fun j => do (heapOps t nbits supply strict).setNode x (j + 1) (← (heapOps t nbits
    supply strict).node x j)) count j :
        HeapM Unit) h m =
      (.ok (), h.set x { h.nodes x with kids := move (h.nodes x).kids (h.nodes x).kids (lo + 1) lo count }, m) := by
  have hloop := forDown_eval (m := m) (fun j => do
    (heapOps t nbits supply strict).setNode x (j + 1) (← (heapOps t nbits supply strict).node x j)) count j
    (fun s => h.set x
      { h.nodes x with kids := move (h.nodes x).kids (h.nodes x).kids (lo + (count - s) + 1) (lo + (count - s)) s })
    fun s hs => by
      have hidx : (j - (s : ℤ)).toNat = lo + (count - (s + 1)) := by omega
      have hidx' : (j - (s : ℤ) + 1).toNat = lo + (count - (s + 1)) + 1 := by omega
      have hstep := move_succ_right (h.nodes x).kids (h.nodes x).kids (lo + (count - (s + 1)) + 1)
        (lo + (count - (s + 1))) s
      simp (disch := first | omega | (simp only [Heap.set_same]; omega)) only [HeapM.bind_apply, eval_node, eval_setNode,
        Heap.set_same, Heap.set_set, hidx, hidx', move_of_lt, show count - s = count - (s + 1) + 1 by
          omega, ← add_assoc, hstep]
  simp only [Nat.sub_zero, move_zero, Heap.set_self, Nat.sub_self, Nat.add_zero] at hloop
  exact hloop

theorem shiftKeys_eval {m : Memo} (lo : ℕ) {count : ℕ} {j : ℤ} (hj : j + 1 = lo + count) (hn : j ≤ (h.nodes x).n)
    (hlt : j + 1 < 2 * t - 1) :
    (forDown (fun j => do (heapOps t nbits supply strict).setKey x (j + 1) (← (heapOps t nbits supply
    strict).key x j)) count j :
        HeapM Unit) h m =
      (.ok (), h.set x { h.nodes x with keys := move (h.nodes x).keys (h.nodes x).keys (lo + 1) lo count }, m) := by
  have hloop := forDown_eval (m := m) (fun j => do
    (heapOps t nbits supply strict).setKey x (j + 1) (← (heapOps t nbits supply strict).key x j)) count j
    (fun s => h.set x
      { h.nodes x with keys := move (h.nodes x).keys (h.nodes x).keys (lo + (count - s) + 1) (lo + (count - s)) s })
    fun s hs => by
      have hidx : (j - (s : ℤ)).toNat = lo + (count - (s + 1)) := by omega
      have hidx' : (j - (s : ℤ) + 1).toNat = lo + (count - (s + 1)) + 1 := by omega
      have hstep := move_succ_right (h.nodes x).keys (h.nodes x).keys (lo + (count - (s + 1)) + 1)
        (lo + (count - (s + 1))) s
      simp (disch := first | omega | (simp only [Heap.set_same]; omega)) only [HeapM.bind_apply, eval_key, eval_setKey,
        Heap.set_same, Heap.set_set, hidx, hidx', move_of_lt, show count - s = count - (s + 1) + 1 by
          omega, ← add_assoc, hstep]
  simp only [Nat.sub_zero, move_zero, Heap.set_self, Nat.sub_self, Nat.add_zero] at hloop
  exact hloop

theorem holds_upper {r : NodeRec} (ht : 1 ≤ t) (hr : r.Holds leaf ks cs) (hfull : ks.length = 2 * t - 1)
    (hb : cs.length = if leaf then 0 else ks.length + 1) (p : ℕ) :
    (⟨r.leaf, t - 1, move (fun _ => 0) r.keys 0 t (t - 1), if leaf then fun _ => 0 else move (fun _ => 0) r.kids 0 t t,
    p⟩ : NodeRec).Holds leaf (ks.drop t) (cs.drop t) := by
  refine ⟨hr.kind, ?_, ?_, ?_, fun hl i => by simp [hl]⟩
  · rw [List.length_drop]
    dsimp only
    omega
  · have hkeys := hr.keySlots
    rw [← List.take_append_drop t ks] at hkeys
    have hsuf := hkeys.suffix (f := fun _ => 0)
    rw [List.length_take, List.length_drop, show min t ks.length = t by omega, show ks.length - t = t - 1 by omega]
      at hsuf
    exact hsuf
  · cases leaf with
    | true =>
      obtain rfl := List.length_eq_zero_iff.mp hb
      rw [List.drop_nil]
      exact Filled.nil _
    | false =>
      have hkids := hr.kidSlots
      rw [← List.take_append_drop t cs] at hkids
      have hsuf := hkids.suffix (f := fun _ => 0)
      have hlen : cs.length = 2 * t := by
        rw [hb, hfull]
        simp only [Bool.false_eq_true, if_false]
        omega
      rw [List.length_take, List.length_drop, hlen, show min t (2 * t) = t by omega, show 2 * t - t = t by omega] at hsuf
      exact hsuf

theorem holds_lower {r : NodeRec} (ht : 1 ≤ t) (hr : r.Holds leaf ks cs) (hfull : ks.length = 2 * t - 1) (p : ℕ) :
    (⟨r.leaf, t - 1, r.keys, r.kids, p⟩ : NodeRec).Holds leaf (ks.take (t - 1)) (cs.take t) := by
  have hkeys := hr.keySlots
  have hkids := hr.kidSlots
  rw [← List.take_append_drop (t - 1) ks] at hkeys
  rw [← List.take_append_drop t cs] at hkids
  refine ⟨hr.kind, ?_, hkeys.left, hkids.left, hr.null⟩
  rw [List.length_take]
  dsimp only
  omega

variable (nbits supply strict) in
theorem btreesplitchild_does (ht : 2 ≤ t) (hsmall : 2 * t - 1 < 2 ^ 14) (hxy : x ≠ y) (hxz : x ≠ supply h.next)
    (hyz : y ≠ supply h.next) (hx : (h.nodes x).Holds false (l ++ r) (L ++ y :: R)) (hL : L.length = l.length)
    (hR : R.length = r.length) (hroom : (l ++ r).length < 2 * t - 1) (hy : (h.nodes y).Holds leaf ks cs)
    (hfull : ks.length = 2 * t - 1) (hb : cs.length = if leaf then 0 else ks.length + 1) :
    ∃ h', Does N h (btreesplitchild (heapOps t nbits supply strict) x l.length y) (.ok ()) h' ∧
      (h'.nodes x).Holds false (l ++ ks.getD (t - 1) 0 :: r) (L ++ y :: supply h.next :: R) ∧
      (h'.nodes y).Holds leaf (ks.take (t - 1)) (cs.take t) ∧ (h'.nodes (supply h.next)).Holds leaf (ks.drop t)
      (cs.drop t) ∧
      (∀ a, a ≠ x → a ≠ y → a ≠ supply h.next → h'.nodes a = h.nodes a) ∧ h'.root = h.root ∧ h'.next = h.next + 1 := by
  have hn := hx.count
  have hn' := hy.count
  rw [List.length_append] at hn hroom
  rw [hfull] at hn'
  push_cast [show 1 ≤ 2 * t by omega] at hn hn'
  have ht' : ((t : ℤ) - 1).toNat = t - 1 := by omega
  have hcount : ((l.length : ℤ) + r.length - l.length).toNat = r.length := by omega
  have hnext : ((l.length : ℤ) + 1).toNat = l.length + 1 := by omega
  have hmedian : (h.nodes y).keys (t - 1) = ks.getD (t - 1) 0 := by
    rw [hy.keySlots (t - 1) (by omega), List.getD_eq_getElem _ _ (by omega)]
  have hins := hx.keySlots.insert (ks.getD (t - 1) 0)
  have hkids := hx.kidSlots
  rw [List.append_cons] at hkids
  have hins' := hkids.insert (supply h.next)
  rw [List.length_append, List.length_singleton, hL, hR, List.append_assoc] at hins'
  refine ⟨?h', Does.of_eval fun m => ?run, ?hx, ?hy, ?hz, ?rest, ?root, ?next⟩
  case run =>
    unfold btreesplitchild
    simp (disch := first | omega | (simp only [Heap.set_same, Heap.set_ne, Heap.alloc_ne, ne_eq, hxy, hxz, hyz, hxy.symm,
      hxz.symm, hyz.symm, not_false_eq_true, hn, hn'] <;> omega) | fail) only [HeapM.bind_apply, eval_alloc,
      eval_setPPtr, eval_leaf, eval_setLeaf, eval_t, eval_setN, eval_n, copyKeys_eval, copyNodes_unless,
      shiftNodes_eval (l.length + 1), shiftKeys_eval l.length, eval_key, eval_setKey, eval_setNode, eval_persist,
      eval_activate, Heap.set_same, Heap.set_ne, Heap.alloc_ne, Heap.alloc_same, Heap.set_set, hy.kind, hn, ht', hcount,
      hnext, hmedian, Int.toNat_natCast]
    rfl
  case hx =>
    rw [Heap.set_same]
    exact ⟨hx.kind, by simp; omega, hins, hins', fun hl => absurd hl (by decide)⟩
  case hy =>
    rw [Heap.set_ne _ hxy.symm, Heap.set_same]
    have hlower := holds_lower (by omega) hy hfull (h.nodes y).pPtr
    rwa [hy.kind] at hlower
  case hz =>
    rw [Heap.set_ne _ hxz.symm, Heap.set_ne _ hyz.symm, Heap.set_same]
    have hupper := holds_upper (by omega) hy hfull hb (supply h.next)
    rwa [hy.kind] at hupper
  case rest =>
    intro a hax hay haz
    rw [Heap.set_ne _ hax, Heap.set_ne _ hay, Heap.set_ne _ haz, Heap.alloc_ne _ haz]
  case root => rfl
  case next => rfl

end Moves

end PmemExamples.BTree
