import PmemExamples.Pool.Calls
import PmemExamples.WordTree.Count

/-! # A crash in `tree_insert`

The activation makes the new node reachable before its members are stored. So a crash after it leaves a
tree in which the node has whatever its memory held; an insertion that finds the string, or no room, or
a block that holds that very node already is atomic, and no other is. That takes what the insertions before it
stored to be durable, as it is when their persists were executed. -/

namespace PmemExamples.WordTree
open Persist Libpmem Tiling Pool SearchTree
set_option autoImplicit false

/-! ## The tree a memory holds -/

section Links
variable {α : Type} {addr : α → ℕ} {d : Mem}

theorem Links.unique {t t' : BinaryTree α} {ptr_ : ℕ} (h : Links addr d ptr_ t) (h' : Links addr d ptr_ t') :
    (inorder t').map addr = (inorder t).map addr := by
  induction t generalizing t' ptr_ with
  | nil =>
    cases t' with
    | nil => rfl
    | node y l' r' => exact absurd (h'.1.symm.trans h) h'.2.1
  | node x l r ihl ihr =>
    cases t' with
    | nil => exact absurd (h.1.symm.trans h') h.2.1
    | node y l' r' =>
      obtain ⟨h1, -, hl, hr⟩ := h
      obtain ⟨h1', -, hl', hr'⟩ := h'
      have hxy : addr y = addr x := h1'.symm.trans h1
      rw [hxy] at hl' hr'
      simp only [inorder_node, List.map_append, List.map_cons, ihl hl hl', ihr hr hr', hxy]

theorem Around.place {c : Context α} (h : Around addr d c) {t : BinaryTree α}
    (ht : Links addr d (d pmemStaticOffset) t) :
    ∃ c' u, t = c'.plug u ∧ slot addr c' = slot addr c ∧ c'.before.map addr = c.before.map addr ∧
      c'.after.map addr = c.after.map addr ∧ Links addr d (d (slot addr c)) u := by
  induction c with
  | top => exact ⟨.top, t, rfl, rfl, rfl, rfl, ht⟩
  | left x r up ih =>
    obtain ⟨hup, hptr, hnz, hr⟩ := h
    obtain ⟨up', u, rfl, -, hbefore, hafter, hu⟩ := ih hup
    rw [hptr] at hu
    cases u with
    | nil => exact absurd hu hnz
    | node y l' r' =>
      obtain ⟨hxy, -, hl', hr'⟩ := hu
      rw [← hxy] at hl' hr'
      refine ⟨.left y r' up', l', rfl, hxy.symm, hbefore, ?_, hl'⟩
      simp only [Context.after, List.map_cons, List.map_append, ← hxy, hr.unique hr', hafter]
  | right x l up ih =>
    obtain ⟨hup, hptr, hnz, hl⟩ := h
    obtain ⟨up', u, rfl, -, hbefore, hafter, hu⟩ := ih hup
    rw [hptr] at hu
    cases u with
    | nil => exact absurd hu hnz
    | node y l' r' =>
      obtain ⟨hxy, -, hl', hr'⟩ := hu
      rw [← hxy] at hl' hr'
      refine ⟨.right y l' up', r', rfl, congrArg (· + 8) hxy.symm, ?_, hafter, hr'⟩
      simp only [Context.before, List.map_cons, List.map_append, List.map_nil, ← hxy, hl.unique hl', hbefore]

end Links

/-! ## The map of a tree -/

/-- The count of a string. -/
def tally (t : BinaryTree Tnode) (k : CString) : Option ℕ :=
  ((inorder t).find? fun x => x.s = k).map Tnode.count

/-- The map with the count of `s` raised by one. -/
def raised (f : CString → Option ℕ) (s : CString) : CString → Option ℕ :=
  Function.update f s (some (match f s with
    | some n => (n + 1) % 2 ^ 32
    | none => 1))

/-- The map with `ss` counted in, the last one first. -/
def tallies (f : CString → Option ℕ) (ss : List CString) : CString → Option ℕ := ss.foldr (fun s f => raised f s) f

theorem tallies_append (f : CString → Option ℕ) (ss ss' : List CString) :
    tallies f (ss ++ ss') = tallies (tallies f ss') ss :=
  List.foldr_append

section Tally
variable {t t' : BinaryTree Tnode} {s k : CString} {n : ℕ}

theorem tally_eq_none : tally t k = none ↔ ∀ x ∈ inorder t, x.s ≠ k := by
  simp [tally]

theorem tally_of_mem (hs : Sorted Tnode.s t) {x : Tnode} (hx : x ∈ inorder t) : tally t x.s = some x.count := by
  obtain ⟨y, hy⟩ := Option.isSome_iff_exists.mp (List.find?_isSome (p := fun y : Tnode => y.s = x.s).mpr
    ⟨x, hx, by simp⟩)
  have hys : y.s = x.s := by simpa using List.find?_some hy
  have hxy := List.inj_on_of_nodup_map hs.nodup (List.mem_of_find?_eq_some hy) hx hys
  rw [tally, hy, hxy]
  rfl

theorem tally_eq_some (hs : Sorted Tnode.s t) : tally t k = some n ↔ ∃ x ∈ inorder t, x.s = k ∧ x.count = n := by
  constructor
  · intro h
    obtain ⟨x, hx, hn⟩ := Option.map_eq_some_iff.mp h
    exact ⟨x, List.mem_of_find?_eq_some hx, by simpa using List.find?_some hx, hn⟩
  · rintro ⟨x, hx, rfl, rfl⟩
    exact tally_of_mem hs hx

theorem Inserted.raised (h : Inserted s t t') (hs : Sorted Tnode.s t) (hs' : Sorted Tnode.s t') :
    tally t' = raised (tally t) s := by
  funext k
  unfold WordTree.raised
  by_cases hk : k = s
  · subst hk
    rw [Function.update_self]
    cases h with
    | new c n hlead =>
      obtain ⟨hbefore, hafter⟩ := hlead.apart hs
      have hnone : tally (c.plug .nil) k = none := by
        refine tally_eq_none.mpr fun x hx => ?_
        rw [Context.inorder_plug, inorder_nil, List.append_nil, List.mem_append] at hx
        exact hx.elim (fun h => (hbefore x h).ne) fun h => (hafter x h).ne'
      rw [hnone]
      exact tally_of_mem hs' (x := ⟨n, 1, k⟩) (Context.mem_plug_node.mpr (Or.inl rfl))
    | old c x l r hx =>
      subst hx
      rw [tally_of_mem hs (Context.mem_plug_node.mpr (Or.inl rfl))]
      exact tally_of_mem hs' (x := { x with count := (x.count + 1) % 2 ^ 32 }) (Context.mem_plug_node.mpr (Or.inl rfl))
  · rw [Function.update_of_ne hk]
    -- the other strings have the nodes they had
    have hmem : ∀ x : Tnode, x.s = k → (x ∈ inorder t' ↔ x ∈ inorder t) := by
      intro x hx
      cases h with
      | new c n hlead =>
        rw [Context.mem_plug_node, Context.inorder_plug_nil]
        exact or_iff_right fun heq => hk (by rw [← hx, heq])
      | old c y l r hy =>
        rw [Context.mem_plug_node, Context.mem_plug_node]
        refine or_congr ⟨fun heq => absurd ?_ hk, fun heq => absurd ?_ hk⟩ Iff.rfl
        · rw [← hx, heq, ← hy]
        · rw [← hx, heq, hy]
    refine Option.ext fun n => ?_
    rw [tally_eq_some hs', tally_eq_some hs]
    constructor
    · rintro ⟨x, hx, hxk, hn⟩
      exact ⟨x, (hmem x hxk).mp hx, hxk, hn⟩
    · rintro ⟨x, hx, hxk, hn⟩
      exact ⟨x, (hmem x hxk).mpr hx, hxk, hn⟩

end Tally

/-! ## A node that is linked but not filled in -/

/-- The words at `n` are those of a new node for `s`. -/
structure NodeAt (d : Mem) (n : ℕ) (s : CString) : Prop where
  left : d n = 0
  right : d (n + 8) = 0
  count : d (n + 16) % 2 ^ 32 = 1
  string : StringAt d (n + 20) s.bytes

section Hung
variable {c : Context Tnode} {d d' : Mem} {cs : List Clump} {e n len : ℕ} {s : CString} {t : BinaryTree Tnode}

theorem NodeAt.congr (h : NodeAt d n s) (hn : 8 ∣ n)
    (hd : ∀ y, n ≤ y → y < n + (sizeofTnode + (s.bytes.length + 1)) → d' y = d y) : NodeAt d' n s := by
  simp only [sizeofTnode] at hd
  refine ⟨by rw [hd _ (by omega) (by omega), h.left], by rw [hd _ (by omega) (by omega), h.right],
    by rw [hd _ (by omega) (by omega), h.count], h.string.congr fun i hi => ?_⟩
  unfold byteAt
  rw [hd _ (by unfold wordOf; omega) (by unfold wordOf; omega)]

theorem cstring_eq {s s' : CString} (h : s.bytes = s'.bytes) : s = s' := by
  cases s
  cases s'
  exact (CString.mk.injEq ..).mpr h

theorem Written.unique {x y : Tnode} (hx : Written x d cs) (hy : Written y d cs) (h : x.ptr_ = y.ptr_) : x = y := by
  obtain ⟨-, hxc, hxs⟩ := hx
  obtain ⟨-, hyc, hys⟩ := hy
  rw [h] at hxc hxs
  have hs : x.s = y.s :=
    cstring_eq (hxs.unique (fun b hb => (x.s.range b hb).1) (fun b hb => (y.s.range b hb).1) hys)
  cases x
  cases y
  simp only [Tnode.mk.injEq]
  exact ⟨h, hxc.symm.trans hyc, hs⟩

/-- In any tree of the memory the linked node is a leaf at its place. -/
theorem Hung.leaf (h : Hung c n len d cs) (ht : TreeOf t d cs) :
    ∃ (c' : Context Tnode) (x : Tnode), t = c'.plug (.node x .nil .nil) ∧
    x.ptr_ = n ∧ d n = 0 ∧ d (n + 8) = 0 ∧ ∀ y, y ∈ c'.before ++ c'.after ↔ y ∈ c.before ++ c.after := by
  obtain ⟨c', u, rfl, -, hbefore, hafter, hu⟩ := h.around.place ht.nodes.links
  obtain ⟨b, -, -, hba, -⟩ := h.clump
  rw [h.linked] at hu
  cases u with
  | nil =>
    have hz : n = 0 := hu
    omega
  | node x l r =>
    obtain ⟨rfl, -, hl, hr⟩ := hu
    have hptrs : (c'.before ++ c'.after).map Tnode.ptr_ = (c.before ++ c.after).map Tnode.ptr_ := by
      rw [List.map_append, List.map_append, hbefore, hafter]
    -- the active clumps leave no node for the subtrees
    have hperm : ((inorder (c'.plug (.node x l r))).map Tnode.ptr_).Perm
      (x.ptr_ :: (c.before ++ c.after).map Tnode.ptr_) := by
      refine (List.perm_ext_iff_of_nodup ht.nodes.nodup (List.nodup_cons.mpr ⟨h.fresh, h.nodup⟩)).mpr fun k => ?_
      rw [ht.nodes.actives, ← h.actives, List.mem_cons]
    have hlen := hperm.length_eq
    rw [← hptrs] at hlen
    simp only [Context.inorder_plug, inorder_node, List.length_map, List.length_append, List.length_cons] at hlen
    have hnil : ∀ v : BinaryTree Tnode, (inorder v).length = 0 → v = .nil := by
      intro v hv
      cases v with
      | nil => rfl
      | node y l' r' => simp at hv
    obtain rfl := hnil l (by omega)
    obtain rfl := hnil r (by omega)
    have hmem : ∀ y ∈ c'.before ++ c'.after, y ∈ inorder (c'.plug (.node x .nil .nil)) := by
      intro y hy
      rw [Context.inorder_plug]
      simp only [List.mem_append] at hy ⊢
      tauto
    refine ⟨c', x, rfl, rfl, hl, hr, fun y => ⟨fun hy => ?_, fun hy => ?_⟩⟩
    · obtain ⟨z, hz, hzy⟩ := List.mem_map.mp (hptrs ▸ List.mem_map_of_mem (f := Tnode.ptr_) hy)
      rwa [(ht.written y (hmem y hy)).unique (h.written z hz) hzy.symm]
    · obtain ⟨z, hz, hzy⟩ := List.mem_map.mp (hptrs.symm ▸ List.mem_map_of_mem (f := Tnode.ptr_) hy)
      rwa [(h.written y hy).unique (ht.written z (hmem z hz)) hzy.symm]

end Hung

/-! ## Filling in what is there -/

theorem setByte_byteOf (word i : ℕ) : setByte word i (byteOf word i) = word := by
  rw [setByte, byteOf, pow_succ, ← Nat.div_div_eq_div_mul, Nat.mod_add_div, Nat.mod_add_div]

theorem setLow_of_mod {word v : ℕ} (h : word % 2 ^ 32 = v) : setLow word v = word := by
  unfold setLow
  omega

theorem copyEvents_silent {d : Mem} :
    ∀ {s : List ℕ} {a : ℕ}, StringAt d a s → ∀ {x v : ℕ}, .store x v ∈ copyEvents d a s → v = d x
  | [], a, h, x, v, hev => by
    obtain ⟨rfl, rfl⟩ : x = wordOf a ∧ v = setByte (d (wordOf a)) (a % 8) 0 := by simpa [copyEvents] using hev
    rw [show 0 = byteOf (d (wordOf a)) (a % 8) from Eq.symm h, setByte_byteOf]
  | b :: s, a, h, x, v, hev => by
    have hb : setByte (d (wordOf a)) (a % 8) b = d (wordOf a) := by
      rw [← show byteOf (d (wordOf a)) (a % 8) = b from h.1, setByte_byteOf]
    rw [copyEvents, hb, Function.update_eq_self, List.mem_cons] at hev
    rcases hev with heq | hev
    · obtain ⟨rfl, rfl⟩ := Event.store.inj heq
      rfl
    · exact copyEvents_silent h.2 hev

theorem NodeAt.silent {d : Mem} {n : ℕ} {s : CString} (h : NodeAt d n s) {x v : ℕ}
    (hev : .store x v ∈ fillEvents d n s) : v = d x := by
  have hkeep : applyAll (memberEvents d n) d = d := by
    simp only [memberEvents, applyAll_store, applyAll_nil, setLow_of_mod h.count]
    rw [show Function.update d (n + 8) 0 = d by rw [← h.right, Function.update_eq_self],
      show Function.update d n 0 = d by rw [← h.left, Function.update_eq_self], Function.update_eq_self]
  rw [fillEvents, storeEvents, hkeep, List.mem_append, List.mem_append] at hev
  rcases hev with (hev | hev) | hev
  · simp only [memberEvents, List.mem_cons, Event.store.injEq, List.not_mem_nil, or_false, setLow_of_mod h.count] at hev
    rcases hev with ⟨rfl, rfl⟩ | ⟨rfl, rfl⟩ | ⟨rfl, rfl⟩
    · exact h.right.symm
    · exact h.left.symm
    · rfl
  · exact copyEvents_silent h.string hev
  · simp at hev

/-! ## Crash atomicity -/

theorem crashDuring_congr {α : Type} {prog prog' : Prog α} {w : World} {img : Mem} (h : prog w = prog' w) :
    CrashDuring prog w img ↔ CrashDuring prog' w img := by
  rw [CrashDuring, CrashDuring, h]

section Atomic
variable {w : World} {p gclp e n len : ℕ} {cs : List Clump} {c : Context Tnode} {t : BinaryTree Tnode} {s : CString}
    {d d₀ : Mem}
  {P : BinaryTree Tnode → Prop}

theorem end_of_poised {S : Mem → List Clump → Prop} (h : Poised w p gclp cs e S) : pmemClumpOffset < e := by
  obtain ⟨b, hb⟩ := List.exists_mem_of_ne_nil cs h.nonempty
  have := h.chain.tiles.bounds hb
  have := h.chain.size_pos hb
  omega

end Atomic

/-! ## Trees that insertions build -/

/-- Completed insertions into an empty tree, the last one first, in any number of processes that map the pool
one after another, in any build and with any values of the flag. -/
inductive Built (e : ℕ) : World → ℕ → ℕ → List CString → Prop where
  | empty {w : World} {p gclp : ℕ} {cs : List Clump} (h : Poised w p gclp cs e (TreeOf .nil)) : Built e w p gclp []
  | insert {w w' : World} {p gclp gclp' : ℕ} {ss : List CString} {s : CString} (h : Built e w p gclp ss)
      (hrun : treeInsert p gclp s w = (.ok gclp', w')) : Built e w' p gclp' (s :: ss)
  | reopen {w w₁ w' : World} {p p' gclp : ℕ} {ss : List CString} (h : Built e w p gclp ss) (hp : Mapped p' e)
      (hbase : fileAt p' w₁.base = fileAt p w.mem) (htrace : w₁.trace = []) (hrun : recovery p' w₁ = (.ok (), w')) :
      Built e w' p' 0 ss

section Built
variable {w : World} {p gclp e : ℕ} {cs : List Clump} {t t' : BinaryTree Tnode} {s : CString} {ss : List CString}

theorem Inserted.strings (h : Inserted s t t') (k : CString) :
    (∃ x ∈ inorder t', x.s = k) ↔ k = s ∨ ∃ x ∈ inorder t, x.s = k := by
  cases h with
  | new c n hlead =>
    simp only [Context.mem_plug_node, Context.inorder_plug_nil, exists_eq_or_imp, eq_comm (a := k)]
  | old c x l r hx =>
    subst hx
    simp only [Context.mem_plug_node, exists_eq_or_imp, eq_comm (a := k), or_self_left]

/-- Each call leaves the memory with the tree of the strings inserted so far. -/
theorem Built.poised (h : Built e w p gclp ss) : ∃ cs t, Poised w p gclp cs e (TreeOf t) ∧
    tally t = tallies (fun _ => none) ss ∧ ∀ k, (∃ x ∈ inorder t, x.s = k) ↔ k ∈ ss := by
  induction h with
  | empty h => exact ⟨_, .nil, h, funext fun k => rfl, by simp⟩
  | @insert w w' p gclp gclp' ss s h hrun ih =>
    obtain ⟨cs, t, hpoised, htally, hmem⟩ := ih
    rcases insert_step hpoised s with hfatal | ⟨g, evs, cs', t', hins, hruns, w₁, hrun₁, h₁⟩
    · obtain ⟨w₁, hrun₁⟩ := hfatal w rfl
      rw [hrun₁] at hrun
      cases hrun
    · obtain ⟨hres, hmem'⟩ := hruns.mem_eq (w := w) rfl
      have hmem₁ := (hruns.mem_eq rfl).2
      rw [hrun] at hres hmem'
      rw [hrun₁, ← hmem'] at hmem₁
      obtain rfl := Outcome.ok.inj hres
      have hpoised' : Poised w' p gclp' cs' e (TreeOf t') := by
        rw [Poised, ← hmem₁]
        exact h₁.poised
      refine ⟨cs', t', hpoised', ?_, fun k => ?_⟩
      · rw [hins.raised hpoised.state.sorted h₁.state.sorted, htally]
        rfl
      · rw [hins.strings, hmem, List.mem_cons]
  | reopen h hp hbase htrace hrun ih =>
    obtain ⟨cs, t, hpoised, htally, hmem⟩ := ih
    obtain ⟨w₁, cs', hrun₁, h₁⟩ := hpoised.recoversTo.poised (stable_treeOf t) (end_of_poised hpoised) hp hbase htrace
    rw [hrun₁] at hrun
    cases hrun
    exact ⟨cs', t, h₁, htally, hmem⟩

end Built

end PmemExamples.WordTree
