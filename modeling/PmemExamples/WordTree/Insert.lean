import PmemExamples.WordTree.Shape

/-! # What `tree_insert` does to the tree

A search leads to the node of the string, whose count is raised, or to an empty slot. A new node is
linked there by the activation (`Hung`), with whatever its memory held, and filled in afterwards. -/

namespace PmemExamples.WordTree
open Persist Libpmem Tiling Pool SearchTree
set_option autoImplicit false

/-- A node of the word tree. -/
structure Tnode where
  ptr_ : ℕ
  count : ℕ
  s : CString
  deriving DecidableEq

/-- The node has a clump big enough, with its count and its string. -/
structure Written (x : Tnode) (d : Mem) (cs : List Clump) : Prop where
  clump : ∃ b ∈ cs, b.tag = .active ∧ b.addr + 64 = x.ptr_ ∧ 64 + (sizeofTnode + (x.s.bytes.length + 1)) ≤ b.size
  count : d (x.ptr_ + 16) % 2 ^ 32 = x.count
  string : StringAt d (x.ptr_ + 20) x.s.bytes

/-- The sorted tree at the root is `t`, and the active clumps are its nodes. -/
structure TreeOf (t : BinaryTree Tnode) (d : Mem) (cs : List Clump) : Prop where
  nodes : NodesOf Tnode.ptr_ t d cs
  written : ∀ x ∈ inorder t, Written x d cs
  sorted : Sorted Tnode.s t

/-- The tree has an empty place `c` but for a node `n` that is linked there, its members not yet set. -/
structure Hung (c : Context Tnode) (n len : ℕ) (d : Mem) (cs : List Clump) : Prop where
  around : Around Tnode.ptr_ d c
  linked : d (slot Tnode.ptr_ c) = n
  fresh : n ∉ (c.before ++ c.after).map Tnode.ptr_
  nodup : ((c.before ++ c.after).map Tnode.ptr_).Nodup
  actives : ∀ k, k = n ∨ k ∈ (c.before ++ c.after).map Tnode.ptr_ ↔ ∃ b ∈ cs, b.tag = .active ∧ b.addr + 64 = k
  room : ∀ b ∈ cs, b.tag = .active → 128 ≤ b.size
  written : ∀ x ∈ c.before ++ c.after, Written x d cs
  clump : ∃ b ∈ cs, b.tag = .active ∧ b.addr + 64 = n ∧ 64 + (sizeofTnode + (len + 1)) ≤ b.size

section Stable
variable {x : Tnode} {t : BinaryTree Tnode} {c : Context Tnode} {d d' : Mem} {cs cs' : List Clump} {n len : ℕ}

theorem Written.congr (h : Written x d cs) (hcs : ∀ b : Clump, b.tag = .active → b ∈ cs → b ∈ cs')
    (hd : ∀ y, x.ptr_ ≤ y → y < x.ptr_ + (sizeofTnode + (x.s.bytes.length + 1)) → d' y = d y) : Written x d' cs' := by
  obtain ⟨b, hb, hbt, hba, hsz⟩ := h.clump
  refine ⟨⟨b, hcs b hbt hb, hbt, hba, hsz⟩, ?_, h.string.congr fun i hi => ?_⟩
  · rw [hd _ (by omega) (by simp only [sizeofTnode]; omega), h.count]
  · unfold byteAt
    rw [hd _ (by unfold wordOf; omega) (by simp only [sizeofTnode]; unfold wordOf; omega)]

theorem stable_written (x : Tnode) : Stable (Written x) := by
  intro d d' cs cs' h hcs _ hpay
  obtain ⟨b, hb, hbt, hba, hsz⟩ := h.clump
  exact h.congr (fun a hat ha => (hcs a hat).mpr ha)
    fun y h1 h2 => hpay b hb hbt y ⟨by omega, by simp only [sizeofTnode] at *; omega⟩

theorem stable_treeOf (t : BinaryTree Tnode) : Stable (TreeOf t) :=
  fun h hcs hstatic hpay => ⟨stable_nodesOf _ _ h.nodes hcs hstatic hpay,
    fun x hx => stable_written x (h.written x hx) hcs hstatic hpay, h.sorted⟩

theorem Hung.linkWord (h : Hung c n len d cs) {y : ℕ} (hy : LinkWord Tnode.ptr_ (c.before ++ c.after) y) :
    InStatic y ∨ ∃ b ∈ cs, b.tag = .active ∧ b.addr + 64 ∈ (c.before ++ c.after).map Tnode.ptr_ ∧ b.InPayload y := by
  rcases hy with rfl | ⟨x, hx, hy⟩
  · exact Or.inl inStatic_root
  · obtain ⟨b, hb, hbt, hba, hsz⟩ := (h.written x hx).clump
    simp only [sizeofTnode] at hsz
    exact Or.inr ⟨b, hb, hbt, hba ▸ List.mem_map_of_mem hx, by omega, by omega⟩

theorem stable_hung (c : Context Tnode) (n len : ℕ) : Stable (Hung c n len) := by
  intro d d' cs cs' h hcs hstatic hpay
  have hword : ∀ y, LinkWord Tnode.ptr_ (c.before ++ c.after) y → d' y = d y := by
    intro y hy
    rcases h.linkWord hy with hs | ⟨b, hb, hbt, -, hp⟩
    · exact hstatic y hs
    · exact hpay b hb hbt y hp
  obtain ⟨b, hb, hbt, hclump⟩ := h.clump
  refine ⟨h.around.congr_all hword, by rw [hword _ (linkWord_slot c), h.linked], h.fresh, h.nodup, fun k => ?_,
    fun a ha hat => h.room a ((hcs a hat).mp ha) hat,
    fun x hx => stable_written x (h.written x hx) hcs hstatic hpay, b, (hcs b hbt).mpr hb, hbt, hclump⟩
  rw [h.actives]
  constructor
  · rintro ⟨a, ha, hat, hn⟩; exact ⟨a, (hcs a hat).mpr ha, hat, hn⟩
  · rintro ⟨a, ha, hat, hn⟩; exact ⟨a, (hcs a hat).mp ha, hat, hn⟩

end Stable

/-! ## Linking and filling a new node -/

section Link
variable {c : Context Tnode} {d d' : Mem} {cs cs' : List Clump} {e n len : ℕ} {b : Clump}

theorem TreeOf.hang (h : TreeOf (c.plug .nil) d cs) (hc : Chain d pmemClumpOffset cs e) (hb : b ∈ cs)
    (hbt : b.tag = .reserved) (hsz : 64 + (sizeofTnode + (len + 1)) ≤ b.size)
    (hcs : ∀ a : Clump, a.tag = .active → (a ∈ cs' ↔ a = b.set .active ∨ a ∈ cs))
    (hd : ∀ x, Outside cs e x → x ≠ slot Tnode.ptr_ c → d' x = d x)
    (hslot : d' (slot Tnode.ptr_ c) = b.addr + 64) : Hung c (b.addr + 64) len d' cs' := by
  have hlist : inorder (c.plug .nil) = c.before ++ c.after := by rw [Context.inorder_plug, inorder_nil, List.append_nil]
  have hspread := h.nodes.spread hc
  obtain ⟨hnodes, hwritten, -⟩ := h
  have hnodup := hnodes.nodup
  have hact := hnodes.actives
  rw [hlist] at hwritten hspread hnodup hact
  have hdvd : 64 ∣ b.size := hc.size_dvd hb
  simp only [sizeofTnode] at hsz
  -- the words of the old nodes other than the slot
  have hout : ∀ y, LinkWord Tnode.ptr_ (c.before ++ c.after) y → Outside cs e y := by
    intro y hy
    rcases hnodes.linkWord (hlist ▸ hy) with hs | ⟨a, ha, -, hp⟩
    · exact hs.outside hc
    · exact hp.outside hc ha
  have hslotword : ∀ x ∈ c.before ++ c.after, ∀ y, x.ptr_ + 16 ≤ y →
    y < x.ptr_ + (sizeofTnode + (x.s.bytes.length + 1)) → y ≠ slot Tnode.ptr_ c := by
    intro x hx y h1 h2 heq
    obtain ⟨a, ha, hat, haa, hasz⟩ := (hwritten x hx).clump
    have hin : a.InPayload y := by
      simp only [sizeofTnode] at h2 hasz
      exact ⟨by omega, by omega⟩
    have hlow := (hc.tiles.bounds ha).1
    have hlink : LinkWord Tnode.ptr_ (c.before ++ c.after) y := heq ▸ linkWord_slot c
    rcases hlink with hr | ⟨z, hz, hzy⟩
    · have := hin.1
      simp only [pmemClumpOffset, pmemStaticOffset] at hlow hr
      omega
    · obtain ⟨a', ha', -, haa', hasz'⟩ := (hwritten z hz).clump
      simp only [sizeofTnode] at hasz'
      obtain rfl := hc.tiles.eq_of_mem_overlap ha ha' (x := y) ⟨by have := hin.1; omega, hin.2⟩ ⟨by omega, by omega⟩
      omega
  have hnew : ∀ a ∈ cs, a.tag = .active → a.addr ≠ b.addr := by
    intro a ha hat heq
    obtain rfl := hc.tiles.eq_of_addr ha hb heq
    rw [hbt] at hat
    cases hat
  refine ⟨(links_plug.mp hnodes.links).1.congr hspread fun y hy hne => hd y (hout y hy) hne, hslot, fun hm => ?_, hnodup,
    fun k => ?_, fun a ha hat => ?_, fun x hx => ?_, b.set .active, (hcs _ rfl).mpr (Or.inl rfl), rfl, rfl, hsz⟩
  · obtain ⟨a, ha, hat, haa⟩ := (hact _).mp hm
    exact hnew a ha hat (by omega)
  · rw [hact]
    constructor
    · rintro (rfl | ⟨a, ha, hat, rfl⟩)
      · exact ⟨b.set .active, (hcs _ rfl).mpr (Or.inl rfl), rfl, rfl⟩
      · exact ⟨a, (hcs a hat).mpr (Or.inr ha), hat, rfl⟩
    · rintro ⟨a, ha, hat, rfl⟩
      rcases (hcs a hat).mp ha with rfl | ha
      · exact Or.inl rfl
      · exact Or.inr ⟨a, ha, hat, rfl⟩
  · rcases (hcs a hat).mp ha with rfl | ha
    · rw [Clump.set_size]
      omega
    · exact hnodes.room a ha hat
  · obtain ⟨a, ha, hat, haa, hasz⟩ := (hwritten x hx).clump
    have hkeep : ∀ y, x.ptr_ + 16 ≤ y → y < x.ptr_ + (sizeofTnode + (x.s.bytes.length + 1)) → d' y = d y := by
      intro y h1 h2
      have hin : a.InPayload y := by
        simp only [sizeofTnode] at h2 hasz
        exact ⟨by omega, by omega⟩
      exact hd y (hin.outside hc ha) (hslotword x hx y h1 h2)
    refine ⟨⟨a, (hcs a hat).mpr (Or.inr ha), hat, haa, hasz⟩, ?_, (hwritten x hx).string.congr fun i hi => ?_⟩
    · rw [hkeep _ (le_refl _) (by simp only [sizeofTnode]; omega)]
      exact (hwritten x hx).count
    · have h8 := (hspread.aligned x hx).1
      unfold byteAt
      rw [hkeep _ (by unfold wordOf; omega) (by simp only [sizeofTnode]; unfold wordOf; omega)]

/-- The stores to the members. -/
def memberEvents (d : Mem) (n : ℕ) : List Event :=
  [.store (n + 8) 0, .store n 0, .store (n + 16) (setLow (d (n + 16)) 1)]

/-- The stores of `fillNode`. -/
def storeEvents (d : Mem) (n : ℕ) (s : CString) : List Event :=
  memberEvents d n ++ copyEvents (applyAll (memberEvents d n) d) (n + 20) s.bytes

/-- The trace of `fillNode`. -/
def fillEvents (d : Mem) (n : ℕ) (s : CString) : List Event :=
  storeEvents d n s ++ [.flush (clLines (n + 20) (s.bytes.length + 1))]

theorem writes_storeEvents {s : CString} {ev : Event} {y : ℕ} (he : ev ∈ storeEvents d n s) (hy : ev.Writes y) :
    n ≤ y ∧ y ≤ n + 20 + s.bytes.length := by
  rw [storeEvents, List.mem_append] at he
  rcases he with he | he
  · simp only [memberEvents, List.mem_cons, List.not_mem_nil, or_false] at he
    rcases he with rfl | rfl | rfl <;> rw [Event.writes_store] at hy <;> omega
  · obtain ⟨i, hi, rfl⟩ := writes_copyEvents he hy
    unfold wordOf
    omega

theorem fill_words (d : Mem) {n : ℕ} (hn : 8 ∣ n) (s : CString) :
    applyAll (storeEvents d n s) d n = 0 ∧ applyAll (storeEvents d n s) d (n + 8) = 0 ∧
      applyAll (storeEvents d n s) d (n + 16) % 2 ^ 32 = 1 ∧
      StringAt (applyAll (storeEvents d n s) d) (n + 20) s.bytes := by
  have hsplit : applyAll (storeEvents d n s) d = applyAll (copyEvents (applyAll (memberEvents d n) d) (n + 20) s.bytes)
      (applyAll (memberEvents d n) d) := applyAll_append _ _ _
  have hmember : ∀ y, y < n + 16 → applyAll (storeEvents d n s) d y = applyAll (memberEvents d n) d y := by
    intro y hy
    rw [hsplit]
    refine applyAll_of_not_writes (fun ev hev hw => ?_) _
    obtain ⟨i, -, rfl⟩ := writes_copyEvents hev hw
    unfold wordOf at hy
    omega
  refine ⟨?_, ?_, ?_, ?_⟩
  · rw [hmember _ (by omega)]
    simp [memberEvents, Function.update]
  · rw [hmember _ (by omega)]
    simp [memberEvents, Function.update]
  · rw [hsplit, low_copyEvents (by omega) (by omega)]
    simp only [memberEvents, applyAll_store, applyAll_nil, Function.update_self, setLow_mod]
    norm_num
  · rw [hsplit]
    exact stringAt_copyEvents fun b hb => (s.range b hb).2

theorem Hung.spread (h : Hung c n len d cs) (hc : Chain d pmemClumpOffset cs e) :
    Spread Tnode.ptr_ (c.before ++ c.after) := by
  refine ⟨h.nodup, fun x hx => ?_⟩
  obtain ⟨b, hb, -, hba, -⟩ := (h.written x hx).clump
  have h1 : 64 ∣ b.addr := hc.tiles.addr_dvd (by decide) hb
  have h2 := (hc.tiles.bounds hb).1
  omega

theorem Hung.tree {s : CString} (h : Hung c n len d cs) (hs : Sorted Tnode.s (c.plug .nil)) (hlead : Leads Tnode.s s c)
    (hleft : d n = 0) (hright : d (n + 8) = 0) (hcount : d (n + 16) % 2 ^ 32 = 1) (hlen : s.bytes.length = len)
    (hstring : StringAt d (n + 20) s.bytes) : TreeOf (c.plug (.node ⟨n, 1, s⟩ .nil .nil)) d cs := by
  obtain ⟨b, hb, hbt, hba, hsz⟩ := h.clump
  have hlist : inorder (c.plug (.node ⟨n, 1, s⟩ .nil .nil)) = c.before ++ ⟨n, 1, s⟩ :: c.after := by
    rw [Context.inorder_plug, inorder_node, inorder_nil, List.nil_append, List.append_assoc]
    rfl
  have hmem : ∀ x, x ∈ inorder (c.plug (.node ⟨n, 1, s⟩ .nil .nil)) ↔ x = ⟨n, 1, s⟩ ∨ x ∈ c.before ++ c.after := by
    intro x
    rw [hlist]
    simp only [List.mem_append, List.mem_cons]
    tauto
  refine ⟨⟨links_plug.mpr ⟨h.around, ?_⟩, ?_, fun k => ?_, h.room⟩, fun x hx => ?_, hs.insert hlead⟩
  · rw [h.linked]
    exact ⟨rfl, by dsimp only; omega, hleft, hright⟩
  · rw [hlist, List.map_append, List.map_cons]
    exact List.nodup_middle.mpr (List.nodup_cons.mpr ⟨by simpa using h.fresh, by simpa using h.nodup⟩)
  · rw [← h.actives, List.mem_map]
    simp only [hmem, or_and_right, exists_or, exists_eq_left, List.mem_map, eq_comm (a := k)]
  · rcases (hmem x).mp hx with rfl | hx
    · exact ⟨⟨b, hb, hbt, hba, hlen ▸ hsz⟩, hcount, hstring⟩
    · exact h.written x hx

/-- Words outside the payload of the new node are those of the rest. -/
theorem Hung.fill {s : CString} (h : Hung c n len d cs) (hc : Chain d pmemClumpOffset cs e)
    (hs : Sorted Tnode.s (c.plug .nil)) (hlead : Leads Tnode.s s c)
    (hout : ∀ y, y < n ∨ n + (sizeofTnode + (len + 1)) ≤ y → d' y = d y) (hleft : d' n = 0) (hright : d' (n + 8) = 0)
    (hcount : d' (n + 16) % 2 ^ 32 = 1) (hlen : s.bytes.length = len) (hstring : StringAt d' (n + 20) s.bytes) :
    TreeOf (c.plug (.node ⟨n, 1, s⟩ .nil .nil)) d' cs := by
  obtain ⟨b, hb, hbt, hba, hsz⟩ := h.clump
  -- another active clump is none of the words filled
  have hother : ∀ a ∈ cs, a.tag = .active → a.addr + 64 ≠ n → ∀ y, a.InPayload y → d' y = d y := by
    intro a ha hat hne y hy
    refine hout y ?_
    by_contra hin
    simp only [sizeofTnode] at hsz hin
    have := hy.1
    obtain rfl := hc.tiles.eq_of_mem_overlap ha hb (x := y) ⟨by omega, hy.2⟩ ⟨by omega, by omega⟩
    exact hne hba
  have hword : ∀ y, LinkWord Tnode.ptr_ (c.before ++ c.after) y → d' y = d y := by
    intro y hy
    rcases h.linkWord hy with hs | ⟨a, ha, hat, hm, hp⟩
    · refine hout y (Or.inl ?_)
      have h1 := hs.2
      have h2 := (hc.tiles.bounds hb).1
      simp only [pmemStaticOffset, pmemStaticSize, pmemClumpOffset] at h1 h2
      omega
    · exact hother a ha hat (fun heq => h.fresh (heq ▸ hm)) y hp
  have hhung : Hung c n len d' cs := by
    refine ⟨h.around.congr_all hword, ?_, h.fresh, h.nodup, h.actives, h.room, fun x hx => ?_, h.clump⟩
    · rw [hword _ (linkWord_slot c), h.linked]
    · obtain ⟨a, ha, hat, haa, hasz⟩ := (h.written x hx).clump
      refine (h.written x hx).congr (fun _ _ h => h) fun y h1 h2 => hother a ha hat ?_ y ⟨by omega, ?_⟩
      · rw [haa]
        exact fun heq => h.fresh (heq ▸ List.mem_map_of_mem hx)
      · simp only [sizeofTnode] at h2 hasz
        omega
  exact hhung.tree hs hlead hleft hright hcount hlen hstring

theorem TreeOf.bump {x : Tnode} {l r : BinaryTree Tnode} (h : TreeOf (c.plug (.node x l r)) d cs)
    (hc : Chain d pmemClumpOffset cs e) (hd : ∀ y, y ≠ x.ptr_ + 16 → d' y = d y)
    (hcount : d' (x.ptr_ + 16) = setLow (d (x.ptr_ + 16)) (x.count + 1)) :
    TreeOf (c.plug (.node { x with count := (x.count + 1) % 2 ^ 32 } l r)) d' cs := by
  obtain ⟨hnodes, hwritten, hsorted⟩ := h
  have hspread := hnodes.spread hc
  have hmap : (inorder (c.plug (.node { x with count := (x.count + 1) % 2 ^ 32 } l r))).map Tnode.ptr_ =
      (inorder (c.plug (.node x l r))).map Tnode.ptr_ := by
    simp [Context.inorder_plug]
  have hx : x ∈ inorder (c.plug (.node x l r)) := Context.mem_plug_node.mpr (Or.inl rfl)
  have hxdvd := (hspread.aligned x hx).1
  have hne : ∀ y ∈ c.others l r, y.ptr_ ≠ x.ptr_ := by
    have hn := ((c.perm_plug_node x l r).map Tnode.ptr_).nodup_iff.mp hnodes.nodup
    rw [List.map_cons, List.nodup_cons] at hn
    exact fun y hy heq => hn.1 (heq ▸ List.mem_map_of_mem hy)
  have hword : ∀ y ∈ inorder (c.plug (.node x l r)), d' y.ptr_ = d y.ptr_ ∧ d' (y.ptr_ + 8) = d (y.ptr_ + 8) := by
    intro y hy
    have := (hspread.aligned y hy).1
    exact ⟨hd _ (by omega), hd _ (by omega)⟩
  have hlinks : Links Tnode.ptr_ d' (d' pmemStaticOffset) (c.plug (.node x l r)) := by
    have := (hspread.aligned x hx).2
    simp only [pmemClumpOffset] at this
    rw [hd _ (by simp only [pmemStaticOffset]; omega)]
    exact hnodes.links.congr hword
  refine ⟨⟨?_, hmap ▸ hnodes.nodup, hmap ▸ hnodes.actives, hnodes.room⟩, fun y hy => ?_, hsorted.replace rfl⟩
  · obtain ⟨haround, hthere⟩ := links_plug.mp hlinks
    exact links_plug.mpr ⟨haround, hthere⟩
  · rcases Context.mem_plug_node.mp hy with rfl | hy
    · obtain ⟨hclump, -, hstring⟩ := hwritten x hx
      refine ⟨hclump, by rw [hcount, setLow_mod], hstring.congr fun i hi => ?_⟩
      -- the count is the low half of the word whose high half starts the string
      unfold byteAt
      by_cases hw : wordOf (x.ptr_ + 20 + i) = x.ptr_ + 16
      · rw [hw, hcount]
        refine byteOf_setLow ?_ _ _
        unfold wordOf at hw
        omega
      · rw [hd _ hw]
    · have hy' : y ∈ inorder (c.plug (.node x l r)) := Context.mem_plug_node.mpr (Or.inr hy)
      refine (hwritten y hy').congr (fun _ _ h => h) fun z h1 h2 => hd z ?_
      rintro rfl
      obtain ⟨a, ha, -, haa, hasz⟩ := (hwritten y hy').clump
      obtain ⟨a', ha', -, haa', hasz'⟩ := (hwritten x hx).clump
      simp only [sizeofTnode] at h2 hasz hasz'
      obtain rfl := hc.tiles.eq_of_mem_overlap ha ha' (x := x.ptr_ + 16) ⟨by omega, by omega⟩ ⟨by omega, by omega⟩
      exact hne y hy (by omega)

end Link

/-! ## Filling and counting -/

section Members
variable {p n e : ℕ} {m : Mem} {s : CString}

theorem relocate_memberEvents (p : ℕ) (m : Mem) (n : ℕ) : relocate p (memberEvents (fileAt p m) n) =
    [.store (p + (n + 8)) 0, .store (p + n) 0, .store (p + (n + 16)) (setLow (m (p + (n + 16))) 1)] := rfl

theorem fill_runs (hp : 64 ∣ p) (hfit : p + n < 2 ^ 64) (m : Mem) (s : CString) :
    Runs false (fillNode p n s) m () (relocate p (fillEvents (fileAt p m) n s)) := by
  have h8 : 8 ∣ p := dvd_trans (by norm_num) hp
  have haddr : pmem p n = p + n := pmem_eq hfit
  have hcount : Function.update (Function.update m (p + (n + 8)) 0) (p + n) 0 (p + (n + 16)) = m (p + (n + 16)) := by
    rw [Function.update_of_ne (by omega), Function.update_of_ne (by omega)]
  rw [fillEvents, storeEvents, relocate_append, relocate_append, relocate_memberEvents, ← fileAt_applyAll,
    ← copyEvents_up h8, relocate_memberEvents, relocate_flush, relocate_nil, ← clLines_up hp]
  unfold fillNode rightOf leftOf countOf stringOf
  rw [haddr, Nat.add_assoc, Nat.add_assoc, Nat.add_assoc]
  refine Runs.store_bind (Runs.store_bind ?_)
  have hstore := storeUnsigned_runs false (Function.update (Function.update m (p + (n + 8)) 0) (p + n) 0) (p + (n + 16))
    1
  rw [hcount] at hstore
  refine hstore.bind ?_
  refine (strcpy_runs false s.bytes _ (p + (n + 20))).bind ?_
  exact runs_dataFlags fun flags => pmemPersist_runs_flagged _ _ _ flags

/-- What `bumpCount` issues. -/
def bumpEvents (d : Mem) (n : ℕ) : List Event :=
  [.store (n + 16) (setLow (d (n + 16)) (d (n + 16) % 2 ^ 32 + 1)), .flush (clLines (n + 16) 4)]

theorem bump_runs (hp : 64 ∣ p) (hfit : p + n < 2 ^ 64) (m : Mem) :
    Runs false (bumpCount p n) m () (relocate p (bumpEvents (fileAt p m) n)) := by
  have haddr : pmem p n = p + n := pmem_eq hfit
  rw [bumpEvents, relocate_store, relocate_flush, relocate_nil, ← clLines_up hp]
  unfold bumpCount countOf
  rw [haddr, Nat.add_assoc]
  refine (loadUnsigned_runs false m _).bind_silent ?_
  refine (storeUnsigned_runs false m _ _).bind ?_
  exact runs_dataFlags fun flags => pmemPersist_runs_flagged _ _ _ flags

end Members

end PmemExamples.WordTree
