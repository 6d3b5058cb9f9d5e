import PmemExamples.SearchTree.Basic
import PmemExamples.WordTree.Model
import PmemExamples.Pool.ClientFree

/-! # The tree in the file

`Links d ptr_ t` says that the links from `ptr_` on form the tree `t`, `NodesOf` that the tree at the
root is `t` and that the active clumps are its nodes. A place in the tree is a `Context`; its word is
the `slot`, and what is linked there can be changed without looking at the rest (`links_plug`). -/

namespace PmemExamples.WordTree
open Persist Libpmem Tiling Pool SearchTree
set_option autoImplicit false

section Links
variable {α : Type} (addr : α → ℕ) (d : Mem)

/-- The links from `ptr_` on; 0 is the empty tree. -/
def Links : ℕ → BinaryTree α → Prop
  | ptr_, .nil => ptr_ = 0
  | ptr_, .node x l r => ptr_ = addr x ∧ addr x ≠ 0 ∧ Links (d (addr x)) l ∧ Links (d (addr x + 8)) r

/-- The word that links the subtree at the place. -/
def slot : Context α → ℕ
  | .top => pmemStaticOffset
  | .left x _ _ => addr x
  | .right x _ _ => addr x + 8

/-- The links around the place. -/
def Around : Context α → Prop
  | .top => True
  | .left x r up => Around up ∧ d (slot addr up) = addr x ∧ addr x ≠ 0 ∧ Links addr d (d (addr x + 8)) r
  | .right x l up => Around up ∧ d (slot addr up) = addr x ∧ addr x ≠ 0 ∧ Links addr d (d (addr x)) l

variable {addr d}

theorem links_plug {c : Context α} {t : BinaryTree α} :
    Links addr d (d pmemStaticOffset) (c.plug t) ↔ Around addr d c ∧ Links addr d (d (slot addr c)) t := by
  induction c generalizing t with
  | top => simp [Context.plug, Around, slot]
  | left x r up ih =>
    rw [Context.plug, ih, Around, Links, slot]
    tauto
  | right x l up ih =>
    rw [Context.plug, ih, Around, Links, slot]
    tauto

theorem Links.congr {d' : Mem} {t : BinaryTree α} {ptr_ : ℕ} (h : Links addr d ptr_ t)
    (hd : ∀ x ∈ inorder t, d' (addr x) = d (addr x) ∧ d' (addr x + 8) = d (addr x + 8)) :
    Links addr d' ptr_ t := by
  induction t generalizing ptr_ with
  | nil => exact h
  | node x l r ihl ihr =>
    obtain ⟨h1, h2, h3, h4⟩ := h
    obtain ⟨hl, hr⟩ := hd x (by simp)
    refine ⟨h1, h2, ?_, ?_⟩
    · rw [hl]
      exact ihl h3 fun y hy => hd y (by simp [hy])
    · rw [hr]
      exact ihr h4 fun y hy => hd y (by simp [hy])

/-- The word is the root, or a link of one of the nodes. -/
def LinkWord (addr : α → ℕ) (xs : List α) (y : ℕ) : Prop :=
  y = pmemStaticOffset ∨ ∃ x ∈ xs, y = addr x ∨ y = addr x + 8

/-- Nodes are in payloads of their own. -/
structure Spread (addr : α → ℕ) (xs : List α) : Prop where
  nodup : (xs.map addr).Nodup
  aligned : ∀ x ∈ xs, 64 ∣ addr x ∧ pmemClumpOffset < addr x

theorem LinkWord.mono {xs ys : List α} {y : ℕ} (h : LinkWord addr xs y) (hs : ∀ x ∈ xs, x ∈ ys) :
    LinkWord addr ys y := by
  rcases h with h | ⟨x, hx, h⟩
  · exact Or.inl h
  · exact Or.inr ⟨x, hs x hx, h⟩

theorem linkWord_slot (c : Context α) : LinkWord addr (c.before ++ c.after) (slot addr c) := by
  cases c with
  | top => exact Or.inl rfl
  | left x r up => exact Or.inr ⟨x, by simp [Context.after], Or.inl rfl⟩
  | right x l up => exact Or.inr ⟨x, by simp [Context.before], Or.inr rfl⟩

theorem Spread.not_linkWord {x : α} {xs : List α} (h : Spread addr (x :: xs)) {y : ℕ}
    (hy : y = addr x ∨ y = addr x + 8) : ¬ LinkWord addr xs y := by
  have hx := h.aligned x List.mem_cons_self
  have hn := h.nodup
  rw [List.map_cons, List.nodup_cons] at hn
  simp only [pmemClumpOffset] at hx
  rintro (hr | ⟨z, hz, hzy⟩)
  · simp only [pmemStaticOffset] at hr
    omega
  · have hza := h.aligned z (List.mem_cons_of_mem _ hz)
    have hne : addr z ≠ addr x := fun heq => hn.1 (heq ▸ List.mem_map_of_mem hz)
    omega

theorem Spread.perm {xs ys : List α} (h : Spread addr xs) (hp : xs.Perm ys) : Spread addr ys :=
  ⟨(hp.map addr).nodup_iff.mp h.nodup, fun x hx => h.aligned x (hp.mem_iff.mpr hx)⟩

theorem Spread.sublist {xs ys : List α} (h : Spread addr ys) (hs : xs.Sublist ys) : Spread addr xs :=
  ⟨h.nodup.sublist (hs.map addr), fun x hx => h.aligned x (hs.subset hx)⟩

theorem before_after_left (x : α) (r : BinaryTree α) (up : Context α) :
    ((Context.left x r up).before ++ (Context.left x r up).after).Perm
      (x :: (inorder r ++ (up.before ++ up.after))) := by
  simp only [Context.before, Context.after, List.cons_append]
  refine List.perm_middle.trans (List.Perm.cons x ?_)
  rw [← List.append_assoc, ← List.append_assoc]
  exact List.perm_append_comm.append_right _

theorem before_after_right (x : α) (l : BinaryTree α) (up : Context α) :
    ((Context.right x l up).before ++ (Context.right x l up).after).Perm
      (x :: (inorder l ++ (up.before ++ up.after))) := by
  simp only [Context.before, Context.after, List.append_assoc, List.cons_append, List.nil_append]
  rw [← List.append_assoc]
  refine List.perm_middle.trans (List.Perm.cons x ?_)
  rw [← List.append_assoc]
  exact List.perm_append_comm.append_right _

theorem Around.congr_all {d' : Mem} {c : Context α} (h : Around addr d c)
    (hd : ∀ y, LinkWord addr (c.before ++ c.after) y → d' y = d y) : Around addr d' c := by
  induction c with
  | top => trivial
  | left x r up ih =>
    obtain ⟨h1, h2, h3, h4⟩ := h
    have hmem := fun z => (before_after_left x r up).mem_iff (a := z)
    have hup : ∀ y, LinkWord addr (up.before ++ up.after) y → d' y = d y := fun y hy =>
      hd y (hy.mono fun z hz => (hmem z).mpr (List.mem_cons_of_mem _ (List.mem_append_right _ hz)))
    have hr : ∀ z ∈ inorder r, z ∈ (Context.left x r up).before ++ (Context.left x r up).after := fun z hz =>
      (hmem z).mpr (List.mem_cons_of_mem _ (List.mem_append_left _ hz))
    refine ⟨ih h1 hup, by rw [hup _ (linkWord_slot up), h2], h3, ?_⟩
    rw [hd _ (Or.inr ⟨x, (hmem x).mpr List.mem_cons_self, Or.inr rfl⟩)]
    exact h4.congr fun z hz => ⟨hd _ (Or.inr ⟨z, hr z hz, Or.inl rfl⟩), hd _ (Or.inr ⟨z, hr z hz, Or.inr rfl⟩)⟩
  | right x l up ih =>
    obtain ⟨h1, h2, h3, h4⟩ := h
    have hmem := fun z => (before_after_right x l up).mem_iff (a := z)
    have hup : ∀ y, LinkWord addr (up.before ++ up.after) y → d' y = d y := fun y hy =>
      hd y (hy.mono fun z hz => (hmem z).mpr (List.mem_cons_of_mem _ (List.mem_append_right _ hz)))
    have hl : ∀ z ∈ inorder l, z ∈ (Context.right x l up).before ++ (Context.right x l up).after := fun z hz =>
      (hmem z).mpr (List.mem_cons_of_mem _ (List.mem_append_left _ hz))
    refine ⟨ih h1 hup, by rw [hup _ (linkWord_slot up), h2], h3, ?_⟩
    rw [hd _ (Or.inr ⟨x, (hmem x).mpr List.mem_cons_self, Or.inl rfl⟩)]
    exact h4.congr fun z hz => ⟨hd _ (Or.inr ⟨z, hl z hz, Or.inl rfl⟩), hd _ (Or.inr ⟨z, hl z hz, Or.inr rfl⟩)⟩

theorem Around.congr {d' : Mem} {c : Context α} (h : Around addr d c) (hs : Spread addr (c.before ++ c.after))
    (hd : ∀ y, LinkWord addr (c.before ++ c.after) y → y ≠ slot addr c → d' y = d y) : Around addr d' c := by
  cases c with
  | top => trivial
  | left x r up =>
    obtain ⟨h1, h2, h3, h4⟩ := h
    -- the other nodes, and the link word of this one that is not the slot
    have hmem := fun z => (before_after_left x r up).mem_iff (a := z)
    have hs' := hs.perm (before_after_left x r up)
    have hrest : ∀ y, LinkWord addr (inorder r ++ (up.before ++ up.after)) y → d' y = d y := fun y hy =>
      hd y (hy.mono fun z hz => (hmem z).mpr (List.mem_cons_of_mem _ hz))
        fun heq => hs'.not_linkWord (Or.inl heq) hy
    have hup : ∀ y, LinkWord addr (up.before ++ up.after) y → d' y = d y := fun y hy =>
      hrest y (hy.mono fun z hz => List.mem_append_right _ hz)
    refine ⟨h1.congr_all hup, by rw [hup _ (linkWord_slot up), h2], h3, ?_⟩
    rw [hd _ (Or.inr ⟨x, (hmem x).mpr List.mem_cons_self, Or.inr rfl⟩) (by simp [slot])]
    exact h4.congr fun z hz => ⟨hrest _ (Or.inr ⟨z, List.mem_append_left _ hz, Or.inl rfl⟩),
      hrest _ (Or.inr ⟨z, List.mem_append_left _ hz, Or.inr rfl⟩)⟩
  | right x l up =>
    obtain ⟨h1, h2, h3, h4⟩ := h
    have hmem := fun z => (before_after_right x l up).mem_iff (a := z)
    have hs' := hs.perm (before_after_right x l up)
    have hrest : ∀ y, LinkWord addr (inorder l ++ (up.before ++ up.after)) y → d' y = d y := fun y hy =>
      hd y (hy.mono fun z hz => (hmem z).mpr (List.mem_cons_of_mem _ hz))
        fun heq => hs'.not_linkWord (Or.inr heq) hy
    have hup : ∀ y, LinkWord addr (up.before ++ up.after) y → d' y = d y := fun y hy =>
      hrest y (hy.mono fun z hz => List.mem_append_right _ hz)
    refine ⟨h1.congr_all hup, by rw [hup _ (linkWord_slot up), h2], h3, ?_⟩
    rw [hd _ (Or.inr ⟨x, (hmem x).mpr List.mem_cons_self, Or.inl rfl⟩) (by simp [slot])]
    exact h4.congr fun z hz => ⟨hrest _ (Or.inr ⟨z, List.mem_append_left _ hz, Or.inl rfl⟩),
      hrest _ (Or.inr ⟨z, List.mem_append_left _ hz, Or.inr rfl⟩)⟩

theorem Links.replace {d' : Mem} {c : Context α} {t t' : BinaryTree α}
    (h : Links addr d (d pmemStaticOffset) (c.plug t)) (hs : Spread addr (inorder (c.plug t)))
    (hd : ∀ y, LinkWord addr (c.before ++ c.after) y → y ≠ slot addr c → d' y = d y)
    (ht : Links addr d' (d' (slot addr c)) t') : Links addr d' (d' pmemStaticOffset) (c.plug t') := by
  have hsub : (c.before ++ c.after).Sublist (inorder (c.plug t)) := by
    rw [Context.inorder_plug]
    exact (List.sublist_append_left _ _).append_right _
  exact links_plug.mpr ⟨(links_plug.mp h).1.congr (hs.sublist hsub) hd, ht⟩

end Links

/-! ## The tree and the pool -/

section Nodes
variable {α : Type} {addr : α → ℕ} {t : BinaryTree α} {d : Mem} {cs : List Clump} {e : ℕ}

/-- The tree at the root is `t`, and the active clumps are its nodes. -/
structure NodesOf (addr : α → ℕ) (t : BinaryTree α) (d : Mem) (cs : List Clump) : Prop where
  links : Links addr d (d pmemStaticOffset) t
  nodup : ((inorder t).map addr).Nodup
  actives : ∀ n, n ∈ (inorder t).map addr ↔ ∃ c ∈ cs, c.tag = .active ∧ c.addr + 64 = n
  room : ∀ c ∈ cs, c.tag = .active → 128 ≤ c.size

theorem NodesOf.clump (h : NodesOf addr t d cs) {x : α} (hx : x ∈ inorder t) :
    ∃ c ∈ cs, c.tag = .active ∧ c.addr + 64 = addr x ∧ 128 ≤ c.size := by
  obtain ⟨c, hc, ht, ha⟩ := (h.actives _).mp (List.mem_map_of_mem hx)
  exact ⟨c, hc, ht, ha, h.room c hc ht⟩

theorem NodesOf.spread (h : NodesOf addr t d cs) (hc : Chain d pmemClumpOffset cs e) :
    Spread addr (inorder t) := by
  refine ⟨h.nodup, fun x hx => ?_⟩
  obtain ⟨c, hcm, -, ha, -⟩ := h.clump hx
  have h1 : 64 ∣ c.addr := hc.tiles.addr_dvd (by decide) hcm
  have h2 := (hc.tiles.bounds hcm).1
  omega

theorem NodesOf.length_le (h : NodesOf addr t d cs) : (inorder t).length ≤ cs.length := by
  have hsub : (inorder t).map addr ⊆ cs.map fun c => c.addr + 64 := by
    intro n hn
    obtain ⟨c, hc, -, rfl⟩ := (h.actives n).mp hn
    exact List.mem_map_of_mem (f := fun c : Clump => c.addr + 64) hc
  simpa using (h.nodup.subperm hsub).length_le

/-- The link words are in the static area and in payloads of active clumps. -/
theorem NodesOf.linkWord (h : NodesOf addr t d cs) {y : ℕ} (hy : LinkWord addr (inorder t) y) :
    InStatic y ∨ ∃ c ∈ cs, c.tag = .active ∧ c.InPayload y := by
  rcases hy with rfl | ⟨x, hx, hy⟩
  · exact Or.inl inStatic_root
  · obtain ⟨c, hc, ht, ha, hsz⟩ := h.clump hx
    exact Or.inr ⟨c, hc, ht, by omega, by omega⟩

theorem stable_nodesOf (addr : α → ℕ) (t : BinaryTree α) : Stable (NodesOf addr t) := by
  intro d d' cs cs' h hcs hstatic hpay
  have hword : ∀ y, LinkWord addr (inorder t) y → d' y = d y := by
    intro y hy
    rcases h.linkWord hy with hs | ⟨c, hc, ht, hp⟩
    · exact hstatic y hs
    · exact hpay c hc ht y hp
  refine ⟨?_, h.nodup, fun n => ?_, fun c hc ht => h.room c ((hcs c ht).mp hc) ht⟩
  · rw [hword _ (Or.inl rfl)]
    exact h.links.congr fun x hx => ⟨hword _ (Or.inr ⟨x, hx, Or.inl rfl⟩), hword _ (Or.inr ⟨x, hx, Or.inr rfl⟩)⟩
  · rw [h.actives]
    constructor
    · rintro ⟨c, hc, ht, hn⟩; exact ⟨c, (hcs c ht).mpr hc, ht, hn⟩
    · rintro ⟨c, hc, ht, hn⟩; exact ⟨c, (hcs c ht).mp hc, ht, hn⟩

theorem NodesOf.slot_mem {c : Context α} (h : NodesOf addr (c.plug t) d cs) :
    InStatic (slot addr c) ∨ ∃ b ∈ cs, b.tag = .active ∧ b.InPayload (slot addr c) :=
  h.linkWord <| (linkWord_slot c).mono fun x hx => by
    rw [Context.inorder_plug]
    simp only [List.mem_append] at hx ⊢
    tauto

end Nodes

end PmemExamples.WordTree
