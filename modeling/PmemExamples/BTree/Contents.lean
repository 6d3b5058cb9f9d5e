import PmemExamples.BTree.Removal

/-! # What is in a tree

The keys up to equality, and where they stand: between the keys of the nodes above them. -/

namespace PmemExamples.BTree
set_option autoImplicit false

/-! ## Counting -/

/-- How many of the keys are equal to `e`. -/
def occurrences (cmp : ℕ → ℕ → ℤ) (e : ℕ) (keys : List ℕ) : ℕ := keys.countP fun a => cmp e a = 0

section Counts
variable {cmp : ℕ → ℕ → ℤ} {k e e' : ℕ} {keys keys' : List ℕ} {clean : Prop}

theorem Comparison.congr (h : Comparison cmp) {a b : ℕ} (hab : cmp a b = 0) (c : ℕ) :
    (cmp a c ≤ 0 ↔ cmp b c ≤ 0) ∧ (cmp c a ≤ 0 ↔ cmp c b ≤ 0) := by
  have hba : cmp b a ≤ 0 := ((h.zero_swap).mp hab).le
  exact ⟨⟨h.trans hba, h.trans hab.le⟩, ⟨fun hca => h.trans hca hab.le, fun hcb => h.trans hcb hba⟩⟩

theorem Comparison.zero_iff (h : Comparison cmp) {a b : ℕ} : cmp a b = 0 ↔ cmp a b ≤ 0 ∧ cmp b a ≤ 0 := by
  have h1 := h.le_swap a b
  have h2 := h.le_swap b a
  omega

theorem Comparison.zero_congr (h : Comparison cmp) {a b : ℕ} (hab : cmp a b = 0) (c : ℕ) :
    cmp c a = 0 ↔ cmp c b = 0 := by
  rw [h.zero_iff, h.zero_iff, (h.congr hab c).1, (h.congr hab c).2]

theorem Inserted.occurrences (h : Inserted cmp k keys keys') (e : ℕ) :
    occurrences cmp e keys' = occurrences cmp e keys + if cmp e k = 0 then 1 else 0 := by
  obtain ⟨l, r, rfl, rfl, -, -⟩ := h
  simp only [BTree.occurrences, List.countP_append, List.countP_cons, decide_eq_true_eq]
  omega

theorem Rewritten.occurrences (hcmp : Comparison cmp) (h : Rewritten cmp k keys keys') (e : ℕ) :
    occurrences cmp e keys' = occurrences cmp e keys := by
  induction h with
  | nil => rfl
  | @cons a b _ _ hab _ ih =>
    have heq : cmp e b = 0 ↔ cmp e a = 0 := by
      rcases hab with rfl | ⟨rfl, h0⟩
      · exact Iff.rfl
      · exact hcmp.zero_congr h0 e
    simp only [BTree.occurrences, List.countP_cons, decide_eq_true_eq] at ih ⊢
    rw [ih, if_congr heq rfl rfl]

theorem Removed.occurrences (hcmp : Comparison cmp) (h : Removed cmp k clean e keys keys') (e' : ℕ) :
    occurrences cmp e' keys = occurrences cmp e' keys' + if cmp e' k = 0 then 1 else 0 := by
  obtain ⟨l, r, hrew, rfl, h0, -⟩ := h
  rw [← hrew.occurrences hcmp e', if_congr (hcmp.zero_congr h0 e') rfl rfl]
  simp only [BTree.occurrences, List.countP_append, List.countP_cons, decide_eq_true_eq]
  omega

theorem occurrences_pos : 0 < occurrences cmp k keys ↔ ∃ e ∈ keys, cmp k e = 0 := by
  simp [occurrences, List.countP_pos_iff]

/-! ## The order -/

theorem Rewritten.ascending (hcmp : Comparison cmp) (h : Rewritten cmp k keys keys') (hs : Ascending cmp keys) :
    Ascending cmp keys' := by
  have hsame : ∀ {a b}, (a = b ∨ b = k ∧ cmp k a = 0) → cmp b a = 0 := fun hab => by
    rcases hab with rfl | ⟨rfl, h0⟩
    · exact hcmp.refl _
    · exact h0
  induction h with
  | nil => exact List.Pairwise.nil
  | @cons a b as bs hab hrest ih =>
    obtain ⟨hfirst, hs⟩ := List.pairwise_cons.mp hs
    refine List.pairwise_cons.mpr ⟨fun c hc => ?_, ih hs⟩
    obtain ⟨i, hi, rfl⟩ := List.getElem_of_mem hc
    have hi' : i < as.length := hrest.length_eq ▸ hi
    have hle := hfirst as[i] (List.getElem_mem hi')
    have hc := hsame (hrest.get hi' hi)
    exact ((hcmp.congr (hsame hab) _).1).mpr (((hcmp.congr hc _).2).mpr hle)

theorem Removed.ascending (hcmp : Comparison cmp) (h : Removed cmp k clean e keys keys') (hs : Ascending cmp keys) :
    Ascending cmp keys' := by
  obtain ⟨l, r, hrew, rfl, -, -⟩ := h
  exact (hrew.ascending hcmp hs).sublist ((List.sublist_cons_self e r).append_left l)

end Counts

section Order
variable {α : Type} {t m : ℕ} {leaf : Bool} {q : α → Prop} {cmp : ℕ → ℕ → ℤ}

/-- The keys of a node are in order, and those below a child are between the keys beside it. -/
structure TreeNode.Ordered (cmp : ℕ → ℕ → ℤ) (f : α → List ℕ) (q : α → Prop) (x : TreeNode α) : Prop where
  keys : Ascending cmp x.keys
  before : ∀ i c, x.kids[i]? = some c → ∀ e ∈ f c, ∀ s ∈ x.keys.take i, cmp s e ≤ 0
  behind : ∀ i c, x.kids[i]? = some c → ∀ e ∈ f c, ∀ s ∈ x.keys.drop i, cmp e s ≤ 0
  kids : ∀ c ∈ x.kids, q c

def Ordered (cmp : ℕ → ℕ → ℤ) : (d : ℕ) → Below d → Prop
  | 0, e => nomatch e
  | d + 1, x => TreeNode.Ordered cmp (inorder d) (Ordered cmp d) x

def AnyTree.Ordered (cmp : ℕ → ℕ → ℤ) (x : AnyTree) : Prop := BTree.Ordered cmp (x.height + 1) x.tree

theorem lefts_sublist {ks : List ℕ} {cs : List (List ℕ)} (h : cs.length = ks.length) : ks.Sublist (lefts ks cs) := by
  induction ks generalizing cs with
  | nil => exact List.nil_sublist _
  | cons k ks ih =>
    obtain ⟨c, cs, rfl⟩ := List.exists_cons_of_length_eq_add_one h
    rw [lefts_cons]
    exact ((ih (by simpa using h)).cons_cons k).trans (List.sublist_append_right _ _)

theorem ordered_node {f : α → List ℕ} {x : TreeNode α} (hb : x.Branches leaf) (hleaf : leaf = true → x.kids = [])
    (hs : Ascending cmp (x.inorder f)) (hkids : ∀ c ∈ x.kids, Ascending cmp (f c) → q c) : x.Ordered cmp f q := by
  have hcut : ∀ i c, x.kids[i]? = some c → Ascending cmp (f c) ∧ (∀ e ∈ f c, ∀ s ∈ x.keys.take i, cmp s e ≤ 0) ∧
      ∀ e ∈ f c, ∀ s ∈ x.keys.drop i, cmp e s ≤ 0 := by
    intro i c hc
    obtain ⟨hsplit, hL⟩ := split_middle hc
    have hi : i < x.kids.length := (List.getElem?_eq_some_iff.mp hc).1
    have hlen : x.kids.length = x.keys.length + 1 := by
      cases leaf with
      | true =>
        rw [hleaf rfl] at hc
        simp at hc
      | false => exact hb
    have hl : (x.kids.take i).length = (x.keys.take i).length := by
      rw [List.length_take, List.length_take]
      omega
    have hr : (x.kids.drop (i + 1)).length = (x.keys.drop i).length := by
      rw [List.length_drop, List.length_drop]
      omega
    have hin : x.inorder f = lefts (x.keys.take i) ((x.kids.take i).map f) ++ f c ++
        rights (x.keys.drop i) ((x.kids.drop (i + 1)).map f) := by
      rw [← inorder_kid (a := x.addr) hl, List.take_append_drop, ← hsplit]
    rw [hin] at hs
    refine ⟨hs.left.right, fun e he s hmem => ?_, fun e he s hmem => ?_⟩
    · exact (List.pairwise_append.mp hs.left).2.2 s ((lefts_sublist (by rw [List.length_map, hl])).mem hmem) e he
    · exact (List.pairwise_append.mp hs).2.2 e (List.mem_append_right _ he) s
        ((sublist_rights (by rw [List.length_map, hr])).mem hmem)
  refine ⟨ascending_keys hb hs, fun i c hc => (hcut i c hc).2.1, fun i c hc => (hcut i c hc).2.2, fun c hc => ?_⟩
  obtain ⟨i, hi⟩ := List.mem_iff_getElem?.mp hc
  exact hkids c hc (hcut i c hi).1

theorem ordered_of_ascending :
    ∀ (d m : ℕ) (x : Tree d), x.Within t m (d = 0) (Sized t d) → Ascending cmp (inorder (d + 1) x) →
    Ordered cmp (d + 1) x
  | 0, _, x, hx, hs => ordered_node hx.branches (fun _ => Tree.kids_nil x) hs fun c => c.elim
  | d + 1, _, _, hx, hs => ordered_node hx.branches (fun hl => absurd hl (by simp)) hs fun c hc hsc =>
    ordered_of_ascending d (t - 1) c (hx.kids c hc) hsc

end Order

end PmemExamples.BTree
