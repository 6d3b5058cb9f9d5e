import Mathlib.Data.Tree.Basic
import Mathlib.Data.List.Basic
import Mathlib.Tactic

/-! # Binary trees and the places in them

`inorder` and `postorder` list the values of a tree; a `Context` is a tree with one subtree taken out,
and `plug` puts one in. With values ordered by a key, a search path `Leads` to the only place where a
new value keeps the tree sorted. -/

namespace PmemExamples.SearchTree
set_option autoImplicit false

variable {α κ : Type}

def inorder : BinaryTree α → List α
  | .nil => []
  | .node x l r => inorder l ++ x :: inorder r

def postorder : BinaryTree α → List α
  | .nil => []
  | .node x l r => postorder l ++ postorder r ++ [x]

@[simp] theorem inorder_nil : inorder (.nil : BinaryTree α) = [] := rfl
@[simp] theorem inorder_node (x : α) (l r : BinaryTree α) :
    inorder (.node x l r) = inorder l ++ x :: inorder r := rfl

theorem postorder_perm (t : BinaryTree α) : (postorder t).Perm (inorder t) := by
  induction t with
  | nil => exact .nil
  | node x l r ihl ihr =>
    calc postorder (.node x l r) = postorder l ++ postorder r ++ [x] := rfl
      _ |>.Perm (inorder l ++ inorder r ++ [x]) := (ihl.append ihr).append_right _
      _ |>.Perm (inorder l ++ x :: inorder r) := by
        rw [List.append_assoc]
        exact (List.perm_append_singleton x (inorder r)).append_left _

theorem height_le_length (t : BinaryTree α) : t.height ≤ (inorder t).length := by
  induction t with
  | nil => simp
  | node x l r ihl ihr =>
    simp only [BinaryTree.height, inorder_node, List.length_append, List.length_cons]
    omega

/-! ## Contexts -/

/-- A tree with a hole, from the hole up. -/
inductive Context (α : Type) where
  | top
  | left (x : α) (r : BinaryTree α) (up : Context α)
  | right (x : α) (l : BinaryTree α) (up : Context α)

namespace Context

def plug : Context α → BinaryTree α → BinaryTree α
  | top, t => t
  | left x r up, t => up.plug (.node x t r)
  | right x l up, t => up.plug (.node x l t)

/-- The values in front of the hole. -/
def before : Context α → List α
  | top => []
  | left _ _ up => up.before
  | right x l up => up.before ++ inorder l ++ [x]

/-- The values behind it. -/
def after : Context α → List α
  | top => []
  | left x r up => x :: inorder r ++ up.after
  | right _ _ up => up.after

theorem inorder_plug (c : Context α) (t : BinaryTree α) :
    inorder (c.plug t) = c.before ++ inorder t ++ c.after := by
  induction c generalizing t with
  | top => simp [plug, before, after]
  | left x r up ih => simp [plug, before, after, ih]
  | right x l up ih => simp [plug, before, after, ih]

/-- The values other than the one at the root of what is plugged in. -/
def others (c : Context α) (l r : BinaryTree α) : List α := c.before ++ inorder l ++ (inorder r ++ c.after)

theorem perm_plug_node (c : Context α) (x : α) (l r : BinaryTree α) :
    (inorder (c.plug (.node x l r))).Perm (x :: c.others l r) := by
  rw [inorder_plug, inorder_node, ← List.append_assoc, List.append_assoc, List.cons_append]
  exact List.perm_middle

theorem mem_plug_node {c : Context α} {x y : α} {l r : BinaryTree α} :
    y ∈ inorder (c.plug (.node x l r)) ↔ y = x ∨ y ∈ c.others l r := by
  rw [(c.perm_plug_node x l r).mem_iff, List.mem_cons]

theorem inorder_plug_nil (c : Context α) : inorder (c.plug .nil) = c.others .nil .nil := by
  simp [inorder_plug, others]

end Context

/-! ## Sorted trees -/

section Sorted
variable [LinearOrder κ] {key : α → κ}

/-- The values in order have strictly increasing keys. -/
def Sorted (key : α → κ) (t : BinaryTree α) : Prop := (inorder t).Pairwise fun x y => key x < key y

/-- A search for `k` comes to the hole. -/
def Leads (key : α → κ) (k : κ) : Context α → Prop
  | .top => True
  | .left x _ up => k < key x ∧ Leads key k up
  | .right x _ up => key x < k ∧ Leads key k up

/-- The hole lies between the smaller keys and the larger ones. -/
theorem Leads.apart {k : κ} : ∀ {c : Context α} {t : BinaryTree α}, Leads key k c → Sorted key (c.plug t) →
    (∀ x ∈ c.before, key x < k) ∧ ∀ x ∈ c.after, k < key x
  | .top, _, _, _ => ⟨by simp [Context.before], by simp [Context.after]⟩
  | .left x r up, t, ⟨hx, hup⟩, hs => by
    obtain ⟨hb, ha⟩ := Leads.apart hup hs
    have hmid : Sorted key (.node x t r) := by
      rw [Sorted, Context.plug, Context.inorder_plug, List.append_assoc] at hs
      exact (List.pairwise_append.mp (List.pairwise_append.mp hs).2.1).1
    have hr : ∀ y ∈ inorder r, key x < key y :=
      (List.pairwise_cons.mp (List.pairwise_append.mp hmid).2.1).1
    refine ⟨hb, fun y hy => ?_⟩
    rw [Context.after, List.cons_append, List.mem_cons, List.mem_append] at hy
    rcases hy with rfl | hy | hy
    · exact hx
    · exact hx.trans (hr y hy)
    · exact ha y hy
  | .right x l up, t, ⟨hx, hup⟩, hs => by
    obtain ⟨hb, ha⟩ := Leads.apart hup hs
    have hmid : Sorted key (.node x l t) := by
      rw [Sorted, Context.plug, Context.inorder_plug, List.append_assoc] at hs
      exact (List.pairwise_append.mp (List.pairwise_append.mp hs).2.1).1
    have hl : ∀ y ∈ inorder l, key y < key x := fun y hy =>
      (List.pairwise_append.mp hmid).2.2 y hy x List.mem_cons_self
    refine ⟨fun y hy => ?_, ha⟩
    rw [Context.before, List.mem_append, List.mem_append, List.mem_singleton] at hy
    rcases hy with (hy | hy) | rfl
    · exact hb y hy
    · exact (hl y hy).trans hx
    · exact hx

theorem Sorted.nodup {t : BinaryTree α} (hs : Sorted key t) : ((inorder t).map key).Nodup :=
  List.pairwise_map.mpr (hs.imp ne_of_lt)

/-- No other value has the key of the one at the hole. -/
theorem Sorted.key_ne {c : Context α} {x : α} {l r : BinaryTree α} (hs : Sorted key (c.plug (.node x l r))) :
    ∀ y ∈ c.others l r, key y ≠ key x := by
  have hn := ((c.perm_plug_node x l r).map key).nodup_iff.mp hs.nodup
  rw [List.map_cons, List.nodup_cons] at hn
  exact fun y hy heq => hn.1 (heq ▸ List.mem_map_of_mem hy)

theorem Sorted.insert {x : α} {c : Context α} (hs : Sorted key (c.plug .nil)) (hc : Leads key (key x) c) :
    Sorted key (c.plug (.node x .nil .nil)) := by
  obtain ⟨hb, ha⟩ := hc.apart hs
  rw [Sorted, Context.inorder_plug] at hs ⊢
  rw [inorder_nil, List.append_nil, List.pairwise_append] at hs
  obtain ⟨h1, h2, h3⟩ := hs
  refine List.pairwise_append.mpr ⟨List.pairwise_append.mpr ⟨h1, List.pairwise_singleton _ _, ?_⟩, h2, ?_⟩
  · simpa using hb
  · intro y hy z hz
    rw [List.mem_append] at hy
    rcases hy with hy | hy
    · exact h3 y hy z hz
    · obtain rfl : y = x := by simpa using hy
      exact ha z hz

theorem Sorted.replace {x y : α} {l r : BinaryTree α} {c : Context α} (hs : Sorted key (c.plug (.node x l r)))
    (hk : key y = key x) : Sorted key (c.plug (.node y l r)) := by
  have hmap : ∀ z, (inorder (c.plug (.node z l r))).map key =
      (c.before ++ inorder l).map key ++ key z :: (inorder r ++ c.after).map key := by
    intro z
    simp [Context.inorder_plug]
  have h := List.pairwise_map.mpr hs
  rw [hmap, ← hk, ← hmap] at h
  exact List.pairwise_map.mp h

end Sorted

end PmemExamples.SearchTree
