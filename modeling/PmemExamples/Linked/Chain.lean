import Mathlib.Data.Finset.Basic
import Mathlib.Tactic

/-! # Linked chains and arrays of them

A memory maps addresses to nodes, and a node holds the address of the next one; 0 is null. `Chain` is the
list of addresses met from a pointer on. `Buckets` is an array of chains that sorts a set of nodes by an
index: what is in no chain, or in two, it excludes. -/

namespace PmemExamples.Linked
set_option autoImplicit false

variable {Node : Type} {next : Node → ℕ} {m m' : ℕ → Option Node} {a b c : ℕ} {x y : Node} {l r : List ℕ}

def Chain (next : Node → ℕ) (m : ℕ → Option Node) : ℕ → List ℕ → Prop
  | a, [] => a = 0
  | a, b :: l => a = b ∧ b ≠ 0 ∧ ∃ x, m b = some x ∧ Chain next m (next x) l

@[simp] theorem chain_nil : Chain next m a [] ↔ a = 0 := Iff.rfl

theorem chain_cons : Chain next m a (b :: l) ↔ a = b ∧ b ≠ 0 ∧ ∃ x, m b = some x ∧ Chain next m (next x) l :=
  Iff.rfl

namespace Chain

theorem suffix (h : Chain next m a (l ++ b :: r)) : Chain next m b (b :: r) := by
  induction l generalizing a with
  | nil =>
    rw [List.nil_append] at h
    rwa [h.1] at h
  | cons c l ih =>
    obtain ⟨-, -, x, -, h⟩ := h
    exact ih h

theorem node (h : Chain next m a l) (hb : b ∈ l) : b ≠ 0 ∧ ∃ x, m b = some x := by
  obtain ⟨l, r, rfl⟩ := List.append_of_mem hb
  obtain ⟨-, h0, x, hx, -⟩ := h.suffix
  exact ⟨h0, x, hx⟩

/-- Two chains from one pointer are the same when the nodes they share point to the same. -/
theorem agree (h : Chain next m a l) (h' : Chain next m' a r)
    (hn : ∀ b x y, m b = some x → m' b = some y → next x = next y) : l = r := by
  induction l generalizing a r with
  | nil =>
    cases r with
    | nil => rfl
    | cons c r => exact absurd (h'.1.symm.trans h) h'.2.1
  | cons b l ih =>
    cases r with
    | nil => exact absurd (h.1.symm.trans h') h.2.1
    | cons c r =>
      obtain ⟨rfl, -, x, hx, hl⟩ := h
      obtain ⟨rfl, -, y, hy, hr⟩ := h'
      rw [hn _ x y hx hy] at hl
      rw [ih hl hr]

theorem unique (h : Chain next m a l) (h' : Chain next m a r) : l = r :=
  h.agree h' fun _ _ _ hx hy => congrArg next (Option.some.inj (hx.symm.trans hy))

/-- A chain that ends does not come back to a node. -/
theorem nodup (h : Chain next m a l) : l.Nodup := by
  induction l generalizing a with
  | nil => exact List.nodup_nil
  | cons b l ih =>
    obtain ⟨-, h0, x, hx, hl⟩ := h
    refine List.nodup_cons.mpr ⟨fun hb => ?_, ih hl⟩
    obtain ⟨l₁, l₂, rfl⟩ := List.append_of_mem hb
    -- the chain from the second meeting on is the one from the first
    have hfirst : Chain next m b (b :: (l₁ ++ b :: l₂)) := ⟨rfl, h0, x, hx, hl⟩
    have hlen := congrArg List.length (hl.suffix.unique hfirst)
    simp at hlen
    omega

theorem congr (h : Chain next m a l) (hm : ∀ b ∈ l, m' b = m b) : Chain next m' a l := by
  induction l generalizing a with
  | nil => exact h
  | cons b l ih =>
    obtain ⟨h1, h0, x, hx, hl⟩ := h
    exact ⟨h1, h0, x, (hm b List.mem_cons_self).trans hx, ih hl fun c hc => hm c (List.mem_cons_of_mem _ hc)⟩

theorem update (h : Chain next m a l) (hb : b ∉ l) (v : Option Node) :
    Chain next (Function.update m b v) a l :=
  h.congr fun _ hc => Function.update_of_ne (ne_of_mem_of_not_mem hc hb) _ _

theorem relabel (h : Chain next m a l) (hm : ∀ b, (m' b).map next = (m b).map next) : Chain next m' a l := by
  induction l generalizing a with
  | nil => exact h
  | cons b l ih =>
    obtain ⟨h1, h0, x, hx, hl⟩ := h
    have hb := hm b
    rw [hx] at hb
    obtain ⟨y, hy, hyx⟩ := Option.map_eq_some_iff.mp hb
    exact ⟨h1, h0, y, hy, ih (hyx ▸ hl)⟩

theorem push (h : Chain next m (next x) l) (hb : b ∉ l) (h0 : b ≠ 0) :
    Chain next (Function.update m b (some x)) b (b :: l) :=
  ⟨rfl, h0, x, Function.update_self .., h.update hb _⟩

/-- A node taken out behind `b`, by letting `b` point past it. -/
theorem unlink (h : Chain next m a (l ++ b :: c :: r)) (hc : m c = some y) (hx : next x = next y) :
    Chain next (Function.update m b (some x)) a (l ++ b :: r) := by
  have hnd := h.nodup
  induction l generalizing a with
  | nil =>
    obtain ⟨rfl, h0, z, -, -, -, y', hy, hr⟩ := h
    obtain rfl : y' = y := Option.some.inj (hy.symm.trans hc)
    rw [List.nil_append, List.nodup_cons] at hnd
    exact push (hx ▸ hr) (fun hb => hnd.1 (List.mem_cons_of_mem _ hb)) h0
  | cons d l ih =>
    obtain ⟨h1, h0, z, hz, hl⟩ := h
    rw [List.cons_append, List.nodup_cons] at hnd
    have hdb : d ≠ b := fun hdb => hnd.1 (by simp [hdb])
    exact ⟨h1, h0, z, (Function.update_of_ne hdb _ _).trans hz, ih hl hnd.2⟩

end Chain

/-- A node that changes only in what `f` does not look at. -/
theorem map_update {α : Type} {f : Node → α} (hx : m a = some x) (hf : f y = f x) (b : ℕ) :
    (Function.update m a (some y) b).map f = (m b).map f := by
  by_cases hb : b = a
  · rw [hb, Function.update_self, hx, Option.map_some, Option.map_some, hf]
  · rw [Function.update_of_ne hb]

/-! ## Buckets -/

/-- The `n` chains hold the nodes at `S`, each in the bucket of its index. -/
def Buckets (next index : Node → ℕ) (m : ℕ → Option Node) (n : ℕ) (table : ℕ → ℕ) (S : Finset ℕ) : Prop :=
  ∀ i < n, ∃ l, Chain next m (table i) l ∧ ∀ a, a ∈ l ↔ a ∈ S ∧ ∃ x, m a = some x ∧ index x = i

namespace Buckets
variable {index : Node → ℕ} {n i : ℕ} {table : ℕ → ℕ} {S : Finset ℕ}

theorem empty (next index : Node → ℕ) (m : ℕ → Option Node) (n : ℕ) : Buckets next index m n (fun _ => 0) ∅ :=
  fun _ _ => ⟨[], rfl, by simp⟩

theorem congr (h : Buckets next index m n table S) (hm : ∀ a ∈ S, m' a = m a) : Buckets next index m' n table S := by
  intro i hi
  obtain ⟨l, hl, hmem⟩ := h i hi
  refine ⟨l, hl.congr fun b hb => hm b ((hmem b).mp hb).1, fun a => ?_⟩
  rw [hmem a]
  refine and_congr_right fun ha => ?_
  rw [hm a ha]

theorem relabel (h : Buckets next index m n table S) (hm : ∀ b, (m' b).map next = (m b).map next)
    (hi : ∀ b, (m' b).map index = (m b).map index) : Buckets next index m' n table S := by
  intro j hj
  obtain ⟨l, hl, hmem⟩ := h j hj
  refine ⟨l, hl.relabel hm, fun a => ?_⟩
  rw [hmem a]
  apply and_congr_right
  intro _
  rw [← Option.map_eq_some_iff, ← Option.map_eq_some_iff, hi a]

theorem chain_of_mem (h : Buckets next index m n table S) (ha : a ∈ S) (hx : m a = some x) (hi : index x < n) :
    ∃ l r, Chain next m (table (index x)) (l ++ a :: r) := by
  obtain ⟨l, hl, hmem⟩ := h (index x) hi
  obtain ⟨l₁, l₂, rfl⟩ := List.append_of_mem ((hmem a).mpr ⟨ha, x, hx, rfl⟩)
  exact ⟨l₁, l₂, hl⟩

/-- A new node in front of the chain of its bucket. -/
theorem push (h : Buckets next index m n table S) (ha : a ∉ S) (h0 : a ≠ 0) (hx : next x = table (index x)) :
    Buckets next index (Function.update m a (some x)) n (Function.update table (index x) a) (insert a S) := by
  intro i hi
  obtain ⟨l, hl, hmem⟩ := h i hi
  have hal : a ∉ l := fun hal => ha ((hmem a).mp hal).1
  have hother : ∀ b ≠ a, (b ∈ l ↔ b ∈ insert a S ∧
      ∃ y, Function.update m a (some x) b = some y ∧ index y = i) := by
    intro b hb
    rw [hmem b, Finset.mem_insert, Function.update_of_ne hb]
    simp [hb]
  by_cases hi' : i = index x
  · subst hi'
    refine ⟨a :: l, ?_, fun b => ?_⟩
    · rw [Function.update_self]
      exact Chain.push (hx ▸ hl) hal h0
    · by_cases hb : b = a
      · subst hb
        simp
      · rw [List.mem_cons, ← hother b hb]
        simp [hb]
  · refine ⟨l, ?_, fun b => ?_⟩
    · rw [Function.update_of_ne hi']
      exact hl.update hal _
    · by_cases hb : b = a
      · subst hb
        refine iff_of_false hal ?_
        rintro ⟨-, y, hy, rfl⟩
        rw [Function.update_self] at hy
        exact hi' (congrArg index (Option.some.inj hy)).symm
      · exact hother b hb

theorem pop (h : Buckets next index m n table S) (hi : i < n) (h0 : table i ≠ 0) :
    ∃ x, m (table i) = some x ∧ table i ∈ S ∧ index x = i ∧
      Buckets next index m n (Function.update table i (next x)) (S.erase (table i)) := by
  obtain ⟨l, hl, hmem⟩ := h i hi
  cases l with
  | nil => exact absurd hl h0
  | cons b l =>
    obtain ⟨rfl, -, x, hx, hrest⟩ := id hl
    have hnd := List.nodup_cons.mp hl.nodup
    obtain ⟨hS, y, hy, hyi⟩ := (hmem _).mp List.mem_cons_self
    obtain rfl : x = y := Option.some.inj (hx.symm.trans hy)
    refine ⟨x, hx, hS, hyi, fun j hj => ?_⟩
    by_cases hji : j = i
    · subst hji
      refine ⟨l, by rwa [Function.update_self], fun b => ?_⟩
      have hb := hmem b
      rw [List.mem_cons] at hb
      rw [Finset.mem_erase, and_assoc, ← hb]
      constructor
      · intro hbl
        exact ⟨fun heq => hnd.1 (heq ▸ hbl), Or.inr hbl⟩
      · rintro ⟨hne, heq | hbl⟩
        · exact absurd heq hne
        · exact hbl
    · obtain ⟨l', hl', hmem'⟩ := h j hj
      refine ⟨l', by rwa [Function.update_of_ne hji], fun b => ?_⟩
      rw [hmem' b, Finset.mem_erase, and_assoc, iff_and_self]
      rintro ⟨-, z, hz, hzj⟩ rfl
      obtain rfl : x = z := Option.some.inj (hx.symm.trans hz)
      exact hji (hzj.symm.trans hyi)

/-- A node taken out of the middle of a bucket, by letting the one before it point past it. -/
theorem unlink {z : Node} (h : Buckets next index m n table S) (hi : i < n)
    (hl : Chain next m (table i) (l ++ b :: c :: r)) (hb : m b = some x) (hc : m c = some y)
    (hz : next z = next y) (hzx : index z = index x) :
    Buckets next index (Function.update m b (some z)) n table (S.erase c) := by
  obtain ⟨l₀, hl₀, hmem⟩ := h i hi
  obtain rfl := hl₀.unique hl
  have hnd := hl.nodup
  have hbi : index x = i := by
    obtain ⟨-, x', hx', hi'⟩ := (hmem b).mp (by simp)
    obtain rfl : x = x' := Option.some.inj (hb.symm.trans hx')
    exact hi'
  have hci : index y = i := by
    obtain ⟨-, y', hy', hi'⟩ := (hmem c).mp (by simp)
    obtain rfl : y = y' := Option.some.inj (hc.symm.trans hy')
    exact hi'
  -- the node before keeps its index
  have hindex : ∀ a j, (∃ w, Function.update m b (some z) a = some w ∧ index w = j) ↔
      ∃ w, m a = some w ∧ index w = j := by
    intro a j
    by_cases hab : a = b
    · subst hab
      simp [hb, hzx]
    · rw [Function.update_of_ne hab]
  intro j hj
  by_cases hji : j = i
  · subst hji
    refine ⟨l ++ b :: r, hl.unlink hc hz, fun a => ?_⟩
    have ha := hmem a
    have hcl : c ∉ l ++ b :: r := by
      rw [List.append_cons, List.nodup_middle, List.nodup_cons] at hnd
      simpa using hnd.1
    rw [hindex, Finset.mem_erase, and_assoc, ← ha]
    by_cases hac : a = c
    · subst hac
      simp only [ne_eq, not_true, false_and, iff_false]
      exact hcl
    · simp [hac]
  · obtain ⟨l', hl', hmem'⟩ := h j hj
    have hother : ∀ a w, m a = some w → index w = i → a ∉ l' := by
      intro a w hw hwi ha
      obtain ⟨-, v, hv, hvj⟩ := (hmem' a).mp ha
      obtain rfl : w = v := Option.some.inj (hw.symm.trans hv)
      exact hji (hvj.symm.trans hwi)
    refine ⟨l', hl'.update (hother b x hb hbi) _, fun a => ?_⟩
    rw [hmem' a, hindex, Finset.mem_erase, and_assoc, iff_and_self]
    rintro ⟨ha, hw⟩ rfl
    exact hother a y hc hci ((hmem' a).mpr ⟨ha, hw⟩)

end Buckets

end PmemExamples.Linked
