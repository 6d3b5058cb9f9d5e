import Mathlib.Data.List.Basic
import Mathlib.Tactic

/-! # Tilings of an address range by tagged blocks

`Tiles g a bs e`: the blocks `bs` follow each other without a gap from address `a` up to `e`, each of
positive size and a multiple of the granule `g`. -/

namespace PmemExamples.Tiling
set_option autoImplicit false

structure Block (τ : Type) where
  addr : ℕ
  size : ℕ
  tag : τ
  deriving DecidableEq, Repr

variable {τ σ : Type} {g : ℕ}

/-- The block with its tag mapped. -/
def Block.retag (f : τ → σ) (b : Block τ) : Block σ := ⟨b.addr, b.size, f b.tag⟩

@[simp] theorem Block.retag_addr (f : τ → σ) (b : Block τ) : (b.retag f).addr = b.addr := rfl
@[simp] theorem Block.retag_size (f : τ → σ) (b : Block τ) : (b.retag f).size = b.size := rfl
@[simp] theorem Block.retag_tag (f : τ → σ) (b : Block τ) : (b.retag f).tag = f b.tag := rfl

def Tiles (g : ℕ) : ℕ → List (Block τ) → ℕ → Prop
  | a, [], e => a = e
  | a, b :: bs, e => b.addr = a ∧ 0 < b.size ∧ g ∣ b.size ∧ Tiles g (a + b.size) bs e

theorem tiles_nil {a e : ℕ} : Tiles g a ([] : List (Block τ)) e ↔ a = e := Iff.rfl

theorem tiles_cons {a e : ℕ} {b : Block τ} {bs : List (Block τ)} :
    Tiles g a (b :: bs) e ↔ b.addr = a ∧ 0 < b.size ∧ g ∣ b.size ∧ Tiles g (a + b.size) bs e :=
  Iff.rfl

theorem tiles_append {a e : ℕ} {l r : List (Block τ)} :
    Tiles g a (l ++ r) e ↔ ∃ c, Tiles g a l c ∧ Tiles g c r e := by
  induction l generalizing a with
  | nil => simp [Tiles]
  | cons b l ih =>
    simp only [List.cons_append, tiles_cons, ih]
    constructor
    · rintro ⟨h1, h2, h3, c, h4, h5⟩; exact ⟨c, ⟨h1, h2, h3, h4⟩, h5⟩
    · rintro ⟨c, ⟨h1, h2, h3, h4⟩, h5⟩; exact ⟨h1, h2, h3, c, h4, h5⟩

namespace Tiles
variable {a c e : ℕ} {b b' : Block τ} {bs l r : List (Block τ)}

theorem append (h : Tiles g a l c) (h' : Tiles g c r e) : Tiles g a (l ++ r) e :=
  tiles_append.mpr ⟨c, h, h'⟩

theorem le (h : Tiles g a bs e) : a ≤ e := by
  induction bs generalizing a with
  | nil => exact le_of_eq h
  | cons b bs ih => have := ih h.2.2.2; omega

theorem size_pos (h : Tiles g a bs e) (hb : b ∈ bs) : 0 < b.size := by
  induction bs generalizing a with
  | nil => simp at hb
  | cons b' bs ih =>
    rcases List.mem_cons.mp hb with rfl | hb
    · exact h.2.1
    · exact ih h.2.2.2 hb

theorem size_dvd (h : Tiles g a bs e) (hb : b ∈ bs) : g ∣ b.size := by
  induction bs generalizing a with
  | nil => simp at hb
  | cons b' bs ih =>
    rcases List.mem_cons.mp hb with rfl | hb
    · exact h.2.2.1
    · exact ih h.2.2.2 hb

theorem bounds (h : Tiles g a bs e) (hb : b ∈ bs) : a ≤ b.addr ∧ b.addr + b.size ≤ e := by
  induction bs generalizing a with
  | nil => simp at hb
  | cons b' bs ih =>
    obtain ⟨h1, h2, -, h4⟩ := h
    rcases List.mem_cons.mp hb with rfl | hb
    · have := h4.le; omega
    · have := ih h4 hb; omega

theorem addr_dvd (h : Tiles g a bs e) (ha : g ∣ a) (hb : b ∈ bs) : g ∣ b.addr := by
  induction bs generalizing a with
  | nil => simp at hb
  | cons b' bs ih =>
    obtain ⟨h1, -, h3, h4⟩ := h
    rcases List.mem_cons.mp hb with rfl | hb
    · rw [h1]; exact ha
    · exact ih h4 (Nat.dvd_add ha h3) hb

theorem end_dvd (h : Tiles g a bs e) (ha : g ∣ a) : g ∣ e := by
  induction bs generalizing a with
  | nil => rw [← tiles_nil.mp h]; exact ha
  | cons b bs ih => exact ih h.2.2.2 (Nat.dvd_add ha h.2.2.1)

theorem split (h : Tiles g a (l ++ b :: r) e) :
    Tiles g a l b.addr ∧ 0 < b.size ∧ g ∣ b.size ∧ Tiles g (b.addr + b.size) r e := by
  obtain ⟨c, hl, hb, hp, hd, hr⟩ := tiles_append.mp h
  subst hb
  exact ⟨hl, hp, hd, hr⟩

/-- Two different blocks of a tiling do not overlap. -/
theorem disjoint (h : Tiles g a bs e) (hb : b ∈ bs) (hb' : b' ∈ bs) (hne : b ≠ b') :
    b.addr + b.size ≤ b'.addr ∨ b'.addr + b'.size ≤ b.addr := by
  obtain ⟨l, r, rfl⟩ := List.append_of_mem hb
  obtain ⟨hl, -, -, hr⟩ := h.split
  rcases List.mem_append.mp hb' with hb' | hb'
  · exact Or.inr (hl.bounds hb').2
  · rcases List.mem_cons.mp hb' with rfl | hb'
    · exact absurd rfl hne
    · exact Or.inl (hr.bounds hb').1

/-- A block of a tiling is known by its address. -/
theorem eq_of_addr (h : Tiles g a bs e) (hb : b ∈ bs) (hb' : b' ∈ bs) (ha : b.addr = b'.addr) :
    b = b' := by
  by_contra hne
  have := h.size_pos hb
  have := h.size_pos hb'
  rcases h.disjoint hb hb' hne with h | h <;> omega

theorem eq_of_mem_overlap {x : ℕ} (h : Tiles g a bs e) (hb : b ∈ bs) (hb' : b' ∈ bs)
    (hx : b.addr ≤ x ∧ x < b.addr + b.size) (hx' : b'.addr ≤ x ∧ x < b'.addr + b'.size) : b = b' := by
  by_contra hne
  rcases h.disjoint hb hb' hne with h | h <;> omega

theorem nodup (h : Tiles g a bs e) : bs.Nodup := by
  induction bs generalizing a with
  | nil => exact List.nodup_nil
  | cons b bs ih =>
    refine List.nodup_cons.mpr ⟨fun hb => ?_, ih h.2.2.2⟩
    have h1 := h.2.2.2.bounds hb
    have h2 := h.1
    have h3 := h.2.1
    omega

theorem covers {x : ℕ} (h : Tiles g a bs e) (hx : a ≤ x ∧ x < e) :
    ∃ b ∈ bs, b.addr ≤ x ∧ x < b.addr + b.size := by
  induction bs generalizing a with
  | nil => have := tiles_nil.mp h; omega
  | cons b bs ih =>
    obtain ⟨h1, -, -, h4⟩ := h
    by_cases hxb : x < a + b.size
    · exact ⟨b, List.mem_cons_self, by omega, by omega⟩
    · obtain ⟨b', hb', hx'⟩ := ih h4 ⟨by omega, hx.2⟩
      exact ⟨b', List.mem_cons_of_mem _ hb', hx'⟩

/-- The sizes add up to the length of the range. -/
theorem sum_sizes (h : Tiles g a bs e) : a + (bs.map Block.size).sum = e := by
  induction bs generalizing a with
  | nil => simpa using tiles_nil.mp h
  | cons b bs ih =>
    have := ih h.2.2.2
    simp only [List.map_cons, List.sum_cons]
    omega

/-- The number of blocks is bounded by the granules of the range. -/
theorem length_le (h : Tiles g a bs e) : a + bs.length * g ≤ e := by
  induction bs generalizing a with
  | nil => simpa using le_of_eq (tiles_nil.mp h)
  | cons b bs ih =>
    obtain ⟨-, h2, h3, h4⟩ := h
    have h5 := ih h4
    have h6 := Nat.le_of_dvd h2 h3
    simp only [List.length_cons, Nat.add_mul, one_mul]
    omega

theorem retag {f : τ → σ} (h : Tiles g a bs e) : Tiles g a (bs.map (Block.retag f)) e := by
  induction bs generalizing a with
  | nil => exact h
  | cons b bs ih =>
    obtain ⟨h1, h2, h3, h4⟩ := h
    exact ⟨h1, h2, h3, ih h4⟩

end Tiles

end PmemExamples.Tiling
