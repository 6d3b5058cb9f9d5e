import PmemExamples.BTree.Crash

/-! # The sizes of `bt_create`

`bt_create` makes a tree of sound nodes for the sizes from 72 to 262183, in a pool with room for the struct and the
root, and for no other size (`btCreate_sound_iff`). Below 72 it activates what its uninitialised pointers say. Above
262183 the degree exceeds 8192, and a full count does not fit the 15 bits of `n`. -/

namespace PmemExamples.BTree
open Persist Libpmem Pool Tiling
set_option autoImplicit false

/-! ## The degree -/

theorem size_sub_toInt (size : Int32) : (size - 24).toInt = size.toInt - 24 ∧ -2 ^ 31 + 24 ≤ size.toInt ∨
    (size - 24).toInt = size.toInt - 24 + 2 ^ 32 ∧ size.toInt < -2 ^ 31 + 24 := by
  have h₁ := size.le_toInt
  have h₂ := size.toInt_lt
  rw [Int32.toInt_sub, show (24 : Int32).toInt = 24 from rfl, Int.bmod_def]
  split <;> omega

theorem degree_iff (size : Int32) : 2 ≤ degree size ∧ degree size ≤ 8192 ↔ 72 ≤ size.toInt ∧ size.toInt ≤ 262183 := by
  have h₁ := size.le_toInt
  have h₂ := size.toInt_lt
  unfold degree
  rcases size_sub_toInt size with ⟨h, h'⟩ | ⟨h, h'⟩ <;> rw [h] <;> omega

theorem node_le_size {size : Int32} (h₀ : 72 ≤ size.toInt) : 8 + 32 * degree size ≤ size.toInt := by
  unfold degree
  rcases size_sub_toInt size with ⟨h, h'⟩ | ⟨h, h'⟩ <;> rw [h] <;> omega

theorem count_iff (t : ℕ) :
    (∀ (word : ℕ) (n : ℤ), 0 ≤ n → n ≤ 2 * t - 1 → nField (setNField word n) = n) ↔ t ≤ 8192 := by
  constructor
  · intro h
    by_contra hlt
    have hn : nField (setNField 0 16384) = -16384 := by decide
    have := h 0 16384 (by decide) (by omega)
    omega
  · intro ht word n h₀ hn
    exact nField_setNField word h₀ (by omega)

/-! ## `bt_create` -/

/-- A tree of degree `t` whose nodes take at most `size` bytes: the arrays are apart and inside of what is allocated
for a node, the root is in an active clump, and `n` holds every count. -/
structure SoundTree (m : Mem) (p e btr : ℕ) (size : Int32) (t : ℕ) : Prop where
  degree : highInt (m (btr + 24)) = t
  two_le : 2 ≤ t
  size : ((sizeofBtreenode + (2 * t - 1) * 8 + 2 * t * 8 : ℕ) : ℤ) ≤ size.toInt
  keys : sizeofBtreenode ≤ lowInt (m (btr + 16))
  apart : lowInt (m (btr + 16)) + (2 * t - 1) * 8 ≤ highInt (m (btr + 16))
  nodes : highInt (m (btr + 16)) + 2 * t * 8 ≤ sizeofBtreenode + highInt (m (btr + 32))
  root : ∃ cs, Chain (fileAt p m) pmemClumpOffset cs e ∧ ∃ c ∈ cs, c.tag = .active ∧ p + (c.addr + 64) ≤ m btr ∧
    m btr + sizeofBtreenode + highInt (m (btr + 32)) ≤ p + (c.addr + c.size)
  count : ∀ (word : ℕ) (n : ℤ), 0 ≤ n → n ≤ 2 * t - 1 → nField (setNField word n) = n

/-- A run of `bt_create` from `w₀` that ends well: with `NULL` and no clump activated, or with such a tree. -/
def CreatesSoundly (p e : ℕ) (size : Int32) (w₀ : World) (run : Outcome (ℕ × ℕ) × World) : Prop :=
  ∃ btr g w, run = (.ok (btr, g), w) ∧
    (btr = 0 ∧ (∀ cs cs', Chain (fileAt p w₀.mem) pmemClumpOffset cs e → Chain (fileAt p w.mem) pmemClumpOffset cs' e →
      ∀ c ∈ cs', c.tag = .active → c ∈ cs) ∨
    btr ≠ 0 ∧ ∃ t, SoundTree w.mem p e btr size t)

theorem Planted.sound {p e : ℕ} {m : Mem} {cs : List Clump} {a b : Clump} {size : Int32}
    (h : Planted (fileAt p m) p cs a b (Int.toNat (degree size))) (hc : Chain (fileAt p m) pmemClumpOffset cs e)
    (h₀ : 72 ≤ size.toInt) (h₁ : size.toInt ≤ 262183) :
    SoundTree m p e (p + (a.addr + 64)) size (Int.toNat (degree size)) := by
  have hd := (degree_iff size).mpr ⟨h₀, h₁⟩
  have hsz := node_le_size h₀
  have hf := h.fields.mapped
  have hroot : m (p + (a.addr + 64)) = p + (b.addr + 64) := h.root
  have hroom := h.node.2.2
  refine ⟨hf.degree, by omega, ?_, hf.keyoff.ge, ?_, ?_, ⟨cs, hc, b, h.node.1, h.node.2.1, hroot.ge, ?_⟩,
    (count_iff _).mpr (by omega)⟩
  · simp only [sizeofBtreenode]
    omega
  · rw [hf.keyoff, hf.nodeptroff]
  · rw [hf.nodeptroff, hf.textra]
    omega
  · rw [hroot, hf.textra]
    omega

/-- On a pool just opened. -/
theorem btCreate_sound_iff {p e : ℕ} (hp : Mapped p e) (hp0 : p ≠ 0) {w₀ : World} (hopen : Opened p e w₀) (size : Int32)
    (cmp : ℕ) : ∃ cs, Chain (fileAt p w₀.mem) pmemClumpOffset cs e ∧
      (CreatesSoundly p e size w₀ (btCreate p cmp size 0 w₀) ↔
        72 ≤ size.toInt ∧ size.toInt ≤ 262183 ∧ Roomy (reserveSize sizeofBtree) (rootRoom size) cs) := by
  obtain ⟨cs, hbuild, hfa, hne⟩ := hopen.building hp
  refine ⟨cs, hbuild.chain, ?_⟩
  by_cases ht : 2 ≤ degree size
  · have hbuild₀ : Building w₀ p ([] ++ cs) e fun _ => True := hbuild
    rcases btCreate_cases hbuild₀ hfa hne (Or.inl rfl) hbuild.chain hp0 cmp ht with
      ⟨hno, msg, w', hrun⟩ | ⟨hroomy, g, w', cs', a, b, hrun, hbuild', -, hplant, -, -⟩
    · rw [hrun]
      constructor
      · rintro ⟨btr, g, w, heq, -⟩
        cases heq
      · exact fun h => absurd h.2.2 hno
    · rw [hrun]
      constructor
      · rintro ⟨btr, g', w, heq, hsound⟩
        obtain ⟨hres, rfl⟩ := Prod.mk.inj heq
        obtain ⟨rfl, -⟩ := Prod.mk.inj (Outcome.ok.inj hres)
        rcases hsound with ⟨hnull, -⟩ | ⟨-, t, hsound⟩
        · omega
        · have hdeg := hplant.fields.mapped.degree.symm.trans hsound.degree
          have hcount := (count_iff t).mp hsound.count
          have := (degree_iff size).mp ⟨ht, by omega⟩
          exact ⟨this.1, this.2, hroomy⟩
      · rintro ⟨h₀, h₁, -⟩
        exact ⟨_, g, w', rfl, Or.inr ⟨by omega, _, hplant.sound hbuild'.chain h₀ h₁⟩⟩
  · constructor
    · rintro ⟨btr, g, w, heq, -⟩
      rw [btCreate, if_neg fun hsize => ht hsize.2] at heq
      cases heq
    · exact fun h => absurd ((degree_iff size).mpr ⟨h.1, h.2.1⟩).1 ht

theorem btCreate_sound_iff_treePool : ∃ cs, Chain (fileAt 65536 treePool.mem) pmemClumpOffset cs 536870848 ∧
    (CreatesSoundly 65536 536870848 72 treePool (btCreate 65536 0 72 0 treePool) ↔
      72 ≤ (72 : Int32).toInt ∧ (72 : Int32).toInt ≤ 262183 ∧ Roomy (reserveSize sizeofBtree) (rootRoom 72) cs) :=
  btCreate_sound_iff ⟨by decide, by decide⟩ (by decide) (.created (by decide) rfl init_treePool) 72 0

/-- One byte less, and `tmp1` and `tmp` are activated without having been set. -/
theorem btCreate_unsound : btCreate 65536 0 71 0 treePool = (.fatal "uninitialised", treePool) ∧
    ¬ CreatesSoundly 65536 536870848 71 treePool (btCreate 65536 0 71 0 treePool) := by
  have hrun : btCreate 65536 0 71 0 treePool = (.fatal "uninitialised", treePool) := by
    rw [btCreate, if_neg (by decide)]
    rfl
  refine ⟨hrun, ?_⟩
  rw [hrun]
  rintro ⟨btr, g, w, heq, -⟩
  cases heq

end PmemExamples.BTree
