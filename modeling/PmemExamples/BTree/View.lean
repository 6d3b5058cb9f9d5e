import PmemExamples.BTree.Crash

/-! # Searching the nodes of a tree in a pool

On every node of a tree that `bt_create` made, the two variants of `findkindex` agree (`findkindex_eq_safe`). -/

namespace PmemExamples.BTree
open Persist Libpmem Pool
set_option autoImplicit false

/-- `KEYS(btr, x)[i]`. -/
def keyAt (m : Mem) (btr x : ℕ) (i : ℤ) : ℕ := m (slotAddr (x + lowInt (m (btr + 16))) i)

/-- What a search sees of a mapped tree: of the keys of a node it may read those in use. -/
def viewOps (m : Mem) (btr : ℕ) : NodeOps Option where
  hang := none
  exit := none
  log2 a nbits := some (log2 a nbits)
  root := some (m btr)
  setRoot _ := none
  t := some (highInt (m (btr + 24)))
  nbits := some (lowInt (m (btr + 32)))
  leaf x := some (leafBit (m x))
  setLeaf _ _ := none
  n x := some (nField (m x))
  setN _ _ := none
  key x i := if 0 ≤ i ∧ i < nField (m x) then some (keyAt m btr x i) else none
  setKey _ _ _ := none
  node x i := if 0 ≤ i ∧ i ≤ nField (m x) then some (m (slotAddr (x + highInt (m (btr + 16))) i)) else none
  setNode _ _ _ := none
  moveKeys _ _ _ _ _ := none
  moveNodes _ _ _ _ _ := none
  persist _ := none
  alloc := none
  pPtr x := some (m (x + 8))
  setPPtr _ _ := none
  activate _ := none
  free _ := none

/-- A view is only read. -/
def viewReads : Reads Option where
  holds act a := act = some a
  pure _ := rfl
  bind h h' := by rw [h]; exact h'

/-- The keys of the node `x`. -/
def viewKeys (m : Mem) (btr x : ℕ) : List ℕ :=
  (List.range (nField (m x)).toNat).map fun i : ℕ => keyAt m btr x (i : ℤ)

theorem readable_view {m : Mem} {btr x nkeys : ℕ} (hbits : lowInt (m (btr + 32)) = nbitsOf nkeys) (hlt : nkeys < 2 ^ 31)
    (h₀ : 0 ≤ nField (m x)) (hn : nField (m x) ≤ nkeys) :
    Readable viewReads (viewOps m btr) x (viewKeys m btr x) (nbitsOf nkeys) := by
  have hlen : (viewKeys m btr x).length = (nField (m x)).toNat := by rw [viewKeys, List.length_map, List.length_range]
  refine ⟨?_, congrArg some hbits, fun i hi => ?_, fun a ha hlt' => ?_⟩
  · exact congrArg some (by omega)
  · have hin : (0 : ℤ) ≤ i ∧ (i : ℤ) < nField (m x) := by omega
    show (if (0 : ℤ) ≤ i ∧ (i : ℤ) < nField (m x) then some (keyAt m btr x i) else none) = _
    rw [if_pos hin]
    simp [viewKeys]
  · exact congrArg some (log2_nbitsOf ha (by omega) hlt)

/-- Both variants of `findkindex` return the largest index with `cmp(k, key) >= 0`, or -1, reading the keys in
use only, and leave the same comparison in `*r` when there is one. -/
theorem findkindex_eq_safe {p e : ℕ} (hp : Mapped p e) (hp0 : p ≠ 0) {w₀ w : World} (hopen : Opened p e w₀)
    {size : Int32} {cmpAddr btr g : ℕ} (hcreate : btCreate p cmpAddr size 0 w₀ = (.ok (btr, g), w)) {cmp : ℕ → ℕ → ℤ}
    (hcmp : Comparison cmp) {m : Mem} (hm : ∀ y, btr + 8 ≤ y → y < btr + sizeofBtree → m y = w.mem y) {x : ℕ}
    (h₀ : 0 ≤ nField (m x)) (hn : nField (m x) ≤ 2 * degree size - 1)
    (hs : ∀ i j, 0 ≤ i → i < j → j < nField (m x) → cmp (keyAt m btr x i) (keyAt m btr x j) ≤ 0) (k : ℕ) :
    ∃ j o o', findkindex (viewOps m btr) cmp x k = some (j, o) ∧ findkindexSafe (viewOps m btr) cmp x k = some (j, o') ∧
      -1 ≤ j ∧ j < nField (m x) ∧ (∀ i, 0 ≤ i → i ≤ j → 0 ≤ cmp k (keyAt m btr x i)) ∧
      (∀ i, 0 ≤ i → j < i → i < nField (m x) → cmp k (keyAt m btr x i) < 0) ∧
      (0 ≤ j → o = some (cmp k (keyAt m btr x j)) ∧ o' = o) := by
  obtain ⟨cs₀, hbuild₀, hfa₀, hne₀⟩ := hopen.building hp
  obtain ⟨cs, a, b, -, -, hplant, -, rfl, ht, -⟩ := btCreate_ok hbuild₀ hfa₀ hne₀ (Or.inl rfl) hp0 hcreate
  have hlt := degree_lt size
  have hbits : lowInt (m (p + (a.addr + 64) + 32)) = nbitsOf (2 * (degree size).toNat - 1) := by
    rw [hm _ (by omega) (by simp only [sizeofBtree]; omega)]
    exact hplant.fields.mapped.nbits
  have hread := readable_view (x := x) hbits (by omega) h₀ (by omega)
  have hlen : (viewKeys m (p + (a.addr + 64)) x).length = (nField (m x)).toNat := by simp [viewKeys]
  have hget : ∀ i (hi : i < (viewKeys m (p + (a.addr + 64)) x).length),
      (viewKeys m (p + (a.addr + 64)) x)[i] = keyAt m (p + (a.addr + 64)) x i := fun i hi => by simp [viewKeys]
  have hasc : Ascending cmp (viewKeys m (p + (a.addr + 64)) x) := by
    refine List.pairwise_iff_getElem.mpr fun i j hi hj hij => ?_
    rw [hget, hget]
    exact hs i j (by omega) (by omega) (by omega)
  obtain ⟨l, r, res, heq, hfast, hfound⟩ := findkindex_reads hread hcmp hasc k
  obtain ⟨l', r', res', heq', hsafe, hfound'⟩ := findkindexSafe_reads hread hcmp hasc k
  obtain ⟨rfl, rfl⟩ := hfound.parts.unique hfound'.parts (heq.symm.trans heq')
  have hsum : l.length + r.length = (nField (m x)).toNat := by rw [← hlen, heq, List.length_append]
  refine ⟨res.1, res.2, res'.2, hfast, ?_, ?_, ?_, fun i hi hij => ?_, fun i hi hij hin => ?_, fun hj => ?_⟩
  · rw [hfound.index, ← hfound'.index]
    exact hsafe
  · have := hfound.index
    omega
  · have := hfound.index
    omega
  · have hidx := hfound.index
    have hil : i.toNat < l.length := by omega
    have hkey := hget i.toNat (by omega)
    rw [Int.toNat_of_nonneg hi] at hkey
    rw [← hkey, List.getElem_of_eq heq, List.getElem_append_left hil]
    exact hfound.parts.left _ (List.getElem_mem _)
  · have hidx := hfound.index
    have hkey := hget i.toNat (by omega)
    rw [Int.toNat_of_nonneg hi] at hkey
    rw [← hkey, List.getElem_of_eq heq, List.getElem_append_right (by omega)]
    exact hfound.parts.right _ (List.getElem_mem _)
  · have hidx := hfound.index
    have hpos : 0 < l.length := by omega
    have hkey := hget (l.length - 1) (by omega)
    rw [List.getElem_of_eq heq, List.getElem_append_left (by omega),
      show ((l.length - 1 : ℕ) : ℤ) = res.1 by omega] at hkey
    have hlast : l[l.length - 1] ∈ l.getLast? := by
      rw [List.getLast?_eq_getElem?]
      simp [List.getElem?_eq_getElem (show l.length - 1 < l.length by omega)]
    rw [← hkey]
    exact ⟨hfound.last _ hlast, (hfound'.last _ hlast).trans (hfound.last _ hlast).symm⟩

/-- A search for 2 among 1, 2 and 3. -/
theorem findkindex_eq_safe_fullTree : ∃ j o o', findkindex (viewOps fullTree.mem 81984) byValue 82112 2 = some (j, o) ∧
    findkindexSafe (viewOps fullTree.mem 81984) byValue 82112 2 = some (j, o') ∧
    (0 ≤ j → o = some (byValue 2 (keyAt fullTree.mem 81984 82112 j)) ∧ o' = o) := by
  have hcount : nField (fullTree.mem 82112) = 3 := by decide +kernel
  have hkeys : keyAt fullTree.mem 81984 82112 0 = 1 ∧ keyAt fullTree.mem 81984 82112 1 = 2 ∧
      keyAt fullTree.mem 81984 82112 2 = 3 := by decide +kernel
  have hstruct : ∀ y < 48, 8 ≤ y → fullTree.mem (81984 + y) = smallTree.mem (81984 + y) := by decide +kernel
  obtain ⟨j, o, o', h1, h2, -, -, -, -, h3⟩ := findkindex_eq_safe (m := fullTree.mem) (x := 82112) ⟨by decide, by decide⟩
    (by decide) (.created (by decide) rfl init_treePool) create_smallTree comparison_byValue (fun y hy hy' => by
      have := hstruct (y - 81984) (by simp only [sizeofBtree] at hy'; omega) (by omega)
      rwa [show 81984 + (y - 81984) = y by omega] at this) (by rw [hcount]; decide) (by rw [hcount]; decide)
    (fun i j hi hij hj => by
      rw [hcount] at hj
      have hcases : i = 0 ∧ j = 1 ∨ i = 0 ∧ j = 2 ∨ i = 1 ∧ j = 2 := by omega
      rcases hcases with ⟨rfl, rfl⟩ | ⟨rfl, rfl⟩ | ⟨rfl, rfl⟩
      · rw [hkeys.1, hkeys.2.1]
        decide
      · rw [hkeys.1, hkeys.2.2]
        decide
      · rw [hkeys.2.1, hkeys.2.2]
        decide) 2
  exact ⟨j, o, o', h1, h2, h3⟩

end PmemExamples.BTree
