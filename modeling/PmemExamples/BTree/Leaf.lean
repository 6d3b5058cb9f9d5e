import PmemExamples.BTree.Create
import PmemExamples.Pool.Requests

/-! # A tree of one leaf

Until its root is full an insertion stores to the payload of the root only, and nothing it stores there clears
the leaf bit. So a crash in it leaves the root slot, the struct and the shape of the tree as `bt_create` made
them. -/

namespace PmemExamples.BTree
open Persist Libpmem Pool Tiling
set_option autoImplicit false

/-! ## Searching a node -/

theorem or_le_add (x y : ℕ) : x ||| y ≤ x + y := by
  induction x using Nat.strong_induction_on generalizing y with
  | _ x ih =>
    rcases Nat.eq_zero_or_pos x with rfl | hx
    · simp
    · have h := ih (x / 2) (by omega) (y / 2)
      rw [← Nat.or_div_two] at h
      have hbit : (x ||| y) % 2 ≤ x % 2 + y % 2 := by
        have := Nat.or_mod_two_eq_one (a := x) (b := y)
        omega
      omega

section Node
variable {m : Mem} {p btr r k g : ℕ} {cmp : ℕ → ℕ → ℤ}

theorem read_runs {α : Type} (x : Bool) (m : Mem) (a : ℕ) (f : ℕ → α) :
    Runs x (Proc.lift (do return f (← Prog.load a)) g) m (f (m a), g) [] :=
  Proc.lift_runs ((Runs.load x m a).bind_silent (Runs.pure x m _))

theorem key_runs (btr : ℕ) (x : Bool) (m : Mem) (r : ℕ) (i : ℤ) :
    ∃ v, Runs x ((pmemOps p btr).key r i g) m (v, g) [] :=
  ⟨_, Proc.lift_runs ((Runs.load x m _).bind_silent (Runs.load x m _))⟩

theorem findkindexLoop_runs (btr : ℕ) (cmp : ℕ → ℕ → ℤ) (x : Bool) (m : Mem) : ∀ (fuel a i : ℕ), a < fuel →
    ∃ j ≤ i + a, Runs x (findkindexLoop (pmemOps p btr) cmp r k fuel a i g) m (j, g) []
  | fuel + 1, a, i, hf => by
    by_cases ha : a = 0
    · refine ⟨i, by omega, ?_⟩
      rw [findkindexLoop, if_pos ha]
      exact Runs.pure x m _
    have hb := two_pow_log2_le (Nat.pos_of_ne_zero ha) (lowInt (m (btr + 32)))
    obtain ⟨v, hv⟩ := key_runs (g := g) (p := p) btr x m r
      ((2 ^ log2 a (lowInt (m (btr + 32))) + i : ℕ) : ℤ)
    have hstep : ∀ {j : ℕ}, Runs x ((if cmp k v < 0 then
        findkindexLoop (pmemOps p btr) cmp r k fuel (2 ^ log2 a (lowInt (m (btr + 32))) - 1) i
        else findkindexLoop (pmemOps p btr) cmp r k fuel (a - 2 ^ log2 a (lowInt (m (btr + 32))))
          (i ||| 2 ^ log2 a (lowInt (m (btr + 32))))) g) m (j, g) [] →
        Runs x (findkindexLoop (pmemOps p btr) cmp r k (fuel + 1) a i g) m (j, g) [] := by
      intro j h
      rw [findkindexLoop, if_neg ha]
      exact Proc.bind_silent (read_runs x m _ _) (Proc.bind_silent (Runs.pure x m _) (Proc.bind_silent hv h))
    by_cases hlt : cmp k v < 0
    · obtain ⟨j, hj, h⟩ := findkindexLoop_runs btr cmp x m fuel (2 ^ log2 a (lowInt (m (btr + 32))) - 1) i (by omega)
      refine ⟨j, by omega, hstep ?_⟩
      rw [if_pos hlt]
      exact h
    · have hpos := Nat.two_pow_pos (log2 a (lowInt (m (btr + 32))))
      obtain ⟨j, hj, h⟩ := findkindexLoop_runs btr cmp x m fuel (a - 2 ^ log2 a (lowInt (m (btr + 32))))
        (i ||| 2 ^ log2 a (lowInt (m (btr + 32)))) (by omega)
      have := or_le_add i (2 ^ log2 a (lowInt (m (btr + 32))))
      refine ⟨j, by omega, hstep ?_⟩
      rw [if_neg hlt]
      exact h

theorem findkindex_runs (btr : ℕ) (cmp : ℕ → ℕ → ℤ) (x : Bool) (m : Mem) {n : ℤ} (hn : nField (m r) = n) (h₀ : 0 ≤ n) :
    ∃ i o, -1 ≤ i ∧ i ≤ n - 1 ∧ Runs x (findkindex (pmemOps p btr) cmp r k g) m ((i, o), g) [] := by
  have hload : Runs x ((pmemOps p btr).n r g) m (n, g) [] := hn ▸ read_runs x m r nField
  by_cases hz : n = 0
  · refine ⟨-1, none, by omega, by omega, Proc.bind_silent hload ?_⟩
    rw [if_pos hz]
    exact Runs.pure x m _
  · obtain ⟨j, hj, hloop⟩ := findkindexLoop_runs (p := p) (r := r) (k := k) (g := g) btr cmp x m
      ((n - 1).toNat + 1) (n - 1).toNat 0 (by omega)
    obtain ⟨v, hv⟩ := key_runs (g := g) (p := p) btr x m r (j : ℤ)
    refine ⟨if cmp k v < 0 then (j : ℤ) - 1 else j, some (cmp k v), ?_, ?_, Proc.bind_silent hload ?_⟩
    · split <;> omega
    · split <;> omega
    · rw [if_neg hz]
      exact Proc.bind_silent hloop (Proc.bind_silent hv (Runs.pure x m _))

/-! ## Storing to a node -/

theorem copyWords_runs (x : Bool) (destination source : ℕ) : ∀ (js : List ℕ) (m : Mem), ∃ evs,
    Runs x (copyWords destination source js) m () evs ∧
      ∀ ev ∈ evs, ∀ y, ev.Writes y → ∃ j ∈ js, y = destination + 8 * j
  | [], m => ⟨[], Runs.pure x m (), by simp⟩
  | j :: js, m => by
    obtain ⟨evs, hruns, hw⟩ := copyWords_runs x destination source js
      (Function.update m (destination + 8 * j) (m (source + 8 * j)))
    refine ⟨_, Runs.load_bind rfl (Runs.store_bind hruns), fun ev hev y hy => ?_⟩
    rcases List.mem_cons.mp hev with rfl | hev
    · exact ⟨j, List.mem_cons_self, hy.symm⟩
    · obtain ⟨i, hi, heq⟩ := hw ev hev y hy
      exact ⟨i, List.mem_cons_of_mem _ hi, heq⟩

theorem persistMemmove_runs (m : Mem) (destination source : ℕ) {count : ℕ} (hc : count < 2 ^ 61) : ∃ evs,
    Runs false (persistMemmove destination source count) m () evs ∧
      ∀ ev ∈ evs, ∀ y, ev.Writes y → destination ≤ y ∧ y < destination + 8 * count := by
  have hnum : ((count : ℤ) * 8 % 2 ^ 64).toNat / 8 = count := by omega
  obtain ⟨evs, hruns, hw⟩ := copyWords_runs false destination source
    (if destination ≤ source then List.range count else (List.range count).reverse) m
  have hmove : Runs false (persistMemmove destination source count) m ()
      (evs ++ [.flush (clLines destination ((count : ℤ) * 8 % 2 ^ 64).toNat)]) := by
    unfold persistMemmove
    dsimp only
    rw [hnum]
    exact hruns.seq (runs_dataFlags fun flags => pmemPersist_runs_flagged _ _ _ flags)
  refine ⟨_, hmove, fun ev hev y hy => ?_⟩
  rcases List.mem_append.mp hev with hev | hev
  · obtain ⟨j, hj, rfl⟩ := hw ev hev y hy
    have hlt : j < count := by split at hj <;> simpa using hj
    omega
  · rw [List.mem_singleton.mp hev] at hy
    exact absurd hy (Event.writes_flush _ _)

theorem slotAddr_key (hoff : lowInt (m (btr + 16)) = sizeofBtreenode) {i : ℤ} (h₀ : 0 ≤ i)
    (hfit : r + sizeofBtreenode + 8 * i.toNat < 2 ^ 64) :
    slotAddr (r + lowInt (m (btr + 16))) i = r + sizeofBtreenode + 8 * i.toNat := by
  unfold slotAddr
  rw [hoff]
  simp only [sizeofBtreenode] at hfit ⊢
  omega

/-- A tree of one leaf, with a root that has room for a key. -/
structure Room (m : Mem) (btr r t n : ℕ) : Prop where
  root : m btr = r
  keyoff : lowInt (m (btr + 16)) = sizeofBtreenode
  degree : highInt (m (btr + 24)) = t
  leaf : leafBit (m r) = true
  count : nField (m r) = n
  lt : n < 2 * t - 1
  short : n < 2 ^ 14
  apart : btr + sizeofBtree ≤ r ∨ r + sizeofBtreenode + 8 * (2 * t - 1) ≤ btr
  fits : r + sizeofBtreenode + 8 * (2 * t - 1) < 2 ^ 64

theorem Room.congr {m' : Mem} {t n : ℕ} (h : Room m btr r t n)
    (hm : ∀ y, y < r + sizeofBtreenode ∨ r + sizeofBtreenode + 8 * (2 * t - 1) ≤ y → m' y = m y) :
    Room m' btr r t n := by
  have hsep := h.apart
  simp only [sizeofBtree] at hsep
  have hr : m' r = m r := hm r (Or.inl (by simp only [sizeofBtreenode]; omega))
  have hfield : ∀ j, j < sizeofBtree → m' (btr + j) = m (btr + j) := by
    intro j hj
    refine hm _ ?_
    simp only [sizeofBtree, sizeofBtreenode] at hj hsep ⊢
    omega
  exact ⟨(hfield 0 (by decide)).trans h.root, by rw [hfield 16 (by decide), h.keyoff],
    by rw [hfield 24 (by decide), h.degree], by rw [hr, h.leaf], by rw [hr, h.count], h.lt, h.short, h.apart, h.fits⟩

theorem putKey_runs {t n : ℕ} (h : Room m btr r t n) {i : ℤ} (hi₀ : -1 ≤ i) (hi : i ≤ n - 1) : ∃ evs,
    Runs false ((do
      (pmemOps p btr).setKey r (i + 1) k
      (pmemOps p btr).setN r ((← (pmemOps p btr).n r) + 1)
      (pmemOps p btr).persist r) g) m ((), g) evs ∧
      (∀ ev ∈ evs, ∀ y, ev.Writes y → r ≤ y ∧ y < r + sizeofBtreenode + 8 * (2 * t - 1)) ∧
      (∀ v, .store r v ∈ evs → leafBit v = true) ∧ (n + 1 < 2 ^ 14 → nField (applyAll evs m r) = (n : ℤ) + 1) := by
  have hlt := h.lt
  have hfits := h.fits
  simp only [sizeofBtreenode] at hfits
  have haddr : slotAddr (r + lowInt (m (btr + 16))) (i + 1) = r + sizeofBtreenode + 8 * (i + 1).toNat :=
    slotAddr_key h.keyoff (by omega) (by simp only [sizeofBtreenode]; omega)
  have hset : Runs false ((pmemOps p btr).setKey r (i + 1) k g) m ((), g)
      [.store (r + sizeofBtreenode + 8 * (i + 1).toNat) k] := by
    refine Proc.lift_runs ((Runs.load false m (btr + 16)).bind_silent ?_)
    rw [haddr]
    exact Runs.store false m _ k
  have hword : applyAll [.store (r + sizeofBtreenode + 8 * (i + 1).toNat) k] m r = m r :=
    Function.update_of_ne (by simp only [sizeofBtreenode]; omega) _ _
  have hn : Runs false ((pmemOps p btr).n r g) (applyAll [.store (r + sizeofBtreenode + 8 * (i + 1).toNat) k] m)
      ((n : ℤ), g) [] := by
    rw [← h.count, ← hword]
    exact read_runs false _ r nField
  have hput : Runs false ((do
      (pmemOps p btr).setKey r (i + 1) k
      (pmemOps p btr).setN r ((← (pmemOps p btr).n r) + 1)
      (pmemOps p btr).persist r) g) m ((), g) [.store (r + sizeofBtreenode + 8 * (i + 1).toNat) k,
        .store r (setNField (applyAll [.store (r + sizeofBtreenode + 8 * (i + 1).toNat) k] m r) (n + 1)),
        .flush (clLines r sizeofBtreenode)] :=
    Proc.bind_runs hset (Proc.bind_silent hn (Proc.bind_runs
      (Proc.lift_runs (setBits_runs false _ r (setNField · ((n : ℤ) + 1))))
      (Proc.lift_runs (pmemPersist_runs_flagged _ r sizeofBtreenode dataPersist))))
  rw [hword] at hput
  refine ⟨_, hput, fun ev hev y hy => ?_, fun v hv => ?_, fun hshort => ?_⟩
  · simp only [List.mem_cons, List.not_mem_nil, or_false, sizeofBtreenode] at hev ⊢
    rcases hev with rfl | rfl | rfl
    · rw [Event.writes_store] at hy
      omega
    · rw [Event.writes_store] at hy
      omega
    · exact absurd hy (Event.writes_flush _ _)
  · simp only [List.mem_cons, List.not_mem_nil, sizeofBtreenode, Event.store.injEq, reduceCtorEq, or_false] at hv
    rcases hv with hv | hv
    · omega
    · rw [hv.2, leafBit_setNField, h.leaf]
  · rw [applyAll_store, applyAll_store, applyAll_flush, applyAll_nil, Function.update_self]
    exact nField_setNField _ (by omega) (by omega)

theorem insertLeaf_runs {t n : ℕ} (h : Room m btr r t n) (cmp : ℕ → ℕ → ℤ) (fuel : ℕ) : ∃ evs,
    Runs false (btreeinsertnonfull (pmemOps p btr) cmp k (fuel + 1) r g) m ((), g) evs ∧
      (∀ ev ∈ evs, ∀ y, ev.Writes y → r ≤ y ∧ y < r + sizeofBtreenode + 8 * (2 * t - 1)) ∧
      (∀ v, .store r v ∈ evs → leafBit v = true) ∧ (n + 1 < 2 ^ 14 → nField (applyAll evs m r) = (n : ℤ) + 1) := by
  have hlt := h.lt
  have hfits := h.fits
  have hleaf : Runs false ((pmemOps p btr).leaf r g) m (true, g) [] := h.leaf ▸ read_runs false m r leafBit
  have hn : Runs false ((pmemOps p btr).n r g) m ((n : ℤ), g) [] := h.count ▸ read_runs false m r nField
  obtain ⟨i, o, hi₀, hi, hfind⟩ := findkindex_runs (p := p) (k := k) (g := g) btr cmp false m h.count
    (by omega)
  unfold btreeinsertnonfull
  by_cases hlast : i = n - 1
  · obtain ⟨evs, hput, hrest⟩ := putKey_runs (p := p) (k := k) (g := g) h hi₀ hi
    refine ⟨evs, Proc.bind_silent hleaf ?_, hrest⟩
    rw [if_pos rfl]
    refine Proc.bind_silent hfind (Proc.bind_silent hn ?_)
    dsimp only
    rw [if_neg (by omega)]
    exact hput
  · -- the keys above are moved up by a slot
    obtain ⟨count, hcount⟩ : ∃ count : ℕ, (n : ℤ) - i - 1 = count := ⟨((n : ℤ) - i - 1).toNat, by omega⟩
    have haddr : slotAddr (r + lowInt (m (btr + 16))) (i + 2) = r + sizeofBtreenode + 8 * (i + 2).toNat :=
      slotAddr_key h.keyoff (by omega) (by simp only [sizeofBtreenode] at hfits ⊢; omega)
    obtain ⟨evs₁, hmove, hw₁⟩ := persistMemmove_runs m (slotAddr (r + lowInt (m (btr + 16))) (i + 2))
      (slotAddr (r + lowInt (m (btr + 16))) (i + 1)) (by omega : count < 2 ^ 61)
    have hw₁' : ∀ ev ∈ evs₁, ∀ y, ev.Writes y → r + sizeofBtreenode ≤ y ∧ y < r + sizeofBtreenode + 8 * (2 * t - 1) := by
      intro ev hev y hy
      have := hw₁ ev hev y hy
      rw [haddr] at this
      omega
    have hmoved : Runs false ((pmemOps p btr).moveKeys r (i + 2) r (i + 1) ((n : ℤ) - i - 1) g) m ((), g) evs₁ := by
      rw [hcount]
      exact Proc.lift_runs ((Runs.load false m (btr + 16)).bind_silent hmove)
    have h₁ : Room (applyAll evs₁ m) btr r t n := h.congr fun y hy => by
      refine applyAll_of_not_writes (fun ev hev hwr => ?_) m
      have := hw₁' ev hev y hwr
      omega
    obtain ⟨evs₂, hput, hw₂, hstores₂, hn₂⟩ := putKey_runs (p := p) (k := k) (g := g) h₁ hi₀ hi
    refine ⟨evs₁ ++ evs₂, Proc.bind_silent hleaf ?_, fun ev hev y hy => ?_, fun v hv => ?_, fun hshort => ?_⟩
    · rw [if_pos rfl]
      refine Proc.bind_silent hfind (Proc.bind_silent hn ?_)
      dsimp only
      rw [if_pos (by omega)]
      exact Proc.bind_runs hmoved hput
    · rcases List.mem_append.mp hev with hev | hev
      · have := hw₁' ev hev y hy
        omega
      · exact hw₂ ev hev y hy
    · rcases List.mem_append.mp hv with hv | hv
      · have := hw₁' _ hv r rfl
        simp only [sizeofBtreenode] at this
        omega
      · exact hstores₂ v hv
    · rw [applyAll_append]
      exact hn₂ hshort

theorem btInsert_runs {t n : ℕ} (h : Room m btr r t n) (cmp : ℕ → ℕ → ℤ) : ∃ evs,
    Runs false (btInsert (pmemOps p btr) cmp loopFuel k g) m ((), g) evs ∧
      (∀ ev ∈ evs, ∀ y, ev.Writes y → r ≤ y ∧ y < r + sizeofBtreenode + 8 * (2 * t - 1)) ∧
      (∀ v, .store r v ∈ evs → leafBit v = true) ∧ (n + 1 < 2 ^ 14 → nField (applyAll evs m r) = (n : ℤ) + 1) := by
  have hlt := h.lt
  have hroot : Runs false ((pmemOps p btr).root g) m (r, g) [] := h.root ▸ Proc.lift_runs (Runs.load false m btr)
  have hn : Runs false ((pmemOps p btr).n r g) m ((n : ℤ), g) [] := h.count ▸ read_runs false m r nField
  have ht : Runs false ((pmemOps p btr).t g) m ((t : ℤ), g) [] :=
    h.degree ▸ read_runs false m (btr + 24) fun word => (highInt word : ℤ)
  obtain ⟨evs, hins, hrest⟩ := insertLeaf_runs (p := p) (k := k) (g := g) h cmp (2 ^ 64 - 1)
  refine ⟨evs, Proc.bind_silent hroot (Proc.bind_silent hn (Proc.bind_silent ht ?_)), hrest⟩
  rw [if_neg (by omega)]
  exact hins

end Node

end PmemExamples.BTree
