import PmemExamples.CHashtable.Multimap
import PmemExamples.CHashtable.Simulation
import PmemExamples.Pool.Blocks

/-! # A table that stands in a pool

The header, the bucket array and every entry are blocks of their own. Growing such a table goes as in `Table` if
the pool has room for the larger array; if it has none, the array is put where a null pointer leads. -/

namespace PmemExamples.CHashtable
open Persist Libpmem Pool Tiling BTree Code
set_option autoImplicit false

/-- A word of the table at `h`. -/
def InTable (m : Mem) (h n : ℕ) (S : Finset ℕ) (y : ℕ) : Prop :=
  (h ≤ y ∧ y < h + 48) ∨ (m (h + 8) ≤ y ∧ y < m (h + 8) + 8 * n) ∨ ∃ a ∈ S, a ≤ y ∧ y < a + 32

/-- The parts of the table at `h` are blocks. -/
structure InBlocks (m : Mem) (p : ℕ) (cs : List Clump) (h n : ℕ) (S : Finset ℕ) : Prop where
  header : BlockAt p cs h 48
  array : BlockAt p cs (m (h + 8)) (8 * n)
  entries : ∀ a ∈ S, BlockAt p cs a 32
  array_ne : m (h + 8) ≠ h
  entry_ne : ∀ a ∈ S, a ≠ h ∧ a ≠ m (h + 8)

/-- The words at `h` show the table `t` with the entries at `S`. -/
structure Standing (hashfn : ℕ → UInt32) (m : Mem) (p : ℕ) (cs : List Clump) (h : ℕ) (t : Hashtable ℕ) (S : Finset ℕ) :
    Prop extends InBlocks m p cs h t.tablelength S where
  shows : Shows m h t
  sorted : Sorted hashfn t S

section Words
variable {m m' : Mem} {p e h n : ℕ} {cs cs' : List Clump} {t t' : Hashtable ℕ} {S : Finset ℕ}

theorem InBlocks.block (hp : InBlocks m p cs h n S) {y : ℕ} (hy : InTable m h n S y) :
    ∃ b k, BlockAt p cs b k ∧ b ≤ y ∧ y < b + k := by
  rcases hy with hy | hy | ⟨a, ha, hy⟩
  · exact ⟨h, 48, hp.header, hy⟩
  · exact ⟨m (h + 8), 8 * n, hp.array, hy⟩
  · exact ⟨a, 32, hp.entries a ha, hy⟩

theorem InBlocks.allowed (hp : InBlocks m p cs h n S) {y : ℕ} (hy : InTable m h n S y) : Allowed p cs y :=
  Or.inr (hp.block hy)

theorem InBlocks.head_apart (hp : InBlocks m p cs h n S) (ht : Tiles 64 pmemClumpOffset cs e) {y : ℕ} (h₁ : h ≤ y)
    (h₂ : y < h + 48) : ¬ (m (h + 8) ≤ y ∧ y < m (h + 8) + 8 * n) ∧ ∀ a ∈ S, ¬ (a ≤ y ∧ y < a + 32) := by
  refine ⟨fun hin => ?_, fun a ha hin => ?_⟩
  · have hapart := hp.header.apart hp.array ht hp.array_ne.symm
    omega
  · have hapart := hp.header.apart (hp.entries a ha) ht (hp.entry_ne a ha).1.symm
    omega

theorem InBlocks.congr (hp : InBlocks m p cs h n S) (harr : m' (h + 8) = m (h + 8))
    (hb : ∀ b k, BlockAt p cs b k → BlockAt p cs' b k) : InBlocks m' p cs' h n S := by
  refine ⟨hb _ _ hp.header, ?_, fun a ha => hb _ _ (hp.entries a ha), ?_, fun a ha => ?_⟩
  · rw [harr]
    exact hb _ _ hp.array
  · rw [harr]
    exact hp.array_ne
  · rw [harr]
    exact hp.entry_ne a ha

theorem Shows.congr (ht : Shows m h t) (hS : ∀ a x, t.mem a = some x → a ∈ S)
    (hm : ∀ y, InTable m h t.tablelength S y → m' y = m y) : Shows m' h t := by
  have hhead : ∀ y, h ≤ y → y < h + 48 → m' y = m y := fun y h₁ h₂ => hm y (Or.inl ⟨h₁, h₂⟩)
  have harr := hhead (h + 8) (by omega) (by omega)
  refine ⟨?_, fun i hi => ?_, ?_, ?_, ?_, fun a x hx => ?_⟩
  · rw [hhead h (by omega) (by omega), ht.tablelength]
  · rw [harr, hm _ (Or.inr (Or.inl (by omega))), ht.table i hi]
  · rw [hhead _ (by omega) (by omega), ht.entrycount]
  · rw [hhead _ (by omega) (by omega), ht.loadlimit]
  · rw [hhead _ (by omega) (by omega), ht.primeindex]
  · exact (ht.entries a x hx).congr fun y h₁ h₂ => hm y (Or.inr (Or.inr ⟨a, hS a x hx, h₁, h₂⟩))

theorem Shows.head (ht : Shows m h t) (hp : InBlocks m p cs h t.tablelength S) (htiles : Tiles 64 pmemClumpOffset cs e)
    (hS : ∀ a x, t.mem a = some x → a ∈ S) (hm : ∀ y, y ≠ h + 16 → y ≠ h + 24 → m' y = m y)
    (hcount : lowInt (m' (h + 16)) = t'.entrycount) (hlimit : highInt (m' (h + 16)) = t'.loadlimit)
    (hindex : lowInt (m' (h + 24)) = t'.primeindex) (hsame : t'.tablelength = t.tablelength ∧ t'.table = t.table ∧
    t'.mem = t.mem) : Shows m' h t' := by
  obtain ⟨hlen, htable, hmem⟩ := hsame
  have h₁ := hp.head_apart htiles (show h ≤ h + 16 by omega) (by omega)
  have h₂ := hp.head_apart htiles (show h ≤ h + 24 by omega) (by omega)
  have harr : m' (h + 8) = m (h + 8) := hm _ (by omega) (by omega)
  refine ⟨?_, fun i hi => ?_, hcount, hlimit, hindex, fun a x hx => ?_⟩
  · rw [hm h (by omega) (by omega), ht.tablelength, hlen]
  · rw [hlen] at hi
    rw [harr, hm _ (by omega) (by omega), ht.table i hi, htable]
  · rw [hmem] at hx
    have haS := hS a x hx
    have h₃ := h₁.2 a haS
    have h₄ := h₂.2 a haS
    exact (ht.entries a x hx).congr fun y hy₁ hy₂ => hm y (by omega) (by omega)

theorem InBlocks.arena (hp : InBlocks m p cs h n S) (ht : Tiles 64 pmemClumpOffset cs e) {N n' : ℕ}
    (hN : ∀ b k, BlockAt p cs b k → b = h ∨ b = m (h + 8) ∨ b ∈ S → Apart N (8 * n') b k) :
    Arena h (m (h + 8)) n N n' (· ∈ S) where
  headOld := hp.header.apart hp.array ht hp.array_ne.symm
  headNew := (hN _ _ hp.header (Or.inl rfl)).symm
  oldNew := (hN _ _ hp.array (Or.inr (Or.inl rfl))).symm
  headEntry a ha := hp.header.apart (hp.entries a ha) ht (hp.entry_ne a ha).1.symm
  oldEntry a ha := hp.array.apart (hp.entries a ha) ht (hp.entry_ne a ha).2.symm
  newEntry a ha := hN _ _ (hp.entries a ha) (Or.inr (Or.inr ha))
  entries a b ha hb hab := (hp.entries a ha).apart (hp.entries b hb) ht hab

theorem apart_null (ht : Tiles 64 pmemClumpOffset cs e) {n' : ℕ} (hn : 8 * n' ≤ 4096) (b k : ℕ) (hb : BlockAt p cs b k) :
    Apart p (8 * n') b k := by
  have hbound := (hb.bounds ht).1
  simp only [pmemClumpOffset] at hbound
  exact Or.inl (by omega)

end Words

/-! ## Growing -/

/-- The size `hashtable_expand` asks for. -/
def newsize (t : Hashtable ℕ) : ℕ := primes.getD (t.primeindex + 1) 0

/-- The table with the entries moved to an array of `n'` buckets. -/
def grown (t : Hashtable ℕ) (n' : ℕ) (s : Moving ℕ) : Hashtable ℕ :=
  ⟨n', s.newtable, t.entrycount, loadLimit n', t.primeindex + 1, s.mem⟩

theorem primes_bounds {i : ℕ} (hi : i < primeTableLength) :
    primes.getD i 0 < 2 ^ 31 ∧ loadLimit (primes.getD i 0) < 2 ^ 31 := by
  have hall : ∀ i < 26, primes.getD i 0 < 2 ^ 31 ∧ loadLimit (primes.getD i 0) < 2 ^ 31 := by decide +kernel
  exact hall i hi

theorem expand_some {t t' : Hashtable ℕ} (hlast : t.primeindex ≠ primeTableLength - 1)
    (h : hashtableExpand t = some t') :
    ∃ s, moveBuckets (newsize t) t.tablelength ⟨t.table, fun _ => 0, t.mem⟩ = some s ∧ t' = grown t (newsize t) s := by
  rw [hashtableExpand, if_neg hlast] at h
  obtain ⟨s, hs, heq⟩ := Option.bind_eq_some_iff.mp h
  exact ⟨s, hs, (Option.some.inj heq).symm⟩

section Growing
variable {m m' : Mem} {p e h n N n' : ℕ} {cs cs' : List Clump} {t t' : Hashtable ℕ} {S : Finset ℕ} {s : Moving ℕ}

theorem Filled.shows (hf : Filled m m' h N n' s) (ht : Shows m h t) (hnew : Apart h 48 N (8 * n'))
    (hentry : ∀ a x, s.mem a = some x → Apart h 48 a 32) (hn : n' < 2 ^ 32) (hl : loadLimit n' < 2 ^ 32)
    (hi : lowInt (m (h + 24)) = t'.primeindex + 1) (hc : t'.entrycount = t.entrycount) :
    Shows (Function.update (Function.update m' h (setLow (m' h) n')) (h + 16) (setHigh (m' (h + 16)) (loadLimit n'))) h
      (grown t' n' s) := by
  unfold Apart at hnew hentry
  have hkeep : ∀ y, y ≠ h → y ≠ h + 16 → Function.update (Function.update m' h (setLow (m' h) n')) (h + 16)
      (setHigh (m' (h + 16)) (loadLimit n')) y = m' y := by
    intro y hy₁ hy₂
    rw [Function.update_of_ne hy₂, Function.update_of_ne hy₁]
  refine ⟨?_, fun i hi => ?_, ?_, ?_, ?_, fun a x hx => ?_⟩
  · rw [Function.update_of_ne (by omega), Function.update_self, lowInt_setLow]
    exact Nat.mod_eq_of_lt hn
  · have hi' : i < n' := hi
    rw [hkeep (h + 8) (by omega) (by omega), hf.array, hkeep _ (by omega) (by omega), hf.new i hi']
    rfl
  · rw [Function.update_self, lowInt_setHigh, hf.head (h + 16) (by omega) (by omega) (by omega), ht.entrycount, ← hc]
    rfl
  · rw [Function.update_self, highInt_setHigh]
    exact Nat.mod_eq_of_lt hl
  · rw [hkeep (h + 24) (by omega) (by omega), hf.head (h + 24) (by omega) (by omega) (by omega), hi]
    rfl
  · have hapart := hentry a x hx
    exact (hf.entries a x hx).congr fun y h₁ h₂ => hkeep y (by omega) (by omega)

/-- What the new array replaces: a run over the words of the table and of the array. -/
theorem replaceTable_sim {w : World} {gclp : ℕ} {E : ℕ → Prop} (hres : Resident w p gclp cs e)
    (ha : Arena h (w.mem (h + 8)) t.tablelength N n' E) (hN : N ≠ 0) (hn : 0 < n') (hn₂ : n' < 2 ^ 32)
    (hl : loadLimit n' < 2 ^ 32) (ht : Shows w.mem h t) (hE : ∀ a x, t.mem a = some x → E a)
    (hfuel : t.tablelength < chainFuel) (hrun : moveBuckets n' t.tablelength ⟨t.table, fun _ => 0, t.mem⟩ = some s)
    (hsE : ∀ a x, s.mem a = some x → E a) (hi : lowInt (w.mem (h + 24)) = t'.primeindex + 1)
    (hc : t'.entrycount = t.entrycount) (hallowed : ∀ y, InArena (w.mem (h + 8)) t.tablelength N n' E y ∨ h ≤ y ∧
    y < h + 48 → Allowed p cs y) :
    ∃ w', replaceTable h N n' w = (.ok (), w') ∧ Resident w' p gclp cs e ∧ Shows w'.mem h (grown t' n' s) ∧
      w'.mem (h + 8) = N ∧ (∀ c ∈ cs, ∀ x, c.InHeader x → fileAt p w'.mem x = fileAt p w.mem x) ∧
      ∀ y, ¬ InArena (w.mem (h + 8)) t.tablelength N n' E y → ¬ (h ≤ y ∧ y < h + 48) → w'.mem y = w.mem y := by
  obtain ⟨evs, hruns, hfilled, hw⟩ := fillTable_sim ha hN hn hfuel ht hE hrun
  generalize hm : applyAll evs w.mem = m' at hfilled
  have hall : Runs true (replaceTable h N n') w.mem () (evs ++ [.store h (setLow (m' h) n'),
      .store (h + 16) (setHigh (m' (h + 16)) (loadLimit n'))]) := by
    refine hruns.seq ?_
    rw [hm]
    refine setBits_bind rfl ?_
    have hlast := setBits_runs true (Function.update m' h (setLow (m' h) n')) (h + 16) (setHigh · (loadLimit n'))
    rwa [Function.update_of_ne (by omega)] at hlast
  have hmem : applyAll (evs ++ [.store h (setLow (m' h) n'), .store (h + 16) (setHigh (m' (h + 16)) (loadLimit n'))])
      w.mem =
        Function.update (Function.update m' h (setLow (m' h) n')) (h + 16) (setHigh (m' (h + 16)) (loadLimit n')) := by
    rw [applyAll_append, hm]
    rfl
  have hwhere : ∀ ev ∈ evs ++ [.store h (setLow (m' h) n'), .store (h + 16) (setHigh (m' (h + 16)) (loadLimit n'))],
      ∀ y, ev.Writes y → InArena (w.mem (h + 8)) t.tablelength N n' E y ∨ h ≤ y ∧ y < h + 48 := by
    intro ev hev y hy
    simp only [List.mem_append, List.mem_cons, List.not_mem_nil, or_false] at hev
    rcases hev with hev | rfl | rfl
    · refine (hw ev hev y hy).imp_right fun heq => ?_
      omega
    · rw [Event.writes_store] at hy
      exact Or.inr (by omega)
    · rw [Event.writes_store] at hy
      exact Or.inr (by omega)
  obtain ⟨w', hgo, hmem', hres', hheaders⟩ := hres.store hall fun ev hev y hy => hallowed y (hwhere ev hev y hy)
  refine ⟨w', hgo, hres', ?_, ?_, hheaders, fun y hy₁ hy₂ => ?_⟩
  · rw [hmem', hmem]
    exact hfilled.shows ht ha.headNew (fun a x hx => ha.headEntry a (hsE a x hx)) hn₂ hl hi hc
  · rw [hmem', hmem, Function.update_of_ne (by omega), Function.update_of_ne (by omega), hfilled.array]
  · rw [hmem']
    exact applyAll_of_not_writes (fun ev hev hyw => (hwhere ev hev y hyw).elim hy₁ hy₂) _

end Growing

end PmemExamples.CHashtable
