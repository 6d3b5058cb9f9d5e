import PmemExamples.CHashtable.Table

/-! # The hash table is a multimap

`Represents` is the invariant: the entries in memory are sorted into the buckets by their hash values.
Growing keeps it, entry by entry (`moveBucket_spec`), and so does every operation, so that a table holds
exactly what was inserted and not removed (`multimap_of_reached`). -/

namespace PmemExamples.CHashtable
open Linked
set_option autoImplicit false

/-- The size `create_hashtable` asks `pmem_init` for. -/
@[simp] abbrev poolSize : ℕ := 1024 * 1024 * 512

/-- An address `pmemalloc_reserve` can return, in a process that mapped the pool at `pmp`. -/
def InPool (pmp a : ℕ) : Prop := ∃ off, a = pmp + off ∧ 64 ∣ off ∧ 0 < off ∧ off < poolSize

section Multimap
variable {K : Type} (hashfn : K → UInt32) (eqfn : K → K → Bool) (pmp : ℕ)

/-- What stays the same while an entry is moved. -/
def Entry.data (x : Entry K) : K × ℕ × UInt32 := (x.k, x.v, x.h)

/-- The memories hold the same entries, but for the links. -/
def SameData (m m' : ℕ → Option (Entry K)) : Prop := ∀ a, (m' a).map Entry.data = (m a).map Entry.data

/-- The entries at `S` are sorted into the buckets of the table, wherever they are. -/
structure Sorted (h : Hashtable K) (S : Finset ℕ) : Prop where
  index_lt : h.primeindex < primeTableLength
  size : h.tablelength = primes.getD h.primeindex 0
  mem : ∀ a, (∃ x, h.mem a = some x) ↔ a ∈ S
  hashed : ∀ a x, h.mem a = some x → x.h = hash hashfn x.k
  buckets : Buckets Entry.next (fun x => indexFor h.tablelength x.h) h.mem h.tablelength h.table S

/-- The entries at `S` are sorted into the buckets of the table. -/
structure Shape (h : Hashtable K) (S : Finset ℕ) : Prop where
  index_lt : h.primeindex < primeTableLength
  size : h.tablelength = primes.getD h.primeindex 0
  mem : ∀ a, (∃ x, h.mem a = some x) ↔ a ∈ S
  pooled : ∀ a ∈ S, InPool pmp a
  hashed : ∀ a x, h.mem a = some x → x.h = hash hashfn x.k
  buckets : Buckets Entry.next (fun x => indexFor h.tablelength x.h) h.mem h.tablelength h.table S

/-- They are, and counted. -/
structure Represents (h : Hashtable K) (S : Finset ℕ) : Prop extends Shape hashfn pmp h S where
  count : h.entrycount = S.card

/-- The pairs of the entries at `S`. -/
def contents (h : Hashtable K) (S : Finset ℕ) : Multiset (K × ℕ) :=
  ∑ a ∈ S, ((h.mem a).map fun x => (x.k, x.v)).elim 0 ({·})

/-- The test of the two loops. -/
def Matches (k : K) (x : Entry K) : Prop := hash hashfn k = x.h ∧ eqfn k x.k = true

instance (k : K) (x : Entry K) : Decidable (Matches hashfn eqfn k x) :=
  inferInstanceAs (Decidable (_ ∧ _))

/-- The first entry of its chain that passes the test. -/
def First (h : Hashtable K) (k : K) (a : ℕ) (x : Entry K) : Prop :=
  h.mem a = some x ∧ Matches hashfn eqfn k x ∧
    ∃ l r, Chain Entry.next h.mem (h.table (indexFor h.tablelength (hash hashfn k))) (l ++ a :: r) ∧
      ∀ b ∈ l, ∀ y, h.mem b = some y → ¬ Matches hashfn eqfn k y

/-- An address at which a new entry can be. -/
def Fresh (h : Hashtable K) (a : ℕ) : Prop := h.mem a = none ∧ InPool pmp a

/-- The tables reached by some calls, with the pairs inserted and the pairs removed. -/
inductive Reached (minsize : ℕ) : Hashtable K → Multiset (K × ℕ) → Multiset (K × ℕ) → Prop
  | create {h : Hashtable K} (hc : createHashtable K minsize = some h) : Reached minsize h 0 0
  | insert {h h' : Hashtable K} {ins rem : Multiset (K × ℕ)} {k : K} {v a : ℕ} (hr : Reached minsize h ins rem)
      (ha : Fresh pmp h a) (hi : hashtableInsert hashfn h k v a = some h') : Reached minsize h' ((k, v) ::ₘ ins) rem
  | remove {h h' : Hashtable K} {ins rem : Multiset (K × ℕ)} {k : K} {v a : ℕ} {x : Entry K}
      (hr : Reached minsize h ins rem) (hx : First hashfn eqfn h k a x)
      (hd : hashtableRemove hashfn eqfn h k = some (h', v)) : Reached minsize h' ins ((x.k, x.v) ::ₘ rem)
  | miss {h h' : Hashtable K} {ins rem : Multiset (K × ℕ)} {k : K} {v : ℕ} (hr : Reached minsize h ins rem)
      (hx : ∀ a x, ¬ First hashfn eqfn h k a x) (hd : hashtableRemove hashfn eqfn h k = some (h', v)) :
      Reached minsize h' ins rem

/-! ## Sizes -/

variable {hashfn eqfn pmp}

theorem card_le {S : Finset ℕ} (h : ∀ a ∈ S, InPool pmp a) : S.card ≤ 2 ^ 23 := by
  have hinj : Set.InjOn (fun a => (a - pmp) / 64) S := by
    intro a ha b hb hab
    obtain ⟨o, rfl, ⟨j, rfl⟩, -⟩ := h a ha
    obtain ⟨o, rfl, ⟨k, rfl⟩, -⟩ := h b hb
    dsimp only at hab
    omega
  have hmaps : ∀ a ∈ S, (a - pmp) / 64 ∈ Finset.range (2 ^ 23) := by
    intro a ha
    obtain ⟨o, rfl, -, -, ho⟩ := h a ha
    rw [poolSize] at ho
    rw [Finset.mem_range]
    omega
  have hle := Finset.card_le_card_of_injOn _ hmaps hinj
  rwa [Finset.card_range] at hle

theorem InPool.ne_zero {a : ℕ} (h : InPool pmp a) : a ≠ 0 := by
  obtain ⟨o, rfl, -, ho, -⟩ := h
  omega

theorem Shape.length_lt {h : Hashtable K} {S : Finset ℕ} {l : List ℕ} {i : ℕ} (hs : Shape hashfn pmp h S)
    (hi : i < h.tablelength) (hl : Chain Entry.next h.mem (h.table i) l) : l.length < chainFuel := by
  obtain ⟨l', hl', hmem⟩ := hs.buckets i hi
  obtain rfl := hl'.unique hl
  have hsub : l'.toFinset ⊆ S := fun a ha => ((hmem a).mp (List.mem_toFinset.mp ha)).1
  have hle := Finset.card_le_card hsub
  rw [List.toFinset_card_of_nodup hl.nodup] at hle
  have := card_le hs.pooled
  unfold chainFuel
  omega

theorem Shape.sorted {h : Hashtable K} {S : Finset ℕ} (hs : Shape hashfn pmp h S) : Sorted hashfn h S :=
  ⟨hs.index_lt, hs.size, hs.mem, hs.hashed, hs.buckets⟩

theorem Sorted.pooled {h : Hashtable K} {S : Finset ℕ} (hs : Sorted hashfn h S) (hp : ∀ a ∈ S, InPool pmp a) :
    Shape hashfn pmp h S := ⟨hs.index_lt, hs.size, hs.mem, hp, hs.hashed, hs.buckets⟩

theorem Sorted.tablelength_pos {h : Hashtable K} {S : Finset ℕ} (hs : Sorted hashfn h S) : 0 < h.tablelength := by
  rw [hs.size]
  exact primes_pos hs.index_lt

theorem Shape.tablelength_pos {h : Hashtable K} {S : Finset ℕ} (hs : Shape hashfn pmp h S) : 0 < h.tablelength :=
  hs.sorted.tablelength_pos

theorem indexFor_lt {n : ℕ} (hn : 0 < n) (hv : UInt32) : indexFor n hv < n := Nat.mod_lt _ hn

/-! ## Growing -/

theorem SameData.trans {m m' m'' : ℕ → Option (Entry K)} (h : SameData m m') (h' : SameData m' m'') :
    SameData m m'' := fun a => (h' a).trans (h a)

theorem sameData_link {m : ℕ → Option (Entry K)} {a : ℕ} {x : Entry K} (hx : m a = some x) (c : ℕ) :
    SameData m (Function.update m a (some { x with next := c })) := by
  intro b
  by_cases hb : b = a
  · subst hb
    rw [Function.update_self, hx]
    rfl
  · rw [Function.update_of_ne hb]

theorem SameData.exists_iff {m m' : ℕ → Option (Entry K)} (h : SameData m m') (a : ℕ) :
    (∃ x, m' a = some x) ↔ ∃ x, m a = some x := by
  have ha := h a
  cases hm : m a <;> cases hm' : m' a <;> simp_all

theorem SameData.entry {m m' : ℕ → Option (Entry K)} (h : SameData m m') {a : ℕ} {x : Entry K}
    (hx : m' a = some x) : ∃ y, m a = some y ∧ y.data = x.data := by
  have ha := h a
  rw [hx] at ha
  exact Option.map_eq_some_iff.mp ha.symm

/-- The entries at `O` are still in the old table, those at `N` in the new one. -/
structure Halfway (n n' : ℕ) (s : Moving K) (O N : Finset ℕ) : Prop where
  old : Buckets Entry.next (fun x => indexFor n x.h) s.mem n s.table O
  new : Buckets Entry.next (fun x => indexFor n' x.h) s.mem n' s.newtable N
  disjoint : Disjoint O N

/-- One round: the first entry of a bucket goes to the front of its new bucket. -/
theorem Halfway.step {n n' i : ℕ} {s : Moving K} {O N : Finset ℕ} (h : Halfway n n' s O N) (hi : i < n)
    (h0 : s.table i ≠ 0) : ∃ x, s.mem (s.table i) = some x ∧ s.table i ∈ O ∧
      Halfway n n' ⟨Function.update s.table i x.next, Function.update s.newtable (indexFor n' x.h) (s.table i),
        Function.update s.mem (s.table i) (some { x with next := s.newtable (indexFor n' x.h) })⟩
        (O.erase (s.table i)) (insert (s.table i) N) := by
  obtain ⟨x, hx, hO, -, hold⟩ := h.old.pop hi h0
  have hN : s.table i ∉ N := Finset.disjoint_left.mp h.disjoint hO
  refine ⟨x, hx, hO, hold.congr fun a ha => Function.update_of_ne (Finset.ne_of_mem_erase ha) _ _,
    h.new.push hN h0 rfl, ?_⟩
  rw [Finset.disjoint_insert_right]
  exact ⟨Finset.notMem_erase _ _, h.disjoint.mono_left (Finset.erase_subset _ _)⟩

theorem moveBucket_spec {n n' i : ℕ} (hi : i < n) : ∀ {l : List ℕ} {fuel : ℕ} {s : Moving K} {O N : Finset ℕ},
    Chain Entry.next s.mem (s.table i) l → l.length < fuel → Halfway n n' s O N →
      ∃ s' O' N', moveBucket n' i fuel s = some s' ∧ Halfway n n' s' O' N' ∧ O' ∪ N' = O ∪ N ∧
        SameData s.mem s'.mem ∧ s'.table i = 0 ∧ ∀ j ≠ i, s'.table j = s.table j
  | [], fuel + 1, s, O, N, hl, _, h =>
    ⟨s, O, N, if_pos hl, h, rfl, fun _ => rfl, hl, fun _ _ => rfl⟩
  | b :: l, fuel + 1, s, O, N, hl, hf, h => by
    have hnd := List.nodup_cons.mp hl.nodup
    obtain ⟨hb, h0, y, hy, hl⟩ := hl
    have h0' : s.table i ≠ 0 := hb ▸ h0
    obtain ⟨x, hx, hO, hstep⟩ := h.step hi h0'
    obtain rfl : y = x := Option.some.inj (hy.symm.trans (hb ▸ hx))
    have hrest : Chain Entry.next (Function.update s.mem (s.table i)
        (some { y with next := s.newtable (indexFor n' y.h) })) (Function.update s.table i y.next i) l := by
      rw [Function.update_self, hb]
      exact hl.update hnd.1 _
    obtain ⟨s', O', N', hrun, hhalf, hunion, hdata, hzero, hother⟩ :=
      moveBucket_spec hi hrest (by simpa using hf) hstep
    refine ⟨s', O', N', ?_, hhalf, ?_, (sameData_link hx _).trans hdata, hzero, fun j hj => ?_⟩
    · rw [moveBucket]
      simp only [if_neg h0', hx]
      exact hrun
    · rw [hunion, Finset.union_insert, ← Finset.insert_union, Finset.insert_erase hO]
    · exact (hother j hj).trans (Function.update_of_ne hj _ _)

theorem moveBuckets_spec {n n' : ℕ} {s : Moving K} {O N : Finset ℕ} (h : Halfway n n' s O N)
    (hcard : (O ∪ N).card < chainFuel) : ∀ k ≤ n, ∃ s' O' N', moveBuckets n' k s = some s' ∧
      Halfway n n' s' O' N' ∧ O' ∪ N' = O ∪ N ∧ SameData s.mem s'.mem ∧ ∀ j < k, s'.table j = 0
  | 0, _ => ⟨s, O, N, rfl, h, rfl, fun _ => rfl, by simp⟩
  | k + 1, hk => by
    obtain ⟨s₁, O₁, N₁, hrun₁, h₁, hunion₁, hdata₁, hzero₁⟩ := moveBuckets_spec h hcard k (by omega)
    obtain ⟨l, hl, hmem⟩ := h₁.old k (by omega)
    have hlen : l.length < chainFuel := by
      have hsub : l.toFinset ⊆ O ∪ N := fun a ha =>
        hunion₁ ▸ Finset.mem_union_left N₁ ((hmem a).mp (List.mem_toFinset.mp ha)).1
      have hle := Finset.card_le_card hsub
      rw [List.toFinset_card_of_nodup hl.nodup] at hle
      omega
    obtain ⟨s₂, O₂, N₂, hrun₂, h₂, hunion₂, hdata₂, hzero₂, hother₂⟩ := moveBucket_spec (by omega) hl hlen h₁
    refine ⟨s₂, O₂, N₂, ?_, h₂, hunion₂.trans hunion₁, hdata₁.trans hdata₂, fun j hj => ?_⟩
    · rw [moveBuckets, hrun₁]
      exact hrun₂
    · by_cases hjk : j = k
      · rw [hjk, hzero₂]
      · rw [hother₂ j hjk, hzero₁ j (by omega)]

theorem Sorted.expand {h : Hashtable K} {S : Finset ℕ} (hs : Sorted hashfn h S) (hcard : S.card < chainFuel) :
    ∃ h', hashtableExpand h = some h' ∧ Sorted hashfn h' S ∧ h'.entrycount = h.entrycount ∧
      SameData h.mem h'.mem := by
  by_cases hlast : h.primeindex = primeTableLength - 1
  · exact ⟨h, if_pos hlast, hs, rfl, fun _ => rfl⟩
  · have hlt := hs.index_lt
    have hnext : h.primeindex + 1 < primeTableLength := by
      simp only [primeTableLength] at hlast hlt ⊢
      omega
    have hstart : Halfway h.tablelength (primes.getD (h.primeindex + 1) 0) ⟨h.table, fun _ => 0, h.mem⟩ S ∅ :=
      ⟨hs.buckets, Buckets.empty _ _ _ _, Finset.disjoint_empty_right S⟩
    have hcard' : (S ∪ ∅).card < chainFuel := by rwa [Finset.union_empty]
    obtain ⟨s', O, N, hrun, hhalf, hunion, hdata, hzero⟩ := moveBuckets_spec hstart hcard' h.tablelength (le_refl _)
    dsimp only at hdata
    -- nothing is left in the old table
    have hO : O = ∅ := by
      refine Finset.eq_empty_of_forall_notMem fun a ha => ?_
      have haS : a ∈ S := by
        have hmem := Finset.mem_union_left N ha
        rwa [hunion, Finset.union_empty] at hmem
      obtain ⟨x, hx⟩ := (hdata.exists_iff a).mpr ((hs.mem a).mpr haS)
      have hi := indexFor_lt hs.tablelength_pos x.h
      obtain ⟨l, r, hl⟩ := hhalf.old.chain_of_mem ha hx hi
      rw [hzero _ hi] at hl
      obtain ⟨h0, -⟩ := hl.node (b := a) (by simp)
      cases l with
      | nil => exact h0 hl.1.symm
      | cons c l => exact hl.2.1 hl.1.symm
    rw [hO, Finset.empty_union, Finset.union_empty] at hunion
    subst hunion
    refine ⟨⟨primes.getD (h.primeindex + 1) 0, s'.newtable, h.entrycount,
      loadLimit (primes.getD (h.primeindex + 1) 0), h.primeindex + 1, s'.mem⟩, ?_,
      ⟨hnext, rfl, fun a => ?_, fun a x hx => ?_, hhalf.new⟩, rfl, hdata⟩
    · rw [hashtableExpand, if_neg hlast]
      dsimp only
      rw [hrun]
      rfl
    · exact (hdata.exists_iff a).trans (hs.mem a)
    · obtain ⟨y, hy, hyx⟩ := hdata.entry hx
      have hh := hs.hashed a y hy
      simp only [Entry.data, Prod.mk.injEq] at hyx
      obtain ⟨h1, -, h3⟩ := hyx
      rw [← h3, ← h1, hh]

theorem Shape.expand {h : Hashtable K} {S : Finset ℕ} (hs : Shape hashfn pmp h S) :
    ∃ h', hashtableExpand h = some h' ∧ Shape hashfn pmp h' S ∧ h'.entrycount = h.entrycount ∧
      SameData h.mem h'.mem := by
  have hcard : S.card < chainFuel := by
    have := card_le hs.pooled
    unfold chainFuel
    omega
  obtain ⟨h', hrun, hs', hrest⟩ := hs.sorted.expand hcard
  exact ⟨h', hrun, hs'.pooled hs.pooled, hrest⟩

/-! ## The operations -/

theorem Represents.create {minsize : ℕ} {h : Hashtable K} (hc : createHashtable K minsize = some h) :
    Represents hashfn pmp h ∅ := by
  unfold createHashtable at hc
  split at hc
  · cases hc
  · next hsize =>
    obtain rfl := Option.some.inj hc
    have hlt := findIdx_lt hsize
    refine ⟨⟨hlt, ?_, by simp, by simp, by simp, Buckets.empty _ _ _ _⟩, rfl⟩
    dsimp only
    rw [List.getD_eq_getElem?_getD, List.getD_eq_getElem?_getD, List.getElem?_eq_getElem (by exact hlt)]
    rfl

theorem contents_congr {h h' : Hashtable K} {S : Finset ℕ} (hd : ∀ a ∈ S, (h'.mem a).map Entry.data =
    (h.mem a).map Entry.data) : contents h' S = contents h S := by
  refine Finset.sum_congr rfl fun a ha => ?_
  have hpair : ∀ o : Option (Entry K), (o.map fun x => (x.k, x.v)) = (o.map Entry.data).map fun t => (t.1, t.2.1) := by
    intro o
    cases o <;> rfl
  rw [hpair, hpair, hd a ha]

theorem contents_insert {h : Hashtable K} {S : Finset ℕ} {a : ℕ} {x : Entry K} (ha : a ∉ S) (hx : h.mem a = some x) :
    contents h (insert a S) = (x.k, x.v) ::ₘ contents h S := by
  rw [contents, Finset.sum_insert ha, hx]
  exact Multiset.singleton_add _ _

theorem contents_erase {h : Hashtable K} {S : Finset ℕ} {a : ℕ} {x : Entry K} (ha : a ∈ S) (hx : h.mem a = some x) :
    contents h S = (x.k, x.v) ::ₘ contents h (S.erase a) := by
  rw [← contents_insert (Finset.notMem_erase a S) hx, Finset.insert_erase ha]

theorem mem_contents {h : Hashtable K} {S : Finset ℕ} {p : K × ℕ} :
    p ∈ contents h S ↔ ∃ a ∈ S, ∃ x, h.mem a = some x ∧ (x.k, x.v) = p := by
  rw [contents, Multiset.mem_sum]
  refine exists_congr fun a => and_congr_right fun _ => ?_
  cases h.mem a <;> simp [eq_comm]

theorem Sorted.push {h : Hashtable K} {S : Finset ℕ} (hs : Sorted hashfn h S) {a : ℕ} (ha : a ∉ S)
    (h0 : a ≠ 0) (k : K) (v : ℕ) : Sorted hashfn { h with
      table := Function.update h.table (indexFor h.tablelength (hash hashfn k)) a
      mem := Function.update h.mem a (some ⟨k, v, hash hashfn k,
        h.table (indexFor h.tablelength (hash hashfn k))⟩) } (insert a S) := by
  refine ⟨hs.index_lt, hs.size, fun b => ?_, fun b x hx => ?_, hs.buckets.push ha h0 rfl⟩
  · by_cases hb : b = a
    · simp [hb]
    · simp [hb, hs.mem b]
  · dsimp only at hx
    by_cases hb : b = a
    · subst hb
      rw [Function.update_self] at hx
      obtain rfl := Option.some.inj hx
      rfl
    · rw [Function.update_of_ne hb] at hx
      exact hs.hashed b x hx

theorem Shape.push {h : Hashtable K} {S : Finset ℕ} (hs : Shape hashfn pmp h S) {a : ℕ} (ha : a ∉ S)
    (hp : InPool pmp a) (k : K) (v : ℕ) : Shape hashfn pmp { h with
      table := Function.update h.table (indexFor h.tablelength (hash hashfn k)) a
      mem := Function.update h.mem a (some ⟨k, v, hash hashfn k,
        h.table (indexFor h.tablelength (hash hashfn k))⟩) } (insert a S) := by
  refine (hs.sorted.push ha hp.ne_zero k v).pooled fun b hb => ?_
  rcases Finset.mem_insert.mp hb with rfl | hb
  · exact hp
  · exact hs.pooled b hb

theorem Shape.countEntry {h : Hashtable K} {S : Finset ℕ} (hs : Shape hashfn pmp h S) :
    ∃ h', CHashtable.countEntry h = some h' ∧ Shape hashfn pmp h' S ∧
      h'.entrycount = (h.entrycount + 1) % 2 ^ 32 ∧ SameData h.mem h'.mem := by
  have hs' : Shape hashfn pmp { h with entrycount := (h.entrycount + 1) % 2 ^ 32 } S :=
    ⟨hs.index_lt, hs.size, hs.mem, hs.pooled, hs.hashed, hs.buckets⟩
  unfold CHashtable.countEntry
  dsimp only
  split
  · exact hs'.expand
  · exact ⟨_, rfl, hs', rfl, fun _ => rfl⟩

theorem Represents.insert {h : Hashtable K} {S : Finset ℕ} (hr : Represents hashfn pmp h S) {a : ℕ}
    (ha : Fresh pmp h a) (k : K) (v : ℕ) : ∃ h', hashtableInsert hashfn h k v a = some h' ∧
      Represents hashfn pmp h' (insert a S) ∧ contents h' (insert a S) = (k, v) ::ₘ contents h S := by
  have haS : a ∉ S := fun haS => by
    obtain ⟨x, hx⟩ := (hr.mem a).mpr haS
    rw [ha.1] at hx
    cases hx
  have hcount : (h.entrycount + 1) % 2 ^ 32 = S.card + 1 := by
    have := card_le hr.pooled
    rw [hr.count, Nat.mod_eq_of_lt (by omega)]
  obtain ⟨h₁, hrun, hs, hc, hd⟩ := hr.toShape.countEntry
  have hother : ∀ b ∈ S, Function.update h₁.mem a (some ⟨k, v, hash hashfn k,
      h₁.table (indexFor h₁.tablelength (hash hashfn k))⟩) b = h₁.mem b := fun b hb =>
    Function.update_of_ne (ne_of_mem_of_not_mem hb haS) _ _
  refine ⟨_, ?_, ⟨hs.push haS ha.2 k v, ?_⟩, ?_⟩
  · rw [hashtableInsert, hrun]
    rfl
  · rw [Finset.card_insert_of_notMem haS, ← hcount, ← hc]
  · rw [contents_insert haS (Function.update_self ..)]
    congr 1
    refine contents_congr fun b hb => ?_
    dsimp only
    rw [hother b hb, hd b]

/-! ## Looking up -/

/-- What `pE` is when the loop has passed the entries `l`. -/
def slotAfter (pE : Slot) (l : List ℕ) : Slot := (l.getLast?.map Slot.next).getD pE

section Lookup
variable {h : Hashtable K} {k : K} {l r : List ℕ} {e a fuel : ℕ} {x : Entry K}

/-- No entry of the chain passes the test. -/
def Misses (hashfn : K → UInt32) (eqfn : K → K → Bool) (m : ℕ → Option (Entry K)) (k : K) (l : List ℕ) : Prop :=
  ∀ b ∈ l, ∀ y, m b = some y → ¬ Matches hashfn eqfn k y

theorem searchLoop_miss {m : ℕ → Option (Entry K)} : ∀ {l : List ℕ} {e fuel : ℕ}, Chain Entry.next m e l →
    l.length < fuel → Misses hashfn eqfn m k l → searchLoop eqfn m k (hash hashfn k) fuel e = some 0
  | [], e, fuel + 1, hl, _, _ => if_pos hl
  | b :: l, e, fuel + 1, hl, hf, hm => by
    obtain ⟨rfl, h0, y, hy, hl⟩ := hl
    rw [searchLoop, if_neg h0, hy]
    refine (if_neg (hm e List.mem_cons_self y hy)).trans ?_
    exact searchLoop_miss hl (by simpa using hf) fun c hc => hm c (List.mem_cons_of_mem _ hc)

theorem searchLoop_first {m : ℕ → Option (Entry K)} (hx : m a = some x) (hmatch : Matches hashfn eqfn k x) :
    ∀ {l : List ℕ} {e fuel : ℕ}, Chain Entry.next m e (l ++ a :: r) → (l ++ a :: r).length < fuel →
      Misses hashfn eqfn m k l → searchLoop eqfn m k (hash hashfn k) fuel e = some x.v
  | [], e, fuel + 1, hl, _, _ => by
    obtain ⟨rfl, h0, -⟩ := hl
    rw [searchLoop, if_neg h0, hx]
    exact if_pos hmatch
  | b :: l, e, fuel + 1, hl, hf, hm => by
    obtain ⟨rfl, h0, y, hy, hl⟩ := hl
    rw [searchLoop, if_neg h0, hy]
    refine (if_neg (hm e List.mem_cons_self y hy)).trans ?_
    exact searchLoop_first hx hmatch hl (by simpa using hf) fun c hc => hm c (List.mem_cons_of_mem _ hc)

theorem removeLoop_miss : ∀ {l : List ℕ} {e fuel : ℕ} {pE : Slot}, Chain Entry.next h.mem e l →
    l.length < fuel → Misses hashfn eqfn h.mem k l → removeLoop eqfn h k (hash hashfn k) fuel pE e = some (h, 0)
  | [], e, fuel + 1, _, hl, _, _ => if_pos hl
  | b :: l, e, fuel + 1, _, hl, hf, hm => by
    obtain ⟨rfl, h0, y, hy, hl⟩ := hl
    rw [removeLoop, if_neg h0, hy]
    refine (if_neg (hm e List.mem_cons_self y hy)).trans ?_
    exact removeLoop_miss hl (by simpa using hf) fun c hc => hm c (List.mem_cons_of_mem _ hc)

theorem removeLoop_first (hx : h.mem a = some x) (hmatch : Matches hashfn eqfn k x) :
    ∀ {l : List ℕ} {e fuel : ℕ} {pE : Slot}, Chain Entry.next h.mem e (l ++ a :: r) →
      (l ++ a :: r).length < fuel → Misses hashfn eqfn h.mem k l →
      removeLoop eqfn h k (hash hashfn k) fuel pE e = (do
        let h ← (slotAfter pE l).assign h x.next
        some ({ h with
          entrycount := (h.entrycount + (2 ^ 32 - 1)) % 2 ^ 32
          mem := Function.update h.mem a none }, x.v))
  | [], e, fuel + 1, pE, hl, _, _ => by
    obtain ⟨rfl, h0, -⟩ := hl
    rw [removeLoop, if_neg h0, hx]
    exact if_pos hmatch
  | b :: l, e, fuel + 1, pE, hl, hf, hm => by
    obtain ⟨rfl, h0, y, hy, hl⟩ := hl
    rw [removeLoop, if_neg h0, hy]
    refine (if_neg (hm e List.mem_cons_self y hy)).trans ?_
    rw [removeLoop_first hx hmatch hl (by simpa using hf) fun c hc => hm c (List.mem_cons_of_mem _ hc)]
    have hslot : slotAfter (.next e) l = slotAfter pE (e :: l) := by
      cases l with
      | nil => rfl
      | cons c l => rw [slotAfter, slotAfter, List.getLast?_cons_cons, List.getLast?_eq_getLast_of_ne_nil (by simp)]; rfl
    rw [hslot]

theorem Shape.release {S : Finset ℕ} (hs : Shape hashfn pmp h S) {m : ℕ → Option (Entry K)}
    {table : ℕ → ℕ} (hd : SameData h.mem m) (entrycount : ℕ) (hb : Buckets Entry.next
      (fun x => indexFor h.tablelength x.h) m h.tablelength table (S.erase a)) :
    Shape hashfn pmp { h with
      table := table
      entrycount := entrycount
      mem := Function.update m a none } (S.erase a) := by
  refine ⟨hs.index_lt, hs.size, fun b => ?_, fun b hb => hs.pooled b (Finset.mem_of_mem_erase hb), fun b y hy => ?_,
    hb.congr fun b hb => Function.update_of_ne (Finset.ne_of_mem_erase hb) _ _⟩
  · by_cases hba : b = a
    · simp [hba]
    · simp [hba, hd.exists_iff b, hs.mem b]
  · dsimp only at hy
    have hba : b ≠ a := by
      rintro rfl
      rw [Function.update_self] at hy
      cases hy
    rw [Function.update_of_ne hba] at hy
    obtain ⟨z, hz, hzy⟩ := hd.entry hy
    have hh := hs.hashed b z hz
    simp only [Entry.data, Prod.mk.injEq] at hzy
    obtain ⟨h1, -, h3⟩ := hzy
    rw [← h3, ← h1, hh]

theorem Represents.remove {S : Finset ℕ} (hr : Represents hashfn pmp h S) (hf : First hashfn eqfn h k a x) :
    ∃ h', hashtableRemove hashfn eqfn h k = some (h', x.v) ∧ Represents hashfn pmp h' (S.erase a) ∧
      ∀ b ∈ S.erase a, (h'.mem b).map Entry.data = (h.mem b).map Entry.data := by
  obtain ⟨hx, hmatch, l, r, hl, hmiss⟩ := hf
  have hi := indexFor_lt hr.tablelength_pos (hash hashfn k)
  have haS : a ∈ S := (hr.mem a).mp ⟨x, hx⟩
  have hrun : hashtableRemove hashfn eqfn h k = _ := removeLoop_first hx hmatch hl (hr.length_lt hi hl) hmiss
  have hcount : (h.entrycount + (2 ^ 32 - 1)) % 2 ^ 32 = (S.erase a).card := by
    have hle := card_le hr.pooled
    have hpos := Finset.card_pos.mpr ⟨a, haS⟩
    rw [hr.count, Finset.card_erase_of_mem haS]
    omega
  have hkeep : ∀ m : ℕ → Option (Entry K), SameData h.mem m → ∀ b ∈ S.erase a,
      (Function.update m a none b).map Entry.data = (h.mem b).map Entry.data := by
    intro m hm b hb
    rw [Function.update_of_ne (Finset.ne_of_mem_erase hb), hm b]
  rcases List.eq_nil_or_concat l with rfl | ⟨l', b, rfl⟩
  · -- the head of its chain
    have hhead : h.table (indexFor h.tablelength (hash hashfn k)) = a := hl.1
    have h0 : h.table (indexFor h.tablelength (hash hashfn k)) ≠ 0 := hhead ▸ hl.2.1
    obtain ⟨y, hy, -, -, hpop⟩ := hr.buckets.pop hi h0
    rw [hhead] at hy hpop
    obtain rfl : x = y := Option.some.inj (hx.symm.trans hy)
    exact ⟨_, hrun, ⟨hr.release (fun _ => rfl) _ hpop, hcount⟩, hkeep _ fun _ => rfl⟩
  · -- behind the entry at `b`
    rw [List.concat_eq_append, List.append_assoc] at hl
    obtain ⟨-, y, hy⟩ := hl.node (b := b) (by simp)
    have hunlink := hr.buckets.unlink (z := { y with next := x.next }) hi hl hy hx rfl rfl
    have hslot : slotAfter (.table (indexFor h.tablelength (hash hashfn k))) (l'.concat b) = .next b := by
      rw [slotAfter, List.concat_eq_append, List.getLast?_concat]
      rfl
    rw [hslot, Slot.assign, hy] at hrun
    exact ⟨_, hrun, ⟨hr.release (sameData_link hy x.next) _ hunlink, hcount⟩, hkeep _ (sameData_link hy x.next)⟩

end Lookup

theorem Represents.matches_of_eq {h : Hashtable K} {S : Finset ℕ} (hr : Represents hashfn pmp h S)
    (heq : ∀ k k', eqfn k k' = true → hashfn k = hashfn k') {k : K} {a : ℕ} {x : Entry K} (hx : h.mem a = some x)
    (hk : eqfn k x.k = true) : Matches hashfn eqfn k x := by
  refine ⟨?_, hk⟩
  rw [hr.hashed a x hx, hash, hash, heq k x.k hk]

/-- Either some entry equals `k`, and there is a first one, or none does. -/
theorem Represents.first_or_none {h : Hashtable K} {S : Finset ℕ} (hr : Represents hashfn pmp h S)
    (heq : ∀ k k', eqfn k k' = true → hashfn k = hashfn k') (k : K) :
    (∃ a x, First hashfn eqfn h k a x) ∨ ∀ a x, h.mem a = some x → eqfn k x.k = false := by
  obtain ⟨l, hl, hmem⟩ := hr.buckets _ (indexFor_lt hr.tablelength_pos (hash hashfn k))
  by_cases hany : Misses hashfn eqfn h.mem k l
  · refine Or.inr fun a x hx => ?_
    cases hk : eqfn k x.k with
    | false => rfl
    | true =>
      have hmatch := hr.matches_of_eq heq hx hk
      refine absurd hmatch (hany a ((hmem a).mpr ⟨(hr.mem a).mp ⟨x, hx⟩, x, hx, ?_⟩) x hx)
      rw [hmatch.1]
  · left
    classical
    simp only [Misses, not_forall, not_not] at hany
    obtain ⟨b, hb, y, hy, hmatch⟩ := hany
    obtain ⟨a, l₁, l₂, hmiss, hfirst, rfl, -⟩ := List.exists_of_eraseP
      (p := fun b => decide (∃ y, h.mem b = some y ∧ Matches hashfn eqfn k y)) hb (by simpa using ⟨y, hy, hmatch⟩)
    obtain ⟨x, hx, hmx⟩ := of_decide_eq_true hfirst
    exact ⟨a, x, hx, hmx, l₁, l₂, hl, fun c hc z hz hmz => hmiss c hc (decide_eq_true ⟨z, hz, hmz⟩)⟩

theorem Represents.search_first {h : Hashtable K} {S : Finset ℕ} (hr : Represents hashfn pmp h S) {k : K} {a : ℕ}
    {x : Entry K} (hf : First hashfn eqfn h k a x) : hashtableSearch hashfn eqfn h k = some x.v := by
  obtain ⟨hx, hmatch, l, r, hl, hmiss⟩ := hf
  exact searchLoop_first hx hmatch hl (hr.length_lt (indexFor_lt hr.tablelength_pos _) hl) hmiss

theorem Represents.miss {h : Hashtable K} {S : Finset ℕ} (hr : Represents hashfn pmp h S) {k : K}
    (hnone : ∀ a x, h.mem a = some x → eqfn k x.k = false) :
    hashtableSearch hashfn eqfn h k = some 0 ∧ hashtableRemove hashfn eqfn h k = some (h, 0) := by
  have hi := indexFor_lt hr.tablelength_pos (hash hashfn k)
  obtain ⟨l, hl, -⟩ := hr.buckets _ hi
  have hmiss : Misses hashfn eqfn h.mem k l := fun a _ x hx hm =>
    absurd hm.2 (by rw [hnone a x hx]; simp)
  exact ⟨searchLoop_miss hl (hr.length_lt hi hl) hmiss, removeLoop_miss hl (hr.length_lt hi hl) hmiss⟩

/-! ## Runs -/

/-- What looking up a key finds: the first entry whose key equals it, which is the one `hashtable_remove` takes
out, or nothing when there is none. -/
def FindsAndRemoves (hashfn : K → UInt32) (eqfn : K → K → Bool) (pmp : ℕ) (h : Hashtable K) (S : Finset ℕ)
    (k : K) : Prop :=
  (∃ a ∈ S, ∃ x, First hashfn eqfn h k a x ∧ eqfn k x.k = true ∧ hashtableSearch hashfn eqfn h k = some x.v ∧
    ∃ h', hashtableRemove hashfn eqfn h k = some (h', x.v) ∧ Represents hashfn pmp h' (S.erase a) ∧
      contents h S = (x.k, x.v) ::ₘ contents h' (S.erase a)) ∨
  (∀ p ∈ contents h S, eqfn k p.1 = false) ∧ hashtableSearch hashfn eqfn h k = some 0 ∧
    hashtableRemove hashfn eqfn h k = some (h, 0)

theorem Represents.findsAndRemoves {h : Hashtable K} {S : Finset ℕ} (hr : Represents hashfn pmp h S)
    (heq : ∀ k k', eqfn k k' = true → hashfn k = hashfn k') (k : K) :
    FindsAndRemoves hashfn eqfn pmp h S k := by
  rcases hr.first_or_none heq k with ⟨a, x, hf⟩ | hnone
  · obtain ⟨h', hrun, hr', hkeep⟩ := hr.remove hf
    have haS : a ∈ S := (hr.mem a).mp ⟨x, hf.1⟩
    refine Or.inl ⟨a, haS, x, hf, hf.2.1.2, hr.search_first hf, h', hrun, hr', ?_⟩
    rw [contents_erase haS hf.1, contents_congr hkeep]
  · refine Or.inr ⟨fun p hp => ?_, hr.miss hnone⟩
    obtain ⟨a, -, x, hx, rfl⟩ := mem_contents.mp hp
    exact hnone a x hx

theorem Reached.represents (heq : ∀ k k', eqfn k k' = true → hashfn k = hashfn k') {minsize : ℕ}
    {h : Hashtable K} {ins rem : Multiset (K × ℕ)} (hr : Reached hashfn eqfn pmp minsize h ins rem) :
    ∃ S, Represents hashfn pmp h S ∧ contents h S + rem = ins := by
  induction hr with
  | create hc => exact ⟨∅, .create hc, rfl⟩
  | insert hr ha hi ih =>
    obtain ⟨S, hS, hcont⟩ := ih
    obtain ⟨h', hrun, hS', hcont'⟩ := hS.insert ha _ _
    obtain rfl := Option.some.inj (hrun.symm.trans hi)
    exact ⟨_, hS', by rw [hcont', Multiset.cons_add, hcont]⟩
  | remove hr hx hd ih =>
    obtain ⟨S, hS, hcont⟩ := ih
    obtain ⟨h', hrun, hS', hkeep⟩ := hS.remove hx
    obtain ⟨rfl, -⟩ := Prod.mk.inj (Option.some.inj (hrun.symm.trans hd))
    refine ⟨_, hS', ?_⟩
    rw [← hcont, contents_erase ((hS.mem _).mp ⟨_, hx.1⟩) hx.1, contents_congr hkeep, Multiset.cons_add,
      Multiset.add_cons]
  | miss hr hx hd ih =>
    obtain ⟨S, hS, hcont⟩ := ih
    rcases hS.first_or_none heq _ with ⟨a, x, hf⟩ | hnone
    · exact absurd hf (hx a x)
    · obtain ⟨rfl, -⟩ := Prod.mk.inj (Option.some.inj ((hS.miss hnone).2.symm.trans hd))
      exact ⟨S, hS, hcont⟩

/-- The hash table is a multimap across growth: in every table reached the entries are sorted into the buckets
of their hash values and counted, they are what was inserted and not removed, a key is found if and only if an
entry equals it, removing takes out that entry alone, and every call returns. -/
theorem multimap_of_reached (heq : ∀ k k', eqfn k k' = true → hashfn k = hashfn k') {minsize : ℕ}
    {h : Hashtable K} {ins rem : Multiset (K × ℕ)} (hr : Reached hashfn eqfn pmp minsize h ins rem) :
    ∃ S, Represents hashfn pmp h S ∧ contents h S + rem = ins ∧
      (∀ k, FindsAndRemoves hashfn eqfn pmp h S k) ∧
      ∀ k v a, Fresh pmp h a → ∃ h', hashtableInsert hashfn h k v a = some h' := by
  obtain ⟨S, hS, hcont⟩ := hr.represents heq
  refine ⟨S, hS, hcont, hS.findsAndRemoves heq, fun k v a ha => ?_⟩
  obtain ⟨h', hrun, -⟩ := hS.insert ha k v
  exact ⟨h', hrun⟩

end Multimap

/-- A table just created. -/
def emptyTable : Hashtable ℕ := ⟨53, fun _ => 0, 0, 35, 0, fun _ => none⟩

theorem create_emptyTable : createHashtable ℕ 10 = some emptyTable := by
  have hload : loadLimit 53 = 35 := by decide +kernel
  rw [createHashtable, if_neg (by decide), emptyTable, ← hload]
  rfl

/-- Numbers hashed two by two. -/
def pairHash (k : ℕ) : UInt32 := UInt32.ofNat (k / 2)

/-- The table after the keys below `n`, in a pool mapped at 65536. -/
def filledTable : ℕ → Hashtable ℕ
  | 0 => emptyTable
  | n + 1 => (hashtableInsert pairHash (filledTable n) n (100 + n) (65600 + 64 * n)).getD emptyTable

theorem reached_filledTable : ∀ n ≤ 36, Reached pairHash (· == ·) 65536 10 (filledTable n)
    ((Multiset.range n).map fun k => (k, 100 + k)) 0
  | 0, _ => .create create_emptyTable
  | n + 1, hn => by
    have hfree : ∀ n < 36, ((filledTable n).mem (65600 + 64 * n)).isNone = true := by decide +kernel
    have hsome : ∀ n < 36, (hashtableInsert pairHash (filledTable n) n (100 + n) (65600 + 64 * n)).isSome = true := by
      decide +kernel
    have hfresh : Fresh 65536 (filledTable n) (65600 + 64 * n) :=
      ⟨Option.isNone_iff_eq_none.mp (hfree n hn), 64 + 64 * n, by omega, by omega, by omega, by
        rw [poolSize]
        omega⟩
    obtain ⟨h', hi⟩ := Option.isSome_iff_exists.mp (hsome n hn)
    have hr := (reached_filledTable n (by omega)).insert hfresh hi
    rw [filledTable, hi, Multiset.range_succ, Multiset.map_cons]
    exact hr

/-- The table has grown, and a key is removed that is not the first of its chain. -/
theorem multimap_of_reached_filledTable : (filledTable 35).tablelength = 53 ∧ (filledTable 36).tablelength = 97 ∧
    ∃ h S, hashtableRemove pairHash (· == ·) (filledTable 36) 6 = some (h, 106) ∧
      contents h S + {(6, 106)} = (Multiset.range 36).map (fun k => (k, 100 + k)) ∧
      FindsAndRemoves pairHash (· == ·) 65536 h S 6 ∧ FindsAndRemoves pairHash (· == ·) 65536 h S 7 := by
  have hr := reached_filledTable 36 (le_refl _)
  have heq : ∀ k k' : ℕ, (k == k') = true → pairHash k = pairHash k' := fun k k' hk => by rw [eq_of_beq hk]
  obtain ⟨S, hS, -⟩ := hr.represents heq
  have hfound : hashtableSearch pairHash (· == ·) (filledTable 36) 6 = some 106 := by decide +kernel
  rcases hS.findsAndRemoves heq 6 with ⟨a, -, x, hf, hk, hv, h', hrun, -⟩ | ⟨-, hnone, -⟩
  · obtain ⟨k, v, hx, next⟩ := x
    obtain rfl : 106 = v := Option.some.inj (hfound.symm.trans hv)
    obtain rfl : 6 = k := eq_of_beq hk
    obtain ⟨S', -, hcont, hall, -⟩ := multimap_of_reached heq (hr.remove hf hrun)
    exact ⟨by decide +kernel, by decide +kernel, h', S', hrun, by simpa using hcont, hall 6, hall 7⟩
  · rw [hfound] at hnone
    cases hnone

end PmemExamples.CHashtable
