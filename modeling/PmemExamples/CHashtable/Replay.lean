import PmemExamples.CHashtable.Stacks

/-! # The answers of a table

Every call does to a table what it does to the stacks (`Stacked.step`), so nothing but the stacks can be told from the
answers of a run. -/

namespace PmemExamples.CHashtable
open Linked
set_option autoImplicit false

/-! ## The relation -/

section Operations
variable {K : Type} {hashfn : K → UInt32} {eqfn : K → K → Bool} {pmp : ℕ} {h : Hashtable K} {S : Finset ℕ}
  {cs : ℕ → List ℕ} {s : Stacks K} {k : K} {m : ℕ → Option (Entry K)} {l r : List ℕ} {a : ℕ} {x : Entry K}

/-- The chains of a table are the stacks. -/
structure Stacked (h : Hashtable K) (s : Stacks K) : Prop where
  load : h.loadlimit = loadLimit h.tablelength
  index : s.primeindex = h.primeindex
  total : s.count = h.entrycount
  seen : ∀ hv l, Chain Entry.next h.mem (h.table (indexFor h.tablelength hv)) l → under h.mem hv l = s.stack hv

theorem Stacked.expand (hst : Stacked h s) (hs : Shape hashfn pmp h S) (hc : Chains h S cs) :
    ∃ h', hashtableExpand h = some h' ∧ Shape hashfn pmp h' S ∧ Stacked h' s.grow := by
  obtain ⟨h', hrun, hs', hcount, hdata⟩ := hs.expand
  refine ⟨h', hrun, hs', ?_⟩
  rw [hashtableExpand] at hrun
  rw [Stacks.grow]
  by_cases hlast : h.primeindex = primeTableLength - 1
  · rw [if_pos hlast] at hrun
    rw [if_pos (hst.index.trans hlast)]
    exact Option.some.inj hrun ▸ hst
  · rw [if_neg hlast] at hrun
    rw [if_neg (hst.index ▸ hlast)]
    have hn' : 0 < primes.getD (h.primeindex + 1) 0 := by
      apply primes_pos
      have hlt := hs.index_lt
      simp only [primeTableLength] at hlast hlt ⊢
      omega
    have hstart : Lists h.tablelength (primes.getD (h.primeindex + 1) 0) ⟨h.table, fun _ => 0, h.mem⟩ cs fun _ => [] :=
      ⟨hc.chain, fun _ _ => rfl, fun _ _ _ _ => List.disjoint_nil_right _, hc.disjoint⟩
    have hsorted : ∀ i < h.tablelength, ∀ a ∈ cs i, ∀ x, h.mem a = some x → indexFor h.tablelength x.h = i := by
      intro i hi a ha x hx
      obtain ⟨l, hl, hmem⟩ := hs.buckets i hi
      rw [(hc.chain i hi).unique hl, hmem] at ha
      obtain ⟨-, y, hy, hyi⟩ := ha
      rwa [Option.some.inj (hx.symm.trans hy)]
    obtain ⟨s', old', new', hmove, hlists, -, -, hunder⟩ := moveBuckets_lists hstart hn'
      (fun i hi => hs.length_lt hi (hc.chain i hi)) hsorted (fun _ => rfl) h.tablelength (le_refl _)
    dsimp only at hrun
    rw [hmove] at hrun
    obtain rfl := Option.some.inj hrun
    refine ⟨rfl, congrArg (· + 1) hst.index, hst.total, fun hv l hl => ?_⟩
    have hi := indexFor_lt hs.tablelength_pos hv
    rw [hl.unique (hlists.news _ (indexFor_lt hn' hv)), hdata.under, hunder, if_pos hi, hst.seen hv _ (hc.chain _ hi)]

theorem Stacked.countEntry (hst : Stacked h s) (hr : Represents hashfn pmp h S) :
    ∃ h', CHashtable.countEntry h = some h' ∧ Shape hashfn pmp h' S ∧ Stacked h' s.expect := by
  obtain ⟨cs, hc⟩ := hr.wellFormed.chains
  have hcount : (h.entrycount + 1) % 2 ^ 32 = s.count + 1 := by
    have hle := card_le hr.pooled
    rw [hst.total, Nat.mod_eq_of_lt (by rw [hr.count]; omega)]
  have hs : Shape hashfn pmp { h with entrycount := s.count + 1 } S :=
    ⟨hr.index_lt, hr.size, hr.mem, hr.pooled, hr.hashed, hr.buckets⟩
  have hst' : Stacked { h with entrycount := s.count + 1 } { s with count := s.count + 1 } :=
    ⟨hst.load, hst.index, rfl, hst.seen⟩
  have hlimit : loadLimit (primes.getD s.primeindex 0) = h.loadlimit := by
    rw [hst.index, ← hr.size, hst.load]
  rw [CHashtable.countEntry, Stacks.expect, hcount]
  dsimp only
  rw [hlimit]
  by_cases hgrow : h.loadlimit < s.count + 1
  · rw [if_pos hgrow, if_pos hgrow]
    exact hst'.expand hs ⟨hc.chain, hc.disjoint, hc.all⟩
  · rw [if_neg hgrow, if_neg hgrow]
    exact ⟨_, rfl, hs, hst'⟩

theorem Stacked.push (hst : Stacked h s) (hs : Shape hashfn pmp h S) (ha : a ∉ S) (h0 : a ≠ 0) (k : K) (v : ℕ) :
    Stacked { h with
      table := Function.update h.table (indexFor h.tablelength (hash hashfn k)) a
      mem := Function.update h.mem a (some ⟨k, v, hash hashfn k, h.table (indexFor h.tablelength (hash hashfn k))⟩) }
      (s.put (hash hashfn k) ((k, v) :: s.stack (hash hashfn k))) := by
  refine ⟨hst.load, hst.index, hst.total, fun hv l hl => ?_⟩
  obtain ⟨l₀, hl₀, hmem⟩ := hs.buckets _ (indexFor_lt hs.tablelength_pos hv)
  have ha₀ : a ∉ l₀ := fun hal => ha ((hmem a).mp hal).1
  have hkeep : ∀ y, under (Function.update h.mem a y) hv l₀ = s.stack hv := by
    intro y
    rw [← hst.seen hv l₀ hl₀]
    apply under_congr
    intro b hb
    rw [Function.update_of_ne (ne_of_mem_of_not_mem hb ha₀)]
  dsimp only [Stacks.put] at hl ⊢
  by_cases hidx : indexFor h.tablelength hv = indexFor h.tablelength (hash hashfn k)
  · rw [hidx, Function.update_self] at hl
    rw [hidx] at hl₀
    rw [hl.unique (Chain.push hl₀ ha₀ h0), under_cons (Function.update_self ..), hkeep, pairUnder]
    by_cases hhv : hash hashfn k = hv
    · rw [if_pos hhv, hhv, Function.update_self]
      rfl
    · rw [if_neg hhv, Function.update_of_ne (Ne.symm hhv)]
      rfl
  · rw [Function.update_of_ne hidx] at hl
    rw [hl.unique (hl₀.update ha₀ _), hkeep, Function.update_of_ne]
    rintro rfl
    exact hidx rfl

/-! ## The first pair with an equal key -/

theorem misses_or_split (hl : ∀ b ∈ l, ∃ y, m b = some y) : Misses hashfn eqfn m k l ∨
    ∃ l₁ a l₂ x, l = l₁ ++ a :: l₂ ∧ m a = some x ∧ Matches hashfn eqfn k x ∧ Misses hashfn eqfn m k l₁ := by
  induction l with
  | nil => exact Or.inl fun b hb => absurd hb List.not_mem_nil
  | cons b l ih =>
    obtain ⟨y, hy⟩ := hl b List.mem_cons_self
    by_cases hmatch : Matches hashfn eqfn k y
    · exact Or.inr ⟨[], b, l, y, rfl, hy, hmatch, fun c hc => absurd hc List.not_mem_nil⟩
    · have hb : ∀ z, m b = some z → ¬ Matches hashfn eqfn k z := fun z hz => Option.some.inj (hy.symm.trans hz) ▸ hmatch
      rcases ih fun c hc => hl c (List.mem_cons_of_mem _ hc) with hmiss | ⟨l₁, a, l₂, x, rfl, hx, hm, hmiss⟩
      · exact Or.inl (List.forall_mem_cons.mpr ⟨hb, hmiss⟩)
      · exact Or.inr ⟨b :: l₁, a, l₂, x, rfl, hx, hm, List.forall_mem_cons.mpr ⟨hb, hmiss⟩⟩

theorem Misses.under (hm : Misses hashfn eqfn m k l) : ∀ p ∈ under m (hash hashfn k) l, ¬ eqfn k p.1 = true := by
  intro p hp heq
  obtain ⟨b, hb, hpair⟩ := List.mem_filterMap.mp hp
  obtain ⟨y, hy, hpair⟩ := Option.bind_eq_some_iff.mp hpair
  rw [pairUnder] at hpair
  split at hpair
  · next hh =>
    obtain rfl := Option.some.inj hpair
    exact hm b hb y hy ⟨hh.symm, heq⟩
  · cases hpair

theorem under_split (hx : m a = some x) (hmatch : Matches hashfn eqfn k x) (l r : List ℕ) :
    under m (hash hashfn k) (l ++ a :: r) = under m (hash hashfn k) l ++ (x.k, x.v) :: under m (hash hashfn k) r := by
  rw [under_append, under_cons hx, pairUnder, if_pos hmatch.1.symm]
  rfl

/-- What the stack of a key looks like: no pair on it has an equal key, or a first one has. -/
theorem Stacked.lookup (eqfn : K → K → Bool) (hst : Stacked h s) (hr : Represents hashfn pmp h S) (k : K) :
    (s.search hashfn eqfn k = none ∧ ∃ l, Chain Entry.next h.mem (h.table (indexFor h.tablelength (hash hashfn k))) l ∧
      l.length < chainFuel ∧ Misses hashfn eqfn h.mem k l) ∨
    ∃ l a r x, Chain Entry.next h.mem (h.table (indexFor h.tablelength (hash hashfn k))) (l ++ a :: r) ∧
      (l ++ a :: r).length < chainFuel ∧ h.mem a = some x ∧ Matches hashfn eqfn k x ∧ Misses hashfn eqfn h.mem k l ∧
      s.search hashfn eqfn k = some (x.k, x.v) := by
  have hi := indexFor_lt hr.tablelength_pos (hash hashfn k)
  obtain ⟨l, hl, -⟩ := hr.buckets _ hi
  have hlen := hr.length_lt hi hl
  rw [Stacks.search, ← hst.seen _ l hl]
  rcases misses_or_split fun b hb => (hl.node hb).2 with hmiss | ⟨l₁, a, l₂, x, rfl, hx, hmatch, hmiss⟩
  · exact Or.inl ⟨List.find?_eq_none.mpr hmiss.under, l, hl, hlen, hmiss⟩
  · refine Or.inr ⟨l₁, a, l₂, x, hl, hlen, hx, hmatch, hmiss, ?_⟩
    rw [under_split hx hmatch, List.find?_append, List.find?_eq_none.mpr hmiss.under, Option.none_or]
    exact List.find?_cons_of_pos hmatch.2

theorem Stacked.search (hst : Stacked h s) (hr : Represents hashfn pmp h S) (k : K) :
    hashtableSearch hashfn eqfn h k = some ((s.search hashfn eqfn k).elim 0 Prod.snd) := by
  rcases hst.lookup eqfn hr k with ⟨hnone, l, hl, hlen, hmiss⟩ | ⟨l, a, r, x, hl, hlen, hx, hmatch, hmiss, hsome⟩
  · rw [hnone]
    exact searchLoop_miss hl hlen hmiss
  · rw [hsome]
    exact searchLoop_first hx hmatch hl hlen hmiss

/-! ## Removing -/

theorem under_filter (hx : m a = some x) {hv : UInt32} (hne : x.h ≠ hv) (l : List ℕ) :
    under m hv (l.filter (· ≠ a)) = under m hv l := by
  induction l with
  | nil => rfl
  | cons b l ih =>
    rw [under, under] at ih ⊢
    by_cases hb : b = a
    · rw [List.filter_cons_of_neg (by simpa using hb), ih, List.filterMap_cons, hb, hx, Option.bind_some, pairUnder,
        if_neg hne]
    · rw [List.filter_cons_of_pos (by simpa using hb), List.filterMap_cons, List.filterMap_cons, ih]

theorem Slot.assign_keeps {slot : Slot} {h h' : Hashtable K} {value : ℕ} (ha : slot.assign h value = some h') :
    h'.tablelength = h.tablelength ∧ h'.loadlimit = h.loadlimit ∧ h'.primeindex = h.primeindex := by
  cases slot with
  | table i =>
    obtain rfl := Option.some.inj ha
    exact ⟨rfl, rfl, rfl⟩
  | next e =>
    obtain ⟨x, -, hx⟩ := Option.bind_eq_some_iff.mp ha
    obtain rfl := Option.some.inj hx
    exact ⟨rfl, rfl, rfl⟩

theorem filter_middle (hnd : (l ++ a :: r).Nodup) : (l ++ a :: r).filter (· ≠ a) = l ++ r := by
  rw [List.nodup_middle, List.nodup_cons] at hnd
  rw [List.filter_append, List.filter_cons_of_neg (by simp), ← List.filter_append, List.filter_eq_self]
  intro b hb
  simpa using ne_of_mem_of_not_mem hb hnd.1

theorem Represents.remove_chains (hr : Represents hashfn pmp h S) (hf : First hashfn eqfn h k a x) :
    ∃ h', hashtableRemove hashfn eqfn h k = some (h', x.v) ∧ Represents hashfn pmp h' (S.erase a) ∧
      h'.tablelength = h.tablelength ∧ h'.loadlimit = h.loadlimit ∧ h'.primeindex = h.primeindex ∧
      (∀ b ≠ a, (h'.mem b).map Entry.data = (h.mem b).map Entry.data) ∧
      ∀ i < h.tablelength, ∀ l, Chain Entry.next h.mem (h.table i) l →
        Chain Entry.next h'.mem (h'.table i) (l.filter (· ≠ a)) := by
  obtain ⟨cs, hc⟩ := hr.wellFormed.chains
  obtain ⟨hx, hmatch, l, r, hl, hmiss⟩ := id hf
  have hi := indexFor_lt hr.tablelength_pos (hash hashfn k)
  have ha : a ≠ 0 := (hl.node (by simp)).1
  -- the chains are those that an iterator leaves, where the entry is a block that can be freed
  have hwalk := (Walking.reaches (fun _ => 0) {a} hr.wellFormed hc hi ((hc.chain _ hi).unique hl)).walking
    hr.wellFormed hc fun _ _ _ _ => id
  have hfree : FreesBlocks (fun _ => 0) h {a} ⟨a, (l.getLast?).getD 0, indexFor h.tablelength (hash hashfn k)⟩ .remove :=
    fun _ => ⟨x, hx, Finset.mem_singleton_self a, Or.inl rfl⟩
  obtain ⟨ret, h', blocks', itr', hremove, -, hk⟩ := hwalk.remove hr.wellFormed hc ha hfree
  have hrun : hashtableRemove hashfn eqfn h k = some (h', x.v) :=
    (removeLoop_first hx hmatch hl (hr.length_lt hi hl) hmiss).trans
      (iteratorRemove_eq (fun b hb => (hl.node (List.mem_append_left _ hb)).1) ha hx (Or.inl rfl) hremove)
  obtain ⟨h'', hrun', hr', -⟩ := hr.remove hf
  obtain rfl : h'' = h' := (Prod.mk.inj (Option.some.inj (hrun'.symm.trans hrun))).1
  have hwalked := hk.walked
  rw [removed_remove, removed_advances, List.nil_append] at hwalked
  obtain ⟨h₁, hassign, hres⟩ :=
    Option.bind_eq_some_iff.mp ((removeLoop_first hx hmatch hl (hr.length_lt hi hl) hmiss).symm.trans hrun)
  obtain ⟨-, hload, hindex⟩ := Slot.assign_keeps hassign
  have hres := (Prod.mk.inj (Option.some.inj hres)).1
  refine ⟨h'', hrun, hr',
    hwalked.length, by rw [← hres, hload], by rw [← hres, hindex], fun b hb => ?_, fun i hi l hl => ?_⟩
  · exact hwalked.kept b (by simpa using hb)
  · rw [hl.unique (hc.chain i hi)]
    simpa using hwalked.chain i hi

theorem Stacked.remove (hst : Stacked h s) (hr : Represents hashfn pmp h S) (k : K) :
    ∃ h' S', hashtableRemove hashfn eqfn h k = some (h', (s.search hashfn eqfn k).elim 0 Prod.snd) ∧
      Represents hashfn pmp h' S' ∧ Stacked h' (s.remove hashfn eqfn k) := by
  rcases hst.lookup eqfn hr k with ⟨hnone, l, hl, hlen, hmiss⟩ | ⟨l, a, r, x, hl, hlen, hx, hmatch, hmiss, hsome⟩
  · rw [Stacks.remove, hnone]
    exact ⟨h, S, removeLoop_miss hl hlen hmiss, hr, hst⟩
  · obtain ⟨h', hrun, hr', hlength, hload, hindex, hdata, hchains⟩ := hr.remove_chains ⟨hx, hmatch, l, r, hl, hmiss⟩
    have haS : a ∈ S := (hr.mem a).mp ⟨x, hx⟩
    rw [Stacks.remove, hsome]
    refine ⟨h', S.erase a, hrun, hr', hload.trans (hlength ▸ hst.load), hst.index.trans hindex.symm, ?_,
      fun hv l' hl' => ?_⟩
    · rw [hr'.count, Finset.card_erase_of_mem haS, ← hr.count, ← hst.total]
    · obtain ⟨l₀, hl₀, -⟩ := hr.buckets _ (indexFor_lt hr.tablelength_pos hv)
      rw [hlength] at hl'
      rw [hl'.unique (hchains _ (indexFor_lt hr.tablelength_pos hv) l₀ hl₀)]
      have hsame : under h'.mem hv (l₀.filter (· ≠ a)) = under h.mem hv (l₀.filter (· ≠ a)) := by
        apply under_congr
        intro b hb
        exact pairUnder_congr (hdata b (by simpa using (List.mem_filter.mp hb).2))
      rw [hsame]
      dsimp only [Stacks.put]
      by_cases hhv : hv = hash hashfn k
      · subst hhv
        obtain rfl := hl₀.unique hl
        rw [filter_middle hl.nodup, Function.update_self, ← hst.seen _ _ hl, under_split hx hmatch, under_append,
          List.eraseP_append_right _ hmiss.under]
        congr 1
        exact (List.eraseP_cons_of_pos (p := fun p : K × ℕ => eqfn k p.1) hmatch.2).symm
      · rw [Function.update_of_ne hhv, ← hst.seen hv l₀ hl₀]
        exact under_filter hx (fun heq => hhv (heq.symm.trans hmatch.1.symm)) l₀

/-! ## Changing a value -/

theorem changeLoop_miss {e fuel v : ℕ} (hl : Chain Entry.next h.mem e l) (hf : l.length < fuel)
    (hm : Misses hashfn eqfn h.mem k l) : changeLoop eqfn h k v (hash hashfn k) fuel e = some (h, none) := by
  induction l generalizing e fuel with
  | nil =>
    obtain ⟨fuel, rfl⟩ := Nat.exists_eq_add_of_lt hf
    exact if_pos hl
  | cons b l ih =>
    obtain ⟨fuel, rfl⟩ := Nat.exists_eq_add_of_lt hf
    obtain ⟨rfl, h0, y, hy, hl⟩ := hl
    rw [changeLoop, if_neg h0, hy]
    refine (if_neg (hm e List.mem_cons_self y hy)).trans ?_
    exact ih hl (by rw [List.length_cons]; omega) fun c hc => hm c (List.mem_cons_of_mem _ hc)

theorem changeLoop_first {e fuel v : ℕ} (hx : h.mem a = some x) (hmatch : Matches hashfn eqfn k x)
    (hl : Chain Entry.next h.mem e (l ++ a :: r)) (hf : (l ++ a :: r).length < fuel)
    (hm : Misses hashfn eqfn h.mem k l) : changeLoop eqfn h k v (hash hashfn k) fuel e =
      some ({ h with mem := Function.update h.mem a (some { x with v := v }) }, some x.v) := by
  induction l generalizing e fuel with
  | nil =>
    obtain ⟨fuel, rfl⟩ := Nat.exists_eq_add_of_lt hf
    obtain ⟨rfl, h0, -⟩ := hl
    rw [changeLoop, if_neg h0, hx]
    exact if_pos hmatch
  | cons b l ih =>
    obtain ⟨fuel, rfl⟩ := Nat.exists_eq_add_of_lt hf
    obtain ⟨rfl, h0, y, hy, hl⟩ := hl
    rw [changeLoop, if_neg h0, hy]
    refine (if_neg (hm e List.mem_cons_self y hy)).trans ?_
    exact ih hl (by rw [List.cons_append, List.length_cons]; omega) fun c hc => hm c (List.mem_cons_of_mem _ hc)

theorem Represents.revalue (hr : Represents hashfn pmp h S) (hx : h.mem a = some x) (v : ℕ) :
    Represents hashfn pmp { h with mem := Function.update h.mem a (some { x with v := v }) } S := by
  have hentry : ∀ b y, Function.update h.mem a (some { x with v := v }) b = some y →
      ∃ z, h.mem b = some z ∧ z.k = y.k ∧ z.h = y.h := by
    intro b y hy
    by_cases hb : b = a
    · subst hb
      rw [Function.update_self] at hy
      obtain rfl := Option.some.inj hy
      exact ⟨x, hx, rfl, rfl⟩
    · rw [Function.update_of_ne hb] at hy
      exact ⟨y, hy, rfl, rfl⟩
  have hmem : ∀ b, (∃ y, Function.update h.mem a (some { x with v := v }) b = some y) ↔ ∃ y, h.mem b = some y := by
    intro b
    by_cases hb : b = a
    · simp [hb, hx]
    · rw [Function.update_of_ne hb]
  refine ⟨⟨hr.index_lt, hr.size, fun b => (hmem b).trans (hr.mem b), hr.pooled, fun b y hy => ?_, ?_⟩, hr.count⟩
  · obtain ⟨z, hz, hk, hh⟩ := hentry b y hy
    rw [← hh, ← hk, hr.hashed b z hz]
  · exact hr.buckets.relabel (map_update hx rfl) (map_update hx rfl)

theorem replace_append {u w : List (K × ℕ)} {v : ℕ} (hu : ∀ p ∈ u, ¬ eqfn k p.1 = true) :
    Stacks.replace eqfn k v (u ++ w) = u ++ Stacks.replace eqfn k v w := by
  induction u with
  | nil => rfl
  | cons p u ih =>
    rw [List.cons_append, Stacks.replace, if_neg (hu p List.mem_cons_self), ih fun q hq =>
      hu q (List.mem_cons_of_mem _ hq), List.cons_append]

theorem Stacked.change (hst : Stacked h s) (hr : Represents hashfn pmp h S) (k : K) (v : ℕ) :
    ∃ h', hashtableChange hashfn eqfn h k v = some (h', (s.search hashfn eqfn k).map Prod.snd) ∧
      Represents hashfn pmp h' S ∧ Stacked h' (s.change hashfn eqfn k v) := by
  rcases hst.lookup eqfn hr k with ⟨hnone, l, hl, hlen, hmiss⟩ | ⟨l, a, r, x, hl, hlen, hx, hmatch, hmiss, hsome⟩
  · have hsame : s.change hashfn eqfn k v = s := by
      have hreplace := replace_append (w := []) (v := v) hmiss.under
      rw [hst.seen _ l hl, List.append_nil, Stacks.replace, List.append_nil] at hreplace
      rw [Stacks.change, hreplace, Stacks.put, Function.update_eq_self]
    rw [hnone, hsame]
    exact ⟨h, changeLoop_miss hl hlen hmiss, hr, hst⟩
  · rw [hsome]
    refine ⟨_, changeLoop_first hx hmatch hl hlen hmiss, hr.revalue hx v, hst.load, hst.index, hst.total,
      fun hv l' hl' => ?_⟩
    have hchain : Chain Entry.next h.mem (h.table (indexFor h.tablelength hv)) l' := hl'.relabel fun b =>
      (map_update (y := { x with v := v }) hx rfl b).symm
    dsimp only [Stacks.change, Stacks.put]
    by_cases hhv : hv = hash hashfn k
    · subst hhv
      obtain rfl := hchain.unique hl
      have hnd := hl.nodup
      rw [List.nodup_middle, List.nodup_cons] at hnd
      have hkeep : ∀ c, a ∉ c → under (Function.update h.mem a (some { x with v := v })) (hash hashfn k) c =
          under h.mem (hash hashfn k) c := by
        intro c hc
        apply under_congr
        intro b hb
        rw [Function.update_of_ne (ne_of_mem_of_not_mem hb hc)]
      have hself := under_split (m := Function.update h.mem a (some { x with v := v })) (Function.update_self ..) hmatch
        l r
      rw [hself, hkeep l fun hl => hnd.1 (List.mem_append_left _ hl), hkeep r fun hr =>
        hnd.1 (List.mem_append_right _ hr),
        Function.update_self, ← hst.seen _ _ hl, under_split hx hmatch, replace_append hmiss.under, Stacks.replace,
          if_pos hmatch.2]
    · rw [Function.update_of_ne hhv, ← hst.seen hv l' hchain]
      apply under_congr
      intro b _
      by_cases hb : b = a
      · have hne : x.h ≠ hv := fun heq => hhv (heq.symm.trans hmatch.1.symm)
        rw [hb, Function.update_self, hx, Option.bind_some, Option.bind_some, pairUnder, pairUnder, if_neg hne,
          if_neg hne]
      · rw [Function.update_of_ne hb]

/-! ## Runs -/

theorem Stacked.create {minsize : ℕ} (hc : createHashtable K minsize = some h) :
    Stacked h (Stacks.new K h.primeindex) := by
  unfold createHashtable at hc
  split at hc
  · cases hc
  · obtain rfl := Option.some.inj hc
    refine ⟨rfl, rfl, rfl, fun hv l hl => ?_⟩
    cases l with
    | nil => rfl
    | cons b l => exact absurd hl.1.symm hl.2.1

theorem Stacked.step (eqfn : K → K → Bool) (hst : Stacked h s) (hr : Represents hashfn pmp h S) (op : Operation K)
    (ha : ∀ k v, op = .insert k v → Fresh pmp h a) :
    ∃ h' S', op.run hashfn eqfn h a = some (h', (s.step hashfn eqfn op).2) ∧
      Represents hashfn pmp h' S' ∧ Stacked h' (s.step hashfn eqfn op).1 := by
  have hcast : ∀ k, (((s.search hashfn eqfn k).elim 0 Prod.snd : ℕ) : ℤ) = (s.search hashfn eqfn k).elim 0 fun p =>
    (p.2 : ℤ) := by
    intro k
    cases s.search hashfn eqfn k <;> rfl
  cases op with
  | insert k v =>
    have hfresh := ha k v rfl
    have haS : a ∉ S := fun haS => by
      obtain ⟨x, hx⟩ := (hr.mem a).mpr haS
      rw [hfresh.1] at hx
      cases hx
    obtain ⟨h', hrun, hr', -⟩ := hr.insert hfresh k v
    obtain ⟨h₁, hcount, hs₁, hst₁⟩ := hst.countEntry hr
    refine ⟨h', insert a S, by rw [Operation.run, hrun]; rfl, hr', ?_⟩
    rw [hashtableInsert, hcount] at hrun
    rw [← Option.some.inj hrun]
    exact hst₁.push hs₁ haS hfresh.2.ne_zero k v
  | search k =>
    refine ⟨h, S, ?_, hr, hst⟩
    rw [Operation.run, hst.search hr k, Stacks.step, ← hcast]
    rfl
  | remove k =>
    obtain ⟨h', S', hrun, hr', hst'⟩ := hst.remove hr k
    refine ⟨h', S', ?_, hr', hst'⟩
    rw [Operation.run, hrun, Stacks.step, ← hcast]
    rfl
  | change k v =>
    obtain ⟨h', hrun, hr', hst'⟩ := hst.change hr k v
    refine ⟨h', S, ?_, hr', hst'⟩
    rw [Operation.run, hrun, Stacks.step]
    cases s.search hashfn eqfn k <;> rfl

theorem Stacks.replay_append (s : Stacks K) (ops more : List (Operation K)) : s.replay hashfn eqfn (ops ++ more) =
    (((s.replay hashfn eqfn ops).1.replay hashfn eqfn more).1,
      (s.replay hashfn eqfn ops).2 ++ ((s.replay hashfn eqfn ops).1.replay hashfn eqfn more).2) := by
  induction ops generalizing s with
  | nil => rfl
  | cons op ops ih =>
    rw [List.cons_append, replay, ih]
    rfl

theorem Stacks.length_replay (hashfn : K → UInt32) (eqfn : K → K → Bool) (s : Stacks K) (ops : List (Operation K)) :
    (s.replay hashfn eqfn ops).2.length = ops.length := by
  induction ops generalizing s with
  | nil => rfl
  | cons op ops ih => exact congrArg (· + 1) (ih _)

theorem Stacks.remove_insert (hk : eqfn k k = true) (hroom : s.count < loadLimit (primes.getD s.primeindex 0)) (v : ℕ) :
    (s.insert hashfn k v).search hashfn eqfn k = some (k, v) ∧ (s.insert hashfn k v).remove hashfn eqfn k = s := by
  have hinsert : s.insert hashfn k v =
      { s with stack := Function.update s.stack (hash hashfn k) ((k, v) :: s.stack (hash hashfn k)), count :=
        s.count + 1 } := by
    rw [insert, expect]
    dsimp only
    rw [if_neg (by omega)]
    rfl
  have hsearch : (s.insert hashfn k v).search hashfn eqfn k = some (k, v) := by
    rw [hinsert, search]
    dsimp only
    rw [Function.update_self]
    exact List.find?_cons_of_pos hk
  have herase : ((k, v) :: s.stack (hash hashfn k)).eraseP (fun p => eqfn k p.1) = s.stack (hash hashfn k) :=
    List.eraseP_cons_of_pos hk
  refine ⟨hsearch, ?_⟩
  rw [remove, hsearch, hinsert]
  dsimp only [put]
  rw [Function.update_self, herase, Function.update_idem, Function.update_eq_self]
  rfl

theorem Ran.stacked {minsize : ℕ} {h₀ : Hashtable K} {ops : List (Operation K)} {answers : List Answer}
    (hc : createHashtable K minsize = some h₀) (hr : Ran hashfn eqfn pmp h₀ ops h answers) :
    ∃ S, Represents hashfn pmp h S ∧ Stacked h ((Stacks.new K h₀.primeindex).replay hashfn eqfn ops).1 ∧
      answers = ((Stacks.new K h₀.primeindex).replay hashfn eqfn ops).2 := by
  induction hr with
  | start => exact ⟨∅, .create hc, .create hc, rfl⟩
  | call hr ha hop ih =>
    obtain ⟨S, hS, hst, rfl⟩ := ih
    obtain ⟨h', S', hrun, hS', hst'⟩ := hst.step eqfn hS _ ha
    obtain ⟨rfl, rfl⟩ := Prod.mk.inj (Option.some.inj (hrun.symm.trans hop))
    rw [Stacks.replay_append]
    exact ⟨S', hS', hst', rfl⟩

/-- The answers of a table are those of the stacks, in every run: which of two pairs with equal keys is found depends on
nothing but the calls before, and not on where the entries lie. And every call returns. -/
theorem stacks_of_ran {minsize : ℕ} {h₀ : Hashtable K} {ops : List (Operation K)} {answers : List Answer}
    (hc : createHashtable K minsize = some h₀) (hr : Ran hashfn eqfn pmp h₀ ops h answers) :
    answers = ((Stacks.new K h₀.primeindex).replay hashfn eqfn ops).2 ∧
      ∀ op a, (∀ k v, op = .insert k v → Fresh pmp h a) → ∃ h', op.run hashfn eqfn h a =
        some (h', (((Stacks.new K h₀.primeindex).replay hashfn eqfn ops).1.step hashfn eqfn op).2) := by
  obtain ⟨S, hS, hst, hanswers⟩ := hr.stacked hc
  refine ⟨hanswers, fun op a ha => ?_⟩
  obtain ⟨h', S', hrun, -⟩ := hst.step eqfn hS _ ha
  exact ⟨h', hrun⟩

/-- Removing takes back an insertion that did not make the table grow: no later answer tells. -/
theorem insert_remove_undone {minsize : ℕ} {h₀ h₁ h₂ : Hashtable K} {ops more : List (Operation K)}
    {answers answers₁ answers₂ : List Answer} {k : K} {v : ℕ} (hc : createHashtable K minsize = some h₀)
    (hr : Ran hashfn eqfn pmp h₀ ops h answers) (hk : eqfn k k = true) (hroom : h.entrycount < h.loadlimit)
    (hr₁ : Ran hashfn eqfn pmp h₀ (ops ++ .insert k v :: .remove k :: more) h₁ answers₁)
    (hr₂ : Ran hashfn eqfn pmp h₀ (ops ++ more) h₂ answers₂) :
    answers₁ = answers ++ ((-1, none) : Answer) :: ((v, none) : Answer) :: answers₂.drop ops.length := by
  obtain ⟨S, hS, hst, rfl⟩ := hr.stacked hc
  obtain ⟨-, -, -, rfl⟩ := hr₁.stacked hc
  obtain ⟨-, -, -, rfl⟩ := hr₂.stacked hc
  have hlimit : ((Stacks.new K h₀.primeindex).replay hashfn eqfn ops).1.count <
      loadLimit (primes.getD ((Stacks.new K h₀.primeindex).replay hashfn eqfn ops).1.primeindex 0) := by
    rwa [hst.total, hst.index, ← hS.size, ← hst.load]
  obtain ⟨hfound, hback⟩ := Stacks.remove_insert hk hlimit v
  rw [Stacks.replay_append, Stacks.replay_append, Stacks.replay, Stacks.replay, Stacks.step, Stacks.step, hfound, hback,
    ← Stacks.length_replay hashfn eqfn (Stacks.new K h₀.primeindex) ops, List.drop_left]
  rfl

end Operations

theorem ran_onePair : Ran equalHash (· == ·) 65536 emptyTable [.insert 7 1] onePair [(-1, none)] :=
  .call .start (fun _ _ _ => fresh_onePair) rfl

theorem ran_twoPairs :
    Ran equalHash (· == ·) 65536 emptyTable [.insert 7 1, .insert 7 2] twoPairs [(-1, none), (-1, none)] :=
  .call ran_onePair (fun _ _ _ => fresh_twoPairs) rfl

theorem stacks_of_ran_twoPairs : ∃ h, Operation.run equalHash (· == ·) twoPairs 0 (.search 7) = some (h, 2, none) :=
  (stacks_of_ran create_emptyTable ran_twoPairs).2 (.search 7) 0 fun _ _ hop => by cases hop

theorem insert_remove_undone_onePair : ∃ h, Ran equalHash (· == ·) 65536 emptyTable
    [.insert 7 1, .insert 7 2, .remove 7, .search 7] h [(-1, none), (-1, none), (2, none), (1, none)] := by
  have hsearch : Ran equalHash (· == ·) 65536 emptyTable [.insert 7 1, .search 7] onePair [(-1, none), (1, none)] :=
    .call (a := 0) ran_onePair (fun _ _ hop => by cases hop) rfl
  have hremove : ∃ h answers, Ran equalHash (· == ·) 65536 emptyTable
      ([.insert 7 1, .insert 7 2, .remove 7] ++ [.search 7]) h answers :=
    ⟨_, _, .call (a := 0) (.call (a := 0) ran_twoPairs (fun _ _ hop => by cases hop) rfl) (fun _ _ hop => by cases hop)
      rfl⟩
  obtain ⟨h, answers, hr⟩ := hremove
  have hundone := insert_remove_undone create_emptyTable ran_onePair rfl (by decide) hr hsearch
  rw [hundone] at hr
  exact ⟨h, hr⟩

end PmemExamples.CHashtable
