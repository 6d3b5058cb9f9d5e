import PmemExamples.CHashtable.Iterator

/-! # Searching with an iterator

`hashtable_iterator_search` puts an iterator where a walk would have brought it, so that it can walk on, and remove,
from there. -/

namespace PmemExamples.CHashtable
open Linked
set_option autoImplicit false

section Code
variable {K : Type} (hashfn : K → UInt32) (eqfn : K → K → Bool)

/-- The loop of `hashtable_iterator_search`: what it returns, and the iterator. -/
def iteratorSearchLoop (m : ℕ → Option (Entry K)) (itr : HashtableItr) (k : K) (hashvalue : UInt32) (index : ℕ) :
    ℕ → ℕ → ℕ → Option (ℤ × HashtableItr)
  | 0, _, _ => none
  | fuel + 1, e, parent =>
    if e = 0 then some (0, itr)
    else do
      let x ← m e
      if hashvalue = x.h ∧ eqfn k x.k then some (-1, ⟨e, parent, index⟩)
      else iteratorSearchLoop m itr k hashvalue index fuel x.next e

def hashtableIteratorSearch (h : Hashtable K) (itr : HashtableItr) (k : K) : Option (ℤ × HashtableItr) :=
  let hashvalue := hash hashfn k
  let index := indexFor h.tablelength hashvalue
  iteratorSearchLoop eqfn h.mem itr k hashvalue index chainFuel (h.table index) 0

end Code

/-! ## Searching -/

section Search
variable {K : Type} {hashfn : K → UInt32} {eqfn : K → K → Bool} {pmp : ℕ} {h : Hashtable K} {S : Finset ℕ}
  {cs : ℕ → List ℕ} {k : K} {itr : HashtableItr} {m : ℕ → Option (Entry K)} {l r : List ℕ} {a index : ℕ} {x : Entry K}
  {keyptr : K → ℕ} {blocks : Finset ℕ}

theorem iteratorSearchLoop_miss {e fuel parent : ℕ} (hl : Chain Entry.next m e l) (hf : l.length < fuel)
    (hm : Misses hashfn eqfn m k l) :
    iteratorSearchLoop eqfn m itr k (hash hashfn k) index fuel e parent = some (0, itr) := by
  induction l generalizing e fuel parent with
  | nil =>
    obtain ⟨fuel, rfl⟩ := Nat.exists_eq_add_of_lt hf
    exact if_pos hl
  | cons b l ih =>
    obtain ⟨fuel, rfl⟩ := Nat.exists_eq_add_of_lt hf
    obtain ⟨rfl, h0, y, hy, hl⟩ := hl
    rw [iteratorSearchLoop, if_neg h0, hy]
    refine (if_neg (hm e List.mem_cons_self y hy)).trans ?_
    exact ih hl (by rw [List.length_cons]; omega) fun c hc => hm c (List.mem_cons_of_mem _ hc)

theorem getLast?_cons_getD (b : ℕ) (l : List ℕ) (parent : ℕ) :
    (l.getLast?).getD b = ((b :: l).getLast?).getD parent := by
  cases l with
  | nil => rfl
  | cons c l => rw [List.getLast?_cons_cons, List.getLast?_eq_getLast_of_ne_nil (List.cons_ne_nil c l)]; rfl

theorem iteratorSearchLoop_first {e fuel parent : ℕ} (hx : m a = some x) (hmatch : Matches hashfn eqfn k x)
    (hl : Chain Entry.next m e (l ++ a :: r)) (hf : (l ++ a :: r).length < fuel) (hm : Misses hashfn eqfn m k l) :
    iteratorSearchLoop eqfn m itr k (hash hashfn k) index fuel e parent = some (-1,
    ⟨a, (l.getLast?).getD parent, index⟩) := by
  induction l generalizing e fuel parent with
  | nil =>
    obtain ⟨fuel, rfl⟩ := Nat.exists_eq_add_of_lt hf
    obtain ⟨rfl, h0, -⟩ := hl
    rw [iteratorSearchLoop, if_neg h0, hx]
    exact if_pos hmatch
  | cons b l ih =>
    obtain ⟨fuel, rfl⟩ := Nat.exists_eq_add_of_lt hf
    obtain ⟨rfl, h0, y, hy, hl⟩ := hl
    rw [iteratorSearchLoop, if_neg h0, hy]
    refine (if_neg (hm e List.mem_cons_self y hy)).trans ?_
    rw [← getLast?_cons_getD]
    exact ih hl (by rw [List.cons_append, List.length_cons]; omega) fun c hc => hm c (List.mem_cons_of_mem _ hc)

/-! ## Where a walk would be -/

theorem position_split (itr : HashtableItr) {n : ℕ} {pre suf seen : List ℕ} (hi : itr.index < n)
    (hcs : cs itr.index = pre ++ itr.e :: suf)
    (hseen : seen = (List.range itr.index).flatMap cs ++ pre) : (List.range n).flatMap cs =
      seen ++ itr.e :: (suf ++ ((List.range n).drop (itr.index + 1)).flatMap cs) := by
  conv_lhs => rw [← List.take_append_drop (itr.index + 1) (List.range n)]
  rw [List.take_range, Nat.min_eq_left hi, List.range_succ, List.flatMap_append, List.flatMap_append,
    List.flatMap_singleton, hcs, hseen]
  simp only [List.append_assoc, List.cons_append]

theorem Walking.next {h' : Hashtable K} {past : List (ℕ × Move)} {e : ℕ} {rest : List ℕ} (hk : Walking h cs h' itr past)
    (horder : (List.range h.tablelength).flatMap cs = past.map Prod.fst ++ e :: rest) :
    itr.e = e ∧ ∃ pre suf, itr.index < h.tablelength ∧ cs itr.index = pre ++ itr.e :: suf ∧
      itr.parent = ((pre.filter (· ∉ removed past)).getLast?).getD 0 ∧
      past.map Prod.fst = (List.range itr.index).flatMap cs ++ pre := by
  rcases hk.position with ⟨-, hseen⟩ | ⟨pre, suf, hi, hcs, hparent, hseen⟩
  · rw [← hseen, List.self_eq_append_right] at horder
    cases horder
  · have hsplit := position_split itr hi hcs hseen
    rw [horder, List.append_cancel_left_eq, List.cons.injEq] at hsplit
    exact ⟨hsplit.1.symm, pre, suf, hi, hcs, hparent, hseen⟩

theorem Walking.advances (keyptr : K → ℕ) (blocks : Finset ℕ) (hw : WellFormed h S) (hc : Chains h S cs)
    (past rest : List ℕ) (horder : (List.range h.tablelength).flatMap cs = past ++ rest) :
    ∃ itr, Iterates keyptr (FreesBlocks keyptr) h blocks h blocks itr (past.map fun e => (e, .advance)) := by
  induction past using List.reverseRecOn generalizing rest with
  | nil => exact ⟨_, .start⟩
  | append_singleton past e ih =>
    rw [List.append_assoc, List.singleton_append] at horder
    obtain ⟨itr, hi⟩ := ih (e :: rest) horder
    have hk := hi.walking hw hc fun _ _ _ _ => id
    obtain ⟨he, pre, suf, hlt, hcs, -⟩ :=
      hk.next (by simpa only [List.map_map, Function.comp_def, List.map_id'] using horder)
    have h0 : itr.e ≠ 0 := ((hc.chain _ hlt).node (by rw [hcs]; exact List.mem_append_right _ List.mem_cons_self)).1
    obtain ⟨ret, itr', hrun, -, -⟩ := hk.advance hw hc h0
    refine ⟨itr', ?_⟩
    rw [List.map_append, List.map_singleton, ← he]
    have hcall : Move.advance.call keyptr h blocks itr = some (ret, h, blocks, itr') := by
      rw [Move.call, hrun]
      rfl
    exact .step hi h0 (fun hmv => by cases hmv) hcall

theorem removed_advances (past : List ℕ) : removed (past.map fun e => (e, .advance)) = [] := by
  induction past with
  | nil => rfl
  | cons e past ih => exact ih

theorem Walking.reaches (keyptr : K → ℕ) (blocks : Finset ℕ) (hw : WellFormed h S) (hc : Chains h S cs) {i : ℕ}
    (hi : i < h.tablelength) (hcs : cs i = l ++ a :: r) :
    Iterates keyptr (FreesBlocks keyptr) h blocks h blocks ⟨a, (l.getLast?).getD 0, i⟩
      (((List.range i).flatMap cs ++ l).map fun e => (e, .advance)) := by
  have hsplit := position_split ⟨a, 0, i⟩ hi hcs rfl
  obtain ⟨itr, hit⟩ := Walking.advances keyptr blocks hw hc _ _ hsplit
  have hpast : (((List.range i).flatMap cs ++ l).map fun e => (e, Move.advance)).map Prod.fst = (List.range i).flatMap
    cs ++ l := by
    rw [List.map_map]
    exact List.map_id' _
  obtain ⟨he, pre, suf, hlt, hcs', hparent, hseen⟩ :=
    (hit.walking hw hc fun _ _ _ _ => id).next (hpast.symm ▸ hsplit)
  have hindex : itr.index = i := by
    by_contra hne
    refine hc.disjoint _ hlt i hi hne (a := a) ?_ ?_
    · rw [hcs', he]
      exact List.mem_append_right _ List.mem_cons_self
    · rw [hcs]
      exact List.mem_append_right _ List.mem_cons_self
  rw [hpast, hindex, List.append_cancel_left_eq] at hseen
  rw [removed_advances, filter_eq_of_fresh (fun _ _ => List.not_mem_nil), ← hseen] at hparent
  obtain ⟨e, parent, index⟩ := itr
  obtain rfl : e = a := he
  obtain rfl : index = i := hindex
  obtain rfl : parent = (l.getLast?).getD 0 := hparent
  exact hit

theorem Slot.assign_none {s : Slot} {v b : ℕ} {h₁ : Hashtable K} (ha : s.assign h v = some h₁) (hb : h.mem b = none) :
    h₁.mem b = none := by
  cases s with
  | table i =>
    obtain rfl := Option.some.inj ha
    exact hb
  | next e =>
    obtain ⟨y, hy, hrest⟩ := Option.bind_eq_some_iff.mp ha
    obtain rfl := Option.some.inj hrest
    refine (Function.update_of_ne ?_ _ _).trans hb
    rintro rfl
    rw [hy] at hb
    cases hb

theorem iteratorRemove_eq (h0 : ∀ b ∈ l, b ≠ 0) (ha : a ≠ 0) (hx : h.mem a = some x) {i : ℕ} {h' : Hashtable K} {ret : ℤ}
    {itr' : HashtableItr} {blocks' : Finset ℕ} (hkey : keyptr x.k = 0 ∨ h.mem (keyptr x.k) = none)
    (hrun : hashtableIteratorRemove keyptr h blocks ⟨a, (l.getLast?).getD 0, i⟩ = some (ret, h', blocks', itr')) :
    (do
      let h ← (slotAfter (.table i) l).assign h x.next
      some ({ h with
        entrycount := (h.entrycount + (2 ^ 32 - 1)) % 2 ^ 32
        mem := Function.update h.mem a none }, x.v)) = some (h', x.v) := by
  have hslot : slotAfter (.table i) l =
      if (l.getLast?).getD 0 = 0 then Slot.table i else Slot.next ((l.getLast?).getD 0) := by
    rcases List.eq_nil_or_concat l with rfl | ⟨l', b, rfl⟩
    · rfl
    · rw [slotAfter, List.concat_eq_append, List.getLast?_concat]
      exact (if_neg (h0 b (by simp))).symm
  rw [hashtableIteratorRemove, hx] at hrun
  rw [hslot]
  obtain ⟨y, hy, hrest⟩ := Option.bind_eq_some_iff.mp hrun
  obtain rfl := Option.some.inj hy
  obtain ⟨h₁, hassign, hrest⟩ := Option.bind_eq_some_iff.mp hrest
  obtain ⟨⟨blocks₁, m₁⟩, hfirst, hrest⟩ := Option.bind_eq_some_iff.mp hrest
  obtain ⟨res, -, hrest⟩ := Option.bind_eq_some_iff.mp hrest
  obtain ⟨⟨blocks₂, m₂⟩, hsecond, hres⟩ := Option.bind_eq_some_iff.mp hrest
  dsimp only at hassign hfirst hsecond
  -- neither the key nor a null pointer is an entry
  have hm₁ : m₁ = h₁.mem := by
    rw [free] at hfirst
    split at hfirst
    · exact (Prod.mk.inj (Option.some.inj hfirst)).2.symm
    · next hne =>
      split at hfirst
      · rw [← (Prod.mk.inj (Option.some.inj hfirst)).2, Function.update_eq_self_iff]
        exact (Slot.assign_none hassign (hkey.resolve_left hne)).symm
      · cases hfirst
  have hm₂ : m₂ = Function.update h₁.mem a none := by
    rw [hm₁, free, if_neg ha] at hsecond
    split at hsecond
    · exact (Prod.mk.inj (Option.some.inj hsecond)).2.symm
    · cases hsecond
  have hh := (Prod.mk.inj (Prod.mk.inj (Option.some.inj hres)).2).1
  rw [hassign, ← hh, hm₂]
  rfl

/-- Searching with an iterator, wherever it was, finds what `hashtable_search` finds. It puts the iterator where one
that only advances comes to, so that it can go on from there, and removing blocks of `malloc` there makes the table
that `hashtable_remove` makes. -/
theorem iteratorSearch_walks (heq : ∀ k k', eqfn k k' = true → hashfn k = hashfn k') {minsize : ℕ}
    {ins rem : Multiset (K × ℕ)} (hr : Reached hashfn eqfn pmp minsize h ins rem) (itr₀ : HashtableItr) (k : K)
    (keyptr : K → ℕ) (blocks : Finset ℕ) :
    (hashtableIteratorSearch hashfn eqfn h itr₀ k = some (0, itr₀) ∧ ∀ a x, h.mem a = some x → eqfn k x.k = false) ∨
    ∃ a x itr past, First hashfn eqfn h k a x ∧ hashtableIteratorSearch hashfn eqfn h itr₀ k = some (-1, itr) ∧
    itr.e = a ∧ Iterates keyptr (FreesBlocks keyptr) h blocks h blocks itr past ∧ (∀ s ∈ past, s.2 = .advance) ∧
      (FreesBlocks keyptr h blocks itr .remove → ∃ ret h' blocks' itr',
        hashtableIteratorRemove keyptr h blocks itr = some (ret, h', blocks', itr') ∧
        hashtableRemove hashfn eqfn h k = some (h', x.v)) := by
  obtain ⟨S, hS, -⟩ := hr.represents heq
  have hi := indexFor_lt hS.tablelength_pos (hash hashfn k)
  rcases hS.first_or_none heq k with ⟨a, x, hf⟩ | hnone
  · obtain ⟨cs, hc⟩ := hS.wellFormed.chains
    obtain ⟨hx, hmatch, l, r, hl, hmiss⟩ := id hf
    have hlen := hS.length_lt hi hl
    have hcs := (hc.chain _ hi).unique hl
    have ha : a ≠ 0 := (hl.node (by simp)).1
    have hwalk := Walking.reaches keyptr blocks hS.wellFormed hc hi hcs
    refine Or.inr ⟨a, x, _, _, hf, iteratorSearchLoop_first hx hmatch hl hlen hmiss, rfl, hwalk, ?_, fun hfree => ?_⟩
    · intro s hs
      obtain ⟨e, -, rfl⟩ := List.mem_map.mp hs
      rfl
    · obtain ⟨ret, h', blocks', itr', hrun, -⟩ :=
        (hwalk.walking hS.wellFormed hc fun _ _ _ _ => id).remove hS.wellFormed hc ha hfree
      obtain ⟨y, hy, -, hkey⟩ := hfree rfl
      obtain rfl := Option.some.inj (hx.symm.trans hy)
      refine ⟨ret, h', blocks', itr', hrun, (removeLoop_first hx hmatch hl hlen hmiss).trans ?_⟩
      exact iteratorRemove_eq (fun b hb => (hl.node (List.mem_append_left _ hb)).1) ha hx (hkey.imp_right And.right) hrun
  · obtain ⟨l, hl, -⟩ := hS.buckets _ hi
    refine Or.inl ⟨iteratorSearchLoop_miss hl (hS.length_lt hi hl) ?_, hnone⟩
    intro b _ y hy hmatch
    exact absurd hmatch.2 (by rw [hnone b y hy]; decide)

end Search

theorem iteratorSearch_walks_twoPairs : ∃ itr past,
    hashtableIteratorSearch equalHash (· == ·) twoPairs ⟨0, 0, 53⟩ 7 = some (-1, itr) ∧
    Iterates (4096 + 64 * ·) (FreesBlocks (4096 + 64 * ·)) twoPairs {4544} twoPairs {4544} itr past ∧
    ∀ s ∈ past, s.2 = .advance := by
  rcases iteratorSearch_walks (fun _ _ _ => rfl) reached_twoPairs ⟨0, 0, 53⟩ 7 (4096 + 64 * ·) {4544} with
    ⟨-, hnone⟩ | ⟨a, x, itr, past, -, hrun, -, hwalk, hadvance, -⟩
  · exact absurd (hnone 65664 _ rfl) (by decide)
  · exact ⟨itr, past, hrun, hwalk, hadvance⟩

end PmemExamples.CHashtable
