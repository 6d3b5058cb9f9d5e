import PmemExamples.CHashtable.Multimap

/-! # Iterators (`c-hashtable/hashtable_itr.c`)

An iterator walks the buckets, and the chain of each. `Walked` is what the table is when some entries have been
passed, and removed in passing: every chain lacks those, and is otherwise as it was (`iterator_visits`). -/

namespace PmemExamples.CHashtable
open Linked
set_option autoImplicit false

/-- `struct hashtable_itr`, without the table. -/
structure HashtableItr where
  e : ℕ
  parent : ℕ
  index : ℕ

section Code
variable {K : Type}

/-- The first bucket from `i` on that is not empty, in so many rounds: the `for` loop of the constructor, and the
`while` loop of `hashtable_iterator_advance`. -/
def nextBucket (h : Hashtable K) : ℕ → ℕ → HashtableItr
  | 0, _ => ⟨0, 0, h.tablelength⟩
  | rounds + 1, i => if h.table i ≠ 0 then ⟨h.table i, 0, i⟩ else nextBucket h rounds (i + 1)

def hashtableIterator (h : Hashtable K) : HashtableItr :=
  if h.entrycount = 0 then ⟨0, 0, h.tablelength⟩ else nextBucket h h.tablelength 0

/-- `hashtable_iterator_advance`: what it returns, and the iterator. -/
def hashtableIteratorAdvance (h : Hashtable K) (itr : HashtableItr) : Option (ℤ × HashtableItr) :=
  if itr.e = 0 then some (0, itr)
  else do
    let x ← h.mem itr.e
    if x.next ≠ 0 then some (-1, { itr with parent := itr.e, e := x.next })
    else
      let j := (itr.index + 1) % 2 ^ 32
      if h.tablelength ≤ j then some (0, ⟨0, 0, j⟩)
      else
        let itr := nextBucket h (h.tablelength - j) j
        some (if itr.e = 0 then 0 else -1, itr)

/-- `free`, with the blocks that `malloc` has handed out: undefined for a pointer that is neither null nor one of
them. What lay in the block is gone. -/
def free (blocks : Finset ℕ) (m : ℕ → Option (Entry K)) (ptr : ℕ) : Option (Finset ℕ × (ℕ → Option (Entry K))) :=
  if ptr = 0 then some (blocks, m)
  else if ptr ∈ blocks then some (blocks.erase ptr, Function.update m ptr none) else none

/-- `hashtable_iterator_remove`; `keyptr` is the pointer to a key. -/
def hashtableIteratorRemove (keyptr : K → ℕ) (h : Hashtable K) (blocks : Finset ℕ) (itr : HashtableItr) :
    Option (ℤ × Hashtable K × Finset ℕ × HashtableItr) := do
  let x ← h.mem itr.e
  let h ← (if itr.parent = 0 then Slot.table itr.index else Slot.next itr.parent).assign h x.next
  let h := { h with entrycount := (h.entrycount + (2 ^ 32 - 1)) % 2 ^ 32 }
  -- `freekey`
  let (blocks, m) ← free blocks h.mem (keyptr x.k)
  let h := { h with mem := m }
  let (ret, itr') ← hashtableIteratorAdvance h itr
  -- "correcting the parent"
  let itr' := if itr'.parent = itr.e then { itr' with parent := itr.parent } else itr'
  let (blocks, m) ← free blocks h.mem itr.e
  some (ret, { h with mem := m }, blocks, itr')

/-- A call on an iterator. -/
inductive Move where
  | advance
  | remove
  deriving DecidableEq

def Move.call (keyptr : K → ℕ) (h : Hashtable K) (blocks : Finset ℕ) (itr : HashtableItr) :
    Move → Option (ℤ × Hashtable K × Finset ℕ × HashtableItr)
  | .advance => do
    let (ret, itr) ← hashtableIteratorAdvance h itr
    some (ret, h, blocks, itr)
  | .remove => hashtableIteratorRemove keyptr h blocks itr

/-- The tables, blocks and iterators reached from a new iterator by calls made under the condition `cond`, as long as
there is a current entry, with the entries passed and how. -/
inductive Iterates (keyptr : K → ℕ) (cond : Hashtable K → Finset ℕ → HashtableItr → Move → Prop) (h₀ : Hashtable K)
    (blocks₀ : Finset ℕ) : Hashtable K → Finset ℕ → HashtableItr → List (ℕ × Move) → Prop
  | start : Iterates keyptr cond h₀ blocks₀ h₀ blocks₀ (hashtableIterator h₀) []
  | step {h h' : Hashtable K} {blocks blocks' : Finset ℕ} {itr itr' : HashtableItr} {past : List (ℕ × Move)} {ret : ℤ}
      {mv : Move} (hi : Iterates keyptr cond h₀ blocks₀ h blocks itr past) (he : itr.e ≠ 0)
      (hmv : cond h blocks itr mv) (hc : mv.call keyptr h blocks itr = some (ret, h', blocks', itr')) :
      Iterates keyptr cond h₀ blocks₀ h' blocks' itr' (past ++ [(itr.e, mv)])

/-- Where the current entry is to be removed, it is a block of `malloc`, and so is its key, if it has one, and that is
no entry. -/
def FreesBlocks (keyptr : K → ℕ) (h : Hashtable K) (blocks : Finset ℕ) (itr : HashtableItr) (mv : Move) : Prop :=
  mv = .remove → ∃ x, h.mem itr.e = some x ∧ itr.e ∈ blocks ∧
    (keyptr x.k = 0 ∨ keyptr x.k ∈ blocks ∧ h.mem (keyptr x.k) = none)

/-- The entries at which `hashtable_iterator_remove` was called. -/
def removed (past : List (ℕ × Move)) : List ℕ := (past.filter fun s => s.2 = .remove).map Prod.fst

/-- A table of which the entries at `S` are sorted into the buckets, and counted. -/
structure WellFormed (h : Hashtable K) (S : Finset ℕ) : Prop where
  pos : 0 < h.tablelength
  length_lt : h.tablelength < 2 ^ 32
  mem : ∀ a ∈ S, ∃ x, h.mem a = some x
  buckets : Buckets Entry.next (fun x => indexFor h.tablelength x.h) h.mem h.tablelength h.table S
  count : h.entrycount = S.card
  count_lt : h.entrycount < 2 ^ 32

/-- `parent` is null at the head of the bucket `index`, and elsewhere the entry before the current one. -/
def Placed (h : Hashtable K) (itr : HashtableItr) : Prop :=
  itr.index < h.tablelength ∧ (h.table itr.index = itr.e ∧ itr.parent = 0 ∨
    ∃ l r, Chain Entry.next h.mem (h.table itr.index) (l ++ itr.parent :: itr.e :: r))

end Code

section Walk
variable {K : Type} {h h₀ : Hashtable K} {itr : HashtableItr} {S : Finset ℕ} {cs : ℕ → List ℕ} {past : List (ℕ × Move)}
  {keyptr : K → ℕ} {blocks blocks₀ : Finset ℕ} {cond : Hashtable K → Finset ℕ → HashtableItr → Move → Prop}

/-- The chains of a table, and all its entries in the order of the walk. -/
structure Chains (h : Hashtable K) (S : Finset ℕ) (cs : ℕ → List ℕ) : Prop where
  chain : ∀ i < h.tablelength, Chain Entry.next h.mem (h.table i) (cs i)
  disjoint : ∀ i < h.tablelength, ∀ j < h.tablelength, i ≠ j → List.Disjoint (cs i) (cs j)
  all : ∀ a, a ∈ (List.range h.tablelength).flatMap cs ↔ a ∈ S

theorem WellFormed.chains (hw : WellFormed h S) : ∃ cs, Chains h S cs := by
  choose! cs hchain hmem using hw.buckets
  refine ⟨cs, hchain, fun i hi j hj hij a hai haj => hij ?_, fun a => ?_⟩
  · obtain ⟨-, x, hx, rfl⟩ := (hmem i hi a).mp hai
    obtain ⟨-, y, hy, rfl⟩ := (hmem j hj a).mp haj
    rw [Option.some.inj (hx.symm.trans hy)]
  · rw [List.mem_flatMap]
    constructor
    · rintro ⟨i, hi, ha⟩
      exact ((hmem i (List.mem_range.mp hi) a).mp ha).1
    · intro ha
      obtain ⟨x, hx⟩ := hw.mem a ha
      have hi := indexFor_lt hw.pos x.h
      exact ⟨_, List.mem_range.mpr hi, (hmem _ hi a).mpr ⟨ha, x, hx, rfl⟩⟩

theorem Chains.nodup (hc : Chains h S cs) : ((List.range h.tablelength).flatMap cs).Nodup := by
  rw [List.nodup_flatMap]
  refine ⟨fun i hi => (hc.chain i (List.mem_range.mp hi)).nodup, ?_⟩
  refine (List.nodup_range).imp_of_mem fun hi hj hij => ?_
  exact hc.disjoint _ (List.mem_range.mp hi) _ (List.mem_range.mp hj) hij

/-- What the walk has made of the table `h₀` with the chains `cs`, where it has removed the entries `R`. -/
structure Walked (h₀ : Hashtable K) (cs : ℕ → List ℕ) (R : List ℕ) (h : Hashtable K) : Prop where
  length : h.tablelength = h₀.tablelength
  chain : ∀ i < h₀.tablelength, Chain Entry.next h.mem (h.table i) ((cs i).filter (· ∉ R))
  gone : ∀ a ∈ R, h.mem a = none
  kept : ∀ a ∉ R, (h.mem a).map Entry.data = (h₀.mem a).map Entry.data
  count : h.entrycount + R.length = h₀.entrycount

/-- Where the iterator is when it has passed the entries `seen`. -/
def Position (n : ℕ) (cs : ℕ → List ℕ) (R : List ℕ) (itr : HashtableItr) (seen : List ℕ) : Prop :=
  itr.e = 0 ∧ seen = (List.range n).flatMap cs ∨ ∃ pre suf, itr.index < n ∧ cs itr.index = pre ++ itr.e :: suf ∧
    itr.parent = ((pre.filter (· ∉ R)).getLast?).getD 0 ∧ seen = (List.range itr.index).flatMap cs ++ pre

theorem nextBucket_spec {table : ℕ → ℕ} {n : ℕ} {R : List ℕ} (ht : h.table = table) (hn : h.tablelength = n) :
    ∀ (rounds i : ℕ), i + rounds = n → (∀ j < n, i ≤ j → Chain Entry.next h.mem (table j) (cs j)) →
      Position n cs R (nextBucket h rounds i) ((List.range i).flatMap cs)
  | 0, i, hi, _ => Or.inl ⟨rfl, by rw [← hi, Nat.add_zero]⟩
  | rounds + 1, i, hi, hc => by
    have hci := hc i (by omega) (le_refl i)
    rw [nextBucket, ht]
    by_cases h0 : table i = 0
    · rw [if_neg (not_not.mpr h0)]
      have hnil : cs i = [] := by
        cases hcs : cs i with
        | nil => rfl
        | cons b l =>
          rw [hcs] at hci
          exact absurd (hci.1.symm.trans h0) hci.2.1
      have hnext := nextBucket_spec (R := R) ht hn rounds (i + 1) (by omega) fun j hj hij => hc j hj (by omega)
      rw [List.range_succ, List.flatMap_append, List.flatMap_singleton, hnil, List.append_nil] at hnext
      exact hnext
    · rw [if_pos h0]
      cases hcs : cs i with
      | nil =>
        rw [hcs] at hci
        exact absurd hci h0
      | cons b l =>
        rw [hcs] at hci
        exact Or.inr ⟨[], l, by dsimp only; omega, by dsimp only; rw [hcs, hci.1]; rfl, rfl, by simp⟩

theorem nextBucket_parent : ∀ rounds i, (nextBucket h rounds i).parent = 0
  | 0, _ => rfl
  | rounds + 1, i => by
    rw [nextBucket]
    split
    · rfl
    · exact nextBucket_parent rounds (i + 1)

/-- What is known of the current entry of a walk: it is in its chain, and no entry from it on has been removed. -/
structure Current (h : Hashtable K) (n : ℕ) (cs : ℕ → List ℕ) (R : List ℕ) (itr : HashtableItr) (pre suf : List ℕ)
    (x : Entry K) : Prop where
  ne_zero : itr.e ≠ 0
  index_lt : itr.index < n
  split : cs itr.index = pre ++ itr.e :: suf
  here : h.mem itr.e = some x
  chain : Chain Entry.next h.mem (h.table itr.index) (pre.filter (· ∉ R) ++ itr.e :: suf)
  rest : Chain Entry.next h.mem x.next suf
  fresh : ∀ a ∈ itr.e :: suf, a ∉ R
  later : ∀ j < n, itr.index < j → ∀ a ∈ cs j, a ∉ R

theorem filter_eq_of_fresh {R l : List ℕ} (h : ∀ a ∈ l, a ∉ R) : l.filter (· ∉ R) = l := by
  rw [List.filter_eq_self]
  simpa using h

theorem Walked.current {R seen pre suf : List ℕ} (hc : Chains h₀ S cs) (hk : Walked h₀ cs R h) (hR : R.Sublist seen)
    (hi : itr.index < h₀.tablelength) (hcs : cs itr.index = pre ++ itr.e :: suf)
    (hseen : seen = (List.range itr.index).flatMap cs ++ pre) : ∃ x, Current h h₀.tablelength cs R itr pre suf x := by
  have hfirst : ∀ a ∈ R, (∃ j < itr.index, a ∈ cs j) ∨ a ∈ pre := by
    intro a ha
    have has := hR.subset ha
    rw [hseen, List.mem_append, List.mem_flatMap] at has
    exact has.imp_left fun ⟨j, hj, haj⟩ => ⟨j, List.mem_range.mp hj, haj⟩
  have hnd := (hc.chain _ hi).nodup
  rw [hcs, List.nodup_append] at hnd
  have hfresh : ∀ a ∈ itr.e :: suf, a ∉ R := by
    intro a ha haR
    rcases hfirst a haR with ⟨j, hj, haj⟩ | hpre
    · exact hc.disjoint j (by omega) _ hi (by omega) haj (hcs ▸ List.mem_append_right _ ha)
    · exact hnd.2.2 a hpre a ha rfl
  have hchain := hk.chain _ hi
  rw [hcs, List.filter_append, filter_eq_of_fresh hfresh] at hchain
  obtain ⟨-, h0, x, hx, hrest⟩ := hchain.suffix
  refine ⟨x, h0, hi, hcs, hx, hchain, hrest, hfresh, fun j hj hij a ha haR => ?_⟩
  rcases hfirst a haR with ⟨j', hj', haj⟩ | hpre
  · exact hc.disjoint j' (by omega) j hj (by omega) haj ha
  · exact hc.disjoint _ hi j hj (by omega) (hcs ▸ List.mem_append_left _ hpre) ha

/-- `hashtable_iterator_advance` goes to the next entry of the chain, or to that of a later bucket. -/
theorem advance_spec {n : ℕ} {suf : List ℕ} {x : Entry K} (he : itr.e ≠ 0) (hx : h.mem itr.e = some x)
    (hn : h.tablelength = n) (hlt : n < 2 ^ 32) (hi : itr.index < n) (hsuf : Chain Entry.next h.mem x.next suf)
    (hlater : ∀ j < n, itr.index + 1 ≤ j → Chain Entry.next h.mem (h.table j) (cs j)) :
    ∃ ret itr', hashtableIteratorAdvance h itr = some (ret, itr') ∧ (ret = 0 ↔ itr'.e = 0) ∧
      ((∃ b suf', suf = b :: suf' ∧ itr' = ⟨b, itr.e, itr.index⟩) ∨
        suf = [] ∧ itr'.parent = 0 ∧ ∀ R, Position n cs R itr' ((List.range (itr.index + 1)).flatMap cs)) := by
  rw [hashtableIteratorAdvance, if_neg he, hx]
  cases suf with
  | cons b suf' =>
    obtain ⟨hb, h0, -⟩ := hsuf
    rw [← hb] at h0
    refine ⟨-1, ⟨b, itr.e, itr.index⟩, ?_, by simpa using hb ▸ h0, Or.inl ⟨b, suf', rfl, rfl⟩⟩
    show (if x.next ≠ 0 then _ else _) = _
    rw [if_pos h0, hb]
  | nil =>
    have h0 : x.next = 0 := hsuf
    have hj : (itr.index + 1) % 2 ^ 32 = itr.index + 1 := Nat.mod_eq_of_lt (by omega)
    have hstep : ∀ res, (if h.tablelength ≤ itr.index + 1 then some (0, ⟨0, 0, itr.index + 1⟩)
        else
          let itr' := nextBucket h (h.tablelength - (itr.index + 1)) (itr.index + 1)
          some (if itr'.e = 0 then 0 else -1, itr')) = some res →
        (do
          let x ← some x
          if x.next ≠ 0 then some (-1, { itr with parent := itr.e, e := x.next })
          else
            let j := (itr.index + 1) % 2 ^ 32
            if h.tablelength ≤ j then some (0, ⟨0, 0, j⟩)
            else
              let itr := nextBucket h (h.tablelength - j) j
              some (if itr.e = 0 then 0 else -1, itr) : Option (ℤ × HashtableItr)) = some res := by
      intro res hres
      show (if x.next ≠ 0 then _ else _) = _
      rw [if_neg (not_not.mpr h0), hj]
      exact hres
    by_cases hend : n ≤ itr.index + 1
    · refine ⟨0, ⟨0, 0, itr.index + 1⟩,
        hstep _ (if_pos (hn ▸ hend)), by simp, Or.inr ⟨rfl, rfl, fun R => Or.inl ⟨rfl, ?_⟩⟩⟩
      rw [show n = itr.index + 1 by omega]
    · have hnext := fun R => nextBucket_spec (R := R) (h := h) rfl hn (n - (itr.index + 1)) (itr.index + 1)
        (by omega) hlater
      refine ⟨_, _, hstep _ (by rw [if_neg (hn ▸ hend), hn]), ?_, Or.inr ⟨rfl, nextBucket_parent _ _, hnext⟩⟩
      by_cases he' : (nextBucket h (n - (itr.index + 1)) (itr.index + 1)).e = 0 <;> simp [he']

/-- A walk: the table, and the place of the iterator. -/
structure Walking (h₀ : Hashtable K) (cs : ℕ → List ℕ) (h : Hashtable K) (itr : HashtableItr) (past : List (ℕ × Move)) :
    Prop where
  walked : Walked h₀ cs (removed past) h
  position : Position h₀.tablelength cs (removed past) itr (past.map Prod.fst)

theorem removed_sublist (past : List (ℕ × Move)) : (removed past).Sublist (past.map Prod.fst) :=
  List.filter_sublist.map Prod.fst

theorem removed_advance (past : List (ℕ × Move)) (e : ℕ) : removed (past ++ [(e, .advance)]) = removed past := by
  simp [removed]

theorem removed_remove (past : List (ℕ × Move)) (e : ℕ) : removed (past ++ [(e, .remove)]) = removed past ++ [e] := by
  simp [removed]

theorem position_next {n : ℕ} {R seen pre suf : List ℕ} {itr' : HashtableItr} {parent : ℕ} (hi : itr.index < n)
    (hcs : cs itr.index = pre ++ itr.e :: suf) (hseen : seen = (List.range itr.index).flatMap cs ++ pre)
    (hparent : parent = (((pre ++ [itr.e]).filter (· ∉ R)).getLast?).getD 0)
    (hnext : (∃ b suf', suf = b :: suf' ∧ itr' = ⟨b, parent, itr.index⟩) ∨
      suf = [] ∧ itr'.parent = 0 ∧ ∀ R', Position n cs R' itr' ((List.range (itr.index + 1)).flatMap cs)) :
    Position n cs R itr' (seen ++ [itr.e]) := by
  rcases hnext with ⟨b, suf', rfl, rfl⟩ | ⟨rfl, -, hpos⟩
  · exact Or.inr ⟨pre ++ [itr.e], suf', hi, by simp [hcs], hparent, by rw [hseen, List.append_assoc]⟩
  · have hend := hpos R
    rwa [List.range_succ, List.flatMap_append, List.flatMap_singleton, hcs, ← List.append_assoc, ← hseen] at hend

theorem Walking.advance (hw : WellFormed h₀ S) (hc : Chains h₀ S cs) (hk : Walking h₀ cs h itr past) (he : itr.e ≠ 0) :
    ∃ ret itr', hashtableIteratorAdvance h itr = some (ret, itr') ∧ (ret = 0 ↔ itr'.e = 0) ∧
      Walking h₀ cs h itr' (past ++ [(itr.e, .advance)]) := by
  rcases hk.position with ⟨h0, -⟩ | ⟨pre, suf, hi, hcs, hparent, hseen⟩
  · exact absurd h0 he
  obtain ⟨x, hcur⟩ := hk.walked.current hc (removed_sublist past) hi hcs hseen
  obtain ⟨ret, itr', hrun, hret, hnext⟩ := advance_spec he hcur.here hk.walked.length hw.length_lt hi hcur.rest
    fun j hj hij => by
      have hchain := hk.walked.chain j hj
      rwa [filter_eq_of_fresh (hcur.later j hj hij)] at hchain
  refine ⟨ret, itr', hrun, hret, by rw [removed_advance]; exact hk.walked, ?_⟩
  rw [removed_advance, List.map_append]
  refine position_next hi hcs hseen ?_ hnext
  rw [List.filter_append, filter_eq_of_fresh (l := [itr.e]) (by simpa using hcur.fresh itr.e List.mem_cons_self),
    List.getLast?_concat]
  rfl

theorem Current.notMem {R pre suf : List ℕ} {x : Entry K} (hc : Chains h₀ S cs)
    (hcur : Current h h₀.tablelength cs R itr pre suf x) : itr.e ∉ pre := by
  have hnd := (hc.chain _ hcur.index_lt).nodup
  rw [hcur.split, List.nodup_append] at hnd
  exact fun he => hnd.2.2 _ he _ List.mem_cons_self rfl

/-- The store that takes the current entry out of its chain, and leaves it as it was itself. -/
theorem Current.unlink {R pre suf : List ℕ} {x : Entry K} (hc : Chains h₀ S cs) (hk : Walked h₀ cs R h)
    (hcur : Current h h₀.tablelength cs R itr pre suf x) (hparent : itr.parent = ((pre.filter (· ∉ R)).getLast?).getD
    0) : ∃ table m, (if itr.parent = 0 then Slot.table itr.index else Slot.next itr.parent).assign h x.next =
        some { h with table := table, mem := m } ∧ SameData h.mem m ∧ m itr.e = some x ∧ Chain Entry.next m x.next suf ∧
      ∀ j < h₀.tablelength, Chain Entry.next m (table j) ((cs j).filter (· ∉ R ++ [itr.e])) := by
  have hnd := hcur.chain.nodup
  have hpre := hcur.notMem hc
  have hsuf : itr.e ∉ suf := (List.nodup_cons.mp (hcur.chain.suffix).nodup).1
  -- what is left of the chains
  have hhere : (cs itr.index).filter (· ∉ R ++ [itr.e]) = pre.filter (· ∉ R) ++ suf := by
    rw [hcur.split, List.filter_append, List.filter_cons_of_neg (by simp)]
    congr 1
    · exact List.filter_congr fun a ha => by
        have : a ≠ itr.e := fun heq => hpre (heq ▸ ha)
        simp [this]
    · refine filter_eq_of_fresh fun a ha => ?_
      have : a ≠ itr.e := fun heq => hsuf (heq ▸ ha)
      simp [this, hcur.fresh a (List.mem_cons_of_mem _ ha)]
  have hother : ∀ j < h₀.tablelength, j ≠ itr.index → (cs j).filter (· ∉ R ++ [itr.e]) = (cs j).filter (· ∉ R) := by
    intro j hj hji
    refine List.filter_congr fun a ha => ?_
    have : a ≠ itr.e := fun heq => hc.disjoint j hj _ hcur.index_lt hji ha (by simp [hcur.split, heq])
    simp [this]
  rcases List.eq_nil_or_concat (pre.filter (· ∉ R)) with hnil | ⟨q, b, hq⟩
  · -- the head of its chain
    rw [hnil] at hparent hhere
    refine ⟨Function.update h.table itr.index x.next, h.mem, ?_, fun _ => rfl, hcur.here, hcur.rest, fun j hj => ?_⟩
    · rw [if_pos (show itr.parent = 0 from hparent)]
      rfl
    · by_cases hji : j = itr.index
      · subst hji
        rw [Function.update_self, hhere]
        exact hcur.rest
      · rw [Function.update_of_ne hji, hother j hj hji]
        exact hk.chain j hj
  · -- behind its parent
    rw [List.concat_eq_append] at hq
    rw [hq, List.getLast?_concat, Option.getD_some] at hparent
    subst hparent
    have hchain := hcur.chain
    rw [hq, List.append_assoc] at hchain hnd
    obtain ⟨h0, y, hy⟩ := hchain.node (b := itr.parent) (by simp)
    have hbehind : itr.parent ∉ itr.e :: suf := (List.nodup_cons.mp (List.nodup_append.mp hnd).2.1).1
    have hne : itr.parent ≠ itr.e := fun heq => hbehind (heq ▸ List.mem_cons_self)
    have hsufb : itr.parent ∉ suf := fun hb => hbehind (List.mem_cons_of_mem _ hb)
    have hin : itr.parent ∈ cs itr.index := by
      have : itr.parent ∈ pre.filter (· ∉ R) := by rw [hq]; simp
      rw [hcur.split]
      exact List.mem_append_left _ (List.mem_of_mem_filter this)
    refine ⟨h.table, Function.update h.mem itr.parent (some { y with next := x.next }), ?_, sameData_link hy _,
      by rw [Function.update_of_ne hne.symm, hcur.here], hcur.rest.update hsufb _, fun j hj => ?_⟩
    · rw [if_neg h0, Slot.assign, hy]
      rfl
    · by_cases hji : j = itr.index
      · subst hji
        rw [hhere, hq, List.append_assoc]
        exact hchain.unlink hcur.here rfl
      · rw [hother j hj hji]
        refine (hk.chain j hj).update (fun hb => ?_) _
        exact hc.disjoint j hj _ hcur.index_lt hji (List.mem_of_mem_filter hb) hin

theorem Walked.count_pos {R seen pre suf : List ℕ} (hw : WellFormed h₀ S) (hc : Chains h₀ S cs) (hk : Walked h₀ cs R h)
    (hR : R.Sublist seen) (hi : itr.index < h₀.tablelength) (hcs : cs itr.index = pre ++ itr.e :: suf)
    (hseen : seen = (List.range itr.index).flatMap cs ++ pre) : 0 < h.entrycount ∧ h.entrycount < 2 ^ 32 := by
  have hsub : (seen ++ [itr.e]).Sublist ((List.range h₀.tablelength).flatMap cs) := by
    have hhere : (seen ++ [itr.e]).Sublist ((List.range (itr.index + 1)).flatMap cs) := by
      rw [List.range_succ, List.flatMap_append, List.flatMap_singleton, hcs, hseen, List.append_assoc]
      exact (List.Sublist.refl _).append ((List.Sublist.refl pre).append (List.singleton_sublist.mpr List.mem_cons_self))
    exact hhere.trans ((List.range_sublist.mpr hi).flatMap cs)
  have hcard : (seen ++ [itr.e]).length ≤ S.card := by
    rw [← List.toFinset_card_of_nodup (hc.nodup.sublist hsub)]
    exact Finset.card_le_card fun a ha => (hc.all a).mp (hsub.subset (List.mem_toFinset.mp ha))
  have := hR.length_le
  have := hk.count
  have := hw.count
  have := hw.count_lt
  rw [List.length_append, List.length_singleton] at hcard
  omega

/-- Freeing the key leaves the entries, and the block of the current one. -/
theorem free_key {x : Entry K} {e : ℕ} {m : ℕ → Option (Entry K)} (hx : m e = some x) (he : e ∈ blocks)
    (hkey : keyptr x.k = 0 ∨ keyptr x.k ∈ blocks ∧ m (keyptr x.k) = none) :
    ∃ blocks', free blocks m (keyptr x.k) = some (blocks', m) ∧ e ∈ blocks' := by
  rw [free]
  rcases hkey with h0 | ⟨hmem, hnone⟩
  · exact ⟨blocks, if_pos h0, he⟩
  · by_cases h0 : keyptr x.k = 0
    · exact ⟨blocks, if_pos h0, he⟩
    · rw [if_neg h0, if_pos hmem, Function.update_eq_self_iff.mpr hnone.symm]
      refine ⟨_, rfl, Finset.mem_erase.mpr ⟨?_, he⟩⟩
      rintro rfl
      rw [hx] at hnone
      cases hnone

theorem Walking.remove (hw : WellFormed h₀ S) (hc : Chains h₀ S cs) (hk : Walking h₀ cs h itr past) (he : itr.e ≠ 0)
    (hfree : FreesBlocks keyptr h blocks itr .remove) :
    ∃ ret h' blocks' itr', hashtableIteratorRemove keyptr h blocks itr = some (ret, h', blocks', itr') ∧
      (ret = 0 ↔ itr'.e = 0) ∧ Walking h₀ cs h' itr' (past ++ [(itr.e, .remove)]) := by
  rcases hk.position with ⟨h0, -⟩ | ⟨pre, suf, hi, hcs, hparent, hseen⟩
  · exact absurd h0 he
  have hR := removed_sublist past
  obtain ⟨x, hcur⟩ := hk.walked.current hc hR hi hcs hseen
  have hcount := hk.walked.count_pos hw hc hR hi hcs hseen
  obtain ⟨table, m, hassign, hdata, hme, hsuf, hchains⟩ := hcur.unlink hc hk.walked hparent
  have hpre := hcur.notMem hc
  have hlater : ∀ j < h₀.tablelength, itr.index + 1 ≤ j → Chain Entry.next m (table j) (cs j) := by
    intro j hj hij
    have hchain := hchains j hj
    rwa [filter_eq_of_fresh fun a ha => ?_] at hchain
    rw [List.mem_append, List.mem_singleton, not_or]
    refine ⟨hcur.later j hj hij a ha, ?_⟩
    rintro rfl
    exact hc.disjoint j hj _ hi (by omega) ha (by simp [hcs])
  obtain ⟨ret, itr', hrun, hret, hnext⟩ := advance_spec (h := { h with
      table := table, mem := m, entrycount := (h.entrycount + (2 ^ 32 - 1)) % 2 ^ 32 }) he hme hk.walked.length
    hw.length_lt hi hsuf hlater
  obtain ⟨y, hy, hblock, hkey⟩ := hfree rfl
  obtain rfl := Option.some.inj (hcur.here.symm.trans hy)
  have hkey' : keyptr x.k = 0 ∨ keyptr x.k ∈ blocks ∧ m (keyptr x.k) = none := by
    refine hkey.imp_right (And.imp_right fun hnone => ?_)
    have hsame := hdata (keyptr x.k)
    rwa [hnone, Option.map_none, Option.map_eq_none_iff] at hsame
  obtain ⟨blocks₁, hfirst, hblock₁⟩ := free_key hme hblock hkey'
  have hsecond : free blocks₁ m itr.e = some (blocks₁.erase itr.e, Function.update m itr.e none) := by
    rw [free, if_neg he, if_pos hblock₁]
  refine ⟨ret, { h with
      table := table
      mem := Function.update m itr.e none
      entrycount := (h.entrycount + (2 ^ 32 - 1)) % 2 ^ 32 }, blocks₁.erase itr.e,
    if itr'.parent = itr.e then { itr' with parent := itr.parent } else itr', ?_, ?_, ⟨?_, ?_⟩⟩
  · rw [hashtableIteratorRemove, hcur.here]
    dsimp only [Option.bind_eq_bind, Option.bind_some]
    rw [hassign]
    dsimp only [Option.bind_some]
    rw [hfirst]
    dsimp only [Option.bind_some]
    rw [hrun]
    dsimp only [Option.bind_some]
    rw [hsecond]
    rfl
  · rw [hret]
    split <;> rfl
  · rw [removed_remove]
    refine ⟨hk.walked.length, fun j hj => (hchains j hj).update (by simp) _, fun a ha => ?_, fun a ha => ?_, ?_⟩
    · rcases List.mem_append.mp ha with ha | ha
      · by_cases hae : a = itr.e
        · rw [hae]
          exact Function.update_self ..
        · have hnone := hdata a
          rw [hk.walked.gone a ha, Option.map_none, Option.map_eq_none_iff] at hnone
          exact (Function.update_of_ne hae _ _).trans hnone
      · rw [List.mem_singleton.mp ha]
        exact Function.update_self ..
    · rw [List.mem_append, List.mem_singleton, not_or] at ha
      refine (congrArg _ (Function.update_of_ne ha.2 _ _)).trans ?_
      rw [hdata a, hk.walked.kept a ha.1]
    · have := hk.walked.count
      rw [List.length_append, List.length_singleton]
      dsimp only
      omega
  · rw [removed_remove, List.map_append]
    refine position_next hi hcs hseen (?_ : itr.parent = _) ?_
    · rw [hparent, List.filter_append, List.filter_cons_of_neg (by simp), List.filter_nil, List.append_nil]
      congr 2
      exact List.filter_congr fun a ha => by
        have : a ≠ itr.e := fun heq => hpre (heq ▸ ha)
        simp [this]
    · rcases hnext with ⟨b, suf', rfl, rfl⟩ | ⟨rfl, h0, hpos⟩
      · exact Or.inl ⟨b, suf', rfl, by simp⟩
      · rw [if_neg (by rw [h0]; exact he.symm)]
        exact Or.inr ⟨rfl, h0, hpos⟩

/-! ## The whole walk -/

theorem Walking.start (hw : WellFormed h₀ S) (hc : Chains h₀ S cs) : Walking h₀ cs h₀ (hashtableIterator h₀) [] := by
  refine ⟨⟨rfl, fun i hi => ?_, by simp [removed], fun _ _ => rfl, by simp [removed]⟩, ?_⟩
  · rw [filter_eq_of_fresh (by simp [removed])]
    exact hc.chain i hi
  · rw [hashtableIterator]
    by_cases h0 : h₀.entrycount = 0
    · rw [if_pos h0]
      refine Or.inl ⟨rfl, ?_⟩
      have hnone : S = ∅ := Finset.card_eq_zero.mp (hw.count ▸ h0)
      refine (List.eq_nil_iff_forall_not_mem.mpr fun a ha => ?_).symm
      have hS := (hc.all a).mp ha
      simp [hnone] at hS
    · rw [if_neg h0]
      exact nextBucket_spec rfl rfl h₀.tablelength 0 (Nat.zero_add _) fun j hj _ => hc.chain j hj

theorem Walking.call (hw : WellFormed h₀ S) (hc : Chains h₀ S cs) (hk : Walking h₀ cs h itr past) (he : itr.e ≠ 0)
    (mv : Move) (hfree : FreesBlocks keyptr h blocks itr mv) :
    ∃ ret h' blocks' itr', mv.call keyptr h blocks itr = some (ret, h', blocks', itr') ∧ (ret = 0 ↔ itr'.e = 0) ∧
      Walking h₀ cs h' itr' (past ++ [(itr.e, mv)]) := by
  cases mv with
  | advance =>
    obtain ⟨ret, itr', hrun, hret, hk'⟩ := hk.advance hw hc he
    exact ⟨ret, h, blocks, itr', by rw [Move.call, hrun]; rfl, hret, hk'⟩
  | remove => exact hk.remove hw hc he hfree

theorem Iterates.walking (hw : WellFormed h₀ S) (hc : Chains h₀ S cs)
    (hcond : ∀ h blocks itr mv, cond h blocks itr mv → FreesBlocks keyptr h blocks itr mv)
    (hi : Iterates keyptr cond h₀ blocks₀ h blocks itr past) : Walking h₀ cs h itr past := by
  induction hi with
  | start => exact .start hw hc
  | step hi he hmv hcall ih =>
    obtain ⟨ret, h', blocks', itr', hrun, -, hk⟩ := ih.call hw hc he _ (hcond _ _ _ _ hmv)
    rw [hcall] at hrun
    obtain ⟨-, rfl, -, rfl⟩ := by simpa using hrun
    exact hk

theorem Walking.placed (hc : Chains h₀ S cs) (hk : Walking h₀ cs h itr past) (he : itr.e ≠ 0) : Placed h itr := by
  rcases hk.position with ⟨h0, -⟩ | ⟨pre, suf, hi, hcs, hparent, hseen⟩
  · exact absurd h0 he
  obtain ⟨x, hcur⟩ := hk.walked.current hc (removed_sublist past) hi hcs hseen
  have hchain := hcur.chain
  refine ⟨hk.walked.length ▸ hi, ?_⟩
  rcases List.eq_nil_or_concat (pre.filter (· ∉ removed past)) with hnil | ⟨q, b, hq⟩
  · rw [hnil] at hparent hchain
    exact Or.inl ⟨hchain.1, hparent⟩
  · rw [List.concat_eq_append] at hq
    rw [hq, List.getLast?_concat, Option.getD_some] at hparent
    rw [hq, List.append_assoc] at hchain
    exact Or.inr ⟨q, suf, hparent ▸ hchain⟩

/-- What an iteration has come to that passed the entries `past` of the order `order`: the current entry is the next
one, with its parent, and the calls on it return, with 0 at the end only; the entries removed, and no others, are gone
from their chains. -/
structure Visited (keyptr : K → ℕ) (cond : Hashtable K → Finset ℕ → HashtableItr → Move → Prop) (h₀ : Hashtable K)
    (order : List ℕ) (h : Hashtable K) (blocks : Finset ℕ) (itr : HashtableItr) (past : List (ℕ × Move)) : Prop where
  passed : ∃ rest, order = past.map Prod.fst ++ rest ∧ itr.e = rest.headD 0 ∧ (itr.e = 0 → rest = [])
  placed : itr.e ≠ 0 → Placed h itr
  returns : itr.e ≠ 0 → ∀ mv : Move, cond h blocks itr mv →
    ∃ ret h' blocks' itr', mv.call keyptr h blocks itr = some (ret, h', blocks', itr') ∧ (ret = 0 ↔ itr'.e = 0)
  count : h.entrycount + (removed past).length = h₀.entrycount
  gone : ∀ a ∈ removed past, h.mem a = none
  kept : ∀ a ∉ removed past, (h.mem a).map Entry.data = (h₀.mem a).map Entry.data
  length : h.tablelength = h₀.tablelength
  chains : ∀ i < h₀.tablelength, ∀ l, Chain Entry.next h₀.mem (h₀.table i) l →
    Chain Entry.next h.mem (h.table i) (l.filter (· ∉ removed past))

/-- A walk with an iterator meets every entry once, in the order of the buckets and of their chains, as long as what
it removes are blocks of `malloc`. -/
theorem iterator_visits (hw : WellFormed h₀ S) (keyptr : K → ℕ) (blocks₀ : Finset ℕ) :
    ∃ order : List ℕ, order.Nodup ∧ order.toFinset = S ∧ ∀ h blocks itr past,
      Iterates keyptr (FreesBlocks keyptr) h₀ blocks₀ h blocks itr past →
        Visited keyptr (FreesBlocks keyptr) h₀ order h blocks itr past := by
  obtain ⟨cs, hc⟩ := hw.chains
  refine ⟨(List.range h₀.tablelength).flatMap cs, hc.nodup, Finset.ext fun a => ?_, fun h blocks itr past hi => ?_⟩
  · rw [List.mem_toFinset, hc.all a]
  have hk := hi.walking hw hc fun _ _ _ _ => id
  refine ⟨?_, fun he => hk.placed hc he, fun he mv hmv => ?_, hk.walked.count, hk.walked.gone, hk.walked.kept,
    hk.walked.length, fun i hi l hl => ?_⟩
  · rcases hk.position with ⟨h0, hseen⟩ | ⟨pre, suf, hi', hcs, -, hseen⟩
    · exact ⟨[], by rw [hseen, List.append_nil], h0, fun _ => rfl⟩
    · have hsplit : (List.range h₀.tablelength).flatMap cs = past.map Prod.fst ++
          (itr.e :: suf ++ ((List.range h₀.tablelength).drop (itr.index + 1)).flatMap cs) := by
        rw [hseen, ← List.append_assoc, List.append_assoc _ pre, ← hcs]
        conv_lhs => rw [← List.take_append_drop (itr.index + 1) (List.range h₀.tablelength)]
        rw [List.take_range, Nat.min_eq_left hi', List.range_succ, List.flatMap_append, List.flatMap_append,
          List.flatMap_singleton]
      refine ⟨_, hsplit, rfl, fun h0 => ?_⟩
      obtain ⟨x, hcur⟩ := hk.walked.current hc (removed_sublist past) hi' hcs hseen
      exact absurd h0 hcur.ne_zero
  · obtain ⟨ret, h', blocks', itr', hrun, hret, -⟩ := hk.call hw hc he mv hmv
    exact ⟨ret, h', blocks', itr', hrun, hret⟩
  · rw [hl.unique (hc.chain i hi)]
    exact hk.walked.chain i hi

end Walk

theorem Represents.wellFormed {K : Type} {hashfn : K → UInt32} {pmp : ℕ} {h : Hashtable K} {S : Finset ℕ}
    (hr : Represents hashfn pmp h S) : WellFormed h S := by
  have hcard := card_le hr.pooled
  refine ⟨hr.tablelength_pos, ?_, fun a ha => (hr.mem a).mpr ha, hr.buckets, hr.count, by rw [hr.count]; omega⟩
  have hall : ∀ i < 26, primes.getD i 0 < 2 ^ 32 := by decide
  rw [hr.size]
  exact hall _ hr.index_lt

/-! ## Two tables to walk over -/

/-- All numbers have one hash value. -/
def equalHash : ℕ → UInt32 := fun _ => 0

/-- A table with one pair, in a pool mapped at 65536, and with another pair of the same key. -/
def onePair : Hashtable ℕ := (hashtableInsert equalHash emptyTable 7 1 65600).getD emptyTable
def twoPairs : Hashtable ℕ := (hashtableInsert equalHash onePair 7 2 65664).getD emptyTable

theorem fresh_onePair : Fresh 65536 emptyTable 65600 := ⟨rfl, 64, rfl, by decide, by decide, by decide⟩

theorem fresh_twoPairs : Fresh 65536 onePair 65664 := ⟨rfl, 128, rfl, by decide, by decide, by decide⟩

theorem reached_onePair : Reached equalHash (· == ·) 65536 10 onePair ((7, 1) ::ₘ 0) 0 :=
  .insert (.create create_emptyTable) fresh_onePair rfl

theorem reached_twoPairs : Reached equalHash (· == ·) 65536 10 twoPairs ((7, 2) ::ₘ (7, 1) ::ₘ 0) 0 :=
  .insert reached_onePair fresh_twoPairs rfl

/-- Where entries and keys are blocks of `malloc`: the first of two entries is removed, and the second one passed. -/
theorem iterator_visits_twoPairs : ∃ order h itr, Iterates (4096 + 64 * ·) (FreesBlocks (4096 + 64 * ·)) twoPairs
    {4544, 65600, 65664} h {65600} itr [(65664, .remove), (65600, .advance)] ∧
      Visited (4096 + 64 * ·) (FreesBlocks (4096 + 64 * ·)) twoPairs order h {65600} itr
        [(65664, .remove), (65600, .advance)] ∧ order = [65664, 65600] ∧ h.entrycount = 1 := by
  obtain ⟨S, hS, -⟩ := reached_twoPairs.represents fun _ _ _ => rfl
  obtain ⟨order, -, -, hall⟩ := iterator_visits hS.wellFormed (4096 + 64 * ·) {4544, 65600, 65664}
  have hfree : FreesBlocks (4096 + 64 * ·) twoPairs {4544, 65600, 65664} ⟨65664, 0, 0⟩ .remove := fun _ =>
    ⟨_, rfl, by decide, Or.inr ⟨by decide, rfl⟩⟩
  have hwalk := Iterates.step (.step (.start : Iterates (4096 + 64 * ·) (FreesBlocks (4096 + 64 * ·)) twoPairs
    {4544, 65600, 65664} _ _ _ _) (by decide) hfree rfl) (by decide)
    (show FreesBlocks (4096 + 64 * ·) _ _ _ .advance from fun hmv => by cases hmv) rfl
  have hvisited := hall _ _ _ _ hwalk
  obtain ⟨rest, horder, -, hrest⟩ := hvisited.passed
  refine ⟨order, _, _, hwalk, hvisited, ?_, rfl⟩
  rw [horder, hrest rfl]
  rfl

/-- The entries that `hashtable_insert` makes lie in the pool: removing the first one with an iterator frees a pointer
that `malloc` never returned. -/
theorem poolEntry_not_visited : Reached equalHash (· == ·) 65536 10 onePair ((7, 1) ::ₘ 0) 0 ∧
    ∃ S, WellFormed onePair S ∧ ¬ ∃ order : List ℕ, order.Nodup ∧ order.toFinset = S ∧ ∀ h blocks itr past,
      Iterates (4096 + 64 * ·) (fun _ _ _ _ => True) onePair {4544} h blocks itr past →
        Visited (4096 + 64 * ·) (fun _ _ _ _ => True) onePair order h blocks itr past := by
  obtain ⟨S, hS, -⟩ := reached_onePair.represents fun _ _ _ => rfl
  refine ⟨reached_onePair, S, hS.wellFormed, ?_⟩
  rintro ⟨order, -, -, hall⟩
  obtain ⟨ret, h', blocks', itr', hrun, -⟩ := (hall _ _ _ _ .start).returns (by decide) .remove trivial
  cases hrun

end PmemExamples.CHashtable
