import PmemExamples.CHashtable.Access

/-! # What a caller sees of a table

The entries with one hash value lie in one chain, whose order decides which of them is found. So a table is seen as
a stack of pairs for each hash value: `hashtable_insert` pushes, the other calls look for the first pair with an equal
key, and growing turns every stack over (`moveBuckets_lists`). -/

namespace PmemExamples.CHashtable
open Linked
set_option autoImplicit false

section Code
variable {K : Type} (hashfn : K → UInt32) (eqfn : K → K → Bool)

/-! ## `hashtable_change` (`hashtable_utility.c`) -/

/-- The loop of `hashtable_change`: the value that it frees if it returns -1, nothing if it returns 0. -/
def changeLoop (h : Hashtable K) (k : K) (v : ℕ) (hashvalue : UInt32) : ℕ → ℕ → Option (Hashtable K × Option ℕ)
  | 0, _ => none
  | fuel + 1, e =>
    if e = 0 then some (h, none)
    else do
      let x ← h.mem e
      if hashvalue = x.h ∧ eqfn k x.k then
        some ({ h with mem := Function.update h.mem e (some { x with v := v }) }, some x.v)
      else changeLoop h k v hashvalue fuel x.next

def hashtableChange (h : Hashtable K) (k : K) (v : ℕ) : Option (Hashtable K × Option ℕ) :=
  let hashvalue := hash hashfn k
  changeLoop eqfn h k v hashvalue chainFuel (h.table (indexFor h.tablelength hashvalue))

/-- A call on a table. -/
inductive Operation (K : Type) where
  | insert (k : K) (v : ℕ)
  | search (k : K)
  | remove (k : K)
  | change (k : K) (v : ℕ)

/-- What a call returns, and the value it frees. -/
abbrev Answer := ℤ × Option ℕ

/-- The call, where a new entry would be at `a`. -/
def Operation.run (h : Hashtable K) (a : ℕ) : Operation K → Option (Hashtable K × Answer)
  | .insert k v => do some (← hashtableInsert hashfn h k v a, -1, none)
  | .search k => do some (h, ← hashtableSearch hashfn eqfn h k, none)
  | .remove k => do
    let (h, v) ← hashtableRemove hashfn eqfn h k
    some (h, v, none)
  | .change k v => do
    let (h, freed) ← hashtableChange hashfn eqfn h k v
    some (h, if freed.isSome then -1 else 0, freed)

/-- The table after some calls, with their answers. -/
inductive Ran (pmp : ℕ) (h₀ : Hashtable K) : List (Operation K) → Hashtable K → List Answer → Prop
  | start : Ran pmp h₀ [] h₀ []
  | call {ops : List (Operation K)} {h h' : Hashtable K} {answers : List Answer} {a : ℕ} {op : Operation K}
    {ans : Answer} (hr : Ran pmp h₀ ops h answers) (ha : ∀ k v, op = .insert k v → Fresh pmp h a)
        (hc : op.run hashfn eqfn h a = some (h', ans)) :
      Ran pmp h₀ (ops ++ [op]) h' (answers ++ [ans])

end Code

/-! ## Stacks -/

/-- The pairs under each hash value, how many there are, and the place in the table of primes. -/
structure Stacks (K : Type) where
  stack : UInt32 → List (K × ℕ)
  count : ℕ
  primeindex : ℕ

namespace Stacks
variable {K : Type} (hashfn : K → UInt32) (eqfn : K → K → Bool)

def new (K : Type) (primeindex : ℕ) : Stacks K := ⟨fun _ => [], 0, primeindex⟩

/-- Growing turns the stacks over. -/
def grow (s : Stacks K) : Stacks K :=
  if s.primeindex = primeTableLength - 1 then s
  else { s with stack := fun hv => (s.stack hv).reverse, primeindex := s.primeindex + 1 }

/-- One pair more is expected. -/
def expect (s : Stacks K) : Stacks K :=
  let s := { s with count := s.count + 1 }
  if loadLimit (primes.getD s.primeindex 0) < s.count then s.grow else s

def put (s : Stacks K) (hv : UInt32) (ps : List (K × ℕ)) : Stacks K := { s with stack := Function.update s.stack hv ps }

def insert (s : Stacks K) (k : K) (v : ℕ) : Stacks K :=
  let s := s.expect
  s.put (hash hashfn k) ((k, v) :: s.stack (hash hashfn k))

/-- The pair that is found for a key. -/
def search (s : Stacks K) (k : K) : Option (K × ℕ) := (s.stack (hash hashfn k)).find? fun p => eqfn k p.1

def remove (s : Stacks K) (k : K) : Stacks K :=
  match s.search hashfn eqfn k with
  | none => s
  | some _ => { s.put (hash hashfn k) ((s.stack (hash hashfn k)).eraseP fun p => eqfn k p.1) with count := s.count - 1 }

/-- The first pair whose key is equal gets another value. -/
def replace (k : K) (v : ℕ) : List (K × ℕ) → List (K × ℕ)
  | [] => []
  | p :: ps => if eqfn k p.1 then (p.1, v) :: ps else p :: replace k v ps

def change (s : Stacks K) (k : K) (v : ℕ) : Stacks K :=
  s.put (hash hashfn k) (replace eqfn k v (s.stack (hash hashfn k)))

/-- The stacks after a call, and the answer. -/
def step (s : Stacks K) : Operation K → Stacks K × Answer
  | .insert k v => (s.insert hashfn k v, -1, none)
  | .search k => (s, (s.search hashfn eqfn k).elim 0 fun p => (p.2 : ℤ), none)
  | .remove k => (s.remove hashfn eqfn k, (s.search hashfn eqfn k).elim 0 fun p => (p.2 : ℤ), none)
  | .change k v => (s.change hashfn eqfn k v, (s.search hashfn eqfn k).elim 0 fun _ => -1,
      (s.search hashfn eqfn k).map Prod.snd)

/-- The stacks after some calls, and the answers. -/
def replay (s : Stacks K) : List (Operation K) → Stacks K × List Answer
  | [] => (s, [])
  | op :: ops =>
    let res := s.step hashfn eqfn op
    let rest := replay res.1 ops
    (rest.1, res.2 :: rest.2)

end Stacks

/-! ## The pairs of a chain -/

section Chains
variable {K : Type} {m m' : ℕ → Option (Entry K)} {hv : UInt32} {l r : List ℕ} {a b : ℕ} {x : Entry K}

def pairUnder (hv : UInt32) (x : Entry K) : Option (K × ℕ) := if x.h = hv then some (x.k, x.v) else none

/-- The pairs with the hash value `hv`, in the order of the chain. -/
def under (m : ℕ → Option (Entry K)) (hv : UInt32) (l : List ℕ) : List (K × ℕ) :=
  l.filterMap fun a => (m a).bind (pairUnder hv)

@[simp] theorem under_nil (m : ℕ → Option (Entry K)) (hv : UInt32) : under m hv [] = [] := rfl

theorem under_append (m : ℕ → Option (Entry K)) (hv : UInt32) (l r : List ℕ) :
    under m hv (l ++ r) = under m hv l ++ under m hv r := List.filterMap_append

theorem under_cons (hx : m a = some x) (l : List ℕ) : under m hv (a :: l) = (pairUnder hv x).toList ++ under m hv l := by
  rw [under, List.filterMap_cons, hx, Option.bind_some]
  cases pairUnder hv x <;> rfl

theorem under_congr (h : ∀ a ∈ l, (m' a).bind (pairUnder hv) = (m a).bind (pairUnder hv)) :
    under m' hv l = under m hv l :=
  List.filterMap_congr h

theorem pairUnder_congr {o o' : Option (Entry K)} (h : o'.map Entry.data = o.map Entry.data) :
    o'.bind (pairUnder hv) = o.bind (pairUnder hv) := by
  have hpair : ∀ o : Option (Entry K), o.bind (pairUnder hv) =
      (o.map Entry.data).bind fun t => if t.2.2 = hv then some (t.1, t.2.1) else none := by
    intro o
    cases o <;> rfl
  rw [hpair, hpair, h]

theorem SameData.under (h : SameData m m') (hv : UInt32) (l : List ℕ) : under m' hv l = CHashtable.under m hv l :=
  under_congr fun a _ => pairUnder_congr (h a)

theorem under_eq_nil (h : ∀ a ∈ l, ∀ x, m a = some x → x.h ≠ hv) : under m hv l = [] := by
  rw [under, List.filterMap_eq_nil_iff]
  intro a ha
  cases hx : m a with
  | none => rfl
  | some x => exact if_neg (h a ha x hx)

end Chains

/-! ## Growing -/

section Growing
variable {K : Type} {n n' i b : ℕ} {s : Moving K} {old new : ℕ → List ℕ} {l : List ℕ}

/-- The chains of the two tables. -/
structure Lists (n n' : ℕ) (s : Moving K) (old new : ℕ → List ℕ) : Prop where
  olds : ∀ j < n, Chain Entry.next s.mem (s.table j) (old j)
  news : ∀ j < n', Chain Entry.next s.mem (s.newtable j) (new j)
  apart : ∀ i < n, ∀ j < n', List.Disjoint (old i) (new j)
  disjoint : ∀ i < n, ∀ j < n, i ≠ j → List.Disjoint (old i) (old j)

theorem Lists.step (h : Lists n n' s old new) (hi : i < n) (hn' : 0 < n') (hold : old i = b :: l) :
    ∃ x, s.table i = b ∧ b ≠ 0 ∧ s.mem b = some x ∧ Lists n n'
      ⟨Function.update s.table i x.next, Function.update s.newtable (indexFor n' x.h) b,
        Function.update s.mem b (some { x with next := s.newtable (indexFor n' x.h) })⟩
      (Function.update old i l) (Function.update new (indexFor n' x.h) (b :: new (indexFor n' x.h))) := by
  have hchain := h.olds i hi
  rw [hold] at hchain
  have hnd := List.nodup_cons.mp hchain.nodup
  obtain ⟨hb, h0, x, hx, hrest⟩ := hchain
  have hmem : b ∈ old i := hold ▸ List.mem_cons_self
  have hsub : ∀ j, Function.update old i l j ⊆ old j := by
    intro j a ha
    by_cases hji : j = i
    · subst hji
      rw [Function.update_self] at ha
      exact hold ▸ List.mem_cons_of_mem _ ha
    · rwa [Function.update_of_ne hji] at ha
  have hgone : ∀ j < n, b ∉ Function.update old i l j := by
    intro j hj
    by_cases hji : j = i
    · rw [hji, Function.update_self]
      exact hnd.1
    · rw [Function.update_of_ne hji]
      exact h.disjoint i hi j hj (Ne.symm hji) hmem
  have hidx := indexFor_lt hn' x.h
  refine ⟨x, hb, h0, hx, fun j hj => ?_, fun j hj => ?_, fun i' hi' j hj => ?_, fun i' hi' j hj hij => ?_⟩
  · apply Chain.update _ (hgone j hj)
    by_cases hji : j = i
    · subst hji
      simpa only [Function.update_self] using hrest
    · simpa only [Function.update_of_ne hji] using h.olds j hj
  · have hbj : b ∉ new j := h.apart i hi j hj hmem
    by_cases hji : j = indexFor n' x.h
    · subst hji
      simpa only [Function.update_self] using Chain.push (h.news _ hj) hbj h0
    · simpa only [Function.update_of_ne hji] using (h.news j hj).update hbj _
  · intro a ha ha'
    by_cases hji : j = indexFor n' x.h
    · rw [hji, Function.update_self] at ha'
      rcases List.mem_cons.mp ha' with rfl | ha'
      · exact hgone i' hi' ha
      · exact h.apart i' hi' _ hidx (hsub i' ha) ha'
    · rw [Function.update_of_ne hji] at ha'
      exact h.apart i' hi' j hj (hsub i' ha) ha'
  · exact fun a ha ha' => h.disjoint i' hi' j hj hij (hsub i' ha) (hsub j ha')

theorem moveBucket_lists (hi : i < n) (hn' : 0 < n') : ∀ (l : List ℕ) (fuel : ℕ) {s : Moving K} {old new : ℕ → List ℕ},
    Lists n n' s old new → old i = l → l.length < fuel → ∃ s' new', moveBucket n' i fuel s = some s' ∧
      Lists n n' s' (Function.update old i []) new' ∧ SameData s.mem s'.mem ∧
      ∀ hv, under s.mem hv (new' (indexFor n' hv)) =
        (under s.mem hv l).reverse ++ under s.mem hv (new (indexFor n' hv)) := by
  intro l
  induction l with
  | nil =>
    intro fuel s old new h hold hf
    obtain ⟨fuel, rfl⟩ := Nat.exists_eq_add_of_lt hf
    have hnil := h.olds i hi
    rw [hold] at hnil
    refine ⟨s, new, if_pos hnil, ?_, fun _ => rfl, fun hv => rfl⟩
    rwa [← hold, Function.update_eq_self]
  | cons b l ih =>
    intro fuel s old new h hold hf
    obtain ⟨fuel, rfl⟩ := Nat.exists_eq_add_of_lt hf
    obtain ⟨x, hb, h0, hx, hstep⟩ := h.step hi hn' hold
    obtain ⟨s', new', hrun, hlists, hdata, hunder⟩ := ih ((b :: l).length + fuel) hstep (Function.update_self ..)
      (by rw [List.length_cons]; omega)
    have hsame := sameData_link hx (s.newtable (indexFor n' x.h))
    refine ⟨s', new', ?_, ?_, hsame.trans hdata, fun hv => ?_⟩
    · rw [moveBucket]
      simp only [hb, hx]
      exact (if_neg h0).trans hrun
    · rwa [Function.update_idem] at hlists
    · have hhv := hunder hv
      dsimp only at hhv
      rw [hsame.under, hsame.under, hsame.under] at hhv
      rw [hhv, under_cons hx, List.reverse_append, List.append_assoc]
      congr 1
      by_cases hidx : indexFor n' hv = indexFor n' x.h
      · rw [hidx, Function.update_self, under_cons hx]
        cases pairUnder hv x <;> rfl
      · rw [Function.update_of_ne hidx, pairUnder, if_neg fun heq => hidx (by rw [heq])]
        rfl

/-- The `for` loop turns over what is under the hash values of the buckets it has been through. -/
theorem moveBuckets_lists (h : Lists n n' s old new) (hn' : 0 < n') (hf : ∀ i < n, (old i).length < chainFuel)
    (hsorted : ∀ i < n, ∀ a ∈ old i, ∀ x, s.mem a = some x → indexFor n x.h = i)
    (hempty : ∀ j, new j = []) : ∀ k ≤ n, ∃ s' old' new', moveBuckets n' k s = some s' ∧ Lists n n' s' old' new' ∧
      SameData s.mem s'.mem ∧ (∀ j, k ≤ j → old' j = old j) ∧
      ∀ hv, under s.mem hv (new' (indexFor n' hv)) =
        if indexFor n hv < k then (under s.mem hv (old (indexFor n hv))).reverse else [] := by
  intro k
  induction k with
  | zero =>
    intro _
    refine ⟨s, old, new, rfl, h, fun _ => rfl, fun _ _ => rfl, fun hv => ?_⟩
    rw [hempty, if_neg (Nat.not_lt_zero _), under_nil]
  | succ k ih =>
    intro hk
    obtain ⟨s₁, old₁, new₁, hrun₁, h₁, hdata₁, hkeep₁, hunder₁⟩ := ih (by omega)
    have hold := hkeep₁ k (le_refl k)
    obtain ⟨s₂, new₂, hrun₂, h₂, hdata₂, hunder₂⟩ := moveBucket_lists (by omega) hn' _ _ h₁ hold (hf k (by omega))
    refine ⟨s₂, _, new₂, ?_, h₂, hdata₁.trans hdata₂, fun j hj => ?_, fun hv => ?_⟩
    · rw [moveBuckets, hrun₁]
      exact hrun₂
    · rw [Function.update_of_ne (by omega), hkeep₁ j (by omega)]
    · have hhv := hunder₂ hv
      rw [hdata₁.under, hdata₁.under, hdata₁.under, hunder₁] at hhv
      rw [hhv]
      by_cases hi : indexFor n hv = k
      · rw [hi, if_neg (Nat.lt_irrefl k), if_pos (Nat.lt_succ_self k), List.append_nil]
      · have hnone : under s.mem hv (old k) = [] := by
          apply under_eq_nil
          intro a ha x hx heq
          exact hi (heq ▸ hsorted k (by omega) a ha x hx)
        have hlt : indexFor n hv < k ↔ indexFor n hv < k + 1 := by omega
        rw [hnone, List.reverse_nil, List.nil_append, if_congr hlt rfl rfl]

end Growing

end PmemExamples.CHashtable
