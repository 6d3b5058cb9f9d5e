import PmemExamples.BTree.Process

/-! # Trees as sorted multisets

What a tree is for: its keys are a multiset, up to equality. As long as only keys that are there are deleted, the
trees of a process are what the calls say, also for the strict reading. -/

namespace PmemExamples.BTree
set_option autoImplicit false

/-- A tree for those who use it: how many keys equal to `e` it has. -/
structure Bag where
  size : Int32
  cmp : ℕ → ℕ → ℤ
  count : ℕ → ℕ

namespace Bag

def insert (B : Bag) (k : ℕ) : Bag := { B with count := fun e => B.count e + if B.cmp e k = 0 then 1 else 0 }
def delete (B : Bag) (k : ℕ) : Bag := { B with count := fun e => B.count e - if B.cmp e k = 0 then 1 else 0 }

end Bag

namespace Call

/-- Keys are deleted that are there; there is a least key and a greatest if there is any. -/
def Legal (bags : List Bag) : Call → Prop
  | .create size cmp supply => 2 ≤ degree size ∧ degree size ≤ 8192 ∧ Comparison cmp ∧ Supply supply
  | .insert i _ => i < bags.length
  | .delete i k => ∃ B, bags[i]? = some B ∧ 0 < B.count k
  | .find i _ => i < bags.length
  | .min i => ∃ B e, bags[i]? = some B ∧ 0 < B.count e
  | .max i => ∃ B e, bags[i]? = some B ∧ 0 < B.count e

def effect (bags : List Bag) : Call → List Bag
  | .create size cmp _ => bags ++ [⟨size, cmp, fun _ => 0⟩]
  | .insert i k => bags.modify i (·.insert k)
  | .delete i k => bags.modify i (·.delete k)
  | _ => bags

end Call

def LegalRun : List Bag → List Call → Prop
  | _, [] => True
  | bags, c :: calls => c.Legal bags ∧ LegalRun (c.effect bags) calls

def bagsAfter (bags : List Bag) (calls : List Call) : List Bag := calls.foldl (fun bags c => c.effect bags) bags

/-! ## The trees are the bags -/

structure Btree.Stores (N n : ℕ) (b : Btree) (B : Bag) : Prop where
  ready : b.Ready N
  degree : b.t = (degree B.size).toNat
  cmp : b.cmp = B.cmp
  comparison : Comparison b.cmp
  tree : ∃ x, b.heap.Holds b.supply b.t x ∧ x.height ≤ n ∧ Ascending b.cmp x.inorder ∧
    ∀ e, occurrences b.cmp e x.inorder = B.count e

structure Process.Stores (n : ℕ) (p : Process) (bags : List Bag) : Prop where
  memo : p.memo.Ready
  length : p.trees.length = bags.length
  trees : ∀ (i : ℕ) (b : Btree) (B : Bag), p.trees[i]? = some b → bags[i]? = some B → b.Stores p.memo.alloced n B

section Stores
variable {N n n' i k fuel : ℕ} {p : Process} {bags : List Bag} {b : Btree} {B B' : Bag} {calls : List Call}

theorem Btree.Stores.mono (h : b.Stores N n B) {N' : ℕ} (hN : N ≤ N') (hn : n ≤ n') : b.Stores N' n' B := by
  obtain ⟨x, hx, hle, hs⟩ := h.tree
  exact ⟨⟨h.ready.two_le, h.ready.small, h.ready.nbits, h.ready.supply, h.ready.table.trans hN⟩, h.degree, h.cmp,
    h.comparison, x, hx, hle.trans hn, hs⟩

theorem Btree.Stores.put (h : b.Stores N n B) {heap : Heap} {x : AnyTree} (hcmp : B'.cmp = B.cmp)
    (hsize : B'.size = B.size) (hx : heap.Holds b.supply b.t x) (hle : x.height ≤ n') (hs : Ascending b.cmp x.inorder)
    (hcount : ∀ e, occurrences b.cmp e x.inorder = B'.count e) : ({ b with heap := heap } : Btree).Stores N n' B' :=
  ⟨⟨h.ready.two_le, h.ready.small, h.ready.nbits, h.ready.supply, h.ready.table⟩, hsize ▸ h.degree,
    h.cmp.trans hcmp.symm, h.comparison, x, hx, hle, hs, hcount⟩

theorem Process.Stores.find (hp : p.Stores n bags) (hi : i < bags.length) :
    ∃ b B, p.trees[i]? = some b ∧ bags[i]? = some B ∧ b.Stores p.memo.alloced n B := by
  have hi' : i < p.trees.length := hp.length ▸ hi
  exact ⟨_, _, List.getElem?_eq_getElem hi', List.getElem?_eq_getElem hi,
    hp.trees i _ _ (List.getElem?_eq_getElem hi') (List.getElem?_eq_getElem hi)⟩

theorem Process.Stores.on (hp : p.Stores n bags) (hn : n ≤ n') (hb : p.trees[i]? = some b) (B' : Bag)
    (act : Btree → HeapM ℕ) {v : ℕ} {h' : Heap} (hdoes : Does p.memo.alloced b.heap (act b) (.ok v) h')
    (hput : ({ b with heap := h' } : Btree).Stores p.memo.alloced n' B') :
    ∃ p', p.on i act = (.ok v, p') ∧ p'.Stores n' (bags.set i B') := by
  obtain ⟨m', hm', hlen, hon⟩ := Process.on_does hp.memo hb hdoes
  refine ⟨_, hon, hm', ?_, fun j b' C hb' hC => ?_⟩
  · rw [List.length_set, List.length_set, hp.length]
  · dsimp only at hb' ⊢
    rw [hlen]
    rw [List.getElem?_set] at hb' hC
    by_cases hij : i = j
    · obtain ⟨hi, -⟩ := List.getElem?_eq_some_iff.mp hb
      rw [if_pos hij, if_pos hi] at hb'
      rw [if_pos hij, if_pos (hp.length ▸ hi)] at hC
      obtain rfl := Option.some.inj hb'
      obtain rfl := Option.some.inj hC
      exact hput
    · rw [if_neg hij] at hb' hC
      exact (hp.trees j b' C hb' hC).mono (le_refl _) hn

theorem modify_eq_set (hB : bags[i]? = some B) (f : Bag → Bag) : bags.modify i f = bags.set i (f B) := by
  obtain ⟨hi, rfl⟩ := List.getElem?_eq_some_iff.mp hB
  exact List.modify_eq_set_get f hi

theorem set_same (hB : bags[i]? = some B) : bags.set i B = bags := by
  obtain ⟨hi, rfl⟩ := List.getElem?_eq_some_iff.mp hB
  exact List.set_getElem_self hi

/-! ## One call -/

theorem Process.Stores.insert (hp : p.Stores n bags) (strict : Bool) (hi : i < bags.length) (k : ℕ)
    (hfuel : n + 1 < fuel) :
    ∃ v p', p.call strict fuel (.insert i k) = (.ok v, p') ∧ p'.Stores (n + 1) (Call.effect bags (.insert i k)) := by
  obtain ⟨b, B, hb, hB, hst⟩ := hp.find hi
  obtain ⟨x, hx, hle, hs, hcount⟩ := hst.tree
  have hready := hst.ready
  obtain ⟨h', hdoes, hx'⟩ := btInsert_sim _ strict (N := p.memo.alloced) hready.two_le hready.small hready.table
    hready.supply hx (show x.height + 1 < fuel by omega) b.cmp k
  obtain ⟨-, -, hins⟩ := insertRoot_spec hready.two_le hx.sized b.cmp k b.supply b.heap.next
  have hins := hins hst.comparison hs
  have hheight := insertRoot_height b.t b.cmp k b.supply b.heap.next x
  rw [Call.effect, modify_eq_set hB]
  refine ⟨0, hp.on (Nat.le_succ n) hb (B.insert k) (fun b => do
    btInsert (b.ops strict) b.cmp fuel k
    return 0) ?_ (hst.put rfl rfl hx' (by omega) (hins.ascending hst.comparison hs) fun e => ?_)⟩
  · rw [hready.ops_eq]
    exact hdoes.bind (Does.pure 0)
  · rw [hins.occurrences, hcount, Bag.insert, hst.cmp]

theorem Process.Stores.delete (hp : p.Stores n bags) (strict : Bool) (hB : bags[i]? = some B) (hk : 0 < B.count k)
    (hfuel : n < fuel) :
    ∃ v p', p.call strict fuel (.delete i k) = (.ok v, p') ∧ p'.Stores n (Call.effect bags (.delete i k)) := by
  obtain ⟨b, B₀, hb, hB₀, hst⟩ := hp.find (List.getElem?_eq_some_iff.mp hB).1
  obtain rfl := Option.some.inj (hB₀.symm.trans hB)
  obtain ⟨x, hx, hle, hs, hcount⟩ := hst.tree
  have hready := hst.ready
  obtain ⟨e, x', hres, hgone⟩ := deleteRoot_removed hready.two_le hx.sized hst.comparison hs
    (occurrences_pos.mp (by rw [hcount]; exact hk))
  have hsim := btDelete_sim _ strict (N := p.memo.alloced) hready.two_le hready.small hready.table hx
    (show x.height < fuel by omega) b.cmp k
  rw [hres] at hsim
  rw [Call.effect, modify_eq_set hB]
  cases hsim with
  | @done h' e₁ x₁ hdoes hholds hheight heq =>
    obtain ⟨rfl, rfl⟩ : e = e₁ ∧ x' = x₁ := by
      rcases heq with heq | ⟨heq, -⟩
      · cases heq
        exact ⟨rfl, rfl⟩
      · cases heq
    refine ⟨e, hp.on (le_refl n) hb (B₀.delete k) (fun b => btDelete (b.ops strict) b.cmp fuel k) ?_
      (hst.put rfl rfl hholds (hheight.trans hle) (hgone.ascending hst.comparison hs) fun e' => ?_)⟩
    · rw [hready.ops_eq]
      exact hdoes
    · have hsame := hgone.occurrences hst.comparison e'
      rw [hcount, hst.cmp] at hsame
      rw [Bag.delete, hst.cmp]
      dsimp only
      omega
  | faults _ heq => cases heq
  | breaks _ _ hempty =>
    obtain ⟨e', he', -⟩ := occurrences_pos.mp (show 0 < occurrences b.cmp k x.inorder by rw [hcount]; exact hk)
    rw [hempty] at he'
    cases he'

/-- What the searches return. -/
structure Btree.Answers (strict : Bool) (fuel N : ℕ) (b : Btree) (keys : List ℕ) : Prop where
  find : ∀ k, ∃ e, Does N b.heap (btFind (b.ops strict) b.cmp fuel k) (.ok e) b.heap ∧ Finds b.cmp k keys e
  min : keys ≠ [] → ∃ e, Does N b.heap (btMin (b.ops strict) fuel) (.ok e) b.heap ∧ e ∈ keys ∧
    ∀ e' ∈ keys, b.cmp e e' ≤ 0
  max : keys ≠ [] → ∃ e, Does N b.heap (btMax (b.ops strict) fuel) (.ok e) b.heap ∧ e ∈ keys ∧
    ∀ e' ∈ keys, b.cmp e' e ≤ 0

theorem Btree.Stores.answers (h : b.Stores N n B) (strict : Bool) (hfuel : n < fuel) : ∃ x, b.heap.Holds b.supply b.t x ∧
    Ascending b.cmp x.inorder ∧ (∀ e, occurrences b.cmp e x.inorder = B.count e) ∧
    b.Answers strict fuel N x.inorder := by
  obtain ⟨x, hx, hle, hs, hcount⟩ := h.tree
  have htwo := h.ready.two_le
  have hfuel' : x.height < fuel := by omega
  refine ⟨x, hx, hs, hcount, fun k => ?_, fun hne => ?_, fun hne => ?_⟩
  · obtain ⟨e, hdoes, hfinds⟩ := btFind_sim _ strict (N := N) (by omega) h.ready.small h.ready.table hx hfuel' b.cmp k
    rw [h.ready.ops_eq]
    exact ⟨e, hdoes, hfinds h.comparison hs⟩
  · obtain ⟨e, r, hdoes, hin⟩ := btMin_sim _ strict (N := N) htwo hx hfuel' hne
    rw [h.ready.ops_eq]
    rw [hin] at hs ⊢
    refine ⟨e, hdoes, List.mem_cons_self, fun e' he' => ?_⟩
    rcases List.mem_cons.mp he' with rfl | he'
    · exact (h.comparison.refl e').le
    · exact (List.pairwise_cons.mp hs).1 e' he'
  · obtain ⟨l, e, hdoes, hin⟩ := btMax_sim _ strict (N := N) htwo hx hfuel' hne
    rw [h.ready.ops_eq]
    rw [hin] at hs ⊢
    refine ⟨e, hdoes, List.mem_append_right l List.mem_cons_self, fun e' he' => ?_⟩
    rcases List.mem_append.mp he' with he' | he'
    · exact (List.pairwise_append.mp hs).2.2 e' he' e List.mem_cons_self
    · obtain rfl := List.mem_singleton.mp he'
      exact (h.comparison.refl e').le

theorem Process.Stores.reads (hp : p.Stores n bags) (hb : p.trees[i]? = some b) (hB : bags[i]? = some B)
    (act : Btree → HeapM ℕ) {e : ℕ} (hdoes : Does p.memo.alloced b.heap (act b) (.ok e) b.heap) :
    ∃ p', p.on i act = (.ok e, p') ∧ p'.Stores n bags := by
  have hon := hp.on (le_refl n) hb B act hdoes (hp.trees i b B hb hB)
  rwa [set_same hB] at hon

theorem Process.Stores.create (hp : p.Stores n bags) {size : Int32} {cmp : ℕ → ℕ → ℤ} {supply : ℕ → ℕ}
    (h₂ : 2 ≤ degree size) (hle : degree size ≤ 8192) (hcmp : Comparison cmp) (hs : Supply supply) :
    (p.create size cmp supply).Stores n (Call.effect bags (.create size cmp supply)) := by
  obtain ⟨hmemo, hlen, htable, htrees⟩ := create_memo hp.memo h₂ cmp supply
  refine ⟨hmemo, by
    rw [htrees, Call.effect, List.length_append, List.length_append, hp.length]; rfl, fun i b B hb hB => ?_⟩
  rw [htrees] at hb
  rw [Call.effect] at hB
  by_cases hi : i < p.trees.length
  · rw [List.getElem?_append_left hi] at hb
    rw [List.getElem?_append_left (hp.length ▸ hi)] at hB
    exact (hp.trees i b B hb hB).mono hlen (le_refl n)
  · rw [List.getElem?_append_right (Nat.le_of_not_lt hi), List.getElem?_singleton] at hb
    rw [hp.length] at hi hb
    rw [List.getElem?_append_right (Nat.le_of_not_lt hi), List.getElem?_singleton] at hB
    split at hb
    · rw [if_pos ‹_›] at hB
      cases hb
      cases hB
      exact ⟨create_ready h₂ hle hs cmp htable, rfl, rfl, hcmp, _, Heap.holds_start hs _, Nat.zero_le n,
        List.Pairwise.nil, fun _ => rfl⟩
    · cases hb

theorem Process.Stores.call (hp : p.Stores n bags) (strict : Bool) {c : Call} (hc : c.Legal bags)
    (hfuel : n + 1 < fuel) : ∃ v p', p.call strict fuel c = (.ok v, p') ∧ p'.Stores (n + 1) (c.effect bags) := by
  have hmono : ∀ {v p'} {o : Except Fault ℕ × Process}, o = (.ok v, p') ∧ p'.Stores n (c.effect bags) →
      ∃ v p', o = (.ok v, p') ∧ p'.Stores (n + 1) (c.effect bags) := fun {v p' o} ho =>
    ⟨v, p', ho.1, ho.2.memo, ho.2.length, fun i b B hb hB => (ho.2.trees i b B hb hB).mono (le_refl _) (Nat.le_succ n)⟩
  have hsome : ∀ {x : AnyTree} {b : Btree} {B : Bag} {e : ℕ}, (∀ e, occurrences b.cmp e x.inorder = B.count e) →
    0 < B.count e → x.inorder ≠ [] := fun hcount hpos hnil => by
    rw [← hcount, hnil] at hpos
    exact absurd hpos (Nat.lt_irrefl 0)
  cases c with
  | create size cmp supply =>
    obtain ⟨h₂, hle, hcmp, hs⟩ := hc
    exact hmono ⟨if_pos h₂, hp.create h₂ hle hcmp hs⟩
  | insert i k => exact hp.insert strict hc k hfuel
  | delete i k =>
    obtain ⟨B, hB, hk⟩ := hc
    obtain ⟨v, p', hcall⟩ := hp.delete strict hB hk (show n < fuel by omega)
    exact hmono hcall
  | find i k =>
    obtain ⟨b, B, hb, hB, hst⟩ := hp.find hc
    obtain ⟨x, -, -, -, hans⟩ := hst.answers strict (show n < fuel by omega)
    obtain ⟨e, hdoes, -⟩ := hans.find k
    obtain ⟨p', hcall⟩ := hp.reads hb hB (fun b => btFind (b.ops strict) b.cmp fuel k) hdoes
    exact hmono hcall
  | min i =>
    obtain ⟨B, e, hB, hpos⟩ := hc
    obtain ⟨b, B₀, hb, hB₀, hst⟩ := hp.find (List.getElem?_eq_some_iff.mp hB).1
    obtain rfl := Option.some.inj (hB₀.symm.trans hB)
    obtain ⟨x, -, -, hcount, hans⟩ := hst.answers strict (show n < fuel by omega)
    obtain ⟨e, hdoes, -⟩ := hans.min (hsome hcount hpos)
    obtain ⟨p', hcall⟩ := hp.reads hb hB (fun b => btMin (b.ops strict) fuel) hdoes
    exact hmono hcall
  | max i =>
    obtain ⟨B, e, hB, hpos⟩ := hc
    obtain ⟨b, B₀, hb, hB₀, hst⟩ := hp.find (List.getElem?_eq_some_iff.mp hB).1
    obtain rfl := Option.some.inj (hB₀.symm.trans hB)
    obtain ⟨x, -, -, hcount, hans⟩ := hst.answers strict (show n < fuel by omega)
    obtain ⟨e, hdoes, -⟩ := hans.max (hsome hcount hpos)
    obtain ⟨p', hcall⟩ := hp.reads hb hB (fun b => btMax (b.ops strict) fuel) hdoes
    exact hmono hcall

/-! ## Runs -/

theorem Process.Stores.run (hp : p.Stores n bags) (strict : Bool) (hcalls : LegalRun bags calls)
    (hfuel : n + calls.length < fuel) :
    ∃ p', p.run strict fuel calls = (.ok (), p') ∧ p'.Stores (n + calls.length) (bagsAfter bags calls) := by
  induction calls generalizing n p bags with
  | nil => exact ⟨p, rfl, hp⟩
  | cons c calls ih =>
    obtain ⟨hc, hcalls⟩ := hcalls
    rw [List.length_cons] at hfuel ⊢
    obtain ⟨v, p₁, hcall, hp₁⟩ := hp.call strict hc (show n + 1 < fuel by omega)
    obtain ⟨p', hrun, hp'⟩ := ih hp₁ hcalls (by omega)
    refine ⟨p', ?_, ?_⟩
    · rw [Process.run, hcall]
      exact hrun
    · rw [← Nat.add_assoc, Nat.add_right_comm]
      exact hp'

theorem Process.stores_start : Process.start.Stores 0 [] :=
  ⟨Memo.ready_start, rfl, fun _ _ _ h => by simp [Process.start] at h⟩

/-! ## The shape and the contents -/

/-- The calls of a run with legal calls all return, also if nothing but the slots up to the count is read, and leave
trees whose nodes have the right sizes and keys in order. -/
theorem shape_kept (hcalls : LegalRun [] calls) (hfuel : calls.length < fuel) :
    ∃ p, Process.start.run true fuel calls = (.ok (), p) ∧ p.trees.length = (bagsAfter [] calls).length ∧
      ∀ (i : ℕ) (b : Btree) (B : Bag), p.trees[i]? = some b → (bagsAfter [] calls)[i]? = some B →
        b.t = (degree B.size).toNat ∧ b.cmp = B.cmp ∧ ∃ x, b.heap.Holds b.supply b.t x ∧ x.Ordered b.cmp := by
  obtain ⟨p, hrun, hp⟩ := Process.stores_start.run true hcalls (show 0 + calls.length < fuel by omega)
  refine ⟨p, hrun, hp.length, fun i b B hb hB => ?_⟩
  have hst := hp.trees i b B hb hB
  obtain ⟨x, hx, -, hs, -⟩ := hst.tree
  exact ⟨hst.degree, hst.cmp, x, hx, ordered_of_ascending x.height _ x.tree hx.sized hs⟩

/-- Keys of which two are equal, in a tree whose root splits and then a leaf; an inner key is deleted, and leaves
are merged until the root is a leaf again. -/
def someCalls : List Call :=
  [.create 72 byValue (· + 1), .insert 0 5, .insert 0 7, .insert 0 5, .insert 0 9, .insert 0 8, .insert 0 6, .find 0 7,
    .delete 0 5, .delete 0 8, .delete 0 6, .delete 0 9]

theorem legal_someCalls : LegalRun [] someCalls :=
  ⟨⟨by decide, by decide, comparison_byValue, supply_succ⟩, Nat.zero_lt_one, Nat.zero_lt_one, Nat.zero_lt_one,
    Nat.zero_lt_one, Nat.zero_lt_one, Nat.zero_lt_one, Nat.zero_lt_one, ⟨_, rfl, by decide⟩, ⟨_, rfl, by decide⟩,
    ⟨_, rfl, by decide⟩, ⟨_, rfl, by decide⟩, trivial⟩

theorem shape_kept_someCalls : ∃ p, Process.start.run true 13 someCalls = (.ok (), p) ∧
    p.trees.length = (bagsAfter [] someCalls).length ∧
      ∀ (i : ℕ) (b : Btree) (B : Bag), p.trees[i]? = some b → (bagsAfter [] someCalls)[i]? = some B →
        b.t = (degree B.size).toNat ∧ b.cmp = B.cmp ∧ ∃ x, b.heap.Holds b.supply b.t x ∧ x.Ordered b.cmp :=
  shape_kept legal_someCalls (by decide)

/-- The keys in order are those of the bag, and the searches answer for them. -/
theorem contents_kept (strict : Bool) (hcalls : LegalRun [] calls) (hfuel : calls.length < fuel) :
    ∃ p, Process.start.run strict fuel calls = (.ok (), p) ∧ p.trees.length = (bagsAfter [] calls).length ∧
      ∀ (i : ℕ) (B : Bag), (bagsAfter [] calls)[i]? = some B → ∃ b x, p.trees[i]? = some b ∧
      b.heap.Holds b.supply b.t x ∧ Ascending B.cmp x.inorder ∧ (∀ e, occurrences B.cmp e x.inorder = B.count e) ∧
        (∀ k, ∃ e p', p.call strict fuel (.find i k) = (.ok e, p') ∧ Finds B.cmp k x.inorder e) ∧
        (x.inorder ≠ [] → ∃ e p', p.call strict fuel (.min i) = (.ok e, p') ∧ e ∈ x.inorder ∧
          ∀ e' ∈ x.inorder, B.cmp e e' ≤ 0) ∧
        (x.inorder ≠ [] → ∃ e p', p.call strict fuel (.max i) = (.ok e, p') ∧ e ∈ x.inorder ∧
          ∀ e' ∈ x.inorder, B.cmp e' e ≤ 0) := by
  obtain ⟨p, hrun, hp⟩ := Process.stores_start.run strict hcalls (show 0 + calls.length < fuel by omega)
  refine ⟨p, hrun, hp.length, fun i B hB => ?_⟩
  obtain ⟨b, B₀, hb, hB₀, hst⟩ := hp.find (List.getElem?_eq_some_iff.mp hB).1
  obtain rfl := Option.some.inj (hB₀.symm.trans hB)
  obtain ⟨x, hx, hs, hcount, hans⟩ := hst.answers strict (show 0 + calls.length < fuel by omega)
  rw [← hst.cmp]
  refine ⟨b, x, hb, hx, hs, hcount, fun k => ?_, fun hne => ?_, fun hne => ?_⟩
  · obtain ⟨e, hdoes, hfinds⟩ := hans.find k
    obtain ⟨p', hcall, -⟩ := hp.reads hb hB (fun b => btFind (b.ops strict) b.cmp fuel k) hdoes
    exact ⟨e, p', hcall, hfinds⟩
  · obtain ⟨e, hdoes, hleast⟩ := hans.min hne
    obtain ⟨p', hcall, -⟩ := hp.reads hb hB (fun b => btMin (b.ops strict) fuel) hdoes
    exact ⟨e, p', hcall, hleast⟩
  · obtain ⟨e, hdoes, hgreatest⟩ := hans.max hne
    obtain ⟨p', hcall, -⟩ := hp.reads hb hB (fun b => btMax (b.ops strict) fuel) hdoes
    exact ⟨e, p', hcall, hgreatest⟩

theorem contents_kept_someCalls : ∃ p, Process.start.run false 13 someCalls = (.ok (), p) ∧
    p.trees.length = (bagsAfter [] someCalls).length ∧
      ∀ (i : ℕ) (B : Bag), (bagsAfter [] someCalls)[i]? = some B → ∃ b x, p.trees[i]? = some b ∧
      b.heap.Holds b.supply b.t x ∧ Ascending B.cmp x.inorder ∧ (∀ e, occurrences B.cmp e x.inorder = B.count e) ∧
        (∀ k, ∃ e p', p.call false 13 (.find i k) = (.ok e, p') ∧ Finds B.cmp k x.inorder e) ∧
        (x.inorder ≠ [] → ∃ e p', p.call false 13 (.min i) = (.ok e, p') ∧ e ∈ x.inorder ∧
          ∀ e' ∈ x.inorder, B.cmp e e' ≤ 0) ∧
        (x.inorder ≠ [] → ∃ e p', p.call false 13 (.max i) = (.ok e, p') ∧ e ∈ x.inorder ∧
          ∀ e' ∈ x.inorder, B.cmp e' e ≤ 0) :=
  contents_kept false legal_someCalls (by decide)

end Stores

end PmemExamples.BTree
