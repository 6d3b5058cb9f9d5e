import PmemExamples.BTree.Contents
import PmemExamples.BTree.Root

/-! # Processes with B-trees

Any number of trees, made one after another, and calls on them. The trees share the table of `log2`; their nodes are
different ones. A run ends where a call does not return. -/

namespace PmemExamples.BTree
set_option autoImplicit false

/-- A `struct btree`, the nodes it has, and those that it will be given. -/
structure Btree where
  t : ℕ
  nbits : ℕ
  cmp : ℕ → ℕ → ℤ
  supply : ℕ → ℕ
  heap : Heap

def Btree.ops (b : Btree) (strict : Bool) : NodeOps HeapM := heapOps b.t b.nbits b.supply strict

structure Process where
  trees : List Btree
  memo : Memo

/-- A call, and the index of the tree that it is for. -/
inductive Call
  | create (size : Int32) (cmp : ℕ → ℕ → ℤ) (supply : ℕ → ℕ)
  | insert (i k : ℕ)
  | delete (i k : ℕ)
  | find (i k : ℕ)
  | min (i : ℕ)
  | max (i : ℕ)

/-- The node that `bt_create` allocates. -/
def Heap.start (a : ℕ) : Heap := ⟨a, Function.update (fun _ => .blank) a { NodeRec.blank with pPtr := a }, 1⟩

namespace Process

def start : Process := ⟨[], ⟨0, fun _ => 0, []⟩⟩

/-- `bt_create` where it computes a degree; both `log2` are of an `int`. -/
def create (p : Process) (size : Int32) (cmp : ℕ → ℕ → ℤ) (supply : ℕ → ℕ) : Process :=
  let t := (degree size).toNat
  let b := p.memo.log2 (2 * t - 1) 32
  let b' := b.2.log2 (b.1 + 1).toNat 32
  ⟨p.trees ++ [⟨t, 2 ^ (b'.1 + 1).toNat, cmp, supply, .start (supply 0)⟩], b'.2⟩

def on (p : Process) (i : ℕ) (act : Btree → HeapM ℕ) : Except Fault ℕ × Process :=
  match p.trees[i]? with
  | none => (.error .slot, p)
  | some b =>
    let r := act b b.heap p.memo
    (r.1, ⟨p.trees.set i { b with heap := r.2.1 }, r.2.2⟩)

variable (strict : Bool) (fuel : ℕ)

def call (p : Process) : Call → Except Fault ℕ × Process
  | .create size cmp supply => if 2 ≤ degree size then (.ok p.trees.length, p.create size cmp supply)
    else (.error .exit, p)
  | .insert i k => p.on i fun b => do
    btInsert (b.ops strict) b.cmp fuel k
    return 0
  | .delete i k => p.on i fun b => btDelete (b.ops strict) b.cmp fuel k
  | .find i k => p.on i fun b => btFind (b.ops strict) b.cmp fuel k
  | .min i => p.on i fun b => btMin (b.ops strict) fuel
  | .max i => p.on i fun b => btMax (b.ops strict) fuel

def run (p : Process) : List Call → Except Fault Unit × Process
  | [] => (.ok (), p)
  | c :: cs =>
    match p.call strict fuel c with
    | (.ok _, p) => p.run cs
    | (.error e, p) => (.error e, p)

theorem run_append {p p' : Process} {cs : List Call} (h : p.run strict fuel cs = (.ok (), p')) (cs' : List Call) :
    p.run strict fuel (cs ++ cs') = p'.run strict fuel cs' := by
  induction cs generalizing p with
  | nil =>
    cases h
    rfl
  | cons c cs ih =>
    rw [run] at h
    rw [List.cons_append, run]
    cases hc : p.call strict fuel c with
    | mk o p₁ =>
      rw [hc] at h
      cases o with
      | ok v => exact ih h
      | error e => cases h

end Process

/-! ## One call -/

/-- A tree that the code can work on, with a table of `N` entries. -/
structure Btree.Ready (N : ℕ) (b : Btree) : Prop where
  two_le : 2 ≤ b.t
  small : 2 * b.t - 1 < 2 ^ 14
  nbits : b.nbits = nbitsOf (2 * b.t - 1)
  supply : Supply b.supply
  table : 2 * b.t - 1 ≤ N

/-- The table between the calls. Its length is even, and `nkeys` is odd. -/
structure Memo.Ready (m : Memo) : Prop extends Memo.Exact m where
  even : 2 ∣ m.alloced

theorem Memo.ready_start : Memo.Ready Process.start.memo :=
  ⟨⟨fun _ _ h => absurd h (Nat.not_lt_zero _), fun _ h => absurd h List.not_mem_nil⟩, dvd_zero 2⟩

theorem create_memo {p : Process} (hp : p.memo.Ready) {size : Int32} (hd : 2 ≤ degree size) (cmp : ℕ → ℕ → ℤ)
    (supply : ℕ → ℕ) : (p.create size cmp supply).memo.Ready ∧ p.memo.alloced ≤ (p.create size cmp supply).memo.alloced ∧
      2 * (degree size).toNat - 1 ≤ (p.create size cmp supply).memo.alloced ∧
      (p.create size cmp supply).trees =
        p.trees ++ [⟨(degree size).toNat, nbitsOf (2 * (degree size).toNat - 1), cmp, supply, .start (supply 0)⟩] := by
  have hlt := degree_lt size
  have heven := hp.even
  rw [Process.create]
  generalize ht : (degree size).toNat = t
  obtain ⟨hval, hexact, halloc⟩ := hp.toExact.log2 (a := 2 * t - 1) (show 32 = 2 ^ (4 + 1) from rfl) (by omega)
    (by omega) (by omega)
  have hlog : Nat.log 2 (2 * t - 1) < 2 * t - 1 := Nat.log_lt_self 2 (by omega)
  have htoNat : ((Nat.log 2 (2 * t - 1) : ℤ) + 1).toNat = Nat.log 2 (2 * t - 1) + 1 := by omega
  have hlen : 2 * t - 1 < (p.memo.log2 (2 * t - 1) 32).2.alloced := by
    rw [halloc]
    split <;> omega
  obtain ⟨hval', hexact', halloc'⟩ := hexact.log2 (a := Nat.log 2 (2 * t - 1) + 1) (show 32 = 2 ^ (4 + 1) from rfl)
    (by omega) (by omega) (by omega)
  rw [if_neg (by omega)] at halloc'
  dsimp only
  rw [hval, htoNat, hval', halloc', halloc]
  refine ⟨⟨hexact', ?_⟩, ?_, ?_, ?_⟩
  · rw [halloc', halloc]
    split <;> omega
  · split <;> omega
  · split <;> omega
  · have hbits : nbitsOf (2 * t - 1) = 2 ^ ((Nat.log 2 (Nat.log 2 (2 * t - 1) + 1) : ℤ) + 1).toNat := by
      have hfirst : log2 (2 * t - 1) 32 = Nat.log 2 (2 * t - 1) := log2_int (by omega) (by omega)
      rw [nbitsOf, hfirst, log2_int (by omega) (by omega)]
      congr 1
    rw [hbits]

/-! ## A tree that has lost a key it did not have -/

section Broken
variable {t nbits N k fuel : ℕ} {supply : ℕ → ℕ} {cmp : ℕ → ℕ → ℤ} {h : Heap}

theorem broken_root : Does N h (heapOps t nbits supply false).root (.ok h.root) h := Does.of_eval fun _ => rfl

theorem broken_n (hb : h.Broken) : Does N h ((heapOps t nbits supply false).n h.root) (.ok (-1)) h :=
  Does.of_eval fun m => by rw [eval_n, hb.count]

theorem broken_leaf (hb : h.Broken) : Does N h ((heapOps t nbits supply false).leaf h.root) (.ok true) h :=
  Does.of_eval fun m => by rw [eval_leaf, hb.leaf]

theorem broken_key (ht : 2 ≤ t) {i : ℤ} (hi : i = -1 ∨ i = 0) :
    Does N h ((heapOps t nbits supply false).key h.root i) (.ok ((h.nodes h.root).slot i)) h :=
  Does.of_eval fun _ => if_pos ⟨by omega, by omega, by simp⟩

variable (nbits supply) in
theorem findkindex_broken (ht : 2 ≤ t) (hb : h.Broken) (cmp : ℕ → ℕ → ℤ) (k : ℕ) : ∃ i r, (i = -1 ∨ i = 0) ∧
    Does N h (findkindex (heapOps t nbits supply false) cmp h.root k) (.ok (i, some r)) h := by
  refine ⟨if cmp k ((h.nodes h.root).slot 0) < 0 then (0 : ℤ) - 1 else 0, _, ?_,
    (broken_n hb).bind ((Does.pure 0).bind ((broken_key ht (Or.inr rfl)).bind (Does.pure _)))⟩
  split
  · exact Or.inl rfl
  · exact Or.inr rfl

theorem btInsert_broken (ht : 2 ≤ t) (hb : h.Broken) (hfuel : 0 < fuel) (cmp : ℕ → ℕ → ℤ) (k : ℕ) :
    Does N h (btInsert (heapOps t nbits supply false) cmp fuel k) (.error .slot) h := by
  obtain ⟨fuel, rfl⟩ : ∃ f, fuel = f + 1 := ⟨fuel - 1, by omega⟩
  obtain ⟨i, r, hi, hindex⟩ := findkindex_broken nbits supply (N := N) ht hb cmp k
  refine broken_root.bind ((broken_n hb).bind (t_does.bind ?_))
  rw [if_neg (by omega), btreeinsertnonfull]
  refine (broken_leaf hb).bind ?_
  rw [if_pos rfl]
  refine hindex.bind ((broken_n hb).bind ?_)
  rw [if_pos (by omega)]
  exact Does.fault (Does.unguarded (by omega))

theorem btDelete_broken (ht : 2 ≤ t) (hb : h.Broken) (hfuel : 0 < fuel) (cmp : ℕ → ℕ → ℤ) (k : ℕ) :
    Does N h (btDelete (heapOps t nbits supply false) cmp fuel k) (.error .slot) h := by
  obtain ⟨fuel, rfl⟩ : ∃ f, fuel = f + 1 := ⟨fuel - 1, by omega⟩
  obtain ⟨i, r, hi, hindex⟩ := findkindex_broken nbits supply (N := N) ht hb cmp k
  refine broken_root.bind (Does.fault ?_)
  rw [nodedeletekey, if_neg hb.live]
  refine Does.bind hindex ((broken_leaf hb).bind ?_)
  rw [if_pos rfl, if_neg (by decide)]
  exact (broken_key ht hi).bind ((broken_n hb).bind (Does.fault (Does.unguarded (by omega))))

variable (nbits fuel supply) in
theorem btFind_broken (ht : 2 ≤ t) (hb : h.Broken) (hfuel : 0 < fuel) (cmp : ℕ → ℕ → ℤ) (k : ℕ) :
    ∃ e, Does N h (btFind (heapOps t nbits supply false) cmp fuel k) (.ok e) h := by
  obtain ⟨fuel, rfl⟩ : ∃ f, fuel = f + 1 := ⟨fuel - 1, by omega⟩
  obtain ⟨i, r, hi, hindex⟩ := findkindex_broken nbits supply (N := N) ht hb cmp k
  by_cases hhit : 0 ≤ i ∧ some r = some 0
  · refine ⟨(h.nodes h.root).slot i, broken_root.bind ?_⟩
    rw [findnodekey, if_neg hb.live]
    refine hindex.bind ?_
    dsimp only
    rw [if_pos hhit]
    exact broken_key ht hi
  · refine ⟨0, broken_root.bind ?_⟩
    rw [findnodekey, if_neg hb.live]
    refine hindex.bind ?_
    dsimp only
    rw [if_neg hhit]
    exact (broken_leaf hb).bind (Does.pure 0)

variable (nbits supply) in
theorem btMin_broken (ht : 2 ≤ t) (hb : h.Broken) (hfuel : 0 < fuel) :
    ∃ e, Does N h (btMin (heapOps t nbits supply false) fuel) (.ok e) h := by
  obtain ⟨fuel, rfl⟩ : ∃ f, fuel = f + 1 := ⟨fuel - 1, by omega⟩
  refine ⟨(h.nodes h.root).slot 0, broken_root.bind ?_⟩
  rw [findminnode]
  exact (broken_leaf hb).bind (broken_key ht (Or.inr rfl))

theorem btMax_broken (hb : h.Broken) (hfuel : 0 < fuel) :
    Does N h (btMax (heapOps t nbits supply false) fuel) (.error .slot) h := by
  obtain ⟨fuel, rfl⟩ : ∃ f, fuel = f + 1 := ⟨fuel - 1, by omega⟩
  refine broken_root.bind ?_
  rw [findmaxnode]
  refine (broken_leaf hb).bind ?_
  rw [if_pos rfl]
  refine (broken_n hb).bind ?_
  exact Does.of_eval fun _ => rfl

end Broken

/-! ## Any calls -/

/-- What a tree is at any time. -/
def Btree.Usable (n : ℕ) (b : Btree) : Prop := (∃ x, b.heap.Holds b.supply b.t x ∧ x.height ≤ n) ∨ b.heap.Broken

/-- `act` ends, and the tree stays usable unless it ends with a fault. -/
def Btree.Keeps (N n : ℕ) (b : Btree) (act : HeapM ℕ) : Prop :=
  ∃ o h', Does N b.heap act o h' ∧ ∀ v, o = .ok v → Btree.Usable n { b with heap := h' }

section Keeps
variable {N n k fuel : ℕ} {b : Btree}

theorem Btree.Ready.ops_eq (hb : b.Ready N) (strict : Bool) :
    b.ops strict = heapOps b.t (nbitsOf (2 * b.t - 1)) b.supply strict := by
  rw [Btree.ops, hb.nbits]

theorem Btree.Usable.mono {n' : ℕ} (hu : b.Usable n) (h : n ≤ n') : b.Usable n' := by
  rcases hu with ⟨x, hx, hle⟩ | hb
  · exact Or.inl ⟨x, hx, hle.trans h⟩
  · exact Or.inr hb

theorem insert_keeps (hb : b.Ready N) (hu : b.Usable n) (hfuel : n + 1 < fuel) (k : ℕ) : b.Keeps N (n + 1) (do
    btInsert (b.ops false) b.cmp fuel k
    return 0) := by
  rw [hb.ops_eq]
  rcases hu with ⟨x, hx, hle⟩ | hbroken
  · obtain ⟨h', hdoes, hx'⟩ := btInsert_sim fuel false (N := N) hb.two_le hb.small hb.table hb.supply hx (by omega)
      b.cmp k
    have hheight := insertRoot_height b.t b.cmp k b.supply b.heap.next x
    exact ⟨_, h', hdoes.bind (Does.pure 0), fun _ _ => Or.inl ⟨_, hx', by omega⟩⟩
  · exact ⟨_, _, (btInsert_broken hb.two_le hbroken (by omega) b.cmp k).fault, fun _ h => by cases h⟩

theorem delete_keeps (hb : b.Ready N) (hu : b.Usable n) (hfuel : n < fuel) (k : ℕ) :
    b.Keeps N n (btDelete (b.ops false) b.cmp fuel k) := by
  rw [hb.ops_eq]
  rcases hu with ⟨x, hx, hle⟩ | hbroken
  · cases btDelete_sim fuel false (N := N) hb.two_le hb.small hb.table hx (by omega) b.cmp k with
    | done hdoes hholds hheight _ => exact ⟨_, _, hdoes, fun _ _ => Or.inl ⟨_, hholds, hheight.trans hle⟩⟩
    | faults _ _ hstrict => cases hstrict
    | breaks hdoes hbroken _ _ => exact ⟨_, _, hdoes, fun _ _ => Or.inr hbroken⟩
  · exact ⟨_, _, btDelete_broken hb.two_le hbroken (by omega) b.cmp k, fun _ h => by cases h⟩

theorem find_keeps (hb : b.Ready N) (hu : b.Usable n) (hfuel : n < fuel) (k : ℕ) :
    b.Keeps N n (btFind (b.ops false) b.cmp fuel k) := by
  have htwo := hb.two_le
  rw [hb.ops_eq]
  have hu' := hu
  rcases hu with ⟨x, hx, hle⟩ | hbroken
  · obtain ⟨e, hdoes, -⟩ := btFind_sim fuel false (N := N) (by omega) hb.small hb.table hx (by omega) b.cmp k
    exact ⟨_, _, hdoes, fun _ _ => hu'⟩
  · obtain ⟨e, hdoes⟩ := btFind_broken (nbitsOf (2 * b.t - 1)) fuel b.supply (N := N)
      htwo hbroken (by omega) b.cmp k
    exact ⟨_, _, hdoes, fun _ _ => hu'⟩

theorem min_keeps (hb : b.Ready N) (hu : b.Usable n) (hfuel : n < fuel) : b.Keeps N n (btMin (b.ops false) fuel) := by
  have htwo := hb.two_le
  rw [hb.ops_eq]
  have hu' := hu
  rcases hu with ⟨x, hx, hle⟩ | hbroken
  · by_cases hne : x.inorder = []
    · exact ⟨_, _, btMin_empty htwo hx (by omega) hne, fun _ _ => hu'⟩
    · obtain ⟨e, r, hdoes, -⟩ := btMin_sim fuel false (N := N) htwo hx (by omega) hne
      exact ⟨_, _, hdoes, fun _ _ => hu'⟩
  · obtain ⟨e, hdoes⟩ := btMin_broken (nbitsOf (2 * b.t - 1)) b.supply (N := N) htwo hbroken
      (show 0 < fuel by omega)
    exact ⟨_, _, hdoes, fun _ _ => hu'⟩

theorem max_keeps (hb : b.Ready N) (hu : b.Usable n) (hfuel : n < fuel) : b.Keeps N n (btMax (b.ops false) fuel) := by
  have htwo := hb.two_le
  rw [hb.ops_eq]
  have hu' := hu
  rcases hu with ⟨x, hx, hle⟩ | hbroken
  · by_cases hne : x.inorder = []
    · exact ⟨_, _, btMax_empty htwo hx (by omega) hne, fun _ _ => hu'⟩
    · obtain ⟨l, e, hdoes, -⟩ := btMax_sim fuel false (N := N) htwo hx (by omega) hne
      exact ⟨_, _, hdoes, fun _ _ => hu'⟩
  · exact ⟨_, _, btMax_broken hbroken (by omega), fun _ h => by cases h⟩

end Keeps

/-! ## Runs -/

/-- The sizes for which the counts of a tree fit, and a supply of nodes. -/
def Call.Accepted : Call → Prop
  | .create size _ supply => 2 ≤ degree size ∧ degree size ≤ 8192 ∧ Supply supply
  | _ => True

structure Process.Safe (n : ℕ) (p : Process) : Prop where
  memo : p.memo.Ready
  trees : ∀ b ∈ p.trees, b.Ready p.memo.alloced ∧ b.Usable n

section Runs
variable {n n' fuel i : ℕ} {p : Process} {strict : Bool}

theorem Process.on_does {b : Btree} (hm : p.memo.Ready) (hb : p.trees[i]? = some b) {act : Btree → HeapM ℕ}
    {o : Except Fault ℕ}
    {h' : Heap} (hdoes : Does p.memo.alloced b.heap (act b) o h') : ∃ m' : Memo, m'.Ready ∧ m'.alloced = p.memo.alloced ∧
      p.on i act = (o, ⟨p.trees.set i { b with heap := h' }, m'⟩) := by
  obtain ⟨m', hexact, hlen, hrun⟩ := hdoes p.memo hm.toExact (le_refl _)
  refine ⟨m', ⟨hexact, hlen ▸ hm.even⟩, hlen, ?_⟩
  rw [Process.on, hb]
  dsimp only
  rw [hrun]

theorem Process.Safe.on (hp : p.Safe n) (hn : n ≤ n') {act : Btree → HeapM ℕ}
    (hact : ∀ b : Btree, b.Ready p.memo.alloced → b.Usable n → b.Keeps p.memo.alloced n' (act b)) :
    (p.on i act).2.memo.Ready ∧ ∀ v, (p.on i act).1 = .ok v → (p.on i act).2.Safe n' := by
  cases hb : p.trees[i]? with
  | none =>
    rw [Process.on, hb]
    exact ⟨hp.memo, fun _ h => by cases h⟩
  | some b =>
    obtain ⟨hready, husable⟩ := hp.trees b (List.mem_of_getElem? hb)
    obtain ⟨o, h', hdoes, hkeep⟩ := hact b hready husable
    obtain ⟨m', hm', hlen, hon⟩ := Process.on_does hp.memo hb hdoes
    rw [hon]
    refine ⟨hm', fun v hv => ⟨hm', fun b' hb' => ?_⟩⟩
    dsimp only at hb' ⊢
    rw [hlen]
    rcases List.mem_or_eq_of_mem_set hb' with hb' | rfl
    · exact ⟨(hp.trees b' hb').1, (hp.trees b' hb').2.mono hn⟩
    · exact ⟨⟨hready.two_le, hready.small, hready.nbits, hready.supply, hready.table⟩, hkeep v hv⟩

theorem Heap.holds_start {supply : ℕ → ℕ} (hs : Supply supply) (t : ℕ) :
    (Heap.start (supply 0)).Holds supply t ⟨0, ⟨supply 0, [], []⟩⟩ := by
  have hrec : (Heap.start (supply 0)).nodes (supply 0) = { NodeRec.blank with pPtr := supply 0 } := by
    simp [Heap.start]
  refine ⟨rfl, ⟨hs.live 0, ?_, by simp⟩, ?_, fun i hi hmem => ?_, ⟨by simp, by simp, rfl, by simp⟩⟩
  · dsimp only
    rw [hrec]
    exact ⟨rfl, rfl, Slots.Filled.nil _, Slots.Filled.nil _, fun _ _ => rfl⟩
  · simp [AnyTree.addrs, addrs_leaf]
  · rw [AnyTree.addrs, addrs_leaf, Multiset.mem_singleton] at hmem
    have heq := hs.inj hmem
    have hi : 1 ≤ i := hi
    omega

theorem create_ready {size : Int32} (h₂ : 2 ≤ degree size) (hle : degree size ≤ 8192) {supply : ℕ → ℕ}
    (hs : Supply supply) (cmp : ℕ → ℕ → ℤ) {N : ℕ} (hN : 2 * (degree size).toNat - 1 ≤ N) : Btree.Ready N
      ⟨(degree size).toNat, nbitsOf (2 * (degree size).toNat - 1), cmp, supply, .start (supply 0)⟩ :=
  ⟨by dsimp only; omega, by dsimp only; omega, rfl, hs, hN⟩

theorem Process.Safe.call (hp : p.Safe n) {c : Call} (hc : c.Accepted) (hfuel : n + 1 < fuel) :
    (p.call false fuel c).2.memo.Ready ∧ ∀ v, (p.call false fuel c).1 = .ok v →
    (p.call false fuel c).2.Safe (n + 1) := by
  cases c with
  | create size cmp supply =>
    obtain ⟨h₂, hle, hs⟩ := hc
    obtain ⟨hmemo, hlen, htable, htrees⟩ := create_memo hp.memo h₂ cmp supply
    rw [Process.call, if_pos h₂]
    refine ⟨hmemo, fun _ _ => ⟨hmemo, fun b hb => ?_⟩⟩
    dsimp only at hb
    rw [htrees] at hb
    rcases List.mem_append.mp hb with hb | hb
    · obtain ⟨hready, husable⟩ := hp.trees b hb
      exact ⟨⟨hready.two_le, hready.small, hready.nbits, hready.supply, hready.table.trans hlen⟩,
        husable.mono (Nat.le_succ n)⟩
    · obtain rfl := List.mem_singleton.mp hb
      exact ⟨create_ready h₂ hle hs cmp htable, Or.inl ⟨_, Heap.holds_start hs _, Nat.zero_le _⟩⟩
  | insert i k => exact hp.on (Nat.le_succ n) fun b hb hu => insert_keeps hb hu hfuel k
  | delete i k => exact hp.on (Nat.le_succ n) fun b hb hu => delete_keeps hb (hu.mono (Nat.le_succ n)) (by omega) k
  | find i k => exact hp.on (Nat.le_succ n) fun b hb hu => find_keeps hb (hu.mono (Nat.le_succ n)) (by omega) k
  | min i => exact hp.on (Nat.le_succ n) fun b hb hu => min_keeps hb (hu.mono (Nat.le_succ n)) (by omega)
  | max i => exact hp.on (Nat.le_succ n) fun b hb hu => max_keeps hb (hu.mono (Nat.le_succ n)) (by omega)

theorem Process.Safe.run (hp : p.Safe n) {calls : List Call} (hcalls : ∀ c ∈ calls, c.Accepted)
    (hfuel : n + calls.length < fuel) : (p.run false fuel calls).2.memo.Ready := by
  induction calls generalizing n p with
  | nil => exact hp.memo
  | cons c calls ih =>
    rw [List.length_cons] at hfuel
    obtain ⟨hmemo, hsafe⟩ := hp.call (hcalls c List.mem_cons_self) (show n + 1 < fuel by omega)
    rw [Process.run]
    cases hcall : p.call false fuel c with
    | mk o p' =>
      rw [hcall] at hmemo hsafe
      cases o with
      | ok v => exact ih (hsafe v rfl) (fun c hc => hcalls c (List.mem_cons_of_mem _ hc)) (by omega)
      | error e => exact hmemo

end Runs

/-- Every call of `log2` is answered from inside the table, and exactly, whatever the calls on the trees are. -/
theorem log2_exact {calls : List Call} (hcalls : ∀ c ∈ calls, c.Accepted) {fuel : ℕ} (hfuel : calls.length < fuel) :
    ∀ c ∈ (Process.start.run false fuel calls).2.memo.calls, c.Good :=
  have hsafe : Process.start.Safe 0 := ⟨Memo.ready_start, fun _ h => absurd h List.not_mem_nil⟩
  (hsafe.run hcalls (by omega)).calls

/-- The search of the small tree takes the entry for 1 that the large one has filled. -/
def twoTreeCalls : List Call :=
  [.create 72 byValue (· + 1), .create 8192 byValue (· + 1), .insert 1 3, .insert 1 4, .insert 1 5, .insert 0 5,
    .insert 0 7, .find 0 7]

theorem log2_exact_twoTrees :
    ((Process.start.run false 9 twoTreeCalls).2.memo.calls.take 2).map (fun c => (c.a, c.nbits, c.value)) =
      [(1, 4, 0), (1, 16, 0)] ∧
    ∀ c ∈ (Process.start.run false 9 twoTreeCalls).2.memo.calls, c.Good := by
  refine ⟨by decide +kernel, log2_exact (fun c hc => ?_) (by decide)⟩
  simp only [twoTreeCalls, List.mem_cons, List.not_mem_nil, or_false] at hc
  rcases hc with rfl | rfl | rfl | rfl | rfl | rfl | rfl | rfl
  · exact ⟨by decide, by decide, supply_succ⟩
  · exact ⟨by decide, by decide, supply_succ⟩
  all_goals trivial

end PmemExamples.BTree
