import PmemExamples.BTree.Memory
import PmemExamples.BTree.Removal
import PmemExamples.Slots.Basic

/-! # Nodes as records

The B-tree code over a heap of nodes. Only slots that a node has room for are touched, and `p_ptr`, which is where a
key with the index -1 would be. Of those a strict reading allows only the slots from 0 up to the count of the node to
be read. (`takeFromRight` lowers the count before it moves the pointers, so that a block of pointers may end one slot
further.) Everything else is a fault. Nodes that are freed stay where they are: `FREE` does nothing. -/

namespace PmemExamples.BTree
set_option autoImplicit false

inductive Fault
  | slot | fuel | exit
  deriving DecidableEq, Repr

/-! ## The table of `log2` -/

/-- A call `log2(a, nbits)`, with `alloced` when the table is read, and what it returns. -/
structure LogCall where
  a : ℕ
  nbits : ℕ
  alloced : ℕ
  value : ℤ

/-- `table` and `alloced`, and the calls so far. -/
structure Memo where
  alloced : ℕ
  table : ℕ → ℤ
  calls : List LogCall

namespace Memo

/-- The table up to index `a`; what is new in it is -1. -/
def grow (m : Memo) (a : ℕ) : Memo :=
  if m.alloced < a then ⟨a + 1, fun i => if m.alloced ≤ i ∧ i < a + 1 then -1 else m.table i, m.calls⟩ else m

def fill (m : Memo) (a nbits : ℕ) : Memo :=
  if m.table a = -1 then { m with table := Function.update m.table a (realLog2 a nbits) } else m

def log2 (m : Memo) (a nbits : ℕ) : ℤ × Memo :=
  let m := (m.grow a).fill a nbits
  (m.table a, { m with calls := ⟨a, nbits, m.alloced, m.table a⟩ :: m.calls })

end Memo

/-- In the table, and right. -/
structure LogCall.Good (c : LogCall) : Prop where
  pos : 1 ≤ c.a
  bits : c.a < 2 ^ c.nbits
  inside : c.a < c.alloced
  value : c.value = Nat.log 2 c.a

structure Memo.Exact (m : Memo) : Prop where
  table : ∀ a, 0 < a → a < m.alloced → m.table a = -1 ∨ m.table a = Nat.log 2 a
  calls : ∀ c ∈ m.calls, c.Good

theorem Memo.Exact.log2 {m : Memo} (h : m.Exact) {a nbits j : ℕ} (hbits : nbits = 2 ^ (j + 1)) (ha : 0 < a)
    (hlt : a < 2 ^ nbits) (hroom : a ≠ m.alloced) : (m.log2 a nbits).1 = Nat.log 2 a ∧ (m.log2 a nbits).2.Exact ∧
      (m.log2 a nbits).2.alloced = if m.alloced < a then a + 1 else m.alloced := by
  have hgrown : (m.grow a).Exact ∧ (m.grow a).alloced = if m.alloced < a then a + 1 else m.alloced := by
    rw [Memo.grow]
    split
    · refine ⟨⟨fun b hb hlt => ?_, h.calls⟩, rfl⟩
      dsimp only at hlt ⊢
      split
      · exact Or.inl rfl
      · exact h.table b hb (by omega)
    · exact ⟨h, rfl⟩
  obtain ⟨hg, halloc⟩ := hgrown
  have hin : a < (m.grow a).alloced := by
    rw [halloc]
    split <;> omega
  have hfilled : ((m.grow a).fill a nbits).Exact ∧ ((m.grow a).fill a nbits).alloced = (m.grow a).alloced ∧
      ((m.grow a).fill a nbits).table a = Nat.log 2 a := by
    have hlog : realLog2 a nbits = Nat.log 2 a := by
      subst hbits
      exact realLog2_eq ha hlt
    rw [Memo.fill]
    split
    · refine ⟨⟨fun b hb hlt => ?_, hg.calls⟩, rfl, ?_⟩
      · by_cases hba : b = a
        · subst hba
          dsimp only
          rw [Function.update_self, hlog]
          exact Or.inr rfl
        · dsimp only
          rw [Function.update_of_ne hba]
          exact hg.table b hb hlt
      · dsimp only
        rw [Function.update_self, hlog]
    · next hne => exact ⟨hg, rfl, (hg.table a ha hin).resolve_left hne⟩
  obtain ⟨hf, hfa, hval⟩ := hfilled
  refine ⟨hval, ⟨hf.table, fun c hc => ?_⟩, hfa.trans halloc⟩
  rcases List.mem_cons.mp hc with rfl | hc
  · exact ⟨ha, hlt, by rw [hfa]; exact hin, hval⟩
  · exact hf.calls c hc

/-! ## The heap -/

structure NodeRec where
  leaf : Bool
  n : ℤ
  keys : ℕ → ℕ
  kids : ℕ → ℕ
  pPtr : ℕ

/-- A node as `allocbtreenode` returns it. -/
def NodeRec.blank : NodeRec := ⟨true, 0, fun _ => 0, fun _ => 0, 0⟩

/-- `KEYS(btr, x)[i]`. -/
def NodeRec.slot (r : NodeRec) (i : ℤ) : ℕ := if i < 0 then r.pPtr else r.keys i.toNat

/-- `x` with keys of `y` from slot `i` on. -/
def NodeRec.moveKeys (x y : NodeRec) (i : ℤ) (j count : ℕ) : NodeRec :=
  if 0 ≤ i then { x with keys := Slots.move x.keys y.keys i.toNat j count }
  else if count = 0 then x
  else { x with pPtr := y.keys j, keys := Slots.move x.keys y.keys 0 (j + 1) (count - 1) }

structure Heap where
  root : ℕ
  nodes : ℕ → NodeRec
  /-- how many nodes have been allocated -/
  next : ℕ

def Heap.set (h : Heap) (x : ℕ) (r : NodeRec) : Heap := { h with nodes := Function.update h.nodes x r }

def Heap.alloc (h : Heap) (x : ℕ) : Heap := ⟨h.root, Function.update h.nodes x .blank, h.next + 1⟩

/-- The state is what is left after a fault, too. -/
def HeapM (α : Type) : Type := Heap → Memo → Except Fault α × Heap × Memo

namespace HeapM
variable {α : Type}

instance : Monad HeapM where
  pure a := fun h m => (.ok a, h, m)
  bind act f := fun h m =>
    match act h m with
    | (.ok a, h, m) => f a h m
    | (.error e, h, m) => (.error e, h, m)

def get (f : Heap → α) : HeapM α := fun h m => (.ok (f h), h, m)
def put (f : Heap → Heap) : HeapM Unit := fun h m => (.ok (), f h, m)
def fault (e : Fault) : HeapM α := fun h m => (.error e, h, m)
def guarded (p : Heap → Prop) [DecidablePred p] (act : HeapM α) : HeapM α :=
  fun h m => if p h then act h m else (.error .slot, h, m)

end HeapM

/-- The nodes of a tree of degree `t`; new ones have the addresses of the supply. With `strict`, a block move reads slots
in use only: keys up to `n`, children up to `n + 1` of them, and one more where a node from which the first key has
been taken is moved down, whose count is lowered before. -/
def heapOps (t nbits : ℕ) (supply : ℕ → ℕ) (strict : Bool) : NodeOps HeapM where
  hang := HeapM.fault .fuel
  exit := HeapM.fault .exit
  log2 a nbits := fun h m => (.ok (m.log2 a nbits).1.toNat, h, (m.log2 a nbits).2)
  root := HeapM.get Heap.root
  setRoot x := HeapM.put fun h => { h with root := x }
  t := HeapM.get fun _ => t
  nbits := HeapM.get fun _ => nbits
  leaf x := HeapM.get fun h => (h.nodes x).leaf
  setLeaf x b := HeapM.put fun h => h.set x { h.nodes x with leaf := b }
  n x := HeapM.get fun h => (h.nodes x).n
  setN x n := HeapM.put fun h => h.set x { h.nodes x with n := n.bmod (2 ^ 15) }
  key x i := HeapM.guarded (fun h => -1 ≤ i ∧ i < 2 * t - 1 ∧ (strict = true → 0 ≤ i ∧ i ≤ (h.nodes x).n))
    (HeapM.get fun h => (h.nodes x).slot i)
  setKey x i k := HeapM.guarded (fun _ => 0 ≤ i ∧ i < 2 * t - 1)
    (HeapM.put fun h => h.set x { h.nodes x with keys := Function.update (h.nodes x).keys i.toNat k })
  node x i := HeapM.guarded (fun h => 0 ≤ i ∧ i < 2 * t ∧ (strict = true → i ≤ (h.nodes x).n))
    (HeapM.get fun h => (h.nodes x).kids i.toNat)
  setNode x i y := HeapM.guarded (fun _ => 0 ≤ i ∧ i < 2 * t)
    (HeapM.put fun h => h.set x { h.nodes x with kids := Function.update (h.nodes x).kids i.toNat y })
  moveKeys x i y j count := HeapM.guarded
    (fun h => 0 ≤ count ∧ -1 ≤ i ∧ i + count ≤ 2 * t - 1 ∧ 0 ≤ j ∧ j + count ≤ 2 * t - 1 ∧
      (strict = true → 0 ≤ i ∧ (j + count ≤ (h.nodes y).n ∨ x = y ∧ i = 0 ∧ j = 1 ∧ count ≤ (h.nodes y).n)))
    (HeapM.put fun h => h.set x ((h.nodes x).moveKeys (h.nodes y) i j.toNat count.toNat))
  moveNodes x i y j count := HeapM.guarded
    (fun h => 0 ≤ count ∧ 0 ≤ i ∧ i + count ≤ 2 * t ∧ 0 ≤ j ∧ j + count ≤ 2 * t ∧
      (strict = true → j + count ≤ (h.nodes y).n + 1 ∨ x = y ∧ i = 0 ∧ j = 1 ∧ count ≤ (h.nodes y).n + 1))
    (HeapM.put fun h => h.set x { h.nodes x with
      kids := Slots.move (h.nodes x).kids (h.nodes y).kids i.toNat j.toNat count.toNat })
  persist _ := pure ()
  alloc := fun h m => (.ok (supply h.next, supply h.next), h.alloc (supply h.next), m)
  pPtr x := HeapM.get fun h => (h.nodes x).pPtr
  setPPtr x ptr_ := HeapM.put fun h => h.set x { h.nodes x with pPtr := ptr_ }
  activate _ := pure ()
  free _ := pure ()

/-! ## Running -/

/-- From any exact table of some length on, `act` ends with `o` in the heap `h'`; the table is as long as before. -/
def Does {α : Type} (N : ℕ) (h : Heap) (act : HeapM α) (o : Except Fault α) (h' : Heap) : Prop :=
  ∀ m : Memo, m.Exact → N ≤ m.alloced → ∃ m' : Memo, m'.Exact ∧ m'.alloced = m.alloced ∧ act h m = (o, h', m')

namespace Does
variable {α β : Type} {N : ℕ} {h h' h'' : Heap} {act : HeapM α} {f : α → HeapM β} {a : α} {o : Except Fault β}
    {e : Fault}

theorem pure (a : α) : Does N h (Pure.pure a) (.ok a) h := fun m hm _ => ⟨m, hm, rfl, rfl⟩

theorem bind (hact : Does N h act (.ok a) h') (hf : Does N h' (f a) o h'') : Does N h (act >>= f) o h'' := by
  intro m hm hN
  obtain ⟨m', hm', hlen, hrun⟩ := hact m hm hN
  obtain ⟨m'', hm'', hlen', hrun'⟩ := hf m' hm' (hlen ▸ hN)
  refine ⟨m'', hm'', hlen'.trans hlen, ?_⟩
  change (match act h m with
    | (.ok a, h, m) => f a h m
    | (.error e, h, m) => (.error e, h, m)) = _
  rw [hrun]
  exact hrun'

theorem via (a : α) (h' : Heap) (hact : Does N h act (.ok a) h') (hf : Does N h' (f a) o h'') :
    Does N h (act >>= f) o h'' :=
  hact.bind hf

theorem fault (hact : Does N h act (.error e) h') : Does N h (act >>= f) (.error e) h' := by
  intro m hm hN
  obtain ⟨m', hm', hlen, hrun⟩ := hact m hm hN
  refine ⟨m', hm', hlen, ?_⟩
  change (match act h m with
    | (.ok a, h, m) => f a h m
    | (.error e, h, m) => (.error e, h, m)) = _
  rw [hrun]

theorem of_pure {o : Except Fault α} (hact : Does N h (act >>= Pure.pure) o h') : Does N h act o h' := by
  intro m hm hN
  obtain ⟨m', hm', hlen, hrun⟩ := hact m hm hN
  refine ⟨m', hm', hlen, ?_⟩
  rw [← hrun]
  change act h m = match act h m with
    | (.ok a, h, m) => (.ok a, h, m)
    | (.error e, h, m) => (.error e, h, m)
  rcases act h m with ⟨_ | _, _, _⟩ <;> rfl

theorem get (f : Heap → α) : Does N h (HeapM.get f) (.ok (f h)) h := fun m hm _ => ⟨m, hm, rfl, rfl⟩

theorem put (f : Heap → Heap) : Does N h (HeapM.put f) (.ok ()) (f h) := fun m hm _ => ⟨m, hm, rfl, rfl⟩

theorem guarded {p : Heap → Prop} [DecidablePred p] {o : Except Fault α} (hp : p h) (hact : Does N h act o h') :
    Does N h (HeapM.guarded p act) o h' := by
  intro m hm hN
  obtain ⟨m', hm', hlen, hrun⟩ := hact m hm hN
  exact ⟨m', hm', hlen, (if_pos hp).trans hrun⟩

theorem unguarded {p : Heap → Prop} [DecidablePred p] (hp : ¬ p h) : Does N h (HeapM.guarded p act) (.error .slot) h :=
  fun m hm _ => ⟨m, hm, rfl, if_neg hp⟩

end Does

/-- Reading a heap. -/
def heapReads (N : ℕ) (h : Heap) : Reads HeapM where
  holds act a := Does N h act (.ok a) h
  pure a := Does.pure a
  bind hact hf := hact.bind hf

theorem bmod_count {n : ℤ} (h₀ : 0 ≤ n) (hlt : n < 2 ^ 14) : n.bmod (2 ^ 15) = n :=
  Int.bmod_eq_of_le_mul_two (by omega) (by omega)

end PmemExamples.BTree
