import PmemExamples.BTree.Code
import PmemExamples.Persist.Bytes
import PmemExamples.Pool.Allocator

/-! # The B-tree in a pool (`btree-1.0/bt_code.c`, `btreepriv.h`)

Nodes at their addresses in the process, with absolute pointers between them. A `struct btree` has `root`
at 0, `cmp` at 8, then pairs of `int`s `keyoff`/`nodeptroff`, `nkeys`/`t`, `nbits`/`textra`, and `p_ptr` at
40; a `struct btreenode` its bit fields `leaf` (bit 0) and `n` (bits 1 to 15) at 0, `p_ptr` at 8, then the
keys and the pointers. The state of a `Proc` is the cursor of the allocator. -/

namespace PmemExamples.BTree
open Persist Libpmem Pool
set_option autoImplicit false

/-! ## Words -/

/-- The two `int`s of a word. -/
def lowInt (word : ℕ) : ℕ := word % 2 ^ 32
def highInt (word : ℕ) : ℕ := word / 2 ^ 32 % 2 ^ 32
def setHigh (word v : ℕ) : ℕ := word % 2 ^ 32 + v % 2 ^ 32 * 2 ^ 32

/-- `leaf`. -/
def leafBit (word : ℕ) : Bool := word % 2 = 1
def setLeafBit (word : ℕ) (b : Bool) : ℕ := word / 2 * 2 + if b then 1 else 0

/-- `n`, a signed field of 15 bits. -/
def nField (word : ℕ) : ℤ := if word / 2 % 2 ^ 15 < 2 ^ 14 then (word / 2 % 2 ^ 15 : ℕ)
    else (word / 2 % 2 ^ 15 : ℕ) - 2 ^ 15
def setNField (word : ℕ) (n : ℤ) : ℕ := word / 2 ^ 16 * 2 ^ 16 + (n % 2 ^ 15).toNat * 2 + word % 2

@[simp] theorem lowInt_setLow (word v : ℕ) : lowInt (setLow word v) = v % 2 ^ 32 := by unfold lowInt setLow; omega
@[simp] theorem highInt_setLow (word v : ℕ) : highInt (setLow word v) = highInt word := by unfold highInt setLow; omega
@[simp] theorem lowInt_setHigh (word v : ℕ) : lowInt (setHigh word v) = lowInt word := by unfold lowInt setHigh; omega
@[simp] theorem highInt_setHigh (word v : ℕ) : highInt (setHigh word v) = v % 2 ^ 32 := by unfold highInt setHigh; omega

@[simp] theorem leafBit_setNField (word : ℕ) (n : ℤ) : leafBit (setNField word n) = leafBit word := by
  unfold leafBit setNField
  congr 2
  omega

theorem nField_setNField (word : ℕ) {n : ℤ} (h₀ : 0 ≤ n) (h : n < 2 ^ 14) : nField (setNField word n) = n := by
  have hn : (setNField word n) / 2 % 2 ^ 15 = n.toNat := by
    unfold setNField
    omega
  rw [nField, hn, if_pos (by omega)]
  omega

/-- The address of slot `i` of an array of pointers. -/
def slotAddr (base : ℕ) (i : ℤ) : ℕ := ((base + 8 * i) % 2 ^ 64).toNat

/-! ## Processes -/

/-- A program of a process that keeps the allocator's cursor. -/
abbrev Proc (α : Type) : Type := StateT ℕ Prog α

def Proc.lift {α : Type} (prog : Prog α) : Proc α := fun gclp => do
  let a ← prog
  return (a, gclp)

namespace Proc
variable {α β : Type} {x : Bool} {prog : Prog α} {q : Proc α} {f : α → Proc β} {a : α} {b : β × ℕ} {g g' : ℕ}
  {w w' : World} {m : Mem} {evs evs' : List Event}

theorem lift_ok (h : prog w = (.ok a, w')) : lift prog g w = (.ok (a, g), w') := Prog.bind_ok h

theorem lift_fatal {msg : String} (h : prog w = (.fatal msg, w')) : lift prog g w = (.fatal msg, w') := by
  show (prog >>= fun a => pure (a, g)) w = _
  rw [Prog.bind_apply, h]

theorem bind_ok (h : q g w = (.ok (a, g'), w')) : (q >>= f) g w = f a g' w' := Prog.bind_ok h

theorem bind_fatal {msg : String} (h : q g w = (.fatal msg, w')) : (q >>= f) g w = (.fatal msg, w') := by
  show (q g >>= fun s => f s.1 s.2) w = _
  rw [Prog.bind_apply, h]

theorem lift_runs (h : Runs x prog m a evs) : Runs x (lift prog g) m (a, g) evs := by
  have hret : Runs x (lift prog g) m (a, g) (evs ++ []) := h.bind (Runs.pure x _ (a, g))
  rwa [List.append_nil] at hret

theorem bind_runs (h : Runs x (q g) m (a, g') evs) (hf : Runs x (f a g') (applyAll evs m) b evs') :
    Runs x ((q >>= f) g) m b (evs ++ evs') := h.bind hf

theorem bind_silent (h : Runs x (q g) m (a, g') []) (hf : Runs x (f a g') m b evs) : Runs x ((q >>= f) g) m b evs :=
  h.bind hf

end Proc

/-- `memmove` of words, those of the indices in turn. -/
def copyWords (destination source : ℕ) : List ℕ → Prog Unit
  | [] => pure ()
  | j :: js => do
    let v ← Prog.load (source + 8 * j)
    Prog.store (destination + 8 * j) v
    copyWords destination source js

/-- `persist_memmove` of `count * sizeof(void *)` bytes, a `size_t`. -/
def persistMemmove (destination source : ℕ) (count : ℤ) : Prog Unit := do
  let num := (count * 8 % 2 ^ 64).toNat
  let js := List.range (num / 8)
  copyWords destination source (if destination ≤ source then js else js.reverse)
  pmemPersist destination num (← dataFlags)

/-- `pmemalloc_reserv_virtual`: the address, and `*tmp`. -/
def pmemallocReservVirtual (pmp size : ℕ) : Proc (ℕ × ℕ) := fun gclp => do
  let res ← pmemallocReserve pmp gclp size
  return ((pmem pmp res.ptr_, res.ptr_), res.gclp)

def pmemallocActivateLocal (pmp ptr_ : ℕ) : Prog Unit := do
  pmemallocOnactive pmp ptr_ (pmem pmp pmemStaticOffset) ptr_
  pmemallocActivate pmp ptr_

/-- `bzero` of so many words. -/
def bzeroWords (a : ℕ) : List ℕ → Prog Unit
  | [] => pure ()
  | j :: js => do
    Prog.store (a + 8 * j) 0
    bzeroWords a js

def setBits (a : ℕ) (f : ℕ → ℕ) : Prog Unit := do
  let word ← Prog.load a
  Prog.store a (f word)

/-- `sizeof(struct btree)`, `sizeof(struct btreenode)`. -/
@[simp] abbrev sizeofBtree : ℕ := 48
@[simp] abbrev sizeofBtreenode : ℕ := 16

/-- `allocbtreenode(n, &tmp)`. -/
def allocbtreenode (pmp n : ℕ) : Proc (ℕ × ℕ) := do
  let (btn, tmp) ← pmemallocReservVirtual pmp (sizeofBtreenode + n)
  if btn = 0 then return (btn, tmp)
  else do
    Proc.lift do
      bzeroWords btn (List.range ((sizeofBtreenode + n) / 8))
      setBits btn (setLeafBit · true)
    return (btn, tmp)

/-- The nodes of the tree at `btr`. -/
def pmemOps (pmp btr : ℕ) : NodeOps Proc where
  hang := Proc.lift Prog.hang
  exit := Proc.lift (Prog.fatal "exit(1)")
  log2 a nbits := return log2 a nbits
  root := Proc.lift (Prog.load btr)
  setRoot x := Proc.lift (Prog.store btr x)
  t := Proc.lift do return (highInt (← Prog.load (btr + 24)) : ℤ)
  nbits := Proc.lift do return lowInt (← Prog.load (btr + 32))
  leaf x := Proc.lift do return leafBit (← Prog.load x)
  setLeaf x b := Proc.lift (setBits x (setLeafBit · b))
  n x := Proc.lift do return nField (← Prog.load x)
  setN x n := Proc.lift (setBits x (setNField · n))
  key x i := Proc.lift do Prog.load (slotAddr (x + lowInt (← Prog.load (btr + 16))) i)
  setKey x i k := Proc.lift do Prog.store (slotAddr (x + lowInt (← Prog.load (btr + 16))) i) k
  node x i := Proc.lift do Prog.load (slotAddr (x + highInt (← Prog.load (btr + 16))) i)
  setNode x i y := Proc.lift do Prog.store (slotAddr (x + highInt (← Prog.load (btr + 16))) i) y
  moveKeys x i y j count := Proc.lift do
    let keyoff := lowInt (← Prog.load (btr + 16))
    persistMemmove (slotAddr (x + keyoff) i) (slotAddr (y + keyoff) j) count
  moveNodes x i y j count := Proc.lift do
    let nodeptroff := highInt (← Prog.load (btr + 16))
    persistMemmove (slotAddr (x + nodeptroff) i) (slotAddr (y + nodeptroff) j) count
  persist x := Proc.lift (pmemPersist x sizeofBtreenode dataPersist)
  alloc := do
    let textra ← Proc.lift do return highInt (← Prog.load (btr + 32))
    let (btn, tmp) ← allocbtreenode pmp textra
    if btn = 0 then Proc.lift (Prog.fatal "exit(1)") else return (btn, tmp)
  pPtr x := Proc.lift (Prog.load (x + 8))
  setPPtr x ptr_ := Proc.lift (Prog.store (x + 8) ptr_)
  activate ptr_ := Proc.lift (pmemallocActivateLocal pmp ptr_)
  free _ := return ()

/-! ## `bt_create` -/

/-- The `t` that `bt_create` computes from `size`, an `int`. -/
def degree (size : Int32) : ℤ := ((size - 24).toInt / 16 + 1) / 2

theorem degree_lt (size : Int32) : degree size < 2 ^ 27 := by
  have := (size - 24).toInt_lt
  unfold degree
  omega

/-- The stores of `allocbtree_intel`. -/
def clearBtree (btr : ℕ) : Prog Unit := do
  Prog.store btr 0
  Prog.store (btr + 8) 0
  setBits (btr + 16) (setLow · 0)
  setBits (btr + 16) (setHigh · 0)
  setBits (btr + 24) (setLow · 0)
  setBits (btr + 24) (setHigh · 0)
  setBits (btr + 32) (setLow · 0)
  setBits (btr + 32) (setHigh · 0)

/-- What `bt_create` stores to the struct. -/
def initBtree (btr tmp cmp t : ℕ) : Prog Unit := do
  let n := 2 * t - 1
  Prog.store (btr + 40) tmp
  Prog.store (btr + 8) cmp
  setBits (btr + 16) (setLow · sizeofBtreenode)
  setBits (btr + 16) (setHigh · (sizeofBtreenode + n * 8))
  setBits (btr + 24) (setLow · n)
  setBits (btr + 24) (setHigh · t)
  setBits (btr + 32) (setLow · (log2 n 32 + 1))
  setBits (btr + 32) (setLow · (nbitsOf n))
  setBits (btr + 32) (setHigh · (8 + n * 16))

/-- `btr->root = allocbtreenode(textra, &tmp1)`, and the root's `p_ptr`. -/
def allocRoot (pmp btr textra : ℕ) : Proc ℕ := do
  let (btn, tmp1) ← allocbtreenode pmp textra
  Proc.lift (Prog.store btr btn)
  if btn = 0 then Proc.lift (Prog.fatal "FREE returns nothing")
  else do
    Proc.lift (Prog.store (btn + 8) tmp1)
    return tmp1

/-- `bt_create` on the pool at `pmp`; `cmp` is the address of the comparison. Without a `t` of at least 2 it
goes on with pointers it has not set. -/
def btCreate (pmp cmp : ℕ) (size : Int32) : Proc ℕ := do
  if 0 < (size - 24).toInt / 16 ∧ 2 ≤ degree size then do
    let t := (degree size).toNat
    let (btr, tmp) ← pmemallocReservVirtual pmp sizeofBtree
    if btr = 0 then Proc.lift (Prog.fatal "assertion failure: 0")
    else do
      Proc.lift (clearBtree btr)
      Proc.lift (initBtree btr tmp cmp t)
      let tmp1 ← allocRoot pmp btr (8 + (2 * t - 1) * 16)
      Proc.lift (pmemallocActivateLocal pmp tmp1)
      Proc.lift (pmemallocActivateLocal pmp tmp)
      return btr
  else Proc.lift (Prog.fatal "uninitialised")

/-- Insertions one after another. -/
def btInserts (pmp btr : ℕ) (cmp : ℕ → ℕ → ℤ) : List ℕ → Proc Unit
  | [] => pure ()
  | k :: ks => do
    btInsert (pmemOps pmp btr) cmp loopFuel k
    btInserts pmp btr cmp ks

end PmemExamples.BTree
