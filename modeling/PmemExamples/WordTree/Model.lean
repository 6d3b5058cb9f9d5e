import PmemExamples.Persist.Bytes
import PmemExamples.Pool.Allocator

/-! # The word tree (`binarytree/tree.c`)

A binary tree of counted strings. Links are offsets in the pool, the root is in the static area. A
`struct tnode` has `left_` at 0, `right_` at 8, `count` at 16 and the string from 20 on. The recursions
take fuel; the walk returns the nodes it visits and the freeing the pointers it frees. -/

namespace PmemExamples.WordTree
open Persist Libpmem Pool
set_option autoImplicit false

/-- `sizeof(struct tnode)`. -/
@[simp] abbrev sizeofTnode : ℕ := 24

/-- `&PMEM(Pmp, tnp_)->left_`, and the other members. -/
def leftOf (pmp tnp_ : ℕ) : ℕ := pmem pmp tnp_
def rightOf (pmp tnp_ : ℕ) : ℕ := pmem pmp tnp_ + 8
def countOf (pmp tnp_ : ℕ) : ℕ := pmem pmp tnp_ + 16
def stringOf (pmp tnp_ : ℕ) : ℕ := pmem pmp tnp_ + 20

/-- What `tree_insert_subtree` stores to a node it has activated. -/
def fillNode (pmp tnp_ : ℕ) (s : CString) : Prog Unit := do
  Prog.store (rightOf pmp tnp_) 0
  Prog.store (leftOf pmp tnp_) 0
  storeUnsigned (countOf pmp tnp_) 1
  strcpy (stringOf pmp tnp_) s.bytes
  pmemPersist (stringOf pmp tnp_) (s.bytes.length + 1) (← dataFlags)

/-- "insert a new node here"; the result is the cursor the reservation leaves. -/
def insertNode (pmp gclp rootp_ : ℕ) (s : CString) : Prog ℕ := do
  let res ← pmemallocReserve pmp gclp (sizeofTnode + (s.bytes.length + 1))
  if res.ptr_ = 0 then Prog.fatal "pmem_alloc"
  else do
    pmemallocOnactive pmp res.ptr_ rootp_ res.ptr_
    pmemallocActivate pmp res.ptr_
    fillNode pmp res.ptr_ s
    return res.gclp

/-- "already in tree, increase count" -/
def bumpCount (pmp tnp_ : ℕ) : Prog Unit := do
  let count ← loadUnsigned (countOf pmp tnp_)
  storeUnsigned (countOf pmp tnp_) (count + 1)
  pmemPersist (countOf pmp tnp_) 4 (← dataFlags)

def treeInsertSubtree (pmp gclp : ℕ) (s : CString) : ℕ → ℕ → Prog ℕ
  | 0, _ => Prog.hang
  | fuel + 1, rootp_ => do
    let root_ ← Prog.load rootp_
    if root_ = 0 then insertNode pmp gclp rootp_ s
    else do
      let diff ← strcmp s.bytes (stringOf pmp root_)
      if diff = 0 then do
        bumpCount pmp root_
        return gclp
      else if diff < 0 then treeInsertSubtree pmp gclp s fuel (leftOf pmp root_)
      else treeInsertSubtree pmp gclp s fuel (rightOf pmp root_)

/-- `tree_insert`, in a process whose cursor is `gclp`. -/
def treeInsert (pmp gclp : ℕ) (s : CString) : Prog ℕ :=
  treeInsertSubtree pmp gclp s loopFuel (pmem pmp pmemStaticOffset)

def treeWalkSubtree (pmp : ℕ) : ℕ → ℕ → Prog (List ℕ)
  | 0, _ => Prog.hang
  | fuel + 1, root_ =>
    if root_ = 0 then return []
    else do
      let l ← treeWalkSubtree pmp fuel (← Prog.load (leftOf pmp root_))
      let r ← treeWalkSubtree pmp fuel (← Prog.load (rightOf pmp root_))
      return l ++ root_ :: r

def treeWalk (pmp : ℕ) : Prog (List ℕ) := do
  treeWalkSubtree pmp loopFuel (← Prog.load (pmem pmp pmemStaticOffset))

def treeFreeSubtree (pmp : ℕ) : ℕ → ℕ → Prog (List ℕ)
  | 0, _ => Prog.hang
  | fuel + 1, rootp_ => do
    let root_ ← Prog.load rootp_
    if root_ = 0 then return []
    else do
      let l ← treeFreeSubtree pmp fuel (leftOf pmp root_)
      let r ← treeFreeSubtree pmp fuel (rightOf pmp (← Prog.load rootp_))
      pmemallocOnfree pmp (← Prog.load rootp_) rootp_ 0
      let root_ ← Prog.load rootp_
      pmemallocFree pmp root_
      return l ++ r ++ [root_]

def treeFree (pmp : ℕ) : Prog (List ℕ) :=
  treeFreeSubtree pmp loopFuel (pmem pmp pmemStaticOffset)

end PmemExamples.WordTree
