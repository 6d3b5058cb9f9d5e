import PmemExamples.BTree.Memory
import PmemExamples.CHashtable.Table

/-! # The hash table in a pool (`c-hashtable/hashtable.c`, `hashtable_private.h`)

The code of `Table` once more, over the words of the pool. A `struct entry` has `k` at 0, `v` at 8, `h` in the low
half of the word at 16 and `next` at 24; a `struct hashtable` has `tablelength` at 0, `table` at 8, `entrycount` and
`loadlimit` in the word at 16, `primeindex` at 24, `hashfn` at 32 and `eqfn` at 40. A process keeps what it asked of
the allocator, also when the allocator ends it. -/

namespace PmemExamples.CHashtable
open Persist Pool BTree
set_option autoImplicit false

/-- A call of the allocator. -/
inductive Request where
  | reserve (size ptr_ : ℕ)
  | onactive (ptr_ : ℕ)
  | activate (ptr_ : ℕ)
  | free (ptr_ : ℕ)
  deriving DecidableEq

structure Host where
  world : World
  gclp : ℕ
  /-- oldest first -/
  requests : List Request

/-- A program of a process with a pool: its outcome and the process it leaves. -/
def Session (α : Type) : Type := Host → Outcome α × Host

namespace Session
variable {α β : Type}

protected def pure (a : α) : Session α := fun H => (.ok a, H)

protected def bind (q : Session α) (f : α → Session β) : Session β := fun H =>
  match q H with
  | (.ok a, H') => f a H'
  | (.fatal s, H') => (.fatal s, H')
  | (.hang, H') => (.hang, H')

instance : Monad Session where
  pure := Session.pure
  bind := Session.bind

def lift (prog : Prog α) : Session α := fun H => ((prog H.world).1, { H with world := (prog H.world).2 })

/-- The request is made. -/
def ask (r : Request) : Session Unit := fun H => (.ok (), { H with requests := H.requests ++ [r] })

end Session

namespace Code
open Session (lift ask)

/-- `pmemalloc_reserve`, which keeps its cursor in a global. -/
def reserve (pmp size : ℕ) : Session ℕ := fun H =>
  match pmemallocReserve pmp H.gclp size H.world with
  | (.ok res, w) => (.ok res.ptr_, ⟨w, res.gclp, H.requests ++ [.reserve size res.ptr_]⟩)
  | (.fatal s, w) => (.fatal s, { H with world := w })
  | (.hang, w) => (.hang, { H with world := w })

/-- `pmemalloc_reserv_virtual`: the address, and `*tmp`. -/
def pmemallocReservVirtual (pmp size : ℕ) : Session (ℕ × ℕ) := do
  let ptr ← reserve pmp size
  return (pmem pmp ptr, ptr)

def pmemallocActivateLocal (pmp ptr_ : ℕ) : Session Unit := do
  ask (.onactive ptr_)
  lift (pmemallocOnactive pmp ptr_ (pmem pmp pmemStaticOffset) ptr_)
  ask (.activate ptr_)
  lift (pmemallocActivate pmp ptr_)

def pmemallocFreeLocal (pmp ptr_ : ℕ) : Session Unit := do
  ask (.free ptr_)
  lift (pmemallocFree pmp ptr_)

/-- `sizeof(struct hashtable)`, `sizeof(struct entry)`. -/
@[simp] abbrev sizeofHashtable : ℕ := 48
@[simp] abbrev sizeofEntry : ℕ := 32

/-- The stores of `create_hashtable` once it has its memory. -/
def initHashtable (h size pindex hashf eqf : ℕ) : Prog Unit := do
  bzeroWords (← Prog.load (h + 8)) (List.range size)
  setBits h (setLow · size)
  setBits (h + 24) (setLow · pindex)
  setBits (h + 16) (setLow · 0)
  Prog.store (h + 32) hashf
  Prog.store (h + 40) eqf
  setBits (h + 16) (setHigh · (loadLimit size))

/-- `create_hashtable` on the pool at `pmp`; `hashf` and `eqf` are the addresses of the functions on keys. -/
def createHashtable (pmp minsize hashf eqf : ℕ) : Session ℕ :=
  if 2 ^ 30 < minsize then return 0
  else do
    let pindex := primes.findIdx (minsize < ·)
    let size := primes.getD pindex 53
    let (h, tmp) ← pmemallocReservVirtual pmp sizeofHashtable
    if h = 0 then return 0
    else do
      let (table, tmp1) ← pmemallocReservVirtual pmp (8 * size)
      lift (Prog.store (h + 8) table)
      lift (initHashtable h size pindex hashf eqf)
      pmemallocActivateLocal pmp tmp1
      pmemallocActivateLocal pmp tmp
      return h

/-- `e->h`. -/
def loadHash (e : ℕ) : Prog UInt32 := do
  return UInt32.ofNat (lowInt (← Prog.load (e + 16)))

/-! ## `hashtable_expand` -/

/-- `while (NULL != (e = h->table[i]))`. -/
def moveBucket (h newtable newsize i : ℕ) : ℕ → Prog Unit
  | 0 => Prog.hang
  | fuel + 1 => do
    let table ← Prog.load (h + 8)
    let e ← Prog.load (table + 8 * i)
    if e = 0 then pure ()
    else do
      let next ← Prog.load (e + 24)
      Prog.store (table + 8 * i) next
      let index := indexFor newsize (← loadHash e)
      let first ← Prog.load (newtable + 8 * index)
      Prog.store (e + 24) first
      Prog.store (newtable + 8 * index) e
      moveBucket h newtable newsize i fuel

/-- `for (i = 0; i < h->tablelength; i++)`. -/
def moveBuckets (h newtable newsize : ℕ) : ℕ → ℕ → Prog Unit
  | 0, _ => Prog.hang
  | fuel + 1, i => do
    let tablelength := lowInt (← Prog.load h)
    if i < tablelength then do
      moveBucket h newtable newsize i chainFuel
      moveBuckets h newtable newsize fuel (i + 1)
    else pure ()

/-- What `hashtable_expand` does with the new array. -/
def fillTable (h newtable newsize : ℕ) : Prog Unit :=
  if newtable = 0 then pure ()
  else do
    bzeroWords newtable (List.range newsize)
    moveBuckets h newtable newsize chainFuel 0
    Prog.store (h + 8) newtable

/-- The table takes the new array over. -/
def replaceTable (h newtable newsize : ℕ) : Prog Unit := do
  fillTable h newtable newsize
  setBits h (setLow · newsize)
  setBits (h + 16) (setHigh · (loadLimit newsize))

/-- `hashtable_expand` once it knows the new size. -/
def enlarge (pmp h newsize : ℕ) : Session ℤ := do
  let (newtable, tmp) ← pmemallocReservVirtual pmp (8 * newsize)
  lift (replaceTable h newtable newsize)
  pmemallocActivateLocal pmp tmp
  return -1

def hashtableExpand (pmp h : ℕ) : Session ℤ := do
  let primeindex := lowInt (← lift (Prog.load (h + 24)))
  if primeindex = primeTableLength - 1 then return 0
  else do
    lift (setBits (h + 24) (setLow · (primeindex + 1)))
    enlarge pmp h (primes.getD (primeindex + 1) 0)

section Keys
variable (hashfn : ℕ → UInt32) (eqfn : ℕ → ℕ → Bool)

/-! ## The operations -/

/-- `if (++(h->entrycount) > h->loadlimit) hashtable_expand(h);` -/
def countEntry (pmp h : ℕ) : Session Unit := do
  let word ← lift (Prog.load (h + 16))
  let entrycount := (lowInt word + 1) % 2 ^ 32
  lift (Prog.store (h + 16) (setLow word entrycount))
  if highInt word < entrycount then do
    let _ ← hashtableExpand pmp h
    return ()
  else return ()

/-- The new entry in front of its chain. -/
def linkEntry (h e k v : ℕ) : Prog Unit := do
  setBits (e + 16) (setLow · (hash hashfn k).toNat)
  let tablelength := lowInt (← Prog.load h)
  let index := indexFor tablelength (← loadHash e)
  Prog.store e k
  Prog.store (e + 8) v
  let table ← Prog.load (h + 8)
  let first ← Prog.load (table + 8 * index)
  Prog.store (e + 24) first
  let table ← Prog.load (h + 8)
  Prog.store (table + 8 * index) e

/-- `hashtable_insert` behind the count; without `_ENABL_DATAPERSIST` the new entry stays reserved. -/
def addEntry (pmp h k v : ℕ) : Session ℤ := do
  let (e, _) ← pmemallocReservVirtual pmp sizeofEntry
  if e = 0 then do
    lift (setBits (h + 16) fun word => setLow word (lowInt word + (2 ^ 32 - 1)))
    return 0
  else do
    lift (linkEntry hashfn h e k v)
    return -1

def hashtableInsert (pmp h k v : ℕ) : Session ℤ := do
  countEntry pmp h
  addEntry hashfn pmp h k v

/-- The loop of `hashtable_search`. -/
def searchLoop (k : ℕ) (hashvalue : UInt32) : ℕ → ℕ → Prog ℕ
  | 0, _ => Prog.hang
  | fuel + 1, e =>
    if e = 0 then pure 0
    else do
      let hv ← loadHash e
      let ek ← Prog.load e
      if hashvalue = hv ∧ eqfn k ek then Prog.load (e + 8)
      else do
        let next ← Prog.load (e + 24)
        searchLoop k hashvalue fuel next

def hashtableSearch (h k : ℕ) : Prog ℕ := do
  let hashvalue := hash hashfn k
  let tablelength := lowInt (← Prog.load h)
  let table ← Prog.load (h + 8)
  let e ← Prog.load (table + 8 * indexFor tablelength hashvalue)
  searchLoop eqfn k hashvalue chainFuel e

/-- What `hashtable_remove` does with the entry it found; `pE` is the address of the pointer to it. -/
def removeEntry (pmp h pE e : ℕ) : Session ℕ := do
  let next ← lift (Prog.load (e + 24))
  lift (Prog.store pE next)
  lift (setBits (h + 16) fun word => setLow word (lowInt word + (2 ^ 32 - 1)))
  let v ← lift (Prog.load (e + 8))
  let k ← lift (Prog.load e)
  pmemallocFreeLocal pmp k
  pmemallocFreeLocal pmp e
  return v

/-- The loop of `hashtable_remove`. -/
def removeLoop (pmp h k : ℕ) (hashvalue : UInt32) : ℕ → ℕ → ℕ → Session ℕ
  | 0, _, _ => lift Prog.hang
  | fuel + 1, pE, e =>
    if e = 0 then return 0
    else do
      let hv ← lift (loadHash e)
      let ek ← lift (Prog.load e)
      if hashvalue = hv ∧ eqfn k ek then removeEntry pmp h pE e
      else do
        let next ← lift (Prog.load (e + 24))
        removeLoop pmp h k hashvalue fuel (e + 24) next

def hashtableRemove (pmp h k : ℕ) : Session ℕ := do
  let hashvalue := hash hashfn k
  let tablelength := lowInt (← lift (Prog.load h))
  let table ← lift (Prog.load (h + 8))
  let pE := table + 8 * indexFor tablelength hashvalue
  let e ← lift (Prog.load pE)
  removeLoop eqfn pmp h k hashvalue chainFuel pE e

end Keys

end Code

end PmemExamples.CHashtable
