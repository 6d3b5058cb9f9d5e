import PmemExamples.Libpmem.Flush
import PmemExamples.Pool.Layout

/-! # The allocator (`libpmemalloc/pmemalloc.c`)

Each routine as the source has it, statement for statement. The loops that follow clump sizes carry
fuel: they make at most `loopFuel` iterations, more than there are 64-byte chunks in an address
space, and `hang` beyond. The search cursor `gclp` is a global of the process, not of the pool: it is
passed in and out. -/

namespace PmemExamples.Pool
open Persist Libpmem
set_option autoImplicit false

def loopFuel : ℕ := 2 ^ 64

inductive Errno where
  | ENOENT
  | EINVAL
  | ENOMEM
  deriving DecidableEq, Repr

/-- What `%d` prints of a word. -/
def printedInt (n : ℕ) : ℤ := (BitVec.ofNat 32 n).toInt

/-- `ASSERTeq(lhs, rhs)`. -/
def assertEq (lhsText : String) (lhs : ℕ) (rhsText : String) (rhs : ℕ) : Prog Unit :=
  if lhs = rhs then pure ()
  else Prog.fatal s!"assertion failure: {lhsText} ({printedInt lhs}) == {rhsText} ({printedInt rhs})"

/-- In the `-D_NODATAPERSIST` build: `_DATAPERSIST` while `enable_persist()` reads zero, else 0. -/
def persistFlags : Prog ℕ := do
  if ← Prog.isRelaxed then
    if !(← enablePersist) then return dataPersist else return 0
  else return 0

/-! ## The on-list -/

/-- `for (i = 0; i < PMEM_NUM_ON; i++) if (clp->on[i].off) { *dest = ptr_; persist } else break;` -/
def execOn (pmp clp flags : ℕ) : List ℕ → Prog Unit
  | [] => pure ()
  | i :: is => do
    let offset ← Prog.load (onOff clp i)
    if offset ≠ 0 then do
      let dest := pmem pmp offset
      let ptr_ ← Prog.load (onPtr clp i)
      Prog.store dest ptr_
      pmemPersist dest sizeofPtr flags
      execOn pmp clp flags is
    else pure ()

/-- `for (i = PMEM_NUM_ON - 1; i >= 0; i--) clp->on[i].off = 0;` -/
def clearOn (clp : ℕ) : List ℕ → Prog Unit
  | [] => pure ()
  | i :: is => do
    Prog.store (onOff clp i) 0
    clearOn clp is

/-- The indices of the two loops. -/
def onUp : List ℕ := [0, 1, 2]
def onDown : List ℕ := [2, 1, 0]

/-! ## Recovery -/

/-- The `switch (state)` of `pmemalloc_recover`. -/
def recoverClump (pmp clp sz : ℕ) : ℕ → Prog Unit
  | 1 => do
    clearOn clp onDown
    pmemPersist clp sizeofClump 0
    Prog.store clp (sz ||| State.free.code)
    pmemPersist clp sizeofClump 0
  | 2 => do
    execOn pmp clp 0 onUp
    clearOn clp onDown
    pmemPersist clp sizeofClump 0
    Prog.store clp (sz ||| State.active.code)
    pmemPersist clp sizeofClump 0
  | 4 => do
    execOn pmp clp 0 onUp
    clearOn clp onDown
    pmemPersist clp sizeofClump 0
    Prog.store clp (sz ||| State.free.code)
    pmemPersist clp sizeofClump 0
  | _ => pure ()

def recoverLoop (pmp : ℕ) : ℕ → ℕ → Prog Unit
  | 0, _ => Prog.hang
  | fuel + 1, clp => do
    let size ← Prog.load clp
    if size = 0 then pure ()
    else do
      recoverClump pmp clp (clumpSz size) (clumpState size)
      recoverLoop pmp fuel (clp + clumpSz size)

def pmemallocRecover (pmp : ℕ) : Prog Unit := recoverLoop pmp loopFuel (pmem pmp pmemClumpOffset)

/-- The `while` loop of `pmemalloc_coalesce_free` and the special case after it. `firstfree` and
`lastfree` are null pointers when no run is open. -/
def coalesceLoop (flags : ℕ) : ℕ → (clp firstfree lastfree csize : ℕ) → Prog Unit
  | 0, _, _, _, _ => Prog.hang
  | fuel + 1, clp, firstfree, lastfree, csize => do
    let size ← Prog.load clp
    if size = 0 then
      if firstfree ≠ 0 ∧ lastfree ≠ 0 then do
        Prog.store firstfree (csize ||| State.free.code)
        pmemPersist firstfree sizeofClump 0
      else pure ()
    else
      let sz := clumpSz size
      if clumpState size = State.free.code then
        if firstfree = 0 then coalesceLoop flags fuel (clp + sz) clp lastfree (csize + sz)
        else coalesceLoop flags fuel (clp + sz) firstfree clp (csize + sz)
      else if firstfree ≠ 0 ∧ lastfree ≠ 0 then do
        Prog.store firstfree (csize ||| State.free.code)
        pmemPersist firstfree sizeofClump flags
        coalesceLoop flags fuel (clp + sz) 0 0 0
      else coalesceLoop flags fuel (clp + sz) 0 0 0

def pmemallocCoalesceFree (pmp : ℕ) : Prog Unit := do
  let flags ← persistFlags
  coalesceLoop flags loopFuel (pmem pmp pmemClumpOffset) 0 0 0

/-- What `pmemalloc_init` runs on the mapped file. -/
def recovery (pmp : ℕ) : Prog Unit := do
  pmemallocRecover pmp
  pmemallocCoalesceFree pmp

/-! ## `pmemalloc_reserve` -/

/-- `roundup(size + PMEM_CHUNK_SIZE, PMEM_CHUNK_SIZE)` on `size_t`. -/
def reserveSize (size : ℕ) : ℕ :=
  ((size + pmemChunkSize) % 2 ^ 64 + (pmemChunkSize - 1)) % 2 ^ 64 / pmemChunkSize * pmemChunkSize

/-- `memset(newclp, '\0', sizeof(*newclp))`, word by word. -/
def memsetClump (clp : ℕ) : List ℕ → Prog Unit
  | [] => pure ()
  | i :: is => do
    Prog.store (clp + 8 * i) 0
    memsetClump clp is

/-- `for (i = 0; i < PMEM_NUM_ON; i++) { clp->on[i].off = 0; clp->on[i].ptr_ = 0; }` -/
def resetOn (clp : ℕ) : List ℕ → Prog Unit
  | [] => pure ()
  | i :: is => do
    Prog.store (onOff clp i) 0
    Prog.store (onPtr clp i) 0
    resetOn clp is

/-- The body of the first-fit test: split the clump when 128 bytes are left over, and reserve it. -/
def reserveClump (clp sz nsize : ℕ) : Prog Unit :=
  let leftover := sz - nsize
  if pmemChunkSize * 2 ≤ leftover then do
    let newclp := clp + nsize
    memsetClump newclp [0, 1, 2, 3, 4, 5, 6, 7]
    Prog.store newclp (leftover ||| State.free.code)
    pmemPersist newclp sizeofClump 0
    resetOn clp onUp
    pmemPersist clp sizeofClump 0
    Prog.store clp (nsize ||| State.reserved.code)
    pmemPersist clp sizeofClump 0
  else do
    resetOn clp onUp
    pmemPersist clp sizeofClump 0
    Prog.store clp (sz ||| State.reserved.code)
    pmemPersist clp sizeofClump 0

/-- What `pmemalloc_reserve` returns: the pointer (0 is `NULL`), the error it sets, and the new value
of the global `gclp`. -/
structure Reserved where
  ptr_ : ℕ
  errno : Option Errno
  gclp : ℕ
  deriving DecidableEq

def firstFit (pmp gclp nsize : ℕ) : ℕ → ℕ → Prog Reserved
  | 0, _ => Prog.hang
  | fuel + 1, clp => do
    let size ← Prog.load clp
    if size = 0 then pure ⟨0, some .ENOMEM, gclp⟩
    else if clumpState size = State.free.code ∧ nsize ≤ clumpSz size then do
      reserveClump clp (clumpSz size) nsize
      pure ⟨off pmp (clp + pmemChunkSize), none, clp⟩
    else firstFit pmp gclp nsize fuel (clp + clumpSz size)

def pmemallocReserve (pmp gclp size : ℕ) : Prog Reserved := do
  let clp := if gclp = 0 then pmem pmp pmemClumpOffset else gclp
  let word ← Prog.load clp
  if word = 0 then Prog.fatal "no clumps found"
  else firstFit pmp gclp (reserveSize size) loopFuel clp

/-! ## `pmemalloc_onactive`, `pmemalloc_onfree` -/

/-- Take the first unused entry of the on-list: `ptr_` first, then `off`. -/
def placeOn (pmp clp parentp_ nptr_ flags : ℕ) (limit : String) : List ℕ → Prog Unit
  | [] => Prog.fatal limit
  | i :: is => do
    let offset ← Prog.load (onOff clp i)
    if offset = 0 then do
      Prog.store (onPtr clp i) nptr_
      pmemPersist clp sizeofClump flags
      Prog.store (onOff clp i) (off pmp parentp_)
      pmemPersist clp sizeofClump 0
    else placeOn pmp clp parentp_ nptr_ flags limit is

def pmemallocOnactive (pmp ptr_ parentp_ nptr_ : ℕ) : Prog Unit := do
  let clp := clumpOf pmp ptr_
  let size ← Prog.load clp
  assertEq "clp->size & PMEM_STATE_MASK" (clumpState size) "PMEM_STATE_RESERVED" State.reserved.code
  placeOn pmp clp parentp_ nptr_ 0 "exceeded onactive limit (3)" onUp

def pmemallocOnfree (pmp ptr_ parentp_ nptr_ : ℕ) : Prog Unit := do
  let flags ← persistFlags
  let clp := clumpOf pmp ptr_
  let size ← Prog.load clp
  assertEq "clp->size & PMEM_STATE_MASK" (clumpState size) "PMEM_STATE_ACTIVE" State.active.code
  placeOn pmp clp parentp_ nptr_ flags "exceeded onfree limit (3)" onUp

/-! ## `pmemalloc_activate`, `pmemalloc_free` -/

def pmemallocActivate (pmp ptr_ : ℕ) : Prog Unit := do
  let clp := clumpOf pmp ptr_
  let size ← Prog.load clp
  assertEq "clp->size & PMEM_STATE_MASK" (clumpState size) "PMEM_STATE_RESERVED" State.reserved.code
  let sz := clumpSz size
  -- the length counts the state bits of `clp->size` in
  pmemPersist (pmem pmp ptr_) (size - pmemChunkSize) 0
  Prog.store clp (sz ||| State.activating.code)
  pmemPersist clp sizeofClump 0
  execOn pmp clp 0 onUp
  clearOn clp onDown
  pmemPersist clp sizeofClump 0
  Prog.store clp (sz ||| State.active.code)
  pmemPersist clp sizeofClump 0

/-- The `if (state == PMEM_STATE_ACTIVE)` block of `pmemalloc_free`. -/
def freeActive (pmp clp sz flags : ℕ) : Prog Unit := do
  Prog.store clp (sz ||| State.freeing.code)
  pmemPersist clp sizeofClump flags
  execOn pmp clp flags onUp
  clearOn clp onDown
  pmemPersist clp sizeofClump 0

def pmemallocFree (pmp ptr_ : ℕ) : Prog Unit := do
  let flags ← persistFlags
  let clp := clumpOf pmp ptr_
  let size ← Prog.load clp
  let sz := clumpSz size
  let state := clumpState size
  if state ≠ State.reserved.code ∧ state ≠ State.active.code then
    Prog.fatal s!"freeing clumb in bad state: {state}"
  else do
    if state = State.active.code then freeActive pmp clp sz flags else pure ()
    Prog.store clp (sz ||| State.free.code)
    pmemPersist clp sizeofClump flags
    pmemallocCoalesceFree pmp

/-! ## `pmemalloc_init` -/

/-- A file: its size in bytes and its words by offset. -/
structure File where
  size : ℕ
  data : Mem

/-- Little-endian word of eight bytes. -/
def wordOfBytes (bytes : List ℕ) : ℕ := bytes.foldr (fun b acc => b + 256 * acc) 0

/-- `PMEM_SIGNATURE` with its final NUL, as the two words it fills. -/
def signature0 : ℕ := wordOfBytes [0x2a, 0x50, 0x4d, 0x45, 0x4d, 0x41, 0x4c, 0x4c]
def signature1 : ℕ := wordOfBytes [0x4f, 0x43, 0x5f, 0x50, 0x4f, 0x4f, 0x4c, 0x00]

/-- `(size & ~(PMEM_CHUNK_SIZE - 1)) - PMEM_CHUNK_SIZE`. -/
def lastClumpOff (size : ℕ) : ℕ := size / pmemChunkSize * pmemChunkSize - pmemChunkSize

/-- Creating a pool: a file of zeros with one clump over all of it, and the pool header. -/
def createPool (size : ℕ) : Except Errno File :=
  if size < pmemMinPoolSize then .error .EINVAL
  else .ok
    { size := size
      data := applyAll
        [.store pmemClumpOffset (lastClumpOff size - pmemClumpOffset),
          .store pmemHdrOffset signature0, .store (pmemHdrOffset + 8) signature1,
          .store (pmemHdrOffset + 16) size] (fun _ => 0) }

/-- `pmem_map`: the file's words at the addresses from `pmp` on. -/
def pmemMap (pmp : ℕ) (file : File) : Mem :=
  fun a => if pmp ≤ a ∧ a < pmp + file.size then file.data (a - pmp) else 0

/-- `pmemalloc_init` on a path at which `stat` finds `file`, or nothing; the system calls succeed and
the mapping lands at `pmp`. Returns the mapped file; recovery then runs on it. -/
def pmemallocInit (file : Option File) (size pmp : ℕ) (relaxed : Bool) (epoch : ℕ → Bool) :
    Except Errno (Outcome Unit × World) := do
  let f ← match file with
    | none => createPool size
    | some f => pure f
  return recovery pmp (World.boot (pmemMap pmp f) relaxed epoch)

end PmemExamples.Pool
