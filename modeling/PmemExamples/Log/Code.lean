import PmemExamples.Persist.Buffers

/-! # Log memory pools (`libpmem/log.c`)

A pool starts with a `struct pool_hdr` and three offsets: where the data starts, where the pool ends and where the
next byte goes. `log.c` is written against `util.h`, `libpmem.h` and `libpmemlog.h` of another library: what it
takes from them is the parameter `Util`. The calls hold a lock, so each runs by itself; what `log.c` keeps at run
time behind the offsets is a record here. -/

namespace PmemExamples.Log
open Persist
set_option autoImplicit false

inductive Errno where
  | EINVAL
  | EROFS
  | ENOSPC
  deriving DecidableEq, Repr

/-- The members of a converted `struct pool_hdr` that `log.c` looks at. -/
structure PoolHdr where
  signature : List UInt8
  major : ℕ
  deriving DecidableEq

/-- What `log.c` takes from the other library. -/
structure Util where
  /-- `sizeof (struct pool_hdr)` -/
  hdrSize : ℕ
  aligned : 8 ∣ hdrSize
  /-- `PMEMLOG_MIN_POOL` -/
  minPool : ℕ
  /-- `util_convert_hdr`, on the bytes of a header -/
  convertHdr : List UInt8 → Option PoolHdr
  /-- `util_feature_check`: may the pool be written to? -/
  featureCheck : PoolHdr → Except Errno Bool
  /-- the words stored to fill in a new header -/
  newHdr : List (ℕ × ℕ)
  within : ∀ s ∈ newHdr, s.1 + 8 ≤ hdrSize
  /-- the cache lines written back by `pmem_persist(addr, len)`, or by `pmem_msync(addr, len)` -/
  flushed : (isPmem : Bool) → (addr len : ℕ) → List ℕ
  covers : ∀ isPmem addr len ℓ, addr / 64 ≤ ℓ → ℓ * 64 < addr + len → ℓ ∈ flushed isPmem addr len

/-- `LOG_HDR_SIG`, `"PMEMLOG"`. -/
def logHdrSig : List UInt8 := [80, 77, 69, 77, 76, 79, 71]

/-- `LOG_FORMAT_MAJOR`. -/
def logFormatMajor : ℕ := 1

/-- Headers of a page that are recognised by their signature. -/
def pageHdr : Util where
  hdrSize := 4096
  aligned := by decide
  minPool := 2097152
  convertHdr bytes := if bytes.take 8 = logHdrSig ++ [0] then some ⟨logHdrSig, logFormatMajor⟩ else none
  featureCheck _ := .ok true
  newHdr := [(0, 20071912478952784)]
  within := by decide
  flushed _ addr len := List.range' (addr / 64) ((addr + len + 63) / 64 - addr / 64)
  covers := by
    intro _ addr len ℓ hlo hhi
    rw [List.mem_range'_1]
    omega

/-- `LOG_FORMAT_DATA_ALIGN`. -/
@[simp] abbrev logFormatDataAlign : ℕ := 4096

/-- `roundup(sizeof (struct pmemlog), LOG_FORMAT_DATA_ALIGN)`: behind the header come 56 bytes. -/
def dataStart (u : Util) : ℕ := (u.hdrSize + 56 + (logFormatDataAlign - 1)) / logFormatDataAlign * logFormatDataAlign

/-- The run-time part of a `struct pmemlog` at `addr`. -/
structure PMEMlogpool where
  addr : ℕ
  size : ℕ
  rdonly : Bool
  isPmem : Bool

section Calls
variable (u : Util) (plp : PMEMlogpool)

/-- `&plp->start_offset`, and the other offsets. -/
def startOffset : ℕ := plp.addr + u.hdrSize
def endOffset : ℕ := plp.addr + (u.hdrSize + 8)
def writeOffset : ℕ := plp.addr + (u.hdrSize + 16)

/-- `pmem_persist` or `pmem_msync`, by the kind of memory. -/
def persistRange (isPmem : Bool) (addr len : ℕ) : Prog Unit := Prog.flush (u.flushed isPmem addr len)

/-- `pmemlog_persist`: the data, then the metadata. -/
def pmemlogPersist (newWriteOffset : ℕ) : Prog Unit := do
  let oldWriteOffset ← Prog.load (writeOffset u plp)
  persistRange u plp.isPmem (plp.addr + oldWriteOffset) ((newWriteOffset + 2 ^ 64 - oldWriteOffset) % 2 ^ 64)
  Prog.store (writeOffset u plp) newWriteOffset
  persistRange u plp.isPmem (writeOffset u plp) 8

/-- `pmemlog_append`: the value of `errno` if it returns -1. -/
def pmemlogAppend (buf : List UInt8) : Prog (Option Errno) := do
  if plp.rdonly then return some .EROFS
  else do
    let end_ ← Prog.load (endOffset u plp)
    let write ← Prog.load (writeOffset u plp)
    if end_ ≤ write then return some .ENOSPC
    else if end_ - write < buf.length then return some .ENOSPC
    else do
      memcpy (plp.addr + write) buf
      pmemlogPersist u plp (write + buf.length)
      return none

/-- "calculate required space", in a `uint64_t`. -/
def requiredSpace (iov : List (List UInt8)) : ℕ := iov.foldl (fun count buf => (count + buf.length) % 2 ^ 64) 0

/-- "append the data": the new write offset. -/
def appendLoop : List (List UInt8) → ℕ → Prog ℕ
  | [], write => return write
  | buf :: iov, write => do
    memcpy (plp.addr + write) buf
    appendLoop iov ((write + buf.length) % 2 ^ 64)

/-- `pmemlog_appendv`. -/
def pmemlogAppendv (iov : List (List UInt8)) : Prog (Option Errno) := do
  if plp.rdonly then return some .EROFS
  else do
    let end_ ← Prog.load (endOffset u plp)
    let write ← Prog.load (writeOffset u plp)
    if end_ ≤ write then return some .ENOSPC
    else if end_ - write < requiredSpace iov then return some .ENOSPC
    else do
      let write ← appendLoop plp iov write
      pmemlogPersist u plp write
      return none

/-- `pmemlog_nbyte`. -/
def pmemlogNbyte : Prog ℕ := do
  let end_ ← Prog.load (endOffset u plp)
  let start ← Prog.load (startOffset u plp)
  return (end_ + 2 ^ 64 - start) % 2 ^ 64

/-- `pmemlog_tell`. -/
def pmemlogTell : Prog ℕ := do
  let write ← Prog.load (writeOffset u plp)
  let start ← Prog.load (startOffset u plp)
  return (write + 2 ^ 64 - start) % 2 ^ 64

/-- `pmemlog_rewind`: the value of `errno` if it refuses. -/
def pmemlogRewind : Prog (Option Errno) := do
  if plp.rdonly then return some .EROFS
  else do
    let start ← Prog.load (startOffset u plp)
    Prog.store (writeOffset u plp) start
    persistRange u plp.isPmem (writeOffset u plp) 8
    return none

/-- The loop of `pmemlog_walk`. The callback takes what `arg` points to and a chunk, and says whether to go on. -/
def walkLoop {σ : Type} (process : σ → List UInt8 → σ × Bool) (chunksize write : ℕ) : ℕ → ℕ → σ → Prog σ
  | 0, _, _ => Prog.hang
  | fuel + 1, data, s =>
    if data < write then do
      let buf ← readBytes (plp.addr + data) (min chunksize (write - data))
      let res := process s buf
      if res.2 then walkLoop process chunksize write fuel ((data + chunksize) % 2 ^ 64) res.1
      else return res.1
    else return s

/-- `pmemlog_walk`. -/
def pmemlogWalk {σ : Type} (process : σ → List UInt8 → σ × Bool) (chunksize fuel : ℕ) (s : σ) : Prog σ := do
  let write ← Prog.load (writeOffset u plp)
  let data ← Prog.load (startOffset u plp)
  if chunksize = 0 then do
    let buf ← readBytes (plp.addr + data) ((write + 2 ^ 64 - data) % 2 ^ 64)
    return (process s buf).1
  else walkLoop plp process chunksize write fuel data s

end Calls

section Open
variable (u : Util)

/-- The stores that fill in a header. -/
def storeHdr (addr : ℕ) : List (ℕ × ℕ) → Prog Unit
  | [] => pure ()
  | s :: ss => do
    Prog.store (addr + s.1) s.2
    storeHdr addr ss

/-- "creating new log memory pool" -/
def createPool (addr size : ℕ) : Prog Unit := do
  storeHdr addr u.newHdr
  persistRange u false addr u.hdrSize
  Prog.store (addr + u.hdrSize) (dataStart u)
  Prog.store (addr + (u.hdrSize + 8)) size
  let start ← Prog.load (addr + u.hdrSize)
  Prog.store (addr + (u.hdrSize + 16)) start
  persistRange u false (addr + u.hdrSize) 24

/-- `pmemlog_pool_open_common` on a file of `size` bytes mapped at `addr`. -/
def pmemlogPoolOpenCommon (addr size : ℕ) (isPmem rdonly : Bool) : Prog (Except Errno PMEMlogpool) := do
  if size < u.minPool then return .error .EINVAL
  else do
    let bytes ← readBytes addr u.hdrSize
    match u.convertHdr bytes with
    | some hdr =>
      if hdr.signature ≠ logHdrSig then return .error .EINVAL
      else if hdr.major ≠ logFormatMajor then return .error .EINVAL
      else do
        let start ← Prog.load (addr + u.hdrSize)
        let end_ ← Prog.load (addr + (u.hdrSize + 8))
        let write ← Prog.load (addr + (u.hdrSize + 16))
        if start ≠ dataStart u ∨ end_ ≠ size ∨ end_ < start then return .error .EINVAL
        else if end_ < write ∨ write < start then return .error .EINVAL
        else match u.featureCheck hdr with
          | .error e => return .error e
          | .ok writable => return .ok ⟨addr, size, rdonly || !writable, isPmem⟩
    | none =>
      if rdonly then return .error .EROFS
      else do
        createPool u addr size
        return .ok ⟨addr, size, rdonly, isPmem⟩

/-- `pmemlog_pool_open`. -/
def pmemlogPoolOpen (addr size : ℕ) (isPmem : Bool) : Prog (Except Errno PMEMlogpool) :=
  pmemlogPoolOpenCommon u addr size isPmem false

/-- `pmemlog_pool_check`: 1 if consistent, 0 if not, -1 if the pool cannot be opened. -/
def pmemlogPoolCheck (addr size : ℕ) (isPmem : Bool) : Prog ℤ := do
  match ← pmemlogPoolOpenCommon u addr size isPmem true with
  | .error _ => return -1
  | .ok plp =>
    let start ← Prog.load (startOffset u plp)
    let end_ ← Prog.load (endOffset u plp)
    let write ← Prog.load (writeOffset u plp)
    if start ≠ dataStart u ∨ end_ ≠ plp.size ∨ end_ < start ∨ write < start ∨ end_ < write then return 0
    else return 1

end Open

end PmemExamples.Log
