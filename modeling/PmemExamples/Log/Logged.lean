import PmemExamples.Libpmem.Modes
import PmemExamples.Log.Sessions

/-! # The log of cache-line mode

With the `-D_ENABLE_LOG` build, `pmem_persist_cl` appends every range to a log memory pool before it flushes it,
and exits when the pool is full. -/

namespace PmemExamples.Log
open Persist Libpmem
set_option autoImplicit false

namespace Contents
variable {cap : ℕ}

/-- `pmemlog_append`, on the contents. -/
def take (l : Contents cap) (buf : List UInt8) : Option (Contents cap) :=
  if h : l.Room buf then some (l.append buf h) else none

theorem step_append (l : Contents cap) (buf : List UInt8) : (Call.append buf).step l =
    match l.take buf with
    | some l' => (l', none)
    | none => (l, some .ENOSPC) := by
  unfold take
  by_cases h : l.Room buf
  · rw [dif_pos h]
    exact dif_pos h
  · rw [dif_neg h]
    exact dif_neg h

end Contents

section Run
variable {cap pmBase : ℕ} {base : Mem} {s : Process (Contents cap)} {l : Contents cap} {op : Op}

end Run

end PmemExamples.Log
