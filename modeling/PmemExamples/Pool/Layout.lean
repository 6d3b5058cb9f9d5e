import PmemExamples.Persist.Program

/-! # The layout of a pool (`libpmemalloc/pmemalloc.c`, `pmemalloc.h`)

A pool is four 4k pages (unmapped, static area, red zone, pool header) followed by clumps: each has a
64-byte header whose first word is the clump's size with its state in the six low bits. A zero size
word ends the list. Addresses are those of the process that mapped the file at `pmp`; `PMEM` and
`OFF` convert between them and the offsets kept in the file, modulo 2^64 as pointers do. -/

namespace PmemExamples.Pool
open Persist
set_option autoImplicit false

/-! ## Constants -/

@[simp] abbrev pmemPageSize : ℕ := 4096
@[simp] abbrev pmemStaticOffset : ℕ := 4096
@[simp] abbrev pmemStaticSize : ℕ := 4096
@[simp] abbrev pmemHdrOffset : ℕ := 12288
@[simp] abbrev pmemClumpOffset : ℕ := 16384
@[simp] abbrev pmemMinPoolSize : ℕ := 1024 * 1024
@[simp] abbrev pmemChunkSize : ℕ := 64
@[simp] abbrev pmemNumOn : ℕ := 3

/-- `sizeof(struct clump)` and `sizeof(uintptr_t)`. -/
@[simp] abbrev sizeofClump : ℕ := 64
@[simp] abbrev sizeofPtr : ℕ := 8

/-- The states of a clump, in the order of their codes. -/
inductive State where
  | free
  | reserved
  | activating
  | active
  | freeing
  deriving DecidableEq, Repr

/-- `PMEM_STATE_FREE` … `PMEM_STATE_FREEING`. -/
def State.code : State → ℕ
  | .free => 0
  | .reserved => 1
  | .activating => 2
  | .active => 3
  | .freeing => 4

@[simp] theorem State.code_free : State.free.code = 0 := rfl
@[simp] theorem State.code_reserved : State.reserved.code = 1 := rfl
@[simp] theorem State.code_activating : State.activating.code = 2 := rfl
@[simp] theorem State.code_active : State.active.code = 3 := rfl
@[simp] theorem State.code_freeing : State.freeing.code = 4 := rfl

theorem State.code_lt (s : State) : s.code < 64 := by cases s <;> decide

theorem State.code_injective {s t : State} (h : s.code = t.code) : s = t := by
  cases s <;> cases t <;> first | rfl | cases h

/-- The state of a code, for the five codes in use. -/
def State.ofCode : ℕ → Option State
  | 0 => some .free
  | 1 => some .reserved
  | 2 => some .activating
  | 3 => some .active
  | 4 => some .freeing
  | _ => none

@[simp] theorem State.ofCode_code (s : State) : State.ofCode s.code = some s := by cases s <;> rfl

/-! ## Addresses -/

/-- `PMEM(pmp, ptr_)`. -/
def pmem (pmp ptr_ : ℕ) : ℕ := (pmp + ptr_) % 2 ^ 64

/-- `OFF(pmp, ptr)`. -/
def off (pmp ptr : ℕ) : ℕ := (ptr + 2 ^ 64 - pmp) % 2 ^ 64

/-- `PMEM(pmp, (struct clump *)((uintptr_t)ptr_ - PMEM_CHUNK_SIZE))`: the header of the clump whose
payload is at `ptr_`. -/
def clumpOf (pmp ptr_ : ℕ) : ℕ := pmem pmp ((ptr_ + 2 ^ 64 - pmemChunkSize) % 2 ^ 64)

theorem pmem_eq {pmp p : ℕ} (h : pmp + p < 2 ^ 64) : pmem pmp p = pmp + p := Nat.mod_eq_of_lt h

theorem off_eq {pmp a : ℕ} (h : pmp ≤ a) (h' : a < 2 ^ 64) : off pmp a = a - pmp := by
  unfold off
  rw [show a + 2 ^ 64 - pmp = a - pmp + 2 ^ 64 by omega, Nat.add_mod_right]
  exact Nat.mod_eq_of_lt (by omega)

theorem pmem_off {pmp a : ℕ} (h : pmp ≤ a) (h' : a < 2 ^ 64) : pmem pmp (off pmp a) = a := by
  rw [off_eq h h', pmem_eq (by omega)]
  omega

theorem clumpOf_eq {pmp p : ℕ} (h : 64 ≤ p) (h' : pmp + p < 2 ^ 64) : clumpOf pmp p = pmp + p - 64 := by
  unfold clumpOf
  rw [pmemChunkSize, show p + 2 ^ 64 - 64 = p - 64 + 2 ^ 64 by omega, Nat.add_mod_right,
    Nat.mod_eq_of_lt (by omega : p - 64 < 2 ^ 64), pmem_eq (by omega)]
  omega

/-! ## The fields of `struct clump` -/

/-- `&clp->on[i].off`; the words `size` and `prevsize` come first. -/
def onOff (clp i : ℕ) : ℕ := clp + 16 + 16 * i

/-- `&clp->on[i].ptr_`. -/
def onPtr (clp i : ℕ) : ℕ := clp + 24 + 16 * i

/-- `clp->size & ~PMEM_STATE_MASK`. -/
def clumpSz (word : ℕ) : ℕ := word / 64 * 64

/-- `clp->size & PMEM_STATE_MASK`. -/
def clumpState (word : ℕ) : ℕ := word % 64

theorem or_code {sz c : ℕ} (h : 64 ∣ sz) (hc : c < 64) : sz ||| c = sz + c := by
  obtain ⟨k, rfl⟩ := h
  exact (Nat.two_pow_add_eq_or_of_lt (i := 6) hc k).symm

theorem clumpSz_or {sz c : ℕ} (h : 64 ∣ sz) (hc : c < 64) : clumpSz (sz ||| c) = sz := by
  rw [or_code h hc, clumpSz]
  omega

theorem clumpState_or {sz c : ℕ} (h : 64 ∣ sz) (hc : c < 64) : clumpState (sz ||| c) = c := by
  rw [or_code h hc, clumpState]
  omega

end PmemExamples.Pool
