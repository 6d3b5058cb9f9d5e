import PmemExamples.Linked.Chain

/-! # The hash table (`c-hashtable/hashtable.c`, `hashtable_private.h`)

A table of chains that grows through a list of primes. Entries are kept by address; the functions on keys
are parameters. The loops that follow a chain carry fuel, more than there are entries in a pool, and fail
beyond or at an address without an entry. Allocation succeeds: `hashtable_insert` is given the address. -/

namespace PmemExamples.CHashtable
open Linked
set_option autoImplicit false

/-- `struct entry`. -/
structure Entry (K : Type) where
  k : K
  v : ℕ
  h : UInt32
  next : ℕ

/-- `struct hashtable` without the two functions, and the entries in memory. -/
structure Hashtable (K : Type) where
  tablelength : ℕ
  table : ℕ → ℕ
  entrycount : ℕ
  loadlimit : ℕ
  primeindex : ℕ
  mem : ℕ → Option (Entry K)

/-- `primes`. -/
def primes : List ℕ :=
  [53, 97, 193, 389,
    769, 1543, 3079, 6151,
    12289, 24593, 49157, 98317,
    196613, 393241, 786433, 1572869,
    3145739, 6291469, 12582917, 25165843,
    50331653, 100663319, 201326611, 402653189,
    805306457, 1610612741]

/-- `prime_table_length`. -/
@[simp] abbrev primeTableLength : ℕ := 26

/-- The integer with 24 significant bits nearest to `n`, ties to even: `float` arithmetic. -/
def roundFloat (n : ℕ) : ℕ :=
  let ulp := 2 ^ (Nat.log 2 n - 23)
  let q := n / ulp
  if 2 * (n % ulp) < ulp ∨ 2 * (n % ulp) = ulp ∧ q % 2 = 0 then q * ulp else (q + 1) * ulp

/-- `max_load_factor`, the `float` nearest to 0.65, in units of 2^-24. -/
def maxLoadFactor : ℕ := 10905190

/-- `(unsigned int) ceil(size * max_load_factor)`. -/
def loadLimit (size : ℕ) : ℕ := (roundFloat (roundFloat size * maxLoadFactor) + (2 ^ 24 - 1)) / 2 ^ 24

/-- The mixing of `hash`. -/
def mix (i : UInt32) : UInt32 :=
  let i := i + ~~~(i <<< 9)
  let i := i ^^^ ((i >>> 14) ||| (i <<< 18))
  let i := i + (i <<< 4)
  i ^^^ ((i >>> 10) ||| (i <<< 22))

def indexFor (tablelength : ℕ) (hashvalue : UInt32) : ℕ := hashvalue.toNat % tablelength

/-- `create_hashtable`; `none` is `NULL`. -/
def createHashtable (K : Type) (minsize : ℕ) : Option (Hashtable K) :=
  if 2 ^ 30 < minsize then none
  else
    let pindex := primes.findIdx (minsize < ·)
    let size := primes.getD pindex 53
    some
      { tablelength := size
        table := fun _ => 0
        entrycount := 0
        loadlimit := loadLimit size
        primeindex := pindex
        mem := fun _ => none }

/-- More than there are entries in a pool. -/
def chainFuel : ℕ := 2 ^ 32

section Keys
variable {K : Type} (hashfn : K → UInt32) (eqfn : K → K → Bool)

def hash (k : K) : UInt32 := mix (hashfn k)

/-! ## `hashtable_expand` -/

/-- The two tables while entries move from one to the other. -/
structure Moving (K : Type) where
  table : ℕ → ℕ
  newtable : ℕ → ℕ
  mem : ℕ → Option (Entry K)

/-- `while (NULL != (e = h->table[i]))`. -/
def moveBucket (newsize i : ℕ) : ℕ → Moving K → Option (Moving K)
  | 0, _ => none
  | fuel + 1, s =>
    let e := s.table i
    if e = 0 then some s
    else do
      let x ← s.mem e
      let index := indexFor newsize x.h
      moveBucket newsize i fuel
        { table := Function.update s.table i x.next
          newtable := Function.update s.newtable index e
          mem := Function.update s.mem e (some { x with next := s.newtable index }) }

/-- `for (i = 0; i < h->tablelength; i++)`, the first `n` rounds. -/
def moveBuckets (newsize : ℕ) : ℕ → Moving K → Option (Moving K)
  | 0, s => some s
  | n + 1, s => do moveBucket newsize n chainFuel (← moveBuckets newsize n s)

/-- `hashtable_expand`; its return value is not used. -/
def hashtableExpand (h : Hashtable K) : Option (Hashtable K) :=
  if h.primeindex = primeTableLength - 1 then some h
  else do
    let newsize := primes.getD (h.primeindex + 1) 0
    let s ← moveBuckets newsize h.tablelength ⟨h.table, fun _ => 0, h.mem⟩
    some
      { tablelength := newsize
        table := s.newtable
        entrycount := h.entrycount
        loadlimit := loadLimit newsize
        primeindex := h.primeindex + 1
        mem := s.mem }

/-! ## The operations -/

/-- `if (++(h->entrycount) > h->loadlimit) hashtable_expand(h);` -/
def countEntry (h : Hashtable K) : Option (Hashtable K) :=
  let h := { h with entrycount := (h.entrycount + 1) % 2 ^ 32 }
  if h.loadlimit < h.entrycount then hashtableExpand h else some h

/-- `hashtable_insert`, with the new entry at `e`. -/
def hashtableInsert (h : Hashtable K) (k : K) (v e : ℕ) : Option (Hashtable K) := do
  let h ← countEntry h
  let index := indexFor h.tablelength (hash hashfn k)
  some { h with
    table := Function.update h.table index e
    mem := Function.update h.mem e (some ⟨k, v, hash hashfn k, h.table index⟩) }

/-- The loop of `hashtable_search`; 0 is `NULL`. -/
def searchLoop (m : ℕ → Option (Entry K)) (k : K) (hashvalue : UInt32) : ℕ → ℕ → Option ℕ
  | 0, _ => none
  | fuel + 1, e =>
    if e = 0 then some 0
    else do
      let x ← m e
      if hashvalue = x.h ∧ eqfn k x.k then some x.v else searchLoop m k hashvalue fuel x.next

def hashtableSearch (h : Hashtable K) (k : K) : Option ℕ :=
  let hashvalue := hash hashfn k
  searchLoop eqfn h.mem k hashvalue chainFuel (h.table (indexFor h.tablelength hashvalue))

/-- What `pE` points to: a table slot, or the `next` field of an entry. -/
inductive Slot where
  | table (i : ℕ)
  | next (e : ℕ)

/-- `*pE = value`. -/
def Slot.assign (h : Hashtable K) (value : ℕ) : Slot → Option (Hashtable K)
  | .table i => some { h with table := Function.update h.table i value }
  | .next e => do
    let x ← h.mem e
    some { h with mem := Function.update h.mem e (some { x with next := value }) }

/-- The loop of `hashtable_remove`: the table left and the value returned. The entry is released. -/
def removeLoop (h : Hashtable K) (k : K) (hashvalue : UInt32) : ℕ → Slot → ℕ → Option (Hashtable K × ℕ)
  | 0, _, _ => none
  | fuel + 1, pE, e =>
    if e = 0 then some (h, 0)
    else do
      let x ← h.mem e
      if hashvalue = x.h ∧ eqfn k x.k then do
        let h ← pE.assign h x.next
        some ({ h with
          entrycount := (h.entrycount + (2 ^ 32 - 1)) % 2 ^ 32
          mem := Function.update h.mem e none }, x.v)
      else removeLoop h k hashvalue fuel (.next e) x.next

def hashtableRemove (h : Hashtable K) (k : K) : Option (Hashtable K × ℕ) :=
  let hashvalue := hash hashfn k
  let index := indexFor h.tablelength hashvalue
  removeLoop eqfn h k hashvalue chainFuel (.table index) (h.table index)

end Keys

/-! ## The table of primes -/

theorem primes_length : primes.length = primeTableLength := rfl

theorem primes_pos {i : ℕ} (hi : i < primeTableLength) : 0 < primes.getD i 0 := by
  have hall : ∀ i < 26, 0 < primes.getD i 0 := by decide
  exact hall i hi

theorem findIdx_lt {minsize : ℕ} (h : ¬ 2 ^ 30 < minsize) : primes.findIdx (minsize < ·) < primeTableLength := by
  rw [← primes_length, List.findIdx_lt_length]
  exact ⟨1610612741, by decide, by simp; omega⟩

example : primes.map loadLimit = [35, 64, 126, 253, 500, 1003, 2002, 3999, 7988, 15986, 31953, 63907, 127799,
    255607, 511182, 1022365, 2044731, 4089455, 8178896, 16357798, 32715572, 65431156, 130862288, 261724560,
    523449152, 1046898240] := by decide +kernel

end PmemExamples.CHashtable
