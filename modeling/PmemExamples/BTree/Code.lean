import Mathlib.Data.Int.Bitwise
import Mathlib.Tactic

/-! # The B-tree (`btree-1.0/bt_code.c`, `bt_output.c`)

The code as the source has it, over what it uses of a node: the bit fields `leaf` and `n`, the slots of
`KEYS` and `NODES`, allocation and persists. Those are words of a mapped file in one reading and records
in another. Recursions take fuel, and `hang` when it is used up. A key is a `void *`. -/

namespace PmemExamples.BTree
set_option autoImplicit false

/-- What the code does with nodes, in a monad. -/
structure NodeOps (m : Type → Type) where
  hang : {α : Type} → m α
  /-- `exit(1)` -/
  exit : {α : Type} → m α
  /-- `log2(a, nbits)` -/
  log2 : (a : ℕ) → (nbits : ℕ) → m ℕ
  /-- `btr->root`, and the assignment to it -/
  root : m ℕ
  setRoot : ℕ → m Unit
  /-- `btr->t` and `btr->nbits` -/
  t : m ℤ
  nbits : m ℕ
  /-- `x->leaf`, `x->n` -/
  leaf : ℕ → m Bool
  setLeaf : ℕ → Bool → m Unit
  n : ℕ → m ℤ
  setN : ℕ → ℤ → m Unit
  /-- `KEYS(btr, x)[i]`, `NODES(btr, x)[i]` -/
  key : ℕ → ℤ → m ℕ
  setKey : ℕ → ℤ → ℕ → m Unit
  node : ℕ → ℤ → m ℕ
  setNode : ℕ → ℤ → ℕ → m Unit
  /-- `persist_memmove` of so many slots from slot `j` of `y` to slot `i` of `x` -/
  moveKeys : (x : ℕ) → (i : ℤ) → (y : ℕ) → (j : ℤ) → (count : ℤ) → m Unit
  moveNodes : (x : ℕ) → (i : ℤ) → (y : ℕ) → (j : ℤ) → (count : ℤ) → m Unit
  /-- `pmem_persist_local(x, sizeof(struct btreenode), _DATAPERSIST)` -/
  persist : ℕ → m Unit
  /-- `allocbtreenode(btr->textra, &tmp)`, or `exit(1)`: the node and `tmp` -/
  alloc : m (ℕ × ℕ)
  /-- `x->p_ptr`, and the assignment to it -/
  pPtr : ℕ → m ℕ
  setPPtr : ℕ → ℕ → m Unit
  /-- `pmemalloc_activate_local`, and `FREE` -/
  activate : ℕ → m Unit
  free : ℕ → m Unit

/-! ## `log2` -/

/-- The loop of `real_log2`; the fuel is more than the halvings of `b`. -/
def realLog2Loop : ℕ → ℕ → ℕ → ℕ → ℕ
  | 0, _, _, i => i
  | fuel + 1, b, a, i =>
    if b = 0 then i
    else if 2 ^ b ≤ a then realLog2Loop fuel (b / 2) (a / 2 ^ b) (i * 2 + 1)
    else realLog2Loop fuel (b / 2) (a % 2 ^ b) (i * 2)

def realLog2 (a nbits : ℕ) : ℕ := realLog2Loop ((nbits + 1) / 2) ((nbits + 1) / 2) a 0

/-- The table caches what `real_log2` returned for `a`. -/
def log2 (a nbits : ℕ) : ℕ := realLog2 a nbits

/-- `btr->nbits`, a power of 2. -/
def nbitsOf (nkeys : ℕ) : ℕ := 2 ^ (log2 (log2 nkeys 32 + 1) 32 + 1)

/-- The loop appends the bits of some `r` to `i`, with `2 ^ r` at most `a`. -/
theorem realLog2Loop_spec : ∀ (fuel b a i : ℕ), 0 < a →
    ∃ k r, realLog2Loop fuel b a i = i * 2 ^ k + r ∧ 2 ^ r ≤ a ∧ 2 ^ k ≤ max 1 (2 * b)
  | 0, _, a, i, ha => ⟨0, 0, by simp [realLog2Loop], ha, by simp⟩
  | fuel + 1, b, a, i, ha => by
    by_cases hb : b = 0
    · exact ⟨0, 0, by simp [realLog2Loop, hb], ha, by simp⟩
    by_cases hle : 2 ^ b ≤ a
    · obtain ⟨k, r, h, hr, hk⟩ := realLog2Loop_spec fuel (b / 2) (a / 2 ^ b) (i * 2 + 1)
        (Nat.div_pos hle (by positivity))
      have hkb : 2 ^ k ≤ b := le_trans hk (by omega)
      refine ⟨k + 1, 2 ^ k + r, ?_, ?_, by rw [Nat.pow_succ]; omega⟩
      · rw [realLog2Loop, if_neg hb, if_pos hle, h]
        ring
      · calc 2 ^ (2 ^ k + r) = 2 ^ 2 ^ k * 2 ^ r := Nat.pow_add ..
          _ ≤ 2 ^ b * (a / 2 ^ b) := Nat.mul_le_mul (Nat.pow_le_pow_right (by decide) hkb) hr
          _ ≤ a := Nat.mul_div_le a _
    · have hmod : a % 2 ^ b = a := Nat.mod_eq_of_lt (by omega)
      obtain ⟨k, r, h, hr, hk⟩ := realLog2Loop_spec fuel (b / 2) (a % 2 ^ b) (i * 2) (by omega)
      have hkb : 2 ^ k ≤ b := le_trans hk (by omega)
      refine ⟨k + 1, r, ?_, by rwa [hmod] at hr, by rw [Nat.pow_succ]; omega⟩
      rw [realLog2Loop, if_neg hb, if_neg hle, h]
      ring

theorem two_pow_log2_le {a : ℕ} (ha : 0 < a) (nbits : ℕ) : 2 ^ log2 a nbits ≤ a := by
  obtain ⟨k, r, h, hr, -⟩ := realLog2Loop_spec ((nbits + 1) / 2) ((nbits + 1) / 2) a 0 ha
  rwa [log2, realLog2, h, Nat.zero_mul, Nat.zero_add]

section Code
variable {m : Type → Type} [Monad m] (ops : NodeOps m) (cmp : ℕ → ℕ → ℤ)

/-- `for (j = first; …; j++)`, so many times. -/
def forUp (body : ℤ → m Unit) : ℕ → ℤ → m Unit
  | 0, _ => pure ()
  | count + 1, j => do
    body j
    forUp body count (j + 1)

/-- `for (j = first; …; j--)`, so many times. -/
def forDown (body : ℤ → m Unit) : ℕ → ℤ → m Unit
  | 0, _ => pure ()
  | count + 1, j => do
    body j
    forDown body count (j - 1)

/-! ## `findkindex` -/

/-- `while (a > 0)`; `a` shrinks in every round. -/
def findkindexLoop (x k : ℕ) : ℕ → ℕ → ℕ → m ℕ
  | 0, _, _ => ops.hang
  | fuel + 1, a, i =>
    if a = 0 then pure i
    else do
      let b ← ops.log2 a (← ops.nbits)
      if cmp k (← ops.key x ((2 ^ b + i : ℕ) : ℤ)) < 0 then findkindexLoop x k fuel (2 ^ b - 1) i
      else findkindexLoop x k fuel (a - 2 ^ b) (i ||| 2 ^ b)

/-- The index, and what `*r` is set to if it is set. -/
def findkindex (x k : ℕ) : m (ℤ × Option ℤ) := do
  let n ← ops.n x
  if n = 0 then return (-1, none)
  else do
    let i ← findkindexLoop ops cmp x k ((n - 1).toNat + 1) (n - 1).toNat 0
    let r := cmp k (← ops.key x i)
    return (if r < 0 then (i : ℤ) - 1 else i, some r)

/-- `while (n >= 0 && …)` of the `SAFE_BTREE` variant, with what `*r` is so far. -/
def findkindexSafeLoop (x k : ℕ) : ℕ → Option ℤ → m (ℤ × Option ℤ)
  | 0, r => pure (-1, r)
  | n + 1, _ => do
    let r := cmp k (← ops.key x n)
    if r < 0 then findkindexSafeLoop x k n (some r) else return ((n : ℤ), some r)

/-- `findkindex` of the `SAFE_BTREE` variant. -/
def findkindexSafe (x k : ℕ) : m (ℤ × Option ℤ) := do
  let n ← ops.n x
  findkindexSafeLoop ops cmp x k n.toNat none

/-! ## Insertion -/

def btreesplitchild (x : ℕ) (i : ℤ) (y : ℕ) : m Unit := do
  let (z, tmp) ← ops.alloc
  ops.setPPtr z tmp
  -- duplicate leaf setting, and store number of nodes
  ops.setLeaf z (← ops.leaf y)
  let t ← ops.t
  ops.setN z (t - 1)
  -- copy the last half of y into z
  forUp (fun j => do ops.setKey z j (← ops.key y (j + t))) (t - 1).toNat 0
  if !(← ops.leaf y) then
    forUp (fun j => do ops.setNode z j (← ops.node y (j + t))) t.toNat 0
  -- store resulting number of nodes in old part
  ops.setN y (t - 1)
  -- move node ptrs in parent node down one, and store new node
  let n ← ops.n x
  forDown (fun j => do ops.setNode x (j + 1) (← ops.node x j)) (n - i).toNat n
  ops.setNode x (i + 1) z
  -- adjust the keys from previous move, and store new key
  forDown (fun j => do ops.setKey x (j + 1) (← ops.key x j)) (n - i).toNat (n - 1)
  ops.setKey x i (← ops.key y (t - 1))
  ops.setN x ((← ops.n x) + 1)
  ops.persist x
  ops.activate tmp

def btreeinsertnonfull (k : ℕ) : ℕ → ℕ → m Unit
  | 0, _ => ops.hang
  | fuel + 1, x => do
    if ← ops.leaf x then
      -- we are a leaf, just add it in
      let (i, _) ← findkindex ops cmp x k
      let n ← ops.n x
      if i ≠ n - 1 then ops.moveKeys x (i + 2) x (i + 1) (n - i - 1)
      ops.setKey x (i + 1) k
      ops.setN x ((← ops.n x) + 1)
      ops.persist x
    else
      let (i, _) ← findkindex ops cmp x k
      let y ← ops.node x (i + 1)
      let n ← ops.n y
      let t ← ops.t
      -- make sure that the next node isn't full
      if n = 2 * t - 1 then
        btreesplitchild ops x (i + 1) y
        let i := if cmp k (← ops.key x (i + 1)) > 0 then i + 2 else i + 1
        btreeinsertnonfull k fuel (← ops.node x i)
      else
        btreeinsertnonfull k fuel y

def btInsert (fuel k : ℕ) : m Unit := do
  let r ← ops.root
  let n ← ops.n r
  let t ← ops.t
  if n = 2 * t - 1 then
    -- this is the ONLY place that the tree can grown in height
    let (s, tmp) ← ops.alloc
    ops.setPPtr s tmp
    ops.setRoot s
    ops.setLeaf s false
    ops.setN s 0
    ops.setNode s 0 r
    btreesplitchild ops s 0 r
    ops.activate tmp
    btreeinsertnonfull ops cmp k fuel s
  else
    btreeinsertnonfull ops cmp k fuel r

/-! ## Deletion -/

/-- Case 1. -/
def deleteLeafKey (x : ℕ) (i : ℤ) : m ℕ := do
  let kp ← ops.key x i
  ops.moveKeys x i x (i + 1) ((← ops.n x) - i - 1)
  ops.setN x ((← ops.n x) - 1)
  ops.persist x
  return kp

/-- `k` and all of `z` go to the end of `y`. -/
def absorb (y z k : ℕ) : m Unit := do
  ops.setKey y (← ops.n y) k
  ops.setN y ((← ops.n y) + 1)
  ops.moveKeys y (← ops.n y) z 0 (← ops.n z)
  ops.moveNodes y (← ops.n y) z 0 ((← ops.n z) + 1)
  ops.setN y ((← ops.n y) + (← ops.n z))

/-- `x` loses its key `i` and the pointer after it. -/
def dropKey (x : ℕ) (i : ℤ) : m Unit := do
  ops.moveKeys x i x (i + 1) ((← ops.n x) - i - 1)
  ops.moveNodes x (i + 1) x (i + 2) ((← ops.n x) - i - 1)
  ops.setN x ((← ops.n x) - 1)

/-- Case 2c: the merged node. -/
def mergeAround (x : ℕ) (i : ℤ) (k : ℕ) : m ℕ := do
  let y ← ops.node x i
  let z ← ops.node x (i + 1)
  absorb ops y z k
  ops.persist y
  dropKey ops x i
  ops.persist x
  ops.free (← ops.pPtr z)
  return y

/-- Case 3a: "left sibling has t keys". -/
def takeFromLeft (x xp y : ℕ) (i : ℤ) : m Unit := do
  ops.moveKeys xp 1 xp 0 (← ops.n xp)
  ops.moveNodes xp 1 xp 0 ((← ops.n xp) + 1)
  ops.setKey xp 0 (← ops.key x (i - 1))
  ops.setKey x (i - 1) (← ops.key y ((← ops.n y) - 1))
  ops.setNode xp 0 (← ops.node y (← ops.n y))
  ops.setN y ((← ops.n y) - 1)
  ops.setN xp ((← ops.n xp) + 1)
  ops.persist y
  ops.persist x

/-- Case 3a: "right sibling has t keys". -/
def takeFromRight (x xp y : ℕ) (i : ℤ) : m Unit := do
  ops.setKey xp (← ops.n xp) (← ops.key x i)
  ops.setN xp ((← ops.n xp) + 1)
  ops.setKey x i (← ops.key y 0)
  ops.setNode xp (← ops.n xp) (← ops.node y 0)
  ops.setN y ((← ops.n y) - 1)
  ops.moveKeys y 0 y 1 (← ops.n y)
  ops.moveNodes y 0 y 1 ((← ops.n y) + 1)
  ops.persist y
  ops.persist x

/-- Case 3b: "merge i with left sibling". -/
def mergeLeft (x xp y : ℕ) (i : ℤ) : m Unit := do
  absorb ops y xp (← ops.key x (i - 1))
  dropKey ops x (i - 1)
  ops.persist y
  ops.persist x
  ops.free (← ops.pPtr xp)

/-- Case 3b: "merge i with right sibling". -/
def mergeRight (x xp y : ℕ) (i : ℤ) : m Unit := do
  absorb ops xp y (← ops.key x i)
  dropKey ops x i
  ops.persist y
  ops.persist x
  ops.free (← ops.pPtr y)

/-- The siblings of the child `i`, each with its count. -/
def leftSibling (x : ℕ) (i : ℤ) : m (Option (ℕ × ℤ)) := do
  if 0 < i then
    let y ← ops.node x (i - 1)
    return some (y, ← ops.n y)
  else return none

def rightSibling (x : ℕ) (i : ℤ) : m (Option (ℕ × ℤ)) := do
  if i < (← ops.n x) then
    let y ← ops.node x (i + 1)
    return some (y, ← ops.n y)
  else return none

/-- Case 3 for the child `i`: the node to go on with. -/
def prepareChild (x : ℕ) (i : ℤ) : m ℕ := do
  let xp ← ops.node x i
  let t ← ops.t
  if (← ops.n xp) = t - 1 then
    let left ← leftSibling ops x i
    match left.filter fun y => y.2 ≥ t with
    | some (y, _) => do
      takeFromLeft ops x xp y i
      return xp
    | none => do
      let right ← rightSibling ops x i
      match right.filter fun y => y.2 ≥ t with
      | some (y, _) => do
        takeFromRight ops x xp y i
        return xp
      | none =>
        match left.filter fun y => y.2 = t - 1 with
        | some (y, _) => do
          mergeLeft ops x xp y i
          return y
        | none =>
          match right.filter fun y => y.2 = t - 1 with
          | some (y, _) => do
            mergeRight ops x xp y i
            return xp
          | none => return xp
  else return xp

/-- `i` and `r` at the head of `nodedeletekey`; `s` is 1 to delete the largest key, 2 for the smallest. -/
def deleteIndex (x k s : ℕ) : m (ℤ × Option ℤ) := do
  match s with
  | 0 => findkindex ops cmp x k
  | 1 => return ((← ops.n x) - 1, some (if ← ops.leaf x then 0 else 1))
  | _ => return (-1, some (if ← ops.leaf x then 0 else -1))

def nodedeletekey : ℕ → ℕ → ℕ → ℕ → m ℕ
  | 0, _, _, _ => ops.hang
  | fuel + 1, x, k, s => do
    if x = 0 then return 0
    let (i, r) ← deleteIndex ops cmp x k s
    if ← ops.leaf x then
      deleteLeafKey ops x (if s = 2 then i + 1 else i)
    else match r with
    | none => ops.hang
    | some r =>
      if r = 0 then
        -- case 2
        let t ← ops.t
        let y ← ops.node x i
        let yn ← ops.n y
        if yn ≥ t then
          let kp ← ops.key x i
          ops.setKey x i (← nodedeletekey fuel y 0 1)
          ops.persist x
          return kp
        let z ← ops.node x (i + 1)
        let zn ← ops.n z
        if zn ≥ t then
          let kp ← ops.key x i
          ops.setKey x i (← nodedeletekey fuel z 0 2)
          ops.persist x
          return kp
        if yn = t - 1 ∧ zn = t - 1 then
          return ← nodedeletekey fuel (← mergeAround ops x i k) k s
      -- case 3
      nodedeletekey fuel (← prepareChild ops x (i + 1)) k s

def btDelete (fuel k : ℕ) : m ℕ := do
  let r ← nodedeletekey ops cmp fuel (← ops.root) k 0
  -- this is the ONLY place that a tree can decrease in height
  let root ← ops.root
  if (← ops.n root) = 0 ∧ (← ops.leaf root) = false then
    ops.setRoot (← ops.node root 0)
    ops.free (← ops.pPtr root)
  return r

/-! ## Search -/

def findmaxnode : ℕ → ℕ → m ℕ
  | 0, _ => ops.hang
  | fuel + 1, x => do
    if ← ops.leaf x then ops.key x ((← ops.n x) - 1) else findmaxnode fuel (← ops.node x (← ops.n x))

def findminnode : ℕ → ℕ → m ℕ
  | 0, _ => ops.hang
  | fuel + 1, x => do
    if ← ops.leaf x then ops.key x 0 else findminnode fuel (← ops.node x 0)

def findnodekey (k : ℕ) : ℕ → ℕ → m ℕ
  | 0, _ => ops.hang
  | fuel + 1, x => do
    if x = 0 then return 0
    let (i, r) ← findkindex ops cmp x k
    if 0 ≤ i ∧ r = some 0 then return ← ops.key x i
    if ← ops.leaf x then return 0
    findnodekey k fuel (← ops.node x (i + 1))

def btMax (fuel : ℕ) : m ℕ := do findmaxnode ops fuel (← ops.root)
def btMin (fuel : ℕ) : m ℕ := do findminnode ops fuel (← ops.root)
def btFind (fuel k : ℕ) : m ℕ := do findnodekey ops cmp k fuel (← ops.root)

/-! ## `bt_checktree` -/

/-- `for (i = 1; i < x->n; i++)`, so many rounds; `false` if a check fails. -/
def checkKeys (check : ℤ → m Bool) : ℕ → ℤ → m Bool
  | 0, _ => pure true
  | count + 1, i => do if ← check i then checkKeys check count (i + 1) else return false

def checkbtreenode : ℕ → ℕ → ℕ → ℕ → Bool → m Bool
  | 0, _, _, _, _ => ops.hang
  | fuel + 1, x, kmin, kmax, isroot => do
    if x = 0 then return ! (cmp kmin kmax ≥ 0)
    let n ← ops.n x
    let t ← ops.t
    if !isroot && (n < t - 1 || n > 2 * t - 1) then ops.exit
    let leaf ← ops.leaf x
    if n = 0 ∧ leaf = false then return ← checkbtreenode fuel (← ops.node x 0) kmin kmax false
    else if n = 0 ∧ leaf = true ∧ isroot = false then return ← checkbtreenode fuel 0 kmin kmax false
    unless ← checkbtreenode fuel (← ops.node x 0) kmin (← ops.key x 0) false do return false
    unless ← checkKeys (fun i => do
      checkbtreenode fuel (← ops.node x i) (← ops.key x (i - 1)) (← ops.key x i) false) (n - 1).toNat 1 do return false
    -- `i` where the loop leaves it
    let i := max 1 n
    checkbtreenode fuel (← ops.node x i) (← ops.key x (i - 1)) kmax false

def btChecktree (fuel kmin kmax : ℕ) : m Bool := do checkbtreenode ops cmp fuel (← ops.root) kmin kmax true

end Code

end PmemExamples.BTree
