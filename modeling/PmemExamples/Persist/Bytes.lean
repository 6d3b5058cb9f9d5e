import PmemExamples.Persist.Mapping
import Mathlib.Data.List.Lex

/-! # Bytes and C strings

A byte store rewrites its aligned word, little endian. `StringAt m a s` says that the bytes from `a` on
spell `s` and a zero byte ends it. -/

namespace PmemExamples.Persist
set_option autoImplicit false

/-! ## The bytes of a word -/

def byteOf (word i : ℕ) : ℕ := word / 256 ^ i % 256

def setByte (word i b : ℕ) : ℕ := word % 256 ^ i + 256 ^ i * (b + 256 * (word / 256 ^ (i + 1)))

/-- The low four bytes as an `unsigned`. -/
def setLow (word v : ℕ) : ℕ := word / 2 ^ 32 * 2 ^ 32 + v % 2 ^ 32

theorem byteOf_lt (word i : ℕ) : byteOf word i < 256 := Nat.mod_lt _ (by decide)

theorem byteOf_setByte_self {b : ℕ} (hb : b < 256) (word i : ℕ) : byteOf (setByte word i b) i = b := by
  have hpos : 0 < 256 ^ i := by positivity
  rw [byteOf, setByte, Nat.add_mul_div_left _ _ hpos, Nat.div_eq_of_lt (Nat.mod_lt _ hpos), Nat.zero_add]
  omega

theorem byteOf_add_mul (x j z : ℕ) : byteOf (x + 256 ^ j * 256 * z) j = byteOf x j := by
  rw [byteOf, byteOf, Nat.mul_assoc, Nat.add_mul_div_left _ _ (by positivity), Nat.add_mul_mod_self_left]

theorem setByte_div (word i : ℕ) {b : ℕ} (hb : b < 256) :
    setByte word i b / 256 ^ (i + 1) = word / 256 ^ (i + 1) := by
  have hpos : 0 < 256 ^ i := by positivity
  have hsplit : setByte word i b = word % 256 ^ i + 256 ^ i * b + 256 ^ (i + 1) * (word / 256 ^ (i + 1)) := by
    rw [setByte, pow_succ]
    ring
  have hlow : word % 256 ^ i + 256 ^ i * b < 256 ^ (i + 1) := by
    have h1 := Nat.mod_lt word hpos
    have h2 : 256 ^ i * b ≤ 256 ^ i * 255 := Nat.mul_le_mul_left _ (by omega)
    rw [pow_succ]
    omega
  rw [hsplit, Nat.add_mul_div_left _ _ (by positivity), Nat.div_eq_of_lt hlow, Nat.zero_add]

theorem byteOf_setByte_ne {b i j : ℕ} (hb : b < 256) (h : j ≠ i) (word : ℕ) :
    byteOf (setByte word i b) j = byteOf word j := by
  rcases Nat.lt_or_gt_of_ne h with hlt | hgt
  · -- a lower byte
    obtain ⟨k, rfl⟩ := Nat.exists_eq_add_of_lt hlt
    have hpow : 256 ^ (j + k + 1) = 256 ^ j * 256 * 256 ^ k := by ring
    have hw : word % 256 ^ (j + k + 1) + 256 ^ j * 256 * (256 ^ k * (word / 256 ^ (j + k + 1))) = word := by
      rw [← Nat.mul_assoc, ← hpow]
      exact Nat.mod_add_div _ _
    conv_rhs => rw [← hw]
    rw [setByte]
    conv_lhs => rw [hpow, Nat.mul_assoc (256 ^ j * 256)]
    rw [byteOf_add_mul, byteOf_add_mul, hpow]
  · -- a higher one
    obtain ⟨k, rfl⟩ := Nat.exists_eq_add_of_lt hgt
    have hpow : 256 ^ (i + k + 1) = 256 ^ (i + 1) * 256 ^ k := by ring
    rw [byteOf, byteOf, hpow, ← Nat.div_div_eq_div_mul, ← Nat.div_div_eq_div_mul, setByte_div word i hb]

theorem setByte_mod {i : ℕ} (h : 4 ≤ i) (word b : ℕ) : setByte word i b % 2 ^ 32 = word % 2 ^ 32 := by
  obtain ⟨k, rfl⟩ := Nat.exists_eq_add_of_le h
  have hpow : 256 ^ (4 + k) = 2 ^ 32 * 256 ^ k := by rw [pow_add]; norm_num
  rw [setByte, hpow, Nat.mul_assoc, Nat.add_mul_mod_self_left, Nat.mod_mod_of_dvd _ (Dvd.intro _ rfl)]

theorem setLow_mod (word v : ℕ) : setLow word v % 2 ^ 32 = v % 2 ^ 32 := by
  unfold setLow
  omega

theorem byteOf_setLow {i : ℕ} (h : 4 ≤ i) (word v : ℕ) : byteOf (setLow word v) i = byteOf word i := by
  obtain ⟨k, rfl⟩ := Nat.exists_eq_add_of_le h
  have hpow : 256 ^ (4 + k) = 2 ^ 32 * 256 ^ k := by rw [pow_add]; norm_num
  have hdiv : setLow word v / 2 ^ 32 = word / 2 ^ 32 := by
    unfold setLow
    omega
  rw [byteOf, byteOf, hpow, ← Nat.div_div_eq_div_mul, ← Nat.div_div_eq_div_mul, hdiv]

/-! ## Loads and stores -/

/-- The aligned word an address lies in. -/
def wordOf (a : ℕ) : ℕ := a / 8 * 8

def byteAt (m : Mem) (a : ℕ) : ℕ := byteOf (m (wordOf a)) (a % 8)

def loadByte (a : ℕ) : Prog ℕ := do
  let word ← Prog.load (wordOf a)
  return byteOf word (a % 8)

def storeByte (a b : ℕ) : Prog Unit := do
  let word ← Prog.load (wordOf a)
  Prog.store (wordOf a) (setByte word (a % 8) b)

/-- A load of an aligned `unsigned` in the low half of its word. -/
def loadUnsigned (a : ℕ) : Prog ℕ := do
  let word ← Prog.load a
  return word % 2 ^ 32

def storeUnsigned (a v : ℕ) : Prog Unit := do
  let word ← Prog.load a
  Prog.store a (setLow word v)

@[simp] theorem loadByte_apply (a : ℕ) (w : World) : loadByte a w = (.ok (byteAt w.mem a), w) := rfl

theorem storeByte_runs (x : Bool) (m : Mem) (a b : ℕ) :
    Runs x (storeByte a b) m () [.store (wordOf a) (setByte (m (wordOf a)) (a % 8) b)] :=
  Runs.load_bind rfl (Runs.store x m _ _)

theorem loadUnsigned_runs (x : Bool) (m : Mem) (a : ℕ) : Runs x (loadUnsigned a) m (m a % 2 ^ 32) [] :=
  Runs.load_bind rfl (Runs.pure x m _)

theorem storeUnsigned_runs (x : Bool) (m : Mem) (a v : ℕ) :
    Runs x (storeUnsigned a v) m () [.store a (setLow (m a) v)] :=
  Runs.load_bind rfl (Runs.store x m _ _)

theorem byteAt_update {m : Mem} {a b : ℕ} (hb : b < 256) (y : ℕ) :
    byteAt (Function.update m (wordOf a) (setByte (m (wordOf a)) (a % 8) b)) y =
      if y = a then b else byteAt m y := by
  unfold byteAt
  by_cases hw : wordOf y = wordOf a
  · rw [hw, Function.update_self]
    split
    · next h => rw [h, byteOf_setByte_self hb]
    · next h =>
      refine byteOf_setByte_ne hb (fun hmod => h ?_) _
      unfold wordOf at hw
      omega
  · rw [Function.update_of_ne hw, if_neg fun h => hw (by rw [h])]

theorem wordOf_add {p : ℕ} (hp : 8 ∣ p) (a : ℕ) : wordOf (p + a) = p + wordOf a := by
  unfold wordOf
  omega

theorem byteAt_fileAt {p : ℕ} (hp : 8 ∣ p) (m : Mem) (a : ℕ) : byteAt (fileAt p m) a = byteAt m (p + a) := by
  have hmod : (p + a) % 8 = a % 8 := by omega
  rw [byteAt, byteAt, wordOf_add hp, hmod, fileAt_apply]

/-! ## C strings -/

/-- A string as a C program holds one: bytes other than zero, as many as an object may have. -/
structure CString where
  bytes : List ℕ
  range : ∀ b ∈ bytes, 0 < b ∧ b < 256
  short : bytes.length < 2 ^ 63
  deriving DecidableEq

/-- Strings in the order of `strcmp`. -/
instance : LinearOrder CString := LinearOrder.lift' CString.bytes fun s t h => by
  cases s
  cases t
  exact (CString.mk.injEq ..).mpr h

theorem CString.lt_iff {s t : CString} : s < t ↔ s.bytes < t.bytes := Iff.rfl

/-- The bytes from `a` on are `s` and then zero. -/
def StringAt (m : Mem) : ℕ → List ℕ → Prop
  | a, [] => byteAt m a = 0
  | a, b :: s => byteAt m a = b ∧ StringAt m (a + 1) s

/-- `strcmp(s, t)`, for a string `s` and the one at `t`. -/
def strcmp : List ℕ → ℕ → Prog ℤ
  | [], t => do
    let b ← loadByte t
    return -(b : ℤ)
  | a :: s, t => do
    let b ← loadByte t
    if a = b then strcmp s (t + 1) else return (a : ℤ) - b

/-- `strcpy` of a string to `a`. -/
def strcpy : ℕ → List ℕ → Prog Unit
  | a, [] => storeByte a 0
  | a, b :: s => do
    storeByte a b
    strcpy (a + 1) s

/-- What `strcmp` returns. -/
def compareBytes : List ℕ → List ℕ → ℤ
  | [], [] => 0
  | [], b :: _ => -(b : ℤ)
  | a :: _, [] => a
  | a :: s, b :: t => if a = b then compareBytes s t else (a : ℤ) - b

theorem strcmp_apply {w : World} : ∀ {s t : List ℕ} {a : ℕ}, (∀ b ∈ s, 0 < b) → StringAt w.mem a t →
    strcmp s a w = (.ok (compareBytes s t), w)
  | [], [], a, _, ht => by
    rw [strcmp, Prog.bind_ok (loadByte_apply a w), show byteAt w.mem a = 0 from ht]
    rfl
  | [], b :: t, a, _, ht => by
    rw [strcmp, Prog.bind_ok (loadByte_apply a w), ht.1]
    rfl
  | c :: s, [], a, hs, ht => by
    have hc := hs c List.mem_cons_self
    rw [strcmp, Prog.bind_ok (loadByte_apply a w), show byteAt w.mem a = 0 from ht, if_neg (by omega), Prog.pure_apply,
      compareBytes, Nat.cast_zero, sub_zero]
  | c :: s, b :: t, a, hs, ht => by
    rw [strcmp, Prog.bind_ok (loadByte_apply a w), ht.1, compareBytes]
    split
    · exact strcmp_apply (fun b hb => hs b (List.mem_cons_of_mem _ hb)) ht.2
    · rfl

theorem compareBytes_sign : ∀ {s t : List ℕ}, (∀ b ∈ s, 0 < b) → (∀ b ∈ t, 0 < b) →
    (compareBytes s t = 0 ↔ s = t) ∧ (compareBytes s t < 0 ↔ s < t)
  | [], [], _, _ => by simp [compareBytes]
  | [], b :: t, _, ht => by
    have := ht b List.mem_cons_self
    simp only [compareBytes, List.nil_eq, reduceCtorEq, List.nil_lt_cons, iff_true, iff_false]
    omega
  | a :: s, [], hs, _ => by
    have := hs a List.mem_cons_self
    simp only [compareBytes, reduceCtorEq, List.not_lt_nil, iff_false]
    omega
  | a :: s, b :: t, hs, ht => by
    obtain ⟨h0, hlt⟩ := compareBytes_sign (fun c hc => hs c (List.mem_cons_of_mem _ hc))
      fun c hc => ht c (List.mem_cons_of_mem _ hc)
    rw [compareBytes, List.cons_lt_cons_iff]
    split
    · next h =>
      subst h
      simp [h0, hlt]
    · next h =>
      simp only [List.cons.injEq, h, false_and, or_false, iff_false]
      omega

theorem CString.compare_sign (s t : CString) :
    (compareBytes s.bytes t.bytes = 0 ↔ s = t) ∧ (compareBytes s.bytes t.bytes < 0 ↔ s < t) := by
  obtain ⟨h0, hlt⟩ := compareBytes_sign (fun b hb => (s.range b hb).1) fun b hb => (t.range b hb).1
  refine ⟨h0.trans ⟨fun h => ?_, congrArg CString.bytes⟩, hlt⟩
  cases s
  cases t
  exact (CString.mk.injEq ..).mpr h

/-! ## Copying a string -/

/-- The stores of `strcpy`. -/
def copyEvents (m : Mem) : ℕ → List ℕ → List Event
  | a, [] => [.store (wordOf a) (setByte (m (wordOf a)) (a % 8) 0)]
  | a, b :: s => .store (wordOf a) (setByte (m (wordOf a)) (a % 8) b) ::
      copyEvents (Function.update m (wordOf a) (setByte (m (wordOf a)) (a % 8) b)) (a + 1) s

theorem strcpy_runs (x : Bool) : ∀ (s : List ℕ) (m : Mem) (a : ℕ), Runs x (strcpy a s) m () (copyEvents m a s)
  | [], m, a => storeByte_runs x m a 0
  | b :: s, m, a => (storeByte_runs x m a b).bind (strcpy_runs x s _ (a + 1))

theorem writes_copyEvents : ∀ {s : List ℕ} {m : Mem} {a : ℕ} {ev : Event} {y : ℕ}, ev ∈ copyEvents m a s →
    ev.Writes y → ∃ i ≤ s.length, y = wordOf (a + i)
  | [], m, a, ev, y, he, hy => by
    obtain rfl := List.mem_singleton.mp he
    exact ⟨0, le_refl _, hy.symm⟩
  | b :: s, m, a, ev, y, he, hy => by
    rcases List.mem_cons.mp he with rfl | he
    · exact ⟨0, Nat.zero_le _, hy.symm⟩
    · obtain ⟨i, hi, hyi⟩ := writes_copyEvents he hy
      exact ⟨i + 1, by simpa using hi, by rw [hyi, Nat.add_assoc, Nat.add_comm 1 i]⟩

theorem byteAt_copyEvents : ∀ {s : List ℕ} {m : Mem} {a : ℕ}, (∀ b ∈ s, b < 256) → ∀ y, y < a ∨ a + s.length < y →
    byteAt (applyAll (copyEvents m a s) m) y = byteAt m y
  | [], m, a, _, y, hy => by
    rw [copyEvents, applyAll_store, applyAll_nil, byteAt_update (by decide), if_neg]
    rw [List.length_nil] at hy
    omega
  | b :: s, m, a, hs, y, hy => by
    rw [List.length_cons] at hy
    rw [copyEvents, applyAll_store, byteAt_copyEvents (fun c hc => hs c (List.mem_cons_of_mem _ hc)) y (by omega),
      byteAt_update (hs b List.mem_cons_self), if_neg (by omega)]

theorem stringAt_copyEvents : ∀ {s : List ℕ} {m : Mem} {a : ℕ}, (∀ b ∈ s, b < 256) →
    StringAt (applyAll (copyEvents m a s) m) a s
  | [], m, a, _ => by
    rw [StringAt, copyEvents, applyAll_store, applyAll_nil, byteAt_update (by decide), if_pos rfl]
  | b :: s, m, a, hs => by
    have hs' : ∀ c ∈ s, c < 256 := fun c hc => hs c (List.mem_cons_of_mem _ hc)
    rw [copyEvents, applyAll_store]
    refine ⟨?_, stringAt_copyEvents hs'⟩
    rw [byteAt_copyEvents hs' a (Or.inl (Nat.lt_succ_self a)), byteAt_update (hs b List.mem_cons_self), if_pos rfl]

theorem low_update {m : Mem} {a b x : ℕ} (hx : 8 ∣ x) (ha : x + 4 ≤ a) :
    Function.update m (wordOf a) (setByte (m (wordOf a)) (a % 8) b) x % 2 ^ 32 = m x % 2 ^ 32 := by
  by_cases hw : x = wordOf a
  · rw [hw, Function.update_self]
    refine setByte_mod ?_ _ _
    unfold wordOf at hw
    omega
  · rw [Function.update_of_ne hw]

theorem low_copyEvents : ∀ {s : List ℕ} {m : Mem} {a : ℕ} {x : ℕ}, 8 ∣ x → x + 4 ≤ a →
    applyAll (copyEvents m a s) m x % 2 ^ 32 = m x % 2 ^ 32
  | [], m, a, x, hx, ha => by
    rw [copyEvents, applyAll_store, applyAll_nil]
    exact low_update hx ha
  | b :: s, m, a, x, hx, ha => by
    rw [copyEvents, applyAll_store, low_copyEvents hx (Nat.le_succ_of_le ha)]
    exact low_update hx ha

theorem StringAt.congr {m m' : Mem} : ∀ {s : List ℕ} {a : ℕ}, StringAt m a s →
    (∀ i ≤ s.length, byteAt m' (a + i) = byteAt m (a + i)) → StringAt m' a s
  | [], a, h, hm => (hm 0 (le_refl _)).trans h
  | b :: s, a, h, hm => ⟨(hm 0 (Nat.zero_le _)).trans h.1, h.2.congr fun i hi => by
      rw [Nat.add_assoc, Nat.add_comm 1 i]
      exact hm (i + 1) (by simpa using hi)⟩

theorem StringAt.unique {m : Mem} : ∀ {s t : List ℕ} {a : ℕ}, (∀ b ∈ s, 0 < b) → (∀ b ∈ t, 0 < b) →
    StringAt m a s → StringAt m a t → s = t
  | [], [], _, _, _, _, _ => rfl
  | [], b :: t, a, _, ht, h, h' => absurd (h'.1.symm.trans h) (Nat.ne_of_gt (ht b List.mem_cons_self))
  | b :: s, [], a, hs, _, h, h' => absurd (h.1.symm.trans h') (Nat.ne_of_gt (hs b List.mem_cons_self))
  | b :: s, c :: t, a, hs, ht, h, h' => by
    obtain rfl : b = c := h.1.symm.trans h'.1
    rw [h.2.unique (fun d hd => hs d (List.mem_cons_of_mem _ hd)) (fun d hd => ht d (List.mem_cons_of_mem _ hd)) h'.2]

theorem stringAt_fileAt {p : ℕ} (hp : 8 ∣ p) {m : Mem} : ∀ {s : List ℕ} {a : ℕ},
    StringAt (fileAt p m) a s ↔ StringAt m (p + a) s
  | [], a => by rw [StringAt, StringAt, byteAt_fileAt hp]
  | b :: s, a => by rw [StringAt, StringAt, byteAt_fileAt hp, stringAt_fileAt hp, Nat.add_assoc]

theorem copyEvents_up {p : ℕ} (hp : 8 ∣ p) : ∀ (s : List ℕ) (m : Mem) (a : ℕ),
    copyEvents m (p + a) s = relocate p (copyEvents (fileAt p m) a s)
  | [], m, a => by
    have hmod : (p + a) % 8 = a % 8 := by omega
    rw [copyEvents, copyEvents, wordOf_add hp, hmod]
    rfl
  | b :: s, m, a => by
    have hmod : (p + a) % 8 = a % 8 := by omega
    have hfile := fileAt_applyAll p [.store (wordOf a) (setByte (fileAt p m (wordOf a)) (a % 8) b)] m
    rw [copyEvents, copyEvents, wordOf_add hp, hmod, Nat.add_assoc, copyEvents_up hp]
    rw [relocate_store, relocate_nil, applyAll_store, applyAll_nil, applyAll_store, applyAll_nil] at hfile
    rw [relocate_store, ← hfile]
    rfl

end PmemExamples.Persist
