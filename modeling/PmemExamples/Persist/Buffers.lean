import PmemExamples.Persist.Bytes

/-! # Buffers

`memcpy` copies a buffer byte by byte, each byte a read and a write of its word, so a crash among the stores
may leave any of the copied bytes but no byte beside them changed. -/

namespace PmemExamples.Persist
set_option autoImplicit false

/-- The `n` bytes from `a` on. -/
def bytesOf (m : Mem) (a n : ℕ) : List UInt8 := (List.range n).map fun i => UInt8.ofNat (byteAt m (a + i))

/-- The bytes at an address, as a buffer. -/
def readBytes (a n : ℕ) : Prog (List UInt8) := fun w => (.ok (bytesOf w.mem a n), w)

def memcpy : ℕ → List UInt8 → Prog Unit
  | _, [] => pure ()
  | a, b :: buf => do
    storeByte a b.toNat
    memcpy (a + 1) buf

/-- The stores of `memcpy`. -/
def memcpyEvents (m : Mem) : ℕ → List UInt8 → List Event
  | _, [] => []
  | a, b :: buf => .store (wordOf a) (setByte (m (wordOf a)) (a % 8) b.toNat) ::
      memcpyEvents (Function.update m (wordOf a) (setByte (m (wordOf a)) (a % 8) b.toNat)) (a + 1) buf

@[simp] theorem length_bytesOf (m : Mem) (a n : ℕ) : (bytesOf m a n).length = n := by simp [bytesOf]

@[simp] theorem bytesOf_zero (m : Mem) (a : ℕ) : bytesOf m a 0 = [] := rfl

@[simp] theorem readBytes_apply (a n : ℕ) (w : World) : readBytes a n w = (.ok (bytesOf w.mem a n), w) := rfl

theorem bytesOf_add (m : Mem) (a n k : ℕ) : bytesOf m a (n + k) = bytesOf m a n ++ bytesOf m (a + n) k := by
  simp only [bytesOf, List.range_add, List.map_append, List.map_map, Function.comp_def, Nat.add_assoc]

theorem bytesOf_congr {m m' : Mem} {a n : ℕ} (h : ∀ y, a ≤ y → y < a + n → byteAt m' y = byteAt m y) :
    bytesOf m' a n = bytesOf m a n := by
  apply List.map_congr_left
  intro i hi
  rw [h _ (Nat.le_add_right a i) (Nat.add_lt_add_left (List.mem_range.mp hi) a)]

theorem bytesOf_fileAt {p : ℕ} (hp : 8 ∣ p) (m : Mem) (a n : ℕ) : bytesOf (fileAt p m) a n = bytesOf m (p + a) n := by
  apply List.map_congr_left
  intro i _
  rw [byteAt_fileAt hp, Nat.add_assoc]

theorem take_bytesOf (m : Mem) (a : ℕ) {k n : ℕ} (h : k ≤ n) : (bytesOf m a n).take k = bytesOf m a k := by
  obtain ⟨j, rfl⟩ := Nat.exists_eq_add_of_le h
  rw [bytesOf_add, List.take_left' (length_bytesOf m a k)]

theorem drop_bytesOf (m : Mem) (a : ℕ) {k n : ℕ} (h : k ≤ n) : (bytesOf m a n).drop k = bytesOf m (a + k) (n - k) := by
  obtain ⟨j, rfl⟩ := Nat.exists_eq_add_of_le h
  rw [bytesOf_add, List.drop_left' (length_bytesOf m a k), Nat.add_sub_cancel_left]

/-! ## What a copy leaves -/

theorem memcpy_runs (x : Bool) (buf : List UInt8) (m : Mem) (a : ℕ) :
    Runs x (memcpy a buf) m () (memcpyEvents m a buf) := by
  induction buf generalizing m a with
  | nil => exact Runs.pure x m ()
  | cons b buf ih => exact (storeByte_runs x m a b.toNat).bind (ih _ (a + 1))

theorem memcpy_append (buf buf' : List UInt8) (a : ℕ) (w : World) :
    memcpy a (buf ++ buf') w = (memcpy a buf >>= fun _ => memcpy (a + buf.length) buf') w := by
  induction buf generalizing a w with
  | nil => rfl
  | cons b buf ih =>
    have hlen : a + (b :: buf).length = a + 1 + buf.length := by
      rw [List.length_cons]
      omega
    rw [hlen]
    exact ih (a + 1) _

theorem memcpyEvents_append (m : Mem) (a : ℕ) (buf buf' : List UInt8) : memcpyEvents m a (buf ++ buf') =
    memcpyEvents m a buf ++ memcpyEvents (applyAll (memcpyEvents m a buf) m) (a + buf.length) buf' := by
  induction buf generalizing m a with
  | nil => rfl
  | cons b buf ih =>
    rw [List.cons_append, memcpyEvents, ih, memcpyEvents, applyAll_store, List.length_cons, List.cons_append,
      Nat.add_assoc, Nat.add_comm 1]

/-- A store of a copy is to a word with a copied byte, and leaves the other bytes of the word. -/
theorem store_memcpyEvents {buf : List UInt8} {m : Mem} {a x v : ℕ} (h : .store x v ∈ memcpyEvents m a buf) :
    (∃ i < buf.length, x = wordOf (a + i)) ∧
      ∀ y, wordOf y = x → (y < a ∨ a + buf.length ≤ y) → byteOf v (y % 8) = byteAt m y := by
  induction buf generalizing m a with
  | nil => cases h
  | cons b buf ih =>
    rw [List.length_cons]
    have hb : b.toNat < 256 := b.toNat_lt
    have hstep : ∀ y, y ≠ a → byteAt (Function.update m (wordOf a) (setByte (m (wordOf a)) (a % 8) b.toNat)) y = byteAt
      m y :=
      fun y hy => by rw [byteAt_update hb, if_neg hy]
    rcases List.mem_cons.mp h with heq | h
    · obtain ⟨rfl, rfl⟩ := Event.store.inj heq
      refine ⟨⟨0, Nat.succ_pos _, rfl⟩, fun y hw hy => ?_⟩
      rw [← hstep y (by omega), byteAt, hw, Function.update_self]
    · obtain ⟨⟨i, hi, hx⟩, hkeep⟩ := ih h
      refine ⟨⟨i + 1, by omega, by rw [hx, Nat.add_assoc, Nat.add_comm 1]⟩, fun y hw hy => ?_⟩
      rw [hkeep y hw (by omega), hstep y (by omega)]

theorem writes_memcpyEvents {buf : List UInt8} {m : Mem} {a y : ℕ} {ev : Event} (he : ev ∈ memcpyEvents m a buf)
    (hy : ev.Writes y) : ∃ i < buf.length, y = wordOf (a + i) := by
  cases ev with
  | store x v =>
    obtain rfl : x = y := hy
    exact (store_memcpyEvents he).1
  | flush ls => exact absurd hy (Event.writes_flush _ _)

theorem not_store_memcpyEvents {buf : List UInt8} {m : Mem} {a x v : ℕ} (hx : x + 8 ≤ a) :
    .store x v ∉ memcpyEvents m a buf := by
  intro h
  obtain ⟨⟨i, -, rfl⟩, -⟩ := store_memcpyEvents h
  unfold wordOf at hx
  omega

theorem applyAll_memcpyEvents {buf : List UInt8} {m : Mem} {a x : ℕ} (hx : x + 8 ≤ a) :
    applyAll (memcpyEvents m a buf) m x = m x :=
  (applyAll_eq_or_store _ m x).resolve_right (not_store_memcpyEvents hx)

/-- Where any of the stores of a copy may be missing, bytes before the copy keep their value. -/
theorem byteAt_of_memcpyEvents {buf : List UInt8} {m img : Mem} {a y : ℕ}
    (h : img (wordOf y) = m (wordOf y) ∨ .store (wordOf y) (img (wordOf y)) ∈ memcpyEvents m a buf) (hy : y < a) :
    byteAt img y = byteAt m y := by
  rcases h with h | h
  · rw [byteAt, h, byteAt]
  · exact (store_memcpyEvents h).2 y rfl (Or.inl hy)

theorem byteAt_memcpyEvents {buf : List UInt8} {m : Mem} {a y : ℕ} (hy : y < a ∨ a + buf.length ≤ y) :
    byteAt (applyAll (memcpyEvents m a buf) m) y = byteAt m y := by
  rcases applyAll_eq_or_store (memcpyEvents m a buf) m (wordOf y) with h | h
  · rw [byteAt, h, byteAt]
  · exact (store_memcpyEvents h).2 y rfl hy

theorem bytesOf_memcpyEvents (buf : List UInt8) (m : Mem) (a : ℕ) :
    bytesOf (applyAll (memcpyEvents m a buf) m) a buf.length = buf := by
  induction buf generalizing m a with
  | nil => rfl
  | cons b buf ih =>
    rw [memcpyEvents, applyAll_store, List.length_cons, Nat.add_comm buf.length 1, bytesOf_add, ih]
    have hfirst : bytesOf (applyAll (memcpyEvents (Function.update m (wordOf a) (setByte (m (wordOf a)) (a % 8) b.toNat))
        (a + 1) buf) (Function.update m (wordOf a) (setByte (m (wordOf a)) (a % 8) b.toNat))) a 1 = [b] := by
      simp only [bytesOf, List.range_one, List.map_cons, List.map_nil, Nat.add_zero]
      rw [byteAt_memcpyEvents (Or.inl (Nat.lt_succ_self a)), byteAt_update b.toNat_lt, if_pos rfl, UInt8.ofNat_toNat]
    rw [hfirst]
    rfl

end PmemExamples.Persist
