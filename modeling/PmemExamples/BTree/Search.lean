import Mathlib.Data.Nat.Log
import PmemExamples.BTree.Code

/-! # Searching a node

`real_log2` is exact for powers of two (`realLog2_eq`). So both variants of `findkindex` part the keys of a
node at the same place (`findkindex_reads`, `findkindexSafe_reads`), by reading nothing but these keys. -/

namespace PmemExamples.BTree
set_option autoImplicit false

/-! ## `real_log2` -/

theorem realLog2Loop_zero (fuel a i : ℕ) : realLog2Loop fuel 0 a i = i := by
  cases fuel with
  | zero => rfl
  | succ fuel => rw [realLog2Loop, if_pos rfl]

theorem realLog2Loop_exact : ∀ (j fuel a i : ℕ), 0 < a → a < 2 ^ 2 ^ (j + 1) → j < fuel →
    ∃ r, realLog2Loop fuel (2 ^ j) a i = i * 2 ^ (j + 1) + r ∧ 2 ^ r ≤ a ∧ a < 2 ^ (r + 1)
  | 0, fuel + 1, a, i, ha, hlt, _ => by
    have hlt' : a < 4 := hlt
    rw [realLog2Loop, if_neg (by decide), show 2 ^ 0 / 2 = 0 from rfl, realLog2Loop_zero, realLog2Loop_zero]
    by_cases h2 : 2 ≤ a
    · exact ⟨1, by rw [if_pos (by simpa using h2)]; ring, by omega, by omega⟩
    · exact ⟨0, by rw [if_neg (by simpa using h2)]; ring, by omega, by omega⟩
  | j + 1, fuel + 1, a, i, ha, hlt, hf => by
    have hhalf : 2 ^ (j + 1) / 2 = 2 ^ j := by rw [Nat.pow_succ, Nat.mul_div_cancel _ (by decide)]
    have hsquare : 2 ^ 2 ^ (j + 2) = 2 ^ 2 ^ (j + 1) * 2 ^ 2 ^ (j + 1) := by
      rw [← Nat.pow_add, ← Nat.two_mul, ← Nat.pow_succ']
    rw [realLog2Loop, if_neg (Nat.two_pow_pos _).ne', hhalf]
    by_cases hle : 2 ^ 2 ^ (j + 1) ≤ a
    · -- the upper half of the bits
      obtain ⟨r, h, hr, hr'⟩ := realLog2Loop_exact j fuel (a / 2 ^ 2 ^ (j + 1)) (i * 2 + 1)
        (Nat.div_pos hle (Nat.two_pow_pos _)) (Nat.div_lt_of_lt_mul (hsquare ▸ hlt)) (by omega)
      refine ⟨2 ^ (j + 1) + r, ?_, ?_, ?_⟩
      · rw [if_pos hle, h]
        ring
      · rw [Nat.pow_add, Nat.mul_comm]
        exact (Nat.le_div_iff_mul_le (Nat.two_pow_pos _)).mp hr
      · rw [Nat.add_assoc, Nat.pow_add, Nat.mul_comm]
        exact (Nat.div_lt_iff_lt_mul (Nat.two_pow_pos _)).mp hr'
    · obtain ⟨r, h, hr, hr'⟩ := realLog2Loop_exact j fuel a (i * 2) ha (by omega) (by omega)
      refine ⟨r, ?_, hr, hr'⟩
      rw [if_neg hle, Nat.mod_eq_of_lt (by omega), h]
      ring

theorem realLog2_eq {a j : ℕ} (ha : 0 < a) (hlt : a < 2 ^ 2 ^ (j + 1)) : realLog2 a (2 ^ (j + 1)) = Nat.log 2 a := by
  have hb : (2 ^ (j + 1) + 1) / 2 = 2 ^ j := by
    rw [Nat.pow_succ]
    omega
  obtain ⟨r, h, hr, hr'⟩ := realLog2Loop_exact j (2 ^ j) a 0 ha hlt Nat.lt_two_pow_self
  rw [realLog2, hb, h, Nat.zero_mul, Nat.zero_add]
  exact (Nat.log_eq_of_pow_le_of_lt_pow hr hr').symm

theorem log2_int {a : ℕ} (ha : 0 < a) (hlt : a < 2 ^ 32) : log2 a 32 = Nat.log 2 a := realLog2_eq (j := 4) ha hlt

/-- `btr->nbits` is a power of two, large enough for the counts of a node. -/
theorem nbitsOf_spec {nkeys : ℕ} (h : 0 < nkeys) (hlt : nkeys < 2 ^ 31) :
    ∃ j, nbitsOf nkeys = 2 ^ (j + 1) ∧ nkeys < 2 ^ nbitsOf nkeys := by
  have hlog : Nat.log 2 nkeys < 31 := Nat.log_lt_of_lt_pow h.ne' hlt
  have hbits : log2 (Nat.log 2 nkeys + 1) 32 = Nat.log 2 (Nat.log 2 nkeys + 1) := log2_int (by omega) (by omega)
  have hval : nbitsOf nkeys = 2 ^ (Nat.log 2 (Nat.log 2 nkeys + 1) + 1) := by
    rw [nbitsOf, log2_int h (by omega), hbits]
  refine ⟨_, hval, ?_⟩
  calc nkeys < 2 ^ (Nat.log 2 nkeys + 1) := Nat.lt_pow_succ_log_self (by decide) _
    _ ≤ 2 ^ nbitsOf nkeys := Nat.pow_le_pow_right (by decide) (hval ▸ (Nat.lt_pow_succ_log_self (by decide) _).le)

theorem nbitsOf_le {nkeys : ℕ} (h : 0 < nkeys) (hlt : nkeys < 2 ^ 31) : nbitsOf nkeys ≤ 32 := by
  have hlog : Nat.log 2 nkeys < 31 := Nat.log_lt_of_lt_pow h.ne' hlt
  have hbits : log2 (Nat.log 2 nkeys + 1) 32 = Nat.log 2 (Nat.log 2 nkeys + 1) := log2_int (by omega) (by omega)
  have hlog' : Nat.log 2 (Nat.log 2 nkeys + 1) < 5 := Nat.log_lt_of_lt_pow (by omega) (by omega)
  rw [nbitsOf, log2_int h (by omega), hbits]
  calc 2 ^ (Nat.log 2 (Nat.log 2 nkeys + 1) + 1) ≤ 2 ^ 5 := Nat.pow_le_pow_right (by decide) (by omega)
    _ = 32 := rfl

theorem log2_nbitsOf {a nkeys : ℕ} (ha : 0 < a) (hle : a ≤ nkeys) (hlt : nkeys < 2 ^ 31) :
    log2 a (nbitsOf nkeys) = Nat.log 2 a := by
  obtain ⟨j, hj, hbits⟩ := nbitsOf_spec (by omega) hlt
  rw [hj] at hbits ⊢
  exact realLog2_eq ha (by omega)

/-! ## Comparisons -/

/-- A total preorder, as the sign of a comparison. -/
structure Comparison (cmp : ℕ → ℕ → ℤ) : Prop where
  swap : ∀ a b, cmp a b < 0 ↔ 0 < cmp b a
  trans : ∀ {a b c}, cmp a b ≤ 0 → cmp b c ≤ 0 → cmp a c ≤ 0

namespace Comparison
variable {cmp : ℕ → ℕ → ℤ} {a b c k : ℕ}

theorem le_swap (h : Comparison cmp) (a b : ℕ) : cmp a b ≤ 0 ↔ 0 ≤ cmp b a := by
  have := h.swap b a
  omega

theorem refl (h : Comparison cmp) (a : ℕ) : cmp a a = 0 := by
  have := h.swap a a
  omega

theorem zero_swap (h : Comparison cmp) : cmp a b = 0 ↔ cmp b a = 0 := by
  have := h.swap a b
  have := h.swap b a
  omega

theorem lt_of_lt_of_le (h : Comparison cmp) (hab : cmp a b < 0) (hbc : cmp b c ≤ 0) : cmp a c < 0 := by
  by_contra hac
  have hca : cmp c a ≤ 0 := (h.le_swap c a).mpr (by omega)
  have := (h.le_swap b a).mp (h.trans hbc hca)
  omega

theorem lt_of_le_of_lt (h : Comparison cmp) (hab : cmp a b ≤ 0) (hbc : cmp b c < 0) : cmp a c < 0 := by
  by_contra hac
  have hca : cmp c a ≤ 0 := (h.le_swap c a).mpr (by omega)
  have := (h.le_swap c b).mp (h.trans hca hab)
  omega

theorem before_le (h : Comparison cmp) (k : ℕ) : ∀ a b, cmp a b ≤ 0 → 0 ≤ cmp k b → 0 ≤ cmp k a :=
  fun a b hab hb => (h.le_swap a k).mp (h.trans hab ((h.le_swap b k).mpr hb))

theorem before_lt (h : Comparison cmp) (k : ℕ) : ∀ a b, cmp a b ≤ 0 → 0 < cmp k b → 0 < cmp k a :=
  fun a b hab hb => (h.swap a k).mp (h.lt_of_le_of_lt hab ((h.swap b k).mpr hb))

theorem behind_ge (h : Comparison cmp) (k : ℕ) : ∀ a b, cmp a b ≤ 0 → cmp k a ≤ 0 → cmp k b ≤ 0 :=
  fun _ _ hab ha => h.trans ha hab

theorem behind_gt (h : Comparison cmp) (k : ℕ) : ∀ a b, cmp a b ≤ 0 → cmp k a < 0 → cmp k b < 0 :=
  fun _ _ hab ha => h.lt_of_lt_of_le ha hab

end Comparison

/-- Keys compared as numbers. -/
def byValue (a b : ℕ) : ℤ := (a : ℤ) - b

theorem comparison_byValue : Comparison byValue := by
  constructor
  · intro a b
    unfold byValue
    omega
  · intro a b c
    unfold byValue
    omega

/-- Non-decreasing. -/
def Ascending (cmp : ℕ → ℕ → ℤ) (keys : List ℕ) : Prop := keys.Pairwise fun a b => cmp a b ≤ 0

/-- `k` belongs between `l` and `r`, behind what is equal to it. -/
structure Parts (cmp : ℕ → ℕ → ℤ) (k : ℕ) (l r : List ℕ) : Prop where
  left : ∀ e ∈ l, 0 ≤ cmp k e
  right : ∀ e ∈ r, cmp k e < 0

theorem Parts.unique {cmp : ℕ → ℕ → ℤ} {k : ℕ} {l r l' r' : List ℕ} (h : Parts cmp k l r) (h' : Parts cmp k l' r')
    (heq : l ++ r = l' ++ r') : l = l' ∧ r = r' := by
  rcases List.append_eq_append_iff.mp heq with ⟨s, rfl, rfl⟩ | ⟨s, rfl, rfl⟩
  · cases s with
    | nil => simp
    | cons e s =>
      have h1 := h.right e (by simp)
      have h2 := h'.left e (by simp)
      omega
  · cases s with
    | nil => simp
    | cons e s =>
      have h1 := h'.right e (by simp)
      have h2 := h.left e (by simp)
      omega

/-- What `findkindex` returns where it parts the keys: the index of the last key on the left, and the
comparison with it. -/
structure Found (cmp : ℕ → ℕ → ℤ) (k : ℕ) (l r : List ℕ) (res : ℤ × Option ℤ) : Prop where
  parts : Parts cmp k l r
  index : res.1 = (l.length : ℤ) - 1
  last : ∀ e ∈ l.getLast?, res.2 = some (cmp k e)
  first : l = [] → res.2 ≠ some 0

theorem found_of_index {cmp : ℕ → ℕ → ℤ} (hcmp : Comparison cmp) {k : ℕ} {keys : List ℕ} (hs : Ascending cmp keys)
    {j : ℕ}
    (hj : j < keys.length) (hle : 0 ≤ cmp k keys[j]) (hright : ∀ i (h : i < keys.length), j < i → cmp k keys[i] < 0) :
    Found cmp k (keys.take (j + 1)) (keys.drop (j + 1)) ((j : ℤ), some (cmp k keys[j])) := by
  refine ⟨⟨fun e he => ?_, fun e he => ?_⟩, ?_, fun e he => ?_, fun hnil => ?_⟩
  · obtain ⟨i, hi, rfl⟩ := List.getElem_of_mem he
    rw [List.length_take] at hi
    rw [List.getElem_take]
    rcases Nat.lt_or_ge i j with hij | hij
    · have := List.pairwise_iff_getElem.mp hs i j (by omega) hj hij
      rw [← hcmp.le_swap]
      exact hcmp.trans this ((hcmp.le_swap _ _).mpr hle)
    · obtain rfl : i = j := by omega
      exact hle
  · obtain ⟨i, hi, rfl⟩ := List.getElem_of_mem he
    rw [List.length_drop] at hi
    rw [List.getElem_drop]
    exact hright _ _ (by omega)
  · rw [List.length_take]
    dsimp only
    omega
  · rw [List.take_succ_eq_append_getElem hj, List.getLast?_append, List.getLast?_singleton] at he
    rw [Option.mem_def] at he
    rw [← Option.some.inj he]
  · rw [List.take_eq_nil_iff] at hnil
    rcases hnil with hnil | rfl
    · omega
    · simp at hj

theorem found_none {cmp : ℕ → ℕ → ℤ} {k : ℕ} {keys : List ℕ} {o : Option ℤ} (ho : o ≠ some 0)
    (h : ∀ e ∈ keys, cmp k e < 0) : Found cmp k [] keys (-1, o) :=
  ⟨⟨by simp, h⟩, by simp, by simp, fun _ => ho⟩

/-! ## The search, on the list of the keys -/

/-- The loop of `findkindex`. -/
def kindexLoop (cmp : ℕ → ℕ → ℤ) (k : ℕ) (keys : List ℕ) : ℕ → ℕ → ℕ → ℕ
  | 0, _, i => i
  | fuel + 1, a, i =>
    if a = 0 then i
    else if cmp k (keys.getD (2 ^ Nat.log 2 a + i) 0) < 0 then kindexLoop cmp k keys fuel (2 ^ Nat.log 2 a - 1) i
    else kindexLoop cmp k keys fuel (a - 2 ^ Nat.log 2 a) (i ||| 2 ^ Nat.log 2 a)

/-- What `findkindex` returns for a node with these keys, and leaves in `*r`. -/
def kindex (cmp : ℕ → ℕ → ℤ) (k : ℕ) (keys : List ℕ) : ℤ × Option ℤ :=
  if keys = [] then (-1, none)
  else
    let i := kindexLoop cmp k keys (keys.length - 1 + 1) (keys.length - 1) 0
    let r := cmp k (keys.getD i 0)
    (if r < 0 then (i : ℤ) - 1 else i, some r)

theorem log_split {a i c : ℕ} (ha : a ≠ 0) (hac : a < 2 ^ c) (hci : 2 ^ c ∣ i) : 2 ^ Nat.log 2 a ≤ a ∧
    a < 2 ^ Nat.log 2 a * 2 ∧ Nat.log 2 a < c ∧ 2 ^ Nat.log 2 a ∣ i ∧ i ||| 2 ^ Nat.log 2 a = 2 ^ Nat.log 2 a + i := by
  have hbc : Nat.log 2 a < c := Nat.log_lt_of_lt_pow ha hac
  refine ⟨Nat.pow_log_le_self 2 ha, ?_, hbc, dvd_trans (pow_dvd_pow 2 hbc.le) hci, ?_⟩
  · rw [← Nat.pow_succ]
    exact Nat.lt_pow_succ_log_self (by decide) a
  · obtain ⟨q, rfl⟩ := hci
    rw [← Nat.two_pow_add_eq_or_of_lt (Nat.pow_lt_pow_right (by decide) hbc), Nat.add_comm]

/-- The keys above `i + a` are on the right, and that at `i` on the left unless `i` is 0. -/
theorem kindexLoop_parts {cmp : ℕ → ℕ → ℤ} {k : ℕ} {keys : List ℕ} (hcmp : Comparison cmp) (hs : Ascending cmp keys) :
    ∀ (fuel a i c : ℕ), a < fuel → a < 2 ^ c → 2 ^ c ∣ i → i + a < keys.length →
      (∀ hi : i < keys.length, i ≠ 0 → 0 ≤ cmp k keys[i]) →
      (∀ j (hj : j < keys.length), i + a < j → cmp k keys[j] < 0) →
      ∃ i', kindexLoop cmp k keys fuel a i = i' ∧ i' < keys.length ∧
        (∀ hi : i' < keys.length, i' ≠ 0 → 0 ≤ cmp k keys[i']) ∧ ∀ j (hj : j < keys.length), i' < j → cmp k keys[j] < 0
  | fuel + 1, a, i, c, hf, hac, hci, hlen, hleft, hright => by
    by_cases ha : a = 0
    · subst ha
      exact ⟨i, if_pos rfl, hlen, hleft, hright⟩
    obtain ⟨hlow, hhigh, hbc, hdvd, hor⟩ := log_split ha hac hci
    have hb : 2 ^ Nat.log 2 a + i < keys.length := by omega
    have hpos := Nat.two_pow_pos (Nat.log 2 a)
    rw [kindexLoop, if_neg ha, List.getD_eq_getElem _ _ hb]
    by_cases hlt : cmp k keys[2 ^ Nat.log 2 a + i] < 0
    · rw [if_pos hlt]
      refine kindexLoop_parts hcmp hs fuel (2 ^ Nat.log 2 a - 1) i (Nat.log 2 a) (by omega) (by omega) hdvd (by omega)
        hleft fun j hj hij => ?_
      rcases Nat.lt_or_ge (2 ^ Nat.log 2 a + i) j with hgt | hle
      · exact hcmp.lt_of_lt_of_le hlt (List.pairwise_iff_getElem.mp hs _ j hb hj hgt)
      · obtain rfl : j = 2 ^ Nat.log 2 a + i := by omega
        exact hlt
    · rw [if_neg hlt, hor]
      exact kindexLoop_parts hcmp hs fuel (a - 2 ^ Nat.log 2 a) (2 ^ Nat.log 2 a + i) (Nat.log 2 a) (by omega) (by omega)
        (Nat.dvd_add (dvd_refl _) hdvd) (by omega) (fun _ _ => by omega) fun j hj hij => hright j hj (by omega)

theorem kindex_found {cmp : ℕ → ℕ → ℤ} {keys : List ℕ} (hcmp : Comparison cmp) (hs : Ascending cmp keys) (k : ℕ) :
    ∃ l r, keys = l ++ r ∧ Found cmp k l r (kindex cmp k keys) := by
  rw [kindex]
  by_cases hz : keys = []
  · rw [if_pos hz]
    exact ⟨[], keys, rfl, found_none (by simp) (by simp [hz])⟩
  have hpos : 0 < keys.length := List.length_pos_iff.mpr hz
  obtain ⟨j, hloop, hj, hleft, hright⟩ := kindexLoop_parts (k := k) hcmp hs (keys.length - 1 + 1) (keys.length - 1) 0
    keys.length (by omega) (lt_trans (by omega) Nat.lt_two_pow_self) (dvd_zero _) (by omega) (by simp)
      fun j hj hij => by omega
  rw [if_neg hz, hloop]
  dsimp only
  rw [List.getD_eq_getElem _ _ hj]
  by_cases hlt : cmp k keys[j] < 0
  · -- only the first key is left to be compared
    obtain rfl : j = 0 := by
      by_contra hj0
      have := hleft hj hj0
      omega
    rw [if_pos hlt]
    refine ⟨[], keys, rfl, found_none (fun heq => ?_) fun e he => ?_⟩
    · have := Option.some.inj heq
      omega
    · obtain ⟨i, hi, rfl⟩ := List.getElem_of_mem he
      rcases Nat.eq_zero_or_pos i with rfl | hi0
      · exact hlt
      · exact hright i hi hi0
  · rw [if_neg hlt]
    exact ⟨_, _, (List.take_append_drop (j + 1) keys).symm, found_of_index hcmp hs hj (by omega) hright⟩

theorem kindexLoop_lt {cmp : ℕ → ℕ → ℤ} {k : ℕ} {keys : List ℕ} : ∀ (fuel a i c : ℕ), a < 2 ^ c → 2 ^ c ∣ i →
    i + a < keys.length → kindexLoop cmp k keys fuel a i < keys.length
  | 0, a, i, c, _, _, hlen => by
    rw [kindexLoop]
    omega
  | fuel + 1, a, i, c, hac, hci, hlen => by
    rw [kindexLoop]
    split
    · omega
    · next ha =>
      obtain ⟨hlow, hhigh, hbc, hdvd, hor⟩ := log_split ha hac hci
      split
      · exact kindexLoop_lt fuel _ i (Nat.log 2 a) (by omega) hdvd (by omega)
      · rw [hor]
        exact kindexLoop_lt fuel _ _ (Nat.log 2 a) (by omega) (Nat.dvd_add (dvd_refl _) hdvd) (by omega)

theorem kindexLoop_start_lt {keys : List ℕ} (hz : keys ≠ []) (cmp : ℕ → ℕ → ℤ) (k fuel : ℕ) :
    kindexLoop cmp k keys fuel (keys.length - 1) 0 < keys.length := by
  have hpos : 0 < keys.length := List.length_pos_iff.mpr hz
  exact kindexLoop_lt fuel _ 0 keys.length (lt_trans (by omega) Nat.lt_two_pow_self) (dvd_zero _) (by omega)

theorem kindex_bounds (cmp : ℕ → ℕ → ℤ) (k : ℕ) (keys : List ℕ) : -1 ≤ (kindex cmp k keys).1 ∧
    (kindex cmp k keys).1 < keys.length ∧
    (keys ≠ [] → ∃ r, (kindex cmp k keys).2 = some r ∧ (r = 0 → 0 ≤ (kindex cmp k keys).1)) := by
  rw [kindex]
  by_cases hz : keys = []
  · simp [hz]
  · have hin := kindexLoop_start_lt hz cmp k (keys.length - 1 + 1)
    rw [if_neg hz]
    dsimp only
    refine ⟨?_, ?_, fun _ => ⟨_, rfl, fun hr => ?_⟩⟩
    · split <;> omega
    · split <;> omega
    · rw [if_neg (by omega)]
      exact Int.natCast_nonneg _

/-! ## Reading -/

/-- What it means that an action only reads, and returns a value. -/
structure Reads (m : Type → Type) [Monad m] where
  holds : {α : Type} → m α → α → Prop
  pure : ∀ {α : Type} (a : α), holds (Pure.pure a) a
  bind : ∀ {α β : Type} {act : m α} {f : α → m β} {a : α} {b : β}, holds act a → holds (f a) b → holds (act >>= f) b

/-- The node `x` can be read: its count, its keys, and `log2` below its count. -/
structure Readable {m : Type → Type} [Monad m] (R : Reads m) (ops : NodeOps m) (x : ℕ) (keys : List ℕ) (nbits : ℕ) :
    Prop where
  n : R.holds (ops.n x) keys.length
  bits : R.holds ops.nbits nbits
  key : ∀ i (h : i < keys.length), R.holds (ops.key x i) keys[i]
  log2 : ∀ a, 0 < a → a < keys.length → R.holds (ops.log2 a nbits) (Nat.log 2 a)

section Reading
variable {m : Type → Type} [Monad m] {R : Reads m} {ops : NodeOps m} {cmp : ℕ → ℕ → ℤ} {x k nbits : ℕ} {keys : List ℕ}

/-- The loop visits the keys that `kindexLoop` does. The bits of `i` are above those of `a`. -/
theorem findkindexLoop_reads (h : Readable R ops x keys nbits) : ∀ (fuel a i c : ℕ), a < fuel → a < 2 ^ c → 2 ^ c ∣ i →
    i + a < keys.length → R.holds (findkindexLoop ops cmp x k fuel a i) (kindexLoop cmp k keys fuel a i)
  | fuel + 1, a, i, c, hf, hac, hci, hlen => by
    by_cases ha : a = 0
    · rw [findkindexLoop, kindexLoop, if_pos ha, if_pos ha]
      exact R.pure i
    obtain ⟨hlow, hhigh, hbc, hdvd, hor⟩ := log_split ha hac hci
    have hb : 2 ^ Nat.log 2 a + i < keys.length := by omega
    have hpos := Nat.two_pow_pos (Nat.log 2 a)
    have hstep : ∀ {i' : ℕ}, R.holds (if cmp k keys[2 ^ Nat.log 2 a + i] < 0 then
        findkindexLoop ops cmp x k fuel (2 ^ Nat.log 2 a - 1) i
        else findkindexLoop ops cmp x k fuel (a - 2 ^ Nat.log 2 a) (i ||| 2 ^ Nat.log 2 a)) i' →
        R.holds (findkindexLoop ops cmp x k (fuel + 1) a i) i' := by
      intro i' hi'
      rw [findkindexLoop, if_neg ha]
      exact R.bind h.bits (R.bind (h.log2 a (Nat.pos_of_ne_zero ha) (by omega)) (R.bind (h.key _ hb) hi'))
    rw [kindexLoop, if_neg ha, List.getD_eq_getElem _ _ hb]
    by_cases hlt : cmp k keys[2 ^ Nat.log 2 a + i] < 0
    · have hrun := findkindexLoop_reads h fuel (2 ^ Nat.log 2 a - 1) i (Nat.log 2 a) (by omega) (by omega) hdvd
        (by omega)
      rw [if_pos hlt]
      exact hstep (by rw [if_pos hlt]; exact hrun)
    · have hrun := findkindexLoop_reads h fuel (a - 2 ^ Nat.log 2 a) (2 ^ Nat.log 2 a + i) (Nat.log 2 a) (by omega)
        (by omega) (Nat.dvd_add (dvd_refl _) hdvd) (by omega)
      rw [if_neg hlt, hor]
      exact hstep (by rw [if_neg hlt, hor]; exact hrun)

theorem findkindex_kindex (h : Readable R ops x keys nbits) (cmp : ℕ → ℕ → ℤ) (k : ℕ) :
    R.holds (findkindex ops cmp x k) (kindex cmp k keys) := by
  rw [kindex]
  by_cases hz : keys = []
  · subst hz
    refine R.bind h.n ?_
    rw [if_pos (by simp), if_pos rfl]
    exact R.pure _
  have hpos : 0 < keys.length := List.length_pos_iff.mpr hz
  have hin := kindexLoop_start_lt hz cmp k (keys.length - 1 + 1)
  have hloop : R.holds (findkindexLoop ops cmp x k (keys.length - 1 + 1) (keys.length - 1) 0)
      (kindexLoop cmp k keys (keys.length - 1 + 1) (keys.length - 1) 0) :=
    findkindexLoop_reads h _ _ 0 keys.length (by omega) (lt_trans (by omega) Nat.lt_two_pow_self) (dvd_zero _) (by omega)
  have hfuel : (((keys.length : ℕ) : ℤ) - 1).toNat = keys.length - 1 := by omega
  refine R.bind h.n ?_
  rw [if_neg (by omega), if_neg hz, hfuel]
  refine R.bind hloop ?_
  dsimp only
  rw [List.getD_eq_getElem _ _ hin]
  exact R.bind (h.key _ hin) (R.pure _)

theorem findkindex_reads (h : Readable R ops x keys nbits) (hcmp : Comparison cmp) (hs : Ascending cmp keys) (k : ℕ) :
    ∃ l r res, keys = l ++ r ∧ R.holds (findkindex ops cmp x k) res ∧ Found cmp k l r res := by
  obtain ⟨l, r, heq, hfound⟩ := kindex_found hcmp hs k
  exact ⟨l, r, _, heq, findkindex_kindex h cmp k, hfound⟩

theorem findkindexSafeLoop_reads (h : Readable R ops x keys nbits) (hcmp : Comparison cmp) (hs : Ascending cmp keys) :
    ∀ (n : ℕ) (o : Option ℤ), n ≤ keys.length → (o ≠ some 0) → (∀ j (hj : j < keys.length), n ≤ j → cmp k keys[j] < 0) →
      ∃ l r res, keys = l ++ r ∧ R.holds (findkindexSafeLoop ops cmp x k n o) res ∧ Found cmp k l r res
  | 0, o, _, ho, hright => by
    refine ⟨[], keys, (-1, o), rfl, R.pure _, found_none ho fun e he => ?_⟩
    obtain ⟨i, hi, rfl⟩ := List.getElem_of_mem he
    exact hright i hi (Nat.zero_le i)
  | n + 1, o, hn, ho, hright => by
    have hkey := h.key n (by omega)
    by_cases hlt : cmp k keys[n] < 0
    · obtain ⟨l, r, res, heq, hloop, hfound⟩ := findkindexSafeLoop_reads h hcmp hs n (some (cmp k keys[n])) (by omega)
        (fun hzero => by have := Option.some.inj hzero; omega) fun j hj hnj => by
          rcases Nat.lt_or_ge n j with hgt | hle
          · exact hright j hj hgt
          · obtain rfl : j = n := by omega
            exact hlt
      refine ⟨l, r, res, heq, R.bind hkey ?_, hfound⟩
      rw [if_pos hlt]
      exact hloop
    · refine ⟨_, _, ((n : ℤ), some (cmp k keys[n])), (List.take_append_drop (n + 1) keys).symm, R.bind hkey ?_,
        found_of_index hcmp hs (by omega) (by omega) fun j hj hnj => hright j hj (by omega)⟩
      rw [if_neg hlt]
      exact R.pure _

theorem findkindexSafe_reads (h : Readable R ops x keys nbits) (hcmp : Comparison cmp) (hs : Ascending cmp keys)
    (k : ℕ) : ∃ l r res, keys = l ++ r ∧ R.holds (findkindexSafe ops cmp x k) res ∧ Found cmp k l r res := by
  obtain ⟨l, r, res, heq, hloop, hfound⟩ := findkindexSafeLoop_reads (k := k) h hcmp hs keys.length none (le_refl _)
    (by simp) fun j hj hnj => by omega
  refine ⟨l, r, res, heq, R.bind h.n ?_, hfound⟩
  rw [Int.toNat_natCast]
  exact hloop

end Reading

end PmemExamples.BTree
