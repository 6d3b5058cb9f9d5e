import PmemExamples.Tiling.Merge
import PmemExamples.Pool.Allocator

/-! # The walk over the clumps of a pool

`Chain m a cs e`: the walk that starts at address `a` and steps by `size & ~63` meets exactly the
clumps `cs` and ends at the zero size word at `e`. `normalForm` is what recovery is for: states
settled, adjacent free clumps merged. -/

namespace PmemExamples.Pool
open Persist Libpmem Tiling
set_option autoImplicit false

/-- A clump of the walk: header address, size with header, state. -/
abbrev Clump : Type := Block State

/-- The size word of the clump's header. -/
def Clump.word (c : Clump) : ℕ := c.size ||| c.tag.code

/-- The clump in another state. -/
def Clump.set (c : Clump) (s : State) : Clump := ⟨c.addr, c.size, s⟩

@[simp] theorem Clump.set_addr (c : Clump) (s : State) : (c.set s).addr = c.addr := rfl
@[simp] theorem Clump.set_size (c : Clump) (s : State) : (c.set s).size = c.size := rfl
@[simp] theorem Clump.set_tag (c : Clump) (s : State) : (c.set s).tag = s := rfl
@[simp] theorem Clump.set_set (c : Clump) (s t : State) : (c.set s).set t = c.set t := rfl
@[simp] theorem Clump.set_self (c : Clump) : c.set c.tag = c := rfl

/-- The address lies in the clump's 64-byte header. -/
def Clump.InHeader (c : Clump) (x : ℕ) : Prop := c.addr ≤ x ∧ x < c.addr + 64

instance (c : Clump) (x : ℕ) : Decidable (c.InHeader x) :=
  inferInstanceAs (Decidable (c.addr ≤ x ∧ x < c.addr + 64))

def Chain (m : Mem) (a : ℕ) (cs : List Clump) (e : ℕ) : Prop :=
  Tiles 64 a cs e ∧ (∀ c ∈ cs, m c.addr = c.word) ∧ m e = 0

/-! ## Reading a header -/

section Word
variable {c : Clump}

theorem Clump.word_ne_zero (hp : 0 < c.size) (hd : 64 ∣ c.size) : c.word ≠ 0 := by
  rw [Clump.word, or_code hd c.tag.code_lt]
  omega

theorem Clump.clumpSz_word (hd : 64 ∣ c.size) : clumpSz c.word = c.size :=
  clumpSz_or hd c.tag.code_lt

theorem Clump.clumpState_word (hd : 64 ∣ c.size) : clumpState c.word = c.tag.code :=
  clumpState_or hd c.tag.code_lt

end Word

namespace Chain
variable {m m' : Mem} {a e x v : ℕ} {c b : Clump} {cs l r : List Clump}

theorem tiles (h : Chain m a cs e) : Tiles 64 a cs e := h.1
theorem word (h : Chain m a cs e) (hc : c ∈ cs) : m c.addr = c.word := h.2.1 c hc
theorem marker (h : Chain m a cs e) : m e = 0 := h.2.2

theorem cons_iff : Chain m a (c :: cs) e ↔
    c.addr = a ∧ 0 < c.size ∧ 64 ∣ c.size ∧ m a = c.word ∧ Chain m (a + c.size) cs e := by
  constructor
  · rintro ⟨⟨h1, h2, h3, h4⟩, h5, h6⟩
    exact ⟨h1, h2, h3, h1 ▸ h5 c List.mem_cons_self, h4,
      fun b hb => h5 b (List.mem_cons_of_mem _ hb), h6⟩
  · rintro ⟨h1, h2, h3, h4, h5, h6, h7⟩
    refine ⟨⟨h1, h2, h3, h5⟩, fun b hb => ?_, h7⟩
    rcases List.mem_cons.mp hb with rfl | hb
    · rw [h1]; exact h4
    · exact h6 b hb

theorem append_iff : Chain m a (l ++ r) e ↔
    ∃ b, Tiles 64 a l b ∧ (∀ c ∈ l, m c.addr = c.word) ∧ Chain m b r e := by
  constructor
  · rintro ⟨h1, h2, h3⟩
    obtain ⟨b, h4, h5⟩ := tiles_append.mp h1
    exact ⟨b, h4, fun c hc => h2 c (List.mem_append_left _ hc), h5,
      fun c hc => h2 c (List.mem_append_right _ hc), h3⟩
  · rintro ⟨b, h1, h2, h3, h4, h5⟩
    refine ⟨h1.append h3, fun c hc => ?_, h5⟩
    rcases List.mem_append.mp hc with hc | hc
    · exact h2 c hc
    · exact h4 c hc

theorem congr (h : Chain m a cs e) (hc : ∀ c ∈ cs, m' c.addr = m c.addr) (he : m' e = m e) :
    Chain m' a cs e :=
  ⟨h.1, fun c hm => (hc c hm).trans (h.word hm), he.trans h.marker⟩

theorem applyAll_of_not_writes {evs : List Event} (h : Chain m a cs e)
    (hc : ∀ c ∈ cs, ∀ ev ∈ evs, ¬ ev.Writes c.addr) (he : ∀ ev ∈ evs, ¬ ev.Writes e) :
    Chain (applyAll evs m) a cs e :=
  h.congr (fun c hm => Persist.applyAll_of_not_writes (hc c hm) m)
    (Persist.applyAll_of_not_writes he m)

theorem size_pos (h : Chain m a cs e) (hc : c ∈ cs) : 0 < c.size := h.1.size_pos hc
theorem size_dvd (h : Chain m a cs e) (hc : c ∈ cs) : 64 ∣ c.size := h.1.size_dvd hc

theorem size_ge (h : Chain m a cs e) (hc : c ∈ cs) : 64 ≤ c.size :=
  Nat.le_of_dvd (h.size_pos hc) (h.size_dvd hc)

theorem addr_lt (h : Chain m a cs e) (hc : c ∈ cs) : c.addr + 64 ≤ e := by
  have := h.1.bounds hc
  have := h.size_ge hc
  omega

theorem header_disjoint (h : Chain m a cs e) (hb : b ∈ cs) (hc : c ∈ cs) (hne : b ≠ c) :
    b.InHeader x → ¬ c.InHeader x := by
  rintro ⟨h1, h2⟩ ⟨h3, h4⟩
  have := h.size_ge hb
  have := h.size_ge hc
  rcases h.1.disjoint hb hc hne with h | h <;> omega

theorem unique {cs' : List Clump} {e' : ℕ} (h : Chain m a cs e) (h' : Chain m a cs' e') :
    cs = cs' ∧ e = e' := by
  induction cs generalizing a cs' with
  | nil =>
    obtain rfl : a = e := tiles_nil.mp h.1
    cases cs' with
    | nil => exact ⟨rfl, tiles_nil.mp h'.1⟩
    | cons c cs' =>
      obtain ⟨-, h2, h3, h4, -⟩ := cons_iff.mp h'
      exact absurd (h4.symm.trans h.marker) (Clump.word_ne_zero h2 h3)
  | cons c cs ih =>
    obtain ⟨h1, h2, h3, h4, h5⟩ := cons_iff.mp h
    cases cs' with
    | nil =>
      obtain rfl : a = e' := tiles_nil.mp h'.1
      exact absurd (h4.symm.trans h'.marker) (Clump.word_ne_zero h2 h3)
    | cons d cs' =>
      obtain ⟨k1, -, k3, k4, k5⟩ := cons_iff.mp h'
      have hw : c.word = d.word := h4.symm.trans k4
      have hs : c.size = d.size := by
        rw [← Clump.clumpSz_word h3, ← Clump.clumpSz_word k3, hw]
      have ht : c.tag = d.tag := by
        apply State.code_injective
        rw [← Clump.clumpState_word h3, ← Clump.clumpState_word k3, hw]
      obtain rfl : c = d := by
        cases c; cases d; simp_all
      obtain ⟨rfl, rfl⟩ := ih h5 k5
      exact ⟨rfl, rfl⟩

theorem length_lt (h : Chain m a cs e)
    (he : e < 2 ^ 64) : cs.length < loopFuel := by
  have := h.tiles.length_le
  unfold loopFuel
  omega

theorem set_state (h : Chain m a (l ++ c :: r) e) (s : State)
    (hm : m' c.addr = (c.set s).word) (hother : ∀ b ∈ l ++ r, m' b.addr = m b.addr)
    (he : m' e = m e) : Chain m' a (l ++ c.set s :: r) e := by
  obtain ⟨hl, hp, hd, hr⟩ := h.1.split
  refine ⟨hl.append ⟨rfl, hp, hd, hr⟩, fun b hb => ?_, he.trans h.marker⟩
  rcases List.mem_append.mp hb with hb | hb
  · rw [hother b (List.mem_append_left _ hb)]
    exact h.word (List.mem_append_left _ hb)
  · rcases List.mem_cons.mp hb with rfl | hb
    · exact hm
    · rw [hother b (List.mem_append_right _ hb)]
      exact h.word (List.mem_append_right _ (List.mem_cons_of_mem _ hb))

/-- The address of a clump of the walk is not the size word of another, nor the marker. -/
theorem addr_ne (h : Chain m a (l ++ c :: r) e) : (∀ b ∈ l ++ r, b.addr ≠ c.addr) ∧ c.addr ≠ e := by
  have hnd := h.1.nodup
  have hc : c ∈ l ++ c :: r := by simp
  refine ⟨fun b hb hbc => ?_, fun he => ?_⟩
  · have hb' : b ∈ l ++ c :: r := by
      rcases List.mem_append.mp hb with hb | hb <;> simp [hb]
    obtain rfl := h.1.eq_of_addr hb' hc hbc
    rw [List.nodup_middle, List.nodup_cons] at hnd
    exact hnd.1 hb
  · have := h.addr_lt hc
    omega

theorem update_state (h : Chain m a (l ++ c :: r) e) (s : State) :
    Chain (Function.update m c.addr (c.set s).word) a (l ++ c.set s :: r) e :=
  h.set_state s (Function.update_self ..)
    (fun b hb => Function.update_of_ne (h.addr_ne.1 b hb) _ _)
    (Function.update_of_ne (Ne.symm h.addr_ne.2) _ _)

theorem join (h : Chain m a (l ++ c :: (cs ++ r)) e) (s : State) :
    Chain (Function.update m c.addr ((c.size + (cs.map Block.size).sum) ||| s.code)) a
      (l ++ ⟨c.addr, c.size + (cs.map Block.size).sum, s⟩ :: r) e := by
  obtain ⟨hl, hp, hd, hr⟩ := h.1.split
  obtain ⟨b, hcs, hr⟩ := tiles_append.mp hr
  have hb : c.addr + (c.size + (cs.map Block.size).sum) = b := by
    rw [← Nat.add_assoc]; exact hcs.sum_sizes
  have hsum : 64 ∣ (cs.map Block.size).sum := by
    refine List.dvd_sum fun n hn => ?_
    obtain ⟨d, hd, rfl⟩ := List.mem_map.mp hn
    exact hcs.size_dvd hd
  have hne := h.addr_ne
  refine ⟨hl.append ⟨rfl, by dsimp only; omega, Nat.dvd_add hd hsum, by dsimp only; rw [hb]; exact hr⟩,
    fun d hd => ?_, ?_⟩
  · rcases List.mem_append.mp hd with hd | hd
    · rw [Function.update_of_ne (hne.1 d (List.mem_append_left _ hd))]
      exact h.word (List.mem_append_left _ hd)
    · rcases List.mem_cons.mp hd with rfl | hd
      · rw [Function.update_self]; rfl
      · rw [Function.update_of_ne (hne.1 d (by simp [hd]))]
        exact h.word (by simp [hd])
  · rw [Function.update_of_ne (Ne.symm hne.2)]
    exact h.marker

end Chain

/-- The walk over a pool just created. -/
def createdWalk (e : ℕ) : List Clump := [⟨pmemClumpOffset, e - pmemClumpOffset, .free⟩]

theorem created_chain {size : ℕ} {f : File} (h : createPool size = .ok f) :
    f.size = size ∧ lastClumpOff size < size ∧ pmemClumpOffset + 64 < lastClumpOff size ∧
      Chain f.data pmemClumpOffset (createdWalk (lastClumpOff size)) (lastClumpOff size) := by
  unfold createPool at h
  split at h
  · cases h
  · next hsize =>
    obtain rfl := Except.ok.inj h
    simp only [pmemMinPoolSize, not_lt] at hsize
    have hlt : pmemClumpOffset + 64 < lastClumpOff size := by
      simp only [lastClumpOff, pmemChunkSize, pmemClumpOffset]
      omega
    have hdvd : 64 ∣ lastClumpOff size - pmemClumpOffset := by
      simp only [lastClumpOff, pmemChunkSize, pmemClumpOffset]
      omega
    have hsz : lastClumpOff size < size := by
      simp only [lastClumpOff, pmemChunkSize]
      omega
    refine ⟨rfl, hsz, hlt, ⟨rfl, by dsimp only; omega, hdvd, tiles_nil.mpr (by dsimp only; omega)⟩, ?_, ?_⟩
    · simp [createdWalk, Clump.word, Function.update]
    · simp only [pmemClumpOffset] at hlt
      simp only [applyAll_store, applyAll_nil, pmemHdrOffset, pmemClumpOffset]
      rw [Function.update_of_ne (by omega), Function.update_of_ne (by omega),
        Function.update_of_ne (by omega), Function.update_of_ne (by omega)]

theorem created_signature {size : ℕ} {f : File} (h : createPool size = .ok f) :
    f.data pmemHdrOffset = signature0 ∧ f.data (pmemHdrOffset + 8) = signature1 := by
  unfold createPool at h
  split at h
  · cases h
  · obtain rfl := Except.ok.inj h
    simp [Function.update]

theorem created_root {size : ℕ} {f : File} (h : createPool size = .ok f) : f.data pmemStaticOffset = 0 := by
  unfold createPool at h
  split at h
  · cases h
  · obtain rfl := Except.ok.inj h
    simp [Function.update]

/-! ## The normal form -/

def State.isFree : State → Bool
  | .free => true
  | _ => false

theorem State.isFree_iff {s : State} : s.isFree = true ↔ s = .free := by cases s <;> decide

/-- What recovery makes of a state. -/
def State.settle : State → State
  | .free => .free
  | .reserved => .free
  | .activating => .active
  | .active => .active
  | .freeing => .free

theorem State.settle_free_or_active (s : State) : s.settle = .free ∨ s.settle = .active := by
  cases s <;> decide

@[simp] theorem State.settle_settle (s : State) : s.settle.settle = s.settle := by cases s <;> rfl

def Clump.settle (c : Clump) : Clump := c.set c.tag.settle

@[simp] theorem Clump.settle_addr (c : Clump) : c.settle.addr = c.addr := rfl
@[simp] theorem Clump.settle_size (c : Clump) : c.settle.size = c.size := rfl
@[simp] theorem Clump.settle_tag (c : Clump) : c.settle.tag = c.tag.settle := rfl

theorem Clump.settle_of_active {c : Clump} (h : c.tag = .active) : c.settle = c := by
  rw [Clump.settle, h, show State.active.settle = c.tag from h.symm, Clump.set_self]

/-- States settled, then every maximal run of adjacent free clumps merged into one. -/
def normalForm (cs : List Clump) : List Clump := mergeRuns State.isFree (cs.map Clump.settle)

end PmemExamples.Pool
