import PmemExamples.Pool.Crash

/-! # `pmemalloc_reserve`

First fit along the walk from the cursor. The chosen free clump is split when 128 bytes or more are
left over; the split-off header is written inside the free clump, so it exists only once the size
word of the chosen clump says so (`reserve_cut`). -/

namespace PmemExamples.Pool
open Persist Libpmem Tiling
set_option autoImplicit false

/-- The test of the first-fit loop. -/
def Clump.Fits (c : Clump) (n : ℕ) : Prop := c.tag = .free ∧ n ≤ c.size

instance (c : Clump) (n : ℕ) : Decidable (c.Fits n) :=
  inferInstanceAs (Decidable (c.tag = .free ∧ n ≤ c.size))

/-- What becomes of the chosen clump: the reserved part and, after a split, the rest. -/
def reservedAs (c : Clump) (n : ℕ) : List Clump :=
  if pmemChunkSize * 2 ≤ c.size - n then [⟨c.addr, n, .reserved⟩, ⟨c.addr + n, c.size - n, .free⟩]
  else [⟨c.addr, c.size, .reserved⟩]

theorem reservedAs_eq (c : Clump) {n : ℕ} (hfit : n ≤ c.size) : ∃ sz r, reservedAs c n =
    ⟨c.addr, sz, .reserved⟩ :: r ∧ n ≤ sz ∧ sz ≤ c.size ∧ ∀ b ∈ r, b.tag = .free := by
  unfold reservedAs
  split
  · exact ⟨n, _, rfl, le_refl n, hfit, by simp⟩
  · exact ⟨c.size, _, rfl, hfit, le_refl _, by simp⟩

def splitEvents (newclp leftover : ℕ) : List Event :=
  [0, 1, 2, 3, 4, 5, 6, 7].map (fun i => .store (newclp + 8 * i) 0) ++
    [.store newclp (leftover ||| State.free.code), headerFlush newclp]

def resetEvents (clp : ℕ) : List Event :=
  [.store (onOff clp 0) 0, .store (onPtr clp 0) 0, .store (onOff clp 1) 0, .store (onPtr clp 1) 0,
    .store (onOff clp 2) 0, .store (onPtr clp 2) 0, headerFlush clp]

/-- What is stored before the commit. -/
def prepareEvents (c : Clump) (n : ℕ) : List Event :=
  (if pmemChunkSize * 2 ≤ c.size - n then splitEvents (c.addr + n) (c.size - n) else []) ++
    resetEvents c.addr

/-- The size word that commits the reservation. -/
def reservedWord (c : Clump) (n : ℕ) : ℕ :=
  (if pmemChunkSize * 2 ≤ c.size - n then n else c.size) ||| State.reserved.code

def reserveEvents (c : Clump) (n : ℕ) : List Event :=
  prepareEvents c n ++ [.store c.addr (reservedWord c n), headerFlush c.addr]

theorem reserveSize_eq {size : ℕ} (h : size + 127 < 2 ^ 64) :
    reserveSize size = (size + 127) / 64 * 64 := by
  unfold reserveSize
  rw [pmemChunkSize, Nat.mod_eq_of_lt (by omega : size + 64 < 2 ^ 64),
    Nat.mod_eq_of_lt (by omega)]

theorem reserveSize_dvd (size : ℕ) : 64 ∣ reserveSize size := Dvd.intro_left _ rfl

theorem le_reserveSize {size : ℕ} (h : size + 127 < 2 ^ 64) : size + 64 ≤ reserveSize size := by
  rw [reserveSize_eq h]
  omega

/-! ## Where it stores -/

theorem writes_splitEvents {newclp leftover x : ℕ} {ev : Event} (he : ev ∈ splitEvents newclp leftover)
    (hx : ev.Writes x) : newclp ≤ x ∧ x < newclp + 64 := by
  simp only [splitEvents, headerFlush, List.mem_append, List.mem_map, List.mem_cons, List.not_mem_nil,
    or_false] at he
  rcases he with ⟨i, hi, rfl⟩ | rfl | rfl
  · rw [Event.writes_store] at hx
    omega
  · rw [Event.writes_store] at hx
    omega
  · exact absurd hx (Event.writes_flush _ _)

theorem writes_resetEvents {clp x : ℕ} {ev : Event} (he : ev ∈ resetEvents clp) (hx : ev.Writes x) :
    clp + 16 ≤ x ∧ x < clp + 64 := by
  simp only [resetEvents, headerFlush, List.mem_cons, List.not_mem_nil, or_false, onOff, onPtr] at he
  rcases he with rfl | rfl | rfl | rfl | rfl | rfl | rfl <;>
    first
    | exact absurd hx (Event.writes_flush _ _)
    | (rw [Event.writes_store] at hx; omega)

theorem writes_prepareEvents {c : Clump} {n x : ℕ} {ev : Event} (he : ev ∈ prepareEvents c n)
    (hx : ev.Writes x) : (c.addr + 16 ≤ x ∧ x < c.addr + 64) ∨
      (pmemChunkSize * 2 ≤ c.size - n ∧ c.addr + n ≤ x ∧ x < c.addr + n + 64) := by
  rcases List.mem_append.mp he with he | he
  · split at he
    · next hs => exact Or.inr ⟨hs, writes_splitEvents he hx⟩
    · simp at he
  · exact Or.inl (writes_resetEvents he hx)

/-- A reservation stores to the header of the chosen clump and to the split-off header. -/
theorem writes_reserveEvents {c : Clump} {n x : ℕ} {ev : Event} (he : ev ∈ reserveEvents c n)
    (hx : ev.Writes x) : c.InHeader x ∨
      (pmemChunkSize * 2 ≤ c.size - n ∧ c.addr + n ≤ x ∧ x < c.addr + n + 64) := by
  rcases List.mem_append.mp he with he | he
  · rcases writes_prepareEvents he hx with ⟨h1, h2⟩ | h
    · exact Or.inl ⟨by omega, h2⟩
    · exact Or.inr h
  · simp only [headerFlush, List.mem_cons, List.not_mem_nil, or_false] at he
    rcases he with rfl | rfl
    · rw [Event.writes_store] at hx
      exact Or.inl (hx ▸ addr_inHeader c)
    · exact absurd hx (Event.writes_flush _ _)

theorem reserveEvents_within {c : Clump} {n x : ℕ} {ev : Event} (hsz : 64 ≤ c.size)
    (he : ev ∈ reserveEvents c n) (hx : ev.Writes x) : c.addr ≤ x ∧ x < c.addr + c.size := by
  rcases writes_reserveEvents he hx with ⟨h1, h2⟩ | ⟨h1, h2, h3⟩
  · omega
  · rw [pmemChunkSize] at h1
    omega

theorem orderly_reserveEvents {c : Clump} {n : ℕ} (hc : 64 ∣ c.addr) (hn : 64 ∣ n) :
    Orderly (reserveEvents c n) := by
  have hsplit : Orderly (splitEvents (c.addr + n) (c.size - n)) := by
    have h : Orderly (storeBurst ([0, 1, 2, 3, 4, 5, 6, 7].map (fun i => (c.addr + n + 8 * i, 0)) ++
        [(c.addr + n, (c.size - n) ||| State.free.code)]) (clLines (c.addr + n) sizeofClump)) := by
      refine orderly_storeBurst (lineOf_mem_clLines (c.addr + n)) fun s hs => ?_
      apply lineOf_header (Nat.dvd_add hc hn)
      all_goals
        simp only [List.mem_append, List.mem_map, List.mem_cons, List.not_mem_nil, or_false] at hs
        rcases hs with ⟨i, hi, rfl⟩ | rfl <;> dsimp only <;> omega
    exact h
  have hreset : Orderly (resetEvents c.addr) := by
    have h : Orderly (storeBurst [(onOff c.addr 0, 0), (onPtr c.addr 0, 0), (onOff c.addr 1, 0),
        (onPtr c.addr 1, 0), (onOff c.addr 2, 0), (onPtr c.addr 2, 0)] (clLines c.addr sizeofClump)) :=
      orderly_storeBurst (lineOf_mem_clLines c.addr) (by simp [lineOf_onOff hc, lineOf_onPtr hc])
    exact h
  refine Orderly.append (Orderly.append ?_ hreset) (orderly_commit c.addr (reservedWord c n))
  split
  · exact hsplit
  · exact Orderly.nil

/-! ## The walk at every cut -/

section Cut
variable {d : Mem} {a e n : ℕ} {l r : List Clump} {c : Clump}

theorem applyAll_split (d : Mem) (newclp leftover : ℕ) :
    applyAll (splitEvents newclp leftover) d newclp = leftover ||| State.free.code :=
  applyAll_of_last_store _ [headerFlush newclp] rfl (by simp [headerFlush])

theorem applyAll_reset_off (d : Mem) {clp i : ℕ} (hi : i < 3) :
    applyAll (resetEvents clp) d (onOff clp i) = 0 := by
  have hi : i = 0 ∨ i = 1 ∨ i = 2 := by omega
  rcases hi with rfl | rfl | rfl <;>
    simp [resetEvents, headerFlush, Function.update, onOff, onPtr]

theorem prepareEvents_cut (hc : Chain d a (l ++ c :: r) e) (hn : 0 < n) (hdvd : 64 ∣ n) (k : ℕ) :
    Chain (applyAll ((prepareEvents c n).take k) d) a (l ++ c :: r) e := by
  have hcm : c ∈ l ++ c :: r := by simp
  have hsz := hc.size_ge hcm
  have hnd := Nat.le_of_dvd hn hdvd
  refine hc.applyAll_of_not_writes (fun b hb ev hev hw => ?_) fun ev hev hw => ?_
  · have hb' := hc.size_ge hb
    rcases writes_prepareEvents (List.mem_of_mem_take hev) hw with h | ⟨h1, h2⟩
    · by_cases hbc : b = c
      · subst hbc; omega
      · rcases hc.tiles.disjoint hb hcm hbc with h' | h' <;> omega
    · rw [pmemChunkSize] at h1
      by_cases hbc : b = c
      · subst hbc; omega
      · rcases hc.tiles.disjoint hb hcm hbc with h' | h' <;> omega
  · have hce := (hc.tiles.bounds hcm).2
    rcases writes_prepareEvents (List.mem_of_mem_take hev) hw with h | ⟨h1, h2⟩
    · omega
    · rw [pmemChunkSize] at h1
      omega

theorem reserveEvents_chain (hc : Chain d a (l ++ c :: r) e) (hn : 0 < n) (hdvd : 64 ∣ n)
    (hfit : n ≤ c.size) :
    Chain (applyAll (reserveEvents c n) d) a (l ++ reservedAs c n ++ r) e := by
  have hcm : c ∈ l ++ c :: r := by simp
  have hsz := hc.size_ge hcm
  have hnd := Nat.le_of_dvd hn hdvd
  have hc₁ := prepareEvents_cut hc hn hdvd (prepareEvents c n).length
  rw [List.take_length] at hc₁
  obtain ⟨hl, hp, hd, hr⟩ := hc.tiles.split
  have hmem : applyAll (reserveEvents c n) d =
      Function.update (applyAll (prepareEvents c n) d) c.addr (reservedWord c n) := by
    rw [reserveEvents, applyAll_append, headerFlush, applyAll_store, applyAll_flush, applyAll_nil]
  have hne := hc.addr_ne
  have hkeep : ∀ b ∈ l ++ r, applyAll (reserveEvents c n) d b.addr = b.word := by
    intro b hb
    rw [hmem, Function.update_of_ne (hne.1 b hb)]
    refine hc₁.word ?_
    simp only [List.mem_append, List.mem_cons] at hb ⊢
    tauto
  have hmark : applyAll (reserveEvents c n) d e = 0 := by
    rw [hmem, Function.update_of_ne (Ne.symm hne.2)]
    exact hc₁.marker
  have hself : applyAll (reserveEvents c n) d c.addr = reservedWord c n := by
    rw [hmem, Function.update_self]
  by_cases hs : pmemChunkSize * 2 ≤ c.size - n
  · have hs' : 128 ≤ c.size - n := hs
    have hnew : applyAll (reserveEvents c n) d (c.addr + n) = (c.size - n) ||| State.free.code := by
      rw [hmem, Function.update_of_ne (by omega), prepareEvents, if_pos hs, applyAll_append,
        applyAll_of_not_writes, applyAll_split]
      intro ev hev hw
      have := writes_resetEvents hev hw
      omega
    rw [reservedAs, if_pos hs, List.append_assoc]
    refine ⟨hl.append ⟨rfl, hn, hdvd, rfl, by dsimp only; omega, Nat.dvd_sub hd hdvd, ?_⟩,
      fun b hb => ?_, hmark⟩
    · dsimp only
      rwa [show c.addr + n + (c.size - n) = c.addr + c.size by omega]
    · simp only [List.mem_append, List.mem_cons, List.not_mem_nil, or_false] at hb
      rcases hb with hb | (rfl | rfl) | hb
      · exact hkeep b (by simp [hb])
      · rw [hself, reservedWord, if_pos hs]
        rfl
      · exact hnew
      · exact hkeep b (by simp [hb])
  · rw [reservedAs, if_neg hs, List.append_assoc]
    refine ⟨hl.append ⟨rfl, hp, hd, hr⟩, fun b hb => ?_, hmark⟩
    simp only [List.mem_append, List.mem_cons, List.not_mem_nil, or_false] at hb
    rcases hb with hb | rfl | hb
    · exact hkeep b (by simp [hb])
    · rw [hself, reservedWord, if_neg hs]
      rfl
    · exact hkeep b (by simp [hb])

/-- At every cut of a reservation the walk is the old one or the new one, the new one at its end. -/
theorem reserve_cut (hc : Chain d a (l ++ c :: r) e) (hn : 0 < n) (hdvd : 64 ∣ n)
    (hfit : n ≤ c.size) (k : ℕ) :
    (k < (reserveEvents c n).length ∧
      Chain (applyAll ((reserveEvents c n).take k) d) a (l ++ c :: r) e) ∨
    Chain (applyAll ((reserveEvents c n).take k) d) a (l ++ reservedAs c n ++ r) e := by
  by_cases hk : k ≤ (prepareEvents c n).length
  · refine Or.inl ⟨by simp only [reserveEvents, List.length_append, List.length_cons]; omega, ?_⟩
    rw [reserveEvents, List.take_append_of_le_length hk]
    exact prepareEvents_cut hc hn hdvd k
  · right
    have hmem : applyAll ((reserveEvents c n).take k) d = applyAll (reserveEvents c n) d := by
      rw [reserveEvents, List.take_append, List.take_of_length_le (by omega), applyAll_append,
        applyAll_append]
      obtain ⟨j, hj⟩ : ∃ j, k - (prepareEvents c n).length = j + 1 :=
        ⟨k - (prepareEvents c n).length - 1, by omega⟩
      rw [hj]
      cases j <;> simp [headerFlush]
    rw [hmem]
    exact reserveEvents_chain hc hn hdvd hfit

theorem reserveEvents_off {i : ℕ} (hi : i < 3) :
    applyAll (reserveEvents c n) d (onOff c.addr i) = 0 := by
  rw [reserveEvents, applyAll_append, headerFlush, applyAll_store, applyAll_flush, applyAll_nil,
    Function.update_of_ne (onOff_ne_addr _ _), prepareEvents, applyAll_append]
  exact applyAll_reset_off _ hi

theorem normalForm_reservedAs (ht : c.tag = .free) (hfit : n ≤ c.size) (l r : List Clump) :
    normalForm (l ++ reservedAs c n ++ r) = normalForm (l ++ c :: r) := by
  have hfree : State.isFree c.settle.tag = true := by rw [Clump.settle_tag, ht]; rfl
  unfold reservedAs
  split
  · simp only [normalForm, List.map_append, List.map_cons, List.append_assoc,
      List.cons_append, List.nil_append]
    refine mergeRuns_append_congr ?_
    have hjoin := mergeRuns_join (p := State.isFree) (b := ⟨c.addr, n, .free⟩)
      (c := ⟨c.addr + n, c.size - n, .free⟩) rfl rfl (r.map Clump.settle)
    have hsum : n + (c.size - n) = c.size := by omega
    rw [hsum] at hjoin
    have hcs : c.settle = ⟨c.addr, c.size, .free⟩ := by rw [Clump.settle, ht]; rfl
    rw [hcs]
    exact hjoin
  · have hcs : c.settle = Clump.settle ⟨c.addr, c.size, .reserved⟩ := by rw [Clump.settle, ht]; rfl
    simp only [normalForm, List.map_append, List.map_cons, List.append_assoc,
      List.cons_append, List.nil_append, hcs]

end Cut

/-! ## The trace -/

section Runs
variable {m : Mem} {p e n gclp : ℕ} {c : Clump}

theorem memsetClump_runs (x : Bool) (m : Mem) (clp : ℕ) (is : List ℕ) :
    Runs x (memsetClump clp is) m () (is.map fun i => .store (clp + 8 * i) 0) := by
  induction is generalizing m with
  | nil => exact Runs.pure x m ()
  | cons i is ih => exact Runs.store_bind (ih _)

theorem resetOn_runs (x : Bool) (m : Mem) (clp : ℕ) (is : List ℕ) :
    Runs x (resetOn clp is) m ()
      (is.flatMap fun i => [.store (onOff clp i) 0, .store (onPtr clp i) 0]) := by
  induction is generalizing m with
  | nil => exact Runs.pure x m ()
  | cons i is ih => exact Runs.store_bind (Runs.store_bind (ih _))

theorem splitEvents_up (hp : 64 ∣ p) (newclp leftover : ℕ) :
    relocate p (splitEvents newclp leftover) = splitEvents (p + newclp) leftover := by
  simp only [splitEvents, relocate, List.map_append, List.map_cons, List.map_nil, headerFlush_up hp,
    Nat.add_assoc]
  rfl

theorem resetEvents_up (hp : 64 ∣ p) (clp : ℕ) :
    relocate p (resetEvents clp) = resetEvents (p + clp) := by
  simp only [resetEvents, relocate, List.map_cons, List.map_nil, onOff_up, onPtr_up, headerFlush_up hp]
  rfl

theorem reset_runs (x : Bool) (m : Mem) (clp word : ℕ) :
    Runs x (do
      resetOn clp onUp
      pmemPersist clp sizeofClump 0
      Prog.store clp word
      pmemPersist clp sizeofClump 0) m ()
      (resetEvents clp ++ [.store clp word, headerFlush clp]) := by
  have h : resetEvents clp ++ [.store clp word, headerFlush clp] =
      onUp.flatMap (fun i => [.store (onOff clp i) 0, .store (onPtr clp i) 0]) ++
        ([headerFlush clp] ++ (.store clp word :: [headerFlush clp])) := rfl
  rw [h]
  refine Runs.seq (resetOn_runs x m clp onUp) (Runs.seq (pmemPersist_runs x _ clp _) ?_)
  exact Runs.store_bind (pmemPersist_runs x _ clp _)

theorem reserveClump_runs (x : Bool) (hp : 64 ∣ p) (m : Mem) :
    Runs x (reserveClump (p + c.addr) c.size n) m () (relocate p (reserveEvents c n)) := by
  have htail : ∀ word, relocate p (resetEvents c.addr ++ [.store c.addr word, headerFlush c.addr]) =
      resetEvents (p + c.addr) ++ [.store (p + c.addr) word, headerFlush (p + c.addr)] := by
    intro word
    rw [relocate_append, resetEvents_up hp, headerFlush_up hp]
    rfl
  by_cases hs : pmemChunkSize * 2 ≤ c.size - n
  · simp only [reserveClump, reserveEvents, prepareEvents, reservedWord, if_pos hs]
    rw [List.append_assoc, relocate_append, splitEvents_up hp, htail, splitEvents, List.append_assoc,
      Nat.add_assoc]
    refine Runs.seq (memsetClump_runs x m _ _) (Runs.store_bind ?_)
    exact Runs.seq (pmemPersist_runs x _ _ _) (reset_runs x _ _ _)
  · simp only [reserveClump, reserveEvents, prepareEvents, reservedWord, if_neg hs]
    rw [List.nil_append, htail]
    exact reset_runs x m _ _

/-- The first-fit loop takes the first clump of the walk that fits, or finds none. -/
theorem firstFit_runs (x : Bool) (hp : Mapped p e) :
    ∀ {gs : List Clump} {m : Mem} {g fuel : ℕ}, Chain (fileAt p m) g gs e → gs.length < fuel →
      (∃ l c r, gs = l ++ c :: r ∧ c.Fits n ∧ (∀ b ∈ l, ¬ b.Fits n) ∧
        Runs x (firstFit p gclp n fuel (p + g)) m ⟨c.addr + 64, none, p + c.addr⟩
          (relocate p (reserveEvents c n))) ∨
      ((∀ b ∈ gs, ¬ b.Fits n) ∧
        Runs x (firstFit p gclp n fuel (p + g)) m ⟨0, some .ENOMEM, gclp⟩ [])
  | [], m, g, fuel + 1, hc, _ => by
    obtain rfl : g = e := tiles_nil.mp hc.tiles
    refine Or.inr ⟨by simp, Runs.load_bind hc.marker ?_⟩
    exact Runs.pure x m _
  | c :: gs, m, g, fuel + 1, hc, hf => by
    obtain ⟨rfl, hpos, hdvd, hw, hrest⟩ := Chain.cons_iff.mp hc
    have hcode : clumpState c.word = State.free.code ↔ c.tag = .free := by
      rw [Clump.clumpState_word hdvd]
      exact ⟨State.code_injective, congrArg _⟩
    by_cases hfit : c.Fits n
    · refine Or.inl ⟨[], c, gs, rfl, hfit, by simp, Runs.load_bind hw ?_⟩
      rw [if_neg (Clump.word_ne_zero hpos hdvd), Clump.clumpSz_word hdvd, if_pos ⟨hcode.mpr hfit.1, hfit.2⟩]
      have hend := hc.tiles.bounds List.mem_cons_self
      have hfits := hp.fits
      have hsz := hc.size_ge List.mem_cons_self
      have hoff : off p (p + c.addr + pmemChunkSize) = c.addr + 64 := by
        rw [pmemChunkSize, off_eq (by omega) (by omega)]
        omega
      rw [hoff, ← List.append_nil (relocate p _)]
      exact (reserveClump_runs x hp.aligned m).seq (Runs.pure x _ _)
    · have hrun : ∀ {res : Reserved} {evs : List Event},
          Runs x (firstFit p gclp n fuel (p + (c.addr + c.size))) m res evs →
          Runs x (firstFit p gclp n (fuel + 1) (p + c.addr)) m res evs := by
        intro res evs h
        refine Runs.load_bind hw ?_
        rw [if_neg (Clump.word_ne_zero hpos hdvd), Clump.clumpSz_word hdvd,
          if_neg fun h => hfit ⟨hcode.mp h.1, h.2⟩, Nat.add_assoc]
        exact h
      rcases firstFit_runs x hp hrest (by simpa using hf) with ⟨l, b, r, rfl, hb, hl, h⟩ | ⟨hl, h⟩
      · exact Or.inl ⟨c :: l, b, r, rfl, hb, by simpa using ⟨hfit, hl⟩, hrun h⟩
      · exact Or.inr ⟨by simpa using ⟨hfit, hl⟩, hrun h⟩

/-- The offset a search starts from. -/
def cursorOff (p gclp : ℕ) : ℕ := if gclp = 0 then pmemClumpOffset else gclp - p

theorem reserve_runs (x : Bool) (hp : Mapped p e) {gs : List Clump} (size : ℕ)
    (hg : gclp = 0 ∨ p ≤ gclp) (hc : Chain (fileAt p m) (cursorOff p gclp) gs e) (hne : gs ≠ []) :
    (∃ l c r, gs = l ++ c :: r ∧ c.Fits (reserveSize size) ∧ (∀ b ∈ l, ¬ b.Fits (reserveSize size)) ∧
      Runs x (pmemallocReserve p gclp size) m ⟨c.addr + 64, none, p + c.addr⟩
        (relocate p (reserveEvents c (reserveSize size)))) ∨
    ((∀ b ∈ gs, ¬ b.Fits (reserveSize size)) ∧
      Runs x (pmemallocReserve p gclp size) m ⟨0, some .ENOMEM, gclp⟩ []) := by
  have hfits := hp.fits
  have hle := hc.tiles.le
  have hstart : (if gclp = 0 then pmem p pmemClumpOffset else gclp) = p + cursorOff p gclp := by
    unfold cursorOff at hle ⊢
    split
    · next h => exact pmem_eq (by rw [if_pos h] at hle; omega)
    · omega
  have hword : m (p + cursorOff p gclp) ≠ 0 := by
    obtain ⟨c, gs, rfl⟩ := List.exists_cons_of_ne_nil hne
    obtain ⟨-, hpos, hdvd, hw, -⟩ := Chain.cons_iff.mp hc
    rw [show m (p + cursorOff p gclp) = c.word from hw]
    exact Clump.word_ne_zero hpos hdvd
  have hlen : gs.length < loopFuel := hc.length_lt (by omega)
  have hrun : ∀ {res : Reserved} {evs : List Event},
      Runs x (firstFit p gclp (reserveSize size) loopFuel (p + cursorOff p gclp)) m res evs →
      Runs x (pmemallocReserve p gclp size) m res evs := by
    intro res evs h
    unfold pmemallocReserve
    rw [hstart]
    refine Runs.load_bind rfl ?_
    rw [if_neg hword]
    exact h
  rcases firstFit_runs x hp hc hlen with ⟨l, c, r, h1, h2, h3, h⟩ | ⟨h1, h⟩
  · exact Or.inl ⟨l, c, r, h1, h2, h3, hrun h⟩
  · exact Or.inr ⟨h1, hrun h⟩

/-- From a cursor at a header of the walk the search meets the end of the walk. -/
theorem search_of_walk {d : Mem} {cs : List Clump} (hc : Chain d pmemClumpOffset cs e) (hne : cs ≠ [])
    (hg : gclp = 0 ∨ ∃ c ∈ cs, gclp = p + c.addr) : (gclp = 0 ∨ p ≤ gclp) ∧ ∃ ps gs, cs = ps ++ gs ∧
      gs ≠ [] ∧ Chain d (cursorOff p gclp) gs e := by
  rcases hg with h0 | ⟨c, hcm, h0⟩
  · refine ⟨Or.inl h0, [], cs, rfl, hne, ?_⟩
    rw [cursorOff, if_pos h0]
    exact hc
  · refine ⟨Or.inr (by omega), ?_⟩
    have hb := (hc.tiles.bounds hcm).1
    simp only [pmemClumpOffset] at hb
    obtain ⟨ps, gs, rfl⟩ := List.append_of_mem hcm
    refine ⟨ps, c :: gs, rfl, by simp, ?_⟩
    obtain ⟨b, -, -, hgs⟩ := Chain.append_iff.mp hc
    have hbc : b = c.addr := (Chain.cons_iff.mp hgs).1.symm
    rw [cursorOff, if_neg (by omega), show gclp - p = b by omega]
    exact hgs

end Runs

end PmemExamples.Pool
