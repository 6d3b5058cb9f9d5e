import PmemExamples.CHashtable.Calls

/-! # `create_hashtable` in a pool

The header and the array are reserved, filled and activated one after the other; the root slot shows the header
then. -/

namespace PmemExamples.CHashtable
open Persist Libpmem Pool Tiling Code
open BTree hiding pmemallocReservVirtual pmemallocActivateLocal
set_option autoImplicit false

/-! ## The stores -/

/-- The stores of `initHashtable`, from the words of the header; the array is at `N`. -/
def initEvents (m : Mem) (h N size pindex hashf eqf : ℕ) : List Event :=
  zeroEvents N size ++ [.store h (setLow (m h) size), .store (h + 24) (setLow (m (h + 24)) pindex),
    .store (h + 16) (setLow (m (h + 16)) 0), .store (h + 32) hashf, .store (h + 40) eqf,
    .store (h + 16) (setHigh (setLow (m (h + 16)) 0) (loadLimit size))]

section Init
variable {m : Mem} {h N size pindex hashf eqf : ℕ}

theorem writes_initEvents {ev : Event} {y : ℕ} (hev : ev ∈ initEvents m h N size pindex hashf eqf) (hy : ev.Writes y) :
    (N ≤ y ∧ y < N + 8 * size) ∨ (h ≤ y ∧ y < h + 48) := by
  rcases List.mem_append.mp hev with hev | hev
  · exact Or.inl (writes_zeroEvents hev hy)
  · simp only [List.mem_cons, List.not_mem_nil, or_false] at hev
    rcases hev with rfl | rfl | rfl | rfl | rfl | rfl <;> rw [Event.writes_store] at hy <;> exact Or.inr (by omega)

variable (pindex hashf eqf) in
theorem initHashtable_runs (hN : m (h + 8) = N) (hapart : Apart h 48 N (8 * size)) :
    Runs true (initHashtable h size pindex hashf eqf) m () (initEvents m h N size pindex hashf eqf) := by
  unfold Apart at hapart
  refine Runs.load_bind hN ((bzeroWords_runs true m N _).seq ?_)
  have hzero : ∀ y, h ≤ y → y < h + 48 → applyAll (zeroEvents N size) m y = m y := fun y h₁ h₂ => zero_keep y (by omega)
  refine setBits_bind (hzero h (by omega) (by omega)) (setBits_bind ?_
    (setBits_bind ?_ (Runs.store_bind (Runs.store_bind ?_))))
  · rw [Function.update_of_ne (by omega)]
    exact hzero _ (by omega) (by omega)
  · rw [Function.update_of_ne (by omega), Function.update_of_ne (by omega)]
    exact hzero _ (by omega) (by omega)
  · refine Runs.load_bind ?_ (Runs.store true _ _ _)
    rw [Function.update_of_ne (by omega), Function.update_of_ne (by omega), Function.update_self]

variable (pindex hashf eqf) in
theorem initEvents_shows (hN : m (h + 8) = N) (hapart : Apart h 48 N (8 * size)) (hs : size < 2 ^ 32)
    (hi : pindex < 2 ^ 32) (hl : loadLimit size < 2 ^ 32) :
    Shows (applyAll (initEvents m h N size pindex hashf eqf) m) h ⟨size, fun _ => 0, 0, loadLimit size, pindex,
    fun _ => none⟩ ∧ applyAll (initEvents m h N size pindex hashf eqf) m (h + 8) = N := by
  unfold Apart at hapart
  rw [initEvents, applyAll_append]
  simp only [applyAll_store, applyAll_nil]
  have harr : ∀ y, y < h ∨ h + 8 ≤ y → y ≠ h + 16 → y ≠ h + 24 → y ≠ h + 32 → y ≠ h + 40 →
      Function.update (Function.update (Function.update (Function.update (Function.update (Function.update
        (applyAll (zeroEvents N size) m) h (setLow (m h) size)) (h + 24) (setLow (m (h + 24)) pindex)) (h + 16)
        (setLow (m (h + 16)) 0)) (h + 32) hashf) (h + 40) eqf) (h + 16)
        (setHigh (setLow (m (h + 16)) 0) (loadLimit size)) y = applyAll (zeroEvents N size) m y := by
    intro y h₀ h₁ h₂ h₃ h₄
    rw [Function.update_of_ne h₁, Function.update_of_ne h₄, Function.update_of_ne h₃, Function.update_of_ne h₁,
      Function.update_of_ne h₂, Function.update_of_ne (by omega)]
  have hslot := harr (h + 8) (by omega) (by omega) (by omega) (by omega) (by omega)
  rw [zero_keep _ (by omega), hN] at hslot
  refine ⟨⟨?_, fun i hi => ?_, ?_, ?_, ?_, fun a x hx => ?_⟩, hslot⟩
  · rw [Function.update_of_ne (by omega), Function.update_of_ne (by omega), Function.update_of_ne (by omega),
      Function.update_of_ne (by omega), Function.update_of_ne (by omega), Function.update_self, lowInt_setLow]
    exact Nat.mod_eq_of_lt hs
  · have hi' : i < size := hi
    rw [hslot, harr _ (by omega) (by omega) (by omega) (by omega) (by omega), zero_word hi']
  · rw [Function.update_self, lowInt_setHigh, lowInt_setLow]
    rfl
  · rw [Function.update_self, highInt_setHigh]
    exact Nat.mod_eq_of_lt hl
  · rw [Function.update_of_ne (by omega), Function.update_of_ne (by omega), Function.update_of_ne (by omega),
      Function.update_of_ne (by omega), Function.update_self, lowInt_setLow]
    exact Nat.mod_eq_of_lt hi
  · cases hx

end Init

/-! ## The table -/

/-- The number of buckets for `minsize`, and its place in the list. -/
def sizeFor (minsize : ℕ) : ℕ := primes.getD (primes.findIdx (minsize < ·)) 53

/-- A table without entries. -/
def emptyOf (minsize : ℕ) : Hashtable ℕ :=
  ⟨sizeFor minsize, fun _ => 0, 0, loadLimit (sizeFor minsize), primes.findIdx (minsize < ·), fun _ => none⟩

theorem create_some {minsize : ℕ} (h : ¬ 2 ^ 30 < minsize) :
    CHashtable.createHashtable ℕ minsize = some (emptyOf minsize) := by
  rw [CHashtable.createHashtable, if_neg h]
  rfl

theorem sizeFor_eq {minsize : ℕ} (h : ¬ 2 ^ 30 < minsize) :
    sizeFor minsize = primes.getD (primes.findIdx (minsize < ·)) 0 := by
  have hlt := findIdx_lt h
  rw [sizeFor, List.getD_eq_getElem?_getD, List.getD_eq_getElem?_getD, List.getElem?_eq_getElem (by exact hlt)]
  rfl

/-- What `create_hashtable` leaves: the header is at `p + ptr`, and its offset in the root slot. -/
structure Created (hashfn : ℕ → UInt32) (H H' : Host) (p e minsize : ℕ) (cs cs' : List Clump) (ptr ptr₁ : ℕ) : Prop where
  resident : Resident H'.world p H'.gclp cs' e
  standing : Standing hashfn H'.world.mem p cs' (p + ptr) (emptyOf minsize) ∅
  array : H'.world.mem (p + ptr + 8) = p + ptr₁
  offset : 0 < ptr ∧ 0 < ptr₁
  requests : H'.requests = H.requests ++ [.reserve 48 ptr, .reserve (8 * sizeFor minsize) ptr₁, .onactive ptr₁,
    .activate ptr₁, .onactive ptr, .activate ptr]
  kept : ∀ {b k : ℕ}, BlockAt p cs b k → BlockAt p cs' b k ∧ b ≠ p + ptr ∧ b ≠ p + ptr₁
  slot : H'.world.mem (p + pmemStaticOffset) = ptr
  spare : ∀ x, Spare p H.gclp cs x → reserveSize 48 + pmemChunkSize * 2 ≤ x →
    reserveSize (8 * sizeFor minsize) + pmemChunkSize * 2 ≤ x - reserveSize 48 →
    Spare p H'.gclp cs' (x - reserveSize 48 - reserveSize (8 * sizeFor minsize))

theorem sizeFor_bounds {minsize : ℕ} (h : ¬ 2 ^ 30 < minsize) :
    0 < sizeFor minsize ∧ sizeFor minsize < 2 ^ 31 ∧ loadLimit (sizeFor minsize) < 2 ^ 31 := by
  rw [sizeFor_eq h]
  exact ⟨primes_pos (findIdx_lt h), primes_bounds (findIdx_lt h)⟩

theorem create_room (hashfn : ℕ → UInt32) {H : Host} {p e minsize : ℕ} {cs : List Clump}
    (hres : Resident H.world p H.gclp cs e)
    (hmin : ¬ 2 ^ 30 < minsize) (hroomy : Roomy (reserveSize 48) (reserveSize (8 * sizeFor minsize)) (ahead p H.gclp cs))
    (hashf eqf : ℕ) : ∃ ptr ptr₁ H' cs', Code.createHashtable p minsize hashf eqf H = (.ok (p + ptr), H') ∧
      Created hashfn H H' p e minsize cs cs' ptr ptr₁ := by
  have hfits := hres.fits
  have hbase := hres.base
  obtain ⟨hpos, hlt, hlimit⟩ := sizeFor_bounds hmin
  obtain ⟨res, w₁, hrun₁, ⟨hnone, -⟩ | ⟨-, hptr, cs₁, hres₁, hr₁, hroom₁, hspare₁⟩⟩ :=
    hres.reserve (show 48 + 127 < 2 ^ 64 by decide)
  · refine absurd hroomy (not_roomy fun b hb hbf => hnone ?_)
    exact hres.fitting_iff.mpr ⟨b, hb, hbf⟩
  obtain ⟨res', w₂, hrun₂, ⟨hnone, -⟩ | ⟨-, hptr', cs₂, hres₂, hr₂, -, hspare₂⟩⟩ :=
    hres₁.reserve (show 8 * sizeFor minsize + 127 < 2 ^ 64 by omega)
  · exact absurd ((hroom₁ _).mpr hroomy) hnone
  -- the two blocks
  obtain ⟨hheader, hne⟩ := hr₂.kept hr₁.fresh.block
  have harray := hr₂.fresh.block
  have hapart : Apart (p + res.ptr_) 48 (p + res'.ptr_) (8 * sizeFor minsize) := hheader.apart harray hres₂.tiles hne
  have hpmem : pmem p res.ptr_ = p + res.ptr_ := by
    have hbound := (hheader.bounds hres₂.tiles).2
    exact pmem_eq (by omega)
  have hpmem' : pmem p res'.ptr_ = p + res'.ptr_ := by
    have hbound := (harray.bounds hres₂.tiles).2
    exact pmem_eq (by omega)
  -- the stores
  obtain ⟨w₃, hrun₃, hmem₃, hres₃, hheaders₃⟩ := hres₂.store (Runs.store true w₂.mem (p + res.ptr_ + 8) (p + res'.ptr_))
    fun ev hev y hy => by
    obtain rfl := List.mem_singleton.mp hev
    rw [Event.writes_store] at hy
    exact .of_block hheader (by omega) (by omega)
  rw [applyAll_store, applyAll_nil] at hmem₃
  have hslot₃ : w₃.mem (p + res.ptr_ + 8) = p + res'.ptr_ := by
    rw [hmem₃, Function.update_self]
  obtain ⟨w₄, hrun₄, hmem₄, hres₄, hheaders₄⟩ := hres₃.store
    (initHashtable_runs (primes.findIdx (minsize < ·)) hashf eqf hslot₃ hapart) fun ev hev y hy => by
      rcases writes_initEvents hev hy with hy | hy
      · exact .of_block harray hy.1 hy.2
      · exact .of_block hheader hy.1 hy.2
  have hidx := findIdx_lt hmin
  simp only [primeTableLength] at hidx
  obtain ⟨hshows, hslot₄⟩ := initEvents_shows (primes.findIdx (minsize < ·)) hashf eqf hslot₃ hapart
    (by omega) (by omega) (by omega)
  rw [← hmem₄] at hshows hslot₄
  have hheaders : ∀ c ∈ cs₂, c.tag = .reserved → ∀ x, c.InHeader x → fileAt p w₄.mem x = fileAt p w₂.mem x :=
    fun c hc _ x hx => (hheaders₄ c hc x hx).trans (hheaders₃ c hc x hx)
  -- the activations
  have hfresh' := hr₂.fresh.congr hheaders
  obtain ⟨w₅, w₆, cs₃, hrun₅, hrun₆, hres₆, hact⟩ := hres₄.activate hfresh'
  obtain ⟨w₇, w₈, cs₄, hrun₇, hrun₈, hres₈, hact'⟩ := hres₆.activate
    (hact.others hne ((hr₂.others hr₁.fresh).congr hheaders))
  rw [Nat.add_sub_cancel_left] at hrun₅ hrun₆ hrun₇ hrun₈
  have hkept : ∀ {b k : ℕ}, BlockAt p cs₂ b k → BlockAt p cs₄ b k := fun hb => hact'.kept (hact.kept hb)
  have hsame : ∀ {b k : ℕ}, BlockAt p cs₂ b k → ∀ y, b ≤ y → y < b + k → w₈.mem y = w₄.mem y := by
    intro b k hb y h₁ h₂
    rw [hact'.same (hact.kept hb) y h₁ h₂, hact.same hb y h₁ h₂]
  have hslot₈ : w₈.mem (p + res.ptr_ + 8) = p + res'.ptr_ := by
    rw [hsame hheader _ (by omega) (by omega), hslot₄]
  refine ⟨res.ptr_, res'.ptr_, ⟨w₈, res'.gclp, H.requests ++ [.reserve 48 res.ptr_] ++ [.reserve (8 * sizeFor minsize)
    res'.ptr_] ++ [.onactive res'.ptr_, .activate res'.ptr_] ++ [.onactive res.ptr_, .activate res.ptr_]⟩, cs₄, ?_,
    ⟨hres₈, ⟨⟨hkept hheader, ?_, by simp, ?_, by simp⟩, ?_, ?_⟩, hslot₈, ⟨hptr, hptr'⟩, ?_, fun hb => ?_, ?_,
      fun x hx h₁ h₂ => ?_⟩⟩
  · rw [Code.createHashtable, if_neg hmin]
    have hsize : primes.getD (primes.findIdx (minsize < ·)) 53 = sizeFor minsize := rfl
    dsimp only
    rw [hsize, Session.bind_ok (reserve_apply hrun₁)]
    dsimp only
    rw [hpmem, if_neg (by omega)]
    refine (Session.bind_ok (reserve_apply (H := ⟨w₁, res.gclp, H.requests ++ [.reserve 48 res.ptr_]⟩) hrun₂)).trans ?_
    dsimp only
    rw [hpmem', Session.bind_ok (Session.lift_ok hrun₃), Session.bind_ok (Session.lift_ok hrun₄),
      Session.bind_ok (activateLocal_apply hrun₅ hrun₆), Session.bind_ok (activateLocal_apply hrun₇ hrun₈)]
    rfl
  · rw [hslot₈]
    exact hkept harray
  · rw [hslot₈]
    exact hne.symm
  · refine hshows.congr (S := ∅) (fun a x hx => by cases hx) fun y hy => ?_
    rcases hy with hy | hy | ⟨a, ha, -⟩
    · exact hsame hheader y hy.1 hy.2
    · rw [hslot₄] at hy
      exact hsame harray y hy.1 hy.2
    · cases ha
  · have hrep : Represents hashfn p (emptyOf minsize) ∅ := Represents.create (create_some hmin)
    exact hrep.toShape.sorted
  · simp only [List.append_assoc, List.cons_append, List.nil_append]
  · obtain ⟨hb₁, hne₁⟩ := hr₁.kept hb
    obtain ⟨hb₂, hne₂⟩ := hr₂.kept hb₁
    exact ⟨hkept hb₂, hne₁, hne₂⟩
  · have hsum := hact'.slot
    dsimp only
    omega
  · exact hact'.spare _ (hact.spare _ ((hspare₂ _ ((hspare₁ x hx).1 h₁)).1 h₂))

/-! ## A pool just created -/

theorem created_resident {size p : ℕ} {relaxed : Bool} {epoch : ℕ → Bool} {w₀ : World} (hsize : pmemMinPoolSize ≤ size)
    (hp : Mapped p (lastClumpOff size)) (hp0 : 0 < p) (h : pmemallocInit none size p relaxed epoch = .ok (.ok (), w₀)) :
    Resident w₀ p 0 (createdWalk (lastClumpOff size)) (lastClumpOff size) ∧
      Spare p 0 (createdWalk (lastClumpOff size)) (lastClumpOff size - pmemClumpOffset) := by
  obtain ⟨f, w, hf, hinit, hc, -, hmem, hclean⟩ := init_file hsize hp relaxed epoch
  obtain rfl : w = w₀ := by
    rw [hinit] at h
    exact (Prod.mk.inj (Except.ok.inj h)).2
  refine ⟨⟨⟨hp, hc, fun c hcm => ?_, fun ℓ _ => hclean ℓ, fun a ha => ?_⟩, Or.inl rfl, by simp [createdWalk], hp0⟩,
    ⟨pmemClumpOffset, lastClumpOff size - pmemClumpOffset, .free⟩, rfl, fun b => ?_⟩
  · obtain rfl := List.mem_singleton.mp hcm
    exact Or.inl rfl
  · rw [hmem, pmemMap, if_neg (by omega)]
  · rw [createdWalk, List.mem_singleton]
    refine ⟨fun hb => hb.1, ?_⟩
    rintro rfl
    exact ⟨rfl, le_refl _, rfl⟩

/-- The pool that `create_hashtable` opens, just created. -/
def tablePool : World :=
  World.boot (pmemMap 1099511627776 ⟨536870912, applyAll
    [.store 16384 536854464, .store 12288 signature0, .store 12296 signature1, .store 12304 536870912]
    fun _ => 0⟩) false fun _ => true

theorem init_tablePool :
    pmemallocInit none (1024 * 1024 * 512) 1099511627776 false (fun _ => true) = .ok (.ok (), tablePool) := rfl

/-- A table of 53 buckets in it. -/
def tableHost : Host := (Code.createHashtable 1099511627776 10 0 0 ⟨tablePool, 0, []⟩).2

theorem create_tableHost :
    ∃ ptr ptr₁ cs, Code.createHashtable 1099511627776 10 0 0 ⟨tablePool, 0, []⟩ =
      (.ok (1099511627776 + ptr), tableHost) ∧
    Created (fun _ => 0) ⟨tablePool, 0, []⟩ tableHost 1099511627776 536870848 10 (createdWalk 536870848) cs ptr ptr₁ ∧
    Spare 1099511627776 tableHost.gclp cs 536853824 := by
  have hsize : sizeFor 10 = 53 := by decide +kernel
  obtain ⟨hres, hspare⟩ := created_resident (by decide) ⟨by decide, by decide⟩ (by decide) init_tablePool
  have hroomy : Roomy (reserveSize 48) (reserveSize (8 * sizeFor 10))
    (ahead 1099511627776 0 (createdWalk 536870848)) := by
    rw [hsize]
    exact hres.roomy_of_spare hspare (by decide) (by decide) (by decide)
  obtain ⟨ptr, ptr₁, H', cs, hrun, hcreated⟩ := create_room (fun _ => 0) (H := ⟨tablePool, 0, []⟩) hres (by decide)
    hroomy 0 0
  obtain rfl : tableHost = H' := by rw [tableHost, hrun]
  refine ⟨ptr, ptr₁, cs, hrun, hcreated, ?_⟩
  have hrest := hcreated.spare _ hspare (by decide) (by rw [hsize]; decide)
  rw [hsize] at hrest
  exact hrest

end PmemExamples.CHashtable
