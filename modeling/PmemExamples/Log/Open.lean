import PmemExamples.Log.Walk

/-! # Opening and creating a log memory pool

`pmemlog_pool_open` takes a pool as it is if its header is valid. Without a valid header it makes the file a pool:
it stores and flushes a header, then it stores and flushes the offsets. The header is valid before the offsets
are there. -/

namespace PmemExamples.Log
open Persist
set_option autoImplicit false

/-- The other library recognises the header, as one of a log of this version that may be written to. -/
def Valid (u : Util) (hdr : List UInt8) : Prop :=
  ∃ h, u.convertHdr hdr = some h ∧ h.signature = logHdrSig ∧ h.major = logFormatMajor ∧ u.featureCheck h = .ok true

section Open
variable {u : Util} {hdr : List UInt8} {size : ℕ} {d : Mem} {l : Contents (size - dataStart u)} {p : ℕ} {w : World}

/-- The offsets in the file `d` are those of a pool. -/
def Placed (u : Util) (size : ℕ) (d : Mem) : Prop := d u.hdrSize = dataStart u ∧ d (u.hdrSize + 8) = size ∧
  dataStart u ≤ size ∧ dataStart u ≤ d (u.hdrSize + 16) ∧ d (u.hdrSize + 16) ≤ size

instance (u : Util) (size : ℕ) (d : Mem) : Decidable (Placed u size d) := inferInstanceAs (Decidable (_ ∧ _))

theorem Holds.placed (h : Holds u hdr size d l) (hroom : dataStart u ≤ size) : Placed u size d := by
  have hfits := l.fits
  have hwrite := h.write
  exact ⟨h.start, h.end_, hroom, by omega, by omega⟩

/-- Opening a pool with a valid header only reads, and looks at the offsets. -/
theorem open_valid (hmin : u.minPool ≤ size) (hp : 64 ∣ p) (hv : Valid u (bytesOf (fileAt p w.mem) 0 u.hdrSize))
    (isPmem rdonly : Bool) : pmemlogPoolOpenCommon u p size isPmem rdonly w =
      (.ok (if Placed u size (fileAt p w.mem) then .ok ⟨p, size, rdonly, isPmem⟩ else .error .EINVAL), w) := by
  obtain ⟨hd, hconvert, hsig, hmajor, hfeature⟩ := hv
  rw [bytesOf_fileAt (Nat.dvd_trans (by decide) hp), Nat.add_zero] at hconvert
  rw [pmemlogPoolOpenCommon, if_neg (Nat.not_lt.mpr hmin), Prog.bind_ok (readBytes_apply p u.hdrSize w), hconvert]
  simp only [hsig, hmajor, ne_eq, not_true_eq_false, if_false]
  rw [Prog.bind_ok (Prog.load_apply _ w), Prog.bind_ok (Prog.load_apply _ w), Prog.bind_ok (Prog.load_apply _ w)]
  by_cases hends : w.mem (p + u.hdrSize) ≠ dataStart u ∨ w.mem (p + (u.hdrSize + 8)) ≠ size ∨
      w.mem (p + (u.hdrSize + 8)) < w.mem (p + u.hdrSize)
  · have hno : ¬ Placed u size (fileAt p w.mem) := by
      rintro ⟨hstart, hend, hle, -⟩
      rw [fileAt_apply] at hstart hend
      omega
    rw [if_pos hends, if_neg hno]
    rfl
  by_cases hwrite : w.mem (p + (u.hdrSize + 8)) < w.mem (p + (u.hdrSize + 16)) ∨
      w.mem (p + (u.hdrSize + 16)) < w.mem (p + u.hdrSize)
  · have hno : ¬ Placed u size (fileAt p w.mem) := by
      rintro ⟨hstart, hend, -, hlo, hhi⟩
      rw [fileAt_apply] at hstart hend hlo hhi
      omega
    rw [if_neg hends, if_pos hwrite, if_neg hno]
    rfl
  · have hyes : Placed u size (fileAt p w.mem) := by
      simp only [Placed, fileAt_apply]
      omega
    rw [if_neg hends, if_neg hwrite, if_pos hyes, hfeature]
    cases rdonly <;> rfl

theorem open_apply (hv : Valid u hdr) (hmin : u.minPool ≤ size) (hroom : dataStart u ≤ size) (hp : 64 ∣ p)
    (h : Holds u hdr size (fileAt p w.mem) l) (isPmem rdonly : Bool) :
    pmemlogPoolOpenCommon u p size isPmem rdonly w = (.ok (.ok ⟨p, size, rdonly, isPmem⟩), w) := by
  rw [← h.header] at hv
  rw [open_valid hmin hp hv, if_pos (h.placed hroom)]

theorem open_ready (hv : Valid u hdr) (hmin : u.minPool ≤ size) (hroom : dataStart u ≤ size) (hsmall : size < 2 ^ 63)
    (h : Holds u hdr size d l) (hp : 64 ∣ p) (hb : Booted p d w) (isPmem : Bool) :
    pmemlogPoolOpen u p size isPmem w = (.ok (.ok ⟨p, size, false, isPmem⟩), w) ∧
      Ready u hdr size w ⟨p, size, false, isPmem⟩ l := by
  have hready := h.ready hroom hsmall hp hb isPmem
  exact ⟨open_apply hv hmin hroom hp hready.holds isPmem false, hready⟩

end Open

/-! ## Creating a pool -/

section Create
variable {u : Util} {size p : ℕ} {d : Mem} {w : World}

/-- The stores of a new header. -/
def hdrEvents (u : Util) (addr : ℕ) : List Event := u.newHdr.map fun s => .store (addr + s.1) s.2

/-- The header of a pool made in the file `d`. -/
def freshHdr (u : Util) (d : Mem) : List UInt8 := bytesOf (applyAll (hdrEvents u 0) d) 0 u.hdrSize

/-- The stores of the offsets. -/
def offsetEvents (u : Util) (addr size : ℕ) : List Event :=
  [.store (addr + u.hdrSize) (dataStart u), .store (addr + (u.hdrSize + 8)) size,
    .store (addr + (u.hdrSize + 16)) (dataStart u)]

theorem storeHdr_runs (addr : ℕ) (ss : List (ℕ × ℕ)) (m : Mem) :
    Runs true (storeHdr addr ss) m () (ss.map fun s => .store (addr + s.1) s.2) := by
  induction ss generalizing m with
  | nil => exact Runs.pure true m ()
  | cons s ss ih => exact Runs.store_bind (ih _)

theorem createPool_runs (u : Util) (addr size : ℕ) (m : Mem) : Runs true (createPool u addr size) m ()
    (hdrEvents u addr ++ [.flush (u.flushed false addr u.hdrSize)] ++
      (offsetEvents u addr size ++ [.flush (u.flushed false (addr + u.hdrSize) 24)])) := by
  rw [List.append_assoc]
  apply (storeHdr_runs addr u.newHdr m).bind
  apply (Runs.flush true _ _).bind
  apply Runs.store_bind
  apply Runs.store_bind
  apply Runs.load_bind (v := dataStart u)
  · rw [Function.update_of_ne (by omega), Function.update_self]
  · exact Runs.store_bind (Runs.flush true _ _)

theorem open_fresh (hmin : u.minPool ≤ size) (hp : 64 ∣ p) (hb : Booted p d w)
    (hnone : u.convertHdr (bytesOf d 0 u.hdrSize) = none) (isPmem : Bool) :
    Runs true (pmemlogPoolOpen u p size isPmem) w.mem (.ok ⟨p, size, false, isPmem⟩)
      (hdrEvents u p ++ [.flush (u.flushed false p u.hdrSize)] ++
        (offsetEvents u p size ++ [.flush (u.flushed false (p + u.hdrSize) 24)])) := by
  have hbytes : bytesOf w.mem p u.hdrSize = bytesOf d 0 u.hdrSize := by
    rw [← hb.mem, bytesOf_fileAt (Nat.dvd_trans (by decide) hp), Nat.add_zero]
  have hret : ∀ m, Runs true (return .ok ⟨p, size, false, isPmem⟩ : Prog (Except Errno PMEMlogpool)) m
      (.ok ⟨p, size, false, isPmem⟩) [] := fun m => Runs.pure true m _
  have hcreate := (createPool_runs u p size w.mem).seq (hret _)
  rw [List.append_nil] at hcreate
  apply hcreate.of_eq
  intro v hv
  rw [pmemlogPoolOpen, pmemlogPoolOpenCommon, if_neg (Nat.not_lt.mpr hmin), Prog.bind_ok (readBytes_apply p u.hdrSize v),
    hv, hbytes, hnone]
  rfl

theorem store_hdrEvents {x v : ℕ} : .store (p + x) v ∈ hdrEvents u p ↔ (x, v) ∈ u.newHdr := by
  rw [hdrEvents, List.mem_map]
  constructor
  · rintro ⟨s, hs, heq⟩
    obtain ⟨hx, rfl⟩ := Event.store.inj heq
    obtain rfl := Nat.add_left_cancel hx
    exact hs
  · exact fun h => ⟨_, h, rfl⟩

theorem store_offsetEvents {x v : ℕ} : .store (p + x) v ∈ offsetEvents u p size ↔
    x = u.hdrSize ∧ v = dataStart u ∨ x = u.hdrSize + 8 ∧ v = size ∨ x = u.hdrSize + 16 ∧ v = dataStart u := by
  simp only [offsetEvents, List.mem_cons, List.not_mem_nil, or_false, Event.store.injEq, Nat.add_left_cancel_iff]

theorem applyAll_hdrEvents {x : ℕ} (m : Mem) (hx : u.hdrSize ≤ x) : applyAll (hdrEvents u p) m (p + x) = m (p + x) := by
  apply (applyAll_eq_or_store _ _ _).resolve_right
  intro h
  have hin := u.within _ (store_hdrEvents.mp h)
  simp only at hin
  omega

theorem fileAt_hdrEvents (p : ℕ) (m : Mem) :
    fileAt p (applyAll (hdrEvents u p) m) = applyAll (hdrEvents u 0) (fileAt p m) := by
  rw [← fileAt_applyAll]
  simp only [hdrEvents, relocate, List.map_map, Function.comp_def, Event.relocate, Nat.zero_add]

theorem create_crash_word (hmin : u.minPool ≤ size) (hp : 64 ∣ p) (hb : Booted p d w)
    (hnone : u.convertHdr (bytesOf d 0 u.hdrSize) = none) {isPmem : Bool} {img : Mem}
    (hc : CrashDuring (pmemlogPoolOpen u p size isPmem) w img) (x : ℕ) :
    img (p + x) = d x ∨ (x, img (p + x)) ∈ u.newHdr ∨ .store (p + x) (img (p + x)) ∈ offsetEvents u p size := by
  apply (open_fresh hmin hp hb hnone isPmem).crash_word hc
    (P := fun v => v = d x ∨ (x, v) ∈ u.newHdr ∨ .store (p + x) v ∈ offsetEvents u p size)
  · intro m₀ hm₀
    rw [hb.2.1, crashImage_nil] at hm₀
    rw [hm₀, ← hb.1]
    exact Or.inl rfl
  · intro v hv
    simp only [List.mem_append, List.mem_singleton, reduceCtorEq, or_false] at hv
    exact Or.inr (hv.imp_left store_hdrEvents.mp)

/-- Every process that opens the pool is refused, and leaves it as it is. -/
def Refused (u : Util) (size : ℕ) (d : Mem) : Prop := ∀ (p : ℕ) (isPmem : Bool) (w : World), 64 ∣ p → Booted p d w →
  pmemlogPoolOpen u p size isPmem w = (.ok (.error .EINVAL), w)

theorem refused_iff (hmin : u.minPool ≤ size) (hv : Valid u (bytesOf d 0 u.hdrSize)) :
    Refused u size d ↔ ¬ Placed u size d := by
  constructor
  · intro h hplaced
    have hb := Booted.boot 0 d fun _ => true
    have hopen := h 0 false _ (by decide) hb
    rw [pmemlogPoolOpen, open_valid hmin (by decide) (by rw [hb.mem]; exact hv), hb.mem, if_pos hplaced] at hopen
    cases hopen
  · intro h p isPmem w hp hb
    rw [pmemlogPoolOpen, open_valid hmin hp (by rw [hb.mem]; exact hv), hb.mem, if_neg h]

theorem create_ready (hmin : u.minPool ≤ size) (hroom : dataStart u ≤ size) (hsmall : size < 2 ^ 63) (hp : 64 ∣ p)
    (hb : Booted p d w) (hnone : u.convertHdr (bytesOf d 0 u.hdrSize) = none) (isPmem : Bool) :
    ∃ w', pmemlogPoolOpen u p size isPmem w = (.ok (.ok ⟨p, size, false, isPmem⟩), w') ∧
      Ready u (freshHdr u d) size w' ⟨p, size, false, isPmem⟩ (Contents.empty _) := by
  have hruns := open_fresh hmin hp hb hnone isPmem
  obtain ⟨hout, hmem⟩ := hruns.mem_eq rfl
  rw [applyAll_append, applyAll_append, applyAll_append, applyAll_flush, applyAll_nil, applyAll_flush, applyAll_nil]
    at hmem
  refine ⟨_, Prod.ext hout rfl, rfl, hp, hroom, hsmall, fun ℓ => ?_, ?_⟩
  · rw [hruns.trace_exact rfl (Or.inl rfl), (hruns.extends_world rfl).1, ← List.append_assoc]
    have hhdr : ∀ e ∈ hdrEvents u p, ∀ a, e.Writes a → lineOf a ∈ u.flushed false p u.hdrSize := by
      intro e he a ha
      obtain ⟨s, hs, rfl⟩ := List.mem_map.mp he
      obtain rfl : p + s.1 = a := ha
      have hin := u.within s hs
      apply u.covers
      all_goals
        unfold lineOf
        omega
    have hoffsets : ∀ e ∈ offsetEvents u p size, ∀ a, e.Writes a → lineOf a ∈ u.flushed false (p + u.hdrSize) 24 := by
      intro e he a ha
      have hx : a = p + u.hdrSize ∨ a = p + (u.hdrSize + 8) ∨ a = p + (u.hdrSize + 16) := by
        simp only [offsetEvents, List.mem_cons, List.not_mem_nil, or_false] at he
        rcases he with rfl | rfl | rfl
        · exact Or.inl ha.symm
        · exact Or.inr (Or.inl ha.symm)
        · exact Or.inr (Or.inr ha.symm)
      apply u.covers
      all_goals
        unfold lineOf
        omega
    exact ((hb.clean ℓ).flushed hhdr).flushed hoffsets
  · -- the offsets do not touch the header
    have hfile : ∀ x, x ≠ u.hdrSize → x ≠ u.hdrSize + 8 → x ≠ u.hdrSize + 16 →
        (pmemlogPoolOpen u p size isPmem w).2.mem (p + x) = applyAll (hdrEvents u 0) d x := by
      intro x h0 h8 h16
      rw [hmem, ← hb.mem, ← fileAt_hdrEvents, fileAt_apply]
      apply (applyAll_eq_or_store _ _ _).resolve_right
      intro h
      rcases store_offsetEvents.mp h with ⟨rfl, -⟩ | ⟨rfl, -⟩ | ⟨rfl, -⟩
      · exact h0 rfl
      · exact h8 rfl
      · exact h16 rfl
    have hstored : ∀ x v, .store (p + x) v ∈ offsetEvents u p size →
        (pmemlogPoolOpen u p size isPmem w).2.mem (p + x) = v := by
      intro x v h
      rw [hmem]
      apply applyAll_of_store h
      intro v' h'
      have hv := store_offsetEvents.mp h
      have hv' := store_offsetEvents.mp h'
      omega
    refine ⟨?_, hstored _ _ (store_offsetEvents.mpr (by omega)), hstored _ _ (store_offsetEvents.mpr (by omega)), ?_,
      rfl⟩
    · apply bytesOf_congr
      intro y _ hy
      have hword : wordOf y ≤ y := Nat.div_mul_le_self y 8
      rw [byteAt, fileAt_apply, hfile _ (by omega) (by omega) (by omega), byteAt]
    · rw [Contents.bytes_empty, List.length_nil, Nat.add_zero]
      exact hstored _ _ (store_offsetEvents.mpr (by omega))

/-- The checksum tells a new header of which some stores are missing from one that is complete. -/
def DetectsTorn (u : Util) (d : Mem) : Prop := ∀ m : Mem,
  (∀ x, x + 8 ≤ u.hdrSize → m x = d x ∨ (x, m x) ∈ u.newHdr) →
    bytesOf m 0 u.hdrSize = freshHdr u d ∨ u.convertHdr (bytesOf m 0 u.hdrSize) = none

/-- The header without the offsets is refused, unless the offsets happen to be there. -/
theorem refused_hdr (hmin : u.minPool ≤ size) (hvalid : Valid u (freshHdr u d)) (hno : ¬ Placed u size d) :
    Refused u size (applyAll (hdrEvents u 0) d) := by
  have hkeep : ∀ x, u.hdrSize ≤ x → applyAll (hdrEvents u 0) d x = d x := by
    intro x hx
    have hx' := applyAll_hdrEvents (u := u) (p := 0) d hx
    rwa [Nat.zero_add] at hx'
  rw [refused_iff hmin hvalid, Placed, hkeep _ (le_refl _), hkeep _ (Nat.le_add_right _ _),
    hkeep _ (Nat.le_add_right _ _)]
  exact hno

theorem not_refused (hmin : u.minPool ≤ size) (hp : 64 ∣ p) (hb : Booted p d w)
    (hnone : u.convertHdr (bytesOf d 0 u.hdrSize) = none) (hvalid : Valid u (freshHdr u d)) (htorn : DetectsTorn u d)
    (hplaced : Placed u size d) {isPmem : Bool} {img : Mem} (hc : CrashDuring (pmemlogPoolOpen u p size isPmem) w img) :
    ¬ Refused u size (fileAt p img) := by
  have hword := create_crash_word hmin hp hb hnone hc
  have hhdr : ∀ x, x + 8 ≤ u.hdrSize → fileAt p img x = d x ∨ (x, fileAt p img x) ∈ u.newHdr := by
    intro x hx
    apply (hword x).imp_right
    intro h
    apply h.resolve_right
    intro hoffset
    have hv := store_offsetEvents.mp hoffset
    omega
  have hoffset : ∀ x, u.hdrSize ≤ x → fileAt p img x = d x ∨ .store (p + x) (img (p + x)) ∈ offsetEvents u p size := by
    intro x hx
    apply (hword x).imp_right
    intro h
    apply h.resolve_left
    intro hnew
    have hin := u.within _ hnew
    simp only at hin
    omega
  rcases htorn _ hhdr with hfresh | hnew
  · rw [refused_iff hmin (hfresh ▸ hvalid), not_not]
    obtain ⟨hstart, hend, hle, hlo, hhi⟩ := hplaced
    have h0 := (hoffset u.hdrSize (le_refl _)).imp_right store_offsetEvents.mp
    have h8 := (hoffset (u.hdrSize + 8) (Nat.le_add_right _ _)).imp_right store_offsetEvents.mp
    have h16 := (hoffset (u.hdrSize + 16) (Nat.le_add_right _ _)).imp_right store_offsetEvents.mp
    simp only [fileAt_apply] at h0 h8 h16
    simp only [Placed, fileAt_apply]
    omega
  · intro hrefused
    have hb' := Booted.boot 0 (fileAt p img) fun _ => true
    have hopen := ((open_fresh hmin (by decide) hb' hnew false).mem_eq rfl).1
    rw [hrefused 0 false _ (by decide) hb'] at hopen
    cases hopen

/-- Creating a pool is not atomic. A crash can leave a file that is refused for good, exactly if the words where
the offsets will lie are not those of a pool before. -/
theorem create_refused_iff (hmin : u.minPool ≤ size) (hnone : u.convertHdr (bytesOf d 0 u.hdrSize) = none)
    (hvalid : Valid u (freshHdr u d)) (htorn : DetectsTorn u d) :
    (∃ (p : ℕ) (isPmem : Bool) (w : World) (img : Mem), 64 ∣ p ∧ Booted p d w ∧
      CrashDuring (pmemlogPoolOpen u p size isPmem) w img ∧ Refused u size (fileAt p img)) ↔ ¬ Placed u size d := by
  constructor
  · rintro ⟨p, isPmem, w, img, hp, hb, hc, hrefused⟩ hplaced
    exact not_refused hmin hp hb hnone hvalid htorn hplaced hc hrefused
  · intro hno
    -- power is lost right behind the header
    have hb := Booted.boot 0 d fun _ => true
    have hruns := open_fresh hmin (by decide) hb hnone false
    refine ⟨0, false, _,
      _, by decide, hb, ⟨(hdrEvents u 0 ++ [Event.flush (u.flushed false 0 u.hdrSize)]).length, CrashImage.all _ _⟩, ?_⟩
    rw [hruns.trace_exact rfl (Or.inl rfl), List.take_length_add_append, List.take_left, applyAll_append,
      applyAll_append, applyAll_flush, applyAll_nil, fileAt_hdrEvents]
    have hfile : fileAt 0 (applyAll (World.boot (mapAt 0 d) false fun _ => true).trace
        (World.boot (mapAt 0 d) false fun _ => true).base) = d := hb.mem
    rw [hfile]
    exact refused_hdr hmin hvalid hno

end Create

theorem pageHdr_valid {hdr : List UInt8} (h : hdr.take 8 = logHdrSig ++ [0]) : Valid pageHdr hdr :=
  ⟨_, if_pos h, rfl, rfl, rfl⟩

theorem pageHdr_none {hdr : List UInt8} (h : hdr.take 8 ≠ logHdrSig ++ [0]) : pageHdr.convertHdr hdr = none :=
  if_neg h

/-- A file of zeros. -/
def zeros : Mem := fun _ => 0

theorem zeros_none : pageHdr.convertHdr (bytesOf zeros 0 pageHdr.hdrSize) = none := by
  have hsig : bytesOf zeros 0 8 ≠ logHdrSig ++ [0] := by decide
  apply pageHdr_none
  rwa [take_bytesOf zeros 0 (by decide)]

theorem zeros_fresh : Valid pageHdr (freshHdr pageHdr zeros) := by
  have hsig : bytesOf (applyAll (hdrEvents pageHdr 0) zeros) 0 8 = logHdrSig ++ [0] := by decide
  exact pageHdr_valid ((take_bytesOf _ 0 (by decide)).trans hsig)

theorem zeros_detects : DetectsTorn pageHdr zeros := by
  intro m hm
  have hrest : ∀ x, x + 8 ≤ 4096 → m x = 0 ∨ x = 0 ∧ m x = 20071912478952784 := by
    intro x hx
    exact (hm x hx).imp_right fun h => Prod.mk.inj (List.mem_singleton.mp h)
  rcases hrest 0 (by decide) with hold | ⟨-, hnew⟩
  · apply Or.inr
    have hbytes : bytesOf m 0 8 = bytesOf zeros 0 8 := by
      apply bytesOf_congr
      intro y _ hy
      rw [byteAt, byteAt, show wordOf y = 0 by unfold wordOf; omega, hold]
      rfl
    have hsig : bytesOf zeros 0 8 ≠ logHdrSig ++ [0] := by decide
    apply pageHdr_none
    rwa [take_bytesOf m 0 (by decide), hbytes]
  · apply Or.inl
    apply bytesOf_congr
    intro y _ hy
    have hy' : y < 4096 := by
      have hsize : pageHdr.hdrSize = 4096 := rfl
      omega
    have hfresh : applyAll (hdrEvents pageHdr 0) zeros = Function.update zeros 0 20071912478952784 := rfl
    rw [byteAt, byteAt, hfresh]
    by_cases hword : wordOf y = 0
    · rw [hword, hnew, Function.update_self]
    · rw [Function.update_of_ne hword]
      have hle : wordOf y + 8 ≤ 4096 := by
        unfold wordOf
        omega
      rw [(hrest _ hle).resolve_right fun h => hword h.1]
      rfl

/-- Creating a pool in a file of zeros. -/
theorem create_refused_zeros : ∃ (p : ℕ) (isPmem : Bool) (w : World) (img : Mem), 64 ∣ p ∧ Booted p zeros w ∧
    CrashDuring (pmemlogPoolOpen pageHdr p 2097152 isPmem) w img ∧ Refused pageHdr 2097152 (fileAt p img) :=
  (create_refused_iff (by decide) zeros_none zeros_fresh zeros_detects).mpr (by decide)

end PmemExamples.Log
