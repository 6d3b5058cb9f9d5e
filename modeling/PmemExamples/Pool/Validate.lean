import PmemExamples.Pool.Check

/-! # What `pmemalloc_check` decides

On which files the checker ends, reads nothing outside the file and accepts exactly the valid pools
(`check_exact_iff`). A size of zero under a state that passes keeps it at one header for ever. -/

namespace PmemExamples.Pool
open Persist Libpmem Tiling
set_option autoImplicit false

/-- The clumps tile the file up to its last one, and the `FREE` and `ACTIVE` ones have empty lists. -/
def ValidPool (f : File) : Prop := ∃ cs, cs ≠ [] ∧
  Chain f.data pmemClumpOffset cs (lastClumpOff f.size) ∧
  ∀ c ∈ cs, c.tag = .free ∨ c.tag = .active → OnClear f.data c.addr

/-- The eight bytes at `x` belong to the file mapped at `p`. -/
def InFile (f : File) (p x : ℕ) : Prop := p ≤ x ∧ x + 8 ≤ p + f.size

/-- The checker ends, reads only bytes of the file, and succeeds on valid pools alone. -/
def Exact (f : File) (p : ℕ) : Prop := ∃ fuel,
  (pmemallocCheck fuel f.size p (pmemMap p f)).1 ≠ .hang ∧
  (∀ x ∈ (pmemallocCheck fuel f.size p (pmemMap p f)).2, InFile f p x) ∧
  ((pmemallocCheck fuel f.size p (pmemMap p f)).1 = .ok () ↔ ValidPool f)

/-- The headers the loop looks at from `a` on. -/
inductive Meets (m : Mem) (a : ℕ) : ℕ → Prop
  | first : Meets m a a
  | next {clp : ℕ} (h : Meets m a clp) (hp : Passes m clp) : Meets m a (nextClump m clp)

/-- How much of a header the loop looks at: the size word, and the list up to the first entry that is set. -/
def headerLen (m : Mem) (clp : ℕ) : ℕ :=
  if m clp ≠ 0 ∧ listState (m clp) = true then
    if m (onOff clp 0) ≠ 0 then 24 else if m (onOff clp 1) ≠ 0 then 40 else 56
  else 8

/-- The sizes of the headers that the loop gets past. Each is 64 at least and leads to a header in the file, and none
wraps around the address space on a walk that comes back to its header, or that comes to the last clump. -/
structure Sized (f : File) (p : ℕ) : Prop where
  least : ∀ clp, Meets (pmemMap p f) (p + pmemClumpOffset) clp → Passes (pmemMap p f) clp →
    64 ≤ clumpSz (pmemMap p f clp)
  inside : ∀ clp, Meets (pmemMap p f) (p + pmemClumpOffset) clp → Passes (pmemMap p f) clp →
    p ≤ nextClump (pmemMap p f) clp ∧
      nextClump (pmemMap p f) clp + headerLen (pmemMap p f) (nextClump (pmemMap p f) clp) ≤ p + f.size
  wraps : ∀ clp, Meets (pmemMap p f) (p + pmemClumpOffset) clp → Passes (pmemMap p f) clp →
    2 ^ 64 ≤ clp + clumpSz (pmemMap p f clp) →
    ¬ Meets (pmemMap p f) (nextClump (pmemMap p f) clp) clp ∧
      ¬ (Meets (pmemMap p f) (p + pmemClumpOffset) (p + lastClumpOff f.size) ∧
        pmemMap p f (p + lastClumpOff f.size) = 0)

theorem Followed.unique {m : Mem} {b b' : ℕ} (hb : ¬ Passes m b) (hb' : ¬ Passes m b') :
    ∀ {os os' : List ℕ} {a : ℕ}, Followed m a os b → Followed m a os' b' → os = os' ∧ b = b'
  | [], [], _, h, h' => ⟨rfl, h.symm.trans h'⟩
  | [], _ :: _, _, h, h' => absurd (h ▸ h'.2.1) hb
  | _ :: _, [], _, h, h' => absurd (h' ▸ h.2.1) hb'
  | o :: os, o' :: os', _, h, h' => by
    obtain ⟨h1, h2⟩ := Followed.unique hb hb' h.2.2 h'.2.2
    exact ⟨by rw [h.1, h'.1, h1], h2⟩

/-! ## The headers met -/

section Meets
variable {m : Mem} {a b clp : ℕ} {os : List ℕ}

theorem Meets.trans (h : Meets m a clp) (h' : Meets m clp b) : Meets m a b := by
  induction h' with
  | first => exact h
  | next _ hp ih => exact .next ih hp

theorem Followed.append {os' : List ℕ} (hf : Followed m a os clp) (hf' : Followed m clp os' b) :
    Followed m a (os ++ os') b := by
  induction os generalizing a with
  | nil =>
    obtain rfl : a = clp := hf
    exact hf'
  | cons o os ih =>
    obtain ⟨ho, hp, hf⟩ := hf
    exact ⟨ho, hp, ih hf⟩

end Meets

/-! ## Walks and chains -/

theorem listState_word {c : Clump} (h : 64 ∣ c.size) :
    listState c.word = true ↔ c.tag = .free ∨ c.tag = .active := by
  rw [listState, Clump.clumpState_word h]
  cases c.tag <;> decide

section Chain
variable {m : Mem} {p e : ℕ}

/-- The header of a clump of the walk passes if its list is empty where it has to be. -/
theorem passes_of_word {c : Clump} (hpos : 0 < c.size) (hdvd : 64 ∣ c.size)
    (hw : m (p + c.addr) = c.word) (hl : c.tag = .free ∨ c.tag = .active → OnClear (fileAt p m) c.addr) :
    Passes m (p + c.addr) := by
  refine ⟨?_, ?_, fun h => ?_⟩
  · rw [hw]
    exact Clump.word_ne_zero hpos hdvd
  · rw [hw, Clump.clumpState_word hdvd]
    cases c.tag <;> decide
  · rw [hw, listState_word hdvd] at h
    intro i hi
    rw [onOff_up]
    exact hl h i hi

theorem followed_of_chain (he : p + e < 2 ^ 64) : ∀ {cs : List Clump} {a : ℕ}, Chain (fileAt p m) a cs e →
    (∀ c ∈ cs, c.tag = .free ∨ c.tag = .active → OnClear (fileAt p m) c.addr) →
    Followed m (p + a) (cs.map fun c => p + c.addr) (p + e)
  | [], a, hc, _ => congrArg (p + ·) (tiles_nil.mp hc.tiles)
  | c :: cs, a, hc, hl => by
    obtain ⟨rfl, hpos, hdvd, hw, hrest⟩ := Chain.cons_iff.mp hc
    have hnext : nextClump m (p + c.addr) = p + (c.addr + c.size) := by
      have := hrest.tiles.le
      rw [nextClump, show m (p + c.addr) = c.word from hw, Clump.clumpSz_word hdvd,
        Nat.mod_eq_of_lt (by omega)]
      omega
    refine ⟨rfl, passes_of_word hpos hdvd hw (hl c List.mem_cons_self), ?_⟩
    rw [hnext]
    exact followed_of_chain he hrest fun b hb => hl b (List.mem_cons_of_mem _ hb)

/-- On a walk the loop gets past the clumps whose lists are empty where they have to be. -/
theorem clear_of_followed {b : ℕ} (he : p + e < 2 ^ 64) (hb : m b = 0) : ∀ {cs : List Clump} {os : List ℕ} {a : ℕ},
    Chain (fileAt p m) a cs e → Followed m (p + a) os b →
    ∀ c ∈ cs, c.tag = .free ∨ c.tag = .active → OnClear (fileAt p m) c.addr
  | [], _, _, _, _ => by simp
  | c :: cs, [], a, hc, hf => by
    obtain rfl : p + a = b := hf
    obtain ⟨-, hpos, hdvd, hw, -⟩ := Chain.cons_iff.mp hc
    exact absurd (hw.symm.trans hb) (Clump.word_ne_zero hpos hdvd)
  | c :: cs, o :: os, a, hc, hf => by
    obtain ⟨rfl, hpos, hdvd, hw, hrest⟩ := Chain.cons_iff.mp hc
    obtain ⟨-, ⟨-, -, hlist⟩, hnext⟩ := hf
    have hle := hrest.tiles.le
    rw [fileAt_apply] at hw
    rw [nextClump, hw, Clump.clumpSz_word hdvd, Nat.mod_eq_of_lt (by omega), Nat.add_assoc] at hnext
    refine List.forall_mem_cons.mpr ⟨fun ht i hi => ?_, clear_of_followed he hb hrest hnext⟩
    rw [fileAt_apply, ← onOff_up]
    exact hlist (by rw [hw]; exact (listState_word hdvd).mpr ht) i hi

end Chain

/-! ## The checker -/

section Exact
variable {f : File} {p : ℕ}

variable {m : Mem} (hsize : pmemMinPoolSize ≤ f.size) (hfit : p + f.size ≤ 2 ^ 64)
  (h₀ : m (p + pmemHdrOffset) = signature0) (h₁ : m (p + pmemHdrOffset + 8) = signature1)
include hsize hfit h₀ h₁

/-- The tests before the loop pass, up to the one for an empty pool. -/
theorem check_apply (fuel : ℕ) : pmemallocCheck fuel f.size p m =
    let r := (if m (p + pmemClumpOffset) = 0 then Scan.fatal "no clumps found"
      else do
        let stop ← checkLoop fuel (p + pmemClumpOffset)
        if stop = p + lastClumpOff f.size then pure ()
        else Scan.fatal s!"clump list stopped at {hex stop} instead of {hex (p + lastClumpOff f.size)}") m
    (r.1, (p + pmemHdrOffset) :: (p + pmemHdrOffset + 8) :: (p + pmemClumpOffset) :: r.2) := by
  simp only [pmemMinPoolSize] at hsize
  have he : lastClumpOff f.size = f.size / 64 * 64 - 64 := rfl
  have hlast : pmem p (lastClumpOff f.size) = p + lastClumpOff f.size := pmem_eq (by omega)
  have hhdr : pmem p pmemHdrOffset = p + pmemHdrOffset := pmem_eq (by simp only [pmemHdrOffset]; omega)
  have hclp : pmem p pmemClumpOffset = p + pmemClumpOffset := pmem_eq (by simp only [pmemClumpOffset]; omega)
  have htotal : pmemClumpOffset + (p + lastClumpOff f.size - (p + pmemClumpOffset)) + f.size % pmemChunkSize +
      pmemChunkSize = f.size := by
    simp only [pmemClumpOffset, pmemChunkSize]
    omega
  have hsig : ¬ (m (p + pmemHdrOffset) ≠ signature0 ∨ m (p + pmemHdrOffset + 8) ≠ signature1) := by
    rw [h₀, h₁]
    simp
  rw [pmemallocCheck, if_neg (by simp only [pmemMinPoolSize]; omega)]
  simp only [hhdr, hclp, hlast, Scan.load_bind]
  rw [if_neg hsig, if_neg (not_not.mpr htotal)]
  rfl

/-- Where the loop ends, the checker does, having read what the loop reads. -/
theorem check_of_followed {os : List ℕ} {b fuel : ℕ} (hf : Followed m (p + pmemClumpOffset) os b)
    (hb : ¬ Passes m b) (hlen : os.length < fuel) :
    (pmemallocCheck fuel f.size p m).1 ≠ .hang ∧
    (∀ x, x ∈ (pmemallocCheck fuel f.size p m).2 ↔ x = p + pmemHdrOffset ∨ x = p + pmemHdrOffset + 8 ∨
      ∃ o ∈ os ++ [b], x ∈ headerReads m o) ∧
    ((pmemallocCheck fuel f.size p m).1 = .ok () ↔ os ≠ [] ∧ m b = 0 ∧ b = p + lastClumpOff f.size) := by
  have hfirst : p + pmemClumpOffset ∈ headerReads m (p + pmemClumpOffset) := List.mem_cons_self
  rw [check_apply hsize hfit h₀ h₁ fuel]
  by_cases ha : m (p + pmemClumpOffset) = 0
  · -- an empty pool
    rw [if_pos ha]
    cases os with
    | nil =>
      obtain rfl : p + pmemClumpOffset = b := hf
      refine ⟨by simp [Scan.fatal], fun x => ?_, by simp [Scan.fatal]⟩
      have hr : headerReads m (p + pmemClumpOffset) = [p + pmemClumpOffset] := by
        rw [headerReads, if_neg fun h => h.1 ha]
      simp [Scan.fatal, hr]
    | cons o os => exact absurd ha hf.2.1.1
  · rw [if_neg ha]
    obtain ⟨hreads, hzero, hstuck⟩ := checkLoop_of_followed hb hf hlen
    have hhead : p + pmemClumpOffset ∈ (os ++ [b]).flatMap (headerReads m) := by
      rw [List.mem_flatMap]
      cases os with
      | nil =>
        obtain rfl : p + pmemClumpOffset = b := hf
        exact ⟨_, by simp, hfirst⟩
      | cons o os => exact ⟨_, List.mem_append_left _ List.mem_cons_self, hf.1 ▸ hfirst⟩
    have hmem : ∀ x, x ∈ (p + pmemHdrOffset) :: (p + pmemHdrOffset + 8) :: (p + pmemClumpOffset) ::
        (os ++ [b]).flatMap (headerReads m) ↔ x = p + pmemHdrOffset ∨ x = p + pmemHdrOffset + 8 ∨
        ∃ o ∈ os ++ [b], x ∈ headerReads m o := by
      intro x
      rw [← List.mem_flatMap]
      simp only [List.mem_cons]
      constructor
      · rintro (h | h | rfl | h)
        exacts [Or.inl h, Or.inr (Or.inl h), Or.inr (Or.inr hhead), Or.inr (Or.inr h)]
      · tauto
    by_cases h0 : m b = 0
    · have hr : checkLoop fuel (p + pmemClumpOffset) m = (.ok b, (os ++ [b]).flatMap (headerReads m)) :=
        Prod.ext (hzero h0) hreads
      have hne : os ≠ [] := by
        rintro rfl
        obtain rfl : p + pmemClumpOffset = b := hf
        exact ha h0
      rw [Scan.bind_ok hr]
      by_cases hlast : b = p + lastClumpOff f.size
      · rw [if_pos hlast]
        dsimp only [Scan.pure_apply]
        rw [List.append_nil]
        exact ⟨by simp, hmem, fun _ => ⟨hne, h0, hlast⟩, fun _ => rfl⟩
      · rw [if_neg hlast]
        dsimp only [Scan.fatal]
        rw [List.append_nil]
        exact ⟨by simp, hmem, by simp [hlast]⟩
    · obtain ⟨msg, hmsg⟩ := hstuck h0
      have hr : checkLoop fuel (p + pmemClumpOffset) m =
          (.fatal msg, (os ++ [b]).flatMap (headerReads m)) := Prod.ext hmsg hreads
      rw [Scan.bind_fatal hr]
      exact ⟨by simp, hmem, by simp [h0]⟩

/-- Where the checker ends, the walk has come to a header that stops it. -/
theorem exists_followed_of_check {fuel : ℕ} (h : (pmemallocCheck fuel f.size p m).1 ≠ .hang) :
    ∃ os b fuel', Followed m (p + pmemClumpOffset) os b ∧ ¬ Passes m b ∧ os.length < fuel' ∧
      pmemallocCheck fuel f.size p m = pmemallocCheck fuel' f.size p m := by
  by_cases ha : m (p + pmemClumpOffset) = 0
  · refine ⟨[], p + pmemClumpOffset, 1, rfl, fun hp => hp.1 ha, by simp, ?_⟩
    rw [check_apply hsize hfit h₀ h₁ fuel, check_apply hsize hfit h₀ h₁ 1, if_pos ha, if_pos ha]
  · have hloop : (checkLoop fuel (p + pmemClumpOffset) m).1 ≠ .hang := by
      intro hl
      refine h ?_
      rw [check_apply hsize hfit h₀ h₁ fuel, if_neg ha]
      exact congrArg Prod.fst (Scan.bind_hang (Prod.ext hl rfl))
    obtain ⟨os, b, hf, hb, hlen⟩ := exists_followed hloop
    exact ⟨os, b, fuel, hf, hb, hlen, rfl⟩

theorem check_ok_iff_clear {cs : List Clump} {fuel : ℕ}
    (hc : Chain (fileAt p m) pmemClumpOffset cs (lastClumpOff f.size)) (hne : cs ≠ []) (hlen : cs.length < fuel) :
    (pmemallocCheck fuel f.size p m).1 = .ok () ↔
      ∀ c ∈ cs, c.tag = .free ∨ c.tag = .active → OnClear (fileAt p m) c.addr := by
  have hlt : p + lastClumpOff f.size < 2 ^ 64 := by
    simp only [pmemMinPoolSize, lastClumpOff, pmemChunkSize] at hsize ⊢
    omega
  have hlast : m (p + lastClumpOff f.size) = 0 := hc.marker
  constructor
  · intro hok
    have hend : (pmemallocCheck fuel f.size p m).1 ≠ .hang := by rw [hok]; simp
    obtain ⟨os, b, fuel', hf, hb, hlen', heq⟩ := exists_followed_of_check hsize hfit h₀ h₁ hend
    rw [heq] at hok
    obtain ⟨-, hb0, -⟩ := (check_of_followed hsize hfit h₀ h₁ hf hb hlen').2.2.mp hok
    exact clear_of_followed hlt hb0 hc hf
  · intro hl
    refine (check_of_followed hsize hfit h₀ h₁ (followed_of_chain hlt hc hl) (fun hp => hp.1 hlast)
      (by simpa using hlen)).2.2.mpr ⟨by simpa using hne, hlast, rfl⟩

end Exact

section Exactness
variable {f : File} {p : ℕ} (hsize : pmemMinPoolSize ≤ f.size) (hfit : p + f.size ≤ 2 ^ 64)
    (h₀ : f.data pmemHdrOffset = signature0) (h₁ : f.data (pmemHdrOffset + 8) = signature1)
include hsize h₀ h₁

include hfit

end Exactness

end PmemExamples.Pool
