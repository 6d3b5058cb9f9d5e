import PmemExamples.Persist.Scan
import PmemExamples.Pool.Relocate

/-! # `pmemalloc_check`

The checker follows sizes it reads from a file that may hold anything. `Followed` is the list of headers
it gets past; where it stops decides the outcome (`checkLoop_of_followed`), and it need not stop. -/

namespace PmemExamples.Pool
open Persist Libpmem Tiling
set_option autoImplicit false

/-- `%lx`. -/
def hex (n : ℕ) : String := String.ofList (Nat.toDigits 16 n)

/-- `ASSERTeq(clp->on[i].off, 0)` for the entries in turn. -/
def assertOnClear (clp : ℕ) : List ℕ → Scan Unit
  | [] => pure ()
  | i :: is => do
    let offset ← Scan.load (onOff clp i)
    if offset = 0 then assertOnClear clp is
    else Scan.fatal s!"assertion failure: clp->on[{i}].off ({printedInt offset}) == 0 (0)"

/-- The `switch (state)` of `pmemalloc_check`. -/
def checkClump (clp : ℕ) : ℕ → Scan Unit
  | 0 => assertOnClear clp onUp
  | 1 => pure ()
  | 2 => pure ()
  | 3 => assertOnClear clp onUp
  | 4 => pure ()
  | state => Scan.fatal s!"unknown clump state: {state}"

/-- The loop over the clumps: where it stops. -/
def checkLoop : ℕ → ℕ → Scan ℕ
  | 0, _ => Scan.hang
  | fuel + 1, clp => do
    let size ← Scan.load clp
    if size = 0 then pure clp
    else do
      checkClump clp (clumpState size)
      checkLoop fuel ((clp + clumpSz size) % 2 ^ 64)

/-- `pmemalloc_check` on a file of `stSize` bytes mapped at `pmp`, up to the report it prints; its loop
makes at most `fuel` turns. -/
def pmemallocCheck (fuel stSize pmp : ℕ) : Scan Unit := do
  if stSize < pmemMinPoolSize then
    Scan.fatal s!"size {stSize} too small (must be at least {pmemMinPoolSize})"
  else do
    let hdrp := pmem pmp pmemHdrOffset
    let word0 ← Scan.load hdrp
    let word1 ← Scan.load (hdrp + 8)
    if word0 ≠ signature0 ∨ word1 ≠ signature1 then Scan.fatal "failed signature check"
    else do
      let clp := pmem pmp pmemClumpOffset
      let lastclp := pmem pmp (lastClumpOff stSize)
      let clumptotal := lastclp - clp
      let rounded := stSize % pmemChunkSize
      let total := pmemClumpOffset + clumptotal + rounded + pmemChunkSize
      if total ≠ stSize then
        Scan.fatal (s!"CLUMP_OFFSET {pmemClumpOffset} + clumptotal {clumptotal} + rounded {rounded} + " ++
          s!"CHUNK_SIZE {pmemChunkSize} = {total}, (not st_size {stSize})")
      else do
        let size ← Scan.load clp
        if size = 0 then Scan.fatal "no clumps found"
        else do
          let stop ← checkLoop fuel clp
          if stop = lastclp then pure ()
          else Scan.fatal s!"clump list stopped at {hex stop} instead of {hex lastclp}"

/-! ## One header -/

/-- The on-list is empty. -/
def OnClear (m : Mem) (clp : ℕ) : Prop := ∀ i ∈ onUp, m (onOff clp i) = 0

/-- `FREE` or `ACTIVE`. -/
def listState (word : ℕ) : Bool := clumpState word = 0 || clumpState word = 3

/-- The loop gets past the header: a known state, and an empty list where one is asked for. -/
def Passes (m : Mem) (clp : ℕ) : Prop :=
  m clp ≠ 0 ∧ clumpState (m clp) ≤ 4 ∧ (listState (m clp) = true → OnClear m clp)

/-- Where the loop goes from there. -/
def nextClump (m : Mem) (clp : ℕ) : ℕ := (clp + clumpSz (m clp)) % 2 ^ 64

/-- The entries read up to the first that is set. -/
def listReads (m : Mem) (clp : ℕ) : List ℕ → List ℕ
  | [] => []
  | i :: is => onOff clp i :: if m (onOff clp i) = 0 then listReads m clp is else []

/-- The words a turn of the loop reads at the header. -/
def headerReads (m : Mem) (clp : ℕ) : List ℕ :=
  clp :: if m clp ≠ 0 ∧ listState (m clp) = true then listReads m clp onUp else []

theorem assertOnClear_apply (m : Mem) (clp : ℕ) : ∀ is : List ℕ,
    ((∀ i ∈ is, m (onOff clp i) = 0) ∧ assertOnClear clp is m = (.ok (), listReads m clp is)) ∨
    ((¬ ∀ i ∈ is, m (onOff clp i) = 0) ∧
      ∃ msg, assertOnClear clp is m = (.fatal msg, listReads m clp is))
  | [] => Or.inl ⟨by simp, rfl⟩
  | i :: is => by
    rw [assertOnClear, Scan.load_bind, listReads]
    by_cases h : m (onOff clp i) = 0
    · rw [if_pos h, if_pos h]
      rcases assertOnClear_apply m clp is with ⟨hs, hr⟩ | ⟨hs, msg, hr⟩
      · exact Or.inl ⟨List.forall_mem_cons.mpr ⟨h, hs⟩, by rw [hr]⟩
      · exact Or.inr ⟨fun hall => hs (List.forall_mem_cons.mp hall).2, msg, by rw [hr]⟩
    · rw [if_neg h, if_neg h]
      exact Or.inr ⟨fun hall => h (hall i List.mem_cons_self), _, rfl⟩

theorem checkClump_apply {m : Mem} {clp : ℕ} (h0 : m clp ≠ 0) :
    (Passes m clp ∧ checkClump clp (clumpState (m clp)) m = (.ok (), (headerReads m clp).tail)) ∨
    (¬ Passes m clp ∧ ∃ msg, checkClump clp (clumpState (m clp)) m = (.fatal msg, (headerReads m clp).tail)) := by
  by_cases hl : listState (m clp) = true
  · have hst : clumpState (m clp) = 0 ∨ clumpState (m clp) = 3 := by simpa [listState] using hl
    have hrun : checkClump clp (clumpState (m clp)) = assertOnClear clp onUp := by
      rcases hst with h | h <;> rw [h] <;> rfl
    have hpass : Passes m clp ↔ OnClear m clp :=
      ⟨fun h => h.2.2 hl, fun h => ⟨h0, by omega, fun _ => h⟩⟩
    rw [hrun, hpass, headerReads, if_pos ⟨h0, hl⟩, List.tail_cons]
    exact assertOnClear_apply m clp onUp
  · have hst : ¬ (clumpState (m clp) = 0 ∨ clumpState (m clp) = 3) := by simpa [listState] using hl
    rw [headerReads, if_neg (fun h => hl h.2), List.tail_cons]
    by_cases h4 : clumpState (m clp) ≤ 4
    · refine Or.inl ⟨⟨h0, h4, fun h => absurd h hl⟩, ?_⟩
      have hcase : clumpState (m clp) = 1 ∨ clumpState (m clp) = 2 ∨ clumpState (m clp) = 4 := by omega
      rcases hcase with h | h | h <;> rw [h] <;> rfl
    · refine Or.inr ⟨fun h => h4 h.2.1, ?_⟩
      obtain ⟨s, hs⟩ : ∃ s, clumpState (m clp) = s + 5 := ⟨clumpState (m clp) - 5, by omega⟩
      exact ⟨_, by rw [hs]; rfl⟩

/-! ## The loop -/

/-- The loop gets from `a` past the headers `os` to `b`. -/
def Followed (m : Mem) : ℕ → List ℕ → ℕ → Prop
  | a, [], b => a = b
  | a, o :: os, b => o = a ∧ Passes m a ∧ Followed m (nextClump m a) os b

theorem checkLoop_pass {m : Mem} {a : ℕ} (h : Passes m a) (fuel : ℕ) : checkLoop (fuel + 1) a m =
    ((checkLoop fuel (nextClump m a) m).1, headerReads m a ++ (checkLoop fuel (nextClump m a) m).2) := by
  rcases checkClump_apply h.1 with ⟨-, hr⟩ | ⟨hn, -⟩
  · rw [checkLoop, Scan.load_bind, if_neg h.1, Scan.bind_ok hr]
    rfl
  · exact absurd h hn

theorem checkLoop_zero {m : Mem} {a : ℕ} (h : m a = 0) (fuel : ℕ) :
    checkLoop (fuel + 1) a m = (.ok a, headerReads m a) := by
  rw [checkLoop, Scan.load_bind, if_pos h, headerReads, if_neg (fun hn => hn.1 h)]
  rfl

theorem checkLoop_stuck {m : Mem} {a : ℕ} (h0 : m a ≠ 0) (h : ¬ Passes m a) (fuel : ℕ) :
    ∃ msg, checkLoop (fuel + 1) a m = (.fatal msg, headerReads m a) := by
  rcases checkClump_apply h0 with ⟨hp, -⟩ | ⟨-, msg, hr⟩
  · exact absurd hp h
  · exact ⟨msg, by rw [checkLoop, Scan.load_bind, if_neg h0, Scan.bind_fatal hr]; rfl⟩

/-- The loop reads the headers it gets past and the one it stops at. It returns at a zero size word and
fails at anything else. -/
theorem checkLoop_of_followed {m : Mem} {b : ℕ} (hb : ¬ Passes m b) : ∀ {os : List ℕ} {a fuel : ℕ},
    Followed m a os b → os.length < fuel →
    (checkLoop fuel a m).2 = (os ++ [b]).flatMap (headerReads m) ∧
    (m b = 0 → (checkLoop fuel a m).1 = .ok b) ∧ (m b ≠ 0 → ∃ msg, (checkLoop fuel a m).1 = .fatal msg)
  | [], a, fuel + 1, hf, _ => by
    obtain rfl : a = b := hf
    by_cases h0 : m a = 0
    · rw [checkLoop_zero h0]
      exact ⟨by simp, fun _ => rfl, fun h => absurd h0 h⟩
    · obtain ⟨msg, hr⟩ := checkLoop_stuck h0 hb fuel
      rw [hr]
      exact ⟨by simp, fun h => absurd h h0, fun _ => ⟨msg, rfl⟩⟩
  | o :: os, a, fuel + 1, hf, hlen => by
    obtain ⟨rfl, hpass, hrest⟩ := hf
    obtain ⟨h1, h2, h3⟩ := checkLoop_of_followed hb hrest (Nat.lt_of_succ_lt_succ hlen)
    rw [checkLoop_pass hpass]
    exact ⟨by rw [h1]; simp, h2, h3⟩

theorem exists_followed {m : Mem} : ∀ {fuel a : ℕ}, (checkLoop fuel a m).1 ≠ .hang →
    ∃ os b, Followed m a os b ∧ ¬ Passes m b ∧ os.length < fuel
  | 0, a, h => absurd rfl h
  | fuel + 1, a, h => by
    by_cases hp : Passes m a
    · rw [checkLoop_pass hp] at h
      obtain ⟨os, b, hf, hb, hlen⟩ := exists_followed h
      exact ⟨a :: os, b, ⟨rfl, hp, hf⟩, hb, by simpa using hlen⟩
    · exact ⟨[], a, rfl, hp, by simp⟩

/-- The loop never comes back to a header it leaves by a size of zero. -/
theorem Followed.size_pos {m : Mem} {b : ℕ} (hb : ¬ Passes m b) : ∀ {os : List ℕ} {a : ℕ}, a < 2 ^ 64 →
    Followed m a os b → ∀ o ∈ os, 0 < clumpSz (m o) := by
  have hstay : ∀ (os : List ℕ) (a : ℕ), Passes m a → nextClump m a = a → ¬ Followed m a os b := by
    intro os a hp hn
    induction os with
    | nil =>
      rintro rfl
      exact hb hp
    | cons o os ih =>
      rintro ⟨rfl, -, hrest⟩
      rw [hn] at hrest
      exact ih hrest
  intro os a ha hf
  induction os generalizing a with
  | nil => simp
  | cons o os ih =>
    obtain ⟨rfl, hpass, hrest⟩ := hf
    refine List.forall_mem_cons.mpr ⟨?_, ih (Nat.mod_lt _ (by omega)) hrest⟩
    by_contra h0
    have hn : nextClump m o = o := by
      rw [nextClump, Nat.eq_zero_of_not_pos h0, Nat.add_zero, Nat.mod_eq_of_lt ha]
    rw [hn] at hrest
    exact hstay os o hpass hn hrest

end PmemExamples.Pool
