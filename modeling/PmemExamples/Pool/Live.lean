import PmemExamples.Pool.Calls
import PmemExamples.Pool.Recovery

/-! # Live allocations

In a run in which no reservation is taken off the walk, every pointer the process holds is the payload
of one clump of the walk (`live_of_reservesOnWalk`). A cursor left behind by a merge breaks it. -/

namespace PmemExamples.Pool
open Persist Libpmem Tiling
set_option autoImplicit false

/-- The walk meets every live allocation, at a clump of its own that is big enough. -/
def Live (e : ℕ) (d : Mem) (s : Client) : Prop := ∃ cs, Chain d pmemClumpOffset cs e ∧
  (∀ q ∈ s.held, ∃ c ∈ cs, c.addr + 64 = q.ptr_ ∧ c.tag.IsHeld ∧ q.size + 64 ≤ c.size ∧
    ∀ b ∈ cs, b.addr + 64 = q.ptr_ → b = c) ∧
  s.held.Pairwise fun q q' => q.ptr_ + q.size ≤ q'.ptr_ ∨ q'.ptr_ + q'.size ≤ q.ptr_

theorem Serves.isLive {d : Mem} {e p : ℕ} {s : Client} {live : Prop} (h : Serves d e p s live)
    (hl : live) : Live e d s := by
  obtain ⟨-, ls, ts, us, hs, hheap, hb, hlive⟩ := h
  have hon := hlive hl
  have htiles := hheap.walk.tiles
  refine ⟨_, hheap.walk, fun q hq => ?_, ?_⟩
  · obtain ⟨b, hbm, hba, hbs⟩ := hb.block q hq
    exact ⟨b, hon b hbm, hba, (hheap.held b hbm).1, hbs, fun c hc hca =>
      htiles.eq_of_addr hc (hon b hbm) (by omega)⟩
  · refine (List.pairwise_map.mp hb.nodup).imp_of_mem fun {q q'} hq hq' hne => ?_
    obtain ⟨b, hbm, hba, hbs⟩ := hb.block q hq
    obtain ⟨b', hbm', hba', hbs'⟩ := hb.block q' hq'
    have hbb : b ≠ b' := fun heq => hne (by rw [← hba, ← hba', heq])
    rcases htiles.disjoint (hon b hbm) (hon b' hbm') hbb with h | h <;> omega

/-! ## A created pool -/

/-- `pmemalloc_init` of a pool it creates leaves the file as it was created. -/
theorem init_file {size p : ℕ} (hsize : pmemMinPoolSize ≤ size) (hp : Mapped p (lastClumpOff size))
    (relaxed : Bool) (epoch : ℕ → Bool) : ∃ f w₀, createPool size = .ok f ∧
      pmemallocInit none size p relaxed epoch = .ok (.ok (), w₀) ∧
      Chain (fileAt p w₀.mem) pmemClumpOffset (createdWalk (lastClumpOff size)) (lastClumpOff size) ∧
      (∀ x < size, fileAt p w₀.mem x = f.data x) ∧ w₀.mem = pmemMap p f ∧ w₀.Clean := by
  obtain ⟨f, hf⟩ : ∃ f, createPool size = .ok f := ⟨_, if_neg (by omega)⟩
  obtain ⟨hfs, hsz, hlt, hc⟩ := created_chain hf
  have hmap : Chain (fileAt p (pmemMap p f)) pmemClumpOffset (createdWalk (lastClumpOff size))
      (lastClumpOff size) :=
    hc.congr (fun c hcm => fileAt_pmemMap (by have := hc.addr_lt hcm; omega)) (fileAt_pmemMap (by omega))
  have hfree : ∀ c ∈ createdWalk (lastClumpOff size), c.tag = .free := by simp [createdWalk]
  have hst := Stopped.of_quiet hmap fun c hcm => pending_of_settled (by rw [hfree c hcm]; rfl)
  have hruns := recovery_runs_at (m := (World.boot (pmemMap p f) relaxed epoch).mem) hp hst.chain
    hst.placed hst.within
  -- recovery has nothing to do
  have hnil : recoveryEvents (fileAt p (pmemMap p f)) 0 (createdWalk (lastClumpOff size)) = [] :=
    recoveryEvents_normalForm _ 0 (createdWalk (lastClumpOff size))
  rw [World.mem_boot, hnil] at hruns
  obtain ⟨hres, hmem⟩ := hruns.mem_eq (World.mem_boot _ relaxed epoch)
  refine ⟨f, (recovery p (World.boot (pmemMap p f) relaxed epoch)).2, hf, ?_, ?_, fun x hx => ?_, hmem,
    hruns.clean_of_no_stores (World.mem_boot _ relaxed epoch) rfl fun ℓ => Durable.boot _ ℓ⟩
  · rw [pmemallocInit, hf]
    exact congrArg Except.ok (Prod.ext hres rfl)
  · rw [hmem]
    exact hmap
  · rw [hmem]
    exact fileAt_pmemMap (by omega)

theorem init_serves {size p : ℕ} (hsize : pmemMinPoolSize ≤ size) (hp : Mapped p (lastClumpOff size))
    (relaxed : Bool) (epoch : ℕ → Bool) : ∃ w₀, pmemallocInit none size p relaxed epoch = .ok (.ok (), w₀) ∧
      Serves (fileAt p w₀.mem) (lastClumpOff size) p ⟨0, []⟩ True ∧
      fileAt p w₀.mem pmemHdrOffset = signature0 ∧ fileAt p w₀.mem (pmemHdrOffset + 8) = signature1 := by
  obtain ⟨f, w₀, hf, hinit, hc, hsame, -⟩ := init_file hsize hp relaxed epoch
  obtain ⟨-, hsz, hlt, -⟩ := created_chain hf
  obtain ⟨hs₀, hs₁⟩ := created_signature hf
  have hfree : ∀ c ∈ createdWalk (lastClumpOff size), c.tag = .free := by simp [createdWalk]
  simp only [pmemClumpOffset] at hlt
  refine ⟨w₀, hinit, ⟨Or.inl rfl, [], [], createdWalk (lastClumpOff size), [], ?_, ?_, ?_⟩, ?_, ?_⟩
  · exact
      { walk := hc
        search := hc
        nonempty := by simp [createdWalk]
        gap := Or.inl rfl
        states := fun c hcm => Or.inl (hfree c hcm)
        held := by simp
        place := by simp
        apart := by simp }
  · exact ⟨by simp, List.nodup_nil⟩
  · simp
  · rw [hsame _ (by simp only [pmemHdrOffset]; omega), hs₀]
  · rw [hsame _ (by simp only [pmemHdrOffset]; omega), hs₁]

/-- In every run on a created pool in which no reservation is taken off the walk, every live
allocation is on the walk, and every legal call returns. -/
theorem live_of_reservesOnWalk {size p : ℕ} (hsize : pmemMinPoolSize ≤ size)
    (hp : Mapped p (lastClumpOff size)) (relaxed : Bool) (epoch : ℕ → Bool) :
    ∃ w₀, pmemallocInit none size p relaxed epoch = .ok (.ok (), w₀) ∧
      ∀ w s, Reached p w₀ (ReservesOnWalk (lastClumpOff size) p) w s →
        Live (lastClumpOff size) (fileAt p w.mem) s ∧
        ∀ c : Call, c.Legal (fileAt p w.mem) s → ∃ s' w', c.prog p s w = (.ok s', w') := by
  obtain ⟨w₀, hinit, h₀, -⟩ := init_serves hsize hp relaxed epoch
  refine ⟨w₀, hinit, fun w s hr => ?_⟩
  have hserves := hr.serves hp h₀
  refine ⟨hserves.isLive fun _ _ _ h => h, fun c hl => ?_⟩
  obtain ⟨s', evs, hruns, -⟩ := Call.goes hp hserves hl
  exact ⟨s', _, Prod.ext ((hruns w.mem fun _ _ => rfl).mem_eq rfl).1 rfl⟩

/-! ## A run that leaves the walk -/

theorem Reached.next {p : ℕ} {w₀ w : World} {s s' : Client} {cond : Mem → Client → Call → Prop} {c : Call}
    (h : Reached p w₀ cond w s) (hl : c.Legal (fileAt p w.mem) s) (hc : cond (fileAt p w.mem) s c)
    (hr : (c.prog p s w).1 = .ok s') : Reached p w₀ cond (c.prog p s w).2 s' :=
  .call h hl hc (Prod.ext hr rfl)

/-- A megabyte pool just created. -/
def megabytePool : World :=
  World.boot (pmemMap 65536 ⟨1048576, applyAll
    [.store 16384 1032128, .store 12288 signature0, .store 12296 signature1, .store 12304 1048576]
    fun _ => 0⟩) false fun _ => true

theorem init_megabytePool :
    pmemallocInit none 1048576 65536 false (fun _ => true) = .ok (.ok (), megabytePool) := rfl

/-- The pool with one small block reserved. -/
def oneBlock : World := (Call.prog 65536 ⟨0, []⟩ (.reserve 10) megabytePool).2

/-- Two small blocks reserved, and both freed again: they are merged into one free clump, and the
cursor is at the header of the second, which the walk no longer meets. -/
def mergedPool : World :=
  let w := (Call.prog 65536 ⟨81920, [⟨16448, 10⟩]⟩ (.reserve 10) oneBlock).2
  let w := (Call.prog 65536 ⟨82048, [⟨16576, 10⟩, ⟨16448, 10⟩]⟩ (.free 16448) w).2
  (Call.prog 65536 ⟨82048, [⟨16576, 10⟩]⟩ (.free 16576) w).2

/-- The next reservation. -/
def lostBlock : World := (Call.prog 65536 ⟨82048, []⟩ (.reserve 10) mergedPool).2

instance (s : Client) (d : Mem) (ptr_ : ℕ) (t : State) : Decidable (s.Holds d ptr_ t) :=
  inferInstanceAs (Decidable ((∃ q ∈ s.held, q.ptr_ = ptr_) ∧ clumpState (d (headerOf ptr_)) = t.code))

theorem legal_ten {d : Mem} {s : Client} : Call.Legal d s (.reserve 10) :=
  show 10 + 127 < 2 ^ 64 by decide

/-- Two small blocks reserved, and the first one freed. -/
def secondBlock : World := (Call.prog 65536 ⟨81920, [⟨16448, 10⟩]⟩ (.reserve 10) oneBlock).2
def firstFreed : World := (Call.prog 65536 ⟨82048, [⟨16576, 10⟩, ⟨16448, 10⟩]⟩ (.free 16448) secondBlock).2

/-- A third one reserved, behind the second. -/
def thirdBlock : World := (Call.prog 65536 ⟨82048, [⟨16576, 10⟩]⟩ (.reserve 10) firstFreed).2

/-- Three reservations and a free, every search from a clump of the walk. -/
theorem live_of_reservesOnWalk_thirdBlock :
    Reached 65536 megabytePool (ReservesOnWalk 1048512 65536) thirdBlock ⟨82176, [⟨16704, 10⟩, ⟨16576, 10⟩]⟩ ∧
      Live 1048512 (fileAt 65536 thirdBlock.mem) ⟨82176, [⟨16704, 10⟩, ⟨16576, 10⟩]⟩ := by
  have hsize : pmemMinPoolSize ≤ 1048576 := by decide
  obtain ⟨w₀, hinit, hlive⟩ :=
    live_of_reservesOnWalk (p := 65536) hsize ⟨by decide, by decide⟩ false fun _ => true
  obtain rfl : megabytePool = w₀ := by
    rw [init_megabytePool] at hinit
    exact congrArg Prod.snd (Except.ok.inj hinit)
  have h₁ : Reached 65536 megabytePool (ReservesOnWalk 1048512 65536) oneBlock ⟨81920, [⟨16448, 10⟩]⟩ := by
    refine Reached.init.next (c := .reserve 10) legal_ten (fun cs gs hcs hgs c hc _ => ?_) (by decide +kernel)
    obtain ⟨rfl, -⟩ := hcs.unique hgs
    exact hc
  have h₂ : Reached 65536 megabytePool (ReservesOnWalk 1048512 65536) secondBlock
      ⟨82048, [⟨16576, 10⟩, ⟨16448, 10⟩]⟩ := by
    refine h₁.next (c := .reserve 10) legal_ten (fun cs gs hcs hgs c hc _ => ?_) (by decide +kernel)
    obtain ⟨rfl, -⟩ := hcs.unique hgs
    exact hc
  have h₃ : Reached 65536 megabytePool (ReservesOnWalk 1048512 65536) firstFreed ⟨82048, [⟨16576, 10⟩]⟩ :=
    h₂.next (c := .free 16448) (Or.inl (by decide +kernel)) trivial (by decide +kernel)
  have h₄ : Reached 65536 megabytePool (ReservesOnWalk 1048512 65536) thirdBlock
      ⟨82176, [⟨16704, 10⟩, ⟨16576, 10⟩]⟩ := by
    refine h₃.next (c := .reserve 10) legal_ten (fun cs gs hcs hgs c hc _ => ?_) (by decide +kernel)
    -- the search starts at the second clump
    have hwalk : Chain (fileAt 65536 firstFreed.mem) pmemClumpOffset
        [⟨16384, 128, .free⟩, ⟨16512, 128, .reserved⟩, ⟨16640, 1031872, .free⟩] 1048512 :=
      ⟨⟨rfl, by decide, by decide, rfl, by decide, by decide, rfl, by decide, by decide, rfl⟩, by decide +kernel,
        by decide +kernel⟩
    have hsearch : Chain (fileAt 65536 firstFreed.mem) (cursorOff 65536 82048)
        [⟨16512, 128, .reserved⟩, ⟨16640, 1031872, .free⟩] 1048512 :=
      ⟨⟨rfl, by decide, by decide, rfl, by decide, by decide, rfl⟩, by decide +kernel, by decide +kernel⟩
    obtain ⟨rfl, -⟩ := hwalk.unique hcs
    obtain ⟨rfl, -⟩ := hsearch.unique hgs
    exact List.mem_cons_of_mem _ hc
  exact ⟨h₄, (hlive _ _ h₄).1⟩

/-- The last block reserved is not on the walk. -/
theorem lostBlock_not_live :
    pmemallocInit none 1048576 65536 false (fun _ => true) = .ok (.ok (), megabytePool) ∧
      Reached 65536 megabytePool (fun _ _ _ => True) lostBlock ⟨82048, [⟨16576, 10⟩]⟩ ∧
      ¬ Live 1048512 (fileAt 65536 lostBlock.mem) ⟨82048, [⟨16576, 10⟩]⟩ := by
  refine ⟨init_megabytePool, ?_, ?_⟩
  · have h₁ : Reached 65536 megabytePool (fun _ _ _ => True) oneBlock ⟨81920, [⟨16448, 10⟩]⟩ :=
      Reached.init.next (c := .reserve 10) legal_ten trivial (by decide +kernel)
    have h₂ : Reached 65536 megabytePool (fun _ _ _ => True) _ ⟨82048, [⟨16576, 10⟩, ⟨16448, 10⟩]⟩ :=
      h₁.next (c := .reserve 10) legal_ten trivial (by decide +kernel)
    have h₃ : Reached 65536 megabytePool (fun _ _ _ => True) _ ⟨82048, [⟨16576, 10⟩]⟩ :=
      h₂.next (c := .free 16448) (Or.inl (by decide +kernel)) trivial (by decide +kernel)
    have h₄ : Reached 65536 megabytePool (fun _ _ _ => True) mergedPool ⟨82048, []⟩ :=
      h₃.next (c := .free 16576) (Or.inl (by decide +kernel)) trivial (by decide +kernel)
    exact h₄.next (c := .reserve 10) legal_ten trivial (by decide +kernel)
  · rintro ⟨cs, hc, hlive, -⟩
    have hwalk : Chain (fileAt 65536 lostBlock.mem) pmemClumpOffset [⟨16384, 1032128, .free⟩] 1048512 :=
      ⟨⟨rfl, by decide, by decide, rfl⟩, by decide +kernel, by decide +kernel⟩
    obtain ⟨rfl, -⟩ := hc.unique hwalk
    obtain ⟨c, hcm, -, hheld, -⟩ := hlive ⟨16576, 10⟩ (by simp)
    rw [List.mem_singleton] at hcm
    subst hcm
    exact hheld.ne_free rfl

end PmemExamples.Pool
