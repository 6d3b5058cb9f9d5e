import PmemExamples.Pool.CursorMoves
import PmemExamples.Pool.Free

/-! # Stopping in the middle of a call

Wherever a process stops, the walk of the file is whole and what is pending names the program's own
words (`Stopped`): also when the call works on a block the walk does not meet. -/

namespace PmemExamples.Pool
open Persist Libpmem Tiling
set_option autoImplicit false

/-- A word of the static area or of the clumps. -/
def InPool (e x : ℕ) : Prop := (InStatic x ∨ pmemClumpOffset ≤ x) ∧ x < e

/-- What a process that stops leaves to recovery. -/
structure Stopped (e : ℕ) (d : Mem) (cs : List Clump) : Prop where
  chain : Chain d pmemClumpOffset cs e
  placed : Placed d 0 cs e
  within : Within d cs e
  inPool : ∀ t ∈ pendings d 0 cs, InPool e t.1

theorem Stopped.of_quiet {e : ℕ} {d : Mem} {cs : List Clump} (hc : Chain d pmemClumpOffset cs e)
    (hq : ∀ c ∈ cs, pending d 0 c = []) : Stopped e d cs := by
  have hps : pendings d 0 cs = [] := List.flatMap_eq_nil_iff.mpr hq
  refine ⟨hc, fun c hcm s hs => ?_, fun s hs => ?_, fun t ht => ?_⟩
  · rw [hq c hcm] at hs
    cases hs
  · rw [hps] at hs
    cases hs
  · rw [hps] at ht
    cases ht

theorem Stopped.of_sameOutcome {e : ℕ} {d d' : Mem} {cs cs' : List Clump}
    (h : SameOutcome 0 pmemClumpOffset e d cs d' cs') (ht : ∀ t ∈ pendings d 0 cs, InPool e t.1) :
    Stopped e d' cs' :=
  ⟨h.chain, h.placed, fun s hs => (ht s (h.pendings_sub s hs)).2, fun t htm => ht t (h.pendings_sub t htm)⟩

theorem Owned.inPool {d : Mem} {e g x : ℕ} {ls ts us hs : List Clump} (h : Heap d e g ls ts us hs)
    (hx : Owned hs x) : InPool e x := by
  have hle := h.walk.tiles.le
  rcases hx with hx | ⟨b, hb, hx⟩
  · have := hx.2
    refine ⟨Or.inl hx, ?_⟩
    simp only [pmemStaticOffset, pmemStaticSize, pmemClumpOffset] at this hle
    omega
  · have h1 := h.le_of_fixed (Or.inr (Or.inr (Or.inl ⟨b, hb, rfl⟩)))
    have h2 := h.end_le hb
    obtain ⟨h3, h4⟩ := hx
    exact ⟨Or.inr (by omega), by omega⟩

namespace Heap
variable {d d' : Mem} {e g : ℕ} {ls ts us hs : List Clump} {b : Clump} {s : State}

theorem quiet (h : Heap d e g ls ts us hs) (d' : Mem) : ∀ c ∈ ls ++ us, pending d' 0 c = [] := by
  intro c hc
  refine pending_of_states ?_ d' 0
  rcases h.states c hc with hf | hr | ha
  · exact Or.inl hf
  · exact Or.inr (Or.inl hr)
  · exact Or.inr (Or.inr ha)

theorem stopped (h : Heap d e g ls ts us hs) : ∃ cs, Stopped e d cs :=
  ⟨_, Stopped.of_quiet h.walk (h.quiet d)⟩

theorem congr_take (h : Heap d e g ls ts us hs) {evs : List Event}
    (hw : ∀ ev ∈ evs, ∀ x, ev.Writes x → ¬ Fixed e ls ts us hs x) (k : ℕ) :
    Heap (applyAll (evs.take k) d) e g ls ts us hs :=
  h.congr fun x hx => applyAll_of_not_writes (fun ev hev hwx => hw ev (List.mem_of_mem_take hev) x hwx hx) d

theorem inHeader_private (h : Heap d e g ls ts us hs) (hb : b ∈ hs) {x : ℕ} (h1 : b.addr + 8 ≤ x)
    (h2 : x < b.addr + 64) : Private b x :=
  ⟨h1, by have := (h.held b hb).2.2.1; omega⟩

theorem onOff_private (h : Heap d e g ls ts us hs) (hb : b ∈ hs) {i : ℕ} (hi : i < 3) :
    Private b (onOff b.addr i) := by
  apply h.inHeader_private hb <;> unfold onOff <;> omega

theorem onPtr_private (h : Heap d e g ls ts us hs) (hb : b ∈ hs) {i : ℕ} (hi : i < 3) :
    Private b (onPtr b.addr i) := by
  apply h.inHeader_private hb <;> unfold onPtr <;> omega

theorem block_inPool (h : Heap d e g ls ts us hs) (hb : b ∈ hs) {x : ℕ} (h1 : b.addr ≤ x)
    (h2 : x < b.addr + 64) : InPool e x := by
  have h3 := h.le_of_fixed (Or.inr (Or.inr (Or.inl ⟨b, hb, rfl⟩)))
  have h4 := h.end_le hb
  have h5 := (h.held b hb).2.2.1
  exact ⟨Or.inr (by omega), by omega⟩

section Commit
variable (h : Heap d e g ls ts us hs) (hb : b ∈ hs) (hst : s = .activating ∨ s = .freeing)
  (hown : ∀ t ∈ registered d b, 8 ∣ t.1 ∧ Owned hs t.1)
include h hb hst hown

theorem commit_writes {ev : Event} (hev : ev ∈ commitEvents d b s) {x : ℕ} (hx : ev.Writes x) :
    (x = b.addr ∨ ¬ Fixed e ls ts us hs x) ∧ InPool e x := by
  rcases writes_commitEvents hst hev hx with rfl | ⟨i, hi, rfl⟩ | ⟨t, ht, rfl⟩
  · exact ⟨Or.inl rfl, h.block_inPool hb (le_refl _) (by omega)⟩
  · exact ⟨Or.inr (h.not_fixed_of_private hb (h.onOff_private hb hi)), h.block_inPool hb
      (by unfold onOff; omega) (by unfold onOff; omega)⟩
  · exact ⟨Or.inr (h.not_fixed_of_owned (hown t ht).2), (hown t ht).2.inPool h⟩

theorem commit_stopped (k : ℕ) : ∃ cs, Stopped e (applyAll ((commitEvents d b s).take k) d) cs := by
  rcases h.on_walk_or_inside hb with hw | ⟨f, hf, hft, h1, h2⟩
  · obtain ⟨l, r, hlr⟩ := List.append_of_mem hw
    have hwalk := h.walk
    have hq := h.quiet
    rw [hlr] at hwalk hq
    have hout : ∀ t ∈ registered d b, Outside (l ++ b :: r) e t.1 := fun t ht =>
      hlr ▸ (h.target_of_owned (hown t ht).1 (hown t ht).2).outside h.walk
    have hquiet : ∀ c ∈ l ++ r, ∀ d, pending d 0 c = [] := fun c hc d => hq d c (by
      simp only [List.mem_append, List.mem_cons] at hc ⊢
      tauto)
    cases k with
    | zero => exact h.stopped
    | succ k =>
      obtain ⟨t, hso, -⟩ := commit_cut hwalk hst hquiet hout k
      refine ⟨_, Stopped.of_sameOutcome hso fun t ht => ?_⟩
      rw [pendings_committed hst hquiet] at ht
      exact (hown t ht).2.inPool h
  · -- the walk has no header in the block
    refine ⟨_, Stopped.of_quiet (h.walk.applyAll_of_not_writes (fun c hc ev hev hx => ?_)
      fun ev hev hx => ?_) (h.quiet _)⟩
    · rcases (h.commit_writes hb hst hown (List.mem_of_mem_take hev) hx).1 with ha | hn
      · have hbs := (h.held b hb).2.2.1
        have hcs := h.walk.size_pos hc
        obtain rfl := h.walk.tiles.eq_of_mem_overlap hf hc (x := c.addr) ⟨by omega, by omega⟩
          ⟨le_refl _, by omega⟩
        omega
      · exact hn (Or.inl ⟨c, hc, rfl⟩)
    · rcases (h.commit_writes hb hst hown (List.mem_of_mem_take hev) hx).1 with ha | hn
      · have := h.end_le hb
        have := (h.held b hb).2.2.1
        omega
      · exact hn (Or.inr (Or.inr (Or.inr rfl)))

theorem commit_other {x : ℕ} (hx : Fixed e ls ts us hs x) (hne : x ≠ b.addr) :
    applyAll (commitEvents d b s) d x = d x := by
  refine applyAll_of_not_writes (fun ev hev hw => ?_) d
  rcases (h.commit_writes hb hst hown hev hw).1 with ha | hn
  · exact hne ha
  · exact hn hx

end Commit

theorem activated (h : Heap d e g ls ts us hs) (hb : b ∈ hs)
    (hown : ∀ t ∈ registered d b, 8 ∣ t.1 ∧ Owned hs t.1) :
    Heap (applyAll (commitEvents d b .activating) d) e g (ls.map (Clump.restate b.addr .active))
      (ts.map (Clump.restate b.addr .active)) (us.map (Clump.restate b.addr .active))
      (hs.map (Clump.restate b.addr .active)) :=
  h.hold hb (Or.inr rfl) (applyAll_commitEvents_self (Or.inl rfl) d)
    fun _ hx hne => h.commit_other hb (Or.inl rfl) hown hx hne

section Release
variable (h : Heap d e g ls ts us hs) (hb : b ∈ hs)
  (hown : b.tag = .active → ∀ t ∈ registered d b, 8 ∣ t.1 ∧ Owned hs t.1)
include h hb hown

theorem release_inPool {ev : Event} (hev : ev ∈ releaseEvents d b) {x : ℕ} (hx : ev.Writes x) :
    InPool e x := by
  unfold releaseEvents at hev
  split at hev
  · next ht => exact (h.commit_writes hb (Or.inr rfl) (hown ht) hev hx).2
  · simp only [headerFlush, List.mem_cons, List.not_mem_nil, or_false] at hev
    rcases hev with rfl | rfl
    · exact h.block_inPool hb (le_of_eq hx) (by rw [← show b.addr = x from hx]; omega)
    · exact absurd hx (Event.writes_flush _ _)

theorem released : Heap (applyAll (releaseEvents d b) d) e g (ls.map (Clump.restate b.addr .free))
    (ts.map (Clump.restate b.addr .free)) (us.map (Clump.restate b.addr .free))
    (hs.filter fun c => c.addr ≠ b.addr) := by
  unfold releaseEvents
  split
  · next ht =>
    exact h.release hb (applyAll_commitEvents_self (Or.inr rfl) d)
      fun _ hx hne => h.commit_other hb (Or.inr rfl) (hown ht) hx hne
  · refine h.release hb ?_ fun x _ hne => ?_
    · simp [headerFlush]
    · simp [headerFlush, Function.update_of_ne hne]

theorem release_stopped (k : ℕ) : ∃ cs, Stopped e (applyAll ((releaseEvents d b).take k) d) cs := by
  by_cases ht : b.tag = .active
  · have hev : releaseEvents d b = commitEvents d b .freeing := if_pos ht
    rw [hev]
    exact h.commit_stopped hb (Or.inr rfl) (hown ht) k
  · have hev : releaseEvents d b = [.store b.addr (b.set .free).word, headerFlush b.addr] := if_neg ht
    have hrel := (h.released hb hown).stopped
    rw [hev, headerFlush, applyAll_store, applyAll_flush, applyAll_nil] at hrel
    rw [hev, headerFlush]
    rcases k with _ | _ | k
    · exact h.stopped
    · exact hrel
    · simpa using hrel

end Release

theorem coalesce_stopped (h : Heap d e g ls ts us hs) (k : ℕ) :
    ∃ cs, Stopped e (applyAll ((mergeEvents [] (ls ++ us)).take k) d) cs := by
  have hs₀ := Stopped.of_quiet h.walk (h.quiet d)
  obtain ⟨cs, hso, -⟩ := mergeEvents_cut h.walk hs₀.placed k
  exact ⟨cs, Stopped.of_sameOutcome hso fun t ht => hs₀.inPool t ht⟩

theorem coalesce_inPool (h : Heap d e g ls ts us hs) {ev : Event} (hev : ev ∈ mergeEvents [] (ls ++ us))
    {x : ℕ} (hx : ev.Writes x) : InPool e x := by
  obtain ⟨c, hc, rfl⟩ := writes_mergeEvents hev hx
  rw [List.nil_append] at hc
  have := h.walk.addr_lt hc
  exact ⟨Or.inr (h.walk.tiles.bounds hc).1, by omega⟩

end Heap

end PmemExamples.Pool
