import PmemExamples.Pool.Activate
import PmemExamples.Pool.Reserve
import PmemExamples.Pool.Register

/-! # A client of the pool

A client keeps a data structure in the static area and in active clumps. It reserves a clump, stores
to it, registers its links and activates it. Until the activation only words of the reserved clump
are stored to, so a crash recovers to the old structure; the activation is all or nothing. -/

namespace PmemExamples.Pool
open Persist Libpmem Tiling
set_option autoImplicit false

/-- A property of the static area, of the payloads of active clumps and of which clumps these are. -/
def Stable (S : Mem → List Clump → Prop) : Prop :=
  ∀ {d d' : Mem} {cs cs' : List Clump}, S d cs →
    (∀ c : Clump, c.tag = .active → (c ∈ cs' ↔ c ∈ cs)) → (∀ x, InStatic x → d' x = d x) →
    (∀ c ∈ cs, c.tag = .active → ∀ x, c.InPayload x → d' x = d x) → S d' cs'

/-- Recovery of the file ends in a pool with the property. -/
def RecoversTo (e : ℕ) (d : Mem) (S : Mem → List Clump → Prop) : Prop :=
  ∃ cs, Chain d pmemClumpOffset cs e ∧ Placed d 0 cs e ∧ Within d cs e ∧ Distinct d 0 cs ∧
    S (outcome d 0 cs) (normalForm cs)

theorem active_mem_normalForm_iff {cs : List Clump} {c : Clump} (ht : c.tag = .active) :
    c ∈ normalForm cs ↔ ∃ b ∈ cs, b.settle = c := by
  rw [normalForm, mem_mergeRuns_of_not (by rw [ht]; rfl), List.mem_map]

/-- Among clumps none of which is in transition, the active ones are the settled active ones. -/
theorem active_mem_settle_iff {cs : List Clump} {c : Clump}
    (hs : ∀ b ∈ cs, b.tag = .free ∨ b.tag = .reserved ∨ b.tag = .active) (ht : c.tag = .active) :
    (∃ b ∈ cs, b.settle = c) ↔ c ∈ cs := by
  constructor
  · rintro ⟨b, hb, rfl⟩
    have hbt : b.tag = .active := by
      rcases hs b hb with h | h | h <;> rw [Clump.settle_tag, h] at ht <;> first | exact h | cases ht
    rwa [Clump.settle_of_active hbt]
  · exact fun hc => ⟨c, hc, Clump.settle_of_active ht⟩

theorem RecoversTo.of_sameOutcome {e : ℕ} {d d' : Mem} {cs cs' : List Clump}
    {S : Mem → List Clump → Prop} (hS : Stable S) (hc : Chain d pmemClumpOffset cs e)
    (hso : SameOutcome 0 pmemClumpOffset e d cs d' cs') (hw : Within d cs e) (hd : Distinct d 0 cs)
    (hl : S (outcome d 0 cs) (normalForm cs)) : RecoversTo e d' S := by
  refine ⟨cs', hso.chain, hso.placed, hso.within hw, (hso.words hd).1, ?_⟩
  rw [hso.normal]
  refine hS hl (fun c _ => Iff.rfl) (fun x hx => ?_) fun c hcm ht x hx => ?_
  · exact (hso.words hd).2 _ (hx.outside hc).headers
  · obtain ⟨b, hb, rfl⟩ := (active_mem_normalForm_iff ht).mp hcm
    have hx' : b.InPayload x := hx
    exact (hso.words hd).2 _ (hx'.outside hc hb).headers

theorem RecoversTo.of_quiet {e : ℕ} {d : Mem} {cs : List Clump} {S : Mem → List Clump → Prop}
    (hS : Stable S) (hc : Chain d pmemClumpOffset cs e)
    (hs : ∀ c ∈ cs, c.tag = .free ∨ c.tag = .reserved ∨ c.tag = .active) (hl : S d cs) :
    RecoversTo e d S := by
  have hq : ∀ c ∈ cs, pending d 0 c = [] := fun c hcm => pending_of_states (hs c hcm) d 0
  have hps : pendings d 0 cs = [] := List.flatMap_eq_nil_iff.mpr hq
  refine ⟨cs, hc, fun c hcm s hm => ?_, fun s hm => ?_, fun c hcm => ?_, ?_⟩
  · rw [hq c hcm] at hm; simp at hm
  · rw [hps] at hm; simp at hm
  · rw [hq c hcm]; exact List.nodup_nil
  · rw [outcome, hps]
    exact hS hl (fun c ht => (active_mem_normalForm_iff ht).trans (active_mem_settle_iff hs ht))
      (fun x _ => rfl) fun c _ _ x _ => rfl

/-! ## Between two operations -/

/-- A process with the recovered pool: nothing is reserved and nothing could be lost. -/
structure Ready (w : World) (p gclp : ℕ) (cs : List Clump) (e : ℕ) (S : Mem → List Clump → Prop) :
    Prop where
  mapped : Mapped p e
  persisting : w.Persisting
  clean : w.Clean
  chain : Chain (fileAt p w.mem) pmemClumpOffset cs e
  nonempty : cs ≠ []
  settled : ∀ c ∈ cs, c.tag = .free ∨ c.tag = .active
  stable : Stable S
  state : S (fileAt p w.mem) cs
  cursor : gclp = 0 ∨ ∃ c ∈ cs, gclp = p + c.addr

/-! ## A reserved clump -/

/-- The words of a reserved clump that its owner may store to before the activation: the on-list and
the payload. -/
def Private (c : Clump) (x : ℕ) : Prop := c.addr + 8 ≤ x ∧ x < c.addr + c.size

theorem Clump.InPayload.isPrivate {c : Clump} {x : ℕ} (h : c.InPayload x) : Private c x :=
  ⟨by have := h.1; omega, h.2⟩

/-- A process that has reserved the clump `c`. Only its payload may be dirty. -/
structure Holding (w : World) (p : ℕ) (l : List Clump) (c : Clump) (r : List Clump) (e : ℕ)
    (S : Mem → List Clump → Prop) : Prop where
  mapped : Mapped p e
  persisting : w.Persisting
  chain : Chain (fileAt p w.mem) pmemClumpOffset (l ++ c :: r) e
  settled : ∀ b ∈ l ++ r, b.tag = .free ∨ b.tag = .active
  tag : c.tag = .reserved
  stable : Stable S
  state : S (fileAt p w.mem) (l ++ c :: r)
  durable : ∀ ℓ, (∀ x, c.InPayload x → lineOf (p + x) ≠ ℓ) → Durable w.base w.trace ℓ

namespace Holding
variable {w w' : World} {p e : ℕ} {l r : List Clump} {c : Clump} {S S' : Mem → List Clump → Prop}

theorem mem (_h : Holding w p l c r e S) : c ∈ l ++ c :: r := by simp

theorem states (h : Holding w p l c r e S) :
    ∀ b ∈ l ++ c :: r, b.tag = .free ∨ b.tag = .reserved ∨ b.tag = .active := by
  intro b hb
  by_cases hbc : b = c
  · exact Or.inr (Or.inl (hbc ▸ h.tag))
  · have hb' : b ∈ l ++ r := by
      simp only [List.mem_append, List.mem_cons] at hb ⊢
      tauto
    exact (h.settled b hb').imp_right Or.inr

theorem addr_dvd (h : Holding w p l c r e S) : 64 ∣ c.addr :=
  h.chain.tiles.addr_dvd (by decide) h.mem

/-- The other clumps' headers and payloads, the marker and the static area are not private. -/
theorem not_private (h : Holding w p l c r e S) :
    (∀ b ∈ l ++ c :: r, ¬ Private c b.addr) ∧ ¬ Private c e ∧ (∀ x, InStatic x → ¬ Private c x) ∧
    ∀ b ∈ l ++ c :: r, b.tag = .active → ∀ x, b.InPayload x → ¬ Private c x := by
  have hb := h.chain.tiles.bounds h.mem
  simp only [pmemClumpOffset] at hb
  have hother : ∀ b ∈ l ++ c :: r, b ≠ c → ∀ x, b.addr ≤ x → x < b.addr + b.size → ¬ Private c x := by
    rintro b hbm hbc x h1 h2 ⟨h3, h4⟩
    rcases h.chain.tiles.disjoint hbm h.mem hbc with h' | h' <;> omega
  refine ⟨fun b hbm => ?_, fun ⟨h1, h2⟩ => by omega, fun x hx ⟨h1, h2⟩ => ?_, fun b hbm ht x hx => ?_⟩
  · by_cases hbc : b = c
    · rintro ⟨h1, h2⟩; rw [hbc] at h1; omega
    · have := h.chain.size_pos hbm
      exact hother b hbm hbc _ (by omega) (by omega)
  · have := hx.2
    simp only [pmemStaticOffset, pmemStaticSize] at this
    omega
  · refine hother b hbm (fun hbc => ?_) x (by have := hx.1; omega) hx.2
    rw [hbc, h.tag] at ht
    cases ht

theorem inPayload_of_line (h : Holding w p l c r e S) {x y : ℕ} (hy : c.InPayload y)
    (hl : lineOf (p + y) = lineOf (p + x)) : c.InPayload x := by
  rw [lineOf_add h.mapped.aligned, lineOf_add h.mapped.aligned] at hl
  have hd := h.addr_dvd
  have hs := h.chain.size_dvd h.mem
  obtain ⟨h1, h2⟩ := hy
  unfold lineOf at hl
  constructor <;> omega

theorem durable_of_not_inPayload (h : Holding w p l c r e S) {x : ℕ} (hx : ¬ c.InPayload x) :
    Durable w.base w.trace (lineOf (p + x)) :=
  h.durable _ fun _ hy hl => hx (h.inPayload_of_line hy hl)

theorem durable_of_not_private (h : Holding w p l c r e S) {x : ℕ} (hx : ¬ Private c x) :
    Durable w.base w.trace (lineOf (p + x)) :=
  h.durable_of_not_inPayload fun hp => hx hp.isPrivate

theorem quiescent (h : Holding w p l c r e S) : Quiescent w p (l ++ c :: r) e where
  mapped := h.mapped
  chain := h.chain
  states := h.states
  headers b hb := h.durable_of_not_private (h.not_private.1 b hb)
  marker := h.durable_of_not_private h.not_private.2.1

/-- A file that differs from the process's only in private words has the same walk and property. -/
theorem of_private (h : Holding w p l c r e S) {d : Mem}
    (hd : ∀ x, ¬ Private c x → d x = fileAt p w.mem x) :
    Chain d pmemClumpOffset (l ++ c :: r) e ∧ S d (l ++ c :: r) := by
  obtain ⟨h1, h2, h3, h4⟩ := h.not_private
  exact ⟨h.chain.congr (fun b hb => hd _ (h1 b hb)) (hd _ h2),
    h.stable h.state (fun _ _ => Iff.rfl) (fun x hx => hd _ (h3 x hx))
      fun b hb ht x hx => hd _ (h4 b hb ht x hx)⟩

theorem recoversTo (h : Holding w p l c r e S) {d : Mem}
    (hd : ∀ x, ¬ Private c x → d x = fileAt p w.mem x) : RecoversTo e d S :=
  RecoversTo.of_quiet h.stable (h.of_private hd).1 h.states (h.of_private hd).2

/-- Stores to private words: a crash among them recovers to the old state, and at their end the
process still holds the clump. -/
theorem step {α : Type} {x : Bool} {prog : Prog α} {a : α} {evs : List Event}
    (h : Holding w p l c r e S) (hr : Runs x prog w.mem a (relocate p evs))
    (hw : ∀ ev ∈ evs, ∀ y, ev.Writes y → Private c y)
    (hd : Orderly evs ∨ ∀ ev ∈ evs, ∀ y, ev.Writes y → c.InPayload y) :
    Survives w prog (fun img => RecoversTo e (fileAt p img) S) fun b w' => b = a ∧
      Holding w' p l c r e S ∧ fileAt p w'.mem = applyAll evs (fileAt p w.mem) := by
  constructor
  · intro img hcr
    refine h.recoversTo fun y hy => hr.crash_unwritten hcr (h.durable_of_not_private hy)
      fun ev hev hwr => ?_
    obtain ⟨x, hx, ev', hev', hw'⟩ := writes_relocate hev hwr
    obtain rfl : y = x := Nat.add_left_cancel hx
    exact hy (hw ev' hev' y hw')
  · have hext := hr.extends_world rfl
    obtain ⟨ht, hb, hp⟩ := hr.trace_eq rfl h.persisting
    have hmem := (hr.mem_eq rfl).2
    obtain ⟨w', -, hrun, -⟩ := hr w rfl
    rw [hrun] at hext ht hb hp hmem
    have hfile : fileAt p w'.mem = applyAll evs (fileAt p w.mem) := by rw [hmem, fileAt_applyAll]
    have hkeep : ∀ y, ¬ Private c y → fileAt p w'.mem y = fileAt p w.mem y := by
      intro y hy
      rw [hfile]
      exact applyAll_of_not_writes (fun ev hev hwr => hy (hw ev hev y hwr)) _
    refine ⟨a, w', hrun, hext, rfl, ⟨h.mapped, hp, (h.of_private hkeep).1, h.settled, h.tag, h.stable,
      (h.of_private hkeep).2, fun ℓ hℓ => ?_⟩, hfile⟩
    rw [ht, hb]
    rcases hd with hd | hd
    · exact (h.durable ℓ hℓ).orderly (hd.relocate h.mapped.aligned)
    · refine (h.durable ℓ hℓ).append fun ev hev z hz hl => ?_
      obtain ⟨b, rfl, ev', hev', hw'⟩ := writes_relocate hev hz
      exact hℓ b (hd ev' hev' b hw') hl

theorem register_runs (h : Holding w p l c r e S) (hoff : ∀ i < 3, fileAt p w.mem (onOff c.addr i) = 0)
    {o : ℕ} (hoe : o < e) (nptr_ : ℕ) :
    Runs true (pmemallocOnactive p (c.addr + 64) (pmem p o) nptr_) w.mem ()
      (relocate p (registerEvents c.addr 0 o nptr_)) := by
  have hb := h.chain.tiles.bounds h.mem
  have hsz := h.chain.size_ge h.mem
  have hfits := h.mapped.fits
  have hparent : off p (pmem p o) = o := by
    rw [pmem_eq (by omega), off_eq (by omega) (by omega)]
    omega
  have hfit : c.addr + 64 ≤ e := by omega
  have hup : onUp = ([] : List ℕ) ++ 0 :: [1, 2] := rfl
  have hruns := onactive_runs true h.mapped hfit (h.chain.word h.mem) (h.chain.size_dvd h.mem)
    h.tag hup (hoff 0 (by omega)) (by simp) (pmem p o) nptr_
  rwa [hparent] at hruns

theorem register (h : Holding w p l c r e S) (hoff : ∀ i < 3, fileAt p w.mem (onOff c.addr i) = 0)
    {o : ℕ} (ho : o ≠ 0) (hoe : o < e) (nptr_ : ℕ) :
    Survives w (pmemallocOnactive p (c.addr + 64) (pmem p o) nptr_)
      (fun img => RecoversTo e (fileAt p img) S) fun _ w' => Holding w' p l c r e S ∧
        registered (fileAt p w'.mem) c = [(o, nptr_)] ∧
        ∀ x, ¬ c.InHeader x → fileAt p w'.mem x = fileAt p w.mem x := by
  have hfits := h.mapped.fits
  have hsz := h.chain.size_ge h.mem
  have hruns := h.register_runs hoff hoe nptr_
  have hwr : ∀ ev ∈ registerEvents c.addr 0 o nptr_, ∀ y, ev.Writes y →
      c.addr + 16 ≤ y ∧ y < c.addr + 32 := by
    intro ev hev y hy
    rcases writes_registerEvents hev hy with rfl | rfl
    · unfold onPtr; omega
    · unfold onOff; omega
  refine (h.step hruns (fun ev hev y hy => by have := hwr ev hev y hy; constructor <;> omega)
    (Or.inl (orderly_registerEvents h.addr_dvd (by omega) _ _))).mono (fun _ => id) ?_
  rintro - w' ⟨-, hhold, hfile⟩
  refine ⟨hhold, ?_, fun x hx => ?_⟩
  · rw [hfile, registered_register hoff ho, pmem_eq (by omega), Nat.zero_add]
  · rw [hfile]
    refine applyAll_of_not_writes (fun ev hev hwy => hx ?_) _
    have := hwr ev hev x hwy
    constructor <;> omega

theorem activate_runs (h : Holding w p l c r e S)
    (hout : ∀ s ∈ registered (fileAt p w.mem) c, Outside (l ++ c :: r) e s.1) :
    Runs true (pmemallocActivate p (c.addr + 64)) w.mem () (relocate p (activateEvents (fileAt p w.mem) c)) :=
  Pool.activate_runs true h.mapped (h.chain.tiles.bounds h.mem).2 (h.chain.word h.mem)
    (h.chain.size_pos h.mem) (h.chain.size_dvd h.mem) h.tag
    fun s hs => ⟨(hout s hs).lt, (hout s hs).headers c h.mem⟩

/-- The activation of the clump, `S'` being what its assignments make of the pool. -/
theorem activate (h : Holding w p l c r e S)
    (hout : ∀ s ∈ registered (fileAt p w.mem) c, Outside (l ++ c :: r) e s.1)
    (hnodup : ((registered (fileAt p w.mem) c).map Prod.fst).Nodup) (hS' : Stable S')
    (hnew : ∀ (d' : Mem) (cs' : List Clump),
      (∀ b : Clump, b.tag = .active → (b ∈ cs' ↔ b = c.set .active ∨ b ∈ l ++ c :: r)) →
      (∀ x, Outside (l ++ c :: r) e x → d' x =
        applyAll (execEvents (registered (fileAt p w.mem) c)) (fileAt p w.mem) x) → S' d' cs') :
    Survives w (pmemallocActivate p (c.addr + 64))
      (fun img => RecoversTo e (fileAt p img) S ∨ RecoversTo e (fileAt p img) S')
      fun _ w' => Ready w' p (p + c.addr) (l ++ c.set .active :: r) e S' := by
  have hq := h.quiescent
  have hquiet := hq.quiet_rest
  have hbc : ∀ b : Clump, b.tag = .active → b ≠ c := fun b hbt heq => by rw [heq, h.tag] at hbt; cases hbt
  have hcommitted : ∀ x, Outside (l ++ c :: r) e x →
      applyAll (execEvents (registered (fileAt p w.mem) c)) (committed (fileAt p w.mem) c .activating) x =
        applyAll (execEvents (registered (fileAt p w.mem) c)) (fileAt p w.mem) x := by
    intro x hx
    refine applyAll_congr_at _ (committed_of_ne ?_)
    rintro rfl
    exact hx.headers c h.mem (addr_inHeader c)
  have houtcome : ∀ x, outcome (committed (fileAt p w.mem) c .activating) 0
      (l ++ c.set .activating :: r) x =
      applyAll (execEvents (registered (fileAt p w.mem) c)) (committed (fileAt p w.mem) c .activating) x := by
    intro x
    rw [outcome, pendings_committed (Or.inl rfl) hquiet]
  constructor
  · intro img hcr
    obtain ⟨m₀, hm₀, hold | ⟨hpay, cs', hso⟩⟩ := activate_crash_image rfl hq h.tag hout hcr
    · left
      rw [hold]
      exact h.recoversTo fun x hx => (h.durable_of_not_private hx).image hm₀ rfl
    · right
      -- with the payload in memory nothing of the state before the call is lost
      have hsame : fileAt p m₀ = fileAt p w.mem := by
        funext x
        by_cases hx : c.InPayload x
        · exact hpay x hx
        · exact (h.durable_of_not_inPayload hx).image hm₀ rfl
      rw [hsame] at hso
      refine RecoversTo.of_sameOutcome hS' (chain_committed h.chain .activating) hso
        (within_committed (Or.inl rfl) hquiet hout) (distinct_committed (Or.inl rfl) hquiet hnodup)
        (hnew _ _ (fun b hbt => ?_) fun x hx => (houtcome x).trans (hcommitted x hx))
      rw [active_mem_normalForm_iff hbt]
      constructor
      · rintro ⟨f, hf, rfl⟩
        rcases mem_set_iff.mp hf with rfl | hf
        · exact Or.inl rfl
        · refine Or.inr ((active_mem_settle_iff h.states hbt).mp ⟨f, ?_, rfl⟩)
          simp only [List.mem_append, List.mem_cons] at hf ⊢
          tauto
      · rintro (rfl | hb)
        · exact ⟨c.set .activating, by simp, rfl⟩
        · refine ⟨b, mem_set_iff.mpr (Or.inr ?_), Clump.settle_of_active hbt⟩
          have := hbc b hbt
          simp only [List.mem_append, List.mem_cons] at hb ⊢
          tauto
  · have hdvd := h.chain.size_dvd h.mem
    have hruns := h.activate_runs hout
    obtain ⟨w', -, hrun, -⟩ := hruns w rfl
    have hmem := (hruns.mem_eq rfl).2
    have hext := hruns.extends_world rfl
    obtain ⟨ht, hb, hpers⟩ := hruns.trace_eq rfl h.persisting
    rw [hrun] at hmem hext ht hb hpers
    have hfile : fileAt p w'.mem =
        applyAll (commitEvents (fileAt p w.mem) c .activating) (fileAt p w.mem) := by
      rw [hmem, fileAt_applyAll]
      rfl
    have hso := commit_done h.chain (Or.inl rfl) hquiet hout
    rw [← hfile] at hso
    have hpend : pendings (fileAt p w'.mem) 0 (l ++ c.set .active :: r) = [] := by
      refine List.flatMap_eq_nil_iff.mpr fun b hb => ?_
      rcases mem_set_iff.mp hb with rfl | hb
      · exact pending_of_states (Or.inr (Or.inr rfl)) _ 0
      · exact hquiet b hb _
    have hsettled : ∀ b ∈ l ++ c.set .active :: r, b.tag = .free ∨ b.tag = .active := by
      intro b hb
      rcases mem_set_iff.mp hb with rfl | hb
      · exact Or.inr rfl
      · exact h.settled b hb
    refine ⟨(), w', hrun, hext, h.mapped, hpers, fun ℓ => ?_, hso.chain, by simp, hsettled, hS',
      hnew _ _ (fun b hbt => ?_) fun x hx => ?_, Or.inr ⟨c.set .active, by simp, rfl⟩⟩
    · rw [ht, hb, activateEvents, relocate_flush, List.append_cons]
      refine Durable.orderly ?_ ((orderly_commitEvents _ h.addr_dvd _).relocate h.mapped.aligned)
      by_cases hℓ : ∃ x, c.InPayload x ∧ lineOf (p + x) = ℓ
      · obtain ⟨x, hx, rfl⟩ := hℓ
        refine Durable.flush ?_
        rw [lineOf_add h.mapped.aligned]
        exact List.mem_map_of_mem (payload_mem_clLines hdvd hx)
      · exact (h.durable ℓ fun x hx heq => hℓ ⟨x, hx, heq⟩).snoc (by simp)
    · have := hbc b hbt
      rw [mem_set_iff]
      simp only [List.mem_append, List.mem_cons]
      tauto
    · have h1 := (hso.words (distinct_committed (Or.inl rfl) hquiet hnodup)).2 x
        (outside_set_iff.mpr hx).headers
      rw [show State.activating.settle = State.active from rfl, outcome, hpend, houtcome] at h1
      exact h1.trans (hcommitted x hx)

end Holding

/-! ## Initialising -/

theorem settled_of_mem_normalForm {cs : List Clump} {c : Clump} (h : c ∈ normalForm cs) :
    c.tag = .free ∨ c.tag = .active := by
  obtain ⟨b, hb, -, hbt⟩ := exists_of_mem_mergeRuns h
  obtain ⟨f, -, rfl⟩ := List.mem_map.mp hb
  rw [← hbt]
  exact f.tag.settle_free_or_active

theorem RecoversTo.init {e p : ℕ} {d : Mem} {w : World} {S : Mem → List Clump → Prop}
    (h : RecoversTo e d S) (hS : Stable S) (hlt : pmemClumpOffset < e) (hp : Mapped p e)
    (hb : Booted p d w) :
    Survives w (recovery p) (fun img => RecoversTo e (fileAt p img) S)
      fun _ w' => ∃ cs, Ready w' p 0 cs e S := by
  obtain ⟨cs, hc, hplaced, hw, hd, hs⟩ := h
  have hfile := hb.mem
  have hruns := recovery_runs_at hp (hfile ▸ hc) (hfile ▸ hplaced) (hfile ▸ hw)
  constructor
  · intro img hcr
    have ho := orderly_recoveryEvents (fileAt p w.mem) 0 (by decide) hc.tiles
    obtain ⟨j, hj⟩ := crashDuring_boot hp.aligned hruns hb ho hcr
    obtain ⟨cs', hso, -⟩ := recoveryEvents_cut hc hplaced j
    rw [hfile] at hj
    rw [hj]
    exact RecoversTo.of_sameOutcome hS hc hso hw hd hs
  · have hext := hruns.extends_world rfl
    obtain ⟨w', hrun, hend, hpers, hclean⟩ :=
      recovery_ends (SameOutcome.refl hc hplaced) hd hw (CrashedAttempts.refl d) hp hb
    rw [hrun] at hext
    refine ⟨(), w', hrun, hext, normalForm cs, hp, hpers, hclean, hend.chain, fun hnil => ?_,
      fun c hcm => settled_of_mem_normalForm hcm, hS, ?_, Or.inl rfl⟩
    · have htiles := hend.chain.tiles
      rw [hnil, tiles_nil] at htiles
      omega
    · refine hS hs (fun _ _ => Iff.rfl) (fun x hx => ?_) fun c hcm ht x hx => ?_
      · exact hend.words x (hx.outside hc).headers
      · obtain ⟨b, hbm, rfl⟩ := (active_mem_normalForm_iff ht).mp hcm
        have hx' : b.InPayload x := hx
        exact hend.words x (hx'.outside hc hbm).headers

/-! ## Any build -/

/-- A process whose memory is that of a ready one. What it stored last may be lost. -/
def Poised (w : World) (p gclp : ℕ) (cs : List Clump) (e : ℕ) (S : Mem → List Clump → Prop) : Prop :=
  Ready (World.boot w.mem false fun _ => true) p gclp cs e S

section Poised
variable {w : World} {p gclp e : ℕ} {cs : List Clump} {d : Mem} {S : Mem → List Clump → Prop}

theorem Ready.poised (h : Ready w p gclp cs e S) : Poised w p gclp cs e S :=
  { h with persisting := Or.inl rfl, clean := Durable.boot _ }

/-- Where nothing can be lost it is ready, as far as the build goes. -/
theorem Poised.ready (h : Poised w p gclp cs e S) (hc : w.Clean) : Ready { w with relaxed := false } p gclp cs e S :=
  { h with persisting := Or.inl rfl, clean := hc }

theorem RecoversTo.poised (h : RecoversTo e d S) (hS : Stable S) (hlt : pmemClumpOffset < e) (hp : Mapped p e)
    (hbase : fileAt p w.base = d) (htrace : w.trace = []) :
    ∃ w' cs, recovery p w = (.ok (), w') ∧ Poised w' p 0 cs e S := by
  have hb : Booted p d (World.boot w.base false fun _ => true) := ⟨hbase, rfl, Or.inl rfl⟩
  obtain ⟨-, _, v, hrun, -, cs, hready⟩ := h.init hS hlt hp hb
  obtain ⟨cs₀, hc, hplaced, hw, -⟩ := h
  have hmem : w.mem = w.base := by rw [World.mem, htrace, applyAll_nil]
  have hruns := recovery_runs_at (m := w.base) hp (hbase ▸ hc) (hbase ▸ hplaced) (hbase ▸ hw)
  have hsame : (recovery p w).2.mem = v.mem := by
    rw [(hruns.mem_eq hmem).2, ← (hruns.mem_eq (w := World.boot w.base false fun _ => true) rfl).2, hrun]
  refine ⟨_, cs, Prod.ext (hruns.mem_eq hmem).1 rfl, ?_⟩
  rw [Poised, hsame]
  exact hready.poised

end Poised

/-! ## Reserving a clump -/

namespace Ready
variable {w : World} {p gclp e size : ℕ} {cs : List Clump} {S : Mem → List Clump → Prop}

theorem states (h : Ready w p gclp cs e S) :
    ∀ b ∈ cs, b.tag = .free ∨ b.tag = .reserved ∨ b.tag = .active :=
  fun b hb => (h.settled b hb).imp_right Or.inr

theorem recoversTo (h : Ready w p gclp cs e S) : RecoversTo e (fileAt p w.mem) S :=
  RecoversTo.of_quiet h.stable h.chain h.states h.state

theorem reserve_step (h : Ready w p gclp cs e S) {l r : List Clump} {c₀ : Clump}
    (hcs : cs = l ++ c₀ :: r) (hfit : c₀.Fits (reserveSize size)) (hsize : size + 127 < 2 ^ 64)
    {a : Reserved} (hr : Runs true (pmemallocReserve p gclp size) w.mem a
      (relocate p (reserveEvents c₀ (reserveSize size)))) :
    Survives w (pmemallocReserve p gclp size) (fun img => RecoversTo e (fileAt p img) S)
      fun b w' => b = a ∧ ∃ c r', Holding w' p l c r' e S ∧ c.addr = c₀.addr ∧
        reserveSize size ≤ c.size ∧
        fileAt p w'.mem = applyAll (reserveEvents c₀ (reserveSize size)) (fileAt p w.mem) := by
  subst hcs
  have hn := le_reserveSize hsize
  have hpos : 0 < reserveSize size := by omega
  have hdvd := reserveSize_dvd size
  have hcm : c₀ ∈ l ++ c₀ :: r := by simp
  have hb := h.chain.tiles.bounds hcm
  have hsz := h.chain.size_ge hcm
  have ho : Orderly (reserveEvents c₀ (reserveSize size)) :=
    orderly_reserveEvents (h.chain.tiles.addr_dvd (by decide) hcm) hdvd
  obtain ⟨sz, r₀, hparts, hle, -, hfree⟩ := reservedAs_eq c₀ hfit.2
  have hact : ∀ c : Clump, c.tag = .active → (c ∈ l ++ reservedAs c₀ (reserveSize size) ++ r ↔
      c ∈ l ++ c₀ :: r) := by
    intro c ht
    have h1 : c ≠ c₀ := fun heq => by rw [heq, hfit.1] at ht; cases ht
    have h2 : c ∉ reservedAs c₀ (reserveSize size) := by
      rw [hparts, List.mem_cons]
      rintro (rfl | hc)
      · cases ht
      · rw [hfree c hc] at ht; cases ht
    simp only [List.mem_append, List.mem_cons]
    tauto
  -- the client's words lie outside the free clump
  have hkeep : ∀ j cs', (∀ c : Clump, c.tag = .active → (c ∈ cs' ↔ c ∈ l ++ c₀ :: r)) →
      S (applyAll ((reserveEvents c₀ (reserveSize size)).take j) (fileAt p w.mem)) cs' := by
    intro j cs' hcs'
    have hout : ∀ x, ¬ (c₀.addr ≤ x ∧ x < c₀.addr + c₀.size) →
        applyAll ((reserveEvents c₀ (reserveSize size)).take j) (fileAt p w.mem) x = fileAt p w.mem x :=
      fun x hx => applyAll_of_not_writes
        (fun ev hev hw => hx (reserveEvents_within hsz (List.mem_of_mem_take hev) hw)) _
    refine h.stable h.state hcs' (fun x hx => hout x fun ⟨h1, h2⟩ => ?_)
      fun c hc ht x hx => hout x fun ⟨h1, h2⟩ => ?_
    · have := hx.2
      simp only [pmemStaticOffset, pmemStaticSize, pmemClumpOffset] at this hb
      omega
    · have hx1 := hx.1
      have hx2 := hx.2
      obtain rfl := h.chain.tiles.eq_of_mem_overlap hc hcm ⟨by omega, hx2⟩ ⟨h1, h2⟩
      rw [hfit.1] at ht
      cases ht
  constructor
  · intro img hcr
    obtain ⟨j, m₀, hm₀, -, himg⟩ := crashDuring_file h.mapped.aligned hr (Or.inr h.persisting) ho hcr
    rw [h.clean.image hm₀] at himg
    rw [himg]
    rcases reserve_cut h.chain hpos hdvd hfit.2 j with ⟨-, hc⟩ | hc
    · exact RecoversTo.of_quiet h.stable hc h.states (hkeep j _ fun _ _ => Iff.rfl)
    · refine RecoversTo.of_quiet h.stable hc (fun b hb => ?_) (hkeep j _ hact)
      rw [hparts] at hb
      simp only [List.mem_append, List.mem_cons] at hb
      rcases hb with (hb | rfl | hb) | hb
      · exact h.states b (by simp [hb])
      · exact Or.inr (Or.inl rfl)
      · exact Or.inl (hfree b hb)
      · exact h.states b (by simp [hb])
  · have hext := hr.extends_world rfl
    have hmem := (hr.mem_eq rfl).2
    have hclean := hr.clean h.persisting (ho.relocate h.mapped.aligned) h.clean
    have hpers := (hr.trace_eq rfl h.persisting).2.2
    obtain ⟨w', -, hrun, -⟩ := hr w rfl
    rw [hrun] at hext hmem hclean hpers
    have hfile : fileAt p w'.mem = applyAll (reserveEvents c₀ (reserveSize size)) (fileAt p w.mem) := by
      rw [hmem, fileAt_applyAll]
    have hchain := reserveEvents_chain h.chain hpos hdvd hfit.2
    have hlist : l ++ reservedAs c₀ (reserveSize size) ++ r =
        l ++ ⟨c₀.addr, sz, .reserved⟩ :: (r₀ ++ r) := by
      rw [hparts, List.append_assoc, List.cons_append]
    have hstate := hkeep (reserveEvents c₀ (reserveSize size)).length _ hact
    rw [List.take_length, ← hfile, hlist] at hstate
    rw [← hfile, hlist] at hchain
    refine ⟨a, w', hrun, hext, rfl, ⟨c₀.addr, sz, .reserved⟩, r₀ ++ r,
      ⟨h.mapped, hpers, hchain, fun b hb => ?_, rfl, h.stable, hstate, fun ℓ _ => hclean ℓ⟩, rfl, hle,
      hfile⟩
    simp only [List.mem_append] at hb
    rcases hb with hb | hb | hb
    · exact h.settled b (by simp [hb])
    · exact Or.inl (hfree b hb)
    · exact h.settled b (by simp [hb])

/-- A reservation: the clumps `gs` of the search have none for it, or the process holds one with an empty on-list. -/
theorem reserve (h : Ready w p gclp cs e S) (hsize : size + 127 < 2 ^ 64) :
    Survives w (pmemallocReserve p gclp size) (fun img => RecoversTo e (fileAt p img) S)
      fun res w' => ∃ gs, Chain (fileAt p w.mem) (cursorOff p gclp) gs e ∧
        ((res.ptr_ = 0 ∧ (∀ b ∈ gs, ¬ b.Fits (reserveSize size)) ∧ Ready w' p gclp cs e S) ∨
          (∃ b ∈ gs, b.Fits (reserveSize size)) ∧
            ∃ l c r, res.ptr_ = c.addr + 64 ∧ res.gclp = p + c.addr ∧ Holding w' p l c r e S ∧
              reserveSize size ≤ c.size ∧ ∀ i < 3, fileAt p w'.mem (onOff c.addr i) = 0) := by
  obtain ⟨hg, ps, gs, hcs, hne, hgs⟩ := search_of_walk h.chain h.nonempty h.cursor
  rcases reserve_runs true h.mapped size hg hgs hne with
    ⟨l, c₀, r, hgs', hfit, -, hr⟩ | ⟨hnone, hr⟩
  · have hcs' : cs = (ps ++ l) ++ c₀ :: r := by rw [hcs, hgs', List.append_assoc]
    refine (h.reserve_step hcs' hfit hsize hr).mono (fun _ => id) ?_
    rintro res w' ⟨rfl, c, r', hhold, haddr, hle, hfile⟩
    refine ⟨gs, hgs, Or.inr ⟨⟨c₀, by simp [hgs'], hfit⟩, _, c, r', by rw [haddr], by rw [haddr], hhold, hle, ?_⟩⟩
    intro i hi
    rw [hfile, haddr]
    exact reserveEvents_off hi
  · constructor
    · intro img hcr
      have hr' : Runs true (pmemallocReserve p gclp size) w.mem _ (relocate p []) := hr
      obtain ⟨j, m₀, hm₀, -, himg⟩ := crashDuring_file h.mapped.aligned hr' (Or.inr h.persisting)
        Orderly.nil hcr
      rw [h.clean.image hm₀, List.take_nil, applyAll_nil] at himg
      rw [himg]
      exact h.recoversTo
    · have hext := hr.extends_world rfl
      have hmem := (hr.mem_eq rfl).2
      have hclean := hr.clean h.persisting Orderly.nil h.clean
      have hpers := (hr.trace_eq rfl h.persisting).2.2
      obtain ⟨w', -, hrun, -⟩ := hr w rfl
      rw [hrun] at hext hmem hclean hpers
      have hmem' : w'.mem = w.mem := hmem
      refine ⟨_, w', hrun, hext, gs, hgs, Or.inl ⟨rfl, hnone, h.mapped, hpers, hclean, ?_, h.nonempty, h.settled,
        h.stable, ?_, h.cursor⟩⟩
      · rw [hmem']; exact h.chain
      · rw [hmem']; exact h.state

/-! ## Stores to a clump that is linked -/

theorem of_inPayload (h : Ready w p gclp cs e S) {b : Clump} (hb : b ∈ cs) {d : Mem}
    (hd : ∀ y, ¬ b.InPayload y → d y = fileAt p w.mem y) : Chain d pmemClumpOffset cs e :=
  h.chain.congr (fun c hc => hd _ fun hin => (hin.outside h.chain hb).headers c hc (addr_inHeader c))
    (hd _ fun hin => absurd (hin.outside h.chain hb).lt (lt_irrefl e))

/-- A routine that stores to one payload and flushes what it stored. -/
theorem store_step {α : Type} {S' : Mem → List Clump → Prop} (h : Ready w p gclp cs e S) {b : Clump} (hb : b ∈ cs)
    {x : Bool} {prog : Prog α} {a : α} {evs : List Event} {ls : List ℕ}
    (hr : Runs x prog w.mem a (relocate p (evs ++ [.flush ls])))
    (hw : ∀ ev ∈ evs, ∀ y, ev.Writes y → b.InPayload y ∧ lineOf y ∈ ls) (hS' : Stable S')
    (hs : S' (applyAll evs (fileAt p w.mem)) cs) :
    Survives w prog (fun img => ∀ y, ¬ b.InPayload y → fileAt p img y = fileAt p w.mem y)
      fun b w' => b = a ∧ Ready w' p gclp cs e S' := by
  have hwr : ∀ ev ∈ evs ++ [.flush ls], ∀ y, ev.Writes y → b.InPayload y := by
    intro ev hev y hy
    rcases List.mem_append.mp hev with hev | hev
    · exact (hw ev hev y hy).1
    · rw [List.mem_singleton.mp hev] at hy
      exact absurd hy (Event.writes_flush _ _)
  constructor
  · intro img hcr y hy
    refine hr.crash_unwritten hcr (h.clean _) fun ev hev hwy => hy ?_
    obtain ⟨z, hz, ev', hev', hw'⟩ := writes_relocate hev hwy
    obtain rfl : y = z := Nat.add_left_cancel hz
    exact hwr ev' hev' y hw'
  · have hext := hr.extends_world rfl
    obtain ⟨ht, hbase, hpers⟩ := hr.trace_eq rfl h.persisting
    have hmem := (hr.mem_eq rfl).2
    obtain ⟨w', -, hrun, -⟩ := hr w rfl
    rw [hrun] at hext ht hbase hpers hmem
    have hfile : fileAt p w'.mem = applyAll evs (fileAt p w.mem) := by
      rw [hmem, fileAt_applyAll, applyAll_append]
      rfl
    refine ⟨a, w', hrun, hext, rfl, h.mapped, hpers, fun ℓ => ?_, ?_, h.nonempty, h.settled, hS', hfile ▸ hs, h.cursor⟩
    · rw [ht, hbase, relocate_append, relocate_flush, relocate_nil]
      refine (h.clean ℓ).flushed fun ev hev z hz => ?_
      obtain ⟨y, rfl, ev', hev', hw'⟩ := writes_relocate hev hz
      rw [lineOf_add h.mapped.aligned]
      exact List.mem_map_of_mem (hw ev' hev' y hw').2
    · refine h.of_inPayload hb fun y hy => ?_
      rw [hfile]
      exact applyAll_of_not_writes (fun ev hev hwy => hy (hw ev hev y hwy).1) _

end Ready

end PmemExamples.Pool
