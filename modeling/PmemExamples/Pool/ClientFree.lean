import PmemExamples.Pool.Client
import PmemExamples.Pool.Free

/-! # A client frees a clump

The clump is active and its on-list empty. The client registers the assignment that unlinks it and
frees it: until the freeing is committed a crash recovers to the old structure, from then on to the
new one, and at the end the pool has no two free clumps side by side. -/

namespace PmemExamples.Pool
open Persist Libpmem Tiling
set_option autoImplicit false

namespace Ready
variable {w : World} {p gclp e : ℕ} {cs : List Clump} {c : Clump} {S S' : Mem → List Clump → Prop}

theorem quiescent (h : Ready w p gclp cs e S) : Quiescent w p cs e :=
  ⟨h.mapped, h.chain, h.states, fun _ _ => h.clean _, h.clean _⟩

/-- A file that differs from the process's only in on-lists has the same walk and property. -/
theorem of_onLists (h : Ready w p gclp cs e S) {d : Mem}
    (hd : ∀ x, (∀ b ∈ cs, b.addr + 8 ≤ x → ¬ x < b.addr + 64) → d x = fileAt p w.mem x) :
    Chain d pmemClumpOffset cs e ∧ S d cs := by
  have hapart : ∀ b ∈ cs, ∀ c ∈ cs, ∀ x, b.addr + 8 ≤ x → x < b.addr + 64 → x ≠ c.addr ∧ x ≠ e := by
    intro b hb c hc x h1 h2
    have h3 := h.chain.addr_lt hb
    refine ⟨fun hx => ?_, by omega⟩
    subst hx
    by_cases hbc : b = c
    · subst hbc
      omega
    · exact h.chain.header_disjoint hb hc hbc ⟨by omega, h2⟩ (addr_inHeader c)
  have hout : ∀ x, Outside cs e x → d x = fileAt p w.mem x := fun x hx =>
    hd x fun b hb h1 h2 => hx.headers b hb ⟨by omega, h2⟩
  refine ⟨h.chain.congr (fun c hc => hd _ fun b hb h1 h2 => (hapart b hb c hc _ h1 h2).1 rfl)
    (hd _ fun b hb h1 h2 => (hapart b hb b hb _ h1 h2).2 rfl), ?_⟩
  exact h.stable h.state (fun _ _ => Iff.rfl) (fun x hx => hout x (hx.outside h.chain))
    fun b hb _ x hx => hout x (hx.outside h.chain hb)

/-- Registering an assignment in the empty on-list of an active clump. -/
theorem onfree (h : Ready w p gclp cs e S) (hcm : c ∈ cs) (ht : c.tag = .active)
    (hoff : ∀ i < 3, fileAt p w.mem (onOff c.addr i) = 0) {o : ℕ} (ho : o ≠ 0) (hoe : o < e) (nptr_ : ℕ) :
    Survives w (pmemallocOnfree p (c.addr + 64) (pmem p o) nptr_)
      (fun img => RecoversTo e (fileAt p img) S) fun _ w' => Ready w' p gclp cs e S ∧
        registered (fileAt p w'.mem) c = [(o, nptr_)] ∧
        ∀ x, ¬ c.InHeader x → fileAt p w'.mem x = fileAt p w.mem x := by
  have hfits := h.mapped.fits
  have hparent : off p (pmem p o) = o := by
    rw [pmem_eq (by omega), off_eq (by omega) (by omega)]
    omega
  have hdvd : 64 ∣ c.addr := h.chain.tiles.addr_dvd (by decide) hcm
  have hup : onUp = ([] : List ℕ) ++ 0 :: [1, 2] := rfl
  have hruns := onfree_runs h.mapped (h.chain.addr_lt hcm) (h.chain.word hcm) (h.chain.size_dvd hcm)
    ht hup (hoff 0 (by omega)) (by simp) (pmem p o) nptr_
  rw [hparent] at hruns
  have ho' := orderly_registerEvents hdvd (i := 0) (by omega) o nptr_
  have hwr : ∀ ev ∈ registerEvents c.addr 0 o nptr_, ∀ y, ev.Writes y →
      c.addr + 8 ≤ y ∧ y < c.addr + 64 := by
    intro ev hev y hy
    rcases writes_registerEvents hev hy with rfl | rfl
    · unfold onPtr; omega
    · unfold onOff; omega
  have hcut : ∀ k, Chain (applyAll ((registerEvents c.addr 0 o nptr_).take k) (fileAt p w.mem))
      pmemClumpOffset cs e ∧ S (applyAll ((registerEvents c.addr 0 o nptr_).take k) (fileAt p w.mem)) cs :=
    fun k => h.of_onLists fun x hx => applyAll_of_not_writes (fun ev hev hw => by
      obtain ⟨h1, h2⟩ := hwr ev (List.mem_of_mem_take hev) x hw
      exact hx c hcm h1 h2) _
  constructor
  · intro img hcr
    obtain ⟨j, m₀, hm₀, -, himg⟩ := crashDuring_file h.mapped.aligned hruns (Or.inr h.persisting) ho' hcr
    rw [h.clean.image hm₀] at himg
    rw [himg]
    exact RecoversTo.of_quiet h.stable (hcut j).1 h.states (hcut j).2
  · have hext := hruns.extends_world rfl
    have hmem := (hruns.mem_eq rfl).2
    have hclean := hruns.clean h.persisting (ho'.relocate h.mapped.aligned) h.clean
    have hpers := (hruns.trace_eq rfl h.persisting).2.2
    obtain ⟨w', -, hrun, -⟩ := hruns w rfl
    rw [hrun] at hext hmem hclean hpers
    have hfile : fileAt p w'.mem = applyAll (registerEvents c.addr 0 o nptr_) (fileAt p w.mem) := by
      rw [hmem, fileAt_applyAll]
    have hend := hcut (registerEvents c.addr 0 o nptr_).length
    rw [List.take_length, ← hfile] at hend
    refine ⟨(), w', hrun, hext, ⟨h.mapped, hpers, hclean, hend.1, h.nonempty, h.settled, h.stable, hend.2,
      h.cursor⟩, ?_, fun x hx => ?_⟩
    · rw [hfile, registered_register hoff ho, pmem_eq (by omega), Nat.zero_add]
    · rw [hfile]
      refine applyAll_of_not_writes (fun ev hev hwy => hx ?_) _
      obtain ⟨h1, h2⟩ := hwr ev hev x hwy
      exact ⟨by omega, h2⟩

/-- Freeing the clump, `S'` being what its assignments make of the pool. -/
theorem free (h : Ready w p 0 cs e S) (hcm : c ∈ cs) (ht : c.tag = .active)
    (hout : ∀ s ∈ registered (fileAt p w.mem) c, Outside cs e s.1)
    (hnodup : ((registered (fileAt p w.mem) c).map Prod.fst).Nodup) (hS' : Stable S')
    (hnew : ∀ (d' : Mem) (cs' : List Clump),
      (∀ b : Clump, b.tag = .active → (b ∈ cs' ↔ b ≠ c ∧ b ∈ cs)) →
      (∀ x, Outside cs e x → d' x =
        applyAll (execEvents (registered (fileAt p w.mem) c)) (fileAt p w.mem) x) → S' d' cs') :
    Survives w (pmemallocFree p (c.addr + 64))
      (fun img => RecoversTo e (fileAt p img) S ∨ RecoversTo e (fileAt p img) S')
      fun _ w' => ∃ cs', Ready w' p 0 cs' e S' ∧ Separated State.isFree cs' ∧
        (∀ b : Clump, b.tag = .active → (b ∈ cs' ↔ b ≠ c ∧ b ∈ cs)) ∧
        ∀ b ∈ cs', b.tag = .active → ∀ i < 3, fileAt p w'.mem (onOff b.addr i) = fileAt p w.mem (onOff b.addr i) := by
  obtain ⟨l, r, hcs⟩ := List.append_of_mem hcm
  have hq := h.quiescent
  have hquiet := (hcs ▸ hq).quiet_rest
  have hchain := h.chain
  rw [hcs] at hchain hout
  have hruns := free_runs h.mapped hchain ht hquiet hout
  have hdvd := hq.addr_dvd hcm
  have ho : Orderly (freeEvents (fileAt p w.mem) l c r) :=
    (orderly_commitEvents _ hdvd _).append (orderly_mergeEvents _ _)
  have hdist := distinct_committed (Or.inr rfl) hquiet hnodup
  have hrest : ∀ b ∈ l ++ r, b ≠ c ∧ b ∈ cs := by
    intro b hb
    refine ⟨fun hbc => (hchain.addr_ne.1 b hb) (by rw [hbc]), ?_⟩
    rw [hcs]
    simp only [List.mem_append, List.mem_cons] at hb ⊢
    tauto
  have hback : ∀ b, b ≠ c → b ∈ cs → b ∈ l ++ r := by
    intro b hbc hb
    rw [hcs] at hb
    simp only [List.mem_append, List.mem_cons] at hb ⊢
    tauto
  have hwords : ∀ x, Outside (l ++ c :: r) e x →
      outcome (committed (fileAt p w.mem) c .freeing) 0 (l ++ c.set .freeing :: r) x =
        applyAll (execEvents (registered (fileAt p w.mem) c)) (fileAt p w.mem) x := by
    intro x hx
    rw [outcome, pendings_committed (Or.inr rfl) hquiet]
    refine applyAll_congr_at _ (committed_of_ne ?_)
    rintro rfl
    exact hx.headers c (by simp) (addr_inHeader c)
  constructor
  · intro img hcr
    obtain ⟨j, m₀, hm₀, -, himg⟩ := crashDuring_file h.mapped.aligned hruns (Or.inr h.persisting) ho hcr
    rw [h.clean.image hm₀] at himg
    rw [himg]
    rcases j with _ | j
    · exact Or.inl h.recoversTo
    · right
      have hso : ∃ cs', SameOutcome 0 pmemClumpOffset e (committed (fileAt p w.mem) c .freeing)
          (l ++ c.set .freeing :: r) (applyAll ((freeEvents (fileAt p w.mem) l c r).take (j + 1))
            (fileAt p w.mem)) cs' := by
        rcases applyAll_take_append (commitEvents (fileAt p w.mem) c .freeing)
          (mergeEvents [] (l ++ c.set .free :: r)) (fileAt p w.mem) (j + 1) with ⟨-, hcut⟩ | ⟨-, hcut⟩
        · obtain ⟨t, hso, -⟩ := commit_cut hchain (Or.inr rfl) hquiet hout j
          exact ⟨_, hcut ▸ hso⟩
        · have hfree := commit_done hchain (Or.inr rfl) hquiet hout
          obtain ⟨cs', hso', -⟩ := mergeEvents_cut hfree.chain hfree.placed
            (j + 1 - (commitEvents (fileAt p w.mem) c .freeing).length)
          exact ⟨cs', hcut ▸ hfree.trans hso'⟩
      obtain ⟨cs', hso⟩ := hso
      refine RecoversTo.of_sameOutcome hS' (chain_committed hchain .freeing) hso
        (within_committed (Or.inr rfl) hquiet hout) hdist (hnew _ _ (fun b hbt => ?_) fun x hx => hwords x (hcs ▸ hx))
      rw [active_mem_normalForm_iff hbt]
      constructor
      · rintro ⟨f, hf, rfl⟩
        rcases mem_set_iff.mp hf with rfl | hf
        · cases hbt
        · have hft : f.tag = .active := (h.settled f (hrest f hf).2).resolve_left fun hfree => by
            rw [Clump.settle_tag, hfree] at hbt
            cases hbt
          rw [Clump.settle_of_active hft]
          exact hrest f hf
      · rintro ⟨hbc, hb⟩
        exact ⟨b, mem_set_iff.mpr (Or.inr (hback b hbc hb)), Clump.settle_of_active hbt⟩
  · have hfree := commit_done hchain (Or.inr rfl) hquiet hout
    rw [show State.freeing.settle = State.free from rfl] at hfree
    obtain ⟨cs', hso', hfull⟩ := mergeEvents_cut hfree.chain hfree.placed
      (mergeEvents [] (l ++ c.set .free :: r)).length
    have hso := hfree.trans hso'
    rw [List.take_length, hfull (le_refl _), ← applyAll_append] at hso
    have hext := hruns.extends_world rfl
    have hmem := (hruns.mem_eq rfl).2
    have hclean := hruns.clean h.persisting (ho.relocate h.mapped.aligned) h.clean
    have hpers := (hruns.trace_eq rfl h.persisting).2.2
    obtain ⟨w', -, hrun, -⟩ := hruns w rfl
    rw [hrun] at hext hmem hclean hpers
    have hfile : fileAt p w'.mem = applyAll (commitEvents (fileAt p w.mem) c .freeing ++
        mergeEvents [] (l ++ c.set .free :: r)) (fileAt p w.mem) := by rw [hmem, fileAt_applyAll]; rfl
    rw [← hfile] at hso
    have hsettled : ∀ b ∈ mergeRuns State.isFree (l ++ c.set .free :: r), b.tag = .free ∨ b.tag = .active := by
      intro b hb
      obtain ⟨f, hf, -, hft⟩ := exists_of_mem_mergeRuns hb
      rw [← hft]
      rcases mem_set_iff.mp hf with rfl | hf
      · exact Or.inl rfl
      · exact h.settled f (hrest f hf).2
    have hactive : ∀ b : Clump, b.tag = .active →
        (b ∈ mergeRuns State.isFree (l ++ c.set .free :: r) ↔ b ≠ c ∧ b ∈ cs) := by
      intro b hbt
      rw [mem_mergeRuns_of_not (by rw [hbt]; rfl), mem_set_iff]
      constructor
      · rintro (rfl | hb)
        · cases hbt
        · exact hrest b hb
      · exact fun hb => Or.inr (hback b hb.1 hb.2)
    have hsettle : ∀ b ∈ mergeRuns State.isFree (l ++ c.set .free :: r), b.tag.settle = b.tag := fun b hb => by
      rcases hsettled b hb with hb | hb <;> rw [hb] <;> rfl
    refine ⟨(), w', hrun, hext, _, ⟨h.mapped, hpers, hclean, hso.chain, ?_, hsettled, hS',
      hnew _ _ hactive fun x hx => ?_, Or.inl rfl⟩, mergeRuns_separated _, hactive, fun b hb hbt i hi => ?_⟩
    · rw [ne_eq, mergeRuns_eq_nil]
      simp
    · rw [← hwords x (hcs ▸ hx), ← (hso.words hdist).2 x (outside_set_iff.mpr (hcs ▸ hx)).headers, outcome,
        pendings_of_settled hsettle]
      rfl
    · obtain ⟨hbc, hbm⟩ := (hactive b hbt).mp hb
      obtain ⟨b₀, hb₀, hba, hoff⟩ := hso.origin b hb
      have hbW : b ∈ l ++ c.set .freeing :: r := mem_set_iff.mpr (Or.inr (hback b hbc hbm))
      obtain rfl := (chain_committed hchain .freeing).tiles.eq_of_addr hb₀ hbW hba
      have hne : onOff b₀.addr i ≠ c.addr := fun heq =>
        h.chain.header_disjoint hbm hcm hbc (onOff_inHeader hi) (heq ▸ addr_inHeader c)
      have h1 := hoff i hi
      rwa [finalOff_of_settled (hsettle _ hb), finalOff_of_settled (hsettle _ hb), committed_of_ne hne] at h1

end Ready

end PmemExamples.Pool
