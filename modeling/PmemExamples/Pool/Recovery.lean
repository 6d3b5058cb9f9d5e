import PmemExamples.Pool.RecoveryCut

/-! # Recovery: `pmemalloc_recover`, then `pmemalloc_coalesce_free`

What the whole of it computes (`recovery_normal_form`). -/

namespace PmemExamples.Pool
open Persist Libpmem Tiling
set_option autoImplicit false

theorem recovery_runs {pmp e : ℕ} {m : Mem} {cs : List Clump}
    (hc : Chain m (pmp + pmemClumpOffset) cs e) (hp : Placed m pmp cs e) (he : e < 2 ^ 64) :
    Runs false (recovery pmp) m () (recoveryEvents m pmp cs) := by
  have ha : pmem pmp pmemClumpOffset = pmp + pmemClumpOffset :=
    pmem_eq (lt_of_le_of_lt hc.tiles.le he)
  have h1 : Runs false (pmemallocRecover pmp) m () (cs.flatMap (recoverEvents m pmp)) := by
    rw [pmemallocRecover, ha]
    exact recoverLoop_runs false hc hp (hc.length_lt he)
  obtain ⟨cs', hso, hfull⟩ := recoverPass_cut (l := []) hc hp (by simp)
    (cs.flatMap (recoverEvents m pmp)).length
  rw [List.take_length] at hso
  obtain rfl := hfull (le_refl _)
  exact Runs.seq h1 (coalesce_runs hso.chain he)

/-- Outside the headers the first loop stores to nothing but the pending destinations. -/
theorem recoverPass_words {pmp : ℕ} {x : ℕ} :
    ∀ {cs : List Clump} {m : Mem} (m₁ : Mem), (∀ c ∈ cs, ¬ c.InHeader x) →
      applyAll (cs.flatMap (recoverEvents m pmp)) m₁ x =
        applyAll (execEvents (pendings m pmp cs)) m₁ x
  | [], _, _, _ => rfl
  | c :: cs, m, m₁, hx => by
    have ih : ∀ m₂ : Mem, applyAll (cs.flatMap (recoverEvents m pmp)) m₂ x =
        applyAll (execEvents (pendings m pmp cs)) m₂ x :=
      fun m₂ => recoverPass_words m₂ fun b hb => hx b (List.mem_cons_of_mem _ hb)
    have hc := hx c List.mem_cons_self
    rw [List.flatMap_cons, pendings_cons, execEvents_append, applyAll_append, applyAll_append, ih]
    refine applyAll_congr_at _ ?_
    unfold recoverEvents
    split
    · next hs => rw [pending_of_settled hs]; rfl
    · rw [applyAll_append]
      refine applyAll_of_not_writes (fun ev hev hw => hc ?_) _
      rcases writes_finishEvents hev hw with rfl | ⟨i, hi, rfl⟩
      · exact addr_inHeader c
      · exact onOff_inHeader hi

theorem recovery_words {pmp x : ℕ} {m : Mem} {cs : List Clump} (hx : ∀ c ∈ cs, ¬ c.InHeader x) :
    applyAll (recoveryEvents m pmp cs) m x = outcome m pmp cs x := by
  rw [recoveryEvents, applyAll_append, outcome, ← recoverPass_words m hx]
  refine applyAll_of_not_writes (fun ev hev hw => ?_) _
  obtain ⟨b, hb, rfl⟩ := writes_mergeEvents hev hw
  obtain ⟨c, hc, rfl⟩ := List.mem_map.mp (by simpa using hb)
  exact hx c hc (addr_inHeader c)

theorem recoveryEvents_normalForm (m : Mem) (pmp : ℕ) (cs : List Clump) :
    recoveryEvents m pmp (normalForm cs) = [] := by
  have hs : ∀ c ∈ normalForm cs, c.tag.settle = c.tag := by
    intro c hc
    obtain ⟨b, hb, -, hbt⟩ := exists_of_mem_mergeRuns hc
    rw [← hbt]
    exact map_settle_tag b hb
  have hmap : (normalForm cs).map Clump.settle = normalForm cs := by
    refine (List.map_congr_left fun c hc => ?_).trans (List.map_id _)
    show c.set c.tag.settle = c
    rw [hs c hc, Clump.set_self]
  have hsep : Separated State.isFree ([] ++ normalForm cs) := mergeRuns_separated _
  have h1 : (normalForm cs).flatMap (recoverEvents m pmp) = [] :=
    List.flatMap_eq_nil_iff.mpr fun c hc => recoverEvents_of_settled (hs c hc)
  rw [recoveryEvents, hmap, mergeEvents_of_separated hsep (by simp) (by simp), h1]
  rfl

theorem active_mem_normalForm {cs : List Clump} {c : Clump} (hc : c ∈ cs) (ht : c.tag.settle = .active) :
    c.settle ∈ normalForm cs :=
  (mem_mergeRuns_of_not (by rw [Clump.settle_tag, ht]; rfl)).mpr (List.mem_map_of_mem hc)

theorem mem_normalForm_of_active {cs : List Clump} {c : Clump} (hc : c ∈ cs) (ht : c.tag = .active) :
    c ∈ normalForm cs := by
  have h := active_mem_normalForm hc (by rw [ht]; rfl)
  rwa [Clump.settle_of_active ht] at h

/-- Recovery computes the normal form of the walk. `ACTIVE` clumps and the total size are kept, of
the words outside headers only pending destinations change, and a second recovery does nothing. -/
theorem recovery_normal_form {pmp e : ℕ} {cs : List Clump} {w : World}
    (hc : Chain w.mem (pmp + pmemClumpOffset) cs e) (hp : Placed w.mem pmp cs e) (he : e < 2 ^ 64) :
    ∃ w', recovery pmp w = (.ok (), w') ∧
      Chain w'.mem (pmp + pmemClumpOffset) (normalForm cs) e ∧
      Separated State.isFree (normalForm cs) ∧
      (∀ c ∈ cs, c.tag = .active → c ∈ normalForm cs) ∧
      ((normalForm cs).map Block.size).sum = (cs.map Block.size).sum ∧
      (∀ x, (∀ c ∈ cs, ¬ c.InHeader x) → w'.mem x = outcome w.mem pmp cs x) ∧
      (∀ x, (∀ c ∈ cs, ¬ c.InHeader x) → (∀ c ∈ cs, ∀ s ∈ pending w.mem pmp c, s.1 ≠ x) →
        w'.mem x = w.mem x) ∧
      ∀ w₂ : World, w₂.mem = w'.mem → ∃ w₃, recovery pmp w₂ = (.ok (), w₃) ∧ w₃.mem = w'.mem := by
  have hruns := recovery_runs hc hp he
  obtain ⟨w', evs', hrun, -⟩ := hruns w rfl
  have hmem : w'.mem = applyAll (recoveryEvents w.mem pmp cs) w.mem := by
    have := (hruns.mem_eq rfl).2
    rwa [hrun] at this
  obtain ⟨cs', hso, hfull⟩ := recoveryEvents_cut hc hp (recoveryEvents w.mem pmp cs).length
  rw [List.take_length, ← hmem] at hso
  obtain rfl := hfull (le_refl _)
  have hwords : ∀ x, (∀ c ∈ cs, ¬ c.InHeader x) → w'.mem x = outcome w.mem pmp cs x := by
    intro x hx
    rw [hmem, recovery_words hx]
  refine ⟨w', hrun, hso.chain, mergeRuns_separated _, fun _ => mem_normalForm_of_active, ?_, hwords,
    fun x hx hd => ?_, fun w₂ hw₂ => ?_⟩
  · rw [normalForm, mergeRuns_sum, List.map_map]
    rfl
  · rw [hwords x hx, outcome, applyAll_execEvents_of_not_mem]
    intro s hs
    obtain ⟨c, hcm, hsc⟩ := List.mem_flatMap.mp hs
    exact hd c hcm s hsc
  · have hruns₂ := recovery_runs hso.chain hso.placed he
    rw [recoveryEvents_normalForm] at hruns₂
    obtain ⟨w₃, evs₃, hrun₃, -⟩ := hruns₂ w₂ hw₂
    have hm₃ := (hruns₂.mem_eq hw₂).2
    rw [hrun₃] at hm₃
    exact ⟨w₃, hrun₃, hm₃⟩

/-- A pool with a clump of every state: reserved, free, activating with one assignment, active, and
freeing with one assignment. -/
def mixedPool : Mem := applyAll
  [.store 81920 (64 ||| 1), .store 81984 (128 ||| 0), .store 82112 (64 ||| 2), .store 82128 4096,
    .store 82136 7, .store 82176 (64 ||| 3), .store 82240 (64 ||| 4), .store 82256 4104,
    .store 82264 9] fun _ => 0

/-- Recovery of `mixedPool`: one free clump before and one after the two active ones. -/
theorem recovery_normal_form_mixedPool : ∃ w',
    recovery 65536 (World.boot mixedPool false fun _ => true) = (.ok (), w') ∧
      Chain w'.mem 81920 [⟨81920, 192, .free⟩, ⟨82112, 64, .active⟩, ⟨82176, 64, .active⟩,
        ⟨82240, 64, .free⟩] 82304 := by
  have hc : Chain (World.boot mixedPool false fun _ => true).mem (65536 + pmemClumpOffset)
      [⟨81920, 64, .reserved⟩, ⟨81984, 128, .free⟩, ⟨82112, 64, .activating⟩, ⟨82176, 64, .active⟩,
        ⟨82240, 64, .freeing⟩] 82304 :=
    ⟨by simp [Tiles], by decide, by decide⟩
  obtain ⟨w', h1, h2, -⟩ := recovery_normal_form hc (by unfold Placed; decide) (by decide)
  exact ⟨w', h1, h2⟩

end PmemExamples.Pool
