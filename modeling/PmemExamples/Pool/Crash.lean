import PmemExamples.Pool.Relocate

/-! # Crashes and restarts of a pool

After a crash the file is mapped again, at any address, and recovered, and recovery may itself crash
any number of times (`CrashedAttempts`). Recovery issues an orderly trace, so each such crash leaves a prefix of
it, and the complete recovery in the end reaches the outcome of the pool the first crash left
(`recovery_ends`). -/

namespace PmemExamples.Pool
open Persist Libpmem Tiling
set_option autoImplicit false

/-! ## The traces are orderly -/

theorem lineOf_header {clp x : ℕ} (h : 64 ∣ clp) (hx : clp ≤ x) (hx' : x < clp + 64) :
    lineOf x = lineOf clp := by
  unfold lineOf; omega

theorem lineOf_mem_clLines (clp : ℕ) : lineOf clp ∈ clLines clp sizeofClump := by
  rw [mem_clLines, lineOf, sizeofClump]
  omega

theorem lineOf_onOff {clp i : ℕ} (h : 64 ∣ clp) (hi : i < 3) : lineOf (onOff clp i) = lineOf clp := by
  apply lineOf_header h <;> unfold onOff <;> omega

theorem lineOf_onPtr {clp i : ℕ} (h : 64 ∣ clp) (hi : i < 3) : lineOf (onPtr clp i) = lineOf clp := by
  apply lineOf_header h <;> unfold onPtr <;> omega

theorem orderly_execEvents (ss : List (ℕ × ℕ)) : Orderly (execEvents ss) := by
  induction ss with
  | nil => exact Orderly.nil
  | cons s ss ih =>
    have h : Orderly (storeBurst [s] (clLines s.1 sizeofPtr)) :=
      orderly_storeBurst (mem_clLines_word s.1) (by simp)
    exact h.append ih

theorem orderly_commit (clp word : ℕ) : Orderly [.store clp word, headerFlush clp] := by
  have h : Orderly (storeBurst [(clp, word)] (clLines clp sizeofClump)) :=
    orderly_storeBurst (lineOf_mem_clLines clp) (by simp)
  exact h

theorem orderly_finishEvents {clp : ℕ} (h : 64 ∣ clp) (word : ℕ) :
    Orderly (finishEvents clp word) := by
  have hclear : Orderly (storeBurst [(onOff clp 2, 0), (onOff clp 1, 0), (onOff clp 0, 0)]
      (clLines clp sizeofClump)) :=
    orderly_storeBurst (lineOf_mem_clLines clp) (by simp [lineOf_onOff h])
  exact hclear.append (orderly_commit clp word)

theorem orderly_recoverEvents (m : Mem) (pmp : ℕ) {c : Clump} (h : 64 ∣ c.addr) :
    Orderly (recoverEvents m pmp c) := by
  unfold recoverEvents
  split
  · exact Orderly.nil
  · exact (orderly_execEvents _).append (orderly_finishEvents h _)

theorem orderly_closeRun : ∀ run : List Clump, Orderly (closeRun run)
  | [] => Orderly.nil
  | [_] => Orderly.nil
  | _ :: _ :: _ => orderly_commit _ _

theorem orderly_mergeEvents : ∀ run cs : List Clump, Orderly (mergeEvents run cs)
  | run, [] => by rw [mergeEvents]; exact orderly_closeRun run
  | run, c :: cs => by
    rw [mergeEvents]
    split
    · exact orderly_mergeEvents _ cs
    · exact (orderly_closeRun run).append (orderly_mergeEvents [] cs)

theorem orderly_recoveryEvents (m : Mem) (pmp : ℕ) {a e : ℕ} {cs : List Clump} (ha : 64 ∣ a)
    (ht : Tiles 64 a cs e) : Orderly (recoveryEvents m pmp cs) :=
  (Orderly.flatMap fun _ hc => orderly_recoverEvents m pmp (ht.addr_dvd ha hc)).append
    (orderly_mergeEvents _ _)

/-! ## Restarts -/

/-- Any number of recoveries of a file, each in a process of its own and each crashed. -/
inductive CrashedAttempts (e : ℕ) : Mem → Mem → Prop
  | refl (d : Mem) : CrashedAttempts e d d
  | step {d d' img : Mem} {p : ℕ} {w : World} (h : CrashedAttempts e d d') (hp : Mapped p e)
      (hb : Booted p d' w) (hc : CrashDuring (recovery p) w img) : CrashedAttempts e d (fileAt p img)

theorem SameOutcome.within {a e : ℕ} {d d' : Mem} {cs cs' : List Clump}
    (h : SameOutcome 0 a e d cs d' cs') (hw : Within d cs e) : Within d' cs' e :=
  fun s hs => hw s (h.pendings_sub s hs)

theorem crashedAttempts_sameOutcome {e : ℕ} {d d' : Mem} {cs : List Clump}
    (hc : Chain d pmemClumpOffset cs e) (hp : Placed d 0 cs e) (hw : Within d cs e)
    (h : CrashedAttempts e d d') : ∃ cs', SameOutcome 0 pmemClumpOffset e d cs d' cs' := by
  induction h with
  | refl => exact ⟨cs, SameOutcome.refl hc hp⟩
  | @step d' img p w h hm hb hcr ih =>
    obtain ⟨cs', hso⟩ := ih
    rw [← hb.mem] at hso
    have hruns := recovery_runs_at hm hso.chain hso.placed (hso.within hw)
    have ho := orderly_recoveryEvents (fileAt p w.mem) 0 (by decide) hso.chain.tiles
    obtain ⟨j, hj⟩ := crashDuring_boot hm.aligned hruns hb ho hcr
    rw [hb.mem] at hso hj
    obtain ⟨cs'', hso', -⟩ := recoveryEvents_cut hso.chain hso.placed j
    rw [hj]
    exact ⟨cs'', hso.trans hso'⟩

/-- The file `d'` is what recovery makes of the pool `d` with walk `cs`. -/
structure EndsAs (e : ℕ) (d : Mem) (cs : List Clump) (d' : Mem) : Prop where
  chain : Chain d' pmemClumpOffset (normalForm cs) e
  words : ∀ x, (∀ c ∈ cs, ¬ c.InHeader x) → d' x = outcome d 0 cs x
  offs : ∀ c ∈ normalForm cs, ∃ b ∈ cs, b.addr = c.addr ∧
    ∀ i < 3, d' (onOff c.addr i) = finalOff d b i

theorem finalOff_normalForm {m : Mem} {cs : List Clump} {c : Clump} (h : c ∈ normalForm cs) (i : ℕ) :
    finalOff m c i = m (onOff c.addr i) := by
  obtain ⟨b, hb, -, hbt⟩ := exists_of_mem_mergeRuns h
  exact finalOff_of_settled (hbt ▸ map_settle_tag b hb) i

theorem recovery_ends {e p : ℕ} {d img d' : Mem} {cs csᵢ : List Clump} {w : World}
    (hi : SameOutcome 0 pmemClumpOffset e d cs img csᵢ) (hd : Distinct d 0 cs) (hw : Within d cs e)
    (h : CrashedAttempts e img d') (hp : Mapped p e) (hb : Booted p d' w) :
    ∃ w', recovery p w = (.ok (), w') ∧ EndsAs e d cs (fileAt p w'.mem) ∧ w'.Persisting ∧ w'.Clean := by
  obtain ⟨cs', hso⟩ := crashedAttempts_sameOutcome hi.chain hi.placed (hi.within hw) h
  have hbefore := hi.trans hso
  have hd' := hb.mem
  have hruns := recovery_runs_at hp (hd' ▸ hso.chain) (hd' ▸ hso.placed)
    (hd' ▸ hbefore.within hw)
  obtain ⟨w', -, hrun, -⟩ := hruns w rfl
  have hmem := (hruns.mem_eq rfl).2
  rw [hrun] at hmem
  have hfile : fileAt p w'.mem = applyAll (recoveryEvents d' 0 cs') d' := by
    rw [hmem, fileAt_applyAll, hd']
  obtain ⟨cs'', hso', hfull⟩ :=
    recoveryEvents_cut hso.chain hso.placed (recoveryEvents d' 0 cs').length
  rw [List.take_length, ← hfile, hfull (le_refl _), hbefore.normal] at hso'
  have hall := hbefore.trans hso'
  have ho := orderly_recoveryEvents (fileAt p w.mem) 0 (by decide) hso.chain.tiles
  have hclean := hruns.clean hb.2.2 (ho.relocate hp.aligned) hb.clean
  have hpers := (hruns.trace_eq rfl hb.2.2).2.2
  rw [hrun] at hclean hpers
  refine ⟨w', hrun, ⟨hall.chain, fun x hx => ?_, fun c hcm => ?_⟩, hpers, hclean⟩
  · rw [hfile, recovery_words (hbefore.not_inHeader hx)]
    exact (hbefore.words hd).2 x hx
  · obtain ⟨b, hb, hba, hbo⟩ := hall.origin c hcm
    exact ⟨b, hb, hba, fun i hi => (finalOff_normalForm hcm i).symm.trans (hbo i hi)⟩

end PmemExamples.Pool
