import PmemExamples.Pool.Coalesce

/-! # Recovery, cut anywhere

A recovery cut short leaves a pool from which recovery ends as it would have (`SameOutcome`,
`recoveryEvents_cut`). All crash arguments about the allocator rest on that. -/

namespace PmemExamples.Pool
open Persist Libpmem Tiling
set_option autoImplicit false

/-- The trace of recovery on a pool whose walk is `cs`. -/
def recoveryEvents (m : Mem) (pmp : ℕ) (cs : List Clump) : List Event :=
  cs.flatMap (recoverEvents m pmp) ++ mergeEvents [] (cs.map Clump.settle)

/-- What recovery leaves in `on[i].off` of a clump it keeps. -/
def finalOff (m : Mem) (c : Clump) (i : ℕ) : ℕ :=
  if c.tag.settle = c.tag then m (onOff c.addr i) else 0

/-- All pending assignments of a walk, in the order recovery executes them. -/
def pendings (m : Mem) (pmp : ℕ) (cs : List Clump) : List (ℕ × ℕ) := cs.flatMap (pending m pmp)

/-- The words as recovery will leave them outside the headers. -/
def outcome (m : Mem) (pmp : ℕ) (cs : List Clump) : Mem := applyAll (execEvents (pendings m pmp cs)) m

theorem Clump.settle_eq_retag : Clump.settle = Block.retag State.settle := rfl

theorem finalOff_of_settled {m : Mem} {c : Clump} (h : c.tag.settle = c.tag) (i : ℕ) :
    finalOff m c i = m (onOff c.addr i) := if_pos h

theorem finalOff_of_unsettled {m : Mem} {c : Clump} (h : c.tag.settle ≠ c.tag) (i : ℕ) :
    finalOff m c i = 0 := if_neg h

/-! ## Recovery of one clump, cut anywhere -/

/-- What one clump looks like at some point of its recovery. -/
structure ClumpCut (m m' : Mem) (pmp : ℕ) (c : Clump) (s : State) : Prop where
  state : s = c.tag ∨ s = c.tag.settle
  word : m' c.addr = (c.set s).word
  pending_prefix : pending m' pmp (c.set s) <+: pending m pmp c
  words : ((pending m pmp c).map Prod.fst).Nodup → ∀ x, ¬ c.InHeader x →
    applyAll (execEvents (pending m' pmp (c.set s))) m' x =
      applyAll (execEvents (pending m pmp c)) m x
  offs : ∀ i < 3, finalOff m' (c.set s) i = finalOff m c i

theorem applyAll_zero_stores {evs : List Event} (h : ∀ a v, .store a v ∈ evs → v = 0) (m : Mem)
    (x : ℕ) : applyAll evs m x = m x ∨ applyAll evs m x = 0 := by
  induction evs generalizing m with
  | nil => exact Or.inl rfl
  | cons e evs ih =>
    have ih := ih (fun a v hm => h a v (List.mem_cons_of_mem _ hm)) (e.apply m)
    rw [applyAll_cons]
    rcases ih with ih | ih
    · rw [ih]
      cases e with
      | store a v =>
        obtain rfl := h a v List.mem_cons_self
        by_cases hx : x = a
        · subst hx; exact Or.inr (Function.update_self ..)
        · exact Or.inl (Function.update_of_ne hx ..)
      | flush ls => exact Or.inl rfl
    · exact Or.inr ih

theorem clearEvents_zero {clp a v : ℕ} (h : Event.store a v ∈ clearEvents clp) : v = 0 := by
  simp only [clearEvents, headerFlush, List.mem_cons, Event.store.injEq, List.not_mem_nil,
    or_false, reduceCtorEq] at h
  rcases h with ⟨-, h⟩ | ⟨-, h⟩ | ⟨-, h⟩ <;> exact h

theorem applyAll_clearEvents (m : Mem) {clp i : ℕ} (hi : i < 3) :
    applyAll (clearEvents clp) m (onOff clp i) = 0 := by
  have hi : i = 0 ∨ i = 1 ∨ i = 2 := by omega
  rcases hi with rfl | rfl | rfl <;> simp [clearEvents, headerFlush, Function.update, onOff]

theorem writes_clearEvents {clp x : ℕ} {e : Event} (he : e ∈ clearEvents clp) (hx : e.Writes x) :
    ∃ i < 3, x = onOff clp i := by
  simp only [clearEvents, headerFlush, List.mem_cons, List.not_mem_nil, or_false] at he
  rcases he with rfl | rfl | rfl | rfl
  · exact ⟨2, by omega, hx.symm⟩
  · exact ⟨1, by omega, hx.symm⟩
  · exact ⟨0, by omega, hx.symm⟩
  · exact absurd hx (Event.writes_flush _ _)

/-- While the assignments are executed the header stands still, and executing them again from the
start gives the same words. -/
theorem execEvents_cut {m : Mem} {pmp : ℕ} {c : Clump} (hw : m c.addr = c.word)
    (hh : ∀ s ∈ pending m pmp c, ¬ c.InHeader s.1) (hun : c.tag.settle ≠ c.tag) (k : ℕ) :
    ClumpCut m (applyAll ((execEvents (pending m pmp c)).take k) m) pmp c c.tag := by
  have hwrite : ∀ e ∈ (execEvents (pending m pmp c)).take k, ∀ x, e.Writes x →
      ∃ s ∈ pending m pmp c, s.1 = x :=
    fun e he x hx => writes_execEvents (List.mem_of_mem_take he) hx
  have hkeep : ∀ x, c.InHeader x →
      applyAll ((execEvents (pending m pmp c)).take k) m x = m x := by
    intro x hx
    refine applyAll_of_not_writes (fun e he hxw => ?_) m
    obtain ⟨s, hs, rfl⟩ := hwrite e he x hxw
    exact hh s hs hx
  have hsame : pending _ pmp c = pending m pmp c := pending_congr hkeep
  refine ⟨Or.inl rfl, (hkeep _ (addr_inHeader c)).trans hw, ?_, fun _ x _ => ?_, fun i _ => ?_⟩
  · rw [Clump.set_self, hsame]
  · rw [Clump.set_self, hsame]
    by_cases hx : ∃ s ∈ pending m pmp c, s.1 = x
    · exact applyAll_execEvents_overwrite hx _ _
    · refine applyAll_congr_at _ (applyAll_of_not_writes (fun e he hxw => hx ?_) m)
      exact hwrite e he x hxw
  · rw [Clump.set_self, finalOff_of_unsettled hun, finalOff_of_unsettled hun]

/-- While the list is cleared from its last entry a prefix of it is left; it names words that have
their values already. -/
theorem clearEvents_cut {m : Mem} {pmp : ℕ} {c : Clump} (hw : m c.addr = c.word)
    (hh : ∀ s ∈ pending m pmp c, ¬ c.InHeader s.1) (hun : c.tag.settle ≠ c.tag) (k : ℕ) :
    ClumpCut m (applyAll ((clearEvents c.addr).take k) (applyAll (execEvents (pending m pmp c)) m))
      pmp c c.tag := by
  set ss := pending m pmp c with hss
  set m₁ := applyAll (execEvents ss) m with hm₁
  set m₂ := applyAll ((clearEvents c.addr).take k) m₁ with hm₂
  have hkeep₁ : ∀ x, c.InHeader x → m₁ x = m x := fun x hx =>
    applyAll_execEvents_of_not_mem (fun s hs heq => hh s hs (heq ▸ hx)) m
  have hkeep₂ : ∀ x, (∀ i < 3, x ≠ onOff c.addr i) → m₂ x = m₁ x := by
    intro x hx
    refine applyAll_of_not_writes (fun e he hxw => ?_) m₁
    obtain ⟨i, hi, h⟩ := writes_clearEvents (List.mem_of_mem_take he) hxw
    exact hx i hi h
  have hpre : pending m₂ pmp c <+: ss := by
    have h : onEntries m₂ pmp c.addr onUp <+: onEntries m pmp c.addr onUp := by
      refine onEntries_prefix (fun i hi => ?_) fun i hi => ?_
      · rw [← hkeep₁ _ (onOff_inHeader (lt_of_mem_onUp hi))]
        exact applyAll_zero_stores (fun a v hm => clearEvents_zero (List.mem_of_mem_take hm)) m₁ _
      · rw [hkeep₂ _ (fun j _ h => onOff_ne_onPtr _ _ _ h.symm),
          hkeep₁ _ (onPtr_inHeader (lt_of_mem_onUp hi))]
    rw [hss]
    unfold pending
    cases c.tag with
    | activating => exact h
    | freeing => exact h
    | _ => exact List.prefix_refl _
  refine ⟨Or.inl rfl, ?_, hpre, fun hnd x hx => ?_, fun i _ => ?_⟩
  · rw [Clump.set_self, hkeep₂ _ (fun i _ h => onOff_ne_addr _ _ h.symm),
      hkeep₁ _ (addr_inHeader c), hw]
  · have hx₂ : m₂ x = m₁ x := hkeep₂ x fun i hi h => hx (h ▸ onOff_inHeader hi)
    rw [Clump.set_self]
    by_cases hmem : ∃ s ∈ pending m₂ pmp c, s.1 = x
    · obtain ⟨s, hs, rfl⟩ := hmem
      rw [applyAll_execEvents_of_mem (hnd.sublist (hpre.sublist.map _)) hs,
        applyAll_execEvents_of_mem hnd (hpre.subset hs)]
    · rw [applyAll_execEvents_of_not_mem (fun s hs h => hmem ⟨s, hs, h⟩), hx₂]
  · rw [Clump.set_self, finalOff_of_unsettled hun, finalOff_of_unsettled hun]

theorem finishEvents_done {m : Mem} {pmp : ℕ} {c : Clump} (hun : c.tag.settle ≠ c.tag) :
    ClumpCut m (applyAll (finishEvents c.addr c.settle.word)
      (applyAll (execEvents (pending m pmp c)) m)) pmp c c.tag.settle := by
  set m₁ := applyAll (execEvents (pending m pmp c)) m with hm₁
  have hnil : ∀ m' : Mem, pending m' pmp (c.set c.tag.settle) = [] := fun m' => pending_settle m' pmp c
  refine ⟨Or.inr rfl, ?_, ?_, fun _ x hx => ?_, fun i hi => ?_⟩
  · exact applyAll_of_last_store (clearEvents c.addr) [headerFlush c.addr] rfl
      (by simp [headerFlush])
  · rw [hnil]; exact List.nil_prefix
  · rw [hnil, execEvents_nil, applyAll_nil]
    refine applyAll_of_not_writes (fun e he hw => hx ?_) m₁
    rcases writes_finishEvents he hw with rfl | ⟨i, hi, rfl⟩
    · exact addr_inHeader c
    · exact onOff_inHeader hi
  · have hs : (c.set c.tag.settle).tag.settle = (c.set c.tag.settle).tag := c.tag.settle_settle
    rw [finalOff_of_settled hs, finalOff_of_unsettled hun, Clump.set_addr]
    have hsplit : finishEvents c.addr c.settle.word =
        clearEvents c.addr ++ [.store c.addr c.settle.word, headerFlush c.addr] := rfl
    rw [hsplit, applyAll_append, headerFlush, applyAll_store, applyAll_flush, applyAll_nil,
      Function.update_of_ne (onOff_ne_addr _ _)]
    exact applyAll_clearEvents m₁ hi

theorem recoverEvents_clumpCut {m : Mem} {pmp : ℕ} {c : Clump} (hw : m c.addr = c.word)
    (hh : ∀ s ∈ pending m pmp c, ¬ c.InHeader s.1) (hun : c.tag.settle ≠ c.tag) (k : ℕ) :
    ∃ s, ClumpCut m (applyAll ((recoverEvents m pmp c).take k) m) pmp c s ∧
      ((recoverEvents m pmp c).length ≤ k → s = c.tag.settle) := by
  have hev : recoverEvents m pmp c =
      execEvents (pending m pmp c) ++ finishEvents c.addr c.settle.word := if_neg hun
  rw [hev, List.take_append, applyAll_append]
  generalize hj : k - (execEvents (pending m pmp c)).length = j
  by_cases hk : k ≤ (execEvents (pending m pmp c)).length
  · obtain rfl : j = 0 := by omega
    refine ⟨c.tag, ?_, fun hlen => ?_⟩
    · simpa using execEvents_cut hw hh hun k
    · simp [finishEvents, clearEvents] at hlen
      omega
  · rw [List.take_of_length_le (by omega : (execEvents (pending m pmp c)).length ≤ k)]
    by_cases hj4 : j ≤ 4
    · have htake : (finishEvents c.addr c.settle.word).take j = (clearEvents c.addr).take j := by
        rw [finishEvents, List.take_append_of_le_length (by simpa [clearEvents] using hj4)]
      rw [htake]
      refine ⟨c.tag, clearEvents_cut hw hh hun j, fun hlen => ?_⟩
      simp [finishEvents, clearEvents] at hlen
      omega
    · have hdone : applyAll ((finishEvents c.addr c.settle.word).take j)
          (applyAll (execEvents (pending m pmp c)) m) =
          applyAll (finishEvents c.addr c.settle.word) (applyAll (execEvents (pending m pmp c)) m) := by
        obtain ⟨i, rfl⟩ : ∃ i, j = i + 5 := ⟨j - 5, by omega⟩
        cases i <;> simp [finishEvents, clearEvents, headerFlush]
      rw [hdone]
      exact ⟨_, finishEvents_done hun, fun _ => rfl⟩

/-! ## Recovery of a whole walk, cut anywhere -/

/-- Each pending list names a word once. -/
def Distinct (m : Mem) (pmp : ℕ) (cs : List Clump) : Prop :=
  ∀ c ∈ cs, ((pending m pmp c).map Prod.fst).Nodup

/-- The pool in `m'` with walk `cs'` recovers as the one in `m` with walk `cs` does. -/
structure SameOutcome (pmp a e : ℕ) (m : Mem) (cs : List Clump) (m' : Mem) (cs' : List Clump) :
    Prop where
  chain : Chain m' a cs' e
  placed : Placed m' pmp cs' e
  pendings_sub : ∀ s ∈ pendings m' pmp cs', s ∈ pendings m pmp cs
  normal : normalForm cs' = normalForm cs
  origin : ∀ c ∈ cs', ∃ b ∈ cs, b.addr = c.addr ∧ ∀ i < 3, finalOff m' c i = finalOff m b i
  words : Distinct m pmp cs → Distinct m' pmp cs' ∧
    ∀ x, (∀ b ∈ cs, ¬ b.InHeader x) → outcome m' pmp cs' x = outcome m pmp cs x

namespace SameOutcome
variable {pmp a e : ℕ} {m m' m'' : Mem} {cs cs' cs'' : List Clump}

theorem refl (hc : Chain m a cs e) (hp : Placed m pmp cs e) : SameOutcome pmp a e m cs m cs :=
  ⟨hc, hp, fun _ => id, rfl, fun c hc => ⟨c, hc, rfl, fun _ _ => rfl⟩,
    fun hd => ⟨hd, fun _ _ => rfl⟩⟩

theorem not_inHeader (h : SameOutcome pmp a e m cs m' cs') {x : ℕ}
    (hx : ∀ b ∈ cs, ¬ b.InHeader x) : ∀ c ∈ cs', ¬ c.InHeader x := by
  intro c hc
  obtain ⟨b, hb, hba, -⟩ := h.origin c hc
  have := hx b hb
  unfold Clump.InHeader at this ⊢
  rwa [← hba]

theorem trans (h : SameOutcome pmp a e m cs m' cs') (h' : SameOutcome pmp a e m' cs' m'' cs'') :
    SameOutcome pmp a e m cs m'' cs'' := by
  refine ⟨h'.chain, h'.placed, fun s hs => h.pendings_sub s (h'.pendings_sub s hs),
    h'.normal.trans h.normal, fun c hc => ?_, fun hd => ?_⟩
  · obtain ⟨b, hb, hba, hbo⟩ := h'.origin c hc
    obtain ⟨d, hd, hda, hdo⟩ := h.origin b hb
    exact ⟨d, hd, hda.trans hba, fun i hi => (hbo i hi).trans (hdo i hi)⟩
  · obtain ⟨hd', hw⟩ := h.words hd
    obtain ⟨hd'', hw'⟩ := h'.words hd'
    exact ⟨hd'', fun x hx => (hw' x (h.not_inHeader hx)).trans (hw x hx)⟩

end SameOutcome

theorem pendings_append (m : Mem) (pmp : ℕ) (l r : List Clump) :
    pendings m pmp (l ++ r) = pendings m pmp l ++ pendings m pmp r := List.flatMap_append ..

theorem pendings_cons (m : Mem) (pmp : ℕ) (c : Clump) (r : List Clump) :
    pendings m pmp (c :: r) = pending m pmp c ++ pendings m pmp r := List.flatMap_cons ..

theorem pending_of_settled {m : Mem} {pmp : ℕ} {c : Clump} (h : c.tag.settle = c.tag) :
    pending m pmp c = [] := by
  apply pending_eq_nil <;> intro h' <;> rw [h'] at h <;> cases h

theorem pendings_of_settled {m : Mem} {pmp : ℕ} {cs : List Clump}
    (h : ∀ c ∈ cs, c.tag.settle = c.tag) : pendings m pmp cs = [] :=
  List.flatMap_eq_nil_iff.mpr fun c hc => pending_of_settled (h c hc)

theorem pendings_congr {m m' : Mem} {pmp : ℕ} {cs : List Clump}
    (h : ∀ c ∈ cs, ∀ x, c.InHeader x → m' x = m x) : pendings m' pmp cs = pendings m pmp cs := by
  simp only [pendings, List.flatMap]
  congr 1
  exact List.map_congr_left fun c hc => pending_congr (h c hc)

theorem pendings_filter (m : Mem) (pmp : ℕ) (cs : List Clump) :
    pendings m pmp (cs.filter fun c => !c.tag.isFree) = pendings m pmp cs := by
  induction cs with
  | nil => rfl
  | cons c cs ih =>
    rw [List.filter_cons, pendings_cons]
    cases hf : c.tag.isFree with
    | false => simp [pendings_cons, ih]
    | true =>
      have : pending m pmp c = [] := pending_of_settled (by rw [State.isFree_iff.mp hf]; rfl)
      simp [ih, this]

/-- One clump moved along its recovery, behind clumps with nothing pending. -/
theorem SameOutcome.of_clumpCut {pmp a e : ℕ} {m m' : Mem} {l r : List Clump} {c : Clump} {s : State}
    (hc : Chain m a (l ++ c :: r) e) (hp : Placed m pmp (l ++ c :: r) e)
    (hl : ∀ b ∈ l, pending m pmp b = []) (hcut : ClumpCut m m' pmp c s)
    (hother : ∀ b ∈ l ++ r, ∀ x, b.InHeader x → m' x = m x) (he : m' e = m e) :
    SameOutcome pmp a e m (l ++ c :: r) m' (l ++ c.set s :: r) := by
  have hmem : ∀ b, b ∈ l ++ c.set s :: r → b = c.set s ∨ b ∈ l ++ r := by
    intro b hb
    simp only [List.mem_append, List.mem_cons] at hb ⊢
    tauto
  have hmem' : ∀ b, b ∈ l ++ r → b ∈ l ++ c :: r := by
    intro b hb
    simp only [List.mem_append, List.mem_cons] at hb ⊢
    tauto
  have hcm : c ∈ l ++ c :: r := by simp
  have hheads : ∀ x, (∀ b ∈ l ++ c :: r, ¬ b.InHeader x) → ∀ b ∈ l ++ c.set s :: r, ¬ b.InHeader x := by
    intro x hx b hb
    rcases hmem b hb with rfl | hb
    · exact hx c hcm
    · exact hx b (hmem' b hb)
  have hchain : Chain m' a (l ++ c.set s :: r) e :=
    hc.set_state s hcut.word (fun b hb => hother b hb _ (addr_inHeader b)) he
  refine ⟨hchain, fun b hb t ht => ?_, fun t ht => ?_, ?_, fun b hb => ?_,
    fun hd => ⟨fun b hb => ?_, fun x hx => ?_⟩⟩
  · have : t.1 ≠ e ∧ ∀ d ∈ l ++ c :: r, ¬ d.InHeader t.1 := by
      rcases hmem b hb with rfl | hb
      · exact hp c hcm t (hcut.pending_prefix.subset ht)
      · rw [pending_congr (hother b hb)] at ht
        exact hp b (hmem' b hb) t ht
    exact ⟨this.1, hheads _ this.2⟩
  · obtain ⟨b, hb, htb⟩ := List.mem_flatMap.mp ht
    rcases hmem b hb with rfl | hb
    · exact List.mem_flatMap.mpr ⟨c, hcm, hcut.pending_prefix.subset htb⟩
    · rw [pending_congr (hother b hb)] at htb
      exact List.mem_flatMap.mpr ⟨b, hmem' b hb, htb⟩
  · have hs : (c.set s).settle = c.settle := by
      rcases hcut.state with rfl | rfl
      · rfl
      · exact congrArg (c.set ·) c.tag.settle_settle
    simp only [normalForm, List.map_append, List.map_cons, hs]
  · rcases hmem b hb with rfl | hb
    · exact ⟨c, hcm, rfl, hcut.offs⟩
    · refine ⟨b, hmem' b hb, rfl, fun i hi => ?_⟩
      simp only [finalOff, hother b hb _ (onOff_inHeader hi)]
  · rcases hmem b hb with rfl | hb
    · exact (hd c hcm).sublist (hcut.pending_prefix.sublist.map _)
    · rw [pending_congr (hother b hb)]
      exact hd b (hmem' b hb)
  · have hr : pendings m' pmp r = pendings m pmp r :=
      pendings_congr fun b hb => hother b (List.mem_append_right _ hb)
    have hl₁ : pendings m pmp l = [] := List.flatMap_eq_nil_iff.mpr hl
    have hl₂ : pendings m' pmp l = [] :=
      (pendings_congr fun b hb => hother b (List.mem_append_left _ hb)).trans hl₁
    simp only [outcome, pendings_append, pendings_cons, hl₁, hl₂, List.nil_append, hr]
    rw [execEvents_append, execEvents_append, applyAll_append, applyAll_append]
    exact applyAll_congr_at _ (hcut.words (hd c hcm) x (hx c hcm))

theorem recoverEvents_cut {pmp a e : ℕ} {m : Mem} {l r : List Clump} {c : Clump}
    (hc : Chain m a (l ++ c :: r) e) (hp : Placed m pmp (l ++ c :: r) e)
    (hl : ∀ b ∈ l, pending m pmp b = []) (k : ℕ) :
    ∃ s, SameOutcome pmp a e m (l ++ c :: r) (applyAll ((recoverEvents m pmp c).take k) m)
        (l ++ c.set s :: r) ∧
      ((recoverEvents m pmp c).length ≤ k → s = c.tag.settle) := by
  have hcm : c ∈ l ++ c :: r := by simp
  have hne : ∀ b ∈ l ++ r, b ∈ l ++ c :: r ∧ b ≠ c := by
    intro b hb
    refine ⟨by simp only [List.mem_append, List.mem_cons] at hb ⊢; tauto, fun h => ?_⟩
    exact hc.addr_ne.1 b hb (h ▸ rfl)
  obtain ⟨hframe, hmark⟩ := recoverEvents_frame hc hp hcm
  by_cases hs : c.tag.settle = c.tag
  · refine ⟨c.tag, ?_, fun _ => hs.symm⟩
    simpa [recoverEvents_of_settled hs] using SameOutcome.refl hc hp
  · obtain ⟨s, hcut, hfull⟩ :=
      recoverEvents_clumpCut (hc.word hcm) (fun s hs => (hp c hcm s hs).2 c hcm) hs k
    refine ⟨s, SameOutcome.of_clumpCut hc hp hl hcut (fun b hb x hx => ?_) ?_, hfull⟩
    · exact applyAll_of_not_writes (fun ev hev =>
        hframe b (hne b hb).1 (hne b hb).2 x hx ev (List.mem_of_mem_take hev)) m
    · exact applyAll_of_not_writes (fun ev hev => hmark ev (List.mem_of_mem_take hev)) m

/-- Recovery of one clump leaves the rest of the walk to be recovered as before. -/
theorem recoverEvents_rest {pmp a e : ℕ} {m : Mem} {l r : List Clump} {c : Clump}
    (hc : Chain m a (l ++ c :: r) e) (hp : Placed m pmp (l ++ c :: r) e) :
    r.flatMap (recoverEvents (applyAll (recoverEvents m pmp c) m) pmp) =
      r.flatMap (recoverEvents m pmp) := by
  refine flatMap_recoverEvents_congr fun b hb x hx => ?_
  have hbm : b ∈ l ++ c :: r := by simp [hb]
  have hbc : b ≠ c := fun h => hc.addr_ne.1 b (by simp [hb]) (h ▸ rfl)
  exact applyAll_of_not_writes
    ((recoverEvents_frame hc hp (by simp : c ∈ l ++ c :: r)).1 b hbm hbc x hx) m

theorem recoverPass_cut {pmp a e : ℕ} :
    ∀ {cs l : List Clump} {m : Mem}, Chain m a (l ++ cs) e → Placed m pmp (l ++ cs) e →
      (∀ c ∈ l, c.tag.settle = c.tag) → ∀ k, ∃ cs',
      SameOutcome pmp a e m (l ++ cs) (applyAll ((cs.flatMap (recoverEvents m pmp)).take k) m)
        (l ++ cs') ∧
      ((cs.flatMap (recoverEvents m pmp)).length ≤ k → cs' = cs.map Clump.settle)
  | [], l, m, hc, hp, _, k => ⟨[], by simpa using SameOutcome.refl hc hp, by simp⟩
  | c :: cs, l, m, hc, hp, hl, k => by
    obtain ⟨s, hso, hfull⟩ := recoverEvents_cut hc hp (fun b hb => pending_of_settled (hl b hb)) k
    rw [List.flatMap_cons, List.length_append]
    rcases applyAll_take_append (recoverEvents m pmp c) (cs.flatMap (recoverEvents m pmp)) m k with
      ⟨hk, hcut⟩ | ⟨hk, hcut⟩
    · rw [hcut]
      exact ⟨c.set s :: cs, hso, fun hlen => by omega⟩
    · obtain rfl := hfull hk
      rw [List.take_of_length_le hk] at hso
      rw [hcut, ← recoverEvents_rest hc hp]
      have hl' : ∀ b ∈ l ++ [c.set c.tag.settle], b.tag.settle = b.tag := by
        intro b hb
        rcases List.mem_append.mp hb with hb | hb
        · exact hl b hb
        · rw [List.mem_singleton.mp hb]; exact c.tag.settle_settle
      have hassoc : l ++ c.set c.tag.settle :: cs = (l ++ [c.set c.tag.settle]) ++ cs := by simp
      rw [hassoc] at hso
      obtain ⟨cs', hso', hfull'⟩ :=
        recoverPass_cut hso.chain hso.placed hl' (k - (recoverEvents m pmp c).length)
      refine ⟨c.set c.tag.settle :: cs', hso.trans (by simpa using hso'), fun hlen => ?_⟩
      rw [hfull' (by omega), List.map_cons]
      rfl

theorem mergeEvents_cut {pmp a e : ℕ} {m : Mem} {cs : List Clump} (hc : Chain m a cs e)
    (hp : Placed m pmp cs e) (k : ℕ) : ∃ cs',
    SameOutcome pmp a e m cs (applyAll ((mergeEvents [] cs).take k) m) cs' ∧
    ((mergeEvents [] cs).length ≤ k → cs' = mergeRuns State.isFree cs) := by
  have hc₀ : Chain m a ([] ++ [] ++ cs) e := hc
  obtain ⟨cs', hc', hn, hfrom, hfull⟩ := mergeEvents_chain hc₀ (by simp) k
  rw [List.nil_append] at hc' hn hfrom hfull
  refine ⟨cs', ?_, hfull⟩
  have hkeep : ∀ x, (∀ b ∈ cs, b.addr ≠ x) → applyAll ((mergeEvents [] cs).take k) m x = m x := by
    intro x hx
    refine applyAll_of_not_writes (fun ev hev hw => ?_) m
    obtain ⟨b, hb, h⟩ := writes_mergeEvents (List.mem_of_mem_take hev) hw
    exact hx b (by simpa using hb) h
  -- on-lists stay as they are: only size words are stored to
  have hoff : ∀ b ∈ cs, ∀ i < 3, ∀ d ∈ cs, d.addr ≠ onOff b.addr i ∧ d.addr ≠ onPtr b.addr i := by
    intro b hb i hi d hd
    have h1 := hc.size_ge hb
    have h2 := hc.size_ge hd
    unfold onOff onPtr
    by_cases hbd : b = d
    · subst hbd; omega
    · rcases hc.tiles.disjoint hb hd hbd with h | h <;> omega
  have hpend : ∀ b ∈ cs, pending (applyAll ((mergeEvents [] cs).take k) m) pmp b = pending m pmp b := by
    intro b hb
    have hon : onEntries (applyAll ((mergeEvents [] cs).take k) m) pmp b.addr onUp =
        onEntries m pmp b.addr onUp :=
      onEntries_congr fun i hi => ⟨hkeep _ fun d hd => (hoff b hb i (lt_of_mem_onUp hi) d hd).1,
        hkeep _ fun d hd => (hoff b hb i (lt_of_mem_onUp hi) d hd).2⟩
    simp only [pending, hon]
  have hpend' : ∀ c ∈ cs', ∃ b ∈ cs, b.addr = c.addr ∧
      pending (applyAll ((mergeEvents [] cs).take k) m) pmp c = pending m pmp b ∧
      ∀ i < 3, finalOff (applyAll ((mergeEvents [] cs).take k) m) c i = finalOff m b i := by
    intro c hcm
    obtain ⟨b, hb, hba, hbt⟩ := hfrom c hcm
    refine ⟨b, hb, hba, ?_, fun i hi => ?_⟩
    · rw [← hpend b hb]
      simp only [pending, hbt, hba]
    · simp only [finalOff, ← hbt, ← hba]
      rw [hkeep _ fun d hd => (hoff b hb i hi d hd).1]
  have hpends : pendings (applyAll ((mergeEvents [] cs).take k) m) pmp cs' = pendings m pmp cs := by
    rw [← pendings_filter, ← mergeRuns_filter_not, hn, mergeRuns_filter_not, pendings_filter]
    simp only [pendings, List.flatMap]
    congr 1
    exact List.map_congr_left hpend
  refine ⟨hc', fun c hcm s hs => ?_, fun s hs => hpends ▸ hs, ?_, fun c hcm => ?_,
    fun hd => ⟨fun c hcm => ?_, fun x hx => ?_⟩⟩
  · obtain ⟨b, hb, hba, hbp, -⟩ := hpend' c hcm
    rw [hbp] at hs
    obtain ⟨h1, h2⟩ := hp b hb s hs
    refine ⟨h1, fun d hd => ?_⟩
    obtain ⟨f, hf, hfa, -⟩ := hfrom d hd
    have := h2 f hf
    unfold Clump.InHeader at this ⊢
    rwa [← hfa]
  · have hf : ∀ s : State, s.isFree = true → s.settle.isFree = true := by
      intro s hs
      rw [State.isFree_iff.mp hs]
      rfl
    simp only [normalForm, Clump.settle_eq_retag]
    rw [← mergeRuns_map_retag hf cs', hn, mergeRuns_map_retag hf cs]
  · obtain ⟨b, hb, hba, -, hbo⟩ := hpend' c hcm
    exact ⟨b, hb, hba, hbo⟩
  · obtain ⟨b, hb, hba, hbp, -⟩ := hpend' c hcm
    rw [hbp]
    exact hd b hb
  · rw [outcome, outcome, hpends]
    refine applyAll_congr_at _ (hkeep x fun b hb h => hx b hb ?_)
    rw [← h]
    exact addr_inHeader b

theorem map_settle_tag {cs : List Clump} : ∀ c ∈ cs.map Clump.settle, c.tag.settle = c.tag := by
  intro c hc
  obtain ⟨b, -, rfl⟩ := List.mem_map.mp hc
  exact b.tag.settle_settle

/-- Recovery cut anywhere leaves a pool that recovers to the same outcome; run to its end it leaves
the normal form. -/
theorem recoveryEvents_cut {pmp a e : ℕ} {m : Mem} {cs : List Clump} (hc : Chain m a cs e)
    (hp : Placed m pmp cs e) (k : ℕ) : ∃ cs',
    SameOutcome pmp a e m cs (applyAll ((recoveryEvents m pmp cs).take k) m) cs' ∧
    ((recoveryEvents m pmp cs).length ≤ k → cs' = normalForm cs) := by
  obtain ⟨cs', hso, hfull⟩ := recoverPass_cut (l := []) hc hp (by simp) k
  rw [recoveryEvents, List.length_append]
  rcases applyAll_take_append (cs.flatMap (recoverEvents m pmp)) (mergeEvents [] (cs.map Clump.settle))
    m k with ⟨hk, hcut⟩ | ⟨hk, hcut⟩
  · rw [hcut]
    exact ⟨cs', hso, fun hlen => by omega⟩
  · obtain rfl := hfull hk
    rw [List.take_of_length_le hk] at hso
    obtain ⟨cs'', hso', hfull'⟩ := mergeEvents_cut hso.chain hso.placed
      (k - (cs.flatMap (recoverEvents m pmp)).length)
    rw [hcut]
    refine ⟨cs'', hso.trans hso', fun hlen => ?_⟩
    rw [hfull' (by rw [List.nil_append]; omega)]
    rfl

end PmemExamples.Pool
