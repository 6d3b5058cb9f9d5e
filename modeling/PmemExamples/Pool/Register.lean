import PmemExamples.Pool.Commit

/-! # `pmemalloc_onactive` and `pmemalloc_onfree`

Both take the first unused entry of the clump's on-list and write `ptr_` before `off`, so an entry
counts only when it is complete. -/

namespace PmemExamples.Pool
open Persist Libpmem Tiling
set_option autoImplicit false

/-- The trace of registering an assignment in entry `i`. -/
def registerEvents (clp i o v : ℕ) : List Event :=
  [.store (onPtr clp i) v, headerFlush clp, .store (onOff clp i) o, headerFlush clp]

section Register
variable {m d : Mem} {p e : ℕ} {c : Clump}

theorem registerEvents_up (hp : 64 ∣ p) (clp i o v : ℕ) :
    relocate p (registerEvents clp i o v) = registerEvents (p + clp) i o v := by
  simp only [registerEvents, relocate, List.map_cons, List.map_nil, onOff_up, onPtr_up, headerFlush_up hp]
  rfl

theorem orderly_registerEvents {clp i : ℕ} (h : 64 ∣ clp) (hi : i < 3) (o v : ℕ) :
    Orderly (registerEvents clp i o v) := by
  have hptr : Orderly (storeBurst [(onPtr clp i, v)] (clLines clp sizeofClump)) :=
    orderly_storeBurst (lineOf_mem_clLines clp) (by simp [lineOf_onPtr h hi])
  have hoff : Orderly (storeBurst [(onOff clp i, o)] (clLines clp sizeofClump)) :=
    orderly_storeBurst (lineOf_mem_clLines clp) (by simp [lineOf_onOff h hi])
  exact hptr.append hoff

theorem writes_registerEvents {clp i o v x : ℕ} {ev : Event} (he : ev ∈ registerEvents clp i o v)
    (hx : ev.Writes x) : x = onPtr clp i ∨ x = onOff clp i := by
  simp only [registerEvents, headerFlush, List.mem_cons, List.not_mem_nil, or_false] at he
  rcases he with rfl | rfl | rfl | rfl
  · exact Or.inl hx.symm
  · exact absurd hx (Event.writes_flush _ _)
  · exact Or.inr hx.symm
  · exact absurd hx (Event.writes_flush _ _)

theorem placeOn_runs {x : Bool} {flags : ℕ} (hx : x = true → flags = 0) (clp parentp_ nptr_ : ℕ)
    (limit : String) {i : ℕ} {r : List ℕ} (hi : m (onOff clp i) = 0) :
    ∀ {l : List ℕ}, (∀ j ∈ l, m (onOff clp j) ≠ 0) →
      Runs x (placeOn p clp parentp_ nptr_ flags limit (l ++ i :: r)) m ()
        (registerEvents clp i (off p parentp_) nptr_)
  | [], _ => by
    have hp : ∀ m', Runs x (pmemPersist clp sizeofClump flags) m' () [headerFlush clp] := by
      intro m'
      cases x
      · exact pmemPersist_runs_flagged _ _ _ _
      · rw [hx rfl]; exact pmemPersist_runs true _ _ _
    refine Runs.load_bind hi ?_
    rw [if_pos rfl]
    exact Runs.store_bind ((hp _).seq (Runs.store_bind (pmemPersist_runs x _ clp _)))
  | j :: l, h => by
    refine Runs.load_bind rfl ?_
    rw [if_neg (h j List.mem_cons_self)]
    exact placeOn_runs hx clp parentp_ nptr_ limit hi fun k hk => h k (List.mem_cons_of_mem _ hk)

theorem onUp_split (f : ℕ → ℕ) : (∀ i ∈ onUp, f i ≠ 0) ∨
    ∃ l i r, onUp = l ++ i :: r ∧ f i = 0 ∧ ∀ j ∈ l, f j ≠ 0 := by
  by_cases h0 : f 0 = 0
  · exact Or.inr ⟨[], 0, [1, 2], rfl, h0, by simp⟩
  by_cases h1 : f 1 = 0
  · exact Or.inr ⟨[0], 1, [2], rfl, h1, by simpa using h0⟩
  by_cases h2 : f 2 = 0
  · exact Or.inr ⟨[0, 1], 2, [], rfl, h2, by simpa using ⟨h0, h1⟩⟩
  · exact Or.inl (by simpa [onUp] using ⟨h0, h1, h2⟩)

theorem onactive_runs (x : Bool) (hp : Mapped p e) (hfit : c.addr + 64 ≤ e)
    (hw : fileAt p m c.addr = c.word) (hd : 64 ∣ c.size) (ht : c.tag = .reserved)
    {l r : List ℕ} {i : ℕ} (hup : onUp = l ++ i :: r) (hi : fileAt p m (onOff c.addr i) = 0)
    (hl : ∀ j ∈ l, fileAt p m (onOff c.addr j) ≠ 0) (parentp_ nptr_ : ℕ) :
    Runs x (pmemallocOnactive p (c.addr + 64) parentp_ nptr_) m ()
      (relocate p (registerEvents c.addr i (off p parentp_) nptr_)) := by
  have hfits := hp.fits
  have hclp : clumpOf p (c.addr + 64) = p + c.addr := by
    rw [clumpOf_eq (by omega) (by omega)]
    omega
  unfold pmemallocOnactive
  rw [hclp, registerEvents_up hp.aligned]
  refine Runs.load_bind hw ?_
  rw [Clump.clumpState_word hd, ht, assertEq, if_pos rfl, hup]
  refine (Runs.pure x m ()).bind_silent ?_
  simp only [fileAt_apply, ← onOff_up] at hi hl
  exact placeOn_runs (fun _ => rfl) _ _ _ _ hi hl

theorem onfree_runs (hp : Mapped p e) (hfit : c.addr + 64 ≤ e)
    (hw : fileAt p m c.addr = c.word) (hd : 64 ∣ c.size) (ht : c.tag = .active)
    {l r : List ℕ} {i : ℕ} (hup : onUp = l ++ i :: r) (hi : fileAt p m (onOff c.addr i) = 0)
    (hl : ∀ j ∈ l, fileAt p m (onOff c.addr j) ≠ 0) (parentp_ nptr_ : ℕ) :
    Runs false (pmemallocOnfree p (c.addr + 64) parentp_ nptr_) m ()
      (relocate p (registerEvents c.addr i (off p parentp_) nptr_)) := by
  have hfits := hp.fits
  have hclp : clumpOf p (c.addr + 64) = p + c.addr := by
    rw [clumpOf_eq (by omega) (by omega)]
    omega
  refine runs_persistFlags fun flags => ?_
  rw [hclp, registerEvents_up hp.aligned]
  refine Runs.load_bind hw ?_
  rw [Clump.clumpState_word hd, ht, assertEq, if_pos rfl, hup]
  refine (Runs.pure false m ()).bind_silent ?_
  simp only [fileAt_apply, ← onOff_up] at hi hl
  exact placeOn_runs (by simp) _ _ _ _ hi hl

theorem registered_register (h : ∀ i < 3, d (onOff c.addr i) = 0) {o : ℕ} (ho : o ≠ 0) (v : ℕ) :
    registered (applyAll (registerEvents c.addr 0 o v) d) c = [(pmem 0 o, v)] := by
  have h0 : applyAll (registerEvents c.addr 0 o v) d (onOff c.addr 0) = o := by
    simp [registerEvents, headerFlush]
  have hp : applyAll (registerEvents c.addr 0 o v) d (onPtr c.addr 0) = v := by
    simp [registerEvents, headerFlush, Function.update_of_ne (Ne.symm (onOff_ne_onPtr _ _ _))]
  have h1 : applyAll (registerEvents c.addr 0 o v) d (onOff c.addr 1) = 0 := by
    rw [applyAll_of_not_writes, h 1 (by omega)]
    intro ev hev hw
    rcases writes_registerEvents hev hw with h | h
    · exact onOff_ne_onPtr _ _ _ h
    · exact absurd (onOff_injective h) (by omega)
  rw [registered, onUp, onEntries_cons (by rw [h0]; exact ho), h0, hp, onEntries_unused h1]

/-- The on-list has the entries `ss` and no others. -/
structure Lists (d : Mem) (c : Clump) (ss : List (ℕ × ℕ)) : Prop where
  entry : ∀ i (h : i < ss.length), d (onOff c.addr i) = ss[i].1 ∧ d (onPtr c.addr i) = ss[i].2
  unused : ∀ i, ss.length ≤ i → i < 3 → d (onOff c.addr i) = 0
  off : ∀ s ∈ ss, s.1 ≠ 0 ∧ s.1 < 2 ^ 64
  length_le : ss.length ≤ 3

theorem Lists.onEntries_eq {ss : List (ℕ × ℕ)} (h : Lists d c ss) :
    ∀ k i, i + k = 3 → onEntries d 0 c.addr (List.range' i k) = ss.drop i
  | 0, i, hi => by
    have := h.length_le
    rw [List.drop_of_length_le (by omega)]
    rfl
  | k + 1, i, hi => by
    rw [List.range'_succ]
    by_cases hlt : i < ss.length
    · obtain ⟨h1, h2⟩ := h.entry i hlt
      obtain ⟨h3, h4⟩ := h.off _ (List.getElem_mem hlt)
      rw [onEntries_cons (by rw [h1]; exact h3), h1, h2, pmem_eq (by omega), Nat.zero_add,
        h.onEntries_eq k (i + 1) (by omega), ← List.getElem_cons_drop hlt]
    · rw [onEntries_unused (h.unused i (by omega) (by omega)), List.drop_of_length_le (by omega)]

theorem Lists.registered_eq {ss : List (ℕ × ℕ)} (h : Lists d c ss) : registered d c = ss :=
  h.onEntries_eq 3 0 rfl

theorem Lists.onUp_split {ss : List (ℕ × ℕ)} (h : Lists d c ss) (hlt : ss.length < 3) :
    ∃ l r, onUp = l ++ ss.length :: r ∧ d (onOff c.addr ss.length) = 0 ∧
      ∀ j ∈ l, d (onOff c.addr j) ≠ 0 := by
  refine ⟨List.range' 0 ss.length, List.range' (ss.length + 1) (2 - ss.length), ?_,
    h.unused _ (le_refl _) hlt, fun j hj => ?_⟩
  · have : ss.length = 0 ∨ ss.length = 1 ∨ ss.length = 2 := by omega
    rcases this with h | h | h <;> rw [h] <;> rfl
  · rw [List.mem_range'_1] at hj
    rw [(h.entry j (by omega)).1]
    exact (h.off _ (List.getElem_mem _)).1

theorem Lists.snoc {d' : Mem} {ss : List (ℕ × ℕ)} {s : ℕ × ℕ} (h : Lists d c ss) (hlt : ss.length < 3)
    (hs : s.1 ≠ 0 ∧ s.1 < 2 ^ 64) (ho : d' (onOff c.addr ss.length) = s.1)
    (hp : d' (onPtr c.addr ss.length) = s.2)
    (hkeep : ∀ i, i ≠ ss.length → d' (onOff c.addr i) = d (onOff c.addr i) ∧
      d' (onPtr c.addr i) = d (onPtr c.addr i)) : Lists d' c (ss ++ [s]) := by
  refine ⟨fun i hi => ?_, fun i hi hi3 => ?_, fun t ht => ?_, by simp; omega⟩
  · rw [List.length_append, List.length_singleton] at hi
    by_cases heq : i = ss.length
    · subst heq
      rw [List.getElem_append_right (le_refl _)]
      simpa using ⟨ho, hp⟩
    · have hlt' : i < ss.length := by omega
      obtain ⟨h1, h2⟩ := hkeep i heq
      rw [List.getElem_append_left hlt', h1, h2]
      exact h.entry i hlt'
  · rw [List.length_append, List.length_singleton] at hi
    rw [(hkeep i (by omega)).1]
    exact h.unused i (by omega) hi3
  · rcases List.mem_append.mp ht with ht | ht
    · exact h.off t ht
    · rw [List.mem_singleton.mp ht]
      exact hs

end Register

end PmemExamples.Pool
