import PmemExamples.Pool.Stops

/-! # A process and its calls

A process remembers the pointers it got from `pmemalloc_reserve` and has not freed, and the library
remembers `gclp`. Its calls are those of `pmemalloc.h`; between them it stores to its own words. -/

namespace PmemExamples.Pool
open Persist Libpmem Tiling
set_option autoImplicit false

/-- A pointer `pmemalloc_reserve` returned, and the bytes asked for. -/
structure Pointer where
  ptr_ : ℕ
  size : ℕ
  deriving DecidableEq

/-- What a process remembers. -/
structure Client where
  gclp : ℕ
  held : List Pointer
  deriving DecidableEq

/-- A call, or a store of the process itself. Destinations are given as offsets in the pool. -/
inductive Call where
  | reserve (size : ℕ)
  | store (x v : ℕ)
  | onactive (ptr_ parent nptr_ : ℕ)
  | onfree (ptr_ parent nptr_ : ℕ)
  | activate (ptr_ : ℕ)
  | free (ptr_ : ℕ)

/-- The call in a process that mapped the pool at `p`. -/
def Call.prog (p : ℕ) (s : Client) : Call → Prog Client
  | .reserve size => do
    let r ← pmemallocReserve p s.gclp size
    return ⟨r.gclp, if r.ptr_ = 0 then s.held else ⟨r.ptr_, size⟩ :: s.held⟩
  | .store x v => do
    Prog.store (p + x) v
    return s
  | .onactive ptr_ parent nptr_ => do
    pmemallocOnactive p ptr_ (pmem p parent) nptr_
    return s
  | .onfree ptr_ parent nptr_ => do
    pmemallocOnfree p ptr_ (pmem p parent) nptr_
    return s
  | .activate ptr_ => do
    pmemallocActivate p ptr_
    return s
  | .free ptr_ => do
    pmemallocFree p ptr_
    return ⟨s.gclp, s.held.filter fun q => q.ptr_ ≠ ptr_⟩

/-- The header of the block at `ptr_`. -/
def headerOf (ptr_ : ℕ) : ℕ := ptr_ - pmemChunkSize

/-- The process may store to the word: it is in the static area or in a payload it holds. -/
def Client.Owns (s : Client) (d : Mem) (x : ℕ) : Prop := 8 ∣ x ∧ (InStatic x ∨ ∃ q ∈ s.held,
  q.ptr_ ≤ x ∧ x < headerOf q.ptr_ + clumpSz (d (headerOf q.ptr_)))

/-- It holds the pointer, and the block is in the state. -/
def Client.Holds (s : Client) (d : Mem) (ptr_ : ℕ) (t : State) : Prop :=
  (∃ q ∈ s.held, q.ptr_ = ptr_) ∧ clumpState (d (headerOf ptr_)) = t.code

/-- The assignments registered for the block at `ptr_` go to words of the process. -/
def Client.OwnsEntries (s : Client) (d : Mem) (ptr_ : ℕ) : Prop :=
  ∀ t ∈ onEntries d 0 (headerOf ptr_) onUp, s.Owns d t.1

/-- What the routines ask of their callers. -/
def Call.Legal (d : Mem) (s : Client) : Call → Prop
  | .reserve size => size + 127 < 2 ^ 64
  | .store x _ => s.Owns d x
  | .onactive ptr_ parent _ => s.Holds d ptr_ .reserved ∧ s.Owns d parent ∧
    ∃ i < 3, d (onOff (headerOf ptr_) i) = 0
  | .onfree ptr_ parent _ => s.Holds d ptr_ .active ∧ s.Owns d parent ∧
    ∃ i < 3, d (onOff (headerOf ptr_) i) = 0
  | .activate ptr_ => s.Holds d ptr_ .reserved ∧ s.OwnsEntries d ptr_
  | .free ptr_ => s.Holds d ptr_ .reserved ∨ s.Holds d ptr_ .active ∧ s.OwnsEntries d ptr_

/-- The state of a process that has made some legal calls, each meeting `cond`; it started in `w₀`. -/
inductive Reached (p : ℕ) (w₀ : World) (cond : Mem → Client → Call → Prop) : World → Client → Prop
  | init : Reached p w₀ cond w₀ ⟨0, []⟩
  | call {w w' : World} {s s' : Client} {c : Call} (h : Reached p w₀ cond w s)
      (hl : c.Legal (fileAt p w.mem) s) (hc : cond (fileAt p w.mem) s c)
      (hrun : c.prog p s w = (.ok s', w')) : Reached p w₀ cond w' s'

/-! ## The invariant -/

/-- Every held pointer is that of a block big enough, and no two are the same. -/
structure Blocks (held : List Pointer) (hs : List Clump) : Prop where
  block : ∀ q ∈ held, ∃ b ∈ hs, b.addr + 64 = q.ptr_ ∧ q.size + 64 ≤ b.size
  nodup : (held.map Pointer.ptr_).Nodup

/-- The file serves the process. With `live` every block it holds is on the walk. -/
def Serves (d : Mem) (e p : ℕ) (s : Client) (live : Prop) : Prop :=
  (s.gclp = 0 ∨ p ≤ s.gclp) ∧ ∃ ls ts us hs, Heap d e (cursorOff p s.gclp) ls ts us hs ∧
    Blocks s.held hs ∧ (live → ∀ b ∈ hs, b ∈ ls ++ us)

/-- The first-fit search from the cursor takes no clump off the walk. -/
def ReservesOnWalk (e p : ℕ) (d : Mem) (s : Client) : Call → Prop
  | .reserve size => ∀ cs gs, Chain d pmemClumpOffset cs e → Chain d (cursorOff p s.gclp) gs e →
    ∀ c ∈ gs, c.Fits (reserveSize size) → c ∈ cs
  | _ => True

/-- The memory shows the pool `d` at `p`. -/
def Shown (p e : ℕ) (d m : Mem) : Prop := ∀ x < e + 64, fileAt p m x = d x

/-- What a call does to the pool `d`, in every memory that shows it: it returns, stores to the pool
only, can be stopped anywhere, and the pool serves the process afterwards. -/
def Goes (d : Mem) (e p : ℕ) (prog : Prog Client) (live : Prop) : Prop :=
  ∃ s' evs, (∀ m, Shown p e d m → Runs false prog m s' (relocate p evs)) ∧
    (∀ k, ∃ cs, Stopped e (applyAll (evs.take k) d) cs) ∧
    (∀ ev ∈ evs, ∀ x, ev.Writes x → InPool e x) ∧ Serves (applyAll evs d) e p s' live

section Steps
variable {m d : Mem} {e p : ℕ} {ls ts us hs : List Clump} {s : Client} {b : Clump} {live : Prop}

theorem returns {α β : Type} {prog : Prog α} {a : α} {evs : List Event} {f : α → β}
    (h : Runs false prog m a evs) : Runs false (prog >>= fun r => pure (f r)) m (f a) evs := by
  have hret : Runs false (prog >>= fun r => pure (f r)) m (f a) (evs ++ []) :=
    h.bind (Runs.pure false _ (f a))
  rwa [List.append_nil] at hret

theorem owned_of_owns {g : ℕ} (h : Heap d e g ls ts us hs) (hb : Blocks s.held hs) {x : ℕ} (hx : s.Owns d x) :
    8 ∣ x ∧ Owned hs x := by
  refine ⟨hx.1, hx.2.imp_right ?_⟩
  rintro ⟨q, hq, h1, h2⟩
  obtain ⟨b, hbm, hba, -⟩ := hb.block q hq
  obtain ⟨-, hw, -, hd⟩ := h.held b hbm
  have haddr : headerOf q.ptr_ = b.addr := by
    rw [headerOf, ← hba, pmemChunkSize]
    omega
  rw [haddr, hw, Clump.clumpSz_word hd] at h2
  exact ⟨b, hbm, by omega, h2⟩

theorem block_of_holds {g : ℕ} (h : Heap d e g ls ts us hs) (hb : Blocks s.held hs) {ptr_ : ℕ} {t : State}
    (hx : s.Holds d ptr_ t) : ∃ b ∈ hs, ptr_ = b.addr + 64 ∧ headerOf ptr_ = b.addr ∧ b.tag = t := by
  obtain ⟨⟨q, hq, rfl⟩, hstate⟩ := hx
  obtain ⟨b, hbm, hba, -⟩ := hb.block q hq
  obtain ⟨-, hw, -, hd⟩ := h.held b hbm
  have haddr : headerOf q.ptr_ = b.addr := by
    rw [headerOf, ← hba, pmemChunkSize]
    omega
  rw [haddr, hw, Clump.clumpState_word hd] at hstate
  exact ⟨b, hbm, hba.symm, haddr, State.code_injective hstate⟩

theorem Heap.shown {g : ℕ} (h : Heap d e g ls ts us hs) (hm : Shown p e d m) :
    Heap (fileAt p m) e g ls ts us hs :=
  h.congr fun x hx => hm x (by have := h.fixed_le hx; omega)

theorem registered_congr {d' : Mem} (hd : ∀ x, b.InHeader x → d' x = d x) : registered d' b = registered d b :=
  onEntries_congr fun _ hi => ⟨hd _ (onOff_inHeader (lt_of_mem_onUp hi)), hd _ (onPtr_inHeader (lt_of_mem_onUp hi))⟩

theorem goes_own (h : Heap d e (cursorOff p s.gclp) ls ts us hs) (hg : s.gclp = 0 ∨ p ≤ s.gclp)
    (hb : Blocks s.held hs) (hlive : live → ∀ b ∈ hs, b ∈ ls ++ us) {prog : Prog Client} {evs : List Event}
    (hr : ∀ m, Shown p e d m → Runs false prog m s (relocate p evs))
    (hw : ∀ ev ∈ evs, ∀ x, ev.Writes x → ¬ Heap.Fixed e ls ts us hs x ∧ InPool e x) :
    Goes d e p prog live := by
  have hh := h.congr_take fun ev hev x hx => (hw ev hev x hx).1
  have hend := hh evs.length
  rw [List.take_length] at hend
  exact ⟨s, evs, hr, fun k => (hh k).stopped, fun ev hev x hx => (hw ev hev x hx).2, hg, ls, ts, us, hs,
    hend, hb, hlive⟩

theorem goes_register (h : Heap d e (cursorOff p s.gclp) ls ts us hs) (hg : s.gclp = 0 ∨ p ≤ s.gclp)
    (hb : Blocks s.held hs) (hlive : live → ∀ b ∈ hs, b ∈ ls ++ us) (hbm : b ∈ hs)
    {prog : Prog Client} {i o v : ℕ} (hi : i < 3)
    (hr : ∀ m, Shown p e d m → Runs false prog m s (relocate p (registerEvents b.addr i o v))) :
    Goes d e p prog live := by
  refine goes_own h hg hb hlive hr fun ev hev x hx => ?_
  rcases writes_registerEvents hev hx with rfl | rfl
  · have hpr := h.onPtr_private hbm hi
    exact ⟨h.not_fixed_of_private hbm hpr, h.block_inPool hbm (by have := hpr.1; omega)
      (by unfold onPtr; omega)⟩
  · have hpr := h.onOff_private hbm hi
    exact ⟨h.not_fixed_of_private hbm hpr, h.block_inPool hbm (by have := hpr.1; omega)
      (by unfold onOff; omega)⟩

theorem blocks_restate {held : List Pointer} (hb : Blocks held hs) (a : ℕ) (t : State) :
    Blocks held (hs.map (Clump.restate a t)) := by
  refine ⟨fun q hq => ?_, hb.nodup⟩
  obtain ⟨b, hbm, h1, h2⟩ := hb.block q hq
  exact ⟨_, List.mem_map_of_mem hbm, h1, h2⟩

theorem goes_activate (h : Heap d e (cursorOff p s.gclp) ls ts us hs) (hg : s.gclp = 0 ∨ p ≤ s.gclp)
    (hb : Blocks s.held hs) (hlive : live → ∀ b ∈ hs, b ∈ ls ++ us) (hbm : b ∈ hs)
    (hown : ∀ t ∈ registered d b, 8 ∣ t.1 ∧ Owned hs t.1) {prog : Prog Client}
    (hr : ∀ m, Shown p e d m → Runs false prog m s (relocate p (activateEvents d b))) :
    Goes d e p prog live := by
  refine ⟨s, activateEvents d b, hr, fun k => ?_, fun ev hev x hx => ?_, hg, _, _, _, _,
    h.activated hbm hown, blocks_restate hb _ _, fun hl c hc => ?_⟩
  · cases k with
    | zero => exact h.stopped
    | succ k => exact h.commit_stopped hbm (Or.inl rfl) hown k
  · rcases List.mem_cons.mp hev with rfl | hev
    · exact absurd hx (Event.writes_flush _ _)
    · exact (h.commit_writes hbm (Or.inl rfl) hown hev hx).2
  · obtain ⟨c₀, hc₀, rfl⟩ := List.mem_map.mp hc
    rw [← List.map_append]
    exact List.mem_map_of_mem (hlive hl c₀ hc₀)

theorem goes_free (h : Heap d e (cursorOff p s.gclp) ls ts us hs) (hg : s.gclp = 0 ∨ p ≤ s.gclp)
    (hb : Blocks s.held hs) (hlive : live → ∀ b ∈ hs, b ∈ ls ++ us) (hbm : b ∈ hs)
    (hown : b.tag = .active → ∀ t ∈ registered d b, 8 ∣ t.1 ∧ Owned hs t.1) {prog : Prog Client}
    (hr : ∀ m, Shown p e d m → Runs false prog m ⟨s.gclp, s.held.filter fun q => q.ptr_ ≠ b.addr + 64⟩
      (relocate p (releaseEvents d b ++ mergeEvents [] ((ls ++ us).map (Clump.restate b.addr .free))))) :
    Goes d e p prog live := by
  have hrel := h.released hbm hown
  rw [List.map_append] at hr
  obtain ⟨ls', ts', us', hmerge, hheap⟩ := hrel.coalesce
  refine ⟨_, _, hr, fun k => ?_, fun ev hev x hx => ?_, hg, ls', ts', us',
    hs.filter fun c => c.addr ≠ b.addr, ?_, ?_, fun hl c hc => ?_⟩
  · rcases applyAll_take_append (releaseEvents d b) (mergeEvents [] (ls.map (Clump.restate b.addr .free) ++
      us.map (Clump.restate b.addr .free))) d k with ⟨-, hcut⟩ | ⟨-, hcut⟩
    · rw [hcut]
      exact h.release_stopped hbm hown k
    · rw [hcut]
      exact hrel.coalesce_stopped _
  · rcases List.mem_append.mp hev with hev | hev
    · exact h.release_inPool hbm hown hev hx
    · exact hrel.coalesce_inPool hev hx
  · rw [applyAll_append]
    exact hheap
  · refine ⟨fun q hq => ?_, hb.nodup.sublist (List.filter_sublist.map _)⟩
    rw [List.mem_filter, decide_eq_true_eq] at hq
    obtain ⟨c, hc, hca, hcs⟩ := hb.block q hq.1
    refine ⟨c, List.mem_filter.mpr ⟨hc, ?_⟩, hca, hcs⟩
    rw [decide_eq_true_eq]
    exact fun heq => hq.2 (by rw [← hca, heq])
  · rw [hmerge]
    refine (mem_mergeRuns_of_not (isFree_of_ne (hrel.held c hc).1.ne_free)).mpr ?_
    rw [List.mem_filter, decide_eq_true_eq] at hc
    rw [← List.map_append, ← Clump.restate_of_ne hc.2 .free]
    exact List.mem_map_of_mem (hlive hl c hc.1)

theorem blocks_cons {held : List Pointer} {c : Clump} {size sz : ℕ} (hb : Blocks held hs)
    (hnew : ∀ b ∈ hs, b.addr ≠ c.addr) (hsize : size + 127 < 2 ^ 64) (hle : reserveSize size ≤ sz) :
    Blocks (⟨c.addr + 64, size⟩ :: held) (⟨c.addr, sz, .reserved⟩ :: hs) := by
  refine ⟨fun q hq => ?_, List.nodup_cons.mpr ⟨fun hm => ?_, hb.nodup⟩⟩
  · rcases List.mem_cons.mp hq with rfl | hq
    · have := le_reserveSize hsize
      exact ⟨_, List.mem_cons_self, rfl, by dsimp only; omega⟩
    · obtain ⟨b, hbm, h1, h2⟩ := hb.block q hq
      exact ⟨b, List.mem_cons_of_mem _ hbm, h1, h2⟩
  · obtain ⟨q, hq, heq⟩ := List.mem_map.mp hm
    obtain ⟨b, hbm, h1, -⟩ := hb.block q hq
    exact hnew b hbm (Nat.add_right_cancel (h1.trans heq))

theorem serves_reserve (h : Heap d e (cursorOff p s.gclp) ls ts us hs) (hb : Blocks s.held hs)
    (hlive : live → ∀ b ∈ hs, b ∈ ls ++ us) {size : ℕ} (hsize : size + 127 < 2 ^ 64) {l r : List Clump}
    {c : Clump} (hsplit : ts ++ us = l ++ c :: r) (hfit : c.Fits (reserveSize size)) :
    Serves (applyAll (reserveEvents c (reserveSize size)) d) e p
      ⟨p + c.addr, ⟨c.addr + 64, size⟩ :: s.held⟩ (live ∧ ReservesOnWalk e p d s (.reserve size)) := by
  have hn := le_reserveSize hsize
  have hpos : 0 < reserveSize size := by omega
  have hdvd := reserveSize_dvd size
  have hcm : c ∈ ts ++ us := by rw [hsplit]; simp
  have hc0 : pmemClumpOffset ≤ c.addr := by
    rcases List.mem_append.mp hcm with hc | hc
    · exact h.le_of_fixed (Or.inr (Or.inl ⟨c, hc, rfl⟩))
    · exact h.le_of_fixed (Or.inl ⟨c, List.mem_append_right _ hc, rfl⟩)
  have hcursor : cursorOff p (p + c.addr) = c.addr := by
    simp only [pmemClumpOffset] at hc0
    rw [cursorOff, if_neg (by omega)]
    omega
  have hnewaddr : ∀ b ∈ hs, b.addr ≠ c.addr := by
    intro b hbm heq
    have hc : c ∈ ls ++ us ∨ c ∈ ts ∨ c ∈ hs := by
      rcases List.mem_append.mp hcm with hc | hc
      · exact Or.inr (Or.inl hc)
      · exact Or.inl (List.mem_append_right _ hc)
    obtain rfl := h.eq_held hbm hc heq.symm
    exact (h.held c hbm).1.ne_free hfit.1
  refine ⟨Or.inr (Nat.le_add_right _ _), ?_⟩
  dsimp only
  rw [hcursor]
  have hin : (∃ r', ts = l ++ c :: r') ∨ ∃ l', us = l' ++ c :: r := by
    rcases List.append_eq_append_iff.mp hsplit with ⟨m', -, hu⟩ | ⟨m', ht, hcr⟩
    · exact Or.inr ⟨m', hu⟩
    · cases m' with
      | nil => exact Or.inr ⟨[], hcr.symm⟩
      | cons c' m' =>
        obtain ⟨rfl, -⟩ := List.cons.inj hcr
        exact Or.inl ⟨m', ht⟩
  rcases hin with ⟨r', rfl⟩ | ⟨l', rfl⟩
  · obtain ⟨ts', sz, hle, hheap⟩ := h.reserve_stale hfit hpos hdvd
    refine ⟨ls, ts', us, _, hheap, blocks_cons hb hnewaddr hsize hle, fun hreq => ?_⟩
    obtain ⟨-, hcond⟩ := hreq
    -- a stale clump is not on the walk
    have hw := hcond _ _ h.walk h.search c hcm hfit
    have hsz := h.search.size_pos hcm
    exact absurd ⟨le_refl _, by omega⟩ (h.walk_apart_stale (c := c) (by simp) hw)
  · obtain ⟨us', sz, hle, hus', hnew, hheap⟩ := h.reserve_walk hfit hpos hdvd
    refine ⟨_, [], us', _, hheap, blocks_cons hb hnewaddr hsize hle, fun hreq b hbm => ?_⟩
    obtain ⟨hl, -⟩ := hreq
    rcases List.mem_cons.mp hbm with rfl | hbm
    · exact List.mem_append_right _ hnew
    · have hbc : b ≠ c := fun heq => (h.held b hbm).1.ne_free (heq ▸ hfit.1)
      have hw := hlive hl b hbm
      rw [hus']
      simp only [List.mem_append, List.mem_cons] at hw ⊢
      tauto

theorem exists_first_fit (n : ℕ) (gs : List Clump) : (∃ l c r, gs = l ++ c :: r ∧ c.Fits n ∧ ∀ b ∈ l, ¬ b.Fits n) ∨
    ∀ b ∈ gs, ¬ b.Fits n := by
  induction gs with
  | nil => exact Or.inr (by simp)
  | cons c gs ih =>
    by_cases hc : c.Fits n
    · exact Or.inl ⟨[], c, gs, rfl, hc, by simp⟩
    · rcases ih with ⟨l, c', r, rfl, hc', hl⟩ | hall
      · exact Or.inl ⟨c :: l, c', r, rfl, hc', List.forall_mem_cons.mpr ⟨hc, hl⟩⟩
      · exact Or.inr (List.forall_mem_cons.mpr ⟨hc, hall⟩)

theorem first_fit_unique {n : ℕ} {c c' : Clump} (hc : c.Fits n) (hc' : c'.Fits n) : ∀ {l l' r r' : List Clump},
    (∀ b ∈ l, ¬ b.Fits n) → (∀ b ∈ l', ¬ b.Fits n) → l ++ c :: r = l' ++ c' :: r' → c = c'
  | [], [], _, _, _, _, h => (List.cons.inj h).1
  | [], _ :: _, _, _, _, hl', h => absurd ((List.cons.inj h).1 ▸ hc) (hl' _ List.mem_cons_self)
  | _ :: _, [], _, _, hl, _, h => absurd ((List.cons.inj h).1 ▸ hc') (hl _ List.mem_cons_self)
  | _ :: _, _ :: _, _, _, hl, hl', h => first_fit_unique hc hc'
    (fun b hb => hl b (List.mem_cons_of_mem _ hb)) (fun b hb => hl' b (List.mem_cons_of_mem _ hb))
    (List.cons.inj h).2

theorem goes_reserve (h : Heap d e (cursorOff p s.gclp) ls ts us hs) (hp : Mapped p e)
    (hg : s.gclp = 0 ∨ p ≤ s.gclp) (hb : Blocks s.held hs)
    (hlive : live → ∀ b ∈ hs, b ∈ ls ++ us) {size : ℕ} (hsize : size + 127 < 2 ^ 64) :
    Goes d e p (Call.prog p s (.reserve size)) (live ∧ ReservesOnWalk e p d s (.reserve size)) := by
  have hn := le_reserveSize hsize
  have hpos : 0 < reserveSize size := by omega
  have hdvd := reserveSize_dvd size
  have hreturn : ∀ {m : Mem} {a : Reserved} {evs : List Event},
      Runs false (pmemallocReserve p s.gclp size) m a evs → Runs false (Call.prog p s (.reserve size)) m
        ⟨a.gclp, if a.ptr_ = 0 then s.held else ⟨a.ptr_, size⟩ :: s.held⟩ evs := fun hr =>
    returns (f := fun r : Reserved => (⟨r.gclp, if r.ptr_ = 0 then s.held else
        ⟨r.ptr_, size⟩ :: s.held⟩ : Client)) hr
  rcases exists_first_fit (reserveSize size) (ts ++ us) with ⟨l, c, r, hsplit, hfit, hl⟩ | hall
  · have hcm : c ∈ ts ++ us := by rw [hsplit]; simp
    have hc0 : pmemClumpOffset ≤ c.addr := by
      rcases List.mem_append.mp hcm with hc | hc
      · exact h.le_of_fixed (Or.inr (Or.inl ⟨c, hc, rfl⟩))
      · exact h.le_of_fixed (Or.inl ⟨c, List.mem_append_right _ hc, rfl⟩)
    refine ⟨⟨p + c.addr, ⟨c.addr + 64, size⟩ :: s.held⟩, reserveEvents c (reserveSize size), fun m hm => ?_,
      fun k => ?_, fun ev hev x hx => ?_, serves_reserve h hb hlive hsize hsplit hfit⟩
    · rcases reserve_runs false hp size hg (h.shown hm).search h.nonempty with
        ⟨l', c', r', hsplit', hfit', hl', hr⟩ | ⟨hnone, -⟩
      · obtain rfl := first_fit_unique hfit hfit' hl hl' (hsplit.symm.trans hsplit')
        have hret := hreturn hr
        dsimp only at hret
        rwa [if_neg (by omega)] at hret
      · exact absurd hfit (hnone c hcm)
    · rcases List.mem_append.mp hcm with hc | hc
      · exact ⟨_, Stopped.of_quiet (h.reserve_stale_walk hc k) (h.quiet _)⟩
      · obtain ⟨l', r', rfl⟩ := List.append_of_mem hc
        have hwalk := h.walk
        have hq := h.quiet
        rw [← List.append_assoc] at hwalk hq
        obtain ⟨sz, r₀, hparts, -, -, hfree⟩ := reservedAs_eq c hfit.2
        rcases reserve_cut hwalk hpos hdvd hfit.2 k with ⟨-, hcut⟩ | hcut
        · exact ⟨_, Stopped.of_quiet hcut (hq _)⟩
        · refine ⟨_, Stopped.of_quiet hcut fun b hbm => ?_⟩
          rw [hparts] at hbm
          simp only [List.mem_append, List.mem_cons] at hbm
          rcases hbm with (hbm | rfl | hbm) | hbm
          · exact hq _ b (by simp only [List.mem_append, List.mem_cons]; tauto)
          · rfl
          · exact pending_of_settled (by rw [hfree b hbm]; rfl)
          · exact hq _ b (by simp only [List.mem_append, List.mem_cons]; tauto)
    · have hin := reserveEvents_within (h.search.size_ge hcm) hev hx
      have := (h.search.tiles.bounds hcm).2
      exact ⟨Or.inr (by omega), by omega⟩
  · have hnil : ∀ ev ∈ ([] : List Event), ∀ x, ev.Writes x →
        ¬ Heap.Fixed e ls ts us hs x ∧ InPool e x := by simp
    refine goes_own h hg hb (fun hl => hlive hl.1) (fun m hm => ?_) hnil
    rcases reserve_runs false hp size hg (h.shown hm).search h.nonempty with
      ⟨l, c, r, hsplit, hfit, -⟩ | ⟨-, hr⟩
    · exact absurd hfit (hall c (by rw [hsplit]; simp))
    · exact hreturn hr

theorem Call.goes (hp : Mapped p e) (hs : Serves d e p s live) {c : Call} (hl : c.Legal d s) :
    Goes d e p (c.prog p s) (live ∧ ReservesOnWalk e p d s c) := by
  obtain ⟨hg, ls, ts, us, hs, h, hb, hlive⟩ := hs
  have hlive' : live ∧ ReservesOnWalk e p d s c → ∀ b ∈ hs, b ∈ ls ++ us := fun hl => hlive hl.1
  have hfit : ∀ b ∈ hs, b.addr + 64 ≤ e := fun b hbm => by
    have := h.end_le hbm
    have := (h.held b hbm).2.2.1
    omega
  have hheader : ∀ {m : Mem}, Shown p e d m → ∀ b ∈ hs, ∀ x, b.InHeader x → fileAt p m x = d x := by
    intro m hm b hbm x hx
    have := hfit b hbm
    have := hx.2
    exact hm x (by omega)
  have hentries : ∀ b ∈ hs, s.OwnsEntries d (b.addr + 64) → ∀ t ∈ registered d b, 8 ∣ t.1 ∧ Owned hs t.1 := by
    intro b _ hown t ht
    refine owned_of_owns h hb (hown t ?_)
    have haddr : headerOf (b.addr + 64) = b.addr := by
      rw [headerOf, pmemChunkSize]
      omega
    rw [haddr]
    exact ht
  have houtside : ∀ b ∈ hs, (∀ t ∈ registered d b, 8 ∣ t.1 ∧ Owned hs t.1) →
      ∀ t ∈ registered d b, t.1 < e ∧ ¬ b.InHeader t.1 := by
    intro b hbm hown t ht
    obtain ⟨h8, ho⟩ := hown t ht
    refine ⟨((h.target_of_owned h8 ho).outside h.walk).lt, fun hin => ?_⟩
    rcases ho with ho | ⟨b', hb', h1, h2⟩
    · have h3 := h.le_of_fixed (Or.inr (Or.inr (Or.inl ⟨b, hbm, rfl⟩)))
      have h4 := ho.2
      have h5 := hin.1
      simp only [pmemClumpOffset, pmemStaticOffset, pmemStaticSize] at h3 h4
      omega
    · have h3 := hin.1
      have h4 := hin.2
      have h5 := (h.held b hbm).2.2.1
      by_cases hbb : b = b'
      · subst hbb; omega
      · rcases h.apart b hbm b' hb' hbb with h6 | h6 <;> omega
  cases c with
  | reserve size => exact goes_reserve h hp hg hb hlive hl
  | store x v =>
    obtain ⟨h8, ho⟩ := owned_of_owns h hb hl
    have hret : ∀ m, Shown p e d m → Runs false (Call.prog p s (.store x v)) m s (relocate p [.store x v]) :=
      fun m _ => returns (Runs.store false m _ v)
    refine goes_own h hg hb hlive' hret fun ev hev y hy => ?_
    rw [List.mem_singleton] at hev
    subst hev
    obtain rfl : x = y := hy
    exact ⟨h.not_fixed_of_owned ho, ho.inPool h⟩
  | onactive ptr_ parent nptr_ =>
    obtain ⟨hholds, -, i, hi, hi0⟩ := hl
    obtain ⟨b, hbm, rfl, haddr, ht⟩ := block_of_holds h hb hholds
    rw [haddr] at hi0
    rcases onUp_split fun j => d (onOff b.addr j) with hall | ⟨l, j, r, hup, hj, hused⟩
    · exact absurd hi0 (hall i (by simp [onUp]; omega))
    · refine goes_register h hg hb hlive' hbm (lt_of_mem_onUp (by rw [hup]; simp)) fun m hm =>
        returns (onactive_runs false hp (hfit b hbm) ((h.shown hm).held b hbm).2.1 (h.held b hbm).2.2.2 ht
          hup ?_ (fun k hk => ?_) _ _)
      · rw [hheader hm b hbm _ (onOff_inHeader (lt_of_mem_onUp (by rw [hup]; simp)))]
        exact hj
      · rw [hheader hm b hbm _ (onOff_inHeader (lt_of_mem_onUp (by rw [hup]; simp [hk])))]
        exact hused k hk
  | onfree ptr_ parent nptr_ =>
    obtain ⟨hholds, -, i, hi, hi0⟩ := hl
    obtain ⟨b, hbm, rfl, haddr, ht⟩ := block_of_holds h hb hholds
    rw [haddr] at hi0
    rcases onUp_split fun j => d (onOff b.addr j) with hall | ⟨l, j, r, hup, hj, hused⟩
    · exact absurd hi0 (hall i (by simp [onUp]; omega))
    · refine goes_register h hg hb hlive' hbm (lt_of_mem_onUp (by rw [hup]; simp)) fun m hm =>
        returns (onfree_runs hp (hfit b hbm) ((h.shown hm).held b hbm).2.1 (h.held b hbm).2.2.2 ht
          hup ?_ (fun k hk => ?_) _ _)
      · rw [hheader hm b hbm _ (onOff_inHeader (lt_of_mem_onUp (by rw [hup]; simp)))]
        exact hj
      · rw [hheader hm b hbm _ (onOff_inHeader (lt_of_mem_onUp (by rw [hup]; simp [hk])))]
        exact hused k hk
  | activate ptr_ =>
    obtain ⟨hholds, hown⟩ := hl
    obtain ⟨b, hbm, rfl, -, ht⟩ := block_of_holds h hb hholds
    have hsz := (h.held b hbm).2.2.1
    have hreg := hentries b hbm hown
    refine goes_activate h hg hb hlive' hbm hreg fun m hm => ?_
    have hsame := registered_congr (hheader hm b hbm)
    have hr := activate_runs false hp (h.end_le hbm) ((h.shown hm).held b hbm).2.1 (by omega)
      (h.held b hbm).2.2.2 ht (by rw [hsame]; exact houtside b hbm hreg)
    rw [activateEvents, commitEvents_congr (Or.inl rfl) hsame] at hr
    exact returns hr
  | free ptr_ =>
    have hblock : ∃ b ∈ hs, ptr_ = b.addr + 64 ∧
        (b.tag = .active → ∀ t ∈ registered d b, 8 ∣ t.1 ∧ Owned hs t.1) := by
      rcases hl with hholds | ⟨hholds, hown⟩
      · obtain ⟨b, hbm, rfl, -, ht⟩ := block_of_holds h hb hholds
        exact ⟨b, hbm, rfl, fun ha => by rw [ht] at ha; cases ha⟩
      · obtain ⟨b, hbm, rfl, -, -⟩ := block_of_holds h hb hholds
        exact ⟨b, hbm, rfl, fun _ => hentries b hbm hown⟩
    obtain ⟨b, hbm, rfl, hreg⟩ := hblock
    refine goes_free h hg hb hlive' hbm hreg fun m hm => ?_
    have hsame := registered_congr (hheader hm b hbm)
    have hrel : releaseEvents (fileAt p m) b = releaseEvents d b := by
      unfold releaseEvents
      rw [commitEvents_congr (Or.inr rfl) hsame]
    have h' := h.shown hm
    have hchain := (h'.released hbm (by rw [hsame]; exact hreg)).walk
    rw [← List.map_append] at hchain
    have hr := free_runs_of hp (hfit b hbm) (h'.held b hbm).2.1 (h.held b hbm).2.2.2 (h.held b hbm).1
      (fun ha => by rw [hsame]; exact houtside b hbm (hreg ha)) hchain
    rw [hrel] at hr
    exact returns hr

end Steps

theorem Reached.serves {e p : ℕ} {w₀ w : World} {s : Client} {cond : Mem → Client → Call → Prop}
    (hp : Mapped p e) (h₀ : Serves (fileAt p w₀.mem) e p ⟨0, []⟩ True) (hr : Reached p w₀ cond w s) :
    Serves (fileAt p w.mem) e p s (∀ d s c, cond d s c → ReservesOnWalk e p d s c) := by
  induction hr with
  | init =>
    obtain ⟨hg, ls, ts, us, hs, h, hb, hl⟩ := h₀
    exact ⟨hg, ls, ts, us, hs, h, hb, fun _ => hl trivial⟩
  | @call w w' s s' c h hl hc hrun ih =>
    obtain ⟨s'', evs, hruns, -, -, hserves⟩ := Call.goes hp ih hl
    obtain ⟨hres, hmem⟩ := (hruns w.mem fun _ _ => rfl).mem_eq rfl
    rw [hrun] at hres hmem
    obtain rfl : s' = s'' := Outcome.ok.inj hres
    rw [hmem, fileAt_applyAll]
    obtain ⟨hg, ls, ts, us, hs, hheap, hb, hlive⟩ := hserves
    exact ⟨hg, ls, ts, us, hs, hheap, hb, fun hall => hlive ⟨hall, hall _ _ _ hc⟩⟩

end PmemExamples.Pool
