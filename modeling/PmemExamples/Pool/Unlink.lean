import PmemExamples.Pool.RelaxedFree

/-! # Unlinking and freeing in the relaxed build

Registering an assignment touches no line but that of the clump's header, so a crash in it leaves the
clump active, and whether a destination survives the freeing is decided before the first call. -/

namespace PmemExamples.Pool
open Persist Libpmem Tiling
set_option autoImplicit false

theorem onfreeEvents_touches {clp i o v : ℕ} {b : Bool} (h : 64 ∣ clp) (hi : i < 3) {ev : Event} {ℓ : ℕ}
    (he : ev ∈ onfreeEvents clp i o v b) (hℓ : ev.Touches ℓ) : ℓ = lineOf clp := by
  have hflush : ∀ k, (Event.flush (clLines clp sizeofClump)).Touches k → k = lineOf clp := by
    intro k hk
    rw [Event.touches_flush, mem_clLines, sizeofClump] at hk
    unfold lineOf
    omega
  rw [onfreeEvents, List.mem_cons, List.mem_append] at he
  rcases he with rfl | he | he
  · rw [Event.touches_store, lineOf_onPtr h hi] at hℓ
    exact hℓ.symm
  · unfold maybeFlush at he
    split at he
    · rw [List.mem_singleton.mp he] at hℓ
      exact hflush _ hℓ
    · simp at he
  · simp only [List.mem_cons, List.not_mem_nil, or_false] at he
    rcases he with rfl | rfl
    · rw [Event.touches_store, lineOf_onOff h hi] at hℓ
      exact hℓ.symm
    · exact hflush _ hℓ

theorem writes_onfreeEvents {clp i o v x : ℕ} {b : Bool} {ev : Event} (he : ev ∈ onfreeEvents clp i o v b)
    (hx : ev.Writes x) : x = onPtr clp i ∨ x = onOff clp i := by
  rw [onfreeEvents, List.mem_cons, List.mem_append] at he
  rcases he with rfl | he | he
  · exact Or.inl hx.symm
  · exact absurd hx (not_writes_maybeFlush he)
  · simp only [List.mem_cons, List.not_mem_nil, or_false] at he
    rcases he with rfl | rfl
    · exact Or.inr hx.symm
    · exact absurd hx (Event.writes_flush _ _)

/-- Events that leave the destination's line alone decide nothing about it. -/
theorem Unlinks.append_iff {w w' : World} {p : ℕ} {evs : List Event} {zl zr : List ((ℕ × ℕ) × Bool)}
    {z : (ℕ × ℕ) × Bool} (hb : w'.base = w.base) (ht : w'.trace = w.trace ++ evs)
    (hno : ∀ ev ∈ evs, ¬ ev.Touches (lineOf (p + z.1.1))) :
    Unlinks w' p zl z zr ↔ Unlinks w p zl z zr := by
  have hflush : ∀ ev ∈ evs, ¬ ev.Flushes (lineOf (p + z.1.1)) := fun ev hev h => hno ev hev h.touches
  have hkeep : ∀ kept : List Event, (∀ ev ∈ kept, ev ∈ evs) → ∀ m : Mem,
      applyAll kept m (p + z.1.1) = m (p + z.1.1) := fun kept hk m =>
    applyAll_of_not_writes (fun ev hev hw => hno ev (hk ev hev) hw.touches) m
  have hmem : fileAt p w'.mem z.1.1 = fileAt p w.mem z.1.1 := by
    rw [fileAt_apply, fileAt_apply, World.mem, hb, ht, applyAll_append]
    exact hkeep evs (fun _ h => h) _
  have himage : (∀ m₀, CrashImage w'.base w'.trace m₀ → fileAt p m₀ z.1.1 = z.1.2) ↔
      ∀ m₀, CrashImage w.base w.trace m₀ → fileAt p m₀ z.1.1 = z.1.2 := by
    rw [hb, ht]
    constructor
    · intro h m₀ hm₀
      obtain ⟨kept, lost, htr, hl, hag⟩ := hm₀ (lineOf (p + z.1.1))
      have hcut : w.trace ++ evs = kept ++ (lost ++ evs) := by rw [htr, List.append_assoc]
      have hlost : ∀ ev ∈ lost ++ evs, ¬ ev.Flushes (lineOf (p + z.1.1)) := by
        intro ev hev
        rcases List.mem_append.mp hev with hev | hev
        · exact hl ev hev
        · exact hflush ev hev
      rw [fileAt_apply, hag _ rfl, ← h _ (CrashImage.of_line hcut hlost), fileAt_apply, if_pos rfl]
    · intro h m hm
      rcases hm.append_cases (lineOf (p + z.1.1)) with ⟨m₀, hm₀, -, hag⟩ | ⟨kept, lost, rfl, -, hag⟩
      · rw [fileAt_apply, hag _ rfl]
        exact h m₀ hm₀
      · rw [fileAt_apply, hag _ rfl, hkeep kept (fun _ h => List.mem_append_left _ h)]
        exact h _ (CrashImage.all _ _)
  unfold Unlinks
  rw [hmem, himage]

/-- Every destination survives. -/
def AllUnlinked (w : World) (p : ℕ) (zs : List ((ℕ × ℕ) × Bool)) : Prop :=
  ∀ zl z zr, zs = zl ++ z :: zr → Unlinks w p zl z zr

namespace Freeing
variable {w : World} {p e : ℕ} {l r : List Clump} {c : Clump} {ss : List (ℕ × ℕ)} {s : ℕ × ℕ}

theorem onfree_step (h : Freeing w p l c r e ss) (hlist : Lists (fileAt p w.mem) c ss)
    (hlt : ss.length < 3) (hout : Outside (l ++ c :: r) e s.1) (h8 : 8 ∣ s.1) (h0 : s.1 ≠ 0)
    (hd : ((ss ++ [s]).map Prod.fst).Nodup) : ∃ w' evs,
      pmemallocOnfree p (c.addr + 64) (pmem p s.1) s.2 w = (.ok (), w') ∧ w'.base = w.base ∧
      w'.trace = w.trace ++ relocate p evs ∧ w'.epoch = afterOnfree w.epoch ∧
      (∀ ev ∈ evs, ∀ ℓ, ev.Touches ℓ → ℓ = lineOf c.addr) ∧
      (∀ ev ∈ evs, ∀ f ∈ l ++ c :: r, ¬ ev.Writes f.addr) ∧
      Freeing w' p l c r e (ss ++ [s]) ∧ Lists (fileAt p w'.mem) c (ss ++ [s]) := by
  have hq := h.quiescent
  have hal := hq.mapped.aligned
  have hc := hq.chain
  have hfits := hq.mapped.fits
  have hdvd := hq.addr_dvd h.mem
  have hlt' := hout.lt
  obtain ⟨il, ir, hup, hfree, hused⟩ := hlist.onUp_split hlt
  obtain ⟨b, hissues⟩ := onfree_issues h.relaxed hq.mapped (hc.addr_lt h.mem) (hc.word h.mem)
    (hc.size_dvd h.mem) h.tag hup hfree hused (pmem p s.1) s.2
  rw [pmem_eq (by omega), off_eq (by omega) (by omega), Nat.add_sub_cancel_left] at hissues
  generalize hevs : onfreeEvents c.addr ss.length s.1 s.2 b = evs at hissues
  have htouch : ∀ ev ∈ evs, ∀ ℓ, ev.Touches ℓ → ℓ = lineOf c.addr := by
    intro ev hev ℓ hℓ
    rw [← hevs] at hev
    exact onfreeEvents_touches hdvd hlt hev hℓ
  have hwrites : ∀ ev ∈ evs, ∀ x, ev.Writes x → x = onPtr c.addr ss.length ∨ x = onOff c.addr ss.length := by
    intro ev hev x hx
    rw [← hevs] at hev
    exact writes_onfreeEvents hev hx
  have haddr : ∀ ev ∈ evs, ∀ f ∈ l ++ c :: r, ¬ ev.Writes f.addr := by
    intro ev hev f hf hw
    have hx := hwrites ev hev _ hw
    by_cases hfc : f = c
    · subst hfc
      unfold onPtr onOff at hx
      omega
    · refine hc.header_disjoint hf h.mem hfc (addr_inHeader f) ?_
      rcases hx with hx | hx <;> rw [hx]
      · exact onPtr_inHeader hlt
      · exact onOff_inHeader hlt
  have hmarker : ∀ ev ∈ evs, ¬ ev.Touches (lineOf e) := by
    intro ev hev hℓ
    have h1 := htouch ev hev _ hℓ
    have h2 := hc.addr_lt h.mem
    unfold lineOf at h1
    omega
  -- the lines other than the clump's header
  have hother : ∀ x, lineOf x ≠ lineOf c.addr → ∀ ev ∈ relocate p evs, ∀ a, ev.Writes a →
      lineOf a ≠ lineOf (p + x) := by
    intro x hx ev hev a ha hl
    obtain ⟨a', rfl, ev', hev', hw'⟩ := writes_relocate hev ha
    have h1 : lineOf a' = lineOf c.addr := htouch ev' hev' _ hw'.touches
    rw [lineOf_add hal, lineOf_add hal, h1] at hl
    exact hx (by omega)
  generalize hw' : ({ w with trace := w.trace ++ relocate p evs, epoch := afterOnfree w.epoch } : World) = w'
    at hissues
  have hrun : pmemallocOnfree p (c.addr + 64) (p + s.1) s.2 w = (.ok (), w') := by
    rw [← hw']
    exact hissues
  have hbase : w'.base = w.base := by rw [← hw']
  have htrace : w'.trace = w.trace ++ relocate p evs := by rw [← hw']
  have hepoch : w'.epoch = afterOnfree w.epoch := by rw [← hw']
  have hfile : fileAt p w'.mem = applyAll evs (fileAt p w.mem) := by
    rw [World.mem, hbase, htrace, applyAll_append, fileAt_applyAll]
    rfl
  have hlist' : Lists (fileAt p w'.mem) c (ss ++ [s]) := by
    have hval : fileAt p w'.mem (onOff c.addr ss.length) = s.1 ∧
        fileAt p w'.mem (onPtr c.addr ss.length) = s.2 := by
      rw [hfile, ← hevs]
      constructor
      · refine applyAll_of_last_store (.store (onPtr c.addr ss.length) s.2 ::
          maybeFlush b (clLines c.addr sizeofClump)) [headerFlush c.addr] ?_ (by simp [headerFlush])
        simp [onfreeEvents]
      · refine applyAll_of_last_store [] _ rfl fun ev hev hx => ?_
        rcases List.mem_append.mp hev with hev | hev
        · exact not_writes_maybeFlush hev hx
        · simp only [List.mem_cons, List.not_mem_nil, or_false] at hev
          rcases hev with rfl | rfl
          · exact onOff_ne_onPtr _ _ _ hx
          · exact Event.writes_flush _ _ hx
    refine hlist.snoc hlt ⟨h0, by omega⟩ hval.1 hval.2 fun i hi => ?_
    rw [hfile]
    constructor
    · refine applyAll_of_not_writes (fun ev hev hx => ?_) _
      rcases hwrites ev hev _ hx with hx | hx
      · exact onOff_ne_onPtr _ _ _ hx
      · exact hi (onOff_injective hx)
    · refine applyAll_of_not_writes (fun ev hev hx => ?_) _
      rcases hwrites ev hev _ hx with hx | hx
      · exact hi (onPtr_injective hx)
      · exact onOff_ne_onPtr _ _ _ hx.symm
  refine ⟨w', evs, ?_, hbase, htrace, hepoch, htouch, haddr, ?_, hlist'⟩
  · rw [pmem_eq (by omega)]
    exact hrun
  refine
    { relaxed := by rw [← hw']; exact h.relaxed
      quiescent :=
        { mapped := hq.mapped
          chain := ?_
          states := hq.states
          headers := fun f hf => ?_
          marker := ?_ }
      tag := h.tag
      entries := hlist'.registered_eq
      outside := ?_
      aligned := ?_
      distinct := hd }
  · rw [hfile]
    exact hc.applyAll_of_not_writes (fun f hf ev hev => haddr ev hev f hf)
      fun ev hev hw => hmarker ev hev hw.touches
  · rw [hbase, htrace]
    by_cases hfc : lineOf f.addr = lineOf c.addr
    · -- the last event flushes the header
      rw [lineOf_add hal, hfc, ← lineOf_add hal, ← hevs]
      have hlast : w.trace ++ relocate p (onfreeEvents c.addr ss.length s.1 s.2 b) =
          (w.trace ++ relocate p (.store (onPtr c.addr ss.length) s.2 ::
            (maybeFlush b (clLines c.addr sizeofClump) ++ [.store (onOff c.addr ss.length) s.1]))) ++
            [.flush (clLines (p + c.addr) sizeofClump)] := by
        rw [onfreeEvents, List.append_assoc]
        congr 1
        rw [show Event.flush (clLines (p + c.addr) sizeofClump) = (headerFlush c.addr).relocate p from
          headerFlush_up hal c.addr]
        simp [relocate]
      rw [hlast]
      exact Durable.flush (lineOf_mem_clLines _)
    · exact (hq.headers f hf).append (hother _ hfc)
  · rw [hbase, htrace]
    refine hq.marker.append (hother _ ?_)
    have h1 := hc.addr_lt h.mem
    unfold lineOf
    omega
  · intro t ht
    rcases List.mem_append.mp ht with ht | ht
    · exact h.outside t ht
    · rw [List.mem_singleton.mp ht]
      exact hout
  · intro t ht
    rcases List.mem_append.mp ht with ht | ht
    · exact h.aligned t ht
    · rw [List.mem_singleton.mp ht]
      exact h8

theorem freedUnlinked_of_active (h : Freeing w p l c r e ss) {evs : List Event} {img : Mem}
    (hi : CrashImage w.base (w.trace ++ relocate p evs) img)
    (hevs : ∀ ev ∈ evs, ∀ f ∈ l ++ c :: r, ¬ ev.Writes f.addr) (hmarker : ∀ ev ∈ evs, ¬ ev.Writes e)
    {all : List (ℕ × ℕ)} (hall : ∀ s ∈ all, Outside (l ++ c :: r) e s.1) (hd : (all.map Prod.fst).Nodup) :
    FreedUnlinked e c all (fileAt p img) := by
  have hq := h.quiescent
  have hkeep : ∀ x, (∀ ev ∈ evs, ¬ ev.Writes x) → ∀ ev ∈ relocate p evs, ¬ ev.Writes (p + x) := by
    intro x hx ev hev hw
    obtain ⟨a, ha, ev', hev', hw'⟩ := writes_relocate hev hw
    obtain rfl : x = a := Nat.add_left_cancel ha
    exact hx ev' hev' hw'
  have hchain : Chain (fileAt p img) pmemClumpOffset (l ++ c :: r) e := by
    refine hq.chain.congr (fun f hf => ?_) ?_
    · exact (hq.headers f hf).image_of_not_writes hi rfl (hkeep _ fun ev hev => hevs ev hev f hf)
    · exact hq.marker.image_of_not_writes hi rfl (hkeep _ hmarker)
  refine freedUnlinked_of_walk hchain (fun t ht => ?_) hd hall (Or.inl ⟨h.mem, h.tag⟩)
  rw [hq.pendings_eq] at ht
  exact absurd ht List.not_mem_nil

/-- Registering the assignments `ss` and freeing the clump is safe to crash in exactly when every
destination survives. -/
theorem unlinkFree_iff : ∀ (ss : List (ℕ × ℕ)) {w : World} {ss₀ : List (ℕ × ℕ)},
    Freeing w p l c r e ss₀ → Lists (fileAt p w.mem) c ss₀ → (ss₀ ++ ss).length ≤ 3 →
    (∀ s ∈ ss, Outside (l ++ c :: r) e s.1 ∧ 8 ∣ s.1 ∧ s.1 ≠ 0) → ((ss₀ ++ ss).map Prod.fst).Nodup →
    w.Extends (unlinkFree p (c.addr + 64) ss w).2 ∧
    ((∀ img, CrashDuring (unlinkFree p (c.addr + 64) ss) w img →
      FreedUnlinked e c (ss₀ ++ ss) (fileAt p img)) ↔ AllUnlinked w p ((ss₀ ++ ss).zip
        (destFlushes (afterOnfree^[ss.length] w.epoch) (ss₀ ++ ss).length)))
  | [], w, ss₀, h, _, _, _, _ => by
    rw [List.append_nil, List.length_nil, Function.iterate_zero, id]
    constructor
    · obtain ⟨b, w₂, rest, hrun, hbase, htrace, -⟩ := free_relaxed h.relaxed h.quiescent.mapped
        h.quiescent.chain h.tag h.quiescent.quiet_rest (by rw [h.entries]; exact h.outside)
      rw [unlinkFree, hrun]
      exact ⟨hbase, _, htrace⟩
    · constructor
      · intro hsafe zl z zr hz
        by_contra hu
        obtain ⟨img, hcr, hlost⟩ := h.free_lost hz hu
        exact hlost (hsafe img hcr)
      · exact fun hu img hcr => h.free_safe hu hcr
  | s :: ss, w, ss₀, h, hlist, hlen, hout, hd => by
    have hlen' : ss₀.length + (ss.length + 1) ≤ 3 := by simpa using hlen
    obtain ⟨hs, h8, h0⟩ := hout s List.mem_cons_self
    have happ : ss₀ ++ s :: ss = (ss₀ ++ [s]) ++ ss := by simp
    rw [happ] at hlen hd ⊢
    have hd₁ : ((ss₀ ++ [s]).map Prod.fst).Nodup := by
      rw [List.map_append, List.nodup_append] at hd
      exact hd.1
    obtain ⟨w', evs, hrun, hbase, htrace, hepoch, htouch, haddr, h', hlist'⟩ :=
      h.onfree_step hlist (by omega) hs h8 h0 hd₁
    have hout' : ∀ t ∈ (ss₀ ++ [s]) ++ ss, Outside (l ++ c :: r) e t.1 := by
      intro t ht
      rcases List.mem_append.mp ht with ht | ht
      · exact h'.outside t ht
      · exact (hout t (List.mem_cons_of_mem _ ht)).1
    obtain ⟨hext', hiff⟩ := unlinkFree_iff ss h' hlist' hlen
      (fun t ht => hout t (List.mem_cons_of_mem _ ht)) hd
    have hext : w.Extends w' := ⟨hbase, _, htrace⟩
    -- the destinations' lines are not the header's
    have hlines : ∀ t : ℕ × ℕ, Outside (l ++ c :: r) e t.1 →
        ∀ ev ∈ relocate p evs, ¬ ev.Touches (lineOf (p + t.1)) := by
      intro t ht ev hev hℓ
      obtain ⟨ev', hev', rfl⟩ := List.mem_map.mp hev
      have hal := h.quiescent.mapped.aligned
      have hdvd := h.quiescent.addr_dvd h.mem
      have hnot := ht.headers c h.mem
      have hline : lineOf t.1 = lineOf c.addr := by
        refine htouch ev' hev' _ ?_
        cases ev' with
        | store a v =>
          rw [Event.relocate, Event.touches_store, lineOf_add hal, lineOf_add hal] at hℓ
          rw [Event.touches_store]
          omega
        | flush ls =>
          rw [Event.relocate, Event.touches_flush, lineOf_add hal] at hℓ
          obtain ⟨k, hk, hkl⟩ := List.mem_map.mp hℓ
          rw [Event.touches_flush, ← Nat.add_left_cancel hkl]
          exact hk
      unfold lineOf at hline
      unfold Clump.InHeader at hnot
      omega
    have hall : AllUnlinked w' p (((ss₀ ++ [s]) ++ ss).zip
        (destFlushes (afterOnfree^[ss.length] w'.epoch) ((ss₀ ++ [s]) ++ ss).length)) ↔
        AllUnlinked w p (((ss₀ ++ [s]) ++ ss).zip
          (destFlushes (afterOnfree^[(s :: ss).length] w.epoch) ((ss₀ ++ [s]) ++ ss).length)) := by
      rw [List.length_cons, Function.iterate_succ_apply, hepoch]
      refine forall_congr' fun zl => forall_congr' fun z => forall_congr' fun zr =>
        forall_congr' fun hz => Unlinks.append_iff hbase htrace (hlines z.1 (hout' z.1 ?_))
      have hmem : z ∈ ((ss₀ ++ [s]) ++ ss).zip
          (destFlushes (afterOnfree^[ss.length] (afterOnfree w.epoch)) ((ss₀ ++ [s]) ++ ss).length) := by
        rw [hz]
        simp
      exact (List.of_mem_zip hmem).1
    refine ⟨?_, ?_⟩
    · rw [unlinkFree, Prog.bind_ok hrun]
      exact hext.trans hext'
    · rw [← hall, ← hiff]
      constructor
      · exact fun hsafe img hcr => hsafe img (crashDuring_bind_right hrun hext hcr)
      · intro hsafe img hcr
        rcases crashDuring_bind hrun hext hext' hcr with ⟨k, hk⟩ | hcr
        · rw [hrun, htrace, List.take_length_add_append, relocate_take] at hk
          refine h.freedUnlinked_of_active hk (fun ev hev => haddr ev (List.mem_of_mem_take hev))
            (fun ev hev hw => ?_) hout' hd
          have h1 := htouch ev (List.mem_of_mem_take hev) _ hw.touches
          have h2 := h.quiescent.chain.addr_lt h.mem
          unfold lineOf at h1
          omega
        · exact hsafe img hcr

end Freeing

/-- An active clump with the entries `ss₀` gets the entries `ss` and is freed: a crash anywhere leaves no
stale word with the clump free exactly when every destination survives. -/
theorem unlinkFree_safe_iff {w : World} {p e : ℕ} {cs : List Clump} {c : Clump} {ss₀ ss : List (ℕ × ℕ)}
    (hr : w.relaxed = true) (hq : Quiescent w p cs e) (hc : c ∈ cs) (ht : c.tag = .active)
    (hlist : Lists (fileAt p w.mem) c ss₀) (hlen : (ss₀ ++ ss).length ≤ 3)
    (htarget : ∀ s ∈ ss₀ ++ ss, Target cs s.1) (hd : ((ss₀ ++ ss).map Prod.fst).Nodup) :
    (∀ img, CrashDuring (unlinkFree p (c.addr + 64) ss) w img →
      FreedUnlinked e c (ss₀ ++ ss) (fileAt p img)) ↔
    AllUnlinked w p ((ss₀ ++ ss).zip
      (destFlushes (afterOnfree^[ss.length] w.epoch) (ss₀ ++ ss).length)) := by
  obtain ⟨l, r, rfl⟩ := List.append_of_mem hc
  have hpos : ∀ s ∈ ss₀ ++ ss, s.1 ≠ 0 := by
    intro s hs
    obtain ⟨-, h | ⟨b, hb, h⟩⟩ := htarget s hs
    · have := h.1
      simp only [pmemStaticOffset] at this
      omega
    · have := h.1
      omega
  have hsub : ∀ s ∈ ss₀, s ∈ ss₀ ++ ss := fun s hs => List.mem_append_left _ hs
  have hfreeing : Freeing w p l c r e ss₀ :=
    { relaxed := hr
      quiescent := hq
      tag := ht
      entries := hlist.registered_eq
      outside := fun s hs => (htarget s (hsub s hs)).outside hq.chain
      aligned := fun s hs => (htarget s (hsub s hs)).1
      distinct := by
        rw [List.map_append, List.nodup_append] at hd
        exact hd.1 }
  refine (hfreeing.unlinkFree_iff ss hlist hlen (fun s hs => ?_) hd).2
  have hm : s ∈ ss₀ ++ ss := List.mem_append_right _ hs
  exact ⟨(htarget s hm).outside hq.chain, (htarget s hm).1, hpos s hm⟩

/-- A pool of 1 MiB whose first clump is active and referred to from the static area. -/
def linkedPool : Mem := applyAll
  [.store 4096 16448, .store 16384 (128 ||| 3), .store 16512 (1032000 ||| 0)] fun _ => 0

theorem quiescent_linkedPool (relaxed : Bool) (epoch : ℕ → Bool) :
    Quiescent (World.boot (mapAt 65536 linkedPool) relaxed epoch) 65536
      [⟨16384, 128, .active⟩, ⟨16512, 1032000, .free⟩] 1048512 :=
  { mapped := ⟨by decide, by decide⟩
    chain := by
      rw [World.mem_boot]
      exact ⟨by simp [Tiles], by decide, by decide⟩
    states := by simp
    headers := fun _ _ => Durable.boot _ _
    marker := Durable.boot _ _ }

/-- With the flag always set the destination is flushed, and the freeing is safe. -/
theorem unlinkFree_safe_linkedPool :
    AllUnlinked (World.boot (mapAt 65536 linkedPool) true fun _ => true) 65536 [((4096, 0), true)] ∧
      ∀ img, CrashDuring (unlinkFree 65536 16448 [(4096, 0)])
        (World.boot (mapAt 65536 linkedPool) true fun _ => true) img →
        FreedUnlinked 1048512 ⟨16384, 128, .active⟩ [(4096, 0)] (fileAt 65536 img) := by
  have hlist : Lists (fileAt 65536 (mapAt 65536 linkedPool)) ⟨16384, 128, .active⟩ [] :=
    ⟨by simp, by decide, by simp, by simp⟩
  have hall : AllUnlinked (World.boot (mapAt 65536 linkedPool) true fun _ => true) 65536 [((4096, 0), true)] := by
    intro zl z zr hz
    obtain ⟨rfl, hz'⟩ | ⟨zl', -, hz'⟩ := List.cons_eq_append_iff.mp hz
    · obtain ⟨rfl, rfl⟩ := List.cons.inj hz'
      exact Or.inl ⟨_, List.mem_cons_self, rfl, rfl⟩
    · exact absurd hz'.symm (by simp)
  exact ⟨hall, (unlinkFree_safe_iff (c := ⟨16384, 128, .active⟩) rfl
    (quiescent_linkedPool true fun _ => true) (by simp) rfl hlist (by simp) (by simp [Target, InStatic])
    (by simp)).mpr hall⟩

/-- With the flag never set the store to the destination is still in the cache when the clump is
free. -/
theorem unlinkFree_linkedPool_dangles : ¬ ∀ img, CrashDuring (unlinkFree 65536 16448 [(4096, 0)])
    (World.boot (mapAt 65536 linkedPool) true fun _ => false) img →
    FreedUnlinked 1048512 ⟨16384, 128, .active⟩ [(4096, 0)] (fileAt 65536 img) := by
  have hlist : Lists (fileAt 65536 (mapAt 65536 linkedPool)) ⟨16384, 128, .active⟩ [] :=
    ⟨by simp, by decide, by simp, by simp⟩
  have hq := quiescent_linkedPool true fun _ => false
  have hfreeing : Freeing (World.boot (mapAt 65536 linkedPool) true fun _ => false) 65536 []
      ⟨16384, 128, .active⟩ [⟨16512, 1032000, .free⟩] 1048512 [] :=
    ⟨rfl, hq, rfl, hlist.registered_eq, by simp, by simp, by simp⟩
  have hout : Outside ([] ++ (⟨16384, 128, .active⟩ : Clump) :: [⟨16512, 1032000, .free⟩]) 1048512 4096 :=
    InStatic.outside (by simp [InStatic]) hq.chain
  intro hsafe
  have hall := (hfreeing.unlinkFree_iff [(4096, 0)] hlist (by simp) (by simpa using hout) (by simp)).2.mp
    hsafe
  rcases hall [] ((4096, 0), false) [] rfl with ⟨y, hy, hb, -⟩ | ⟨-, y, hy, -⟩ | hall
  · rw [List.mem_singleton.mp hy] at hb
    cases hb
  · cases hy
  · exact absurd (hall _ (CrashImage.all _ _)) (by decide)

end PmemExamples.Pool
