import PmemExamples.Pool.Crash

/-! # Committing a clump to a transition

`pmemalloc_activate` and `pmemalloc_free` work alike: one store commits the clump to `ACTIVATING` or
`FREEING`, and what follows is what recovery would do. A crash before the commit recovers to the old
pool, a crash after it to the committed one (`commit_cut`). -/

namespace PmemExamples.Pool
open Persist Libpmem Tiling
set_option autoImplicit false

/-- The assignments registered in a clump's on-list. -/
def registered (d : Mem) (c : Clump) : List (ℕ × ℕ) := onEntries d 0 c.addr onUp

/-- The offset lies in the clump's payload. -/
def Clump.InPayload (c : Clump) (x : ℕ) : Prop := c.addr + 64 ≤ x ∧ x < c.addr + c.size

/-- The offset lies in the static area. -/
def InStatic (x : ℕ) : Prop := pmemStaticOffset ≤ x ∧ x < pmemStaticOffset + pmemStaticSize

theorem inStatic_root : InStatic pmemStaticOffset := by
  constructor <;> simp

/-- An aligned word of the static area or of a payload. -/
def Target (cs : List Clump) (x : ℕ) : Prop := 8 ∣ x ∧ (InStatic x ∨ ∃ b ∈ cs, b.InPayload x)

/-- A word that no header and not the end marker holds, below the end of the pool. -/
structure Outside (cs : List Clump) (e x : ℕ) : Prop where
  lt : x < e
  headers : ∀ b ∈ cs, ¬ b.InHeader x

theorem Clump.InPayload.outside {d : Mem} {a e x : ℕ} {cs : List Clump} {c : Clump}
    (h : c.InPayload x) (hc : Chain d a cs e) (hm : c ∈ cs) : Outside cs e x := by
  have h1 := h.1
  have h2 := h.2
  refine ⟨by have := (hc.tiles.bounds hm).2; omega, fun b hb hbx => ?_⟩
  have h3 := hbx.1
  have h4 := hbx.2
  have h5 := hc.size_ge hb
  obtain rfl := hc.tiles.eq_of_mem_overlap hm hb ⟨by omega, h2⟩ ⟨h3, by omega⟩
  omega

theorem InStatic.outside {d : Mem} {e x : ℕ} {cs : List Clump} (h : InStatic x)
    (hc : Chain d pmemClumpOffset cs e) : Outside cs e x := by
  have hle := hc.tiles.le
  have hx := h.2
  simp only [pmemClumpOffset, pmemStaticOffset, pmemStaticSize] at hle hx
  refine ⟨by omega, fun b hb hbx => ?_⟩
  have h1 := (hc.tiles.bounds hb).1
  have h2 := hbx.1
  simp only [pmemClumpOffset] at h1
  omega

theorem Target.outside {d : Mem} {e x : ℕ} {cs : List Clump} (h : Target cs x)
    (hc : Chain d pmemClumpOffset cs e) : Outside cs e x := by
  obtain ⟨-, h | ⟨b, hb, h⟩⟩ := h
  · exact h.outside hc
  · exact h.outside hc hb

/-! ## Pools between two calls -/

/-- A mapped pool none of whose clumps is in transition, with durable headers. -/
structure Quiescent (w : World) (p : ℕ) (cs : List Clump) (e : ℕ) : Prop where
  mapped : Mapped p e
  chain : Chain (fileAt p w.mem) pmemClumpOffset cs e
  states : ∀ c ∈ cs, c.tag = .free ∨ c.tag = .reserved ∨ c.tag = .active
  headers : ∀ c ∈ cs, Durable w.base w.trace (lineOf (p + c.addr))
  marker : Durable w.base w.trace (lineOf (p + e))

theorem pending_of_states {c : Clump} (h : c.tag = .free ∨ c.tag = .reserved ∨ c.tag = .active)
    (m : Mem) (pmp : ℕ) : pending m pmp c = [] := by
  apply pending_eq_nil <;> rcases h with h | h | h <;> simp [h]

namespace Quiescent
variable {w : World} {p e : ℕ} {cs : List Clump} {m₀ : Mem} {c : Clump}

theorem addr_dvd (h : Quiescent w p cs e) (hc : c ∈ cs) : 64 ∣ c.addr :=
  h.chain.tiles.addr_dvd (by decide) hc

theorem quiet (h : Quiescent w p cs e) (d : Mem) (hc : c ∈ cs) : pending d 0 c = [] :=
  pending_of_states (h.states c hc) d 0

theorem quiet_rest {l r : List Clump} (h : Quiescent w p (l ++ c :: r) e) :
    ∀ b ∈ l ++ r, ∀ d, pending d 0 b = [] := by
  intro b hb d
  refine h.quiet d ?_
  simp only [List.mem_append, List.mem_cons] at hb ⊢
  tauto

theorem image_header (h : Quiescent w p cs e) (hi : CrashImage w.base w.trace m₀) (hc : c ∈ cs)
    {x : ℕ} (hx : c.InHeader x) : fileAt p m₀ x = fileAt p w.mem x := by
  refine (h.headers c hc).image hi ?_
  rw [lineOf_add h.mapped.aligned, lineOf_add h.mapped.aligned,
    lineOf_header (h.addr_dvd hc) hx.1 hx.2]

theorem image_chain (h : Quiescent w p cs e) (hi : CrashImage w.base w.trace m₀) :
    Chain (fileAt p m₀) pmemClumpOffset cs e :=
  h.chain.congr (fun _ hc => h.image_header hi hc (addr_inHeader _)) (h.marker.image hi rfl)

theorem image_registered (h : Quiescent w p cs e) (hi : CrashImage w.base w.trace m₀)
    (hc : c ∈ cs) : registered (fileAt p m₀) c = registered (fileAt p w.mem) c :=
  onEntries_congr fun _ hi' => ⟨h.image_header hi hc (onOff_inHeader (lt_of_mem_onUp hi')),
    h.image_header hi hc (onPtr_inHeader (lt_of_mem_onUp hi'))⟩

theorem placed (h : Quiescent w p cs e) (d : Mem) : Placed d 0 cs e := by
  intro c hc s hs
  rw [h.quiet d hc] at hs
  simp at hs

theorem pendings_eq (h : Quiescent w p cs e) (d : Mem) : pendings d 0 cs = [] :=
  List.flatMap_eq_nil_iff.mpr fun _ hc => h.quiet d hc

theorem within (h : Quiescent w p cs e) (d : Mem) : Within d cs e := by
  intro s hs
  rw [h.pendings_eq d] at hs
  simp at hs

theorem distinct (h : Quiescent w p cs e) (d : Mem) : Distinct d 0 cs := by
  intro c hc
  rw [h.quiet d hc]
  exact List.nodup_nil

theorem outcome_eq (h : Quiescent w p cs e) (d : Mem) : outcome d 0 cs = d := by
  rw [outcome, h.pendings_eq]
  rfl

end Quiescent

/-! ## The commit -/

/-- The file right after the commit. -/
def committed (d : Mem) (c : Clump) (s : State) : Mem := Function.update d c.addr (c.set s).word

/-- Commit, flush, and what recovery does for the committed clump. -/
def commitEvents (d : Mem) (c : Clump) (s : State) : List Event :=
  .store c.addr (c.set s).word :: headerFlush c.addr :: recoverEvents (committed d c s) 0 (c.set s)

section Commit
variable {d d' : Mem} {a e : ℕ} {l r : List Clump} {c : Clump} {s : State}

theorem committed_of_ne {x : ℕ} (h : x ≠ c.addr) : committed d c s x = d x :=
  Function.update_of_ne h _ _

theorem registered_committed (d : Mem) (c : Clump) (s : State) :
    registered (committed d c s) c = registered d c :=
  onEntries_congr fun i _ => ⟨committed_of_ne (onOff_ne_addr _ _),
    committed_of_ne (fun h => by unfold onPtr at h; omega)⟩

theorem onEntries_committed {m : Mem} {p : ℕ} (hp : Mapped p e) (h : ∀ s ∈ registered (fileAt p m) c, s.1 < e)
    (s : State) : onEntries (Function.update m (p + c.addr) (c.set s).word) p (p + c.addr) onUp =
      (registered (fileAt p m) c).map (upEntry p) := by
  have hfile : fileAt p (Function.update m (p + c.addr) (c.set s).word) =
      committed (fileAt p m) c s := fileAt_applyAll p [.store c.addr (c.set s).word] m
  have hfits := hp.fits
  rw [← registered_committed (fileAt p m) c s, ← hfile] at h ⊢
  exact onEntries_up fun t ht => by have := h t ht; omega

theorem pending_committed (hs : s = .activating ∨ s = .freeing) :
    pending (committed d c s) 0 (c.set s) = registered d c := by
  rw [← registered_committed d c s]
  rcases hs with rfl | rfl <;> rfl

theorem commitEvents_eq (hs : s = .activating ∨ s = .freeing) : commitEvents d c s =
    .store c.addr (c.set s).word :: headerFlush c.addr ::
      (execEvents (registered d c) ++ finishEvents c.addr (c.set s.settle).word) := by
  have hne : (c.set s).tag.settle ≠ (c.set s).tag := by rcases hs with rfl | rfl <;> simp [State.settle]
  rw [commitEvents, recoverEvents, if_neg hne, pending_committed hs]
  rfl

/-- A commit stores to the clump's size word, its on-list and the destinations. -/
theorem writes_commitEvents (hs : s = .activating ∨ s = .freeing) {x : ℕ} {ev : Event}
    (he : ev ∈ commitEvents d c s) (hx : ev.Writes x) :
    x = c.addr ∨ (∃ i < 3, x = onOff c.addr i) ∨ ∃ t ∈ registered d c, t.1 = x := by
  rw [commitEvents_eq hs, List.mem_cons, List.mem_cons, List.mem_append] at he
  rcases he with rfl | rfl | he | he
  · exact Or.inl hx.symm
  · exact absurd hx (Event.writes_flush _ _)
  · exact Or.inr (Or.inr (writes_execEvents he hx))
  · exact (writes_finishEvents he hx).imp_right Or.inl

theorem applyAll_commitEvents_self (hs : s = .activating ∨ s = .freeing) (m : Mem) :
    applyAll (commitEvents d c s) m c.addr = (c.set s.settle).word := by
  refine applyAll_of_last_store (.store c.addr (c.set s).word :: headerFlush c.addr ::
    (execEvents (registered d c) ++ clearEvents c.addr)) [headerFlush c.addr] ?_ (by simp [headerFlush])
  rw [commitEvents_eq hs, finishEvents]
  simp

theorem chain_committed (hc : Chain d a (l ++ c :: r) e) (s : State) :
    Chain (committed d c s) a (l ++ c.set s :: r) e := hc.update_state s

theorem mem_set_iff {b : Clump} : b ∈ l ++ c.set s :: r ↔ b = c.set s ∨ b ∈ l ++ r := by
  simp only [List.mem_append, List.mem_cons]
  tauto

theorem outside_set_iff {x : ℕ} : Outside (l ++ c.set s :: r) e x ↔ Outside (l ++ c :: r) e x := by
  constructor
  · rintro ⟨h1, h2⟩
    refine ⟨h1, fun b hb => ?_⟩
    rcases mem_set_iff (s := c.tag).mp hb with rfl | hb
    · exact h2 (c.set s) (by simp)
    · exact h2 b (mem_set_iff.mpr (Or.inr hb))
  · rintro ⟨h1, h2⟩
    refine ⟨h1, fun b hb => ?_⟩
    rcases mem_set_iff.mp hb with rfl | hb
    · exact h2 c (by simp)
    · exact h2 b (mem_set_iff (s := c.tag).mpr (Or.inr hb))

theorem pendings_committed (hs : s = .activating ∨ s = .freeing)
    (hq : ∀ b ∈ l ++ r, ∀ d, pending d 0 b = []) :
    pendings (committed d c s) 0 (l ++ c.set s :: r) = registered d c := by
  have hl : pendings (committed d c s) 0 l = [] :=
    List.flatMap_eq_nil_iff.mpr fun b hb => hq b (by simp [hb]) _
  have hr : pendings (committed d c s) 0 r = [] :=
    List.flatMap_eq_nil_iff.mpr fun b hb => hq b (by simp [hb]) _
  rw [pendings_append, pendings_cons, hl, hr, pending_committed hs]
  simp

theorem within_committed (hs : s = .activating ∨ s = .freeing)
    (hq : ∀ b ∈ l ++ r, ∀ d, pending d 0 b = [])
    (ht : ∀ t ∈ registered d c, Outside (l ++ c :: r) e t.1) :
    Within (committed d c s) (l ++ c.set s :: r) e := by
  intro t htm
  rw [pendings_committed hs hq] at htm
  exact (ht t htm).lt

theorem placed_committed (hs : s = .activating ∨ s = .freeing)
    (hq : ∀ b ∈ l ++ r, ∀ d, pending d 0 b = [])
    (ht : ∀ t ∈ registered d c, Outside (l ++ c :: r) e t.1) :
    Placed (committed d c s) 0 (l ++ c.set s :: r) e := by
  intro b hb t htb
  have htm : t ∈ registered d c := by
    rw [← pendings_committed hs hq]
    exact List.mem_flatMap.mpr ⟨b, hb, htb⟩
  have hout := outside_set_iff (s := s).mpr (ht t htm)
  exact ⟨ne_of_lt hout.lt, hout.headers⟩

theorem distinct_committed (hs : s = .activating ∨ s = .freeing)
    (hq : ∀ b ∈ l ++ r, ∀ d, pending d 0 b = []) (hd : ((registered d c).map Prod.fst).Nodup) :
    Distinct (committed d c s) 0 (l ++ c.set s :: r) := by
  intro b hb
  rcases mem_set_iff.mp hb with rfl | hb
  · rw [pending_committed hs]; exact hd
  · rw [hq b hb]; exact List.nodup_nil

/-- A prefix of a commit that has made the first store: the pool recovers as the committed one. -/
theorem commit_cut (hc : Chain d a (l ++ c :: r) e) (hs : s = .activating ∨ s = .freeing)
    (hq : ∀ b ∈ l ++ r, ∀ d, pending d 0 b = [])
    (ht : ∀ t ∈ registered d c, Outside (l ++ c :: r) e t.1) (k : ℕ) :
    ∃ t, SameOutcome 0 a e (committed d c s) (l ++ c.set s :: r)
        (applyAll ((commitEvents d c s).take (k + 1)) d) (l ++ c.set t :: r) ∧
      ((commitEvents d c s).length ≤ k + 1 → t = s.settle) := by
  have hc' := chain_committed hc s
  have hp' := placed_committed hs hq ht
  obtain ⟨t, hso, hfull⟩ := recoverEvents_cut hc' hp' (fun b hb => hq b (by simp [hb]) _) (k - 1)
  have htake : applyAll ((commitEvents d c s).take (k + 1)) d =
      applyAll ((recoverEvents (committed d c s) 0 (c.set s)).take (k - 1)) (committed d c s) := by
    cases k with
    | zero => rfl
    | succ k => rfl
  rw [htake]
  refine ⟨t, hso, fun hlen => hfull ?_⟩
  simp only [commitEvents, List.length_cons] at hlen
  omega

theorem commit_done (hc : Chain d a (l ++ c :: r) e) (hs : s = .activating ∨ s = .freeing)
    (hq : ∀ b ∈ l ++ r, ∀ d, pending d 0 b = [])
    (ht : ∀ t ∈ registered d c, Outside (l ++ c :: r) e t.1) :
    SameOutcome 0 a e (committed d c s) (l ++ c.set s :: r) (applyAll (commitEvents d c s) d)
      (l ++ c.set s.settle :: r) := by
  obtain ⟨t, hso, hfull⟩ := commit_cut hc hs hq ht (commitEvents d c s).length
  rw [List.take_of_length_le (by omega)] at hso
  obtain rfl := hfull (by omega)
  exact hso

theorem orderly_commitEvents (d : Mem) {c : Clump} (h : 64 ∣ c.addr) (s : State) :
    Orderly (commitEvents d c s) :=
  (orderly_commit c.addr (c.set s).word).append
    (orderly_recoverEvents (c := c.set s) (committed d c s) 0 h)

theorem commitEvents_congr (hs : s = .activating ∨ s = .freeing) (h : registered d' c = registered d c) :
    commitEvents d' c s = commitEvents d c s := by
  simp only [commitEvents, recoverEvents, pending_committed hs, h]

/-- The recovered pool when the commit was lost: every word outside the headers is as it was. -/
theorem EndsAs.unchanged {w : World} {p : ℕ} {cs : List Clump} (hq : Quiescent w p cs e)
    (h : EndsAs e d cs d') {x : ℕ} (hx : Outside cs e x) : d' x = d x := by
  rw [h.words x hx.headers, hq.outcome_eq]

/-- A clump that settles as free lies in a free clump of the recovered pool. -/
theorem exists_free_cover {cs : List Clump} (ht : Tiles 64 a cs e) (hc : c ∈ cs)
    (hf : c.tag.settle = .free) : ∃ f ∈ normalForm cs, f.tag = .free ∧ f.addr ≤ c.addr ∧
      c.addr + c.size ≤ f.addr + f.size := by
  have hs : Tiles 64 a (cs.map Clump.settle) e := ht.retag
  obtain ⟨f, hfm, hft, h1, h2⟩ := exists_mergeRuns_cover (p := State.isFree) hs
    (List.mem_map_of_mem hc)
  refine ⟨f, hfm, ?_, h1, h2⟩
  rw [Clump.settle_tag, hf] at hft
  exact State.isFree_iff.mp hft

/-- The recovered pool when the commit reached memory: the assignments are made, and every other
word outside the headers is as it was. -/
theorem EndsAs.after_commit (hs : s = .activating ∨ s = .freeing)
    (hq : ∀ b ∈ l ++ r, ∀ d, pending d 0 b = [])
    (ht : ∀ t ∈ registered d c, Outside (l ++ c :: r) e t.1)
    (hd : ((registered d c).map Prod.fst).Nodup)
    (h : EndsAs e (committed d c s) (l ++ c.set s :: r) d') :
    (∀ t ∈ registered d c, d' t.1 = t.2) ∧
    ∀ x, Outside (l ++ c :: r) e x → (∀ t ∈ registered d c, t.1 ≠ x) → d' x = d x := by
  have hword : ∀ x, Outside (l ++ c :: r) e x →
      d' x = applyAll (execEvents (registered d c)) (committed d c s) x := by
    intro x hx
    rw [h.words x (outside_set_iff.mpr hx).headers, outcome, pendings_committed hs hq]
  refine ⟨fun t htm => ?_, fun x hx hne => ?_⟩
  · rw [hword _ (ht t htm), applyAll_execEvents_of_mem hd htm]
  · rw [hword x hx, applyAll_execEvents_of_not_mem hne]
    refine committed_of_ne fun hxc => hx.headers c (by simp) ?_
    rw [hxc]
    exact addr_inHeader c

end Commit

end PmemExamples.Pool
