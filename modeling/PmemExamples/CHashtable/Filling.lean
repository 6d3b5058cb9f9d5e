import PmemExamples.CHashtable.Exhaustion
import PmemExamples.CHashtable.Handover
import PmemExamples.CHashtable.Replay

/-! # A table that is filled in a pool

As long as the pool has room, a process that inserts and searches gets the answers of the stacks from the words of the
pool. The root slot leads to the table until it grows, and to the array of its buckets then. -/

namespace PmemExamples.CHashtable
open Persist Libpmem Pool Tiling Code
open BTree hiding pmemallocReservVirtual pmemallocActivateLocal
set_option autoImplicit false

/-- The pool has room for the next insertion. -/
def RoomFor (p e h : ℕ) (H : Host) : Prop :=
  ∃ cs, Pool.Chain (fileAt p H.world.mem) pmemClumpOffset cs e ∧ ∀ t, Shows H.world.mem h t → HasRoom p H.gclp cs t

section Keys
variable (hashfn : ℕ → UInt32) (eqfn : ℕ → ℕ → Bool)

/-- A process that takes memory for keys, inserts while there is room, and searches. -/
inductive Filling (p e h : ℕ) (H₁ : Host) : Host → List (Operation ℕ) → List Answer → Prop
  | created : Filling p e h H₁ H₁ [] []
  | reserveKey {H H' : Host} {ops : List (Operation ℕ)} {answers : List Answer} {size k tmp : ℕ}
      (hr : Filling p e h H₁ H ops answers) (hsize : size + 127 < 2 ^ 64)
      (hrun : Code.pmemallocReservVirtual p size H = (.ok (k, tmp), H')) : Filling p e h H₁ H' ops answers
  | insert {H H' : Host} {ops : List (Operation ℕ)} {answers : List Answer} {k v : ℕ} {code : ℤ}
      (hr : Filling p e h H₁ H ops answers) (hroom : RoomFor p e h H)
      (hrun : Code.hashtableInsert hashfn p h k v H = (.ok code, H')) :
      Filling p e h H₁ H' (ops ++ [.insert k v]) (answers ++ [(code, none)])
  | search {H : Host} {ops : List (Operation ℕ)} {answers : List Answer} {k v : ℕ} {w : World}
      (hr : Filling p e h H₁ H ops answers) (hrun : Code.hashtableSearch hashfn eqfn h k H.world = (.ok v, w)) :
      Filling p e h H₁ { H with world := w } (ops ++ [.search k]) (answers ++ [((v : ℤ), none)])

end Keys

/-! ## Searching -/

section Search
variable {hashfn : ℕ → UInt32} {eqfn : ℕ → ℕ → Bool} {w : World} {p h k : ℕ} {cs : List Clump} {t : Hashtable ℕ}
    {S : Finset ℕ}

theorem searchLoop_code (hentry : ∀ a x, t.mem a = some x → ShowsEntry w.mem a x) (hv : UInt32) {fuel a v : ℕ}
    (h : CHashtable.searchLoop eqfn t.mem k hv fuel a = some v) : Code.searchLoop eqfn k hv fuel a w = (.ok v, w) := by
  induction fuel generalizing a with
  | zero => cases h
  | succ fuel ih =>
    rw [CHashtable.searchLoop] at h
    rw [Code.searchLoop]
    by_cases h0 : a = 0
    · rw [if_pos h0] at h ⊢
      rw [← Option.some.inj h]
      rfl
    · rw [if_neg h0] at h ⊢
      obtain ⟨x, hx, hrest⟩ := Option.bind_eq_some_iff.mp h
      have hshow := hentry a x hx
      have hhash : loadHash a w = (.ok x.h, w) := by
        rw [← hshow.h]
        rfl
      rw [Prog.bind_ok hhash, Prog.bind_ok (Prog.load_apply a w), hshow.k]
      by_cases hmatch : hv = x.h ∧ eqfn k x.k = true
      · rw [if_pos hmatch] at hrest ⊢
        rw [← Option.some.inj hrest, ← hshow.v]
        rfl
      · rw [if_neg hmatch] at hrest ⊢
        rw [Prog.bind_ok (Prog.load_apply (a + 24) w), hshow.next]
        exact ih hrest

theorem search_code (hst : Standing hashfn w.mem p cs h t S) {v : ℕ}
    (hrun : CHashtable.hashtableSearch hashfn eqfn t k = some v) :
    Code.hashtableSearch hashfn eqfn h k w = (.ok v, w) := by
  have hi := indexFor_lt hst.sorted.tablelength_pos (hash hashfn k)
  have hgo : Code.hashtableSearch hashfn eqfn h k w = Code.searchLoop eqfn k (hash hashfn k) chainFuel
      (w.mem (w.mem (h + 8) + 8 * indexFor (lowInt (w.mem h)) (hash hashfn k))) w := rfl
  rw [hgo, hst.shows.tablelength, hst.shows.table _ hi]
  exact searchLoop_code hst.shows.entries _ hrun

end Search

/-! ## The root slot -/

theorem reserve_below {w w' : World} {p gclp e n x : ℕ} {cs : List Clump} {res : Reserved}
    (hres : Resident w p gclp cs e) (hrun : pmemallocReserve p gclp n w = (.ok res, w')) (hx : x < pmemClumpOffset) :
    w'.mem (p + x) = w.mem (p + x) := by
  obtain ⟨hg, ps, gs, rfl, hne, hgs⟩ := search_of_walk hres.building.chain hres.nonempty hres.cursor
  rcases reserve_runs true hres.building.mapped n hg hgs hne with ⟨l, c, r, rfl, hfit, -, hr⟩ | ⟨-, hr⟩
  · have hmem := (hr.mem_eq rfl).2
    rw [hrun] at hmem
    rw [hmem]
    apply applyAll_of_not_writes
    intro ev hev hw
    obtain ⟨y, hy, ev', hev', hw'⟩ := writes_relocate hev hw
    have hc : c ∈ ps ++ (l ++ c :: r) := by simp
    have hbound := hres.tiles.bounds hc
    have hin := reserveEvents_within (Nat.le_of_dvd (hres.tiles.size_pos hc) (hres.tiles.size_dvd hc)) hev' hw'
    omega
  · have hmem := (hr.mem_eq rfl).2
    rw [hrun] at hmem
    rw [hmem]
    rfl

section Below
variable {hashfn : ℕ → UInt32} {H H' : Host} {p e h k v x : ℕ} {cs : List Clump} {t : Hashtable ℕ} {S : Finset ℕ}

theorem below_block {a n : ℕ} (hb : BlockAt p cs a n) (ht : Tiles 64 pmemClumpOffset cs e) (hx : x < pmemClumpOffset) :
    p + x < a := by
  have hbound := (hb.bounds ht).1
  omega

theorem countEntry_below (hres : Resident H.world p H.gclp cs e) (hst : Standing hashfn H.world.mem p cs h t S)
    (hgrows : ¬ Grows t) (hrun : Code.countEntry p h H = (.ok (), H')) (hx : x < pmemClumpOffset) :
    H'.world.mem (p + x) = H.world.mem (p + x) := by
  generalize hword : setLow (H.world.mem (h + 16)) ((t.entrycount + 1) % 2 ^ 32) = word
  have hstart : Code.countEntry p h H = (if t.loadlimit < (t.entrycount + 1) % 2 ^ 32 then do
        let _ ← Code.hashtableExpand p h
        return ()
      else return () : Session Unit) ⟨H.world.emit (.store (h + 16) word), H.gclp, H.requests⟩ := by
    rw [Code.countEntry, Session.bind_ok (Session.lift_ok (Prog.load_apply _ _)), hst.shows.entrycount,
      hst.shows.loadlimit, hword]
    rfl
  have hquiet : t.loadlimit < (t.entrycount + 1) % 2 ^ 32 → Code.hashtableExpand p h
      ⟨H.world.emit (.store (h + 16) word), H.gclp, H.requests⟩ = (.ok 0,
        ⟨H.world.emit (.store (h + 16) word), H.gclp, H.requests⟩) := by
    intro hlt
    have hindex : lowInt ((H.world.emit (.store (h + 16) word)).mem (h + 24)) = primeTableLength - 1 := by
      rw [mem_emit_store, Function.update_of_ne (by omega), hst.shows.primeindex]
      by_contra hne
      exact hgrows ⟨hlt, hne⟩
    rw [Code.hashtableExpand, Session.bind_ok (Session.lift_ok (Prog.load_apply _ _)), if_pos hindex]
    rfl
  have hgo : Code.countEntry p h H = (.ok (), ⟨H.world.emit (.store (h + 16) word), H.gclp, H.requests⟩) := by
    rw [hstart, Session.ite_apply]
    split
    · next hlt =>
      rw [Session.bind_ok (hquiet hlt)]
      rfl
    · rfl
  rw [hgo] at hrun
  obtain ⟨-, rfl⟩ := Prod.mk.inj hrun
  have hbelow := below_block hst.header hres.tiles hx
  rw [mem_emit_store, Function.update_of_ne (by omega)]

theorem addEntry_below {code : ℤ} (hres : Resident H.world p H.gclp cs e) (hst : Standing hashfn H.world.mem p cs h t S)
    (hfit : Fitting p H.gclp cs (reserveSize 32)) (hrun : addEntry hashfn p h k v H = (.ok code, H'))
    (hx : x < pmemClumpOffset) : H'.world.mem (p + x) = H.world.mem (p + x) := by
  have hbase := hres.base
  obtain ⟨ptr, H₁, cs', hrun₁, -, hptr, hres₁, hst₁, harr, hblock, hkept, -⟩ :=
    reserve_standing hres hst hfit (by decide)
  have hkeep : H₁.world.mem (p + x) = H.world.mem (p + x) := by
    obtain ⟨res, w₁, hreserve, -⟩ := hres.reserve (show 32 + 127 < 2 ^ 64 by decide)
    rw [reserve_apply hreserve] at hrun₁
    obtain ⟨-, rfl⟩ := Prod.mk.inj hrun₁
    exact reserve_below hres hreserve hx
  have hlink := linkEntry_runs hashfn k v hst₁.shows hst₁.sorted.tablelength_pos
    (hst₁.header.apart hblock hres₁.tiles (hkept hst.header).2)
      (hst₁.array.apart hblock hres₁.tiles (harr ▸ (hkept hst.array).2))
  obtain ⟨hok, hmem⟩ := hlink.mem_eq rfl
  have hgo : addEntry hashfn p h k v H = (.ok (-1), ⟨(linkEntry hashfn h (p + ptr) k v H₁.world).2, H₁.gclp,
    H₁.requests⟩) := by
    rw [addEntry, Session.bind_ok hrun₁]
    dsimp only
    rw [if_neg (by omega), Session.bind_ok (Session.lift_ok (Prod.ext hok rfl))]
    rfl
  rw [hgo] at hrun
  obtain ⟨-, rfl⟩ := Prod.mk.inj hrun
  refine Eq.trans ?_ hkeep
  dsimp only
  rw [hmem]
  apply applyAll_of_not_writes
  intro ev hev hy
  have hi := indexFor_lt hst₁.sorted.tablelength_pos (hash hashfn k)
  have h₁ := below_block hblock hres₁.tiles hx
  have h₂ := below_block hst₁.array hres₁.tiles hx
  simp only [linkEvents, List.mem_cons, List.not_mem_nil, or_false] at hev
  rcases hev with rfl | rfl | rfl | rfl | rfl <;> rw [Event.writes_store] at hy <;> omega

end Below

/-! ## Runs -/

section Runs
variable {hashfn : ℕ → UInt32} {eqfn : ℕ → ℕ → Bool} {H H₁ H' : Host} {p e h k v idx : ℕ} {cs : List Clump}
    {t t' : Hashtable ℕ}
  {S : Finset ℕ} {s : Stacks ℕ}

/-- A process with a table that shows the stacks. -/
structure Stocked (hashfn : ℕ → UInt32) (H : Host) (p e h idx : ℕ) (cs : List Clump) (t : Hashtable ℕ) (S : Finset ℕ)
    (s : Stacks ℕ) : Prop where
  resident : Resident H.world p H.gclp cs e
  standing : Standing hashfn H.world.mem p cs h t S
  represents : Represents hashfn p t S
  stacked : Stacked t s
  started : idx ≤ t.primeindex
  root : H.world.mem (p + pmemStaticOffset) + p = if t.primeindex = idx then h else H.world.mem (h + 8)

theorem countEntry_of_not_grows (hgrows : ¬ Grows t) : CHashtable.countEntry t = some (counted t) := by
  rw [CHashtable.countEntry]
  by_cases hlt : t.loadlimit < (t.entrycount + 1) % 2 ^ 32
  · have hlast : t.primeindex = primeTableLength - 1 := by
      by_contra hne
      exact hgrows ⟨hlt, hne⟩
    exact (if_pos hlt).trans (if_pos hlast)
  · exact if_neg hlt

theorem insert_of_countEntry (hcount : CHashtable.countEntry t = some t') (k v a : ℕ) :
    CHashtable.hashtableInsert hashfn t k v a = some (linked hashfn t' k v a) := by
  rw [CHashtable.hashtableInsert, hcount]
  rfl

theorem Stocked.fresh (hs : Stocked hashfn H p e h idx cs t S s) (he : e ≤ poolSize) {cs' : List Clump} {w : World}
    {gclp ptr : ℕ}
    (hres : Resident w p gclp cs' e) (hptr : 0 < ptr) (hblock : BlockAt p cs' (p + ptr) 32) (hnew : p + ptr ∉ S) :
    Fresh p t (p + ptr) := by
  refine ⟨?_, ptr, rfl, ?_, hptr, ?_⟩
  · cases hx : t.mem (p + ptr) with
    | none => rfl
    | some x => exact absurd ((hs.standing.sorted.mem _).mp ⟨x, hx⟩) hnew
  · exact (Nat.dvd_add_right hs.resident.building.mapped.aligned).mp
      (hblock.aligned hres.tiles hs.resident.building.mapped.aligned)
  · have hbound := (hblock.bounds hres.tiles).2
    omega

theorem Stocked.add (hs : Stocked hashfn H p e h idx cs t S s) (he : e ≤ poolSize) {cs₁ : List Clump} {t₁ : Hashtable ℕ}
    (hres : Resident H₁.world p H₁.gclp cs₁ e) (hst : Standing hashfn H₁.world.mem p cs₁ h t₁ S)
    (hcount : CHashtable.countEntry t = some t₁) (hrun : Code.countEntry p h H = (.ok (), H₁))
    (hfit : Fitting p H₁.gclp cs₁ (reserveSize 32)) (hstart : idx ≤ t₁.primeindex)
    (hroot : H₁.world.mem (p + pmemStaticOffset) + p = if t₁.primeindex = idx then h else H₁.world.mem (h + 8))
    (k v : ℕ) : ∃ H' cs' t' S', Code.hashtableInsert hashfn p h k v H = (.ok (-1), H') ∧
      Stocked hashfn H' p e h idx cs' t' S' (s.insert hashfn k v) := by
  obtain ⟨H₂, cs₂, ptr, hadd, hins⟩ := addEntry_room hres hst hfit k v
  have hnew : p + ptr ∉ S := fun hS => (hins.kept (hst.entries _ hS)).2 rfl
  have hfresh := hs.fresh he hins.resident hins.offset (hins.standing.entries _ (Finset.mem_insert_self _ _)) hnew
  obtain ⟨t', S', hstep, hrep, hstk⟩ := hs.stacked.step (fun _ _ => false) hs.represents (.insert k v) fun _ _ _ =>
    hfresh
  have hrecord : Operation.run hashfn (fun _ _ => false) t (p + ptr) (.insert k v) =
      some (linked hashfn t₁ k v (p + ptr), -1, none) := by
    rw [Operation.run, insert_of_countEntry hcount]
    rfl
  obtain ⟨rfl, -⟩ := Prod.mk.inj (Option.some.inj (hrecord.symm.trans hstep))
  obtain rfl : S' = Insert.insert (p + ptr) S := by
    ext a
    rw [← hrep.mem a, hins.standing.sorted.mem a]
  refine ⟨H₂, cs₂, _, _, (Session.bind_ok hrun).trans hadd, hins.resident, hins.standing, hrep, hstk, hstart, ?_⟩
  rw [addEntry_below hres hst hfit hadd (by decide), hins.array]
  exact hroot

theorem Stocked.insert (hs : Stocked hashfn H p e h idx cs t S s) (he : e ≤ poolSize) (hroom : HasRoom p H.gclp cs t)
    (k v : ℕ) : ∃ H' cs' t' S', Code.hashtableInsert hashfn p h k v H = (.ok (-1), H') ∧
      Stocked hashfn H' p e h idx cs' t' S' (s.insert hashfn k v) := by
  have hres := hs.resident
  have hst := hs.standing
  rw [HasRoom] at hroom
  by_cases hgrows : Grows t
  · rw [if_pos hgrows] at hroom
    have hcard : S.card < chainFuel := by
      have hle := card_le hs.represents.pooled
      unfold chainFuel
      omega
    have hfit : Fitting p H.gclp cs (reserveSize (8 * newsize t)) := by
      by_contra hnone
      exact not_roomy (fun b hb hbf => hnone (hres.fitting_iff.mpr ⟨b, hb, hbf⟩)) hroom
    obtain ⟨ptr, H₁, cs₁, t₁, hrun, hgrown⟩ := countEntry_room hres hst hcard hgrows hfit
    have hcount : CHashtable.countEntry t = some t₁ := by
      rw [← hgrown.expand, CHashtable.countEntry]
      exact if_pos hgrows.1
    obtain ⟨s', -, rfl⟩ := expand_some (t := counted t) hgrows.2 hgrown.expand
    have hindex : (grown (counted t) (newsize (counted t)) s').primeindex = t.primeindex + 1 := rfl
    have hstart := hs.started
    refine hs.add he hgrown.resident hgrown.standing hcount hrun ((hgrown.room _).mpr hroom) (by omega) ?_ k v
    rw [hgrown.slot, hgrown.array, if_neg (by omega), Nat.add_comm]
  · rw [if_neg hgrows, ← hres.fitting_iff] at hroom
    obtain ⟨w₁, hrun, hres₁, hst₁, harr⟩ := countEntry_plain hres hst hgrows
    refine hs.add he hres₁ hst₁ (countEntry_of_not_grows hgrows) hrun hroom hs.started ?_ k v
    rw [countEntry_below hres hst hgrows hrun (by decide), harr]
    exact hs.root

theorem Stocked.reserveKey (hs : Stocked hashfn H p e h idx cs t S s) {size : ℕ} (hsize : size + 127 < 2 ^ 64) :
    ∃ ptr H' cs', Code.pmemallocReservVirtual p size H = (.ok (p + ptr, ptr), H') ∧
    Stocked hashfn H' p e h idx cs' t S s := by
  have hroot : ∀ {res : ℕ × ℕ} {H' : Host}, Code.pmemallocReservVirtual p size H = (.ok res, H') →
      H'.world.mem (p + pmemStaticOffset) = H.world.mem (p + pmemStaticOffset) := by
    intro res H' hrun
    obtain ⟨r, w₁, hreserve, -⟩ := hs.resident.reserve hsize
    rw [reserve_apply hreserve] at hrun
    obtain ⟨-, rfl⟩ := Prod.mk.inj hrun
    exact reserve_below hs.resident hreserve (by decide)
  by_cases hfit : Fitting p H.gclp cs (reserveSize size)
  · obtain ⟨ptr, H', cs', hrun, -, -, hres, hst, harr, -⟩ := reserve_standing hs.resident hs.standing hfit hsize
    refine ⟨ptr, H', cs', hrun, hres, hst, hs.represents, hs.stacked, hs.started, ?_⟩
    rw [hroot hrun, harr]
    exact hs.root
  · obtain ⟨H', hrun, -, hres, hst, hmem⟩ := reserve_standing_null hs.resident hs.standing hfit hsize
    refine ⟨0, H', cs, hrun, hres, hst, hs.represents, hs.stacked, hs.started, ?_⟩
    rw [hmem]
    exact hs.root

theorem Stocked.search (hs : Stocked hashfn H p e h idx cs t S s) (eqfn : ℕ → ℕ → Bool) (k : ℕ) :
    Code.hashtableSearch hashfn eqfn h k H.world = (.ok ((s.search hashfn eqfn k).elim 0 Prod.snd), H.world) :=
  search_code hs.standing (hs.stacked.search hs.represents k)

theorem RoomFor.hasRoom (hs : Stocked hashfn H p e h idx cs t S s) (hroom : RoomFor p e h H) :
    HasRoom p H.gclp cs t := by
  obtain ⟨cs', hchain, hall⟩ := hroom
  obtain ⟨rfl, -⟩ := hs.resident.building.chain.unique hchain
  exact hall t hs.standing.shows

theorem Filling.stocked {ops : List (Operation ℕ)} {answers : List Answer} (he : e ≤ poolSize)
    (h₁ : Stocked hashfn H₁ p e h idx cs t S s) (hr : Filling hashfn eqfn p e h H₁ H ops answers) :
    ∃ cs' t' S', Stocked hashfn H p e h idx cs' t' S' (s.replay hashfn eqfn ops).1 ∧
    answers = (s.replay hashfn eqfn ops).2 := by
  induction hr with
  | created => exact ⟨cs, t, S, h₁, rfl⟩
  | reserveKey hr hsize hrun ih =>
    obtain ⟨cs', t', S', hs, hanswers⟩ := ih
    obtain ⟨ptr, H', cs'', hrun', hs'⟩ := hs.reserveKey hsize
    obtain ⟨-, rfl⟩ := Prod.mk.inj (hrun'.symm.trans hrun)
    exact ⟨cs'', t', S', hs', hanswers⟩
  | insert hr hroom hrun ih =>
    obtain ⟨cs', t', S', hs, rfl⟩ := ih
    obtain ⟨H', cs'', t'', S'', hrun', hs'⟩ := hs.insert he (hroom.hasRoom hs) _ _
    obtain ⟨hcode, rfl⟩ := Prod.mk.inj (hrun'.symm.trans hrun)
    obtain rfl := Outcome.ok.inj hcode
    rw [Stacks.replay_append]
    exact ⟨cs'', t'', S'', hs', rfl⟩
  | @search H ops answers k v w hr hrun ih =>
    obtain ⟨cs', t', S', hs, rfl⟩ := ih
    obtain ⟨hv, rfl⟩ := Prod.mk.inj ((hs.search eqfn k).symm.trans hrun)
    obtain rfl := Outcome.ok.inj hv
    refine ⟨cs', t', S', ?_, ?_⟩
    · rw [Stacks.replay_append]
      exact hs
    · rw [Stacks.replay_append, Stacks.replay, Stacks.step]
      dsimp only
      cases (s.replay hashfn eqfn ops).1.search hashfn eqfn k <;> rfl

theorem Created.stocked {minsize ptr ptr₁ : ℕ} {cs₀ : List Clump} (hmin : ¬ 2 ^ 30 < minsize)
    (hc : Created hashfn H H₁ p e minsize cs₀ cs ptr ptr₁) :
    Stocked hashfn H₁ p e (p + ptr) (primes.findIdx (minsize < ·)) cs
      (emptyOf minsize) ∅ (Stacks.new ℕ (primes.findIdx (minsize < ·))) := by
  have hcreate := create_some hmin
  refine ⟨hc.resident, hc.standing, .create hcreate, .create hcreate, le_refl _, ?_⟩
  rw [hc.slot, Nat.add_comm]
  exact (if_pos rfl).symm

theorem open_stocked {w₀ : World} {minsize hashf eqf : ℕ} (hashfn : ℕ → UInt32) (hp : Mapped p e) (hp0 : 0 < p)
    (hopen : Opened p e w₀) (hroom : ∃ cs, Pool.Chain (fileAt p w₀.mem) pmemClumpOffset cs e ∧
    Roomy (reserveSize 48) (reserveSize (8 * sizeFor minsize)) cs)
    (hcreate : Code.createHashtable p minsize hashf eqf ⟨w₀, 0, []⟩ = (.ok h, H₁)) (h0 : h ≠ 0) :
    ∃ cs, Stocked hashfn H₁ p e h (primes.findIdx (minsize < ·)) cs (emptyOf minsize) ∅
      (Stacks.new ℕ (primes.findIdx (minsize < ·))) := by
  obtain ⟨cs₀, hchain₀, hroomy⟩ := hroom
  obtain ⟨cs, hbuild, -, hne⟩ := hopen.building hp
  obtain ⟨rfl, -⟩ := hbuild.chain.unique hchain₀
  have hres : Resident w₀ p 0 cs e := ⟨hbuild, Or.inl rfl, hne, hp0⟩
  have hmin : ¬ 2 ^ 30 < minsize := by
    intro hlt
    rw [Code.createHashtable, if_pos hlt] at hcreate
    exact h0 (Outcome.ok.inj (Prod.mk.inj hcreate).1).symm
  have hahead := hres.ahead_start
  obtain ⟨ptr, ptr₁, H', cs', hrun, hcreated⟩ := create_room hashfn (H := ⟨w₀, 0, []⟩) hres hmin (hahead.symm ▸ hroomy)
    hashf eqf
  obtain ⟨hh, rfl⟩ := Prod.mk.inj (hrun.symm.trans hcreate)
  obtain rfl := Outcome.ok.inj hh
  exact ⟨cs', hcreated.stocked hmin⟩

/-- A process that fills a table as long as the pool has room gets the answers of the stacks: every insertion
succeeds, also those that grow the table, and a search finds the pair on its stack. -/
theorem filling_answers {w₀ : World} {minsize hashf eqf : ℕ} {ops : List (Operation ℕ)} {answers : List Answer}
    (hp : Mapped p e) (hp0 : 0 < p) (he : e ≤ poolSize) (hopen : Opened p e w₀)
    (hroom : ∃ cs, Pool.Chain (fileAt p w₀.mem) pmemClumpOffset cs e ∧
    Roomy (reserveSize 48) (reserveSize (8 * sizeFor minsize)) cs)
    (hcreate : Code.createHashtable p minsize hashf eqf ⟨w₀, 0, []⟩ = (.ok h, H₁)) (h0 : h ≠ 0)
    (hr : Filling hashfn eqfn p e h H₁ H ops answers) :
    ∃ s, (Stacks.new ℕ (primes.findIdx (minsize < ·))).replay hashfn eqfn ops = (s, answers) ∧
      lowInt (H.world.mem (h + 16)) = s.count ∧
      (∀ k, Code.hashtableSearch hashfn eqfn h k H.world = (.ok ((s.search hashfn eqfn k).elim 0 Prod.snd), H.world)) ∧
      ∀ k v, RoomFor p e h H → ∃ H', Code.hashtableInsert hashfn p h k v H = (.ok (-1), H') := by
  obtain ⟨cs, h₁⟩ := open_stocked hashfn hp hp0 hopen hroom hcreate h0
  obtain ⟨cs', t, S, hs, rfl⟩ := hr.stocked he h₁
  refine ⟨_, rfl, ?_, hs.search eqfn, fun k v hmore => ?_⟩
  · rw [hs.standing.shows.entrycount, hs.stacked.total]
  · obtain ⟨H', -, -, -, hrun, -⟩ := hs.insert he (hmore.hasRoom hs) k v
    exact ⟨H', hrun⟩

/-- The root slot leads to the table if and only if it has not grown; otherwise it leads to the buckets. -/
theorem filling_root_iff {w₀ : World} {minsize hashf eqf : ℕ} {ops : List (Operation ℕ)} {answers : List Answer}
    (hp : Mapped p e) (hp0 : 0 < p) (he : e ≤ poolSize) (hopen : Opened p e w₀)
    (hroom : ∃ cs, Pool.Chain (fileAt p w₀.mem) pmemClumpOffset cs e ∧
    Roomy (reserveSize 48) (reserveSize (8 * sizeFor minsize)) cs)
    (hcreate : Code.createHashtable p minsize hashf eqf ⟨w₀, 0, []⟩ = (.ok h, H₁)) (h0 : h ≠ 0)
    (hr : Filling hashfn eqfn p e h H₁ H ops answers) :
    (H.world.mem (p + pmemStaticOffset) + p = h ↔ lowInt (H.world.mem (h + 24)) = primes.findIdx (minsize < ·)) ∧
      (H.world.mem (p + pmemStaticOffset) + p ≠ h → H.world.mem (p + pmemStaticOffset) + p = H.world.mem (h + 8)) := by
  obtain ⟨cs, h₁⟩ := open_stocked hashfn hp hp0 hopen hroom hcreate h0
  obtain ⟨cs', t, S, hs, -⟩ := hr.stocked he h₁
  rw [hs.standing.shows.primeindex, hs.root]
  by_cases hgrown : t.primeindex = primes.findIdx (minsize < ·)
  · rw [if_pos hgrown]
    exact ⟨iff_of_true rfl hgrown, fun hne => absurd rfl hne⟩
  · rw [if_neg hgrown]
    exact ⟨iff_of_false hs.standing.array_ne hgrown, fun _ => rfl⟩

end Runs

theorem filling_tableHost :
    ∃ ptr H₂, Code.createHashtable 1099511627776 10 0 0 ⟨tablePool, 0, []⟩ = (.ok (1099511627776 + ptr), tableHost) ∧
    0 < ptr ∧ Filling (fun _ => 0) (fun k k' => k == k') 1099511627776 536870848 (1099511627776 + ptr) tableHost H₂
    [.insert 7 1] [(-1, none)] := by
  obtain ⟨ptr, ptr₁, cs, hcreate, hcreated, hspare⟩ := create_tableHost
  have hnot : ¬ Grows (emptyOf 10) := by decide +kernel
  have hroom : RoomFor 1099511627776 536870848 (1099511627776 + ptr) tableHost := by
    refine ⟨cs, hcreated.resident.building.chain, fun t ht => ?_⟩
    have hgrows : ¬ Grows t := (growsAt_iff ht).not.mp ((growsAt_iff hcreated.standing.shows).not.mpr hnot)
    rw [HasRoom, if_neg hgrows, ← hcreated.resident.fitting_iff]
    exact hspare.fitting_iff.mpr (by decide)
  have hs := hcreated.stocked (by decide)
  obtain ⟨H₂, -, -, -, hrun, -⟩ := hs.insert (by decide) (hroom.hasRoom hs) 7 1
  exact ⟨ptr, H₂, hcreate, hcreated.offset.1, .insert .created hroom hrun⟩

theorem filling_answers_onePair :
    ∃ ptr H₂, Filling (fun _ => 0) (fun k k' => k == k') 1099511627776 536870848 (1099511627776 + ptr)
      tableHost H₂ [.insert 7 1] [(-1, none)] ∧
    Code.hashtableSearch (fun _ => 0) (fun k k' => k == k') (1099511627776 + ptr) 7 H₂.world = (.ok 1, H₂.world) := by
  obtain ⟨ptr, H₂, hcreate, hptr, hr⟩ := filling_tableHost
  obtain ⟨s, hs, -, hsearch, -⟩ := filling_answers ⟨by decide, by decide⟩ (by decide) (by decide)
    (.created (by decide) rfl init_tablePool) tablePool_room hcreate (by omega) hr
  obtain rfl := (Prod.mk.inj hs).1
  exact ⟨ptr, H₂, hr, hsearch 7⟩

theorem filling_root_iff_onePair :
    ∃ ptr H₂, Filling (fun _ => 0) (fun k k' => k == k') 1099511627776 536870848 (1099511627776 + ptr)
      tableHost H₂ [.insert 7 1] [(-1, none)] ∧
    (H₂.world.mem (1099511627776 + pmemStaticOffset) + 1099511627776 = 1099511627776 + ptr ↔
      lowInt (H₂.world.mem (1099511627776 + ptr + 24)) = primes.findIdx (10 < ·)) := by
  obtain ⟨ptr, H₂, hcreate, hptr, hr⟩ := filling_tableHost
  exact ⟨ptr, H₂, hr, (filling_root_iff ⟨by decide, by decide⟩ (by decide) (by decide)
    (.created (by decide) rfl init_tablePool) tablePool_room hcreate (by omega) hr).1⟩

end PmemExamples.CHashtable
