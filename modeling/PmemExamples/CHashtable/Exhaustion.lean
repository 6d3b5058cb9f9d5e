import PmemExamples.CHashtable.Create

/-! # `hashtable_insert` in a pool that is exhausted

`PMEM` makes the base of the pool of a null offset, so that the call goes on where the reservation of the larger
array or of the entry failed. It fails cleanly if and only if no reservation it makes fails. -/

namespace PmemExamples.CHashtable
open Persist Libpmem Pool Tiling Code
open BTree hiding pmemallocReservVirtual pmemallocActivateLocal
set_option autoImplicit false

/-- In its run the program makes the request. -/
def Session.Asks {α : Type} (q : Session α) (H : Host) (r : Request) : Prop :=
  ∃ rs, (q H).2.requests = H.requests ++ rs ∧ r ∈ rs

/-- A word of the static area, of the page of the pool header, or of a clump in use that is no part of the table. -/
def Foreign (m : Mem) (p : ℕ) (cs : List Clump) (h : ℕ) (S : Finset ℕ) (y : ℕ) : Prop :=
  (p + pmemStaticOffset ≤ y ∧ y < p + pmemStaticOffset + pmemStaticSize) ∨
  (p + pmemHdrOffset ≤ y ∧ y < p + pmemHdrOffset + pmemPageSize) ∨
  ∃ c ∈ cs, c.tag ≠ .free ∧ p + c.addr ≤ y ∧ y < p + c.addr + c.size ∧
    ∀ b, b = h ∨ b = m (h + 8) ∨ b ∈ S → b ≠ p + (c.addr + 64)

/-- The program stores to no such word. -/
def Session.Spares {α : Type} (q : Session α) (H : Host) (p : ℕ) (cs : List Clump) (h : ℕ) (S : Finset ℕ) : Prop :=
  ∀ evs, (q H).2.world.trace = H.world.trace ++ evs → ∀ ev ∈ evs, ∀ y, ev.Writes y → ¬ Foreign H.world.mem p cs h S y

/-- What is asked of an insertion that gets no memory. Without the larger array the entry is added to the table as
it stands; without the entry the call returns 0, and the table is as before or has grown. -/
structure FailsCleanly (hashfn : ℕ → UInt32) (p h k v : ℕ) (H : Host) (cs : List Clump) (t : Hashtable ℕ)
    (S : Finset ℕ) : Prop where
  array : Session.Asks (Code.hashtableInsert hashfn p h k v) H (.reserve (8 * newsize t) 0) →
    ∃ code H' a i, Code.hashtableInsert hashfn p h k v H = (.ok code, H') ∧ H'.world.mem (h + 8) = H.world.mem (h + 8) ∧
      Shows H'.world.mem h { linked hashfn (counted t) k v a with primeindex := i } ∧
      Session.Spares (Code.hashtableInsert hashfn p h k v) H p cs h S
  entry : Session.Asks (Code.hashtableInsert hashfn p h k v) H (.reserve 32 0) →
    ∃ H' t', Code.hashtableInsert hashfn p h k v H = (.ok 0, H') ∧ Shows H'.world.mem h t' ∧
      (t' = t ∧ Session.Spares (Code.hashtableInsert hashfn p h k v) H p cs h S ∨ hashtableExpand t = some t')

/-- The pool has room for what an insertion reserves: the larger array if the table grows, and the entry. -/
def HasRoom (p gclp : ℕ) (cs : List Clump) (t : Hashtable ℕ) : Prop :=
  if Grows t then Roomy (reserveSize (8 * newsize t)) (reserveSize 32) (ahead p gclp cs)
  else ∃ b ∈ ahead p gclp cs, b.Fits (reserveSize 32)

section Exhausted
variable {hashfn : ℕ → UInt32} {H H' : Host} {p e h : ℕ} {cs : List Clump} {t : Hashtable ℕ} {S : Finset ℕ} {k v : ℕ}

theorem not_asks_of_requests {q : Session ℤ} {rs : List Request} {r : Request} (h : (q H).2.requests = H.requests ++ rs)
    (hr : r ∉ rs) : ¬ Session.Asks q H r := by
  rintro ⟨rs', h', hmem⟩
  obtain rfl := List.append_cancel_left (h.symm.trans h')
  exact hr hmem

theorem failsCleanly_of_requests (rs : List Request)
    (hreq : (Code.hashtableInsert hashfn p h k v H).2.requests = H.requests ++ rs) (hr : ∀ n, .reserve n 0 ∉ rs) :
    FailsCleanly hashfn p h k v H cs t S :=
  ⟨fun hasks => absurd hasks (not_asks_of_requests hreq (hr _)), fun hasks =>
    absurd hasks (not_asks_of_requests hreq (hr _))⟩

theorem not_failsCleanly_of_success {rs : List Request} (hrun : Code.hashtableInsert hashfn p h k v H = (.ok (-1), H'))
    (hreq : H'.requests = H.requests ++ rs) (hr : .reserve 32 0 ∈ rs) : ¬ FailsCleanly hashfn p h k v H cs t S := by
  intro hclean
  obtain ⟨H'', t', hrun', -⟩ := hclean.entry ⟨rs, by rw [hrun, hreq], hr⟩
  rw [hrun] at hrun'
  cases hrun'

theorem not_failsCleanly_of_fatal {rs : List Request} {msg : String}
    (hrun : Code.hashtableInsert hashfn p h k v H = (.fatal msg, H')) (hreq : H'.requests = H.requests ++ rs)
    (hr : .reserve (8 * newsize t) 0 ∈ rs) : ¬ FailsCleanly hashfn p h k v H cs t S := by
  intro hclean
  obtain ⟨code, H'', a, i, hrun', -⟩ := hclean.array ⟨rs, by rw [hrun, hreq], hr⟩
  rw [hrun] at hrun'
  cases hrun'

theorem not_failsCleanly_of_emits (hstore : Session.Emits (Code.hashtableInsert hashfn p h k v) H
      (.store (p + pmemStaticOffset) 0))
    (hasks : Session.Asks (Code.hashtableInsert hashfn p h k v) H (.reserve (8 * newsize t) 0)) :
    ¬ FailsCleanly hashfn p h k v H cs t S := by
  intro hclean
  obtain ⟨evs, htrace, hev⟩ := hstore
  obtain ⟨code, H'', a, i, -, -, -, hspares⟩ := hclean.array hasks
  exact hspares evs htrace _ hev _ rfl (Or.inl ⟨le_refl _, by simp only [pmemStaticSize]; omega⟩)

theorem appends_addEntry (hashfn : ℕ → UInt32) (p h k v : ℕ) : Session.Appends (addEntry hashfn p h k v) := by
  apply (appends_reservVirtual p 32).bind
  rintro ⟨e, tmp⟩
  apply Session.Appends.ite
  · exact (Session.Appends.lift (appends_setBits _ _)).bind fun _ => .pure _
  · exact (Session.Appends.lift (appends_linkEntry _ _ _ _ _)).bind fun _ => .pure _

section Calls
variable (hres : Resident H.world p H.gclp cs e) (hst : Standing hashfn H.world.mem p cs h t S)
    (hcard : S.card < chainFuel)
include hres hst

variable (k v) in
theorem insert_null (hgrows : ¬ Grows t) (hnone : ¬ Fitting p H.gclp cs (reserveSize 32)) : ∃ H',
    Code.hashtableInsert hashfn p h k v H = (.ok (-1), H') ∧ H'.requests = H.requests ++ [.reserve 32 0] := by
  obtain ⟨w₁, hcount, hres₁, -, -⟩ := countEntry_plain hres hst hgrows
  obtain ⟨H', hadd, hreq⟩ := addEntry_null hashfn h (H := ⟨w₁, H.gclp, H.requests⟩) hres₁ hnone k v
  exact ⟨H', (Session.bind_ok hcount).trans hadd, hreq⟩

include hcard

theorem not_failsCleanly_of_no_array (hgrows : Grows t) (hnone : ¬ Fitting p H.gclp cs (reserveSize (8 * newsize t))) :
    ¬ FailsCleanly hashfn p h k v H cs t S := by
  by_cases hsmall : 8 * newsize t ≤ 4096
  · obtain ⟨msg, H', hrun, hreq⟩ := countEntry_null hres hst hcard hgrows hnone hsmall
    exact not_failsCleanly_of_fatal (Session.bind_fatal hrun) hreq (by simp)
  · obtain ⟨w₁, hres₁, -, -, hext, hrun⟩ := countEntry_grows hres hst hgrows
    have hsize := (newsize_bounds hst.sorted.index_lt hgrows.2).2.1
    obtain ⟨hemits, rs, hreq⟩ := enlarge_overruns (H := ⟨w₁, H.gclp, H.requests⟩) (h := h) hres₁ hnone
      (show 4096 < 8 * newsize t by omega) (by omega)
    have hgo : Code.hashtableInsert hashfn p h k v H = (do
        let _ ← enlarge p h (newsize t)
        addEntry hashfn p h k v : Session ℤ) ⟨w₁, H.gclp, H.requests⟩ := by
      rw [Code.hashtableInsert, Session.bind_apply, hrun, ← Session.bind_apply]
      exact Session.discard_bind _ _ _
    refine not_failsCleanly_of_emits ?_ ?_
    · have hall := hemits.bind fun _ => appends_addEntry hashfn p h k v
      obtain ⟨evs, htrace, hev⟩ := hall
      obtain ⟨-, evs₁, htrace₁⟩ := hext
      refine ⟨evs₁ ++ evs, ?_, List.mem_append_right _ hev⟩
      rw [hgo]
      refine htrace.trans ?_
      rw [htrace₁, List.append_assoc]
    · obtain ⟨-, rs', hreq'⟩ := Session.extends_bind (enlarge p h (newsize t)) (fun _ => appends_addEntry hashfn p h k v)
        ⟨w₁, H.gclp, H.requests⟩
      refine ⟨.reserve (8 * newsize t) 0 :: rs ++ rs', ?_, List.mem_append_left rs' List.mem_cons_self⟩
      rw [hgo, hreq', hreq, List.append_assoc]

/-- An insertion fails cleanly if and only if the pool has room for what it reserves. -/
theorem failsCleanly_iff : FailsCleanly hashfn p h k v H cs t S ↔ HasRoom p H.gclp cs t := by
  rw [HasRoom]
  split
  · next hgrows =>
    by_cases hfit : Fitting p H.gclp cs (reserveSize (8 * newsize t))
    · obtain ⟨ptr, H₁, cs₁, t₁, hcount, hgrown⟩ := countEntry_room hres hst hcard hgrows hfit
      refine Iff.trans ?_ (hgrown.room (reserveSize 32))
      by_cases hroom : Fitting p H₁.gclp cs₁ (reserveSize 32)
      · obtain ⟨H₂, cs₂, ptr₂, hadd, hins⟩ := addEntry_room hgrown.resident hgrown.standing hroom k v
        refine iff_of_true (failsCleanly_of_requests [.reserve (8 * newsize t) ptr, .onactive ptr, .activate ptr,
          .reserve 32 ptr₂] ?_ fun n => ?_) hroom
        · rw [Code.hashtableInsert, Session.bind_ok hcount, hadd, hins.requests, hgrown.requests, List.append_assoc]
          rfl
        · have h₁ := hgrown.offset.ne
          have h₂ := hins.offset.ne
          simp [h₁, h₂]
      · obtain ⟨H₂, hadd, hreq⟩ := addEntry_null hashfn h hgrown.resident hroom k v
        have hall : H₂.requests = H.requests ++
            [.reserve (8 * newsize t) ptr, .onactive ptr, .activate ptr, .reserve 32 0] := by
          rw [hreq, hgrown.requests, List.append_assoc]
          rfl
        exact iff_of_false (not_failsCleanly_of_success ((Session.bind_ok hcount).trans hadd) hall (by simp)) hroom
    · refine iff_of_false (not_failsCleanly_of_no_array hres hst hcard hgrows hfit) (not_roomy fun b hb hbf => hfit ?_)
      exact hres.fitting_iff.mpr ⟨b, hb, hbf⟩
  · next hgrows =>
    rw [← hres.fitting_iff]
    by_cases hroom : Fitting p H.gclp cs (reserveSize 32)
    · obtain ⟨w₁, H₂, cs₂, ptr₂, hrun, -, hins⟩ := insert_plain hres hst hgrows hroom k v
      refine iff_of_true (failsCleanly_of_requests [.reserve 32 ptr₂] ?_ fun n => ?_) hroom
      · rw [hrun, hins.requests]
      · have h₂ := hins.offset.ne
        simp [h₂]
    · obtain ⟨H₂, hrun, hreq⟩ := insert_null k v hres hst hgrows hroom
      exact iff_of_false (not_failsCleanly_of_success hrun hreq (by simp)) hroom

end Calls

/-- An insertion into a well-formed table fails cleanly if and only if the pool has room for what it reserves. -/
theorem insert_failsCleanly_iff (hres : Resident H.world p H.gclp cs e) (hst : Standing hashfn H.world.mem p cs h t S)
    (hcount : t.entrycount = S.card) : FailsCleanly hashfn p h k v H cs t S ↔ HasRoom p H.gclp cs t := by
  refine failsCleanly_iff hres hst ?_
  rw [← hcount, ← hst.shows.entrycount]
  exact Nat.mod_lt _ (by decide)

end Exhausted

/-! ## A pool that is full -/

/-- An insertion into a table with an entry of the same key. -/
theorem insert_failsCleanly_iff_oneEntry : ∃ ptr ptr₂ cs H,
    Code.hashtableInsert (fun _ => 0) 1099511627776 (1099511627776 + ptr) 7 1 tableHost = (.ok (-1), H) ∧
    Standing (fun _ => 0) H.world.mem 1099511627776 cs (1099511627776 + ptr)
      (linked (fun _ => 0) (counted (emptyOf 10)) 7 1 (1099511627776 + ptr₂)) (insert (1099511627776 + ptr₂) ∅) ∧
    (FailsCleanly (fun _ => 0) 1099511627776 (1099511627776 + ptr) 7 2 H cs
        (linked (fun _ => 0) (counted (emptyOf 10)) 7 1 (1099511627776 + ptr₂)) (insert (1099511627776 + ptr₂) ∅) ↔
      HasRoom 1099511627776 H.gclp cs (linked (fun _ => 0) (counted (emptyOf 10)) 7 1 (1099511627776 + ptr₂))) := by
  obtain ⟨ptr, ptr₁, cs, -, hcreated, hspare⟩ := create_tableHost
  have hfit : Fitting 1099511627776 tableHost.gclp cs (reserveSize 32) := hspare.fitting_iff.mpr (by decide)
  obtain ⟨w₁, H, cs', ptr₂, hrun, -, hins⟩ := insert_plain hcreated.resident hcreated.standing (by decide +kernel) hfit
    7 1
  refine ⟨ptr, ptr₂, cs', H, hrun, hins.standing, insert_failsCleanly_iff hins.resident hins.standing ?_⟩
  rw [Finset.card_insert_of_notMem (Finset.notMem_empty _)]
  rfl

/-- A key that takes all that the pool has left. -/
def fullHost : Host := (Code.pmemallocReservVirtual 1099511627776 536853760 tableHost).2

/-- No entry fits, and the insertion reports success with the entry at the base of the pool. -/
theorem insert_not_failsCleanly : ∃ ptr cs H', Resident fullHost.world 1099511627776 fullHost.gclp cs 536870848 ∧
    Standing (fun _ => 0) fullHost.world.mem 1099511627776 cs (1099511627776 + ptr) (emptyOf 10) ∅ ∧
    (emptyOf 10).entrycount = 0 ∧
    Code.hashtableInsert (fun _ => 0) 1099511627776 (1099511627776 + ptr) 7 1 fullHost = (.ok (-1), H') ∧
    H'.requests = fullHost.requests ++ [.reserve 32 0] ∧
    ¬ FailsCleanly (fun _ => 0) 1099511627776 (1099511627776 + ptr) 7 1 fullHost cs (emptyOf 10) ∅ := by
  obtain ⟨ptr, ptr₁, cs, -, hcreated, hspare⟩ := create_tableHost
  have hfit : Fitting 1099511627776 tableHost.gclp cs (reserveSize 536853760) := hspare.fitting_iff.mpr (by decide)
  obtain ⟨k, H₁, cs₁, hrun₁, -, -, hres₁, hst₁, -, -, -, hfull⟩ := reserve_standing hcreated.resident hcreated.standing
    hfit (by decide)
  obtain rfl : fullHost = H₁ := by rw [fullHost, hrun₁]
  have hnone : ¬ Fitting 1099511627776 fullHost.gclp cs₁ (reserveSize 32) := (hfull _ hspare).2 (by decide) _
  obtain ⟨H₃, hrun, hreq⟩ := insert_null 7 1 hres₁ hst₁ (by decide +kernel) hnone
  exact ⟨ptr, cs₁, H₃, hres₁, hst₁, rfl, hrun, hreq, not_failsCleanly_of_success hrun hreq (by simp)⟩

end PmemExamples.CHashtable
