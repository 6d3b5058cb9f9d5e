import PmemExamples.CHashtable.Create

/-! # What the hash table hands to the allocator

`pmemalloc_onactive`, `pmemalloc_activate` and `pmemalloc_free` take offsets that `pmemalloc_reserve` returned. The
table keeps to that, and keeps one block for each of its parts, as long as it neither grows nor finds a key that it is
to remove and has the memory it asks for: growth drops the old array, and a removal hands over mapped addresses. -/

namespace PmemExamples.CHashtable
open Persist Libpmem Pool Tiling Code
open BTree hiding pmemallocReservVirtual pmemallocActivateLocal
set_option autoImplicit false

/-! ## Requests -/

/-- The offsets reserved and not freed, after one more request. -/
def Request.next (live : List ℕ) : Request → List ℕ
  | .reserve _ ptr_ => if ptr_ = 0 then live else ptr_ :: live
  | .onactive _ => live
  | .activate _ => live
  | .free ptr_ => live.erase ptr_

def liveAfter (live : List ℕ) (rs : List Request) : List ℕ := rs.foldl Request.next live

/-- What is handed over is reserved and not freed. -/
def Request.Lawful (live : List ℕ) : Request → Prop
  | .reserve _ _ => True
  | .onactive ptr_ => ptr_ ∈ live
  | .activate ptr_ => ptr_ ∈ live
  | .free ptr_ => ptr_ ∈ live

def Lawful : List ℕ → List Request → Prop
  | _, [] => True
  | live, r :: rs => r.Lawful live ∧ Lawful (r.next live) rs

section Requests
variable {live : List ℕ} {rs rs' : List Request} {n q : ℕ}

theorem lawful_append : Lawful live (rs ++ rs') ↔ Lawful live rs ∧ Lawful (liveAfter live rs) rs' := by
  induction rs generalizing live with
  | nil => exact (and_iff_right trivial).symm
  | cons r rs ih =>
    rw [List.cons_append, Lawful, Lawful, ih, and_assoc]
    rfl

theorem liveAfter_reserve (hq : 0 < q) : liveAfter live (rs ++ [.reserve n q]) = q :: liveAfter live rs := by
  rw [liveAfter, List.foldl_append]
  exact if_neg hq.ne'

/-- Lawful requests in a pool of `e` bytes. -/
structure Honest (e : ℕ) (rs : List Request) : Prop where
  lawful : Lawful [] rs
  inside : ∀ q ∈ liveAfter [] rs, q ≤ e

theorem Honest.reserve {e : ℕ} (h : Honest e rs) (n : ℕ) (hq : q ≤ e) : Honest e (rs ++ [.reserve n q]) := by
  refine ⟨lawful_append.mpr ⟨h.lawful, trivial, trivial⟩, fun b hb => ?_⟩
  rcases Nat.eq_zero_or_pos q with rfl | hpos
  · rw [liveAfter, List.foldl_append] at hb
    exact h.inside b hb
  · rw [liveAfter_reserve hpos] at hb
    rcases List.mem_cons.mp hb with rfl | hb
    · exact hq
    · exact h.inside b hb

end Requests

/-! ## Runs -/

/-- The insertion at `h` grows the table, as the words of its header say. -/
def GrowsAt (m : Mem) (h : ℕ) : Prop :=
  highInt (m (h + 16)) < (lowInt (m (h + 16)) + 1) % 2 ^ 32 ∧ lowInt (m (h + 24)) ≠ primeTableLength - 1

section Keys
variable (hashfn : ℕ → UInt32) (eqfn : ℕ → ℕ → Bool)

/-- What a process does with a table. -/
inductive Call where
  | reserveKey (size : ℕ)
  | insert (k v : ℕ)
  | remove (k : ℕ)

/-- The process that the call leaves, however it ends. -/
def Call.leaves (p h : ℕ) : Call → Host → Host
  | .reserveKey size, H => (Code.pmemallocReservVirtual p size H).2
  | .insert k v, H => (Code.hashtableInsert hashfn p h k v H).2
  | .remove k, H => (Code.hashtableRemove hashfn eqfn p h k H).2

/-- A process that has made some calls, each meeting `cond`, on the table that `create_hashtable` left it in `H₁`,
with the requests of the table and the keys. -/
inductive Process (p h : ℕ) (H₁ : Host) (cond : Host → Call → Prop) : Host → List Request → List ℕ → Prop
  | created : Process p h H₁ cond H₁ H₁.requests []
  | reserveKey {H H' : Host} {mine : List Request} {keys : List ℕ} {size k tmp : ℕ}
    (hr : Process p h H₁ cond H mine keys)
      (hc : cond H (.reserveKey size)) (hrun : Code.pmemallocReservVirtual p size H = (.ok (k, tmp), H')) :
      Process p h H₁ cond H' mine (k :: keys)
  | insert {H H' : Host} {mine : List Request} {keys : List ℕ} {k v : ℕ} {code : ℤ}
    (hr : Process p h H₁ cond H mine keys)
      (hk : k ∈ keys) (hc : cond H (.insert k v)) (hrun : Code.hashtableInsert hashfn p h k v H = (.ok code, H')) :
      Process p h H₁ cond H' (mine ++ H'.requests.drop H.requests.length) keys
  | remove {H H' : Host} {mine : List Request} {keys : List ℕ} {k v : ℕ} (hr : Process p h H₁ cond H mine keys)
      (hc : cond H (.remove k)) (hrun : Code.hashtableRemove hashfn eqfn p h k H = (.ok v, H')) :
      Process p h H₁ cond H' (mine ++ H'.requests.drop H.requests.length) keys

/-- The table has what it asked for and did not free: the header, the array and the entries. -/
def Owns (p h : ℕ) (m : Mem) (mine : List Request) : Prop :=
  ∃ t S, Shows m h t ∧ Sorted hashfn t S ∧ ((liveAfter [] mine).map (p + ·)).Perm (h :: m (h + 8) :: S.toList)

/-- The table does not grow and gets its entry, or does not find what it is to remove. -/
def Careful (p e h : ℕ) (H : Host) : Call → Prop
  | .reserveKey size => size + 127 < 2 ^ 64
  | .insert _ _ => ¬ GrowsAt H.world.mem h ∧
      ∃ cs, Pool.Chain (fileAt p H.world.mem) pmemClumpOffset cs e ∧ Fitting p H.gclp cs (reserveSize 32)
  | .remove k => ∀ t S, Shows H.world.mem h t → Sorted hashfn t S → ∀ a x, t.mem a = some x → ¬ Matches hashfn eqfn k x

end Keys

/-! ## Steps -/

section Steps
variable {hashfn : ℕ → UInt32} {eqfn : ℕ → ℕ → Bool} {H H' : Host} {p e h k v : ℕ} {cs : List Clump} {t : Hashtable ℕ}
  {S : Finset ℕ} {mine : List Request}

theorem growsAt_iff {m : Mem} (ht : Shows m h t) : GrowsAt m h ↔ Grows t := by
  rw [GrowsAt, Grows, ht.loadlimit, ht.entrycount, ht.primeindex]

/-- The process keeps to the rules, and the table to its blocks. -/
structure Orderly (hashfn : ℕ → UInt32) (H : Host) (p e h : ℕ) (cs : List Clump) (t : Hashtable ℕ) (S : Finset ℕ)
    (mine : List Request) : Prop where
  resident : Resident H.world p H.gclp cs e
  standing : Standing hashfn H.world.mem p cs h t S
  honest : Honest e H.requests
  blocks : ((liveAfter [] mine).map (p + ·)).Perm (h :: H.world.mem (h + 8) :: S.toList)

theorem Orderly.owns (ho : Orderly hashfn H p e h cs t S mine) : Owns hashfn p h H.world.mem mine :=
  ⟨t, S, ho.standing.shows, ho.standing.sorted, ho.blocks⟩

theorem Created.orderly {minsize ptr ptr₁ : ℕ} {w₀ : World} {cs₀ : List Clump}
    (hc : Created hashfn ⟨w₀, 0, []⟩ H p e minsize cs₀ cs ptr ptr₁) :
    Orderly hashfn H p e (p + ptr) cs (emptyOf minsize) ∅ H.requests := by
  have hreq := hc.requests
  obtain ⟨h₀, h₁⟩ := hc.offset
  have hnext : liveAfter [] H.requests = [ptr₁, ptr] := by
    rw [hreq]
    simp [liveAfter, Request.next, h₀.ne', h₁.ne']
  have hhead := (hc.standing.header.bounds hc.resident.tiles).2
  have harr := (hc.standing.array.bounds hc.resident.tiles).2
  rw [hc.array] at harr
  refine ⟨hc.resident, hc.standing, ⟨?_, fun q hq => ?_⟩, ?_⟩
  · rw [hreq]
    simp [Lawful, Request.Lawful, Request.next, h₀.ne', h₁.ne']
  · rw [hnext] at hq
    simp only [List.mem_cons, List.not_mem_nil, or_false] at hq
    omega
  · rw [hnext, hc.array, Finset.toList_empty]
    exact List.Perm.swap (p + ptr) (p + ptr₁) []

theorem Orderly.reserveKey (ho : Orderly hashfn H p e h cs t S mine) {size : ℕ} (hsize : size + 127 < 2 ^ 64) :
    ∃ ptr H' cs', Code.pmemallocReservVirtual p size H = (.ok (p + ptr, ptr), H') ∧
      Orderly hashfn H' p e h cs' t S mine ∧
      ∀ x, Spare p H.gclp cs x → reserveSize size + pmemChunkSize * 2 ≤ x →
        Spare p H'.gclp cs' (x - reserveSize size) := by
  by_cases hfit : Fitting p H.gclp cs (reserveSize size)
  · obtain ⟨ptr, H', cs', hrun, hreq, -, hres, hst, harr, hblock, -, hspare⟩ :=
      reserve_standing ho.resident ho.standing hfit hsize
    have hbound := hblock.bounds hres.tiles
    refine ⟨ptr, H', cs', hrun, ⟨hres, hst, ?_, ?_⟩, fun x hx => (hspare x hx).1⟩
    · rw [hreq]
      exact ho.honest.reserve _ (by simp only [pmemClumpOffset] at hbound; omega)
    · rw [harr]
      exact ho.blocks
  · obtain ⟨H', hrun, hreq, hres, hst, hmem⟩ := reserve_standing_null ho.resident ho.standing hfit hsize
    refine ⟨0, H', cs, hrun, ⟨hres, hst, ?_, ?_⟩, fun x hx hle => absurd (hx.fitting_iff.mpr (by omega)) hfit⟩
    · rw [hreq]
      exact ho.honest.reserve _ (Nat.zero_le e)
    · rw [hmem]
      exact ho.blocks

theorem Orderly.insertPlain (ho : Orderly hashfn H p e h cs t S mine) (k v : ℕ) (hgrows : ¬ Grows t)
    (hfit : Fitting p H.gclp cs (reserveSize 32)) :
    ∃ H' cs' ptr, Code.hashtableInsert hashfn p h k v H = (.ok (-1), H') ∧
      Orderly hashfn H' p e h cs' (linked hashfn (counted t) k v (p + ptr)) (insert (p + ptr) S)
        (mine ++ H'.requests.drop H.requests.length) := by
  obtain ⟨w₁, H', cs', ptr, hrun, harr₁, hins⟩ := insert_plain ho.resident ho.standing hgrows hfit k v
  have hreq : H'.requests = H.requests ++ [.reserve 32 ptr] := hins.requests
  have hnew : p + ptr ∉ S := fun hS => (hins.kept (ho.standing.entries _ hS)).2 rfl
  have hbound := (hins.standing.entries _ (Finset.mem_insert_self _ _)).bounds hins.resident.tiles
  refine ⟨H', cs', ptr, hrun, hins.resident, hins.standing, ?_, ?_⟩
  · rw [hreq]
    exact ho.honest.reserve _ (by simp only [pmemClumpOffset] at hbound; omega)
  · rw [hreq, List.drop_left, liveAfter_reserve hins.offset, hins.array.trans harr₁, List.map_cons]
    have hfront : ((p + ptr) :: h :: H.world.mem (h + 8) :: S.toList).Perm
      (h :: H.world.mem (h + 8) :: (p + ptr) :: S.toList) :=
      (List.Perm.swap _ _ _).trans ((List.Perm.swap _ _ _).cons h)
    exact ((ho.blocks.cons (p + ptr)).trans hfront).trans (((Finset.toList_insert hnew).symm.cons _).cons h)

theorem removeLoop_step {a fuel pE : ℕ} {x : Entry ℕ} (h0 : a ≠ 0) (hshow : ShowsEntry H.world.mem a x) :
    Code.removeLoop eqfn p h k (hash hashfn k) (fuel + 1) pE a H =
      if Matches hashfn eqfn k x then removeEntry p h pE a H
      else Code.removeLoop eqfn p h k (hash hashfn k) fuel (a + 24) x.next H := by
  have hgo : Code.removeLoop eqfn p h k (hash hashfn k) (fuel + 1) pE a H =
      if hash hashfn k = UInt32.ofNat (lowInt (H.world.mem (a + 16))) ∧ eqfn k (H.world.mem a) = true then removeEntry p
        h pE a H
      else Code.removeLoop eqfn p h k (hash hashfn k) fuel (a + 24) (H.world.mem (a + 24)) H := by
    rw [Code.removeLoop, if_neg h0]
    exact Session.ite_apply _ _ _ H
  rw [hgo, hshow.h, hshow.k, hshow.next]
  rfl

variable (p h) in
theorem removeLoop_quiet (hentry : ∀ a x, t.mem a = some x → ShowsEntry H.world.mem a x)
    (hno : ∀ a x, t.mem a = some x → ¬ Matches hashfn eqfn k x) {l : List ℕ} {a : ℕ} (fuel pE : ℕ)
    (hl : Linked.Chain Entry.next t.mem a l) :
    (Code.removeLoop eqfn p h k (hash hashfn k) fuel pE a H).2 = H ∧
      (l.length < fuel → (Code.removeLoop eqfn p h k (hash hashfn k) fuel pE a H).1 = .ok 0) := by
  induction l generalizing a fuel pE with
  | nil =>
    obtain rfl : a = 0 := hl
    cases fuel with
    | zero => exact ⟨rfl, fun hlt => absurd hlt (Nat.not_lt_zero _)⟩
    | succ fuel => exact ⟨rfl, fun _ => rfl⟩
  | cons b l ih =>
    obtain ⟨rfl, h0, x, hx, hl⟩ := hl
    cases fuel with
    | zero => exact ⟨rfl, fun hlt => absurd hlt (Nat.not_lt_zero _)⟩
    | succ fuel =>
      rw [removeLoop_step h0 (hentry a x hx), if_neg (hno a x hx)]
      obtain ⟨hstate, hret⟩ := ih fuel (a + 24) hl
      exact ⟨hstate, fun hlt => hret (Nat.lt_of_succ_lt_succ hlt)⟩

theorem Sorted.length_le {l : List ℕ} {i : ℕ} (hs : Sorted hashfn t S) (hi : i < t.tablelength)
    (hl : Linked.Chain Entry.next t.mem (t.table i) l) : l.length ≤ S.card := by
  obtain ⟨l', hl', hmem⟩ := hs.buckets i hi
  obtain rfl := hl'.unique hl
  rw [← List.toFinset_card_of_nodup hl.nodup]
  exact Finset.card_le_card fun a ha => ((hmem a).mp (List.mem_toFinset.mp ha)).1

variable (p) in
theorem remove_quiet (hst : Standing hashfn H.world.mem p cs h t S)
    (hno : ∀ a x, t.mem a = some x → ¬ Matches hashfn eqfn k x) :
    (Code.hashtableRemove hashfn eqfn p h k H).2 = H ∧
      (S.card < chainFuel → (Code.hashtableRemove hashfn eqfn p h k H).1 = .ok 0) := by
  have hi := indexFor_lt hst.sorted.tablelength_pos (hash hashfn k)
  obtain ⟨l, hl, -⟩ := hst.sorted.buckets _ hi
  have hlen := hst.sorted.length_le hi hl
  rw [← hst.shows.table _ hi] at hl
  have hquiet := removeLoop_quiet p h hst.shows.entries hno chainFuel
    (H.world.mem (h + 8) + 8 * indexFor t.tablelength (hash hashfn k)) hl
  rw [← hst.shows.tablelength] at hquiet
  exact ⟨hquiet.1, fun hcard => hquiet.2 (lt_of_le_of_lt hlen hcard)⟩

end Steps

/-! ## A removal that finds its key -/

/-- The requests of a program stay, and it may add to them. -/
def Session.Records {α : Type} (q : Session α) : Prop := ∀ H : Host, ∃ rs, (q H).2.requests = H.requests ++ rs

section Records
variable {α β : Type}

theorem records_lift (prog : Prog α) : Session.Records (Session.lift prog) := fun _ => ⟨[], (List.append_nil _).symm⟩

theorem records_pure (a : α) : Session.Records (pure a) := fun _ => ⟨[], (List.append_nil _).symm⟩

theorem records_bind {q : Session α} {f : α → Session β} (hq : q.Records) (hf : ∀ a, (f a).Records) :
    (q >>= f).Records := by
  intro H
  obtain ⟨rs, hrs⟩ := hq H
  rw [Session.bind_apply]
  cases hrun : q H with
  | mk r H' =>
    rw [hrun] at hrs
    cases r with
    | ok a =>
      obtain ⟨rs', hrs'⟩ := hf a H'
      exact ⟨rs ++ rs', by rw [hrs', hrs, List.append_assoc]⟩
    | fatal msg => exact ⟨rs, hrs⟩
    | hang => exact ⟨rs, hrs⟩

theorem records_freeLocal (p ptr_ : ℕ) : (pmemallocFreeLocal p ptr_).Records :=
  records_bind (fun _ => ⟨_, rfl⟩) fun _ => records_lift _

end Records

section Found
variable {hashfn : ℕ → UInt32} {eqfn : ℕ → ℕ → Bool} {H : Host} {p e h k a pE : ℕ} {cs : List Clump} {t : Hashtable ℕ}
  {S : Finset ℕ}

theorem mem_emit_store (w : World) (y v : ℕ) : (w.emit (.store y v)).mem = Function.update w.mem y v := by
  rw [World.mem, World.emit, applyAll_append]
  rfl

theorem removeEntry_hands (hpE : pE ≠ a) (hh : h + 16 ≠ a) :
    ∃ rs, (removeEntry p h pE a H).2.requests = H.requests ++ .free (H.world.mem a) :: rs := by
  generalize hnext : H.world.mem (a + 24) = next
  generalize hw₁ : H.world.emit (.store pE next) = w₁
  generalize hword : setLow (w₁.mem (h + 16)) (lowInt (w₁.mem (h + 16)) + (2 ^ 32 - 1)) = word
  generalize hw₂ : w₁.emit (.store (h + 16) word) = w₂
  have hkey : w₂.mem a = H.world.mem a := by
    rw [← hw₂, mem_emit_store, Function.update_of_ne hh.symm, ← hw₁, mem_emit_store, Function.update_of_ne hpE.symm]
  have hgo : removeEntry p h pE a H = (do
      Session.lift (pmemallocFree p (w₂.mem a))
      pmemallocFreeLocal p a
      return w₂.mem (a + 8) : Session ℕ) ⟨w₂, H.gclp, H.requests ++ [.free (w₂.mem a)]⟩ := by
    subst hw₂ hword hw₁ hnext
    rfl
  obtain ⟨rs, hrs⟩ := (records_bind (records_lift (pmemallocFree p (w₂.mem a))) fun _ =>
    records_bind (records_freeLocal p a) fun _ => records_pure (w₂.mem (a + 8)))
      ⟨w₂, H.gclp, H.requests ++ [.free (w₂.mem a)]⟩
  refine ⟨rs, ?_⟩
  rw [hgo, hrs, hkey, List.append_assoc]
  rfl

theorem removeLoop_hands (hentry : ∀ a x, t.mem a = some x → ShowsEntry H.world.mem a x)
    (hapart : ∀ a x, t.mem a = some x → h + 16 ≠ a ∧ ∀ b y, t.mem b = some y → b + 24 ≠ a) {l : List ℕ} {fuel : ℕ}
    (hl : Linked.Chain Entry.next t.mem a l) (hfuel : l.length < fuel) (hpE : ∀ b x, t.mem b = some x → pE ≠ b)
    (hfound : ∃ b ∈ l, ∃ x, t.mem b = some x ∧ Matches hashfn eqfn k x) : ∃ b x rs, t.mem b = some x ∧
      (Code.removeLoop eqfn p h k (hash hashfn k) fuel pE a H).2.requests = H.requests ++ .free x.k :: rs := by
  induction l generalizing a fuel pE with
  | nil =>
    obtain ⟨b, hb, -⟩ := hfound
    cases hb
  | cons b l ih =>
    obtain ⟨rfl, h0, x, hx, hl⟩ := hl
    cases fuel with
    | zero => omega
    | succ fuel =>
      have hshow := hentry a x hx
      rw [removeLoop_step h0 hshow]
      split
      · obtain ⟨rs, hrs⟩ := removeEntry_hands (p := p) (H := H) (hpE a x hx) (hapart a x hx).1
        exact ⟨a, x, rs, hx, by rw [hrs, hshow.k]⟩
      · next hmiss =>
        refine ih hl (by simpa using hfuel) (fun b y hb => (hapart b y hb).2 a x hx) ?_
        obtain ⟨b, hb, y, hy, hmatch⟩ := hfound
        rcases List.mem_cons.mp hb with rfl | hb
        · obtain rfl := Option.some.inj (hx.symm.trans hy)
          exact absurd hmatch hmiss
        · exact ⟨b, hb, y, hy, hmatch⟩

/-- A removal that finds an entry hands its key to `pmemalloc_free`. -/
theorem remove_hands (hst : Standing hashfn H.world.mem p cs h t S) (htiles : Tiles 64 pmemClumpOffset cs e)
    (hcard : S.card < chainFuel)
    (hfound : ∃ a x, t.mem a = some x ∧ Matches hashfn eqfn k x) : ∃ b x rs, t.mem b = some x ∧
      (Code.hashtableRemove hashfn eqfn p h k H).2.requests = H.requests ++ .free x.k :: rs := by
  have hi := indexFor_lt hst.sorted.tablelength_pos (hash hashfn k)
  obtain ⟨l, hl, hmem⟩ := hst.sorted.buckets _ hi
  have hlen : l.length < chainFuel := lt_of_le_of_lt (hst.sorted.length_le hi hl) hcard
  have hin : ∀ a x, t.mem a = some x → a ∈ S := fun a x hx => (hst.sorted.mem a).mp ⟨x, hx⟩
  have hapart : ∀ a x, t.mem a = some x → h + 16 ≠ a ∧ ∀ b y, t.mem b = some y → b + 24 ≠ a := by
    intro a x hx
    have haS := hin a x hx
    have hhead := hst.header.apart (hst.entries a haS) htiles (hst.entry_ne a haS).1.symm
    refine ⟨by omega, fun b y hy heq => ?_⟩
    have hbS := hin b y hy
    have hab := (hst.entries b hbS).apart (hst.entries a haS) htiles (by omega)
    omega
  have hpE : ∀ b x, t.mem b = some x → H.world.mem (h + 8) + 8 * indexFor t.tablelength (hash hashfn k) ≠ b := by
    intro b x hx heq
    have hbS := hin b x hx
    have hab := hst.array.apart (hst.entries b hbS) htiles (hst.entry_ne b hbS).2.symm
    omega
  obtain ⟨a, x, hx, hmatch⟩ := hfound
  rw [← hst.shows.table _ hi] at hl
  change ∃ b x rs, t.mem b = some x ∧ (Code.removeLoop eqfn p h k (hash hashfn k) chainFuel
    (H.world.mem (h + 8) + 8 * indexFor (lowInt (H.world.mem h)) (hash hashfn k))
    (H.world.mem (H.world.mem (h + 8) + 8 * indexFor (lowInt (H.world.mem h)) (hash hashfn k))) H).2.requests =
      H.requests ++ .free x.k :: rs
  rw [hst.shows.tablelength]
  exact removeLoop_hands hst.shows.entries hapart hl hlen hpE
    ⟨a, (hmem a).mpr ⟨hin a x hx, x, hx, congrArg _ hmatch.1.symm⟩, x, hx, hmatch⟩

end Found

/-! ## Careful runs -/

section Runs
variable {hashfn : ℕ → UInt32} {eqfn : ℕ → ℕ → Bool} {H H₁ : Host} {p e h : ℕ} {cs : List Clump} {t : Hashtable ℕ}
    {S : Finset ℕ}
  {mine : List Request} {keys : List ℕ} {c : Call}

/-- What the table asked for in the call. -/
def Call.asked (hashfn : ℕ → UInt32) (eqfn : ℕ → ℕ → Bool) (p h : ℕ) (H : Host) : Call → List Request
  | .reserveKey _ => []
  | .insert k v => (Code.hashtableInsert hashfn p h k v H).2.requests.drop H.requests.length
  | .remove k => (Code.hashtableRemove hashfn eqfn p h k H).2.requests.drop H.requests.length

theorem Orderly.step (ho : Orderly hashfn H p e h cs t S mine) (hc : Careful hashfn eqfn p e h H c) : ∃ cs' t' S',
    Orderly hashfn (c.leaves hashfn eqfn p h H) p e h cs' t' S' (mine ++ c.asked hashfn eqfn p h H) := by
  cases c with
  | reserveKey size =>
    obtain ⟨ptr, H', cs', hrun, ho', -⟩ := ho.reserveKey hc
    refine ⟨cs', t, S, ?_⟩
    rw [Call.asked, List.append_nil, Call.leaves, hrun]
    exact ho'
  | insert k v =>
    obtain ⟨hgrows, cs₁, hchain, hfit⟩ := hc
    obtain ⟨rfl, -⟩ := ho.resident.building.chain.unique hchain
    obtain ⟨H', cs', ptr, hrun, ho'⟩ := ho.insertPlain k v ((growsAt_iff ho.standing.shows).not.mp hgrows) hfit
    refine ⟨cs', linked hashfn (counted t) k v (p + ptr), insert (p + ptr) S, ?_⟩
    rw [Call.asked, Call.leaves, hrun]
    exact ho'
  | remove k =>
    obtain ⟨hquiet, -⟩ := remove_quiet p ho.standing (hc t S ho.standing.shows ho.standing.sorted)
    refine ⟨cs, t, S, ?_⟩
    rw [Call.asked, Call.leaves, hquiet, List.drop_length, List.append_nil]
    exact ho

theorem Process.orderly (h₁ : Orderly hashfn H₁ p e h cs t S H₁.requests)
    (hr : Process hashfn eqfn p h H₁ (Careful hashfn eqfn p e h) H mine keys) :
    ∃ cs' t' S', Orderly hashfn H p e h cs' t' S' mine := by
  induction hr with
  | created => exact ⟨cs, t, S, h₁⟩
  | @reserveKey H H' mine keys size k tmp hr hc hrun ih =>
    obtain ⟨cs', t', S', ho⟩ := ih
    have hstep := ho.step hc
    rw [Call.asked, Call.leaves, hrun, List.append_nil] at hstep
    exact hstep
  | @insert H H' mine keys k v code hr hk hc hrun ih =>
    obtain ⟨cs', t', S', ho⟩ := ih
    have hstep := ho.step hc
    rw [Call.asked, Call.leaves, hrun] at hstep
    exact hstep
  | @remove H H' mine keys k v hr hc hrun ih =>
    obtain ⟨cs', t', S', ho⟩ := ih
    have hstep := ho.step hc
    rw [Call.asked, Call.leaves, hrun] at hstep
    exact hstep

/-- With the keys mapped above the size of the pool, a removal is lawful if and only if it does not find its key. -/
theorem Orderly.remove_lawful_iff (eqfn : ℕ → ℕ → Bool) (k : ℕ) (ho : Orderly hashfn H p e h cs t S mine)
    (hcard : S.card < chainFuel)
    (hkeys : ∀ a x, t.mem a = some x → e < x.k) : Lawful [] (Code.hashtableRemove hashfn eqfn p h k H).2.requests ↔
      ∀ a x, t.mem a = some x → ¬ Matches hashfn eqfn k x := by
  constructor
  · intro hlawful a x hx hmatch
    obtain ⟨b, y, rs, hy, hreq⟩ := remove_hands ho.standing ho.resident.tiles hcard ⟨a, x, hx, hmatch⟩
    rw [hreq] at hlawful
    have hmem : y.k ∈ liveAfter [] H.requests := (lawful_append.mp hlawful).2.1
    have hle := ho.honest.inside _ hmem
    have hlt := hkeys b y hy
    omega
  · intro hno
    rw [(remove_quiet p ho.standing hno).1]
    exact ho.honest.lawful

/-- In a run of careful calls the table owns its parts, and everything handed over is lawful, also by the next call. -/
theorem handover_of_careful {w₀ : World} {minsize hashf eqf : ℕ} (hp : Mapped p e) (hp0 : 0 < p) (hopen : Opened p e w₀)
    (hroom : ∃ cs, Pool.Chain (fileAt p w₀.mem) pmemClumpOffset cs e ∧
    Roomy (reserveSize 48) (reserveSize (8 * sizeFor minsize)) cs)
    (hcreate : Code.createHashtable p minsize hashf eqf ⟨w₀, 0, []⟩ = (.ok h, H₁)) (h0 : h ≠ 0)
    (hr : Process hashfn eqfn p h H₁ (Careful hashfn eqfn p e h) H mine keys) :
    Owns hashfn p h H.world.mem mine ∧ Lawful [] H.requests ∧
      ∀ c, Careful hashfn eqfn p e h H c → Lawful [] (c.leaves hashfn eqfn p h H).requests := by
  obtain ⟨cs₀, hchain₀, hroomy⟩ := hroom
  obtain ⟨cs, hbuild, -, hne⟩ := hopen.building hp
  obtain ⟨rfl, -⟩ := hbuild.chain.unique hchain₀
  have hres : Resident w₀ p 0 cs e := ⟨hbuild, Or.inl rfl, hne, hp0⟩
  have hmin : ¬ 2 ^ 30 < minsize := by
    intro hlt
    rw [Code.createHashtable, if_pos hlt] at hcreate
    exact h0 (Outcome.ok.inj (Prod.mk.inj hcreate).1).symm
  have hahead := hres.ahead_start
  obtain ⟨ptr, ptr₁, H', cs', hrun, hcreated⟩ := create_room hashfn (H := ⟨w₀, 0, []⟩) hres hmin (hahead.symm ▸ hroomy)
    hashf eqf
  rw [hrun] at hcreate
  obtain ⟨hh, rfl⟩ := Prod.mk.inj hcreate
  obtain rfl := Outcome.ok.inj hh
  obtain ⟨cs'', t, S, ho⟩ := hr.orderly hcreated.orderly
  refine ⟨ho.owns, ho.honest.lawful, fun c hc => ?_⟩
  obtain ⟨_, _, _, ho'⟩ := ho.step hc
  exact ho'.honest.lawful

end Runs

theorem tablePool_room : ∃ cs, Pool.Chain (fileAt 1099511627776 tablePool.mem) pmemClumpOffset cs 536870848 ∧
    Roomy (reserveSize 48) (reserveSize (8 * sizeFor 10)) cs := by
  have hsize : sizeFor 10 = 53 := by decide +kernel
  obtain ⟨hres, hspare⟩ := created_resident (by decide) ⟨by decide, by decide⟩ (by decide) init_tablePool
  refine ⟨_, hres.building.chain, ?_⟩
  rw [hsize]
  have hroomy := hres.roomy_of_spare (m := reserveSize (8 * 53)) hspare (show 48 + 127 < 2 ^ 64 by decide) (by decide)
    (by decide)
  exact hres.ahead_start ▸ hroomy

theorem linked_mem {hashfn : ℕ → UInt32} {t : Hashtable ℕ} {k v a b : ℕ} {x : Entry ℕ}
    (h : (linked hashfn t k v a).mem b = some x) : x.k = k ∨ t.mem b = some x := by
  change Function.update t.mem a _ b = some x at h
  by_cases hb : b = a
  · rw [hb, Function.update_self] at h
    rw [← Option.some.inj h]
    exact Or.inl rfl
  · rw [Function.update_of_ne hb] at h
    exact Or.inr h

/-- The entries of a table are determined by the words that show it. -/
theorem Shows.entry_of_entry {hashfn : ℕ → UInt32} {m : Mem} {h a : ℕ} {t t' : Hashtable ℕ} {S S' : Finset ℕ}
    {x : Entry ℕ} (hs : Shows m h t) (ht : Sorted hashfn t S) (hs' : Shows m h t') (ht' : Sorted hashfn t' S')
    (hx : t'.mem a = some x) : t.mem a = some x := by
  have hsame : ∀ b y y', t.mem b = some y → t'.mem b = some y' → y = y' := by
    intro b y y' hy hy'
    have h₁ := hs.entries b y hy
    have h₂ := hs'.entries b y' hy'
    cases y
    cases y'
    simp only [Entry.mk.injEq]
    exact ⟨h₁.k.symm.trans h₂.k, h₁.v.symm.trans h₂.v, h₁.h.symm.trans h₂.h, h₁.next.symm.trans h₂.next⟩
  have hlength : t.tablelength = t'.tablelength := hs.tablelength.symm.trans hs'.tablelength
  have hlt : indexFor t'.tablelength x.h < t'.tablelength := indexFor_lt (ht'.tablelength_pos) x.h
  obtain ⟨l₁, l₂, hchain'⟩ := ht'.buckets.chain_of_mem ((ht'.mem a).mp ⟨x, hx⟩) hx hlt
  obtain ⟨l, hchain, hmem⟩ := ht.buckets _ (hlength ▸ hlt)
  rw [← hs.table _ (hlength ▸ hlt), hlength, hs'.table _ hlt] at hchain
  obtain rfl := hchain.agree hchain' fun b y y' hy hy' => by rw [hsame b y y' hy hy']
  obtain ⟨y, hy⟩ := (ht.mem a).mpr ((hmem a).mp (by simp)).1
  rw [hy, hsame a y x hy hx]

/-- A key reserved and inserted, and a removal that misses. -/
theorem handover_of_careful_insertRemove : ∃ ptr k tmp H₂ H₃ mine,
    Code.pmemallocReservVirtual 1099511627776 16 tableHost = (.ok (k, tmp), H₂) ∧
    Code.hashtableInsert (fun _ => 0) 1099511627776 (1099511627776 + ptr) k 1 H₂ = (.ok (-1), H₃) ∧
    Code.hashtableRemove (fun _ => 0) (fun k k' => k == k') 1099511627776 (1099511627776 + ptr) 7 H₃ = (.ok 0, H₃) ∧
    Process (fun _ => 0) (fun k k' => k == k') 1099511627776 (1099511627776 + ptr) tableHost
      (Careful (fun _ => 0) (fun k k' => k == k') 1099511627776 536870848 (1099511627776 + ptr)) H₃ mine [k] ∧
    Owns (fun _ => 0) 1099511627776 (1099511627776 + ptr) H₃.world.mem mine ∧ Lawful [] H₃.requests := by
  obtain ⟨ptr, ptr₁, cs, hcreate, hcreated, hspare⟩ := create_tableHost
  have hsize : 16 + 127 < 2 ^ 64 := by decide
  obtain ⟨tmp, H₂, cs₂, hrun₂, ho₂, hspare₂⟩ := hcreated.orderly.reserveKey hsize
  have hfit : Fitting 1099511627776 H₂.gclp cs₂ (reserveSize 32) :=
    (hspare₂ _ hspare (by decide)).fitting_iff.mpr (by decide)
  have hgrows : ¬ Grows (emptyOf 10) := by decide +kernel
  obtain ⟨H₃, cs₃, ptr₃, hrun₃, ho₃⟩ := ho₂.insertPlain (1099511627776 + tmp) 1 hgrows hfit
  have hmiss : ∀ a x, (linked (fun _ => 0) (counted (emptyOf 10)) (1099511627776 + tmp) 1
      (1099511627776 + ptr₃)).mem a = some x → ¬ Matches (fun _ => 0) (fun k k' : ℕ => k == k') 7 x := by
    rintro a x hx ⟨-, hk⟩
    have hk : 7 = x.k := eq_of_beq hk
    rcases linked_mem hx with heq | hx
    · omega
    · cases hx
  obtain ⟨hstate, hret⟩ := remove_quiet 1099511627776 ho₃.standing hmiss
  have hcard : (insert (1099511627776 + ptr₃) (∅ : Finset ℕ)).card < chainFuel := by
    rw [Finset.card_insert_of_notMem (Finset.notMem_empty _)]
    decide
  have hrun : Code.hashtableRemove (fun _ => 0) (fun k k' => k == k') 1099511627776 (1099511627776 + ptr) 7 H₃ =
      (.ok 0, H₃) := Prod.ext (hret hcard) hstate
  have hgrowsAt : ¬ GrowsAt H₂.world.mem (1099511627776 + ptr) := (growsAt_iff ho₂.standing.shows).not.mpr hgrows
  have hr : Process (fun _ => 0) (fun k k' => k == k') 1099511627776 (1099511627776 + ptr) tableHost
      (Careful (fun _ => 0) (fun k k' => k == k') 1099511627776 536870848 (1099511627776 + ptr)) H₃ _
      [1099511627776 + tmp] :=
    .remove (.insert (.reserveKey .created hsize hrun₂) List.mem_cons_self
      ⟨hgrowsAt, cs₂, ho₂.resident.building.chain, hfit⟩ hrun₃)
      (fun t S hs ht a x hx => hmiss a x (ho₃.standing.shows.entry_of_entry ho₃.standing.sorted hs ht hx)) hrun
  obtain ⟨howns, hlawful, -⟩ := handover_of_careful ⟨by decide, by decide⟩ (by decide)
    (.created (by decide) rfl init_tablePool) tablePool_room hcreate (by omega) hr
  exact ⟨ptr, 1099511627776 + tmp, tmp, H₂, H₃, _, hrun₂, hrun₃, hrun, hr, howns, hlawful⟩

/-- A key is inserted and removed: its mapped address is freed. -/
theorem remove_unlawful : ∃ ptr k tmp H₂ H₃,
    Code.createHashtable 1099511627776 10 0 0 ⟨tablePool, 0, []⟩ = (.ok (1099511627776 + ptr), tableHost) ∧
    Code.pmemallocReservVirtual 1099511627776 16 tableHost = (.ok (k, tmp), H₂) ∧
    Code.hashtableInsert (fun _ => 0) 1099511627776 (1099511627776 + ptr) k 1 H₂ = (.ok (-1), H₃) ∧
    ¬ Lawful [] (Code.hashtableRemove (fun _ => 0) (fun k k' => k == k') 1099511627776 (1099511627776 + ptr) k
    H₃).2.requests := by
  obtain ⟨ptr, ptr₁, cs, hcreate, hcreated, hspare⟩ := create_tableHost
  obtain ⟨tmp, H₂, cs₂, hrun₂, ho₂, hspare₂⟩ := hcreated.orderly.reserveKey (show 16 + 127 < 2 ^ 64 by decide)
  have hfit : Fitting 1099511627776 H₂.gclp cs₂ (reserveSize 32) :=
    (hspare₂ _ hspare (by decide)).fitting_iff.mpr (by decide)
  obtain ⟨H₃, cs₃, ptr₃, hrun₃, ho₃⟩ := ho₂.insertPlain (1099511627776 + tmp) 1 (by decide +kernel) hfit
  refine ⟨ptr, 1099511627776 + tmp, tmp, H₂, H₃, hcreate, hrun₂, hrun₃, fun hlawful => ?_⟩
  have hiff := Orderly.remove_lawful_iff (fun k k' => k == k') (1099511627776 + tmp) ho₃ ?_ fun a x hx => ?_
  · exact hiff.mp hlawful _ _ (Function.update_self ..) ⟨rfl, by simp⟩
  · rw [Finset.card_insert_of_notMem (Finset.notMem_empty _)]
    decide
  · rcases linked_mem hx with heq | hx
    · omega
    · cases hx

end PmemExamples.CHashtable
