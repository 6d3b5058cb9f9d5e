import PmemExamples.WordTree.Crash

/-! # The word tree with the members stored first (`binarytree/tree_orig.c`)

`tree_orig.c` differs from `tree.c` in one place: a new node is filled in while its clump is reserved, and
the activation makes it durable before it links it. There every insertion is crash atomic, so the counts
survive any number of processes, wherever each of them stops. -/

namespace PmemExamples.WordTree.Orig
open Persist Libpmem Tiling Pool SearchTree WordTree
set_option autoImplicit false

/-- What `tree_insert_subtree` stores to a node it has reserved. -/
def storeNode (pmp tnp_ : ℕ) (s : CString) : Prog Unit := do
  Prog.store (rightOf pmp tnp_) 0
  Prog.store (leftOf pmp tnp_) 0
  storeUnsigned (countOf pmp tnp_) 1
  strcpy (stringOf pmp tnp_) s.bytes

/-- "insert a new node here" -/
def insertNode (pmp gclp rootp_ : ℕ) (s : CString) : Prog ℕ := do
  let res ← pmemallocReserve pmp gclp (sizeofTnode + (s.bytes.length + 1))
  if res.ptr_ = 0 then Prog.fatal "pmem_alloc"
  else do
    storeNode pmp res.ptr_ s
    pmemallocOnactive pmp res.ptr_ rootp_ res.ptr_
    pmemallocActivate pmp res.ptr_
    return res.gclp

def treeInsertSubtree (pmp gclp : ℕ) (s : CString) : ℕ → ℕ → Prog ℕ
  | 0, _ => Prog.hang
  | fuel + 1, rootp_ => do
    let root_ ← Prog.load rootp_
    if root_ = 0 then insertNode pmp gclp rootp_ s
    else do
      let diff ← strcmp s.bytes (stringOf pmp root_)
      if diff = 0 then do
        bumpCount pmp root_
        return gclp
      else if diff < 0 then treeInsertSubtree pmp gclp s fuel (leftOf pmp root_)
      else treeInsertSubtree pmp gclp s fuel (rightOf pmp root_)

/-- `tree_insert`. -/
def treeInsert (pmp gclp : ℕ) (s : CString) : Prog ℕ :=
  treeInsertSubtree pmp gclp s loopFuel (pmem pmp pmemStaticOffset)

theorem treeInsertSubtree_eq (p gclp : ℕ) (s : CString) (fuel rootp_ : ℕ) : treeInsertSubtree p gclp s fuel rootp_ =
    descend p s (fun rootp_ => insertNode p gclp rootp_ s)
      (fun root_ => do
        bumpCount p root_
        return gclp) fuel rootp_ := by
  induction fuel generalizing rootp_ with
  | zero => rfl
  | succ fuel ih => simp only [treeInsertSubtree, descend, ih]

section Insert
variable {w : World} {p gclp e n : ℕ} {cs l r : List Clump} {b : Clump} {c : Context Tnode} {t : BinaryTree Tnode}
    {s : CString}

theorem storeNode_runs (hp : 64 ∣ p) (hfit : p + n < 2 ^ 64) (m : Mem) (s : CString) :
    Runs true (storeNode p n s) m () (relocate p (storeEvents (fileAt p m) n s)) := by
  have h8 : 8 ∣ p := dvd_trans (by norm_num) hp
  have haddr : pmem p n = p + n := pmem_eq hfit
  have hcount : Function.update (Function.update m (p + (n + 8)) 0) (p + n) 0 (p + (n + 16)) = m (p + (n + 16)) := by
    rw [Function.update_of_ne (by omega), Function.update_of_ne (by omega)]
  rw [storeEvents, relocate_append, relocate_memberEvents, ← fileAt_applyAll, ← copyEvents_up h8, relocate_memberEvents]
  unfold storeNode rightOf leftOf countOf stringOf
  rw [haddr, Nat.add_assoc, Nat.add_assoc, Nat.add_assoc]
  refine Runs.store_bind (Runs.store_bind ?_)
  have hstore := storeUnsigned_runs true (Function.update (Function.update m (p + (n + 8)) 0) (p + n) 0) (p + (n + 16)) 1
  rw [hcount] at hstore
  exact hstore.bind (strcpy_runs true s.bytes _ (p + (n + 20)))

theorem new_step (h : Ready w p gclp cs e (TreeOf (c.plug .nil))) (hlead : Leads Tnode.s s c) (hcs : cs = l ++ b :: r)
    (hfit : b.Fits (reserveSize (sizeofTnode + (s.bytes.length + 1))))
    (hr : Runs true (pmemallocReserve p gclp (sizeofTnode + (s.bytes.length + 1))) w.mem ⟨b.addr + 64, none, p + b.addr⟩
      (relocate p (reserveEvents b (reserveSize (sizeofTnode + (s.bytes.length + 1)))))) :
    Survives w (insertNode p gclp (p + slot Tnode.ptr_ c) s)
      (fun img => RecoversTo e (fileAt p img) (TreeOf (c.plug .nil)) ∨
        RecoversTo e (fileAt p img) (TreeOf (c.plug (.node ⟨b.addr + 64, 1, s⟩ .nil .nil))))
      fun g w' => ∃ cs', Ready w' p g cs' e (TreeOf (c.plug (.node ⟨b.addr + 64, 1, s⟩ .nil .nil))) := by
  have hshort := s.short
  have hsize : sizeofTnode + (s.bytes.length + 1) + 127 < 2 ^ 64 := by simp only [sizeofTnode]; omega
  have hle := le_reserveSize hsize
  have hsorted := h.state.sorted
  refine ((h.reserve_step hcs hfit hsize hr).mono (fun img hi => Or.inl hi) fun _ _ => id).bind ?_
  rintro res w₁ ⟨rfl, b', r', hhold, haddr, hsz, hfile₁⟩
  rw [← haddr]
  have hptr : b'.addr + 64 ≠ 0 := by omega
  dsimp only
  rw [if_neg hptr]
  have hmem : b' ∈ l ++ b' :: r' := by simp
  have hbounds := hhold.chain.tiles.bounds hmem
  have hfits := hhold.mapped.fits
  have hdvd := hhold.addr_dvd
  have hslot : p + slot Tnode.ptr_ c = pmem p (slot Tnode.ptr_ c) := by
    have := (slot_outside hhold.state hhold.chain).1.lt
    rw [pmem_eq (by omega)]
  have hpay : ∀ ev ∈ storeEvents (fileAt p w₁.mem) (b'.addr + 64) s, ∀ y, ev.Writes y → b'.InPayload y := by
    intro ev hev y hw
    have hrange := writes_storeEvents hev hw
    have htnode : sizeofTnode = 24 := rfl
    exact ⟨by omega, by omega⟩
  -- filling in the reserved node
  refine ((hhold.step (storeNode_runs hhold.mapped.aligned (by omega) w₁.mem s)
    (fun ev hev y hw => (hpay ev hev y hw).isPrivate) (Or.inr hpay)).mono (fun img hi => Or.inl hi) fun _ _ =>
      id).bind ?_
  rintro - w₂ ⟨-, hhold₂, hfile₂⟩
  obtain ⟨hleft, hright, hcount, hstring⟩ := fill_words (fileAt p w₁.mem) (n := b'.addr + 64) (by omega) s
  rw [← hfile₂] at hleft hright hcount hstring
  have hnode : NodeAt (fileAt p w₂.mem) (b'.addr + 64) s := ⟨hleft, hright, hcount, hstring⟩
  have hoff : ∀ i < 3, fileAt p w₂.mem (onOff b'.addr i) = 0 := by
    intro i hi
    rw [hfile₂, applyAll_of_not_writes (fun ev hev hw => ?_), hfile₁, haddr]
    · exact reserveEvents_off hi
    · have h1 := (hpay ev hev _ hw).1
      unfold onOff at h1
      omega
  -- the registration
  obtain ⟨hout₂, hne⟩ := slot_outside hhold₂.state hhold₂.chain
  rw [hslot]
  refine ((hhold₂.register hoff hne hout₂.lt (b'.addr + 64)).mono (fun img hi => Or.inl hi) fun _ _ => id).bind ?_
  rintro - w₃ ⟨hhold₃, hlist, hkeep₃⟩
  -- the activation
  have hact := hhold₃.activate (by rw [hlist]; simpa using hout₂) (by rw [hlist]; simp)
    (stable_treeOf (c.plug (.node ⟨b'.addr + 64, 1, s⟩ .nil .nil))) fun d' cs' hcs' hd' => by
      have hother : ∀ x, Outside (l ++ b' :: r') e x → x ≠ slot Tnode.ptr_ c → d' x = fileAt p w₃.mem x := by
        intro x hx hxs
        rw [hd' x hx, hlist]
        exact applyAll_execEvents_of_not_mem (by simpa using Ne.symm hxs) _
      have hslotword : d' (slot Tnode.ptr_ c) = b'.addr + 64 := by
        rw [hd' _ hout₂, hlist]
        exact applyAll_execEvents_of_mem (by simp) (List.mem_singleton_self _) _
      have hhung : Hung c (b'.addr + 64) s.bytes.length d' cs' :=
        hhold₃.state.hang hhold₃.chain hmem hhold₃.tag (by omega) hcs' hother hslotword
      -- the words of the node are those stored before
      have hnode' : NodeAt d' (b'.addr + 64) s := by
        refine hnode.congr (by omega) fun y h1 h2 => ?_
        have hin : b'.InPayload y := ⟨h1, by omega⟩
        have hyout := hin.outside hhold₃.chain hmem
        have hys : y ≠ slot Tnode.ptr_ c := by
          rintro rfl
          rcases hhold₃.state.nodes.slot_mem with hs | ⟨a, ha, hat, hs⟩
          · exact hhold₃.not_private.2.2.1 _ hs hin.isPrivate
          · exact hhold₃.not_private.2.2.2 a ha hat _ hs hin.isPrivate
        rw [hother y hyout hys, hkeep₃ y (hyout.headers b' hmem)]
      exact hhung.tree hsorted hlead hnode'.left hnode'.right hnode'.count rfl hnode'.string
  refine hact.bind fun _ w₄ h₄ => ?_
  refine Survives.pure _ (fun img hi => Or.inr ?_) ⟨_, h₄⟩
  rw [h₄.clean.image hi]
  exact h₄.recoversTo

/-- `tree_insert` runs out of memory without a store, or it inserts the string, all or nothing. -/
theorem insert_step (h : Ready w p gclp cs e (TreeOf t)) (s : CString) :
    (∃ w', treeInsert p gclp s w = (.fatal "pmem_alloc", w') ∧ w'.trace = w.trace) ∨
    ∃ t', Inserted s t t' ∧ Survives w (treeInsert p gclp s)
      (fun img => RecoversTo e (fileAt p img) (TreeOf t) ∨ RecoversTo e (fileAt p img) (TreeOf t'))
      fun g w' => ∃ cs', Ready w' p g cs' e (TreeOf t') := by
  have hcongr : ∀ {prog : Prog ℕ} {crash : Mem → Prop} {post : ℕ → World → Prop}, treeInsert p gclp s w = prog w →
      Survives w prog crash post → Survives w (treeInsert p gclp s) crash post := by
    intro prog crash post hgo hs
    exact ⟨fun img hcr => hs.crash img ((crashDuring_congr hgo).mp hcr), by rw [hgo]; exact hs.returns⟩
  rcases search_descend (s := s) h (fun rootp_ => insertNode p gclp rootp_ s)
    (fun root_ => do
      bumpCount p root_
      return gclp) t .top loopFuel rfl trivial (height_lt_loopFuel h) with
    ⟨c, hlead, rfl, hgo⟩ | ⟨c, x, l, r, rfl, rfl, hgo⟩
  · have hgo' : treeInsert p gclp s w = insertNode p gclp (p + slot Tnode.ptr_ c) s w := by
      rw [treeInsert, treeInsertSubtree_eq, root_slot h]
      exact hgo w rfl
    obtain ⟨hg, ps, gs, hcs, hne, hgs⟩ := search_of_walk h.chain h.nonempty h.cursor
    rcases reserve_runs true h.mapped (sizeofTnode + (s.bytes.length + 1)) hg hgs hne with
      ⟨l, b, r, rfl, hfit, -, hr⟩ | ⟨-, hr⟩
    · exact Or.inr ⟨_, .new c _ hlead, hcongr hgo' (new_step h hlead (by rw [hcs, List.append_assoc]) hfit hr)⟩
    · obtain ⟨w₁, evs', hrun, -, -, htrace, -, hexact⟩ := hr w rfl
      refine Or.inl ⟨w₁, ?_, by rw [htrace, hexact (Or.inl rfl), List.append_nil]⟩
      rw [hgo', insertNode, Prog.bind_ok hrun, if_pos rfl]
      rfl
  · have hgo' : treeInsert p gclp x.s w = (do
        bumpCount p x.ptr_
        return gclp) w := by
      rw [treeInsert, treeInsertSubtree_eq, root_slot h]
      exact hgo w rfl
    refine Or.inr ⟨_, .old c x l r rfl, hcongr hgo' ((bump_step h).2.bind fun _ w₁ h₁ => ?_)⟩
    refine Survives.pure _ (fun img hi => Or.inr ?_) ⟨cs, h₁⟩
    rw [h₁.clean.image hi]
    exact h₁.recoversTo

end Insert

/-! ## Any number of processes -/

/-- A process on the file `d`, between two insertions: its world, its cursor and what it has inserted. -/
inductive Session (p : ℕ) (d : Mem) : World → ℕ → List CString → Prop
  | init {w w' : World} (hb : Booted p d w) (hr : recovery p w = (.ok (), w')) : Session p d w' 0 []
  | inserted {w w' : World} {gclp gclp' : ℕ} {s : CString} {ss : List CString} (h : Session p d w gclp ss)
      (hr : treeInsert p gclp s w = (.ok gclp', w')) : Session p d w' gclp' (s :: ss)

/-- Processes one after another lead from the file `d₀` to this one. The history lists their insertions, newest
first, and whether they returned. -/
inductive Sessions (e : ℕ) (d₀ : Mem) : Mem → List (CString × Bool) → Prop
  | refl : Sessions e d₀ d₀ []
  | initCrashed {d img : Mem} {hist : List (CString × Bool)} {p : ℕ} {w : World} (h : Sessions e d₀ d hist)
      (hp : Mapped p e) (hb : Booted p d w) (hc : CrashDuring (recovery p) w img) : Sessions e d₀ (fileAt p img) hist
  | ended {d img : Mem} {hist : List (CString × Bool)} {p gclp : ℕ} {w : World} {ss : List CString}
      (h : Sessions e d₀ d hist) (hp : Mapped p e) (hs : Session p d w gclp ss) (hc : CrashImage w.base w.trace img) :
      Sessions e d₀ (fileAt p img) (ss.map (·, true) ++ hist)
  | insertCrashed {d img : Mem} {hist : List (CString × Bool)} {p gclp : ℕ} {w : World} {ss : List CString} {s : CString}
      (h : Sessions e d₀ d hist) (hp : Mapped p e) (hs : Session p d w gclp ss)
      (hc : CrashDuring (treeInsert p gclp s) w img) : Sessions e d₀ (fileAt p img)
        ((s, false) :: (ss.map (·, true) ++ hist))

/-- The insertions that returned are among those counted, and these among all. -/
structure Counted (hist : List (CString × Bool)) (ss : List CString) : Prop where
  returned : ((hist.filter Prod.snd).map Prod.fst).Sublist ss
  made : ss.Sublist (hist.map Prod.fst)

theorem Counted.session {hist : List (CString × Bool)} {ss : List CString} (h : Counted hist ss) (new : List CString) :
    Counted (new.map (·, true) ++ hist) (new ++ ss) := by
  have hfilter : ((new.map (·, true)).filter Prod.snd).map Prod.fst = new := by
    induction new with
    | nil => rfl
    | cons s new ih => simpa using ih
  have hmap : (new.map (·, true)).map Prod.fst = new := by
    rw [List.map_map]
    exact List.map_id _
  constructor
  · rw [List.filter_append, List.map_append, hfilter]
    exact h.returned.append_left new
  · rw [List.map_append, hmap]
    exact h.made.append_left new

section Run
variable {w : World} {p gclp e : ℕ} {d d₀ : Mem} {t₀ : BinaryTree Tnode} {hist : List (CString × Bool)}
    {ss : List CString}

theorem session_ready (h₀ : RecoversTo e d (TreeOf t₀)) (hlt : pmemClumpOffset < e) (hp : Mapped p e)
    (h : Session p d w gclp ss) : ∃ cs t, Ready w p gclp cs e (TreeOf t) ∧ tally t = tallies (tally t₀) ss := by
  induction h with
  | init hb hr =>
    obtain ⟨-, _, w', hr', -, cs, hready⟩ := h₀.init (stable_treeOf t₀) hlt hp hb
    rw [hr] at hr'
    cases hr'
    exact ⟨cs, t₀, hready, rfl⟩
  | @inserted w w' gclp gclp' s ss h hr ih =>
    obtain ⟨cs, t, hready, htally⟩ := ih
    rcases insert_step hready s with ⟨w₁, hfatal, -⟩ | ⟨t', hins, -, g, w₁, hrun, -, cs', h'⟩
    · rw [hr] at hfatal
      cases hfatal
    · rw [hr] at hrun
      cases hrun
      refine ⟨cs', t', h', ?_⟩
      rw [hins.raised hready.state.sorted h'.state.sorted, htally]
      rfl

/-- Wherever the processes stop, the file recovers to a tree that counts. -/
theorem sessions_recoversTo (h₀ : RecoversTo e d₀ (TreeOf t₀)) (hlt : pmemClumpOffset < e) (h : Sessions e d₀ d hist) :
    ∃ ss t, RecoversTo e d (TreeOf t) ∧ tally t = tallies (tally t₀) ss ∧ Counted hist ss := by
  induction h with
  | refl => exact ⟨[], t₀, h₀, rfl, by simp, by simp⟩
  | initCrashed _ hp hb hc ih =>
    obtain ⟨ss, t, hrec, htally, hcounted⟩ := ih
    exact ⟨ss, t, (hrec.init (stable_treeOf t) hlt hp hb).crash _ hc, htally, hcounted⟩
  | @ended d img hist p gclp w new _ hp hs hc ih =>
    obtain ⟨ss, t, hrec, htally, hcounted⟩ := ih
    obtain ⟨cs, t', hready, htally'⟩ := session_ready hrec hlt hp hs
    refine ⟨new ++ ss, t', ?_, ?_, hcounted.session new⟩
    · rw [hready.clean.image hc]
      exact hready.recoversTo
    · rw [htally', htally, tallies_append]
  | @insertCrashed d img hist p gclp w new s _ hp hs hc ih =>
    obtain ⟨ss, t, hrec, htally, hcounted⟩ := ih
    obtain ⟨cs, t', hready, htally'⟩ := session_ready hrec hlt hp hs
    have hnew := hcounted.session new
    have hlost : Counted ((s, false) :: (new.map (·, true) ++ hist)) (new ++ ss) := ⟨hnew.returned, hnew.made.cons s⟩
    rw [htally, ← tallies_append] at htally'
    rcases insert_step hready s with ⟨w₁, hfatal, htrace⟩ | ⟨t'', hins, hsurv⟩
    · refine ⟨new ++ ss, t', ?_, htally', hlost⟩
      obtain ⟨k, hk⟩ := hc
      rw [hfatal, htrace, List.take_of_length_le (by omega)] at hk
      rw [hready.clean.image hk]
      exact hready.recoversTo
    · rcases hsurv.crash _ hc with hi | hi
      · exact ⟨new ++ ss, t', hi, htally', hlost⟩
      · refine ⟨s :: (new ++ ss), t'', hi, ?_, hnew.returned.cons s, hnew.made.cons_cons s⟩
        obtain ⟨g, w₁, -, -, cs', h'⟩ := hsurv.returns
        rw [hins.raised hready.state.sorted h'.state.sorted, htally']
        rfl

end Run

end PmemExamples.WordTree.Orig
