import PmemExamples.WordTree.Insert

/-! # The steps of an insertion

`linkNode` is `insertNode` up to the activation. A process that is `Ready` with a tree is ready with the
node hung there after it, with the larger tree after `fillNode`, and with the raised count after
`bumpCount`. -/

namespace PmemExamples.WordTree
open Persist Libpmem Tiling Pool SearchTree
set_option autoImplicit false

/-- A new node is linked at the place, its memory as it was in `d₀`. -/
structure Linked (c : Context Tnode) (n len : ℕ) (d₀ d : Mem) (cs : List Clump) : Prop where
  hung : Hung c n len d cs
  kept : ∀ y, n ≤ y → y < n + (sizeofTnode + (len + 1)) → d y = d₀ y

theorem stable_linked (c : Context Tnode) (n len : ℕ) (d₀ : Mem) : Stable (Linked c n len d₀) := by
  intro d d' cs cs' h hcs hstatic hpay
  obtain ⟨b, hb, hbt, hba, hsz⟩ := h.hung.clump
  refine ⟨stable_hung c n len h.hung hcs hstatic hpay, fun y h1 h2 => ?_⟩
  rw [hpay b hb hbt y ⟨by omega, by omega⟩]
  exact h.kept y h1 h2

/-- `insertNode` up to the activation. -/
def linkNode (pmp gclp rootp_ : ℕ) (s : CString) : Prog Reserved := do
  let res ← pmemallocReserve pmp gclp (sizeofTnode + (s.bytes.length + 1))
  if res.ptr_ = 0 then Prog.fatal "pmem_alloc"
  else do
    pmemallocOnactive pmp res.ptr_ rootp_ res.ptr_
    pmemallocActivate pmp res.ptr_
    return res

theorem insertNode_eq (p gclp rootp_ : ℕ) (s : CString) : insertNode p gclp rootp_ s =
    (do let res ← linkNode p gclp rootp_ s
        fillNode p res.ptr_ s
        return res.gclp) := by
  funext w
  simp only [insertNode, linkNode, Prog.bind_apply]
  rcases pmemallocReserve p gclp (sizeofTnode + (s.bytes.length + 1)) w with ⟨res | _ | _, w₁⟩
  · by_cases h : res.ptr_ = 0
    · simp only [h, if_true]
      rfl
    · simp only [h, if_false, Prog.bind_apply]
      rcases pmemallocOnactive p res.ptr_ rootp_ res.ptr_ w₁ with ⟨_ | _ | _, w₂⟩
      · dsimp only
        rcases pmemallocActivate p res.ptr_ w₂ with ⟨_ | _ | _, w₃⟩ <;> rfl
      · rfl
      · rfl
  · rfl
  · rfl

section Steps
variable {w : World} {p gclp e : ℕ} {cs l r : List Clump} {b : Clump} {c : Context Tnode} {s : CString}

theorem slot_outside {t : BinaryTree Tnode} {d : Mem} (h : TreeOf (c.plug t) d cs) (hc : Chain d pmemClumpOffset cs e) :
    Outside cs e (slot Tnode.ptr_ c) ∧ slot Tnode.ptr_ c ≠ 0 := by
  rcases h.nodes.slot_mem with hs | ⟨a, ha, -, hs⟩
  · have h1 := hs.1
    simp only [pmemStaticOffset] at h1
    exact ⟨hs.outside hc, by omega⟩
  · have h1 := hs.1
    exact ⟨hs.outside hc ha, by omega⟩

/-- Up to the activation: all or nothing, and at the end the node is linked. -/
theorem link_step (h : Ready w p gclp cs e (TreeOf (c.plug .nil))) (hcs : cs = l ++ b :: r)
    (hfit : b.Fits (reserveSize (sizeofTnode + (s.bytes.length + 1))))
    (hr : Runs true (pmemallocReserve p gclp (sizeofTnode + (s.bytes.length + 1))) w.mem ⟨b.addr + 64, none, p + b.addr⟩
      (relocate p (reserveEvents b (reserveSize (sizeofTnode + (s.bytes.length + 1)))))) :
    (∃ evs, Runs true (linkNode p gclp (p + slot Tnode.ptr_ c) s) w.mem ⟨b.addr + 64, none, p + b.addr⟩ evs) ∧
    Survives w (linkNode p gclp (p + slot Tnode.ptr_ c) s)
      (fun img => RecoversTo e (fileAt p img) (TreeOf (c.plug .nil)) ∨
        RecoversTo e (fileAt p img) (Linked c (b.addr + 64) s.bytes.length (fileAt p w.mem)))
      fun res w' => res = ⟨b.addr + 64, none, p + b.addr⟩ ∧
        ∃ cs', Ready w' p (p + b.addr) cs' e (Linked c (b.addr + 64) s.bytes.length (fileAt p w.mem)) := by
  have hshort := s.short
  have hsize : sizeofTnode + (s.bytes.length + 1) + 127 < 2 ^ 64 := by simp only [sizeofTnode]; omega
  have hle := le_reserveSize hsize
  obtain ⟨hout, hne⟩ := slot_outside h.state h.chain
  have hslot : p + slot Tnode.ptr_ c = pmem p (slot Tnode.ptr_ c) := by
    have := h.mapped.fits
    have := hout.lt
    rw [pmem_eq (by omega)]
  -- the reservation
  have hres := h.reserve_step hcs hfit hsize hr
  obtain ⟨w₁, hrun₁, b', r', hhold, haddr, hsz, hfile₁⟩ : ∃ w₁,
      pmemallocReserve p gclp (sizeofTnode + (s.bytes.length + 1)) w = (.ok ⟨b.addr + 64, none, p + b.addr⟩, w₁) ∧
      ∃ b' r', Holding w₁ p l b' r' e (TreeOf (c.plug .nil)) ∧
        b'.addr = b.addr ∧ reserveSize (sizeofTnode + (s.bytes.length + 1)) ≤ b'.size ∧ fileAt p w₁.mem =
          applyAll (reserveEvents b (reserveSize (sizeofTnode + (s.bytes.length + 1)))) (fileAt p w.mem) := by
    obtain ⟨-, res, w₁, hrun, -, rfl, hpost⟩ := hres
    exact ⟨w₁, hrun, hpost⟩
  rw [← haddr] at hr hrun₁ ⊢
  have hoff : ∀ i < 3, fileAt p w₁.mem (onOff b'.addr i) = 0 := fun i hi => by
    rw [hfile₁, haddr]
    exact reserveEvents_off hi
  -- the registration
  have hout₁ := (slot_outside hhold.state hhold.chain).1
  have hreg := hhold.register hoff hne hout₁.lt (b'.addr + 64)
  have hregruns := hhold.register_runs hoff hout₁.lt (b'.addr + 64)
  obtain ⟨w₂, hrun₂, hhold₂, hlist, hkeep₂⟩ : ∃ w₂, pmemallocOnactive p (b'.addr + 64) (pmem p (slot Tnode.ptr_ c))
    (b'.addr + 64) w₁ = (.ok (), w₂) ∧ Holding w₂ p l b' r' e (TreeOf (c.plug .nil)) ∧
        registered (fileAt p w₂.mem) b' = [(slot Tnode.ptr_ c, b'.addr + 64)] ∧
        ∀ x, ¬ b'.InHeader x → fileAt p w₂.mem x = fileAt p w₁.mem x := by
    obtain ⟨-, _, w₂, hrun, -, hpost⟩ := hreg
    exact ⟨w₂, hrun, hpost⟩
  -- the activation
  have hact := hhold₂.activate (by rw [hlist]; simpa using hout₁) (by rw [hlist]; simp)
    (stable_linked c (b'.addr + 64) s.bytes.length (fileAt p w.mem)) fun d' cs' hcs' hd' => by
      have hmem : b' ∈ l ++ b' :: r' := by simp
      have hother : ∀ x, Outside (l ++ b' :: r') e x → x ≠ slot Tnode.ptr_ c → d' x = fileAt p w₂.mem x := by
        intro x hx hxs
        rw [hd' x hx, hlist]
        exact applyAll_execEvents_of_not_mem (by simpa using Ne.symm hxs) _
      refine ⟨hhold₂.state.hang hhold₂.chain hmem hhold₂.tag (by omega) hcs' hother ?_, fun y h1 h2 => ?_⟩
      · rw [hd' _ hout₁, hlist]
        exact applyAll_execEvents_of_mem (by simp) (List.mem_singleton_self _) _
      · -- a word of the payload is not the slot, and the library does not store to it
        have hin : b'.InPayload y := ⟨h1, by omega⟩
        have hys : y ≠ slot Tnode.ptr_ c := by
          rintro rfl
          rcases hhold₂.state.nodes.slot_mem with hs | ⟨a, ha, hat, hs⟩
          · exact hhold₂.not_private.2.2.1 _ hs hin.isPrivate
          · exact hhold₂.not_private.2.2.2 a ha hat _ hs hin.isPrivate
        have hyout := hin.outside hhold₂.chain hmem
        rw [hother y hyout hys, hkeep₂ y (hyout.headers b' hmem), hfile₁]
        refine applyAll_of_not_writes (fun ev hev hw => ?_) _
        rcases writes_reserveEvents hev hw with ⟨-, hh⟩ | ⟨-, hh, -⟩ <;> omega
  have hactruns := hhold₂.activate_runs (by rw [hlist]; simpa using hout₁)
  have hptr : b'.addr + 64 ≠ 0 := by omega
  have hif : ∀ (q q' : Prog Reserved), (if b'.addr + 64 = 0 then q else q') = q' := fun q q' => if_neg hptr
  rw [hslot]
  constructor
  · obtain ⟨evs, hrest⟩ : ∃ evs, Runs true (do
        pmemallocOnactive p (b'.addr + 64) (pmem p (slot Tnode.ptr_ c)) (b'.addr + 64)
        pmemallocActivate p (b'.addr + 64)
        return (⟨b'.addr + 64, none, p + b'.addr⟩ : Reserved)) w₁.mem ⟨b'.addr + 64, none, p + b'.addr⟩ evs :=
      ⟨_, hregruns.bind_run hrun₂ (hactruns.bind (Runs.pure true _ _))⟩
    refine ⟨_ ++ evs, hr.bind_run hrun₁ ?_⟩
    dsimp only
    rwa [hif]
  · refine (hres.mono (fun img hi => Or.inl hi) fun _ _ => id).bind_run hrun₁ ?_
    dsimp only
    rw [hif]
    refine (hreg.mono (fun img hi => Or.inl hi) fun _ _ => id).bind_run hrun₂ ?_
    refine hact.bind fun _ w₃ h₃ => ?_
    refine Survives.pure _ (fun img hi => Or.inr ?_) ⟨rfl, _, h₃⟩
    rw [h₃.clean.image hi]
    exact h₃.recoversTo

theorem fill_step {n : ℕ} {d₀ : Mem} (h : Ready w p gclp cs e (Linked c n s.bytes.length d₀))
    (hs : Sorted Tnode.s (c.plug .nil)) (hlead : Leads Tnode.s s c) :
    Runs false (fillNode p n s) w.mem () (relocate p (fillEvents (fileAt p w.mem) n s)) ∧
    ∃ w', fillNode p n s w = (.ok (), w') ∧ w.Extends w' ∧
      Ready w' p gclp cs e (TreeOf (c.plug (.node ⟨n, 1, s⟩ .nil .nil))) := by
  obtain ⟨b, hb, hbt, hba, hsz⟩ := h.state.hung.clump
  have hdvd : 64 ∣ b.addr := h.chain.tiles.addr_dvd (by decide) hb
  have hbounds := h.chain.tiles.bounds hb
  have hfits := h.mapped.fits
  have h8 : 8 ∣ n := by omega
  have hruns := fill_runs h.mapped.aligned (n := n) (by omega) w.mem s
  simp only [sizeofTnode] at hsz
  refine ⟨hruns, ?_⟩
  obtain ⟨hleft, hright, hcount, hstring⟩ := fill_words (fileAt p w.mem) h8 s
  have hnew : TreeOf (c.plug (.node ⟨n, 1, s⟩ .nil .nil)) (applyAll (storeEvents (fileAt p w.mem) n s) (fileAt p w.mem))
    cs := by
    refine h.state.hung.fill h.chain hs hlead (fun y hy => ?_) hleft hright hcount rfl hstring
    refine applyAll_of_not_writes (fun ev hev hw => ?_) _
    have hrange := writes_storeEvents hev hw
    simp only [sizeofTnode] at hy
    omega
  obtain ⟨-, _, w', hrun, hext, -, hready⟩ := h.store_step hb hruns (fun ev hev y hw => by
    obtain ⟨h1, h2⟩ := writes_storeEvents hev hw
    refine ⟨⟨by omega, by omega⟩, ?_⟩
    rw [mem_clLines, lineOf]
    omega) (stable_treeOf _) hnew
  exact ⟨w', hrun, hext, hready⟩

/-- Raising the count of a node: a crash in it leaves the old count or the new one. -/
theorem bump_step {x : Tnode} {tl tr : BinaryTree Tnode} (h : Ready w p gclp cs e (TreeOf (c.plug (.node x tl tr)))) :
    Runs false (bumpCount p x.ptr_) w.mem () (relocate p (bumpEvents (fileAt p w.mem) x.ptr_)) ∧
    Survives w (bumpCount p x.ptr_)
      (fun img => RecoversTo e (fileAt p img) (TreeOf (c.plug (.node x tl tr))) ∨
        RecoversTo e (fileAt p img) (TreeOf (c.plug (.node { x with count := (x.count + 1) % 2 ^ 32 } tl tr))))
      fun _ w' => Ready w' p gclp cs e (TreeOf (c.plug (.node { x with count := (x.count + 1) % 2 ^ 32 } tl tr))) := by
  have hx : x ∈ inorder (c.plug (.node x tl tr)) := by simp [Context.inorder_plug]
  obtain ⟨⟨b, hb, hbt, hba, hsz⟩, hcount, -⟩ := h.state.written x hx
  have hdvd : 64 ∣ b.addr := h.chain.tiles.addr_dvd (by decide) hb
  have hbounds := h.chain.tiles.bounds hb
  have hfits := h.mapped.fits
  simp only [sizeofTnode] at hsz
  have hruns := bump_runs h.mapped.aligned (n := x.ptr_) (by omega) w.mem
  refine ⟨hruns, ?_⟩
  have hline : lineOf (x.ptr_ + 16) ∈ clLines (x.ptr_ + 16) 4 := by
    rw [mem_clLines, lineOf]
    omega
  have ho : Orderly (storeBurst
      [(x.ptr_ + 16, setLow (fileAt p w.mem (x.ptr_ + 16)) (fileAt p w.mem (x.ptr_ + 16) % 2 ^ 32 + 1))]
      (clLines (x.ptr_ + 16) 4)) := orderly_storeBurst hline (by simp)
  have hnew : TreeOf (c.plug (.node { x with count := (x.count + 1) % 2 ^ 32 } tl tr))
      (applyAll (bumpEvents (fileAt p w.mem) x.ptr_) (fileAt p w.mem)) cs := by
    refine h.state.bump h.chain (fun y hy => Function.update_of_ne hy _ _) ?_
    rw [← hcount]
    exact Function.update_self ..
  have hsplit : Runs false (bumpCount p x.ptr_) w.mem () (relocate p
      ([.store (x.ptr_ + 16) (setLow (fileAt p w.mem (x.ptr_ + 16)) (fileAt p w.mem (x.ptr_ + 16) % 2 ^ 32 + 1))] ++
        [.flush (clLines (x.ptr_ + 16) 4)])) := hruns
  have hstep := h.store_step hb hsplit (fun ev hev y hw => ?_) (stable_treeOf _) hnew
  · refine ⟨fun img hcr => ?_, ?_⟩
    · obtain ⟨j, m₀, hm₀, -, himg⟩ := crashDuring_file h.mapped.aligned hruns (Or.inr h.persisting) ho hcr
      rw [h.clean.image hm₀] at himg
      rw [himg]
      rcases j with _ | j
      · exact Or.inl h.recoversTo
      · right
        have hcut : applyAll ((bumpEvents (fileAt p w.mem) x.ptr_).take (j + 1)) (fileAt p w.mem) =
            applyAll (bumpEvents (fileAt p w.mem) x.ptr_) (fileAt p w.mem) := by
          rcases j with _ | j
          · rfl
          · rw [List.take_of_length_le (by simp [bumpEvents])]
        rw [hcut]
        refine RecoversTo.of_quiet (stable_treeOf _) (h.of_inPayload hb fun y hy => ?_) h.states hnew
        refine Function.update_of_ne ?_ _ _
        rintro rfl
        exact hy ⟨by omega, by omega⟩
    · obtain ⟨-, _, w', hrun, hext, -, hready⟩ := hstep
      exact ⟨(), w', hrun, hext, hready⟩
  · obtain rfl := List.mem_singleton.mp hev
    obtain rfl : x.ptr_ + 16 = y := hw
    exact ⟨⟨by omega, by omega⟩, hline⟩

end Steps

end PmemExamples.WordTree
