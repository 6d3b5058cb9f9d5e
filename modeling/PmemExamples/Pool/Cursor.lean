import PmemExamples.Pool.Client

/-! # What the remembered cursor sees

`gclp` keeps the address of the clump reserved last. The clump may since have been freed and merged
into a free clump in front of it; its header is then no longer on the walk, and the search goes on
along the stale headers inside the merged clump before it meets the walk again. A reservation made
there is invisible to the walk. `Heap` describes both lists and the blocks the program holds. -/

namespace PmemExamples.Pool
open Persist Libpmem Tiling
set_option autoImplicit false

/-- A block before the cursor, in the payload of a free clump. -/
def LeftBehind (ls : List Clump) (g : ℕ) (b : Clump) : Prop :=
  b.addr + b.size ≤ g ∧
    ∃ f ∈ ls, f.tag = .free ∧ f.addr + 64 ≤ b.addr ∧ b.addr + b.size ≤ f.addr + f.size

/-- Reserved or active. -/
def State.IsHeld (s : State) : Prop := s = .reserved ∨ s = .active

/-- The walk is `ls ++ us`, the search from the cursor `g` walks `ts ++ us`, and the program holds the
blocks `hs`. -/
structure Heap (d : Mem) (e g : ℕ) (ls ts us hs : List Clump) : Prop where
  walk : Chain d pmemClumpOffset (ls ++ us) e
  search : Chain d g (ts ++ us) e
  nonempty : ts ++ us ≠ []
  /-- stale headers are in the last clump before `us`, a free one -/
  gap : ts = [] ∨ ∃ ks f, ls = ks ++ [f] ∧ f.tag = .free ∧ f.addr + 64 ≤ g
  states : ∀ c ∈ ls ++ us, c.tag = .free ∨ c.tag.IsHeld
  held : ∀ b ∈ hs, b.tag.IsHeld ∧ d b.addr = b.word ∧ 64 ≤ b.size ∧ 64 ∣ b.size
  place : ∀ b ∈ hs, b ∈ ls ++ us ∨ b ∈ ts ∨ LeftBehind ls g b
  apart : ∀ b ∈ hs, ∀ c ∈ hs, b ≠ c → b.addr + b.size ≤ c.addr ∨ c.addr + c.size ≤ b.addr

theorem State.IsHeld.ne_free {s : State} (h : s.IsHeld) : s ≠ .free := by
  rcases h with rfl | rfl <;> decide

/-- A word of the program's: in the static area or in a payload it holds. -/
def Owned (hs : List Clump) (x : ℕ) : Prop := InStatic x ∨ ∃ b ∈ hs, b.InPayload x

namespace Heap
variable {d d' : Mem} {e g : ℕ} {ls ts us hs : List Clump} {b c : Clump} {x : ℕ}

theorem mid (h : Heap d e g ls ts us hs) : ∃ m, Tiles 64 pmemClumpOffset ls m ∧ Tiles 64 g ts m ∧
    Tiles 64 m us e := by
  obtain ⟨m, hl, hu⟩ := tiles_append.mp h.walk.tiles
  obtain ⟨m', ht, hu'⟩ := tiles_append.mp h.search.tiles
  cases us with
  | nil =>
    obtain rfl : m = e := tiles_nil.mp hu
    obtain rfl : m' = m := tiles_nil.mp hu'
    exact ⟨m', hl, ht, hu⟩
  | cons c us =>
    have h1 := hu.1
    have h2 := hu'.1
    obtain rfl : m' = m := by omega
    exact ⟨m', hl, ht, hu⟩

/-- Every stale header is in the payload of a free clump of the walk. -/
theorem stale (h : Heap d e g ls ts us hs) (hc : c ∈ ts) : ∃ f ∈ ls, f.tag = .free ∧
    f.addr + 64 ≤ g ∧ f.addr + 64 ≤ c.addr ∧ c.addr + c.size ≤ f.addr + f.size := by
  obtain ⟨m, hl, ht, -⟩ := h.mid
  rcases h.gap with rfl | ⟨ks, f, rfl, hf, hfg⟩
  · cases hc
  · have hb := ht.bounds hc
    obtain ⟨-, -, -, hend⟩ := hl.split
    have := tiles_nil.mp hend
    exact ⟨f, by simp, hf, hfg, by omega, by omega⟩

/-- A block the program holds is a clump of the walk or lies in the payload of a free one. -/
theorem on_walk_or_inside (h : Heap d e g ls ts us hs) (hb : b ∈ hs) : b ∈ ls ++ us ∨
    ∃ f ∈ ls ++ us, f.tag = .free ∧ f.addr + 64 ≤ b.addr ∧ b.addr + b.size ≤ f.addr + f.size := by
  rcases h.place b hb with hw | ht | ⟨-, f, hf, hft, h1, h2⟩
  · exact Or.inl hw
  · obtain ⟨f, hf, hft, -, h1, h2⟩ := h.stale ht
    exact Or.inr ⟨f, List.mem_append_left _ hf, hft, h1, h2⟩
  · exact Or.inr ⟨f, List.mem_append_left _ hf, hft, h1, h2⟩

theorem eq_of_addr (h : Heap d e g ls ts us hs) (hb : b ∈ hs) (hc : c ∈ ls ++ us)
    (ha : c.addr = b.addr) : c = b := by
  rcases h.on_walk_or_inside hb with hw | ⟨f, hf, -, h1, h2⟩
  · exact h.walk.tiles.eq_of_addr hc hw ha
  · have hsz := (h.held b hb).2.2.1
    have hcs := h.walk.size_pos hc
    obtain rfl := h.walk.tiles.eq_of_mem_overlap hc hf (x := c.addr) ⟨le_refl _, by omega⟩
      ⟨by omega, by omega⟩
    omega

theorem walk_header_apart (h : Heap d e g ls ts us hs) (hb : b ∈ hs) (hc : c ∈ ls ++ us)
    (hx : Private b x) : x ≠ c.addr := by
  rintro rfl
  obtain ⟨h1, h2⟩ := hx
  have hcs := h.walk.size_pos hc
  rcases h.on_walk_or_inside hb with hw | ⟨f, hf, -, h3, h4⟩
  · obtain rfl := h.walk.tiles.eq_of_mem_overlap hw hc (x := c.addr) ⟨by omega, h2⟩ ⟨le_refl _, by omega⟩
    omega
  · obtain rfl := h.walk.tiles.eq_of_mem_overlap hf hc (x := c.addr) ⟨by omega, by omega⟩
      ⟨le_refl _, by omega⟩
    omega

theorem stale_header_apart (h : Heap d e g ls ts us hs) (hb : b ∈ hs) (hc : c ∈ ts)
    (hx : Private b x) : x ≠ c.addr := by
  rintro rfl
  obtain ⟨h1, h2⟩ := hx
  obtain ⟨m, -, ht, -⟩ := h.mid
  have hcs := ht.size_pos hc
  have hcb := ht.bounds hc
  rcases h.place b hb with hw | hbt | ⟨h3, -⟩
  · obtain ⟨f, hf, hft, -, h4, h5⟩ := h.stale hc
    obtain rfl := h.walk.tiles.eq_of_mem_overlap hw (List.mem_append_left _ hf) (x := c.addr)
      ⟨by omega, h2⟩ ⟨by omega, by omega⟩
    exact (h.held b hb).1.ne_free hft
  · obtain rfl := ht.eq_of_mem_overlap hbt hc (x := c.addr) ⟨by omega, h2⟩ ⟨le_refl _, by omega⟩
    omega
  · omega

theorem held_header_apart (h : Heap d e g ls ts us hs) (hb : b ∈ hs) (hc : c ∈ hs)
    (hx : Private b x) : x ≠ c.addr := by
  rintro rfl
  obtain ⟨h1, h2⟩ := hx
  have hcs := (h.held c hc).2.2.1
  by_cases hbc : b = c
  · subst hbc; omega
  · rcases h.apart b hb c hc hbc with h3 | h3 <;> omega

/-- The size words the two lists and the held blocks rest on, and the end marker. -/
def Fixed (e : ℕ) (ls ts us hs : List Clump) (x : ℕ) : Prop :=
  (∃ c ∈ ls ++ us, c.addr = x) ∨ (∃ c ∈ ts, c.addr = x) ∨ (∃ c ∈ hs, c.addr = x) ∨ x = e

theorem le_of_fixed (h : Heap d e g ls ts us hs) (hx : Fixed e ls ts us hs x) : pmemClumpOffset ≤ x := by
  have hin : ∀ c ∈ ls ++ us, pmemClumpOffset ≤ c.addr := fun c hc => (h.walk.tiles.bounds hc).1
  rcases hx with ⟨c, hc, rfl⟩ | ⟨c, hc, rfl⟩ | ⟨c, hc, rfl⟩ | rfl
  · exact hin c hc
  · obtain ⟨f, hf, -, -, h1, -⟩ := h.stale hc
    have := hin f (List.mem_append_left _ hf)
    omega
  · rcases h.on_walk_or_inside hc with hw | ⟨f, hf, -, h1, -⟩
    · exact hin c hw
    · have := hin f hf
      omega
  · exact h.walk.tiles.le

theorem end_le (h : Heap d e g ls ts us hs) (hb : b ∈ hs) : b.addr + b.size ≤ e := by
  rcases h.on_walk_or_inside hb with hw | ⟨f, hf, -, -, h2⟩
  · exact (h.walk.tiles.bounds hw).2
  · have := (h.walk.tiles.bounds hf).2
    omega

theorem fixed_le (h : Heap d e g ls ts us hs) (hx : Fixed e ls ts us hs x) : x ≤ e := by
  rcases hx with ⟨c, hc, rfl⟩ | ⟨c, hc, rfl⟩ | ⟨c, hc, rfl⟩ | rfl
  · have := h.walk.addr_lt hc
    omega
  · have := h.search.addr_lt (List.mem_append_left us hc)
    omega
  · have := h.end_le hc
    omega
  · exact le_refl _

theorem not_fixed_of_private (h : Heap d e g ls ts us hs) (hb : b ∈ hs) (hx : Private b x) :
    ¬ Fixed e ls ts us hs x := by
  rintro (⟨c, hc, hcx⟩ | ⟨c, hc, hcx⟩ | ⟨c, hc, hcx⟩ | rfl)
  · exact h.walk_header_apart hb hc hx hcx.symm
  · exact h.stale_header_apart hb hc hx hcx.symm
  · exact h.held_header_apart hb hc hx hcx.symm
  · have := h.end_le hb
    have := hx.2
    omega

theorem not_fixed_of_owned (h : Heap d e g ls ts us hs) (hx : Owned hs x) : ¬ Fixed e ls ts us hs x := by
  rcases hx with hx | ⟨b, hb, hx⟩
  · intro hf
    have h1 := h.le_of_fixed hf
    have h2 := hx.2
    simp only [pmemClumpOffset, pmemStaticOffset, pmemStaticSize] at h1 h2
    omega
  · exact h.not_fixed_of_private hb hx.isPrivate

theorem target_of_owned (h : Heap d e g ls ts us hs) (h8 : 8 ∣ x) (hx : Owned hs x) :
    Target (ls ++ us) x := by
  refine ⟨h8, hx.imp_right ?_⟩
  rintro ⟨b, hb, h1, h2⟩
  rcases h.on_walk_or_inside hb with hw | ⟨f, hf, -, h3, h4⟩
  · exact ⟨b, hw, h1, h2⟩
  · exact ⟨f, hf, by omega, by omega⟩

theorem congr (h : Heap d e g ls ts us hs) (hd : ∀ x, Fixed e ls ts us hs x → d' x = d x) :
    Heap d' e g ls ts us hs where
  walk := h.walk.congr (fun c hc => hd _ (Or.inl ⟨c, hc, rfl⟩)) (hd _ (Or.inr (Or.inr (Or.inr rfl))))
  search := by
    refine h.search.congr (fun c hc => hd _ ?_) (hd _ (Or.inr (Or.inr (Or.inr rfl))))
    rcases List.mem_append.mp hc with hc | hc
    · exact Or.inr (Or.inl ⟨c, hc, rfl⟩)
    · exact Or.inl ⟨c, List.mem_append_right _ hc, rfl⟩
  nonempty := h.nonempty
  gap := h.gap
  states := h.states
  held b hb := by
    obtain ⟨h1, h2, h3⟩ := h.held b hb
    exact ⟨h1, (hd _ (Or.inr (Or.inr (Or.inl ⟨b, hb, rfl⟩)))).trans h2, h3⟩
  place := h.place
  apart := h.apart

end Heap

/-! ## A change of state -/

/-- The clump in state `s` if it is the one at `a`. -/
def Clump.restate (a : ℕ) (s : State) (c : Clump) : Clump := c.set (if c.addr = a then s else c.tag)

@[simp] theorem Clump.restate_addr (a : ℕ) (s : State) (c : Clump) : (c.restate a s).addr = c.addr := rfl
@[simp] theorem Clump.restate_size (a : ℕ) (s : State) (c : Clump) : (c.restate a s).size = c.size := rfl

theorem Clump.restate_of_ne {a : ℕ} {c : Clump} (h : c.addr ≠ a) (s : State) : c.restate a s = c := by
  rw [Clump.restate, if_neg h, Clump.set_self]

theorem Clump.restate_self (c : Clump) (s : State) : c.restate c.addr s = c.set s := by
  rw [Clump.restate, if_pos rfl]

namespace Heap
variable {d d' : Mem} {e g : ℕ} {ls ts us hs : List Clump} {b c : Clump} {x : ℕ}

theorem eq_held (h : Heap d e g ls ts us hs) (hb : b ∈ hs) (hc : c ∈ ls ++ us ∨ c ∈ ts ∨ c ∈ hs)
    (ha : c.addr = b.addr) : c = b := by
  obtain ⟨hbh, -, hsz, -⟩ := h.held b hb
  rcases hc with hc | hc | hc
  · exact h.eq_of_addr hb hc ha
  · obtain ⟨m, -, ht, -⟩ := h.mid
    rcases h.place b hb with hw | hbt | ⟨h1, -⟩
    · obtain ⟨f, hf, hft, -, h2, h3⟩ := h.stale hc
      have hcs := ht.size_pos hc
      obtain rfl := h.walk.tiles.eq_of_mem_overlap hw (List.mem_append_left _ hf) (x := b.addr)
        ⟨le_refl _, by omega⟩ ⟨by omega, by omega⟩
      exact absurd hft hbh.ne_free
    · exact ht.eq_of_addr hc hbt ha
    · have := (ht.bounds hc).1
      omega
  · by_contra hne
    have := (h.held c hc).2.2.1
    rcases h.apart c hc b hb hne with h1 | h1 <;> omega

theorem free_addr_ne (h : Heap d e g ls ts us hs) (hb : b ∈ hs) (hc : c ∈ ls ++ us)
    (hf : c.tag = .free) : c.addr ≠ b.addr := by
  intro ha
  obtain rfl := h.eq_of_addr hb hc ha
  exact (h.held c hb).1.ne_free hf

theorem restate (h : Heap d e g ls ts us hs) (hb : b ∈ hs) {s : State} (hst : s = .free ∨ s.IsHeld)
    (hself : d' b.addr = (b.set s).word) (hother : ∀ x, Fixed e ls ts us hs x → x ≠ b.addr → d' x = d x)
    {hs' : List Clump} (hsub : ∀ c' ∈ hs', c'.tag.IsHeld ∧ ∃ c ∈ hs, c' = c.restate b.addr s) :
    Heap d' e g (ls.map (Clump.restate b.addr s)) (ts.map (Clump.restate b.addr s))
      (us.map (Clump.restate b.addr s)) hs' := by
  have he : d' e = d e := by
    refine hother e (Or.inr (Or.inr (Or.inr rfl))) fun heq => ?_
    have := h.end_le hb
    have := (h.held b hb).2.2.1
    omega
  have hword : ∀ c, c ∈ ls ++ us ∨ c ∈ ts ∨ c ∈ hs → d' c.addr = (c.restate b.addr s).word := by
    intro c hc
    by_cases ha : c.addr = b.addr
    · obtain rfl := h.eq_held hb hc ha
      rw [Clump.restate_self]
      exact hself
    · rw [Clump.restate_of_ne ha]
      rcases hc with hc | hc | hc
      · rw [hother _ (Or.inl ⟨c, hc, rfl⟩) ha]
        exact h.walk.word hc
      · rw [hother _ (Or.inr (Or.inl ⟨c, hc, rfl⟩)) ha]
        exact h.search.word (List.mem_append_left _ hc)
      · rw [hother _ (Or.inr (Or.inr (Or.inl ⟨c, hc, rfl⟩))) ha]
        exact (h.held c hc).2.1
  have hchain : ∀ {a : ℕ} {cs : List Clump}, Chain d a cs e → (∀ c ∈ cs, c ∈ ls ++ us ∨ c ∈ ts) →
      Chain d' a (cs.map (Clump.restate b.addr s)) e := by
    intro a cs hc hcs
    refine ⟨tiles_set _ hc.tiles, fun c' hc' => ?_, he.trans hc.marker⟩
    obtain ⟨c, hcm, rfl⟩ := List.mem_map.mp hc'
    exact hword c ((hcs c hcm).imp_right Or.inl)
  have hfree : ∀ f ∈ ls, f.tag = .free → f.restate b.addr s = f := fun f hf hft =>
    Clump.restate_of_ne (h.free_addr_ne hb (List.mem_append_left _ hf) hft) s
  refine
    { walk := by
        rw [← List.map_append]
        exact hchain h.walk fun c hc => Or.inl hc
      search := by
        rw [← List.map_append]
        refine hchain h.search fun c hc => ?_
        rcases List.mem_append.mp hc with hc | hc
        · exact Or.inr hc
        · exact Or.inl (List.mem_append_right _ hc)
      nonempty := by
        rw [← List.map_append, Ne, List.map_eq_nil_iff]
        exact h.nonempty
      gap := ?_
      states := fun c' hc' => ?_
      held := fun c' hc' => ?_
      place := fun c' hc' => ?_
      apart := fun b' hb' c' hc' hne => ?_ }
  · rcases h.gap with rfl | ⟨ks, f, rfl, hft, hfg⟩
    · exact Or.inl rfl
    · refine Or.inr ⟨ks.map (Clump.restate b.addr s), f, ?_, hft, hfg⟩
      rw [List.map_append, List.map_singleton, hfree f (by simp) hft]
  · rw [← List.map_append] at hc'
    obtain ⟨c, hc, rfl⟩ := List.mem_map.mp hc'
    unfold Clump.restate
    rw [Clump.set_tag]
    split
    · exact hst
    · exact h.states c hc
  · obtain ⟨htag, c, hc, rfl⟩ := hsub c' hc'
    obtain ⟨-, -, h1, h2⟩ := h.held c hc
    exact ⟨htag, hword c (Or.inr (Or.inr hc)), h1, h2⟩
  · obtain ⟨-, c, hc, rfl⟩ := hsub c' hc'
    rcases h.place c hc with hw | ht | ⟨h1, f, hf, hft, h2⟩
    · rw [← List.map_append]
      exact Or.inl (List.mem_map_of_mem hw)
    · exact Or.inr (Or.inl (List.mem_map_of_mem ht))
    · refine Or.inr (Or.inr ⟨h1, f, ?_, hft, h2⟩)
      rw [← hfree f hf hft]
      exact List.mem_map_of_mem hf
  · obtain ⟨-, b₀, hb₀, rfl⟩ := hsub b' hb'
    obtain ⟨-, c₀, hc₀, rfl⟩ := hsub c' hc'
    exact h.apart b₀ hb₀ c₀ hc₀ fun heq => hne (by rw [heq])

theorem hold (h : Heap d e g ls ts us hs) (hb : b ∈ hs) {s : State} (hst : s.IsHeld)
    (hself : d' b.addr = (b.set s).word)
    (hother : ∀ x, Fixed e ls ts us hs x → x ≠ b.addr → d' x = d x) :
    Heap d' e g (ls.map (Clump.restate b.addr s)) (ts.map (Clump.restate b.addr s))
      (us.map (Clump.restate b.addr s)) (hs.map (Clump.restate b.addr s)) := by
  refine h.restate hb (Or.inr hst) hself hother fun c' hc' => ?_
  obtain ⟨c, hc, rfl⟩ := List.mem_map.mp hc'
  refine ⟨?_, c, hc, rfl⟩
  unfold Clump.restate
  rw [Clump.set_tag]
  split
  · exact hst
  · exact (h.held c hc).1

theorem release (h : Heap d e g ls ts us hs) (hb : b ∈ hs) (hself : d' b.addr = (b.set .free).word)
    (hother : ∀ x, Fixed e ls ts us hs x → x ≠ b.addr → d' x = d x) :
    Heap d' e g (ls.map (Clump.restate b.addr .free)) (ts.map (Clump.restate b.addr .free))
      (us.map (Clump.restate b.addr .free)) (hs.filter fun c => c.addr ≠ b.addr) := by
  refine h.restate hb (Or.inl rfl) hself hother fun c hc => ?_
  rw [List.mem_filter, decide_eq_true_eq] at hc
  exact ⟨(h.held c hc.1).1, c, hc.1, (Clump.restate_of_ne hc.2 _).symm⟩

end Heap

end PmemExamples.Pool
