import PmemExamples.Tiling.Basic

/-! # Merging runs of adjacent blocks

`mergeRuns p` replaces every maximal run of adjacent blocks whose tag satisfies `p` by one block that
covers the run. It is a normal form: it keeps the tiling and every other block, leaves no two `p`
blocks side by side, and depends on a sublist only through the normal form of that sublist. -/

namespace PmemExamples.Tiling
set_option autoImplicit false
variable {τ : Type} {g : ℕ} {p : τ → Bool}

def mergeRuns (p : τ → Bool) : List (Block τ) → List (Block τ)
  | [] => []
  | b :: bs =>
    match mergeRuns p bs with
    | [] => [b]
    | c :: cs => if p b.tag && p c.tag then ⟨b.addr, b.size + c.size, b.tag⟩ :: cs else b :: c :: cs

@[simp] theorem mergeRuns_nil : mergeRuns p [] = [] := rfl

theorem mergeRuns_cons (b : Block τ) (bs : List (Block τ)) :
    mergeRuns p (b :: bs) = match mergeRuns p bs with
      | [] => [b]
      | c :: cs => if p b.tag && p c.tag then ⟨b.addr, b.size + c.size, b.tag⟩ :: cs
        else b :: c :: cs := rfl

theorem mergeRuns_cons_of_not {b : Block τ} (h : p b.tag = false) (bs : List (Block τ)) :
    mergeRuns p (b :: bs) = b :: mergeRuns p bs := by
  rw [mergeRuns_cons]
  cases mergeRuns p bs <;> simp [h]

theorem mergeRuns_eq_nil {bs : List (Block τ)} : mergeRuns p bs = [] ↔ bs = [] := by
  cases bs with
  | nil => simp
  | cons b bs =>
    rw [mergeRuns_cons]
    cases mergeRuns p bs with
    | nil => simp
    | cons c cs => dsimp only; split <;> simp

/-- A block that is not merged ends the runs on both sides of it. -/
theorem mergeRuns_append_of_not {b : Block τ} (h : p b.tag = false) (l r : List (Block τ)) :
    mergeRuns p (l ++ b :: r) = mergeRuns p l ++ b :: mergeRuns p r := by
  induction l with
  | nil => exact mergeRuns_cons_of_not h r
  | cons c l ih =>
    rw [List.cons_append, mergeRuns_cons, ih, mergeRuns_cons]
    cases hl : mergeRuns p l with
    | nil => simp [h]
    | cons d ds => cases hd : p c.tag && p d.tag <;> simp [hd]

theorem mergeRuns_tiles {a e : ℕ} {bs : List (Block τ)} (h : Tiles g a bs e) :
    Tiles g a (mergeRuns p bs) e := by
  induction bs generalizing a with
  | nil => exact h
  | cons b bs ih =>
    obtain ⟨h1, h2, h3, h4⟩ := h
    have h5 := ih h4
    rw [mergeRuns_cons]
    cases hm : mergeRuns p bs with
    | nil => rw [hm] at h5; exact ⟨h1, h2, h3, h5⟩
    | cons c cs =>
      rw [hm] at h5
      obtain ⟨h6, h7, h8, h9⟩ := h5
      dsimp only
      split
      · refine ⟨h1, by dsimp only; omega, Nat.dvd_add h3 h8, ?_⟩
        dsimp only
        rwa [← Nat.add_assoc]
      · exact ⟨h1, h2, h3, h6, h7, h8, h9⟩

theorem mergeRuns_sum (bs : List (Block τ)) :
    ((mergeRuns p bs).map Block.size).sum = (bs.map Block.size).sum := by
  induction bs with
  | nil => rfl
  | cons b bs ih =>
    rw [mergeRuns_cons, List.map_cons, List.sum_cons, ← ih]
    cases mergeRuns p bs with
    | nil => simp
    | cons c cs => cases hb : p b.tag && p c.tag <;> simp [hb, Nat.add_assoc]

/-- The blocks that are not merged are kept, in order. -/
theorem mergeRuns_filter_not (bs : List (Block τ)) :
    (mergeRuns p bs).filter (fun b => !p b.tag) = bs.filter (fun b => !p b.tag) := by
  induction bs with
  | nil => rfl
  | cons b bs ih =>
    rw [List.filter_cons, ← ih, mergeRuns_cons]
    cases mergeRuns p bs with
    | nil => cases hb : p b.tag <;> simp [hb]
    | cons c cs => cases hb : p b.tag <;> cases hc : p c.tag <;> simp [hb, hc]

theorem mem_mergeRuns_of_not {b : Block τ} (h : p b.tag = false) {bs : List (Block τ)} :
    b ∈ mergeRuns p bs ↔ b ∈ bs := by
  have key : ∀ l : List (Block τ), b ∈ l.filter (fun b => !p b.tag) ↔ b ∈ l := by
    intro l; simp [List.mem_filter, h]
  rw [← key, ← key bs, mergeRuns_filter_not]

/-- A merged block starts where one of the given blocks does, with its tag. -/
theorem exists_of_mem_mergeRuns {c : Block τ} {bs : List (Block τ)} (h : c ∈ mergeRuns p bs) :
    ∃ b ∈ bs, b.addr = c.addr ∧ b.tag = c.tag := by
  induction bs generalizing c with
  | nil => simp at h
  | cons b bs ih =>
    rw [mergeRuns_cons] at h
    cases hm : mergeRuns p bs with
    | nil =>
      rw [hm, List.mem_singleton] at h
      exact ⟨b, List.mem_cons_self, by rw [h], by rw [h]⟩
    | cons d ds =>
      rw [hm] at h ih
      dsimp only at h
      split at h
      · rcases List.mem_cons.mp h with rfl | h
        · exact ⟨b, List.mem_cons_self, rfl, rfl⟩
        · obtain ⟨x, hx, hxc⟩ := ih (List.mem_cons_of_mem d h)
          exact ⟨x, List.mem_cons_of_mem _ hx, hxc⟩
      · rcases List.mem_cons.mp h with rfl | h
        · exact ⟨c, List.mem_cons_self, rfl, rfl⟩
        · obtain ⟨x, hx, hxc⟩ := ih h
          exact ⟨x, List.mem_cons_of_mem _ hx, hxc⟩

/-- Every given block lies inside a block of the normal form, one that satisfies `p` if it does. -/
theorem exists_mergeRuns_cover {a e : ℕ} {b : Block τ} {bs : List (Block τ)} (h : Tiles g a bs e)
    (hb : b ∈ bs) : ∃ c ∈ mergeRuns p bs, p c.tag = p b.tag ∧ c.addr ≤ b.addr ∧
      b.addr + b.size ≤ c.addr + c.size := by
  induction bs generalizing a with
  | nil => simp at hb
  | cons x bs ih =>
    obtain ⟨h1, h2, h3, h4⟩ := h
    have h5 := mergeRuns_tiles (p := p) h4
    rw [mergeRuns_cons]
    cases hm : mergeRuns p bs with
    | nil =>
      rw [mergeRuns_eq_nil] at hm
      subst hm
      rw [List.mem_singleton] at hb
      subst hb
      exact ⟨b, List.mem_cons_self, rfl, le_refl _, le_refl _⟩
    | cons d ds =>
      rw [hm] at h5 ih
      have hd : d.addr = a + x.size := h5.1
      rcases List.mem_cons.mp hb with rfl | hb
      · dsimp only
        split
        · exact ⟨_, List.mem_cons_self, rfl, le_refl _, by dsimp only; omega⟩
        · exact ⟨b, List.mem_cons_self, rfl, le_refl _, le_refl _⟩
      · obtain ⟨c, hc, hp, hl, hr⟩ := ih h4 hb
        dsimp only
        split
        · next hxd =>
          rcases List.mem_cons.mp hc with rfl | hc
          · refine ⟨_, List.mem_cons_self, ?_, ?_, ?_⟩
            · rw [← hp]; simp_all
            · dsimp only; omega
            · dsimp only; omega
          · exact ⟨c, List.mem_cons_of_mem _ hc, hp, hl, hr⟩
        · exact ⟨c, List.mem_cons_of_mem _ hc, hp, hl, hr⟩

/-! ## The normal form -/

/-- No two adjacent blocks satisfy `p`. -/
def Separated (p : τ → Bool) : List (Block τ) → Prop :=
  List.IsChain (fun b c => ¬ (p b.tag = true ∧ p c.tag = true))

theorem mergeRuns_separated (bs : List (Block τ)) : Separated p (mergeRuns p bs) := by
  induction bs with
  | nil => exact List.isChain_nil
  | cons b bs ih =>
    rw [mergeRuns_cons]
    cases hm : mergeRuns p bs with
    | nil => exact List.isChain_singleton _
    | cons c cs =>
      rw [hm] at ih
      dsimp only
      split
      · next h =>
        rw [Bool.and_eq_true] at h
        cases cs with
        | nil => exact List.isChain_singleton _
        | cons d ds =>
          rw [Separated, List.isChain_cons_cons] at ih ⊢
          exact ⟨fun hd => ih.1 ⟨h.2, hd.2⟩, ih.2⟩
      · next h =>
        rw [Separated, List.isChain_cons_cons]
        exact ⟨fun hd => h (by simp [hd.1, hd.2]), ih⟩

theorem mergeRuns_of_separated {bs : List (Block τ)} (h : Separated p bs) : mergeRuns p bs = bs := by
  induction bs with
  | nil => rfl
  | cons b bs ih =>
    cases bs with
    | nil => rfl
    | cons c cs =>
      rw [Separated, List.isChain_cons_cons] at h
      rw [mergeRuns_cons, ih h.2]
      have : ¬ ((p b.tag && p c.tag) = true) := by rw [Bool.and_eq_true]; exact h.1
      simp [this]

@[simp] theorem mergeRuns_mergeRuns (bs : List (Block τ)) :
    mergeRuns p (mergeRuns p bs) = mergeRuns p bs :=
  mergeRuns_of_separated (mergeRuns_separated bs)

/-- The normal form of a list depends on its tail through the tail's normal form. -/
theorem mergeRuns_append_right (l r : List (Block τ)) :
    mergeRuns p (l ++ mergeRuns p r) = mergeRuns p (l ++ r) := by
  induction l with
  | nil => exact mergeRuns_mergeRuns r
  | cons b l ih => rw [List.cons_append, List.cons_append, mergeRuns_cons, mergeRuns_cons, ih]

theorem mergeRuns_append_congr {l r r' : List (Block τ)} (h : mergeRuns p r = mergeRuns p r') :
    mergeRuns p (l ++ r) = mergeRuns p (l ++ r') := by
  rw [← mergeRuns_append_right, h, mergeRuns_append_right]

/-- Two adjacent blocks of `p` may be joined beforehand. -/
theorem mergeRuns_join {b c : Block τ} (hb : p b.tag = true) (hc : p c.tag = true)
    (bs : List (Block τ)) :
    mergeRuns p (b :: c :: bs) = mergeRuns p (⟨b.addr, b.size + c.size, b.tag⟩ :: bs) := by
  rw [mergeRuns_cons, mergeRuns_cons, mergeRuns_cons]
  cases mergeRuns p bs with
  | nil => simp [hb, hc]
  | cons d ds => cases hd : p d.tag <;> simp [hb, hc, hd, Nat.add_assoc]

theorem mergeRuns_join_run {b : Block τ} (hb : p b.tag = true) {run : List (Block τ)}
    (hrun : ∀ c ∈ run, p c.tag = true) (bs : List (Block τ)) :
    mergeRuns p (b :: run ++ bs) =
      mergeRuns p (⟨b.addr, b.size + (run.map Block.size).sum, b.tag⟩ :: bs) := by
  induction run generalizing b with
  | nil => simp
  | cons c run ih =>
    rw [List.cons_append, List.cons_append, mergeRuns_join hb (hrun c List.mem_cons_self)]
    rw [← List.cons_append, ih (b := ⟨b.addr, b.size + c.size, b.tag⟩) hb
      (fun d hd => hrun d (List.mem_cons_of_mem _ hd))]
    simp [Nat.add_assoc]

/-- A merged run at the end of the list reaches back to its first block. -/
theorem mergeRuns_ends {a e : ℕ} {b : Block τ} {l run : List (Block τ)} (hb : p b.tag = true)
    (hrun : ∀ c ∈ run, p c.tag = true) (h : Tiles g a (l ++ b :: run) e) :
    ∃ l' c, mergeRuns p (l ++ b :: run) = l' ++ [c] ∧ p c.tag = true ∧ c.addr ≤ b.addr ∧
      c.addr + c.size = e := by
  have hjoin : mergeRuns p (l ++ b :: run) =
      mergeRuns p (l ++ [⟨b.addr, b.size + (run.map Block.size).sum, b.tag⟩]) := by
    have := mergeRuns_join_run hb hrun []
    rw [List.append_nil] at this
    exact mergeRuns_append_congr this
  obtain ⟨hl, hpos, hdvd, hr⟩ := h.split
  have hsum := hr.sum_sizes
  have hone : Tiles g b.addr [(⟨b.addr, b.size + (run.map Block.size).sum, b.tag⟩ : Block τ)] e :=
    ⟨rfl, by dsimp only; omega, Nat.dvd_add hdvd (List.dvd_sum fun n hn => by
      obtain ⟨c, hc, rfl⟩ := List.mem_map.mp hn
      exact hr.size_dvd hc), by rw [tiles_nil]; dsimp only; omega⟩
  have hall := hl.append hone
  obtain ⟨c, hc, hp, h1, h2⟩ := exists_mergeRuns_cover (p := p) hall
    (List.mem_append_right l (List.mem_singleton_self _))
  have ht := mergeRuns_tiles (p := p) hall
  rw [← hjoin] at hc ht
  obtain ⟨l', r', hlr⟩ := List.append_of_mem hc
  rw [hlr] at ht
  obtain ⟨-, hcp, -, hr'⟩ := ht.split
  dsimp only at h1 h2
  cases r' with
  | nil => exact ⟨l', c, hlr, hp.trans hb, h1, tiles_nil.mp hr'⟩
  | cons d r' =>
    have := hr'.size_pos List.mem_cons_self
    have := hr'.bounds List.mem_cons_self
    have := hr'.1
    omega

theorem mergeRuns_head (b : Block τ) (bs : List (Block τ)) :
    ∃ c cs, mergeRuns p (b :: bs) = c :: cs ∧ c.addr = b.addr := by
  rw [mergeRuns_cons]
  cases mergeRuns p bs with
  | nil => exact ⟨b, [], rfl, rfl⟩
  | cons c cs =>
    dsimp only
    split
    · exact ⟨_, cs, rfl, rfl⟩
    · exact ⟨b, c :: cs, rfl, rfl⟩

/-- A block of `p` keeps its header when no block of `p` is right before it. -/
theorem mem_addr_mergeRuns_iff {a e : ℕ} {b : Block τ} {l r : List (Block τ)} (hb : p b.tag = true)
    (h : Tiles g a (l ++ b :: r) e) :
    (∃ c ∈ mergeRuns p (l ++ b :: r), c.addr = b.addr) ↔ ∀ d ∈ l.getLast?, p d.tag = false := by
  obtain ⟨c, cs, hhead, hc⟩ := mergeRuns_head (p := p) b r
  rcases List.eq_nil_or_concat l with rfl | ⟨l, d, rfl⟩
  · rw [List.nil_append, hhead]
    simp [hc]
  rw [List.concat_eq_append] at h ⊢
  simp only [List.getLast?_append, List.getLast?_singleton, Option.some_or, Option.mem_def,
    Option.some.injEq, forall_eq']
  rw [List.append_assoc, List.singleton_append] at h ⊢
  cases hd : p d.tag with
  | false =>
    rw [mergeRuns_append_of_not hd, hhead]
    simp only [iff_true]
    exact ⟨c, by simp, hc⟩
  | true =>
    simp only [Bool.true_eq_false, iff_false]
    rintro ⟨x, hx, hxb⟩
    rw [mergeRuns_append_congr (mergeRuns_join hd hb r)] at hx
    obtain ⟨y, hy, hya, -⟩ := exists_of_mem_mergeRuns hx
    obtain ⟨hl, hpos, hdvd, hba, hpos', hdvd', hr⟩ := h.split
    have hjoin : Tiles g a (l ++ ⟨d.addr, d.size + b.size, d.tag⟩ :: r) e :=
      hl.append ⟨rfl, by dsimp only; omega, Nat.dvd_add hdvd hdvd', by dsimp only; rwa [← Nat.add_assoc]⟩
    -- the joined block holds the address of `b` inside
    have hsz := hjoin.size_pos hy
    have hmem : (⟨d.addr, d.size + b.size, d.tag⟩ : Block τ) ∈ l ++ ⟨d.addr, d.size + b.size, d.tag⟩ :: r := by
      simp
    have heq := hjoin.eq_of_mem_overlap hy hmem (x := b.addr) ⟨by omega, by omega⟩
      ⟨by dsimp only; omega, by dsimp only; omega⟩
    rw [heq] at hya
    dsimp only at hya
    omega

/-- Merging before a retagging that keeps `p` blocks in `p` makes no difference to merging after. -/
theorem mergeRuns_map_retag {f : τ → τ} (hf : ∀ t, p t = true → p (f t) = true)
    (bs : List (Block τ)) :
    mergeRuns p ((mergeRuns p bs).map (Block.retag f)) = mergeRuns p (bs.map (Block.retag f)) := by
  induction bs with
  | nil => rfl
  | cons b bs ih =>
    have hcons : mergeRuns p ((b :: mergeRuns p bs).map (Block.retag f)) =
        mergeRuns p ((b :: bs).map (Block.retag f)) :=
      mergeRuns_append_congr (l := [b.retag f]) ih
    rw [← hcons, mergeRuns_cons b bs]
    cases hm : mergeRuns p bs with
    | nil => rfl
    | cons c cs =>
      dsimp only
      split
      · next hbc =>
        rw [Bool.and_eq_true] at hbc
        exact (mergeRuns_join (b := b.retag f) (c := c.retag f) (hf _ hbc.1) (hf _ hbc.2) _).symm
      · rfl

end PmemExamples.Tiling
