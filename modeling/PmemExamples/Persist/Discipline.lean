import PmemExamples.Persist.Memory

/-! # One dirty line at a time

A run is *strict* when it never stores to a line while another line it stored to is still
unflushed. Such a run turns the line-by-line loss of `CrashImage` back into the loss of a suffix of
the run: every crash image is some prefix of the run's stores applied to a crash image of the state
the run started in (`strict_crash`). -/

namespace PmemExamples.Persist
set_option autoImplicit false

/-- `Strict d evs`: run from a state in which the line `d` may be dirty, `evs` never stores to a
second line before the first is flushed. -/
def Strict : Option ℕ → List Event → Prop
  | _, [] => True
  | d, .store a _ :: evs => (∀ ℓ ∈ d, ℓ = lineOf a) ∧ Strict (some (lineOf a)) evs
  | d, .flush ls :: evs => Strict (d.filter (· ∉ ls)) evs

theorem Strict.weaken {evs : List Event} {d : Option ℕ} (h : Strict d evs) : Strict none evs := by
  induction evs generalizing d with
  | nil => trivial
  | cons e evs ih =>
    cases e with
    | store a v => exact ⟨by simp, h.2⟩
    | flush ls => exact ih h

/-- Nothing is dirty after the last event. -/
def Settled : Option ℕ → List Event → Prop
  | d, [] => d = none
  | _, .store a _ :: evs => Settled (some (lineOf a)) evs
  | d, .flush ls :: evs => Settled (d.filter (· ∉ ls)) evs

theorem Strict.append {evs evs' : List Event} {d : Option ℕ} (h : Strict d evs)
    (hs : Settled d evs) (h' : Strict none evs') : Strict d (evs ++ evs') := by
  induction evs generalizing d with
  | nil =>
    obtain rfl : d = none := hs
    exact h'
  | cons e evs ih =>
    cases e with
    | store a v => exact ⟨h.1, ih h.2 hs⟩
    | flush ls => exact ih h hs

theorem Settled.append {evs evs' : List Event} {d : Option ℕ} (hs : Settled d evs)
    (h' : Settled none evs') : Settled d (evs ++ evs') := by
  induction evs generalizing d with
  | nil =>
    obtain rfl : d = none := hs
    exact h'
  | cons e evs ih => cases e <;> exact ih hs

theorem Strict.prefix {evs evs' : List Event} {d : Option ℕ} (h : Strict d (evs ++ evs')) :
    Strict d evs := by
  induction evs generalizing d with
  | nil => trivial
  | cons e evs ih =>
    cases e with
    | store a v => exact ⟨h.1, ih h.2⟩
    | flush ls => exact ih h

theorem Strict.take {evs : List Event} {d : Option ℕ} (h : Strict d evs) (k : ℕ) :
    Strict d (evs.take k) := by
  rw [← List.take_append_drop k evs] at h
  exact h.prefix

/-- While line `ℓ` is dirty and not flushed, a strict run stores to nothing but `ℓ`. -/
theorem Strict.only_dirty {evs : List Event} {ℓ : ℕ} (h : Strict (some ℓ) evs)
    (hf : ∀ e ∈ evs, ¬ e.Flushes ℓ) : ∀ e ∈ evs, ∀ a, e.Writes a → lineOf a = ℓ := by
  induction evs with
  | nil => simp
  | cons e evs ih =>
    have hf' : ∀ e ∈ evs, ¬ e.Flushes ℓ := fun e he => hf e (List.mem_cons_of_mem _ he)
    cases e with
    | store b v =>
      obtain rfl : ℓ = lineOf b := h.1 ℓ rfl
      intro e he a ha
      rcases List.mem_cons.mp he with rfl | he
      · rw [Event.writes_store] at ha; rw [ha]
      · exact ih h.2 hf' e he a ha
    | flush ls =>
      have hnot : ℓ ∉ ls := hf (.flush ls) List.mem_cons_self
      have h' : Strict (some ℓ) evs := by simpa [Strict, Option.filter, hnot] using h
      intro e he a ha
      rcases List.mem_cons.mp he with rfl | he
      · exact absurd ha (Event.writes_flush a ls)
      · exact ih h' hf' e he a ha

/-- Undo the last store on an image that has it: the result is an image of the run before it. -/
theorem CrashImage.unstore {base m : Mem} {evs : List Event} {b v : ℕ}
    (h : CrashImage base (evs ++ [.store b v]) m) :
    CrashImage base evs (fun a => if lineOf a = lineOf b then applyAll evs base a else m a) := by
  intro ℓ
  by_cases hℓ : ℓ = lineOf b
  · subst hℓ
    exact ⟨evs, [], by simp, by simp, fun a ha => by simp [ha]⟩
  · rcases h.snoc ℓ with h | ⟨-, kept, lost, h1, h2, h3⟩
    · refine ⟨evs, [], by simp, by simp, fun a ha => ?_⟩
      have hab : a ≠ b := fun h => hℓ (by rw [← ha, h])
      simp only [ha, hℓ, if_false]
      rw [h a ha, applyAll_append, applyAll_store, applyAll_nil, Function.update_of_ne hab]
    · refine ⟨kept, lost, h1, h2, fun a ha => ?_⟩
      simp only [ha, hℓ, if_false]
      exact h3 a ha

/-- The image of a strict run is a prefix of the run applied to an image of the start, and that
image is the newest one on every line the prefix stores to or flushes. -/
theorem strict_crash {base : Mem} :
    ∀ {evs evs₀ : List Event} {img : Mem}, Strict none evs → CrashImage base (evs₀ ++ evs) img →
      ∃ j m₀, j ≤ evs.length ∧ CrashImage base evs₀ m₀ ∧
        (∀ e ∈ evs.take j, ∀ a, e.Touches (lineOf a) → m₀ a = applyAll evs₀ base a) ∧
        img = applyAll (evs.take j) m₀
  | [], evs₀, img, _, hc => ⟨0, img, by simp, by simpa using hc, by simp, by simp⟩
  | .flush ls :: evs, evs₀, img, hs, hc => by
    rw [List.append_cons] at hc
    have hs' : Strict none evs := hs
    obtain ⟨j, m₁, hj, hm₁, htouch, himg⟩ := strict_crash hs' hc
    have hstep : applyAll (evs₀ ++ [.flush ls]) base = applyAll evs₀ base := by
      rw [applyAll_append]; rfl
    rw [hstep] at htouch
    refine ⟨j + 1, m₁, by simpa using hj, ?_, ?_, by simpa using himg⟩
    · intro ℓ
      rcases hm₁.snoc ℓ with h | ⟨-, h⟩
      · exact ⟨evs₀, [], by simp, by simp, fun a ha => by rw [h a ha, hstep]⟩
      · exact h
    · intro e he a ha
      rcases List.mem_cons.mp (by simpa using he) with rfl | he
      · -- on a flushed line no older image is left
        rcases hm₁.snoc (lineOf a) with h | ⟨h, -⟩
        · rw [h a rfl, hstep]
        · exact absurd ha h
      · exact htouch e he a ha
  | .store b v :: evs, evs₀, img, hs, hc => by
    rw [List.append_cons] at hc
    obtain ⟨j, m₁, hj, hm₁, htouch, himg⟩ := strict_crash hs.2.weaken hc
    have hstep : applyAll (evs₀ ++ [.store b v]) base = Function.update (applyAll evs₀ base) b v := by
      rw [applyAll_append]; rfl
    rw [hstep] at htouch
    by_cases hnew : ∀ a, lineOf a = lineOf b → m₁ a = Function.update (applyAll evs₀ base) b v a
    · -- the store reached memory: the prefix includes it
      refine ⟨j + 1, _, by simpa using hj, hm₁.unstore, ?_, ?_⟩
      · intro e he a ha
        by_cases hab : lineOf a = lineOf b
        · simp [hab]
        · rcases List.mem_cons.mp (by simpa using he) with rfl | he
          · exact absurd (Eq.symm ha) hab
          · simp only [hab, if_false]
            rw [htouch e he a ha, Function.update_of_ne (fun h => hab (by rw [h]))]
      · rw [himg, List.take_succ_cons, applyAll_store]
        congr 1
        funext a
        by_cases hab : a = b
        · subst hab; rw [hnew a rfl]; simp
        · rw [Function.update_of_ne hab]
          by_cases hl : lineOf a = lineOf b
          · simp only [hl, if_true]; rw [hnew a hl, Function.update_of_ne hab]
          · simp [hl]
    · -- the store is lost, and with it every later event: up to the flush of its line the run
      -- stores to nothing else
      rcases hm₁.snoc (lineOf b) with h | ⟨-, kept, lost, hk, hl, hag⟩
      · exact absurd (fun a ha => by rw [h a ha, hstep]) hnew
      · have hno : ∀ e ∈ evs.take j, ¬ e.Touches (lineOf b) := fun e he ht =>
          hnew (fun a ha => htouch e he a (by rw [ha]; exact ht))
        have hline := (hs.2.take j).only_dirty (fun e he hf => hno e he hf.touches)
        have hkeep : img = m₁ := by
          rw [himg]
          funext a
          refine applyAll_of_not_writes (fun e he hw => hno e he ?_) m₁
          have := hline e he a hw
          cases e with
          | store c w => obtain rfl : c = a := hw; exact this
          | flush ls => exact absurd hw (Event.writes_flush a ls)
        refine ⟨0, m₁, by simp, ?_, by simp, by simpa using hkeep⟩
        intro ℓ
        rcases hm₁.snoc ℓ with h | ⟨-, h⟩
        · by_cases hℓ : ℓ = lineOf b
          · subst hℓ; exact ⟨kept, lost, hk, hl, hag⟩
          · refine ⟨evs₀, [], by simp, by simp, fun a ha => ?_⟩
            rw [h a ha, hstep, Function.update_of_ne (fun h => hℓ (by rw [← ha, h]))]
        · exact h

/-! ## Orderly runs -/

/-- A run that flushes each line before it stores to the next, and flushes the last one too. -/
def Orderly (evs : List Event) : Prop := Strict none evs ∧ Settled none evs

namespace Orderly
variable {evs evs' : List Event}

theorem nil : Orderly [] := ⟨trivial, rfl⟩

theorem append (h : Orderly evs) (h' : Orderly evs') : Orderly (evs ++ evs') :=
  ⟨h.1.append h.2 h'.1, h.2.append h'.2⟩

theorem flatMap {ι : Type} {f : ι → List Event} {is : List ι} (h : ∀ i ∈ is, Orderly (f i)) :
    Orderly (is.flatMap f) := by
  induction is with
  | nil => exact nil
  | cons i is ih =>
    rw [List.flatMap_cons]
    exact (h i List.mem_cons_self).append (ih fun j hj => h j (List.mem_cons_of_mem _ hj))

theorem flush (ls : List ℕ) : Orderly [.flush ls] := ⟨trivial, rfl⟩

end Orderly

/-- Stores to one line followed by a flush of it. -/
def storeBurst (ss : List (ℕ × ℕ)) (ls : List ℕ) : List Event :=
  ss.map (fun s => .store s.1 s.2) ++ [.flush ls]

theorem orderly_storeBurst {ℓ : ℕ} {ls : List ℕ} (hℓ : ℓ ∈ ls) {ss : List (ℕ × ℕ)}
    (hs : ∀ s ∈ ss, lineOf s.1 = ℓ) : Orderly (storeBurst ss ls) := by
  have key : ∀ (ss : List (ℕ × ℕ)) (d : Option ℕ), (∀ k ∈ d, k = ℓ) → (∀ s ∈ ss, lineOf s.1 = ℓ) →
      Strict d (storeBurst ss ls) ∧ Settled d (storeBurst ss ls) := by
    intro ss
    induction ss with
    | nil =>
      intro d hd _
      refine ⟨trivial, ?_⟩
      show d.filter (· ∉ ls) = none
      cases d with
      | none => rfl
      | some k => simp [Option.filter, hd k rfl, hℓ]
    | cons s ss ih =>
      intro d hd hs
      have h1 : lineOf s.1 = ℓ := hs s List.mem_cons_self
      obtain ⟨h2, h3⟩ := ih (some (lineOf s.1)) (by simpa using h1)
        fun t ht => hs t (List.mem_cons_of_mem _ ht)
      exact ⟨⟨fun k hk => (hd k hk).trans h1.symm, h2⟩, h3⟩
  exact key ss none (by simp) hs

/-! ## Durability along a run -/

namespace Durable
variable {base : Mem} {evs evs' : List Event} {ℓ : ℕ}

theorem boot (base : Mem) (ℓ : ℕ) : Durable base [] ℓ := by
  intro img h a _
  rw [crashImage_nil] at h
  rw [h, applyAll_nil]

theorem image {img : Mem} (h : Durable base evs ℓ) (hi : CrashImage base evs img) {a : ℕ}
    (ha : lineOf a = ℓ) : img a = applyAll evs base a := h img hi a ha

/-- A line is durable as soon as each of its possible contents is the newest one. -/
theorem of_cuts (h : ∀ kept lost, evs = kept ++ lost → (∀ e ∈ lost, ¬ e.Flushes ℓ) →
    ∀ a, lineOf a = ℓ → applyAll kept base a = applyAll evs base a) : Durable base evs ℓ := by
  intro img hi a ha
  obtain ⟨kept, lost, he, hl, hag⟩ := hi ℓ
  rw [hag a ha, h kept lost he hl a ha]

theorem cuts (h : Durable base evs ℓ) {kept lost : List Event} (he : evs = kept ++ lost)
    (hl : ∀ e ∈ lost, ¬ e.Flushes ℓ) {a : ℕ} (ha : lineOf a = ℓ) :
    applyAll kept base a = applyAll evs base a := by
  simpa [ha] using h _ (CrashImage.of_line he hl) a ha

/-- An event that does not store to a durable line leaves it durable. -/
theorem snoc (h : Durable base evs ℓ) {e : Event} (he : ∀ a, e.Writes a → lineOf a ≠ ℓ) :
    Durable base (evs ++ [e]) ℓ := by
  have hsame : ∀ a, lineOf a = ℓ → applyAll (evs ++ [e]) base a = applyAll evs base a := by
    intro a ha
    rw [applyAll_append]
    exact applyAll_of_not_writes
      (by intro e' he' hw; rw [List.mem_singleton.mp he'] at hw; exact he a hw ha) _
  intro img hi a ha
  rcases hi.snoc ℓ with h' | ⟨-, kept, lost, h1, h2, h3⟩
  · exact h' a ha
  · rw [h3 a ha, h.cuts h1 h2 ha, hsame a ha]

theorem flush {ls : List ℕ} (hℓ : ℓ ∈ ls) : Durable base (evs ++ [.flush ls]) ℓ := by
  intro img hi a ha
  rcases hi.snoc ℓ with h | ⟨h, -⟩
  · exact h a ha
  · exact absurd hℓ h

theorem append (h : Durable base evs ℓ) (he : ∀ e ∈ evs', ∀ a, e.Writes a → lineOf a ≠ ℓ) :
    Durable base (evs ++ evs') ℓ := by
  induction evs' generalizing evs with
  | nil => simpa using h
  | cons e evs' ih =>
    rw [List.append_cons]
    exact ih (h.snoc (he e List.mem_cons_self)) fun e' he' => he e' (List.mem_cons_of_mem _ he')

theorem flushed {ls : List ℕ} (h : Durable base evs ℓ) (he : ∀ e ∈ evs', ∀ a, e.Writes a → lineOf a ∈ ls) :
    Durable base (evs ++ (evs' ++ [.flush ls])) ℓ := by
  rw [← List.append_assoc]
  by_cases hℓ : ℓ ∈ ls
  · exact flush hℓ
  · exact (h.append fun e hev a hw heq => hℓ (heq ▸ he e hev a hw)).snoc (by simp)

/-- Every line that is durable before an orderly run is durable after it. -/
theorem orderly (h : Durable base evs ℓ) (ho : Orderly evs') : Durable base (evs ++ evs') ℓ := by
  have key : ∀ (evs' : List Event) (d : Option ℕ) (evs : List Event), Strict d evs' →
      Settled d evs' → (ℓ ∉ d → Durable base evs ℓ) → Durable base (evs ++ evs') ℓ := by
    intro evs'
    induction evs' with
    | nil =>
      intro d evs _ hd h
      obtain rfl : d = none := hd
      simpa using h (by simp)
    | cons e evs' ih =>
      intro d evs hs hd h
      rw [List.append_cons]
      cases e with
      | store a v =>
        refine ih _ _ hs.2 hd fun hℓ => (h fun hm => ?_).snoc fun b hb hbℓ => ?_
        · exact hℓ (by simpa using (hs.1 ℓ hm).symm)
        · obtain rfl : a = b := hb
          exact hℓ (by simpa using hbℓ)
      | flush ls =>
        refine ih _ _ hs hd fun hℓ => ?_
        by_cases hm : ℓ ∈ ls
        · exact Durable.flush hm
        · refine (h fun hd' => hℓ ?_).snoc (by simp)
          rw [Option.mem_def] at hd' ⊢
          simp [hd', Option.filter, hm]
  exact key evs' none evs ho.1 ho.2 fun _ => h

/-- A durable line after a crash in a run is as a prefix of the run left it. -/
theorem append_cut (h : Durable base evs ℓ) {img : Mem} (hi : CrashImage base (evs ++ evs') img) :
    ∃ kept lost, evs' = kept ++ lost ∧ (∀ e ∈ lost, ¬ e.Flushes ℓ) ∧
      ∀ a, lineOf a = ℓ → img a = applyAll kept (applyAll evs base) a := by
  rcases hi.append_cases ℓ with ⟨m₀, hm₀, hl, hag⟩ | hcut
  · exact ⟨[], evs', rfl, hl, fun a ha => (hag a ha).trans (h.image hm₀ ha)⟩
  · exact hcut

/-- A word of a durable line keeps its value in every crash until it is stored to. -/
theorem image_of_not_writes (h : Durable base evs ℓ) {img : Mem}
    (hi : CrashImage base (evs ++ evs') img) {a : ℕ} (ha : lineOf a = ℓ)
    (hw : ∀ e ∈ evs', ¬ e.Writes a) : img a = applyAll evs base a := by
  obtain ⟨kept, lost, rfl, -, hag⟩ := h.append_cut hi
  rw [hag a ha]
  exact applyAll_of_not_writes (fun e hm => hw e (List.mem_append_left _ hm)) _

end Durable

end PmemExamples.Persist
