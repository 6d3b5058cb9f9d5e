import PmemExamples.Persist.Program

/-! # Publishing

Data is stored and flushed, then one word is stored that makes it count, and flushed too. A crash leaves either
that word as it was, whatever it leaves of the data, or the new word with all of the data. -/

namespace PmemExamples.Persist
set_option autoImplicit false

/-- The events of `data`, a flush of `ls`, and then the word at `c`. -/
def publishEvents (data : List Event) (ls : List ℕ) (c v : ℕ) (ls' : List ℕ) : List Event :=
  data ++ [.flush ls] ++ [.store c v, .flush ls']

theorem applyAll_publishEvents (data : List Event) (ls : List ℕ) (c v : ℕ) (ls' : List ℕ) (m : Mem) :
    applyAll (publishEvents data ls c v ls') m = Function.update (applyAll data m) c v := by
  rw [publishEvents, applyAll_append, applyAll_append, applyAll_flush, applyAll_nil, applyAll_store, applyAll_flush,
    applyAll_nil]

section Publish
variable {base img : Mem} {tr data : List Event} {ls ls' : List ℕ} {c v : ℕ}

theorem durable_store {ℓ : ℕ} (h : Durable base tr ℓ) (hc : lineOf c ∈ ls') :
    Durable base (tr ++ [.store c v, .flush ls']) ℓ := by
  have hcommit : ∀ e ∈ [Event.store c v], ∀ a, e.Writes a → lineOf a ∈ ls' := by
    intro e he a ha
    obtain rfl := List.mem_singleton.mp he
    obtain rfl : c = a := ha
    exact hc
  exact h.flushed hcommit

theorem durable_publish {ℓ : ℕ} (h : Durable base tr ℓ) (hls : ∀ e ∈ data, ∀ a, e.Writes a → lineOf a ∈ ls)
    (hc : lineOf c ∈ ls') : Durable base (tr ++ publishEvents data ls c v ls') ℓ := by
  rw [publishEvents, ← List.append_assoc]
  exact durable_store (h.flushed hls) hc

/-- A crash among the data or their flush leaves of each word the old value or one that was stored. -/
theorem crash_unpublished {k : ℕ} (h : ∀ ℓ, Durable base tr ℓ)
    (hi : CrashImage base (tr ++ (data ++ [Event.flush ls]).take k) img) (a : ℕ) :
    img a = applyAll tr base a ∨ .store a (img a) ∈ data := by
  obtain ⟨kept, lost, hk, -, hag⟩ := (h (lineOf a)).append_cut hi
  rw [hag a rfl]
  apply (applyAll_eq_or_store kept _ a).imp_right
  intro hs
  have hmem : .store a (applyAll kept (applyAll tr base) a) ∈ data ++ [.flush ls] :=
    List.mem_of_mem_take (hk ▸ List.mem_append_left lost hs)
  simpa using hmem

theorem crash_published {k : ℕ} (h : ∀ ℓ, Durable base tr ℓ)
    (hi : CrashImage base (tr ++ [Event.store c v, .flush ls'].take k) img) :
    img = applyAll tr base ∨ img = Function.update (applyAll tr base) c v := by
  have hcut : ∀ a, img a = applyAll tr base a ∨ a = c ∧ img a = v := by
    intro a
    obtain ⟨kept, lost, hk, -, hag⟩ := (h (lineOf a)).append_cut hi
    rw [hag a rfl]
    apply (applyAll_eq_or_store kept _ a).imp_right
    intro hs
    have hmem : .store a (applyAll kept (applyAll tr base) a) ∈ [Event.store c v, .flush ls'] :=
      List.mem_of_mem_take (hk ▸ List.mem_append_left lost hs)
    simpa using hmem
  have hrest : ∀ a, a ≠ c → img a = applyAll tr base a := fun a ha => (hcut a).resolve_right fun hv => ha hv.1
  rcases hcut c with hold | ⟨-, hnew⟩
  · apply Or.inl
    funext a
    by_cases ha : a = c
    · rw [ha, hold]
    · exact hrest a ha
  · apply Or.inr
    funext a
    by_cases ha : a = c
    · rw [ha, hnew, Function.update_self]
    · rw [hrest a ha, Function.update_of_ne ha]

theorem publish_crash {k : ℕ} (h : ∀ ℓ, Durable base tr ℓ) (hls : ∀ e ∈ data, ∀ a, e.Writes a → lineOf a ∈ ls)
    (hi : CrashImage base (tr ++ (publishEvents data ls c v ls').take k) img) :
    (∀ a, img a = applyAll tr base a ∨ .store a (img a) ∈ data) ∨
      img = Function.update (applyAll data (applyAll tr base)) c v := by
  rw [publishEvents, List.take_append, ← List.append_assoc] at hi
  by_cases hk : k ≤ (data ++ [Event.flush ls]).length
  · rw [Nat.sub_eq_zero_of_le hk, List.take_zero, List.append_nil] at hi
    exact Or.inl (crash_unpublished h hi)
  · rw [List.take_of_length_le (Nat.le_of_not_le hk)] at hi
    have hdata : applyAll (tr ++ (data ++ [.flush ls])) base = applyAll data (applyAll tr base) := by
      rw [applyAll_append, applyAll_append, applyAll_flush, applyAll_nil]
    rcases crash_published (fun ℓ => (h ℓ).flushed hls) hi with himg | himg
    · apply Or.inl
      intro a
      rw [himg, hdata]
      exact applyAll_eq_or_store data _ a
    · exact Or.inr (hdata ▸ himg)

end Publish

namespace Runs
variable {α : Type} {prog : Prog α} {b : α} {w : World} {data : List Event} {ls ls' : List ℕ} {c v : ℕ} {img : Mem}

theorem publish_clean (h : Runs true prog w.mem b (publishEvents data ls c v ls')) (hw : w.Clean)
    (hls : ∀ e ∈ data, ∀ a, e.Writes a → lineOf a ∈ ls) (hc : lineOf c ∈ ls') : (prog w).2.Clean := by
  intro ℓ
  rw [h.trace_exact rfl (Or.inl rfl), (h.extends_world rfl).1]
  exact durable_publish (hw ℓ) hls hc

theorem publish_crash (h : Runs true prog w.mem b (publishEvents data ls c v ls')) (hw : w.Clean)
    (hls : ∀ e ∈ data, ∀ a, e.Writes a → lineOf a ∈ ls) (hcr : CrashDuring prog w img) :
    (∀ a, img a = w.mem a ∨ .store a (img a) ∈ data) ∨ img = Function.update (applyAll data w.mem) c v := by
  obtain ⟨k, hk⟩ := hcr
  rw [h.trace_exact rfl (Or.inl rfl), List.take_length_add_append] at hk
  exact Persist.publish_crash hw hls hk

theorem store_clean (h : Runs true prog w.mem b [.store c v, .flush ls']) (hw : w.Clean) (hc : lineOf c ∈ ls') :
    (prog w).2.Clean := by
  intro ℓ
  rw [h.trace_exact rfl (Or.inl rfl), (h.extends_world rfl).1]
  exact durable_store (hw ℓ) hc

theorem store_crash (h : Runs true prog w.mem b [.store c v, .flush ls']) (hw : w.Clean)
    (hcr : CrashDuring prog w img) : img = w.mem ∨ img = Function.update w.mem c v := by
  obtain ⟨k, hk⟩ := hcr
  rw [h.trace_exact rfl (Or.inl rfl), List.take_length_add_append] at hk
  exact crash_published hw hk

end Runs

end PmemExamples.Persist
