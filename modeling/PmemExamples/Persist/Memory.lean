import Mathlib.Logic.Function.Basic
import Mathlib.Data.List.Basic
import Mathlib.Tactic

/-! # Memory behind a volatile cache

A memory is read and written in aligned 8-byte words; the unit in which it becomes durable is the
64-byte line. A run leaves a list of events (word stores and completed flushes). The memory a load
sees is the base image with every store applied. The image found after a power loss is weaker: each
line holds what it held at *some* moment since its last completed flush (`CrashImage`), so the stores
to one line survive in program order, different lines independently of each other. -/

namespace PmemExamples.Persist
set_option autoImplicit false

/-- Word contents by byte address; only multiples of 8 are ever used as addresses. -/
abbrev Mem := ℕ → ℕ

/-- One event of a run, in program order. -/
inductive Event where
  | store (addr val : ℕ)
  | flush (lines : List ℕ)
  deriving DecidableEq, Repr

/-- The cache line an address lies in. -/
def lineOf (addr : ℕ) : ℕ := addr / 64

namespace Event

def apply (m : Mem) : Event → Mem
  | .store a v => Function.update m a v
  | .flush _ => m

/-- The event stores to address `a`. -/
def Writes (a : ℕ) : Event → Prop
  | .store b _ => b = a
  | .flush _ => False

/-- The event completes a flush of line `ℓ`. -/
def Flushes (ℓ : ℕ) : Event → Prop
  | .store _ _ => False
  | .flush ls => ℓ ∈ ls

/-- The event stores to line `ℓ` or flushes it. -/
def Touches (ℓ : ℕ) : Event → Prop
  | .store b _ => lineOf b = ℓ
  | .flush ls => ℓ ∈ ls

@[simp] theorem writes_store (a b v : ℕ) : (store b v).Writes a ↔ b = a := Iff.rfl
@[simp] theorem writes_flush (a : ℕ) (ls : List ℕ) : ¬ (flush ls).Writes a := id
@[simp] theorem flushes_store (ℓ b v : ℕ) : ¬ (store b v).Flushes ℓ := id
@[simp] theorem flushes_flush (ℓ : ℕ) (ls : List ℕ) : (flush ls).Flushes ℓ ↔ ℓ ∈ ls := Iff.rfl
@[simp] theorem touches_store (ℓ b v : ℕ) : (store b v).Touches ℓ ↔ lineOf b = ℓ := Iff.rfl
@[simp] theorem touches_flush (ℓ : ℕ) (ls : List ℕ) : (flush ls).Touches ℓ ↔ ℓ ∈ ls := Iff.rfl

theorem Flushes.touches {e : Event} {ℓ : ℕ} (h : e.Flushes ℓ) : e.Touches ℓ := by
  cases e <;> simp_all

theorem Writes.touches {e : Event} {a : ℕ} (h : e.Writes a) : e.Touches (lineOf a) := by
  cases e with
  | store b v =>
    obtain rfl : b = a := h
    rfl
  | flush ls => exact absurd h (writes_flush a ls)

end Event

/-! ## Applying a run to a memory -/

/-- The memory loads see after the events. -/
def applyAll (evs : List Event) (m : Mem) : Mem := evs.foldl Event.apply m

@[simp] theorem applyAll_nil (m : Mem) : applyAll [] m = m := rfl

@[simp] theorem applyAll_store (a v : ℕ) (evs : List Event) (m : Mem) :
    applyAll (.store a v :: evs) m = applyAll evs (Function.update m a v) := rfl

@[simp] theorem applyAll_flush (ls : List ℕ) (evs : List Event) (m : Mem) :
    applyAll (.flush ls :: evs) m = applyAll evs m := rfl

theorem applyAll_cons (e : Event) (evs : List Event) (m : Mem) :
    applyAll (e :: evs) m = applyAll evs (e.apply m) := rfl

theorem applyAll_append (evs evs' : List Event) (m : Mem) :
    applyAll (evs ++ evs') m = applyAll evs' (applyAll evs m) := by
  simp [applyAll, List.foldl_append]

theorem applyAll_take_append (evs evs' : List Event) (m : Mem) (k : ℕ) :
    (k < evs.length ∧ applyAll ((evs ++ evs').take k) m = applyAll (evs.take k) m) ∨
    (evs.length ≤ k ∧ applyAll ((evs ++ evs').take k) m =
      applyAll (evs'.take (k - evs.length)) (applyAll evs m)) := by
  rcases Nat.lt_or_ge k evs.length with hk | hk
  · exact Or.inl ⟨hk, by rw [List.take_append_of_le_length (le_of_lt hk)]⟩
  · exact Or.inr ⟨hk, by rw [List.take_append, List.take_of_length_le hk, applyAll_append]⟩

theorem Event.apply_of_not_writes {e : Event} {a : ℕ} (h : ¬ e.Writes a) (m : Mem) :
    e.apply m a = m a := by
  cases e with
  | store b v => exact Function.update_of_ne (Ne.symm h) _ _
  | flush ls => rfl

theorem applyAll_of_not_writes {evs : List Event} {a : ℕ} (h : ∀ e ∈ evs, ¬ e.Writes a) (m : Mem) :
    applyAll evs m a = m a := by
  induction evs generalizing m with
  | nil => rfl
  | cons e evs ih =>
    rw [applyAll_cons, ih (fun e' he' => h e' (List.mem_cons_of_mem _ he')),
      Event.apply_of_not_writes (h e List.mem_cons_self)]

/-- What a run leaves in a word depends on the old memory only through that word. -/
theorem applyAll_congr_at (evs : List Event) {m m' : Mem} {a : ℕ} (h : m a = m' a) :
    applyAll evs m a = applyAll evs m' a := by
  induction evs generalizing m m' with
  | nil => exact h
  | cons e evs ih =>
    refine ih ?_
    cases e with
    | store b v =>
      by_cases hb : a = b
      · subst hb; simp [Event.apply]
      · simp [Event.apply, Function.update_of_ne hb, h]
    | flush ls => exact h

theorem applyAll_of_last_store {evs : List Event} {a v : ℕ} {m : Mem} (l r : List Event)
    (h : evs = l ++ .store a v :: r) (hr : ∀ e ∈ r, ¬ e.Writes a) : applyAll evs m a = v := by
  rw [h, applyAll_append, applyAll_store, applyAll_of_not_writes hr, Function.update_self]

/-! ## The stores of a run -/

/-- The stores of a run, flushes left out. -/
def storesOf : List Event → List (ℕ × ℕ)
  | [] => []
  | .store a v :: evs => (a, v) :: storesOf evs
  | .flush _ :: evs => storesOf evs

@[simp] theorem storesOf_nil : storesOf [] = [] := rfl
@[simp] theorem storesOf_store (a v : ℕ) (evs : List Event) :
    storesOf (.store a v :: evs) = (a, v) :: storesOf evs := rfl
@[simp] theorem storesOf_flush (ls : List ℕ) (evs : List Event) :
    storesOf (.flush ls :: evs) = storesOf evs := rfl

@[simp] theorem storesOf_append (evs evs' : List Event) :
    storesOf (evs ++ evs') = storesOf evs ++ storesOf evs' := by
  induction evs with
  | nil => rfl
  | cons e evs ih => cases e <;> simp [ih]

theorem applyAll_eq_of_storesOf {evs evs' : List Event} (h : storesOf evs = storesOf evs')
    (m : Mem) : applyAll evs m = applyAll evs' m := by
  have key : ∀ (es : List Event) (m : Mem),
      applyAll es m = (storesOf es).foldl (fun m s => Function.update m s.1 s.2) m := by
    intro es
    induction es with
    | nil => intro m; rfl
    | cons e es ih => intro m; cases e <;> simp [ih]
  rw [key, key, h]

/-- Stopping after some events is stopping after some stores, and the other way round. -/
theorem storesOf_take (evs : List Event) (k : ℕ) : ∃ n, storesOf (evs.take k) = (storesOf evs).take n := by
  obtain ⟨n, hn⟩ : storesOf (evs.take k) <+: storesOf evs :=
    ⟨storesOf (evs.drop k), by rw [← storesOf_append, List.take_append_drop]⟩
  exact ⟨(storesOf (evs.take k)).length, by rw [← hn, List.take_left']; rfl⟩

theorem exists_take_storesOf (evs : List Event) (n : ℕ) :
    ∃ k, storesOf (evs.take k) = (storesOf evs).take n := by
  induction evs generalizing n with
  | nil => exact ⟨0, by simp⟩
  | cons e evs ih =>
    cases e with
    | store a v =>
      cases n with
      | zero => exact ⟨0, by simp⟩
      | succ n =>
        obtain ⟨k, hk⟩ := ih n
        exact ⟨k + 1, by simp [hk]⟩
    | flush ls =>
      obtain ⟨k, hk⟩ := ih n
      exact ⟨k + 1, by simp [hk]⟩

theorem mem_storesOf {evs : List Event} {a v : ℕ} : (a, v) ∈ storesOf evs ↔ .store a v ∈ evs := by
  induction evs with
  | nil => simp
  | cons e evs ih => cases e <;> simp [ih]

theorem applyAll_eq_or_store (evs : List Event) (m : Mem) (a : ℕ) :
    applyAll evs m a = m a ∨ .store a (applyAll evs m a) ∈ evs := by
  induction evs generalizing m with
  | nil => exact Or.inl rfl
  | cons e evs ih =>
    rw [applyAll_cons]
    rcases ih (e.apply m) with h | h
    · rw [h]
      cases e with
      | store b v =>
        by_cases hab : a = b
        · subst hab
          right
          rw [show (Event.store a v).apply m a = v from Function.update_self ..]
          exact List.mem_cons_self
        · exact Or.inl (Function.update_of_ne hab ..)
      | flush ls => exact Or.inl rfl
    · exact Or.inr (List.mem_cons_of_mem _ h)

theorem applyAll_of_store {evs : List Event} {a v : ℕ} (h : .store a v ∈ evs)
    (hall : ∀ v', .store a v' ∈ evs → v' = v) (m : Mem) : applyAll evs m a = v := by
  obtain ⟨l, r, rfl⟩ := List.append_of_mem h
  rw [applyAll_append, applyAll_store]
  rcases applyAll_eq_or_store r (Function.update (applyAll l m) a v) a with h | h
  · rw [h, Function.update_self]
  · exact hall _ (by simp [h])

/-! ## Crash images -/

/-- A memory found after a crash: every line holds what it held at some moment since the last
completed flush of that line. -/
def CrashImage (base : Mem) (evs : List Event) (img : Mem) : Prop :=
  ∀ ℓ, ∃ kept lost, evs = kept ++ lost ∧ (∀ e ∈ lost, ¬ e.Flushes ℓ) ∧
    ∀ a, lineOf a = ℓ → img a = applyAll kept base a

theorem CrashImage.all (base : Mem) (evs : List Event) : CrashImage base evs (applyAll evs base) :=
  fun _ => ⟨evs, [], (List.append_nil evs).symm, by simp, fun _ _ => rfl⟩

theorem crashImage_nil {base img : Mem} : CrashImage base [] img ↔ img = base := by
  constructor
  · intro h
    funext a
    obtain ⟨kept, lost, he, -, hag⟩ := h (lineOf a)
    obtain ⟨rfl, rfl⟩ := List.nil_eq_append_iff.mp he
    simpa using hag a rfl
  · rintro rfl
    exact CrashImage.all _ []

theorem CrashImage.piecewise {base : Mem} {evs : List Event} {m m' img : Mem}
    (hm : CrashImage base evs m) (hm' : CrashImage base evs m')
    (h : ∀ ℓ, (∀ a, lineOf a = ℓ → img a = m a) ∨ (∀ a, lineOf a = ℓ → img a = m' a)) :
    CrashImage base evs img := by
  intro ℓ
  rcases h ℓ with hℓ | hℓ
  · obtain ⟨kept, lost, he, hl, hag⟩ := hm ℓ
    exact ⟨kept, lost, he, hl, fun a ha => (hℓ a ha).trans (hag a ha)⟩
  · obtain ⟨kept, lost, he, hl, hag⟩ := hm' ℓ
    exact ⟨kept, lost, he, hl, fun a ha => (hℓ a ha).trans (hag a ha)⟩

theorem CrashImage.of_line {base : Mem} {evs kept lost : List Event} {ℓ : ℕ} (he : evs = kept ++ lost)
    (hl : ∀ e ∈ lost, ¬ e.Flushes ℓ) : CrashImage base evs
      (fun x => if lineOf x = ℓ then applyAll kept base x else applyAll evs base x) := by
  intro k
  by_cases hk : k = ℓ
  · subst hk
    exact ⟨kept, lost, he, hl, fun x hx => if_pos hx⟩
  · refine ⟨evs, [], by simp, by simp, fun x hx => if_neg ?_⟩
    rw [hx]
    exact hk

/-- A line after a crash in a run: as a crash before the run could leave it, with no flush of it in the
run, or as a prefix of the run left it. -/
theorem CrashImage.append_cases {base img : Mem} {tr evs : List Event} (h : CrashImage base (tr ++ evs) img)
    (ℓ : ℕ) : (∃ m₀, CrashImage base tr m₀ ∧ (∀ e ∈ evs, ¬ e.Flushes ℓ) ∧
        ∀ a, lineOf a = ℓ → img a = m₀ a) ∨
      ∃ kept lost, evs = kept ++ lost ∧ (∀ e ∈ lost, ¬ e.Flushes ℓ) ∧
        ∀ a, lineOf a = ℓ → img a = applyAll kept (applyAll tr base) a := by
  obtain ⟨kept, lost, he, hl, hag⟩ := h ℓ
  rcases List.append_eq_append_iff.mp he with ⟨more, rfl, hrest⟩ | ⟨more, hkept, rfl⟩
  · refine Or.inr ⟨more, lost, hrest, hl, fun a ha => ?_⟩
    rw [hag a ha, applyAll_append]
  · refine Or.inl ⟨_, CrashImage.of_line hkept fun e hm => hl e (List.mem_append_left _ hm),
      fun e hm => hl e (List.mem_append_right _ hm), fun a ha => ?_⟩
    rw [hag a ha, if_pos ha]

/-- A line is durable when every crash leaves it as loads see it. -/
def Durable (base : Mem) (evs : List Event) (ℓ : ℕ) : Prop :=
  ∀ img, CrashImage base evs img → ∀ a, lineOf a = ℓ → img a = applyAll evs base a

/-- After one more event a crash finds, on each line, an older content or the newest one. -/
theorem CrashImage.snoc {base img : Mem} {evs : List Event} {e : Event}
    (h : CrashImage base (evs ++ [e]) img) (ℓ : ℕ) :
    (∀ a, lineOf a = ℓ → img a = applyAll (evs ++ [e]) base a) ∨
    (¬ e.Flushes ℓ ∧ ∃ kept lost, evs = kept ++ lost ∧ (∀ e ∈ lost, ¬ e.Flushes ℓ) ∧
      ∀ a, lineOf a = ℓ → img a = applyAll kept base a) := by
  obtain ⟨kept, lost, he, hl, hag⟩ := h ℓ
  rcases List.eq_nil_or_concat lost with rfl | ⟨lost', e', rfl⟩
  · rw [List.append_nil] at he
    exact Or.inl (fun a ha => by rw [he]; exact hag a ha)
  · rw [List.concat_eq_append, ← List.append_assoc] at he
    obtain ⟨hevs, hee⟩ := List.append_inj' he rfl
    obtain rfl : e = e' := by simpa using hee
    exact Or.inr ⟨hl e (by simp), kept, lost', hevs, fun x hx => hl x (by simp [hx]), hag⟩

end PmemExamples.Persist
