import PmemExamples.Persist.Discipline

/-! # Programs over a persistent memory

A process maps a durable image and runs against it: `World` is that image and the events issued so
far, from which a load is answered. A program either returns, stops in a fatal error, or runs out of
loop fuel (`hang`); whichever it does, the events it has issued stay in the world. An environment
supplies the values of one externally set flag (`epoch`), and `relaxed` selects the build in which
some flushes may be skipped. -/

namespace PmemExamples.Persist
set_option autoImplicit false

/-- A running process. -/
structure World where
  /-- the durable image it mapped -/
  base : Mem
  /-- the events since, oldest first -/
  trace : List Event
  /-- flushes may be skipped in this build -/
  relaxed : Bool
  /-- the values the external flag will show at its next reads -/
  epoch : ℕ → Bool

namespace World

def mem (w : World) : Mem := applyAll w.trace w.base

/-- A process that has just mapped `m`. -/
def boot (m : Mem) (relaxed : Bool) (epoch : ℕ → Bool) : World := ⟨m, [], relaxed, epoch⟩

def emit (w : World) (e : Event) : World := { w with trace := w.trace ++ [e] }

/-- No flush is skipped from here on. -/
def Persisting (w : World) : Prop := w.relaxed = false ∨ ∀ n, w.epoch n = true

@[simp] theorem mem_boot (m : Mem) (b : Bool) (epoch : ℕ → Bool) : (boot m b epoch).mem = m := rfl

end World

inductive Outcome (α : Type) where
  | ok (a : α)
  | fatal (msg : String)
  | hang
  deriving DecidableEq

/-- A program: its outcome and the world it leaves. -/
def Prog (α : Type) : Type := World → Outcome α × World

namespace Prog
variable {α β : Type}

protected def pure (a : α) : Prog α := fun w => (.ok a, w)

protected def bind (p : Prog α) (f : α → Prog β) : Prog β := fun w =>
  match p w with
  | (.ok a, w') => f a w'
  | (.fatal s, w') => (.fatal s, w')
  | (.hang, w') => (.hang, w')

instance : Monad Prog where
  pure := Prog.pure
  bind := Prog.bind

/-- A word load. -/
def load (a : ℕ) : Prog ℕ := fun w => (.ok (w.mem a), w)

/-- An 8-byte store. -/
def store (a v : ℕ) : Prog Unit := fun w => (.ok (), w.emit (.store a v))

/-- A completed flush of the given lines. -/
def flush (ls : List ℕ) : Prog Unit := fun w => (.ok (), w.emit (.flush ls))

def fatal (msg : String) : Prog α := fun w => (.fatal msg, w)

/-- The loop has used up its fuel. -/
def hang : Prog α := fun w => (.hang, w)

/-- Read the external flag. -/
def readEpoch : Prog Bool := fun w => (.ok (w.epoch 0), { w with epoch := fun n => w.epoch (n + 1) })

/-- Is this the build that may skip flushes? -/
def isRelaxed : Prog Bool := fun w => (.ok w.relaxed, w)

@[simp] theorem pure_apply (a : α) (w : World) : (pure a : Prog α) w = (.ok a, w) := rfl
@[simp] theorem load_apply (a : ℕ) (w : World) : load a w = (.ok (w.mem a), w) := rfl
@[simp] theorem store_apply (a v : ℕ) (w : World) :
    store a v w = (.ok (), w.emit (.store a v)) := rfl
@[simp] theorem flush_apply (ls : List ℕ) (w : World) :
    flush ls w = (.ok (), w.emit (.flush ls)) := rfl
@[simp] theorem readEpoch_apply (w : World) :
    readEpoch w = (.ok (w.epoch 0), { w with epoch := fun n => w.epoch (n + 1) }) := rfl
@[simp] theorem isRelaxed_apply (w : World) : isRelaxed w = (.ok w.relaxed, w) := rfl

theorem bind_apply (p : Prog α) (f : α → Prog β) (w : World) :
    (p >>= f) w = match p w with
      | (.ok a, w') => f a w'
      | (.fatal s, w') => (.fatal s, w')
      | (.hang, w') => (.hang, w') := rfl

theorem bind_ok {p : Prog α} {f : α → Prog β} {w w' : World} {a : α} (h : p w = (.ok a, w')) :
    (p >>= f) w = f a w' := by
  rw [bind_apply, h]

end Prog

/-! ## Traces of terminating runs -/

/-- Started on any world whose memory is `m`, the program returns `a` and issues the events `evs`.
With `exact = false` the flushes are those of a world that skips none; any other world then issues
the same stores. -/
def Runs {α : Type} (exact : Bool) (p : Prog α) (m : Mem) (a : α) (evs : List Event) : Prop :=
  ∀ w : World, w.mem = m → ∃ w' evs', p w = (.ok a, w') ∧ w'.base = w.base ∧
    (w.Persisting → w'.Persisting) ∧ w'.trace = w.trace ++ evs' ∧ storesOf evs' = storesOf evs ∧
    (exact = true ∨ w.Persisting → evs' = evs)

namespace Runs
variable {α β : Type} {x : Bool} {p : Prog α} {f : α → Prog β} {m : Mem} {a : α} {b : β}
  {evs evs' : List Event}

theorem pure (x : Bool) (m : Mem) (a : α) : Runs x (Pure.pure a) m a [] :=
  fun w _ => ⟨w, [], rfl, rfl, id, by simp, rfl, fun _ => rfl⟩

theorem bind (hp : Runs x p m a evs) (hf : Runs x (f a) (applyAll evs m) b evs') :
    Runs x (p >>= f) m b (evs ++ evs') := by
  intro w hw
  obtain ⟨w₁, e₁, h₁, hb₁, hr₁, ht₁, hs₁, hx₁⟩ := hp w hw
  have hw₁ : w₁.mem = applyAll evs m := by
    rw [World.mem, ht₁, hb₁, applyAll_append, applyAll_eq_of_storesOf hs₁]
    exact congrArg _ hw
  obtain ⟨w₂, e₂, h₂, hb₂, hr₂, ht₂, hs₂, hx₂⟩ := hf w₁ hw₁
  refine ⟨w₂, e₁ ++ e₂, by rw [Prog.bind_ok h₁, h₂], hb₂.trans hb₁, hr₂ ∘ hr₁, ?_, ?_, ?_⟩
  · rw [ht₂, ht₁, List.append_assoc]
  · rw [storesOf_append, storesOf_append, hs₁, hs₂]
  · intro h
    rw [hx₁ h, hx₂ (h.imp_right hr₁)]

theorem seq {q : Prog β} {p : Prog Unit} (hp : Runs x p m () evs)
    (hq : Runs x q (applyAll evs m) b evs') : Runs x (p >>= fun _ => q) m b (evs ++ evs') :=
  hp.bind hq

theorem bind_silent (hp : Runs x p m a []) (hf : Runs x (f a) m b evs) :
    Runs x (p >>= f) m b evs :=
  hp.bind hf

theorem load (x : Bool) (m : Mem) (c : ℕ) : Runs x (Prog.load c) m (m c) [] :=
  fun w hw => ⟨w, [], by rw [Prog.load_apply, hw], rfl, id, by simp, rfl, fun _ => rfl⟩

theorem store (x : Bool) (m : Mem) (c v : ℕ) : Runs x (Prog.store c v) m () [.store c v] :=
  fun _ _ => ⟨_, [.store c v], rfl, rfl, id, rfl, rfl, fun _ => rfl⟩

theorem flush (x : Bool) (m : Mem) (ls : List ℕ) : Runs x (Prog.flush ls) m () [.flush ls] :=
  fun _ _ => ⟨_, [.flush ls], rfl, rfl, id, rfl, rfl, fun _ => rfl⟩

theorem weaken (h : Runs x p m a evs) : Runs false p m a evs := by
  intro w hw
  obtain ⟨w', e, h1, h2, h3, h4, h5, h6⟩ := h w hw
  exact ⟨w', e, h1, h2, h3, h4, h5, fun hx => h6 (by simpa using Or.inr (by simpa using hx))⟩

theorem of_eq {q : Prog α} (h : Runs x p m a evs) (hq : ∀ w : World, w.mem = m → q w = p w) : Runs x q m a evs := by
  intro w hw
  rw [hq w hw]
  exact h w hw

theorem load_bind {g : ℕ → Prog β} {c v : ℕ} (hv : m c = v) (hf : Runs x (g v) m b evs) :
    Runs x (Prog.load c >>= g) m b evs := by
  subst hv
  exact (Runs.load x m c).bind_silent hf

theorem store_bind {g : Unit → Prog β} {c v : ℕ}
    (hf : Runs x (g ()) (Function.update m c v) b evs) :
    Runs x (Prog.store c v >>= g) m b (.store c v :: evs) :=
  (Runs.store x m c v).bind hf

theorem mem_eq (h : Runs x p m a evs) {w : World} (hw : w.mem = m) :
    (p w).1 = .ok a ∧ (p w).2.mem = applyAll evs m := by
  obtain ⟨w', e, h1, h2, -, h4, h5, -⟩ := h w hw
  rw [h1]
  refine ⟨rfl, ?_⟩
  rw [World.mem, h4, h2, applyAll_append, applyAll_eq_of_storesOf h5]
  exact congrArg _ hw

theorem bind_run {w w₁ : World} (hp : Runs x p w.mem a evs) (hrun : p w = (.ok a, w₁))
    (hf : Runs x (f a) w₁.mem b evs') : Runs x (p >>= f) w.mem b (evs ++ evs') := by
  have hmem := (hp.mem_eq rfl).2
  rw [hrun] at hmem
  exact hp.bind (hmem ▸ hf)

/-- The trace of a terminating run that skips no flush, in this world or in any. -/
theorem trace_exact (h : Runs x p m a evs) {w : World} (hw : w.mem = m) (hx : x = true ∨ w.Persisting) :
    (p w).2.trace = w.trace ++ evs := by
  obtain ⟨w', e, h1, -, -, h4, -, h6⟩ := h w hw
  rw [h1, h4, h6 hx]

theorem trace_eq (h : Runs x p m a evs) {w : World} (hw : w.mem = m) (hr : w.Persisting) :
    (p w).2.trace = w.trace ++ evs ∧ (p w).2.base = w.base ∧ (p w).2.Persisting := by
  refine ⟨h.trace_exact hw (Or.inr hr), ?_⟩
  obtain ⟨w', e, h1, h2, h3, -⟩ := h w hw
  rw [h1]
  exact ⟨h2, h3 hr⟩

end Runs

/-! ## Stopping and crashing in the middle of a run -/

/-- The process stopped after some of the stores of `p`, all of them in memory. -/
def StopDuring {α : Type} (p : Prog α) (w : World) (m : Mem) : Prop :=
  ∃ k, m = applyAll ((p w).2.trace.take (w.trace.length + k)) w.base

/-- Power was lost somewhere in `p`. -/
def CrashDuring {α : Type} (p : Prog α) (w : World) (img : Mem) : Prop :=
  ∃ k, CrashImage w.base ((p w).2.trace.take (w.trace.length + k)) img

/-- Nothing a crash could lose. -/
def World.Clean (w : World) : Prop := ∀ ℓ, Durable w.base w.trace ℓ

theorem World.Clean.image {w : World} (h : w.Clean) {img : Mem}
    (hi : CrashImage w.base w.trace img) : img = w.mem :=
  funext fun _ => (h _).image hi rfl

/-- The world `w'` is `w` after some more events. -/
def World.Extends (w w' : World) : Prop := w'.base = w.base ∧ ∃ evs, w'.trace = w.trace ++ evs

theorem World.Extends.refl (w : World) : w.Extends w := ⟨rfl, [], by simp⟩

theorem World.Extends.trans {w w' w'' : World} (h : w.Extends w') (h' : w'.Extends w'') :
    w.Extends w'' := by
  obtain ⟨hb, evs, ht⟩ := h
  obtain ⟨hb', evs', ht'⟩ := h'
  exact ⟨hb'.trans hb, evs ++ evs', by rw [ht', ht, List.append_assoc]⟩

/-- A crash in a sequence is a crash in its first part or in its second. -/
theorem crashDuring_bind {α β : Type} {p : Prog α} {f : α → Prog β} {a : α} {w w₁ : World} {img : Mem}
    (hp : p w = (.ok a, w₁)) (h₁ : w.Extends w₁) (h₂ : w₁.Extends (f a w₁).2)
    (hc : CrashDuring (p >>= f) w img) : CrashDuring p w img ∨ CrashDuring (f a) w₁ img := by
  obtain ⟨k, hk⟩ := hc
  obtain ⟨hb, evs, ht⟩ := h₁
  obtain ⟨-, evs', ht'⟩ := h₂
  rw [Prog.bind_ok hp] at hk
  by_cases hlen : k ≤ evs.length
  · refine Or.inl ⟨k, ?_⟩
    rw [ht', ht, List.append_assoc, List.take_length_add_append,
      List.take_append_of_le_length hlen] at hk
    rw [hp, ht, List.take_length_add_append]
    exact hk
  · refine Or.inr ⟨k - evs.length, ?_⟩
    rw [hb, ht, List.length_append,
      show w.trace.length + evs.length + (k - evs.length) = w.trace.length + k by omega]
    exact hk

/-- A crash in the second part of a sequence is a crash in the sequence. -/
theorem crashDuring_bind_right {α β : Type} {p : Prog α} {f : α → Prog β} {a : α} {w w₁ : World}
    {img : Mem} (hp : p w = (.ok a, w₁)) (h₁ : w.Extends w₁) (hc : CrashDuring (f a) w₁ img) :
    CrashDuring (p >>= f) w img := by
  obtain ⟨k, hk⟩ := hc
  obtain ⟨hb, evs, ht⟩ := h₁
  refine ⟨evs.length + k, ?_⟩
  rw [Prog.bind_ok hp]
  rwa [hb, ht, List.length_append, Nat.add_assoc] at hk

namespace Runs
variable {α β : Type} {x : Bool} {p : Prog α} {f : α → Prog β} {m : Mem} {a : α} {b : β}
  {evs evs' : List Event} {w : World} {img : Mem}

theorem durable (h : Runs x p w.mem a evs) (hw : w.Persisting) (ho : Orderly evs) {ℓ : ℕ}
    (hd : Durable w.base w.trace ℓ) : Durable (p w).2.base (p w).2.trace ℓ := by
  obtain ⟨ht, hb, -⟩ := h.trace_eq rfl hw
  rw [ht, hb]
  exact hd.orderly ho

theorem clean (h : Runs x p w.mem a evs) (hw : w.Persisting) (ho : Orderly evs) (hc : w.Clean) :
    (p w).2.Clean := fun ℓ => h.durable hw ho (hc ℓ)

/-- Without a store nothing becomes dirty, whatever flushes are skipped. -/
theorem clean_of_no_stores (h : Runs x p m a evs) (hm : w.mem = m) (hs : storesOf evs = []) (hc : w.Clean) :
    (p w).2.Clean := by
  obtain ⟨w', evs', hrun, hbase, -, htrace, hstores, -⟩ := h w hm
  intro ℓ
  rw [hrun, hbase, htrace]
  refine (hc ℓ).append fun ev hev a hw => ?_
  cases ev with
  | store b v =>
    have := mem_storesOf.mpr hev
    rw [hstores, hs] at this
    cases this
  | flush ls => exact absurd hw (Event.writes_flush _ _)

theorem extends_world (h : Runs x p m a evs) (hm : w.mem = m) : w.Extends (p w).2 := by
  obtain ⟨w', e, h1, h2, -, h4, -⟩ := h w hm
  rw [h1]
  exact ⟨h2, e, h4⟩

theorem stop (h : Runs x p w.mem a evs) {m : Mem} (hs : StopDuring p w m) :
    ∃ j, m = applyAll (evs.take j) w.mem := by
  obtain ⟨k, rfl⟩ := hs
  obtain ⟨w', evs', hrun, -, -, htrace, hstores, -⟩ := h w rfl
  obtain ⟨n, hn⟩ := storesOf_take evs' k
  obtain ⟨j, hj⟩ := exists_take_storesOf evs n
  refine ⟨j, ?_⟩
  rw [hrun, htrace, List.take_length_add_append, applyAll_append]
  exact applyAll_eq_of_storesOf (by rw [hn, hj, hstores]) _

/-- A word after a crash: as a crash before the program could leave it, or some store of the program put it there. -/
theorem crash_word (h : Runs x p w.mem a evs) (hc : CrashDuring p w img) {c : ℕ} {P : ℕ → Prop}
    (h₀ : ∀ m₀, CrashImage w.base w.trace m₀ → P (m₀ c)) (hs : ∀ v, .store c v ∈ evs → P v) : P (img c) := by
  obtain ⟨k, hk⟩ := hc
  obtain ⟨w', evs', hrun, -, -, htrace, hstores, -⟩ := h w rfl
  rw [hrun, htrace, List.take_length_add_append] at hk
  have hstore : ∀ {kept lost : List Event} {v : ℕ}, evs'.take k = kept ++ lost → .store c v ∈ kept → P v := by
    intro kept lost v hkept hv
    refine hs v (mem_storesOf.mp ?_)
    rw [← hstores]
    exact mem_storesOf.mpr (List.mem_of_mem_take (hkept ▸ List.mem_append_left lost hv))
  rcases hk.append_cases (lineOf c) with ⟨m₀, hm₀, -, hag⟩ | ⟨kept, lost, hkept, -, hag⟩
  · rw [hag c rfl]
    exact h₀ m₀ hm₀
  · rw [hag c rfl]
    rcases applyAll_eq_or_store kept (applyAll w.trace w.base) c with hold | hnew
    · rw [hold]
      exact h₀ _ (CrashImage.all _ _)
    · exact hstore hkept hnew

/-- A word of a durable line that the program does not store to survives a crash. -/
theorem crash_unwritten (h : Runs x p w.mem a evs) (hc : CrashDuring p w img) {c : ℕ}
    (hd : Durable w.base w.trace (lineOf c)) (hn : ∀ e ∈ evs, ¬ e.Writes c) : img c = w.mem c :=
  h.crash_word (P := fun v => v = w.mem c) hc (fun _ hm₀ => hd.image hm₀ rfl) fun _ hv => absurd rfl (hn _ hv)

/-- What a crash right after the program leaves, a crash in it may have left. -/
theorem crash_after (h : Runs x p w.mem a evs) (hc : CrashImage (p w).2.base (p w).2.trace img) :
    CrashDuring p w img := by
  obtain ⟨hb, evs', ht⟩ := h.extends_world rfl
  refine ⟨evs'.length, ?_⟩
  rw [← hb, ht, List.take_of_length_le (by simp), ← ht]
  exact hc

end Runs

/-! ## Crash triples -/

/-- Run from `w`, the program returns with `post`, and a crash in it leaves memory with `crash`. -/
structure Survives {α : Type} (w : World) (prog : Prog α) (crash : Mem → Prop)
    (post : α → World → Prop) : Prop where
  crash : ∀ img, CrashDuring prog w img → crash img
  returns : ∃ a w', prog w = (.ok a, w') ∧ w.Extends w' ∧ post a w'

namespace Survives
variable {α β : Type} {w : World} {prog : Prog α} {f : α → Prog β} {crash crash' : Mem → Prop}
  {post post' : α → World → Prop} {post₂ : β → World → Prop}

theorem mono (h : Survives w prog crash post) (hc : ∀ img, crash img → crash' img)
    (hp : ∀ a w', post a w' → post' a w') : Survives w prog crash' post' := by
  obtain ⟨hcrash, a, w', hrun, hext, hpost⟩ := h
  exact ⟨fun img hi => hc img (hcrash img hi), a, w', hrun, hext, hp a w' hpost⟩

theorem pure (a : α) (hc : ∀ img, CrashImage w.base w.trace img → crash img) (hp : post a w) :
    Survives w (Pure.pure a) crash post := by
  refine ⟨?_, a, w, rfl, World.Extends.refl w, hp⟩
  rintro img ⟨k, hk⟩
  refine hc img ?_
  rwa [show ((Pure.pure a : Prog α) w).2 = w from rfl, List.take_of_length_le (by omega)] at hk

theorem bind (h : Survives w prog crash post)
    (hf : ∀ a w', post a w' → Survives w' (f a) crash post₂) : Survives w (prog >>= f) crash post₂ := by
  obtain ⟨hcrash, a, w₁, hrun, hext, hpost⟩ := h
  obtain ⟨hcrash', b, w₂, hrun', hext', hpost'⟩ := hf a w₁ hpost
  refine ⟨fun img hi => ?_, b, w₂, by rw [Prog.bind_ok hrun, hrun'], hext.trans hext', hpost'⟩
  rcases crashDuring_bind hrun hext (by rw [hrun']; exact hext') hi with h | h
  · exact hcrash img h
  · exact hcrash' img h

theorem bind_run {a : α} {w₁ : World} (h : Survives w prog crash post) (hrun : prog w = (.ok a, w₁))
    (hf : Survives w₁ (f a) crash post₂) : Survives w (prog >>= f) crash post₂ := by
  obtain ⟨hcrash, a', w', hrun', hext, -⟩ := h
  obtain ⟨ha, rfl⟩ := Prod.mk.inj (hrun'.symm.trans hrun)
  obtain rfl := Outcome.ok.inj ha
  have hthis : Survives w prog crash fun b v => b = a' ∧ v = w' := ⟨hcrash, a', w', hrun', hext, rfl, rfl⟩
  refine hthis.bind ?_
  rintro _ _ ⟨rfl, rfl⟩
  exact hf

theorem load_bind {g : ℕ → Prog β} {a v : ℕ} (hv : w.mem a = v) (h : Survives w (g v) crash post₂) :
    Survives w (Prog.load a >>= g) crash post₂ := by
  subst hv
  have hload : (Prog.load a >>= g) w = g (w.mem a) w := Prog.bind_ok (Prog.load_apply a w)
  obtain ⟨hcrash, b, w', hrun, hpost⟩ := h
  exact ⟨fun img ⟨k, hk⟩ => hcrash img ⟨k, hload ▸ hk⟩, b, w', hload.trans hrun, hpost⟩

end Survives

end PmemExamples.Persist
