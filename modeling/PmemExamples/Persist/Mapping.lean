import PmemExamples.Persist.Program

/-! # Mapping a file

A process sees the file at the address `p` where it mapped it, the next process at another one.
`fileAt p m` is the file's content by offset; `relocate p` turns a trace over offsets into the one a
process issues. Mappings are line-aligned, so lines of the file are lines of memory. -/

namespace PmemExamples.Persist
set_option autoImplicit false

/-- The words of the file mapped at `p`, by offset. -/
def fileAt (p : ℕ) (m : Mem) : Mem := fun o => m (p + o)

@[simp] theorem fileAt_apply (p : ℕ) (m : Mem) (o : ℕ) : fileAt p m o = m (p + o) := rfl

def Event.relocate (p : ℕ) : Event → Event
  | .store a v => .store (p + a) v
  | .flush ls => .flush (ls.map (lineOf p + ·))

/-- The trace of a process that mapped the file at `p`. -/
def relocate (p : ℕ) (evs : List Event) : List Event := evs.map (Event.relocate p)

@[simp] theorem relocate_nil (p : ℕ) : relocate p [] = [] := rfl
@[simp] theorem relocate_store (p a v : ℕ) (evs : List Event) :
    relocate p (.store a v :: evs) = .store (p + a) v :: relocate p evs := rfl
@[simp] theorem relocate_flush (p : ℕ) (ls : List ℕ) (evs : List Event) :
    relocate p (.flush ls :: evs) = .flush (ls.map (lineOf p + ·)) :: relocate p evs := rfl
theorem relocate_append (p : ℕ) (evs evs' : List Event) :
    relocate p (evs ++ evs') = relocate p evs ++ relocate p evs' := List.map_append
theorem relocate_flatMap {ι : Type} (p : ℕ) (f : ι → List Event) (is : List ι) :
    relocate p (is.flatMap f) = is.flatMap fun i => relocate p (f i) := List.map_flatMap
theorem relocate_take (p k : ℕ) (evs : List Event) :
    (relocate p evs).take k = relocate p (evs.take k) := List.map_take.symm

theorem lineOf_add {p : ℕ} (h : 64 ∣ p) (a : ℕ) : lineOf (p + a) = lineOf p + lineOf a := by
  unfold lineOf
  omega

theorem mem_relocate_store {p a v : ℕ} {evs : List Event} :
    .store a v ∈ relocate p evs ↔ ∃ o, a = p + o ∧ .store o v ∈ evs := by
  constructor
  · intro h
    obtain ⟨e, he, hev⟩ := List.mem_map.mp h
    cases e with
    | store o v' =>
      obtain ⟨rfl, rfl⟩ := Event.store.inj hev
      exact ⟨o, rfl, he⟩
    | flush ls => cases hev
  · rintro ⟨o, rfl, h⟩
    exact List.mem_map.mpr ⟨_, h, rfl⟩

theorem writes_relocate {p a : ℕ} {evs : List Event} {ev : Event} (he : ev ∈ relocate p evs) (hw : ev.Writes a) :
    ∃ x, a = p + x ∧ ∃ ev' ∈ evs, ev'.Writes x := by
  cases ev with
  | store b v =>
    obtain rfl : b = a := hw
    obtain ⟨x, rfl, hm⟩ := mem_relocate_store.mp he
    exact ⟨x, rfl, _, hm, rfl⟩
  | flush ls => exact absurd hw (Event.writes_flush _ _)

theorem Event.flushes_relocate {p : ℕ} (h : 64 ∣ p) {e : Event} {o : ℕ} :
    (e.relocate p).Flushes (lineOf (p + o)) ↔ e.Flushes (lineOf o) := by
  cases e with
  | store a v => exact Iff.rfl
  | flush ls => simp [Event.relocate, lineOf_add h]

theorem fileAt_applyAll (p : ℕ) (evs : List Event) (m : Mem) :
    fileAt p (applyAll (relocate p evs) m) = applyAll evs (fileAt p m) := by
  induction evs generalizing m with
  | nil => rfl
  | cons e evs ih =>
    cases e with
    | store a v =>
      rw [relocate_store, applyAll_store, applyAll_store, ih]
      congr 1
      funext o
      by_cases ho : o = a
      · subst ho; simp
      · have hne : p + o ≠ p + a := by omega
        simp [Function.update_of_ne ho, Function.update_of_ne hne]
    | flush ls => exact ih m

theorem Event.touches_relocate {p : ℕ} (h : 64 ∣ p) {e : Event} {o : ℕ} (he : e.Touches (lineOf o)) :
    (e.relocate p).Touches (lineOf (p + o)) := by
  cases e with
  | store a v =>
    rw [touches_store] at he
    simp [Event.relocate, lineOf_add h, he]
  | flush ls =>
    rw [touches_flush] at he
    simpa [Event.relocate, lineOf_add h] using he

theorem Orderly.relocate {p : ℕ} (h : 64 ∣ p) {evs : List Event} (ho : Orderly evs) :
    Orderly (relocate p evs) := by
  have hfilter : ∀ (d : Option ℕ) (ls : List ℕ),
      (d.map (lineOf p + ·)).filter (· ∉ ls.map (lineOf p + ·)) =
        (d.filter (· ∉ ls)).map (lineOf p + ·) := by
    intro d ls
    cases d with
    | none => rfl
    | some ℓ => by_cases hℓ : ℓ ∈ ls <;> simp [Option.filter, hℓ]
  have key : ∀ (evs : List Event) (d : Option ℕ),
      (Strict d evs → Strict (d.map (lineOf p + ·)) (Persist.relocate p evs)) ∧
      (Settled d evs → Settled (d.map (lineOf p + ·)) (Persist.relocate p evs)) := by
    intro evs
    induction evs with
    | nil =>
      intro d
      refine ⟨fun _ => trivial, fun hd => ?_⟩
      obtain rfl : d = none := hd
      rfl
    | cons e evs ih =>
      intro d
      cases e with
      | store a v =>
        have hline : some (lineOf (p + a)) = (some (lineOf a)).map (lineOf p + ·) := by
          rw [lineOf_add h]; rfl
        refine ⟨fun hs => ⟨fun ℓ hℓ => ?_, ?_⟩, fun hs => ?_⟩
        · obtain ⟨k, hk, rfl⟩ := Option.map_eq_some_iff.mp hℓ
          rw [lineOf_add h, hs.1 k hk]
        · show Strict (some (lineOf (p + a))) _
          rw [hline]
          exact (ih _).1 hs.2
        · show Settled (some (lineOf (p + a))) _
          rw [hline]
          exact (ih _).2 hs
      | flush ls =>
        refine ⟨fun hs => ?_, fun hs => ?_⟩
        · show Strict ((d.map (lineOf p + ·)).filter (· ∉ ls.map (lineOf p + ·))) _
          rw [hfilter]
          exact (ih _).1 hs
        · show Settled ((d.map (lineOf p + ·)).filter (· ∉ ls.map (lineOf p + ·))) _
          rw [hfilter]
          exact (ih _).2 hs
  exact ⟨(key evs none).1 ho.1, (key evs none).2 ho.2⟩

/-! ## Crashes of a process that mapped a file -/

/-- What a crash in a call leaves in the file: the effect of a prefix of the call's trace on what a
crash would have left of the state before it. -/
theorem crashDuring_file {α : Type} {x : Bool} {prog : Prog α} {a : α} {evs : List Event} {w : World}
    {img : Mem} {p : ℕ} (hp : 64 ∣ p) (hr : Runs x prog w.mem a (relocate p evs))
    (hw : x = true ∨ w.Persisting) (ho : Orderly evs) (hc : CrashDuring prog w img) :
    ∃ j m₀, CrashImage w.base w.trace m₀ ∧
      (∀ e ∈ evs.take j, ∀ o, e.Touches (lineOf o) → m₀ (p + o) = w.mem (p + o)) ∧
      fileAt p img = applyAll (evs.take j) (fileAt p m₀) := by
  obtain ⟨k, hk⟩ := hc
  rw [hr.trace_exact rfl hw, List.take_length_add_append] at hk
  obtain ⟨j, m₀, -, hm₀, htouch, himg⟩ := strict_crash ((ho.relocate hp).1.take k) hk
  rw [List.take_take, relocate_take] at htouch himg
  refine ⟨_, m₀, hm₀, fun e he o ht => ?_, by rw [himg, fileAt_applyAll]⟩
  exact htouch _ (List.mem_map_of_mem he) _ (Event.touches_relocate hp ht)

/-- A process that has just mapped the file `d` at `p`, in a build that skips no flush. -/
def Booted (p : ℕ) (d : Mem) (w : World) : Prop := fileAt p w.base = d ∧ w.trace = [] ∧ w.Persisting

/-- The memory of a process that maps `d` at `p`. -/
def mapAt (p : ℕ) (d : Mem) : Mem := fun a => if p ≤ a then d (a - p) else 0

@[simp] theorem fileAt_mapAt (p : ℕ) (d : Mem) : fileAt p (mapAt p d) = d := by
  funext o
  simp [mapAt]

theorem Booted.boot (p : ℕ) (d : Mem) (epoch : ℕ → Bool) :
    Booted p d (World.boot (mapAt p d) false epoch) :=
  ⟨fileAt_mapAt p d, rfl, Or.inl rfl⟩

theorem Booted.mem {p : ℕ} {d : Mem} {w : World} (h : Booted p d w) : fileAt p w.mem = d := by
  rw [World.mem, h.2.1]
  exact h.1

theorem Booted.clean {p : ℕ} {d : Mem} {w : World} (h : Booted p d w) : w.Clean := by
  intro ℓ
  rw [h.2.1]
  exact Durable.boot _ _

/-- A process that maps a file starts from what is durable: a crash keeps a prefix of its trace. -/
theorem crashDuring_boot {α : Type} {x : Bool} {prog : Prog α} {a : α} {evs : List Event} {w : World}
    {d img : Mem} {p : ℕ} (hp : 64 ∣ p) (hr : Runs x prog w.mem a (relocate p evs))
    (hw : Booted p d w) (ho : Orderly evs) (hc : CrashDuring prog w img) :
    ∃ j, fileAt p img = applyAll (evs.take j) d := by
  obtain ⟨j, m₀, hm₀, -, himg⟩ := crashDuring_file hp hr (Or.inr hw.2.2) ho hc
  rw [hw.2.1, crashImage_nil] at hm₀
  exact ⟨j, by rw [himg, hm₀, hw.1]⟩

end PmemExamples.Persist
