import PmemExamples.Test1.Prepend

/-! # Sessions of the list program

Each session is a process of its own: it maps the file, recovers it and prepends values. It may end
or crash anywhere. `Sessions e d d' hist` says that such sessions lead from the file `d` to `d'`;
`hist` lists their prepends, newest first, with whether they ran to their end. -/

namespace PmemExamples.Test1
open Persist Libpmem Tiling Pool
set_option autoImplicit false

/-- A session on the file `d`, between two prepends: its world, its cursor and what it has prepended. -/
inductive Session (p : ℕ) (d : Mem) : World → ℕ → List UInt32 → Prop
  | init {w w' : World} (hb : Booted p d w) (hr : recovery p w = (.ok (), w')) : Session p d w' 0 []
  | prepended {w w' : World} {gclp gclp' : ℕ} {v : UInt32} {vs : List UInt32}
      (h : Session p d w gclp vs) (hr : prepend p gclp v w = (.ok (some gclp'), w')) :
      Session p d w' gclp' (v :: vs)
  | full {w w' : World} {gclp : ℕ} {v : UInt32} {vs : List UInt32} (h : Session p d w gclp vs)
      (hr : prepend p gclp v w = (.ok none, w')) : Session p d w' gclp vs

def completed (vs : List UInt32) : List (UInt32 × Bool) := vs.map (·, true)

inductive Sessions (e : ℕ) (d₀ : Mem) : Mem → List (UInt32 × Bool) → Prop
  | refl : Sessions e d₀ d₀ []
  | initCrashed {d img : Mem} {hist : List (UInt32 × Bool)} {p : ℕ} {w : World}
      (h : Sessions e d₀ d hist) (hp : Mapped p e) (hb : Booted p d w)
      (hc : CrashDuring (recovery p) w img) : Sessions e d₀ (fileAt p img) hist
  | ended {d img : Mem} {hist : List (UInt32 × Bool)} {p gclp : ℕ} {w : World} {vs : List UInt32}
      (h : Sessions e d₀ d hist) (hp : Mapped p e) (hs : Session p d w gclp vs)
      (hc : CrashImage w.base w.trace img) : Sessions e d₀ (fileAt p img) (completed vs ++ hist)
  | prependCrashed {d img : Mem} {hist : List (UInt32 × Bool)} {p gclp : ℕ} {w : World}
      {vs : List UInt32} {v : UInt32} (h : Sessions e d₀ d hist) (hp : Mapped p e)
      (hs : Session p d w gclp vs) (hc : CrashDuring (prepend p gclp v) w img) :
      Sessions e d₀ (fileAt p img) ((v, false) :: (completed vs ++ hist))

/-- The values of all completed prepends of the history and of some of the interrupted ones. -/
inductive Took : List (UInt32 × Bool) → List UInt32 → Prop
  | nil : Took [] []
  | done {v : UInt32} {hist : List (UInt32 × Bool)} {vs : List UInt32} (h : Took hist vs) :
      Took ((v, true) :: hist) (v :: vs)
  | lost {v : UInt32} {hist : List (UInt32 × Bool)} {vs : List UInt32} (h : Took hist vs) :
      Took ((v, false) :: hist) vs
  | kept {v : UInt32} {hist : List (UInt32 × Bool)} {vs : List UInt32} (h : Took hist vs) :
      Took ((v, false) :: hist) (v :: vs)

theorem Took.append {hist hist' : List (UInt32 × Bool)} {vs vs' : List UInt32} (h : Took hist vs)
    (h' : Took hist' vs') : Took (hist ++ hist') (vs ++ vs') := by
  induction h with
  | nil => exact h'
  | done _ ih => exact .done ih
  | lost _ ih => exact .lost ih
  | kept _ ih => exact .kept ih

theorem took_completed (vs : List UInt32) : Took (completed vs) vs := by
  induction vs with
  | nil => exact .nil
  | cons v vs ih => exact .done ih

theorem took_completed_iff {vs vs' : List UInt32} : Took (completed vs) vs' ↔ vs' = vs := by
  refine ⟨fun h => ?_, fun h => h ▸ took_completed vs⟩
  induction vs generalizing vs' with
  | nil => cases h; rfl
  | cons v vs ih =>
    cases h with
    | done h => rw [ih h]

/-! ## The list over any number of sessions -/

section Run
variable {e p : ℕ} {d d₀ : Mem} {w : World} {nodes : List (ℕ × UInt32)}

theorem session_ready (h₀ : RecoversTo e d (ListOf nodes)) (hlt : pmemClumpOffset < e)
    (hp : Mapped p e) {gclp : ℕ} {vs : List UInt32} (h : Session p d w gclp vs) :
    ∃ cs new, Ready w p gclp cs e (ListOf (new ++ nodes)) ∧ new.map Prod.snd = vs := by
  induction h with
  | init hb hr =>
    obtain ⟨-, _, w', hr', -, cs, hready⟩ := h₀.init (stable_listOf nodes) hlt hp hb
    rw [hr] at hr'
    cases hr'
    exact ⟨cs, [], hready, rfl⟩
  | @prepended w w' gclp gclp' v vs h hr ih =>
    obtain ⟨cs, new, hready, hnew⟩ := ih
    obtain ⟨-, o, w₁, hr', -, gs, -, ⟨rfl, -⟩ | ⟨-, n, g, cs', rfl, h'⟩⟩ := prepend_step hready v
    · rw [hr] at hr'
      cases hr'
    · rw [hr] at hr'
      cases hr'
      exact ⟨cs', (n, v) :: new, h', by rw [List.map_cons, hnew]⟩
  | @full w w' gclp v vs h hr ih =>
    obtain ⟨cs, new, hready, hnew⟩ := ih
    obtain ⟨-, o, w₁, hr', -, gs, -, ⟨rfl, -, h'⟩ | ⟨-, n, g, cs', rfl, -⟩⟩ := prepend_step hready v
    · rw [hr] at hr'
      cases hr'
      exact ⟨cs, new, h', hnew⟩
    · rw [hr] at hr'
      cases hr'

/-- Wherever the sessions stop, the file recovers to the old list with their values in front. -/
theorem sessions_recoversTo (h₀ : RecoversTo e d₀ (ListOf nodes)) (hlt : pmemClumpOffset < e)
    {hist : List (UInt32 × Bool)} (h : Sessions e d₀ d hist) :
    ∃ new, RecoversTo e d (ListOf (new ++ nodes)) ∧ Took hist (new.map Prod.snd) := by
  induction h with
  | refl => exact ⟨[], h₀, .nil⟩
  | initCrashed _ hp hb hc ih =>
    obtain ⟨new, hrec, htook⟩ := ih
    exact ⟨new, (hrec.init (stable_listOf _) hlt hp hb).crash _ hc, htook⟩
  | @ended d img hist p gclp w vs _ hp hs hc ih =>
    obtain ⟨new, hrec, htook⟩ := ih
    obtain ⟨cs, more, hready, rfl⟩ := session_ready hrec hlt hp hs
    refine ⟨more ++ new, ?_, ?_⟩
    · rw [hready.clean.image hc, List.append_assoc]
      exact hready.recoversTo
    · rw [List.map_append]
      exact (took_completed _).append htook
  | @prependCrashed d img hist p gclp w vs v _ hp hs hc ih =>
    obtain ⟨new, hrec, htook⟩ := ih
    obtain ⟨cs, more, hready, rfl⟩ := session_ready hrec hlt hp hs
    have hvals := (took_completed (more.map Prod.snd)).append htook
    rcases (prepend_step hready v).crash _ hc with h | ⟨n, h⟩
    · exact ⟨more ++ new, by rwa [List.append_assoc], by rw [List.map_append]; exact .lost hvals⟩
    · refine ⟨(n, v) :: (more ++ new), by rwa [List.cons_append, List.append_assoc], ?_⟩
      rw [List.map_cons, List.map_append]
      exact .kept hvals

theorem created_recoversTo {size : ℕ} {f : File} (h : createPool size = .ok f) :
    pmemClumpOffset < lastClumpOff size ∧ RecoversTo (lastClumpOff size) f.data (ListOf []) := by
  obtain ⟨-, -, hlt, hc⟩ := created_chain h
  exact ⟨by omega, RecoversTo.of_quiet (stable_listOf []) hc (by simp [createdWalk])
    ⟨created_root h, by simp, by simp [createdWalk], by simp [createdWalk]⟩⟩

/-- What `pmemalloc_init` shows of a pool: the list from the head is `nodes`, the active clumps are
its nodes and the rest of the pool is free. -/
def Shows (e : ℕ) (d : Mem) (nodes : List (ℕ × UInt32)) : Prop :=
  ∃ cs, Chain d pmemClumpOffset cs e ∧ (∀ c ∈ cs, c.tag = .free ∨ c.tag = .active) ∧ ListOf nodes d cs

theorem init_shows (h : RecoversTo e d (ListOf nodes)) (hlt : pmemClumpOffset < e) (hp : Mapped p e)
    (hb : Booted p d w) : ∃ w', recovery p w = (.ok (), w') ∧ Shows e (fileAt p w'.mem) nodes := by
  obtain ⟨-, _, w', hr, -, cs, hready⟩ := h.init (stable_listOf nodes) hlt hp hb
  exact ⟨w', hr, cs, hready.chain, hready.settled, hready.state⟩

/-- Every prepend of a session returns. It gives up only where no free clump from the cursor on has room. -/
def Answers (e : ℕ) (d : Mem) : Prop :=
  ∀ (p gclp : ℕ) (w : World) (vs : List UInt32) (v : UInt32), Mapped p e → Session p d w gclp vs →
    ∃ gs o w', Chain (fileAt p w.mem) (cursorOff p gclp) gs e ∧ prepend p gclp v w = (.ok o, w') ∧
      (o = none ↔ ∀ c ∈ gs, ¬ c.Fits (reserveSize sizeofNode))

theorem answers (h : RecoversTo e d (ListOf nodes)) (hlt : pmemClumpOffset < e) : Answers e d := by
  intro p gclp w vs v hp hs
  obtain ⟨cs, new, hready, -⟩ := session_ready h hlt hp hs
  obtain ⟨-, o, w', hrun, -, gs, hgs, hcases⟩ := prepend_step hready v
  refine ⟨gs, o, w', hgs, hrun, ?_⟩
  rcases hcases with ⟨rfl, hnone, -⟩ | ⟨⟨b, hb, hfit⟩, n, g, cs', rfl, -⟩
  · exact iff_of_true rfl hnone
  · exact iff_of_false (by simp) fun hnone => hnone b hb hfit

end Run

/-- The allocation pattern neither leaks nor dangles. After any sessions on a created pool, crashed or
not, every prepend of the next one returns, and its `pmemalloc_init` shows a list of the values of all completed
prepends and some of the interrupted ones, newest first; the active clumps are its nodes and everything else is
free. After any further sessions the list is that one with their values in front. -/
theorem sessions_no_leak {size p : ℕ} {f : File} {d : Mem} {hist : List (UInt32 × Bool)} {w : World}
    (hf : createPool size = .ok f) (h : Sessions (lastClumpOff size) f.data d hist)
    (hp : Mapped p (lastClumpOff size)) (hb : Booted p d w) :
    Answers (lastClumpOff size) d ∧ ∃ w' nodes, recovery p w = (.ok (), w') ∧
      Shows (lastClumpOff size) (fileAt p w'.mem) nodes ∧ Took hist (nodes.map Prod.snd) ∧
      ∀ (d' : Mem) (hist' : List (UInt32 × Bool)) (p' : ℕ) (v : World),
        Sessions (lastClumpOff size) d d' hist' → Mapped p' (lastClumpOff size) → Booted p' d' v →
        ∃ v' new, recovery p' v = (.ok (), v') ∧
          Shows (lastClumpOff size) (fileAt p' v'.mem) (new ++ nodes) ∧
          Took hist' (new.map Prod.snd) := by
  obtain ⟨hlt, h₀⟩ := created_recoversTo hf
  obtain ⟨nodes, hrec, htook⟩ := sessions_recoversTo h₀ hlt h
  rw [List.append_nil] at hrec
  obtain ⟨w', hr, hshows⟩ := init_shows hrec hlt hp hb
  refine ⟨answers hrec hlt, w', nodes, hr, hshows, htook, fun d' hist' p' v h' hp' hb' => ?_⟩
  obtain ⟨new, hrec', htook'⟩ := sessions_recoversTo hrec hlt h'
  obtain ⟨v', hr', hshows'⟩ := init_shows hrec' hlt hp' hb'
  exact ⟨v', new, hr', hshows', htook'⟩

/-- The list with one value, in a process that may go on. -/
def oneValue : World :=
  (prepend 65536 0 7 (recovery 65536 (World.boot (mapAt 65536 (applyAll
    [.store 16384 1032128, .store 12288 signature0, .store 12296 signature1, .store 12304 1048576] fun _ => 0))
    false fun _ => true)).2).2

/-- A first session prepends a value and is interrupted in its second prepend, before the last six events of it. -/
theorem sessions_no_leak_interrupted : ∃ d w' nodes,
    oneValue.trace.length + 36 = (prepend 65536 81920 8 oneValue).2.trace.length ∧
      d = fileAt 65536
        (applyAll ((prepend 65536 81920 8 oneValue).2.trace.take (oneValue.trace.length + 30)) oneValue.base) ∧
      Answers 1048512 d ∧ recovery 65536 (World.boot (mapAt 65536 d) false fun _ => true) = (.ok (), w') ∧
      Shows 1048512 (fileAt 65536 w'.mem) nodes ∧ Took [(8, false), (7, true)] (nodes.map Prod.snd) := by
  obtain ⟨f, hf⟩ : ∃ f, createPool 1048576 = .ok f := ⟨_, rfl⟩
  have hp : Mapped 65536 (lastClumpOff 1048576) := ⟨by decide, by decide⟩
  have hb := Booted.boot 65536 f.data fun _ => true
  obtain ⟨hlt, h₀⟩ := created_recoversTo hf
  obtain ⟨-, _, w₁, hr, -⟩ := h₀.init (stable_listOf []) hlt hp hb
  have hw₁ : prepend 65536 0 7 w₁ = (.ok (some 81920), oneValue) := by
    obtain rfl := Except.ok.inj hf
    obtain rfl := congrArg Prod.snd hr
    exact Prod.ext (by decide +kernel) rfl
  have hs : Sessions (lastClumpOff 1048576) f.data _ [(8, false), (7, true)] :=
    .prependCrashed .refl hp (.prepended (.init hb hr) hw₁) ⟨30, CrashImage.all _ _⟩
  obtain ⟨hanswers, w', nodes, hr', hshows, htook, -⟩ := sessions_no_leak hf hs hp (Booted.boot 65536 _ fun _ => true)
  exact ⟨_, w', nodes, by decide +kernel, rfl, hanswers, hr', hshows, htook⟩

end PmemExamples.Test1
