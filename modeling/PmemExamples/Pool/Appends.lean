import PmemExamples.Pool.Allocator

/-! # What is issued stays issued

Whatever state it meets and however it ends, a call of the allocator leaves the events before it as they are. -/

namespace PmemExamples.Pool
open Persist Libpmem
set_option autoImplicit false

/-- The program only adds to the events. -/
def Appends {α : Type} (prog : Prog α) : Prop := ∀ w : World, w.Extends (prog w).2

namespace Appends
variable {α β : Type} {prog : Prog α} {f : α → Prog β}

theorem pure (a : α) : Appends (Pure.pure a : Prog α) := fun w => World.Extends.refl w

theorem fatal (msg : String) : Appends (Prog.fatal msg : Prog α) := fun w => World.Extends.refl w

theorem hang : Appends (Prog.hang : Prog α) := fun w => World.Extends.refl w

theorem load (a : ℕ) : Appends (Prog.load a) := fun w => World.Extends.refl w

theorem store (a v : ℕ) : Appends (Prog.store a v) := fun _ => ⟨rfl, [.store a v], rfl⟩

theorem flush (ls : List ℕ) : Appends (Prog.flush ls) := fun _ => ⟨rfl, [.flush ls], rfl⟩

theorem isRelaxed : Appends Prog.isRelaxed := fun w => World.Extends.refl w

theorem enablePersist : Appends Libpmem.enablePersist := fun w => ⟨rfl, [], (List.append_nil w.trace).symm⟩

theorem bind (hp : Appends prog) (hf : ∀ a, Appends (f a)) : Appends (prog >>= f) := by
  intro w
  have h₁ := hp w
  rw [Prog.bind_apply]
  cases hr : prog w with
  | mk r w' =>
    rw [hr] at h₁
    cases r with
    | ok a => exact h₁.trans (hf a w')
    | fatal msg => exact h₁
    | hang => exact h₁

theorem ite {c : Prop} [Decidable c] {q : Prog α} (hp : Appends prog) (hq : Appends q) :
    Appends (if c then prog else q) := by
  split
  · exact hp
  · exact hq

end Appends

/-- Somewhere in its run the program issues the event. -/
def Emits {α : Type} (prog : Prog α) (w : World) (ev : Event) : Prop :=
  ∃ evs, (prog w).2.trace = w.trace ++ evs ∧ ev ∈ evs

theorem emits_of_runs {α : Type} {prog : Prog α} {a : α} {evs : List Event} {w : World} {ev : Event}
    (h : Runs true prog w.mem a evs) (hev : ev ∈ evs) : Emits prog w ev :=
  ⟨evs, h.trace_exact rfl (Or.inl rfl), hev⟩

theorem Emits.bind {α β : Type} {prog : Prog α} {f : α → Prog β} {w : World} {ev : Event} (h : Emits prog w ev)
    (hf : ∀ a, Appends (f a)) : Emits (prog >>= f) w ev := by
  obtain ⟨evs, htrace, hmem⟩ := h
  rw [Emits, Prog.bind_apply]
  cases hr : prog w with
  | mk r w' =>
    rw [hr] at htrace
    cases r with
    | ok a =>
      obtain ⟨-, evs', htrace'⟩ := hf a w'
      exact ⟨evs ++ evs', by rw [htrace', htrace, List.append_assoc], List.mem_append_left _ hmem⟩
    | fatal msg => exact ⟨evs, htrace, hmem⟩
    | hang => exact ⟨evs, htrace, hmem⟩

open Appends

theorem appends_dropped (flags : ℕ) : Appends (dropped flags) := by
  apply isRelaxed.bind
  intro b
  apply Appends.ite
  · apply Appends.ite
    · exact Appends.enablePersist.bind fun b => .pure _
    · exact .pure _
  · exact .pure _

theorem appends_pmemPersist (addr len flags : ℕ) : Appends (pmemPersist addr len flags) := by
  have hcache : Appends (pmemFlushCacheCl addr len flags) := (appends_dropped flags).bind fun b =>
    (Appends.pure ()).ite (.flush _)
  have hline : Appends (pmemPersistCl addr len flags) := (appends_dropped flags).bind fun b =>
    (Appends.pure ()).ite hcache
  exact (appends_dropped flags).bind fun b => (Appends.pure ()).ite hline

theorem appends_assertEq (s : String) (a : ℕ) (s' : String) (b : ℕ) : Appends (assertEq s a s' b) :=
  (Appends.pure ()).ite (.fatal _)

/-! ## The loops of the allocator -/

theorem appends_memsetClump (clp : ℕ) (is : List ℕ) : Appends (memsetClump clp is) := by
  induction is with
  | nil => exact .pure ()
  | cons i is ih => exact (Appends.store _ _).bind fun _ => ih

theorem appends_resetOn (clp : ℕ) (is : List ℕ) : Appends (resetOn clp is) := by
  induction is with
  | nil => exact .pure ()
  | cons i is ih => exact (Appends.store _ _).bind fun _ => (Appends.store _ _).bind fun _ => ih

theorem appends_clearOn (clp : ℕ) (is : List ℕ) : Appends (clearOn clp is) := by
  induction is with
  | nil => exact .pure ()
  | cons i is ih => exact (Appends.store _ _).bind fun _ => ih

theorem appends_execOn (pmp clp flags : ℕ) (is : List ℕ) : Appends (execOn pmp clp flags is) := by
  induction is with
  | nil => exact .pure ()
  | cons i is ih =>
    apply (Appends.load _).bind
    intro offset
    apply Appends.ite
    · exact (Appends.load _).bind fun _ => (Appends.store _ _).bind fun _ => (appends_pmemPersist _ _ _).bind fun _ => ih
    · exact .pure ()

theorem appends_placeOn (pmp clp parentp_ nptr_ flags : ℕ) (limit : String) (is : List ℕ) :
    Appends (placeOn pmp clp parentp_ nptr_ flags limit is) := by
  induction is with
  | nil => exact .fatal limit
  | cons i is ih =>
    apply (Appends.load _).bind
    intro offset
    apply Appends.ite
    · exact (Appends.store _ _).bind fun _ => (appends_pmemPersist _ _ _).bind fun _ => (Appends.store _ _).bind fun _ =>
        appends_pmemPersist _ _ _
    · exact ih

theorem appends_reserveClump (clp sz nsize : ℕ) : Appends (reserveClump clp sz nsize) := by
  have hcommit : ∀ v, Appends (do
      resetOn clp onUp
      pmemPersist clp sizeofClump 0
      Prog.store clp v
      pmemPersist clp sizeofClump 0) := fun v => (appends_resetOn _ _).bind fun _ =>
        (appends_pmemPersist _ _ _).bind fun _ =>
    (Appends.store _ _).bind fun _ => appends_pmemPersist _ _ _
  apply Appends.ite
  · exact (appends_memsetClump _ _).bind fun _ => (Appends.store _ _).bind fun _ =>
      (appends_pmemPersist _ _ _).bind fun _ =>
      hcommit _
  · exact hcommit _

theorem appends_firstFit (pmp gclp nsize fuel clp : ℕ) : Appends (firstFit pmp gclp nsize fuel clp) := by
  induction fuel generalizing clp with
  | zero => exact .hang
  | succ fuel ih =>
    apply (Appends.load clp).bind
    intro size
    apply Appends.ite
    · exact .pure _
    · apply Appends.ite
      · exact (appends_reserveClump _ _ _).bind fun _ => .pure _
      · exact ih _

theorem appends_pmemallocReserve (pmp gclp size : ℕ) : Appends (pmemallocReserve pmp gclp size) :=
  (Appends.load _).bind fun _ => (Appends.fatal _).ite (appends_firstFit _ _ _ _ _)

theorem appends_pmemallocOnactive (pmp ptr_ parentp_ nptr_ : ℕ) : Appends (pmemallocOnactive pmp ptr_ parentp_ nptr_) :=
  (Appends.load _).bind fun _ => (appends_assertEq _ _ _ _).bind fun _ => appends_placeOn _ _ _ _ _ _ _

theorem appends_pmemallocActivate (pmp ptr_ : ℕ) : Appends (pmemallocActivate pmp ptr_) :=
  (Appends.load _).bind fun _ => (appends_assertEq _ _ _ _).bind fun _ => (appends_pmemPersist _ _ _).bind fun _ =>
    (Appends.store _ _).bind fun _ => (appends_pmemPersist _ _ _).bind fun _ => (appends_execOn _ _ _ _).bind fun _ =>
      (appends_clearOn _ _).bind fun _ => (appends_pmemPersist _ _ _).bind fun _ => (Appends.store _ _).bind fun _ =>
        appends_pmemPersist _ _ _

end PmemExamples.Pool
