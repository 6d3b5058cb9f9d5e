import PmemExamples.CHashtable.Code
import PmemExamples.Pool.Appends

/-! # What a call asked stays asked

The same of the calls on the hash table, in every state of the pool: they add to the events and to the requests. -/

namespace PmemExamples.CHashtable
open Persist Pool
open BTree hiding pmemallocReservVirtual pmemallocActivateLocal
set_option autoImplicit false

/-- The process `H'` is `H` after some more events and requests. -/
def Host.Extends (H H' : Host) : Prop := H.world.Extends H'.world ∧ ∃ rs, H'.requests = H.requests ++ rs

theorem Host.Extends.refl (H : Host) : H.Extends H := ⟨World.Extends.refl _, [], (List.append_nil _).symm⟩

theorem Host.Extends.trans {H H' H'' : Host} (h : H.Extends H') (h' : H'.Extends H'') : H.Extends H'' := by
  obtain ⟨hw, rs, hr⟩ := h
  obtain ⟨hw', rs', hr'⟩ := h'
  exact ⟨hw.trans hw', rs ++ rs', by rw [hr', hr, List.append_assoc]⟩

theorem Host.Extends.mem {H H' : Host} {r : Request} (h : H.Extends H') (hr : r ∈ H.requests) : r ∈ H'.requests := by
  obtain ⟨-, rs, hrs⟩ := h
  rw [hrs]
  exact List.mem_append_left rs hr

namespace Session

def Appends {α : Type} (q : Session α) : Prop := ∀ H : Host, H.Extends (q H).2

variable {α β : Type} {q : Session α} {f : α → Session β} {prog : Prog α}

theorem Appends.pure (a : α) : Appends (Pure.pure a : Session α) := fun H => Host.Extends.refl H

theorem Appends.lift (h : Pool.Appends prog) : Appends (lift prog) := fun H => ⟨h H.world, [], (List.append_nil _).symm⟩

theorem Appends.ask (r : Request) : Appends (ask r) := fun H => ⟨World.Extends.refl H.world, [r], rfl⟩

theorem extends_bind (q : Session α) (hf : ∀ a, Appends (f a)) (H : Host) : (q H).2.Extends ((q >>= f) H).2 := by
  show Host.Extends _ (Session.bind q f H).2
  rw [Session.bind]
  cases q H with
  | mk r H' =>
    cases r with
    | ok a => exact hf a H'
    | fatal msg => exact Host.Extends.refl H'
    | hang => exact Host.Extends.refl H'

theorem Appends.bind (hq : Appends q) (hf : ∀ a, Appends (f a)) : Appends (q >>= f) :=
  fun H => (hq H).trans (extends_bind q hf H)

theorem Appends.ite {c : Prop} [Decidable c] {q' : Session α} (hq : Appends q) (hq' : Appends q') :
    Appends (if c then q else q') := by
  split
  · exact hq
  · exact hq'

/-- Somewhere in its run the program issues the event. -/
def Emits (q : Session α) (H : Host) (ev : Event) : Prop :=
  ∃ evs, (q H).2.world.trace = H.world.trace ++ evs ∧ ev ∈ evs

theorem Emits.lift {H : Host} {ev : Event} (h : Pool.Emits prog H.world ev) : Emits (Session.lift prog) H ev := h

theorem Emits.bind {H : Host} {ev : Event} (h : Emits q H ev) (hf : ∀ a, Appends (f a)) : Emits (q >>= f) H ev := by
  obtain ⟨evs, htrace, hmem⟩ := h
  obtain ⟨⟨-, evs', htrace'⟩, -⟩ := extends_bind q hf H
  exact ⟨evs ++ evs', by rw [htrace', htrace, List.append_assoc], List.mem_append_left _ hmem⟩

theorem Emits.after {H H' : Host} {a : α} {ev : Event} (hq : q H = (.ok a, H')) (hext : H.Extends H')
    (h : Emits (f a) H' ev) : Emits (q >>= f) H ev := by
  obtain ⟨evs, htrace, hmem⟩ := h
  obtain ⟨⟨-, evs', htrace'⟩, -⟩ := hext
  have hrun : (q >>= f) H = f a H' := by
    show Session.bind q f H = _
    rw [Session.bind, hq]
  refine ⟨evs' ++ evs, ?_, List.mem_append_right _ hmem⟩
  rw [hrun, htrace, htrace', List.append_assoc]

end Session

namespace Code
open Session (Appends)

theorem appends_setBits (a : ℕ) (f : ℕ → ℕ) :
    Pool.Appends (setBits a f) := (Pool.Appends.load a).bind fun _ => .store _ _

theorem appends_bzeroWords (a : ℕ) (js : List ℕ) : Pool.Appends (bzeroWords a js) := by
  induction js with
  | nil => exact .pure ()
  | cons j js ih => exact (Pool.Appends.store _ _).bind fun _ => ih

theorem appends_loadHash (e : ℕ) : Pool.Appends (loadHash e) := (Pool.Appends.load _).bind fun _ => .pure _

theorem appends_moveBucket (h newtable newsize i fuel : ℕ) : Pool.Appends (moveBucket h newtable newsize i fuel) := by
  induction fuel with
  | zero => exact .hang
  | succ fuel ih =>
    apply (Pool.Appends.load _).bind
    intro table
    apply (Pool.Appends.load _).bind
    intro e
    apply Pool.Appends.ite
    · exact .pure ()
    · exact (Pool.Appends.load _).bind fun _ => (Pool.Appends.store _ _).bind fun _ => (appends_loadHash _).bind fun _ =>
        (Pool.Appends.load _).bind fun _ => (Pool.Appends.store _ _).bind fun _ =>
          (Pool.Appends.store _ _).bind fun _ => ih

theorem appends_moveBuckets (h newtable newsize fuel i : ℕ) : Pool.Appends (moveBuckets h newtable newsize fuel i) := by
  induction fuel generalizing i with
  | zero => exact .hang
  | succ fuel ih =>
    apply (Pool.Appends.load _).bind
    intro word
    apply Pool.Appends.ite
    · exact (appends_moveBucket _ _ _ _ _).bind fun _ => ih _
    · exact .pure ()

theorem appends_reserve (pmp size : ℕ) : Appends (reserve pmp size) := by
  intro H
  have hext := appends_pmemallocReserve pmp H.gclp size H.world
  rw [reserve]
  cases hr : pmemallocReserve pmp H.gclp size H.world with
  | mk r w =>
    rw [hr] at hext
    cases r with
    | ok res => exact ⟨hext, _, rfl⟩
    | fatal msg => exact ⟨hext, [], (List.append_nil _).symm⟩
    | hang => exact ⟨hext, [], (List.append_nil _).symm⟩

theorem appends_reservVirtual (pmp size : ℕ) : Appends (pmemallocReservVirtual pmp size) :=
  (appends_reserve pmp size).bind fun _ => .pure _

theorem appends_activateLocal (pmp ptr_ : ℕ) : Appends (pmemallocActivateLocal pmp ptr_) :=
  (Appends.ask _).bind fun _ => (Appends.lift (appends_pmemallocOnactive _ _ _ _)).bind fun _ =>
    (Appends.ask _).bind fun _ =>
    Appends.lift (appends_pmemallocActivate _ _)

theorem appends_afterClear (h newtable newsize : ℕ) : Pool.Appends (do
    moveBuckets h newtable newsize chainFuel 0
    Prog.store (h + 8) newtable) := (appends_moveBuckets _ _ _ _ _).bind fun _ => .store _ _

theorem appends_replaceTable (h newtable newsize : ℕ) : Pool.Appends (replaceTable h newtable newsize) := by
  have hfill : Pool.Appends (fillTable h newtable newsize) :=
    (Pool.Appends.pure ()).ite ((appends_bzeroWords _ _).bind fun _ => appends_afterClear _ _ _)
  exact hfill.bind fun _ => (appends_setBits _ _).bind fun _ => appends_setBits _ _

theorem appends_linkEntry (hashfn : ℕ → UInt32) (h e k v : ℕ) : Pool.Appends (linkEntry hashfn h e k v) :=
  (appends_setBits _ _).bind fun _ => (Pool.Appends.load _).bind fun _ => (appends_loadHash _).bind fun _ =>
    (Pool.Appends.store _ _).bind fun _ => (Pool.Appends.store _ _).bind fun _ => (Pool.Appends.load _).bind fun _ =>
      (Pool.Appends.load _).bind fun _ => (Pool.Appends.store _ _).bind fun _ => (Pool.Appends.load _).bind fun _ =>
        .store _ _

end Code

end PmemExamples.CHashtable
