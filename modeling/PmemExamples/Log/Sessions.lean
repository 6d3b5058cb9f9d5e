import PmemExamples.Log.Open

/-! # Sessions on a log memory pool

Each session is a process of its own: it maps the file, opens the pool and makes calls, and may end or crash
anywhere. `Sessions u size d d' hist` says that such sessions lead from the file `d` to `d'`; `hist` lists their
calls, newest first, with what each returned if it did. -/

namespace PmemExamples.Log
open Persist
set_option autoImplicit false

abbrev History : Type := List (Call × Option (Option Errno))

inductive Session (u : Util) (p size : ℕ) (isPmem : Bool) (d : Mem) : World → PMEMlogpool → History → Prop
  | opened {w w' : World} {plp : PMEMlogpool} (hb : Booted p d w)
      (hr : pmemlogPoolOpen u p size isPmem w = (.ok (.ok plp), w')) : Session u p size isPmem d w' plp []
  | called {w w' : World} {plp : PMEMlogpool} {hist : History} {c : Call} {r : Option Errno}
      (h : Session u p size isPmem d w plp hist) (hc : c.Legal) (hr : c.run u plp w = (.ok r, w')) :
      Session u p size isPmem d w' plp ((c, some r) :: hist)

inductive Sessions (u : Util) (size : ℕ) (d₀ : Mem) : Mem → History → Prop
  | refl : Sessions u size d₀ d₀ []
  | openCrashed {d img : Mem} {hist : History} {p : ℕ} {isPmem : Bool} {w : World} (h : Sessions u size d₀ d hist)
      (hp : 64 ∣ p) (hb : Booted p d w) (hc : CrashDuring (pmemlogPoolOpen u p size isPmem) w img) :
      Sessions u size d₀ (fileAt p img) hist
  | ended {d img : Mem} {hist now : History} {p : ℕ} {isPmem : Bool} {w : World} {plp : PMEMlogpool}
      (h : Sessions u size d₀ d hist) (hp : 64 ∣ p) (hs : Session u p size isPmem d w plp now)
      (hc : CrashImage w.base w.trace img) : Sessions u size d₀ (fileAt p img) (now ++ hist)
  | callCrashed {d img : Mem} {hist now : History} {p : ℕ} {isPmem : Bool} {w : World} {plp : PMEMlogpool} {c : Call}
      (h : Sessions u size d₀ d hist) (hp : 64 ∣ p) (hs : Session u p size isPmem d w plp now) (hl : c.Legal)
      (hc : CrashDuring (c.run u plp) w img) : Sessions u size d₀ (fileAt p img) ((c, none) :: now ++ hist)

/-- The contents that a history leads to: every call that returned took its step and returned what the step says,
and each interrupted call took its step or none. -/
inductive Leads {cap : ℕ} (l₀ : Contents cap) : History → Contents cap → Prop
  | nil : Leads l₀ [] l₀
  | returned {c : Call} {hist : History} {l : Contents cap} (h : Leads l₀ hist l) :
      Leads l₀ ((c, some (c.step l).2) :: hist) (c.step l).1
  | lost {c : Call} {hist : History} {l : Contents cap} (h : Leads l₀ hist l) : Leads l₀ ((c, none) :: hist) l
  | kept {c : Call} {hist : History} {l : Contents cap} (h : Leads l₀ hist l) : Leads l₀ ((c, none) :: hist) (c.step l).1

theorem Leads.append {cap : ℕ} {l₀ l l' : Contents cap} {hist now : History} (h : Leads l₀ hist l)
    (h' : Leads l now l') : Leads l₀ (now ++ hist) l' := by
  induction h' with
  | nil => exact h
  | returned _ ih => exact .returned ih
  | lost _ ih => exact .lost ih
  | kept _ ih => exact .kept ih

/-! ## The contents over any number of sessions -/

section Run
variable {u : Util} {hdr : List UInt8} {size : ℕ} {d d₀ : Mem} {l l₀ : Contents (size - dataStart u)}

theorem session_ready (hv : Valid u hdr) (hmin : u.minPool ≤ size) (hroom : dataStart u ≤ size) (hsmall : size < 2 ^ 63)
    (h₀ : Holds u hdr size d l₀) {p : ℕ} (hp : 64 ∣ p) {isPmem : Bool} {w : World} {plp : PMEMlogpool} {now : History}
    (h : Session u p size isPmem d w plp now) :
    ∃ l, Ready u hdr size w plp l ∧ plp = ⟨p, size, false, isPmem⟩ ∧ Leads l₀ now l := by
  induction h with
  | opened hb hr =>
    obtain ⟨hopen, hready⟩ := open_ready hv hmin hroom hsmall h₀ hp hb isPmem
    rw [hopen] at hr
    cases hr
    exact ⟨l₀, hready, rfl, .nil⟩
  | called h hc hr ih =>
    obtain ⟨l, hready, hplp, hleads⟩ := ih
    obtain ⟨-, r, w', hrun, -, hret, hready'⟩ := hready.call_step hc
    rw [hr] at hrun
    cases hrun
    cases hret
    exact ⟨_, hready', hplp, .returned hleads⟩

theorem sessions_holds (hv : Valid u hdr) (hmin : u.minPool ≤ size) (hroom : dataStart u ≤ size) (hsmall : size < 2 ^ 63)
    (h₀ : Holds u hdr size d₀ l₀) {hist : History} (h : Sessions u size d₀ d hist) :
    ∃ l, Holds u hdr size d l ∧ Leads l₀ hist l := by
  induction h with
  | refl => exact ⟨l₀, h₀, .nil⟩
  | openCrashed _ hp hb hc ih =>
    obtain ⟨l, hl, hleads⟩ := ih
    obtain ⟨hopen, hready⟩ := open_ready hv hmin hroom hsmall hl hp hb _
    obtain ⟨k, hk⟩ := hc
    rw [hopen] at hk
    rw [List.take_of_length_le (Nat.le_add_right _ _)] at hk
    exact ⟨l, hready.clean.image hk ▸ hready.holds, hleads⟩
  | ended _ hp hs hc ih =>
    obtain ⟨l, hl, hleads⟩ := ih
    obtain ⟨l', hready, rfl, hnow⟩ := session_ready hv hmin hroom hsmall hl hp hs
    exact ⟨l', hready.clean.image hc ▸ hready.holds, hleads.append hnow⟩
  | callCrashed _ hp hs hl hc ih =>
    obtain ⟨l, hholds, hleads⟩ := ih
    obtain ⟨l', hready, rfl, hnow⟩ := session_ready hv hmin hroom hsmall hholds hp hs
    rcases (hready.call_step hl).crash _ hc with h | h
    · exact ⟨l', h, hleads.append (.lost hnow)⟩
    · exact ⟨_, h, hleads.append (.kept hnow)⟩

variable {plp : PMEMlogpool} {w : World}

theorem Ready.tell (h : Ready u hdr size w plp l) : pmemlogTell u plp w = (.ok l.bytes.length, w) := by
  have hstart : w.mem (startOffset u plp) = dataStart u := h.holds.start
  have hle := h.le_size
  have hsmall := h.small
  rw [pmemlogTell, Prog.bind_ok (Prog.load_apply _ w), Prog.bind_ok (Prog.load_apply _ w), h.write_eq, hstart,
    Prog.pure_apply, show (dataStart u + l.bytes.length + 2 ^ 64 - dataStart u) % 2 ^ 64 = l.bytes.length by omega]

theorem Ready.nbyte (h : Ready u hdr size w plp l) : pmemlogNbyte u plp w = (.ok (size - dataStart u), w) := by
  have hstart : w.mem (startOffset u plp) = dataStart u := h.holds.start
  have hroom := h.room
  have hsmall := h.small
  rw [pmemlogNbyte, Prog.bind_ok (Prog.load_apply _ w), Prog.bind_ok (Prog.load_apply _ w), h.end_eq, hstart,
    Prog.pure_apply, show (size + 2 ^ 64 - dataStart u) % 2 ^ 64 = size - dataStart u by omega]

theorem check_apply (hv : Valid u hdr) (hmin : u.minPool ≤ size) (hroom : dataStart u ≤ size) {p : ℕ} (hp : 64 ∣ p)
    (h : Holds u hdr size (fileAt p w.mem) l) (isPmem : Bool) : pmemlogPoolCheck u p size isPmem w = (.ok 1, w) := by
  have hfits := l.fits
  have hstart : w.mem (p + u.hdrSize) = dataStart u := h.start
  have hend : w.mem (p + (u.hdrSize + 8)) = size := h.end_
  have hwrite : w.mem (p + (u.hdrSize + 16)) = dataStart u + l.bytes.length := h.write
  rw [pmemlogPoolCheck, Prog.bind_ok (open_apply hv hmin hroom hp h isPmem true)]
  simp only [startOffset, endOffset, writeOffset]
  rw [Prog.bind_ok (Prog.load_apply _ w), Prog.bind_ok (Prog.load_apply _ w), Prog.bind_ok (Prog.load_apply _ w), hstart,
    hend, hwrite, if_neg (by omega), Prog.pure_apply]

/-- The log survives its sessions. Wherever they ended or crashed, the pool opens again and is consistent, and it
holds what the calls that returned and some of the interrupted ones make of the first contents: `pmemlog_tell` gives
its length, `pmemlog_nbyte` its capacity, and a walk hands out its bytes. -/
theorem sessions_contents (hv : Valid u hdr) (hmin : u.minPool ≤ size) (hroom : dataStart u ≤ size)
    (hsmall : size < 2 ^ 63) (h₀ : Holds u hdr size d₀ l₀) {hist : History} (h : Sessions u size d₀ d hist) {p : ℕ}
    (hp : 64 ∣ p) (hb : Booted p d w) (isPmem : Bool) :
    ∃ plp l, pmemlogPoolOpen u p size isPmem w = (.ok (.ok plp), w) ∧ Leads l₀ hist l ∧
      pmemlogPoolCheck u p size isPmem w = (.ok 1, w) ∧ pmemlogTell u plp w = (.ok l.bytes.length, w) ∧
      pmemlogNbyte u plp w = (.ok (size - dataStart u), w) ∧
      ∀ (σ : Type) (process : σ → List UInt8 → σ × Bool) (fuel : ℕ) (s : σ),
        pmemlogWalk u plp process 0 fuel s w = (.ok (process s l.bytes).1, w) := by
  obtain ⟨l, hl, hleads⟩ := sessions_holds hv hmin hroom hsmall h₀ h
  obtain ⟨hopen, hready⟩ := open_ready hv hmin hroom hsmall hl hp hb isPmem
  refine ⟨_, l, hopen, hleads, check_apply hv hmin hroom hp hready.holds isPmem, hready.tell, hready.nbyte, ?_⟩
  intro σ process fuel s
  rw [pmemlogWalk_zero process hready, feed]
  split <;> rfl

end Run

/-- A process creates a pool, the next one appends three bytes and is interrupted in a second append. -/
theorem sessions_contents_interrupted : ∃ d w plp, Booted 4096 d w ∧
    ∃ l : Contents (2097152 - dataStart pageHdr),
      pmemlogPoolOpen pageHdr 4096 2097152 true w = (.ok (.ok plp), w) ∧
      Leads (Contents.empty _) [(.append [4], none), (.append [1, 2, 3], some none)] l ∧
      pmemlogTell pageHdr plp w = (.ok l.bytes.length, w) := by
  have hmin : pageHdr.minPool ≤ 2097152 := by decide
  have hroom : dataStart pageHdr ≤ 2097152 := by decide
  obtain ⟨w₀, -, hcreated⟩ := create_ready hmin hroom (by decide) (by decide : 64 ∣ 4096)
    (Booted.boot 4096 zeros fun _ => true) zeros_none true
  have hb := Booted.boot 4096 (fileAt 4096 w₀.mem) fun _ => true
  obtain ⟨hopen, hready⟩ := open_ready zeros_fresh hmin hroom (by decide) hcreated.holds (by decide : 64 ∣ 4096) hb true
  have hfits : (Call.step (Contents.empty (2097152 - dataStart pageHdr)) (.append [1, 2, 3])).2 = none := rfl
  obtain ⟨-, r, w₁, hrun, -, rfl, -⟩ := hready.call_step (c := .append [1, 2, 3]) (by decide)
  rw [hfits] at hrun
  obtain ⟨img, hcrash⟩ : ∃ img, CrashDuring (Call.run pageHdr ⟨4096, 2097152, false, true⟩ (.append [4])) w₁ img :=
    ⟨_, 0, CrashImage.all _ _⟩
  have hs := Sessions.callCrashed .refl (by decide : 64 ∣ 4096) (.called (.opened hb hopen) (by decide) hrun)
    (by decide) hcrash
  have hb' := Booted.boot 4096 (fileAt 4096 img) fun _ => true
  obtain ⟨plp, l, hopen', hleads, -, htell, -⟩ := sessions_contents zeros_fresh hmin hroom (by decide) hcreated.holds hs
    (by decide : 64 ∣ 4096) hb' true
  exact ⟨_, _, plp, hb', l, hopen', hleads, htell⟩

end PmemExamples.Log
