import PmemExamples.Persist.Program

/-! # Programs that only read

A read-only program over a memory: its outcome, and the words it has read, in order. -/

namespace PmemExamples.Persist
set_option autoImplicit false

def Scan (α : Type) : Type := Mem → Outcome α × List ℕ

namespace Scan
variable {α β : Type}

protected def pure (a : α) : Scan α := fun _ => (.ok a, [])

protected def bind (p : Scan α) (f : α → Scan β) : Scan β := fun m =>
  match p m with
  | (.ok a, reads) => ((f a m).1, reads ++ (f a m).2)
  | (.fatal s, reads) => (.fatal s, reads)
  | (.hang, reads) => (.hang, reads)

instance : Monad Scan where
  pure := Scan.pure
  bind := Scan.bind

/-- A word load. -/
def load (a : ℕ) : Scan ℕ := fun m => (.ok (m a), [a])

def fatal (msg : String) : Scan α := fun _ => (.fatal msg, [])

/-- The loop has used up its fuel. -/
def hang : Scan α := fun _ => (.hang, [])

@[simp] theorem pure_apply (a : α) (m : Mem) : (pure a : Scan α) m = (.ok a, []) := rfl
@[simp] theorem load_apply (a : ℕ) (m : Mem) : load a m = (.ok (m a), [a]) := rfl

theorem bind_apply (p : Scan α) (f : α → Scan β) (m : Mem) :
    (p >>= f) m = match p m with
      | (.ok a, reads) => ((f a m).1, reads ++ (f a m).2)
      | (.fatal s, reads) => (.fatal s, reads)
      | (.hang, reads) => (.hang, reads) := rfl

theorem bind_ok {p : Scan α} {f : α → Scan β} {m : Mem} {a : α} {reads : List ℕ}
    (h : p m = (.ok a, reads)) : (p >>= f) m = ((f a m).1, reads ++ (f a m).2) := by
  rw [bind_apply, h]

theorem bind_fatal {p : Scan α} {f : α → Scan β} {m : Mem} {msg : String} {reads : List ℕ}
    (h : p m = (.fatal msg, reads)) : (p >>= f) m = (.fatal msg, reads) := by
  rw [bind_apply, h]

theorem bind_hang {p : Scan α} {f : α → Scan β} {m : Mem} {reads : List ℕ}
    (h : p m = (.hang, reads)) : (p >>= f) m = (.hang, reads) := by
  rw [bind_apply, h]

theorem load_bind (a : ℕ) (f : ℕ → Scan β) (m : Mem) :
    (load a >>= f) m = ((f (m a) m).1, a :: (f (m a) m).2) := rfl

end Scan

end PmemExamples.Persist
