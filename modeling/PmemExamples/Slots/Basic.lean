import Mathlib.Logic.Function.Basic
import Mathlib.Tactic

/-! # Arrays that hold a list

An array with more slots than are in use. `Filled` says which list the first slots hold, and says nothing of the
rest, so that a block move that shortens the list has nothing to clear. -/

namespace PmemExamples.Slots
set_option autoImplicit false

variable {α : Type} {f g : ℕ → α} {l r : List α} {a b : α}

def Filled (f : ℕ → α) (l : List α) : Prop := ∀ i (h : i < l.length), f i = l[i]

/-- A block of so many slots from slot `j` of `g` on, moved to slot `i` of `f`. -/
def move (f g : ℕ → α) (i j count : ℕ) : ℕ → α := fun s => if i ≤ s ∧ s < i + count then g (s - i + j) else f s

theorem move_zero (f g : ℕ → α) (i j : ℕ) : move f g i j 0 = f := by
  funext s
  exact if_neg (by omega)

/-- A block moved slot by slot, from its first slot or from its last. -/
theorem move_succ_left (f g : ℕ → α) (i j count : ℕ) :
    Function.update (move f g i j count) (i + count) (g (j + count)) = move f g i j (count + 1) := by
  funext s
  by_cases hs : s = i + count
  · subst hs
    rw [Function.update_self, move, if_pos (by omega), show i + count - i + j = j + count by omega]
  · rw [Function.update_of_ne hs, move, move]
    by_cases hin : i ≤ s ∧ s < i + count
    · rw [if_pos hin, if_pos (by omega)]
    · rw [if_neg hin, if_neg (by omega)]

theorem move_succ_right (f g : ℕ → α) (i j count : ℕ) :
    Function.update (move f g (i + 1) (j + 1) count) i (g j) = move f g i j (count + 1) := by
  funext s
  by_cases hs : s = i
  · subst hs
    rw [Function.update_self, move, if_pos (by omega), Nat.sub_self, Nat.zero_add]
  · rw [Function.update_of_ne hs, move, move]
    by_cases hin : i + 1 ≤ s ∧ s < i + 1 + count
    · rw [if_pos hin, if_pos (by omega), show s - (i + 1) + (j + 1) = s - i + j by omega]
    · rw [if_neg hin, if_neg (by omega)]

theorem move_of_lt {s i : ℕ} (h : s < i) (f g : ℕ → α) (j count : ℕ) : move f g i j count s = f s := if_neg (by omega)

namespace Filled

theorem nil (f : ℕ → α) : Filled f [] := fun i hi => absurd hi (Nat.not_lt_zero i)

theorem congr (h : Filled f l) (hg : ∀ i < l.length, g i = f i) : Filled g l := fun i hi => (hg i hi).trans (h i hi)

theorem append_iff : Filled f (l ++ r) ↔ Filled f l ∧ ∀ i (h : i < r.length), f (l.length + i) = r[i] := by
  constructor
  · intro h
    refine ⟨fun i hi => ?_, fun i hi => ?_⟩
    · rw [h i (by rw [List.length_append]; omega), List.getElem_append_left hi]
    · rw [h _ (by rw [List.length_append]; omega), List.getElem_append_right (Nat.le_add_right _ _)]
      simp
  · rintro ⟨hl, hr⟩ i hi
    rw [List.length_append] at hi
    rcases Nat.lt_or_ge i l.length with hil | hil
    · rw [hl i hil, List.getElem_append_left hil]
    · obtain ⟨j, rfl⟩ := Nat.exists_eq_add_of_le hil
      rw [hr j (by omega), List.getElem_append_right hil]
      simp

theorem left (h : Filled f (l ++ r)) : Filled f l := (append_iff.mp h).1

theorem get (h : Filled f (l ++ a :: r)) : f l.length = a := (append_iff.mp h).2 0 (by simp)

theorem get_first (h : Filled f (a :: r)) : f 0 = a := h 0 (by simp)

theorem set (h : Filled f (l ++ a :: r)) (b : α) : Filled (Function.update f l.length b) (l ++ b :: r) := by
  obtain ⟨hl, hr⟩ := append_iff.mp h
  refine append_iff.mpr ⟨fun i hi => ?_, fun i hi => ?_⟩
  · rw [Function.update_of_ne hi.ne, hl i hi]
  · cases i with
    | zero => simp
    | succ i =>
      rw [Function.update_of_ne (by omega), hr (i + 1) hi]
      simp

theorem push (h : Filled f l) (a : α) : Filled (Function.update f l.length a) (l ++ [a]) := by
  refine append_iff.mpr ⟨fun i hi => ?_, fun i hi => ?_⟩
  · rw [Function.update_of_ne hi.ne, h i hi]
  · obtain rfl : i = 0 := by simpa using hi
    simp

theorem erase (h : Filled f (l ++ a :: r)) : Filled (move f f l.length (l.length + 1) r.length) (l ++ r) := by
  obtain ⟨hl, hr⟩ := append_iff.mp h
  refine append_iff.mpr ⟨fun i hi => ?_, fun i hi => ?_⟩
  · rw [move, if_neg (by omega), hl i hi]
  · rw [move, if_pos (by omega), show l.length + i - l.length + (l.length + 1) = l.length + (i + 1) by omega,
      hr (i + 1) (by simpa using hi)]
    simp

/-- A value in a slot from which the rest has been moved away. -/
theorem insert (h : Filled f (l ++ r)) (a : α) :
    Filled (Function.update (move f f (l.length + 1) l.length r.length) l.length a) (l ++ a :: r) := by
  obtain ⟨hl, hr⟩ := append_iff.mp h
  refine append_iff.mpr ⟨fun i hi => ?_, fun i hi => ?_⟩
  · rw [Function.update_of_ne hi.ne, move, if_neg (by omega), hl i hi]
  · cases i with
    | zero => simp
    | succ i =>
      rw [List.length_cons] at hi
      rw [Function.update_of_ne (by omega), move, if_pos (by omega),
        show l.length + (i + 1) - (l.length + 1) + l.length = l.length + i by omega, hr i (by omega)]
      simp

theorem append (h : Filled f l) (hg : Filled g r) : Filled (move f g l.length 0 r.length) (l ++ r) := by
  refine append_iff.mpr ⟨fun i hi => ?_, fun i hi => ?_⟩
  · rw [move, if_neg (by omega), h i hi]
  · rw [move, if_pos (by omega), show l.length + i - l.length + 0 = i by omega, hg i hi]

/-- The end of an array, at the front of another. -/
theorem suffix (h : Filled g (l ++ r)) : Filled (move f g 0 l.length r.length) r := fun i hi => by
  rw [move, if_pos (by omega), show i - 0 + l.length = l.length + i by omega, (append_iff.mp h).2 i hi]

end Filled

end PmemExamples.Slots
