import Mathlib.Algebra.BigOperators.Group.List.Basic
import Mathlib.Logic.Function.Basic
import Mathlib.Tactic

/-! # Splitting a file into words (`binarytree/tree_wordfreq.c`)

`ptr` walks over the buffer `word` and is `NULL` between words. The state also keeps the strings passed to
`tree_insert`; a store outside the buffer ends the run with `none`. -/

namespace PmemExamples.WordTree
set_option autoImplicit false

/-- `MAXWORD`. -/
@[simp] abbrev maxWord : ℕ := 8192

/-- `isalpha` in the C locale. -/
def isalpha (c : ℕ) : Bool := 65 ≤ c ∧ c ≤ 90 ∨ 97 ≤ c ∧ c ≤ 122

structure Splitter where
  word : ℕ → ℕ
  /-- `ptr - word`, or `NULL` -/
  ptr : Option ℕ
  inserted : List (List ℕ)

namespace Splitter

/-- `*ptr++ = c`, with `ptr` at `&word[i]`. -/
def put (s : Splitter) (i c : ℕ) : Option Splitter :=
  if i < maxWord then some { s with word := Function.update s.word i c, ptr := some (i + 1) } else none

/-- The string that starts at `word`. -/
def string (s : Splitter) : List ℕ := ((List.range maxWord).map s.word).takeWhile (· ≠ 0)

/-- "word ended, store it" -/
def store (s : Splitter) (i : ℕ) : Option Splitter := do
  let s ← s.put i 0
  return { s with ptr := none, inserted := s.inserted ++ [s.string] }

/-- One round of the loop. -/
def step (s : Splitter) (c : ℕ) : Option Splitter :=
  if isalpha c then
    match s.ptr with
    | none => s.put 0 c
    | some i => if i < maxWord - 1 then s.put i c else s.store i
  else
    match s.ptr with
    | none => some s
    | some i => s.store i

end Splitter

/-- `tree_insert_words` on a file with the bytes `input`: what it passes to `tree_insert`. -/
def treeInsertWords (word : ℕ → ℕ) (input : List ℕ) : Option (List (List ℕ)) := do
  let s ← input.foldlM Splitter.step ⟨word, none, []⟩
  match s.ptr with
  | none => return s.inserted
  | some i => return (← s.store i).inserted

/-! ## What it inserts -/

/-- The input cut at the bytes that are no letters. -/
def segments (input : List ℕ) : List (List ℕ) := input.splitOnP fun c => !isalpha c

/-- The maximal runs of letters. -/
def letterRuns (input : List ℕ) : List (List ℕ) := (segments input).filter (· ≠ [])

/-- What becomes of a run: its pieces of 8191 letters, a letter being lost after each. -/
def pieces (run : List ℕ) : List (List ℕ) :=
  if run = [] then [] else run.take (maxWord - 1) :: pieces (run.drop maxWord)
  termination_by run.length
  decreasing_by
    have := List.length_pos_iff.mpr ‹_›
    simp only [List.length_drop, maxWord]
    omega

theorem pieces_nil : pieces [] = [] := by rw [pieces, if_pos rfl]

theorem pieces_cons {run : List ℕ} (h : run ≠ []) :
    pieces run = run.take (maxWord - 1) :: pieces (run.drop maxWord) := by
  rw [pieces, if_neg h]

theorem pieces_short {run : List ℕ} (h : run ≠ []) (hlen : run.length ≤ maxWord) :
    pieces run = [run.take (maxWord - 1)] := by
  rw [pieces_cons h, List.drop_eq_nil_of_le hlen, pieces_nil]

theorem length_pieces {run : List ℕ} (h : run ≠ []) :
    1 ≤ (pieces run).length ∧ (maxWord < run.length → 2 ≤ (pieces run).length) := by
  rw [pieces_cons h]
  refine ⟨by simp, fun hlong => ?_⟩
  have hrest : run.drop maxWord ≠ [] := fun hnil => by
    have := List.drop_eq_nil_iff.mp hnil
    omega
  rw [pieces_cons hrest]
  simp

theorem segments_append {letters : List ℕ} (h : ∀ c ∈ letters, isalpha c = true) (rest : List ℕ) :
    segments (letters ++ rest) = (segments rest).modifyHead (letters ++ ·) := by
  induction letters with
  | nil => cases hs : segments rest <;> simp [hs]
  | cons c letters ih =>
    have hc := h c List.mem_cons_self
    rw [List.cons_append, segments, List.splitOnP_cons_eq_if_modifyHead, if_neg (by simp [hc]), ← segments,
      ih fun b hb => h b (List.mem_cons_of_mem _ hb), List.modifyHead_modifyHead]
    rfl

theorem segments_break {letters rest : List ℕ} {c : ℕ} (h : ∀ b ∈ letters, isalpha b = true) (hc : isalpha c = false) :
    segments (letters ++ c :: rest) = letters :: segments rest :=
  List.splitOnP_append_cons_of_forall_mem (fun b hb => by simp [h b hb]) c (by simp [hc]) rest

/-- The pieces of all runs. -/
def allPieces (input : List ℕ) : List (List ℕ) := (segments input).flatMap pieces

theorem allPieces_letters {letters : List ℕ} (h : ∀ c ∈ letters, isalpha c = true) (hne : letters ≠ [])
    (hlen : letters.length ≤ maxWord - 1) : allPieces letters = [letters] := by
  rw [allPieces, segments, List.splitOnP_eq_singleton fun c hc => by simp [h c hc], List.flatMap_singleton,
    pieces_short hne (by omega), List.take_of_length_le hlen]

theorem allPieces_break {letters rest : List ℕ} {c : ℕ} (h : ∀ b ∈ letters, isalpha b = true) (hc : isalpha c = false)
    (hne : letters ≠ []) (hlen : letters.length ≤ maxWord - 1) :
    allPieces (letters ++ c :: rest) = letters :: allPieces rest := by
  rw [allPieces, segments_break h hc, List.flatMap_cons, pieces_short hne (by omega), List.take_of_length_le hlen]
  rfl

theorem allPieces_full {letters rest : List ℕ} {c : ℕ} (h : ∀ b ∈ letters, isalpha b = true) (hc : isalpha c = true)
    (hlen : letters.length = maxWord - 1) : allPieces (letters ++ c :: rest) = letters :: allPieces rest := by
  have hall : ∀ b ∈ letters ++ [c], isalpha b = true := by
    simp only [List.mem_append, List.mem_singleton]
    rintro b (hb | rfl)
    · exact h b hb
    · exact hc
  obtain ⟨seg, more, hrest⟩ := List.exists_cons_of_ne_nil (List.splitOnP_ne_nil (fun b => !isalpha b) rest)
  have hseg : segments rest = seg :: more := hrest
  have htake : (letters ++ [c] ++ seg).take (maxWord - 1) = letters := by
    rw [List.append_assoc, ← hlen, List.take_left]
  have hdrop : (letters ++ [c] ++ seg).drop maxWord = seg := by
    rw [show maxWord = (letters ++ [c]).length by simp [hlen], List.drop_left]
  rw [List.append_cons, allPieces, allPieces, segments_append hall, hseg, List.modifyHead_cons, List.flatMap_cons,
    List.flatMap_cons, pieces_cons (by simp), htake, hdrop, List.cons_append]

/-- The buffer holds the letters of the word read so far. -/
structure Reading (s : Splitter) (letters : List ℕ) : Prop where
  ptr : s.ptr = if letters = [] then none else some letters.length
  word : ∀ j (h : j < letters.length), s.word j = letters[j]
  alpha : ∀ c ∈ letters, isalpha c = true
  fits : letters.length ≤ maxWord - 1

theorem isalpha_ne_zero {c : ℕ} (h : isalpha c = true) : c ≠ 0 := by
  rintro rfl
  exact absurd h (by decide)

theorem Reading.put {s : Splitter} {letters : List ℕ} {c : ℕ} (h : Reading s letters) (hc : isalpha c = true)
    (hlen : letters.length < maxWord - 1) : ∃ s', s.put letters.length c = some s' ∧ Reading s' (letters ++ [c]) ∧
      s'.inserted = s.inserted := by
  simp only [maxWord] at hlen
  refine ⟨_, if_pos (by simp only [maxWord]; omega), ⟨?_, fun j hj => ?_, ?_, by simp; omega⟩, rfl⟩
  · simp
  · dsimp only
    rw [List.length_append, List.length_singleton] at hj
    rcases Nat.lt_or_ge j letters.length with hlt | hge
    · rw [Function.update_of_ne (by omega), h.word j hlt, List.getElem_append_left hlt]
    · obtain rfl : j = letters.length := by omega
      simp
  · simp only [List.mem_append, List.mem_singleton]
    rintro b (hb | rfl)
    · exact h.alpha b hb
    · exact hc

theorem Reading.store {s : Splitter} {letters : List ℕ} (h : Reading s letters) :
    ∃ s', s.store letters.length = some s' ∧ Reading s' [] ∧ s'.inserted = s.inserted ++ [letters] := by
  have hfits := h.fits
  simp only [maxWord] at hfits
  have hstring : (((List.range maxWord).map (Function.update s.word letters.length 0)).takeWhile (· ≠ 0)) = letters := by
    obtain ⟨k, hk⟩ : ∃ k, maxWord = letters.length + (k + 1) :=
      ⟨8192 - letters.length - 1, by simp only [maxWord]; omega⟩
    have hletters : (List.range letters.length).map (Function.update s.word letters.length 0) = letters := by
      refine List.ext_getElem (by simp) fun j hj hj' => ?_
      rw [List.getElem_map, List.getElem_range, Function.update_of_ne (by omega), h.word j hj']
    rw [hk, List.range_add, List.map_append, hletters, List.takeWhile_append_of_pos fun c hc => by
      simpa using isalpha_ne_zero (h.alpha c hc), List.range_succ_eq_map]
    simp
  refine ⟨{ word := Function.update s.word letters.length 0, ptr := none, inserted := s.inserted ++ [letters] }, ?_,
    ⟨rfl, by simp, by simp, by simp⟩, rfl⟩
  rw [Splitter.store, Splitter.put, if_pos (by simp only [maxWord]; omega)]
  exact congrArg some (by rw [Splitter.string, hstring])

theorem Reading.loop : ∀ (input : List ℕ) {s : Splitter} {letters : List ℕ}, Reading s letters →
    (do
      let s ← input.foldlM Splitter.step s
      match s.ptr with
      | none => return s.inserted
      | some i => return (← s.store i).inserted) = some (s.inserted ++ allPieces (letters ++ input))
  | [], s, letters, h => by
    rw [List.foldlM_nil, List.append_nil]
    by_cases hne : letters = []
    · have hptr := h.ptr
      rw [if_pos hne] at hptr
      subst hne
      show (match s.ptr with
        | none => some s.inserted
        | some i => do return (← s.store i).inserted) = _
      rw [hptr]
      simp [allPieces, segments, pieces_nil]
    · have hptr := h.ptr
      rw [if_neg hne] at hptr
      obtain ⟨s', hstore, -, hins⟩ := h.store
      show (match s.ptr with
        | none => some s.inserted
        | some i => do return (← s.store i).inserted) = _
      rw [hptr, allPieces_letters h.alpha hne h.fits, ← hins]
      dsimp only
      rw [hstore]
      rfl
  | c :: input, s, letters, h => by
    have hptr := h.ptr
    have hgo : ∀ {s' : Splitter} {letters' : List ℕ}, s.step c = some s' → Reading s' letters' →
        s'.inserted ++ allPieces (letters' ++ input) = s.inserted ++ allPieces (letters ++ c :: input) →
        (do
          let s ← (c :: input).foldlM Splitter.step s
          match s.ptr with
          | none => return s.inserted
          | some i => return (← s.store i).inserted) = some (s.inserted ++ allPieces (letters ++ c :: input)) := by
      intro s' letters' hstep h' heq
      rw [List.foldlM_cons, hstep, ← heq]
      exact Reading.loop input h'
    by_cases hc : isalpha c = true
    · by_cases hlen : letters.length < maxWord - 1
      · obtain ⟨s', hput, h', hins⟩ := h.put hc hlen
        refine hgo (?_ : _ = some s') h' (by rw [hins, List.append_assoc, List.singleton_append])
        rw [Splitter.step, if_pos hc, hptr]
        by_cases hne : letters = []
        · subst hne
          exact hput
        · rw [if_neg hne]
          dsimp only
          rw [if_pos hlen, hput]
      · -- the letter is lost
        have hfits := h.fits
        obtain ⟨s', hstore, h', hins⟩ := h.store
        refine hgo (?_ : _ = some s') h' ?_
        · rw [Splitter.step, if_pos hc, hptr, if_neg fun hnil => by simp [hnil] at hlen]
          dsimp only
          rw [if_neg hlen, hstore]
        · rw [hins, List.nil_append, allPieces_full h.alpha hc (by omega), List.append_assoc, List.singleton_append]
    · have hc' : isalpha c = false := by simpa using hc
      by_cases hne : letters = []
      · subst hne
        refine hgo (?_ : _ = some s) h ?_
        · rw [Splitter.step, if_neg hc, hptr]
          rfl
        · have hbreak : segments ([] ++ c :: input) = [] :: segments input := segments_break (by simp) hc'
          rw [List.nil_append] at hbreak
          rw [List.nil_append, List.nil_append, allPieces, allPieces, hbreak, List.flatMap_cons, pieces_nil,
            List.nil_append]
      · obtain ⟨s', hstore, h', hins⟩ := h.store
        refine hgo (?_ : _ = some s') h' ?_
        · rw [Splitter.step, if_neg hc, hptr, if_neg hne]
          exact hstore
        · rw [hins, List.nil_append, allPieces_break h.alpha hc' hne h.fits, List.append_assoc, List.singleton_append]

/-- Whatever the buffer held: no store is outside it, and the pieces of the runs are inserted. -/
theorem treeInsertWords_eq (word : ℕ → ℕ) (input : List ℕ) : treeInsertWords word input = some (allPieces input) :=
  have hstart : Reading ⟨word, none, []⟩ [] := ⟨rfl, by simp, by simp, by simp⟩
  Reading.loop input hstart

theorem allPieces_eq (input : List ℕ) : allPieces input = (letterRuns input).flatMap pieces := by
  unfold allPieces letterRuns
  induction segments input with
  | nil => rfl
  | cons run runs ih =>
    by_cases h : run = []
    · rw [List.flatMap_cons, ih, h, pieces_nil]
      simp
    · rw [List.flatMap_cons, ih, List.filter_cons_of_pos (by simpa using h), List.flatMap_cons]

/-- Each run is inserted once, cut to the buffer, if and only if no run is longer than the buffer. -/
theorem treeInsertWords_truncates_iff (word : ℕ → ℕ) (input : List ℕ) :
    treeInsertWords word input = some ((letterRuns input).map (List.take (maxWord - 1))) ↔
      ∀ run ∈ letterRuns input, run.length ≤ maxWord := by
  have hne : ∀ run ∈ letterRuns input, run ≠ [] := fun run hrun => by simpa using List.of_mem_filter hrun
  rw [treeInsertWords_eq, Option.some.injEq, allPieces_eq]
  generalize letterRuns input = runs at hne
  constructor
  · intro h
    by_contra hlong
    push Not at hlong
    obtain ⟨run, hrun, hlen⟩ := hlong
    -- there would be more pieces than runs
    have hcount : ((runs.flatMap pieces).length : ℕ) = runs.length := by rw [h, List.length_map]
    obtain ⟨l, r, rfl⟩ := List.append_of_mem hrun
    have hge : ∀ l : List (List ℕ), (∀ run ∈ l, run ≠ []) → l.length ≤ (l.flatMap pieces).length := by
      intro l hl
      induction l with
      | nil => simp
      | cons run l ih =>
        have h1 := (length_pieces (hl run List.mem_cons_self)).1
        have h2 := ih fun b hb => hl b (List.mem_cons_of_mem _ hb)
        rw [List.flatMap_cons, List.length_append, List.length_cons]
        omega
    have h1 := hge l fun b hb => hne b (by simp [hb])
    have h2 := hge r fun b hb => hne b (by simp [hb])
    have h3 := (length_pieces (hne run (by simp))).2 hlen
    rw [List.flatMap_append, List.flatMap_cons, List.length_append, List.length_append, List.length_append,
      List.length_cons] at hcount
    omega
  · intro h
    induction runs with
    | nil => rfl
    | cons run runs ih =>
      rw [List.flatMap_cons, List.map_cons, pieces_short (hne run List.mem_cons_self) (h run List.mem_cons_self),
        ih (fun b hb => hne b (List.mem_cons_of_mem _ hb)) fun b hb => h b (List.mem_cons_of_mem _ hb)]
      rfl

/-- A word of 8193 letters is inserted as two. -/
theorem longWord_split : letterRuns (List.replicate 8193 97) = [List.replicate 8193 97] ∧
    treeInsertWords (fun _ => 0) (List.replicate 8193 97) = some [List.replicate 8191 97, [97]] ∧
    treeInsertWords (fun _ => 0) (List.replicate 8193 97) ≠
      some ((letterRuns (List.replicate 8193 97)).map (List.take (maxWord - 1))) := by
  have hletters : ∀ c ∈ List.replicate 8193 97, isalpha c = true := fun c hc => by
    rw [List.eq_of_mem_replicate hc]
    decide
  have hseg : segments (List.replicate 8193 97) = [List.replicate 8193 97] :=
    List.splitOnP_eq_singleton fun c hc => by simp [hletters c hc]
  have hne : List.replicate 8193 97 ≠ [] := List.cons_ne_nil _ _
  have hruns : letterRuns (List.replicate 8193 97) = [List.replicate 8193 97] := by
    rw [letterRuns, hseg]
    exact List.filter_eq_self.mpr fun run hrun => by rw [List.mem_singleton.mp hrun, decide_eq_true hne]
  have hlast : pieces [97] = [[97]] := pieces_short (List.cons_ne_nil _ _) (by decide)
  have hsplit : treeInsertWords (fun _ => 0) (List.replicate 8193 97) = some [List.replicate 8191 97, [97]] := by
    rw [treeInsertWords_eq, allPieces, hseg, List.flatMap_singleton, pieces_cons hne, List.take_replicate,
      List.drop_replicate]
    exact congrArg (fun rest => some (List.replicate 8191 97 :: rest)) hlast
  refine ⟨hruns, hsplit, fun h => ?_⟩
  rw [hsplit, hruns] at h
  exact absurd (congrArg List.length (Option.some.inj h)) (by decide)

end PmemExamples.WordTree
