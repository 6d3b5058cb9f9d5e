import PmemExamples.BTree.Create
import PmemExamples.CHashtable.Code

/-! # The words of the pool show a table

`Shows` relates the words of a hash table to a record of `Table`. As long as its parts are apart from each other,
the loops over the words do what those over the record do. -/

namespace PmemExamples.CHashtable
open Persist BTree
set_option autoImplicit false

/-! ## Sessions -/

namespace Session
variable {α β : Type} {q : Session α} {f : α → Session β} {prog : Prog α} {a : α} {H H' : Host} {w w' : World} {g : ℕ}
  {rs : List Request} {msg : String}

theorem bind_apply (q : Session α) (f : α → Session β) (H : Host) : (q >>= f) H = match q H with
    | (.ok a, H') => f a H'
    | (.fatal s, H') => (.fatal s, H')
    | (.hang, H') => (.hang, H') := rfl

theorem bind_ok (h : q H = (.ok a, H')) : (q >>= f) H = f a H' := by rw [bind_apply, h]

theorem bind_fatal (h : q H = (.fatal msg, H')) : (q >>= f) H = (.fatal msg, H') := by rw [bind_apply, h]

theorem discard_bind (q : Session α) (r : Session β) (H : Host) :
    ((do let _ ← q; return () : Session Unit) >>= fun _ => r) H = (q >>= fun _ => r) H := by
  rw [bind_apply, bind_apply, bind_apply]
  cases q H with
  | mk r H' => cases r <;> rfl

theorem ite_apply (c : Prop) [Decidable c] (q q' : Session α) (H : Host) :
    (if c then q else q') H = if c then q H else q' H := by
  split <;> rfl

theorem pure_apply (a : α) (H : Host) : (pure a : Session α) H = (.ok a, H) := rfl

theorem lift_ok (h : prog w = (.ok a, w')) : lift prog ⟨w, g, rs⟩ = (.ok a, ⟨w', g, rs⟩) := by rw [lift, h]

theorem lift_fatal (h : prog w = (.fatal msg, w')) : lift prog ⟨w, g, rs⟩ = (.fatal msg, ⟨w', g, rs⟩) := by rw [lift, h]

theorem ask_apply (r : Request) (H : Host) : ask r H = (.ok (), { H with requests := H.requests ++ [r] }) := rfl

end Session

/-! ## Clearing an array -/

/-- The stores of `memset` to an array of `n` pointers. -/
def zeroEvents (N n : ℕ) : List Event := (List.range n).map fun j => .store (N + 8 * j) 0

section Zero
variable {m : Mem} {N n i : ℕ}

theorem writes_zeroEvents {ev : Event} {y : ℕ} (hev : ev ∈ zeroEvents N n) (hy : ev.Writes y) :
    N ≤ y ∧ y < N + 8 * n := by
  obtain ⟨j, hj, rfl⟩ := List.mem_map.mp hev
  have hj' := List.mem_range.mp hj
  rw [Event.writes_store] at hy
  omega

theorem zero_word (hi : i < n) : applyAll (zeroEvents N n) m (N + 8 * i) = 0 := by
  have hmem : Event.store (N + 8 * i) 0 ∈ zeroEvents N n := List.mem_map.mpr ⟨i, List.mem_range.mpr hi, rfl⟩
  refine applyAll_of_store hmem (fun v hv => ?_) m
  obtain ⟨j, -, heq⟩ := List.mem_map.mp hv
  exact (Event.store.inj heq).2.symm

theorem zero_keep (y : ℕ) (hy : y < N ∨ N + 8 * n ≤ y) : applyAll (zeroEvents N n) m y = m y := by
  refine applyAll_of_not_writes (fun ev hev hw => ?_) m
  have hrange := writes_zeroEvents hev hw
  omega

end Zero

/-! ## Words and records -/

/-- The entry at `a` is `x`. -/
structure ShowsEntry (m : Mem) (a : ℕ) (x : Entry ℕ) : Prop where
  k : m a = x.k
  v : m (a + 8) = x.v
  h : UInt32.ofNat (lowInt (m (a + 16))) = x.h
  next : m (a + 24) = x.next

/-- The table at `h` is `t`. -/
structure Shows (m : Mem) (h : ℕ) (t : Hashtable ℕ) : Prop where
  tablelength : lowInt (m h) = t.tablelength
  table : ∀ i < t.tablelength, m (m (h + 8) + 8 * i) = t.table i
  entrycount : lowInt (m (h + 16)) = t.entrycount
  loadlimit : highInt (m (h + 16)) = t.loadlimit
  primeindex : lowInt (m (h + 24)) = t.primeindex
  entries : ∀ a x, t.mem a = some x → ShowsEntry m a x

theorem ShowsEntry.congr {m m' : Mem} {a : ℕ} {x : Entry ℕ} (h : ShowsEntry m a x)
    (hm : ∀ y, a ≤ y → y < a + 32 → m' y = m y) : ShowsEntry m' a x := by
  refine ⟨?_, ?_, ?_, ?_⟩
  · rw [hm a (by omega) (by omega), h.k]
  · rw [hm (a + 8) (by omega) (by omega), h.v]
  · rw [hm (a + 16) (by omega) (by omega), h.h]
  · rw [hm (a + 24) (by omega) (by omega), h.next]

theorem Shows.lt_fuel {m : Mem} {h : ℕ} {t : Hashtable ℕ} (ht : Shows m h t) : t.tablelength < chainFuel := by
  rw [← ht.tablelength]
  exact Nat.mod_lt _ (by decide)

/-- Two ranges of addresses do not overlap. -/
def Apart (a n b m : ℕ) : Prop := a + n ≤ b ∨ b + m ≤ a

/-- The parts of a table that is growing: its header at `h`, the old array at `A` and the new one at `N`, and the
entries. -/
structure Arena (h A n N n' : ℕ) (E : ℕ → Prop) : Prop where
  headOld : Apart h 48 A (8 * n)
  headNew : Apart h 48 N (8 * n')
  oldNew : Apart A (8 * n) N (8 * n')
  headEntry : ∀ a, E a → Apart h 48 a 32
  oldEntry : ∀ a, E a → Apart A (8 * n) a 32
  newEntry : ∀ a, E a → Apart N (8 * n') a 32
  entries : ∀ a b, E a → E b → a ≠ b → Apart a 32 b 32

/-- A word of the arrays or of an entry. -/
def InArena (A n N n' : ℕ) (E : ℕ → Prop) (y : ℕ) : Prop :=
  (A ≤ y ∧ y < A + 8 * n) ∨ (N ≤ y ∧ y < N + 8 * n') ∨ ∃ a, E a ∧ a ≤ y ∧ y < a + 32

/-- The words show the two arrays and the entries. -/
structure ShowsMoving (m : Mem) (h A n N n' : ℕ) (E : ℕ → Prop) (s : Moving ℕ) : Prop where
  array : m (h + 8) = A
  length : lowInt (m h) = n
  old : ∀ i < n, m (A + 8 * i) = s.table i
  new : ∀ i < n', m (N + 8 * i) = s.newtable i
  entries : ∀ a x, s.mem a = some x → ShowsEntry m a x
  known : ∀ a x, s.mem a = some x → E a

section Moves
variable {m : Mem} {h A n N n' i e : ℕ} {E : ℕ → Prop} {s s' : Moving ℕ} {x : Entry ℕ}

theorem ShowsMoving.step (ha : Arena h A n N n' E) (hs : ShowsMoving m h A n N n' E s) (hi : i < n)
    (he : s.table i = e) (hx : s.mem e = some x) (hn : 0 < n') :
    ShowsMoving (Function.update (Function.update (Function.update m (A + 8 * i) x.next) (e + 24)
      (s.newtable (indexFor n' x.h))) (N + 8 * indexFor n' x.h) e) h A n N n' E
      ⟨Function.update s.table i x.next, Function.update s.newtable (indexFor n' x.h) e,
        Function.update s.mem e (some { x with next := s.newtable (indexFor n' x.h) })⟩ := by
  have hj : indexFor n' x.h < n' := Nat.mod_lt _ hn
  generalize indexFor n' x.h = j at hj ⊢
  have hE := hs.known e x hx
  have h₁ := ha.headOld
  have h₂ := ha.headNew
  have h₃ := ha.oldNew
  have h₄ := ha.headEntry e hE
  have h₅ := ha.oldEntry e hE
  have h₆ := ha.newEntry e hE
  unfold Apart at h₁ h₂ h₃ h₄ h₅ h₆
  have hkeep : ∀ y, (y < A ∨ A + 8 * n ≤ y) → (y < N ∨ N + 8 * n' ≤ y) → y ≠ e + 24 →
      Function.update (Function.update (Function.update m (A + 8 * i) x.next) (e + 24) (s.newtable j)) (N + 8 * j) e y =
        m y := by
    intro y hyA hyN hye
    rw [Function.update_of_ne (by omega), Function.update_of_ne hye, Function.update_of_ne (by omega)]
  refine ⟨?_, ?_, fun k hk => ?_, fun k hk => ?_, fun a y hy => ?_, fun a y hy => ?_⟩
  · rw [hkeep (h + 8) (by omega) (by omega) (by omega), hs.array]
  · rw [hkeep h (by omega) (by omega) (by omega), hs.length]
  · dsimp only
    rw [Function.update_of_ne (by omega), Function.update_of_ne (by omega)]
    by_cases hki : k = i
    · rw [hki, Function.update_self, Function.update_self]
    · rw [Function.update_of_ne (by omega), Function.update_of_ne hki, hs.old k hk]
  · dsimp only
    by_cases hkj : k = j
    · rw [hkj, Function.update_self, Function.update_self]
    · rw [Function.update_of_ne (by omega), Function.update_of_ne (by omega), Function.update_of_ne (by omega),
        Function.update_of_ne hkj, hs.new k hk]
  · by_cases hae : a = e
    · subst hae
      dsimp only at hy
      rw [Function.update_self] at hy
      obtain rfl := Option.some.inj hy
      have hshow := hs.entries a x hx
      refine ⟨?_, ?_, ?_, ?_⟩
      · rw [hkeep a (by omega) (by omega) (by omega), hshow.k]
      · rw [hkeep (a + 8) (by omega) (by omega) (by omega), hshow.v]
      · rw [hkeep (a + 16) (by omega) (by omega) (by omega), hshow.h]
      · rw [Function.update_of_ne (by omega), Function.update_self]
    · dsimp only at hy
      rw [Function.update_of_ne hae] at hy
      have hEa := hs.known a y hy
      have h₇ := ha.oldEntry a hEa
      have h₈ := ha.newEntry a hEa
      have h₉ := ha.entries a e hEa hE hae
      unfold Apart at h₇ h₈ h₉
      exact (hs.entries a y hy).congr fun z hz₁ hz₂ => hkeep z (by omega) (by omega) (by omega)
  · by_cases hae : a = e
    · rw [hae]
      exact hE
    · dsimp only at hy
      rw [Function.update_of_ne hae] at hy
      exact hs.known a y hy

theorem loadHash_runs {a : ℕ} (hx : ShowsEntry m a x) : Runs true (Code.loadHash a) m x.h [] := by
  refine Runs.load_bind rfl ?_
  rw [hx.h]
  exact Runs.pure true m _

theorem moveBucket_sim (ha : Arena h A n N n' E) (hn : 0 < n') (hi : i < n) (fuel : ℕ)
    (hs : ShowsMoving m h A n N n' E s) (hrun : moveBucket n' i fuel s = some s') :
    ∃ evs, Runs true (Code.moveBucket h N n' i fuel) m () evs ∧ ShowsMoving (applyAll evs m) h A n N n' E s' ∧
      ∀ ev ∈ evs, ∀ y, ev.Writes y → InArena A n N n' E y := by
  induction fuel generalizing m s with
  | zero => cases hrun
  | succ fuel ih =>
    rw [moveBucket] at hrun
    dsimp only at hrun
    by_cases h0 : s.table i = 0
    · rw [if_pos h0] at hrun
      obtain rfl := Option.some.inj hrun
      refine ⟨[], ?_, hs, by simp⟩
      refine Runs.load_bind hs.array (Runs.load_bind ((hs.old i hi).trans h0) ?_)
      rw [if_pos rfl]
      exact Runs.pure true m ()
    · rw [if_neg h0] at hrun
      cases hx : s.mem (s.table i) with
      | none =>
        rw [hx] at hrun
        cases hrun
      | some x =>
        rw [hx] at hrun
        have hE := hs.known _ x hx
        have hshow := hs.entries _ x hx
        have h₅ := ha.oldEntry _ hE
        have h₃ := ha.oldNew
        unfold Apart at h₅ h₃
        have hj : indexFor n' x.h < n' := Nat.mod_lt _ hn
        obtain ⟨evs, hruns, hs'', hw⟩ := ih (hs.step ha hi rfl hx hn) hrun
        refine ⟨.store (A + 8 * i) x.next :: .store (s.table i + 24) (s.newtable (indexFor n' x.h)) ::
          .store (N + 8 * indexFor n' x.h) (s.table i) :: evs, ?_, hs'', ?_⟩
        · refine Runs.load_bind hs.array (Runs.load_bind (hs.old i hi) ?_)
          rw [if_neg h0]
          refine Runs.load_bind hshow.next (Runs.store_bind ?_)
          have hhash := loadHash_runs (m := Function.update m (A + 8 * i) x.next) (hshow.congr fun y hy₁ hy₂ =>
            Function.update_of_ne (by omega) _ _)
          refine hhash.bind_silent (Runs.load_bind ?_ (Runs.store_bind (Runs.store_bind hruns)))
          rw [Function.update_of_ne (by omega), hs.new _ hj]
        · intro ev hev y hy
          simp only [List.mem_cons] at hev
          rcases hev with rfl | rfl | rfl | hev
          · rw [Event.writes_store] at hy
            exact Or.inl (by omega)
          · rw [Event.writes_store] at hy
            exact Or.inr (Or.inr ⟨_, hE, by omega, by omega⟩)
          · rw [Event.writes_store] at hy
            exact Or.inr (Or.inl (by omega))
          · exact hw ev hev y hy

theorem moveBuckets_some {s₀ : Moving ℕ} {k : ℕ} (hk : k ≤ n) (h : moveBuckets n' n s₀ = some s') :
    ∃ s, moveBuckets n' k s₀ = some s := by
  induction hk generalizing s' with
  | refl => exact ⟨s', h⟩
  | step _ ih =>
    obtain ⟨s, hs, -⟩ := Option.bind_eq_some_iff.mp h
    exact ih hs

theorem moveBuckets_sim {s₀ : Moving ℕ} (ha : Arena h A n N n' E) (hn : 0 < n') (hrun : moveBuckets n' n s₀ = some s')
    (j : ℕ) {k fuel : ℕ} (hk : k + j = n) (hfuel : j < fuel) (hs : ShowsMoving m h A n N n' E s)
    (hsome : moveBuckets n' k s₀ = some s) :
    ∃ evs, Runs true (Code.moveBuckets h N n' fuel k) m () evs ∧ ShowsMoving (applyAll evs m) h A n N n' E s' ∧
      ∀ ev ∈ evs, ∀ y, ev.Writes y → InArena A n N n' E y := by
  induction j generalizing m s k fuel with
  | zero =>
    obtain ⟨fuel, rfl⟩ : ∃ f, fuel = f + 1 := ⟨fuel - 1, by omega⟩
    obtain rfl : k = n := by omega
    obtain rfl : s = s' := Option.some.inj (hsome.symm.trans hrun)
    refine ⟨[], Runs.load_bind rfl ?_, hs, by simp⟩
    rw [hs.length, if_neg (lt_irrefl k)]
    exact Runs.pure true m ()
  | succ j ih =>
    obtain ⟨fuel, rfl⟩ : ∃ f, fuel = f + 1 := ⟨fuel - 1, by omega⟩
    obtain ⟨s₁, hs₁⟩ := moveBuckets_some (show k + 1 ≤ n by omega) hrun
    have hround : moveBucket n' k chainFuel s = some s₁ := by
      rw [moveBuckets, hsome] at hs₁
      exact hs₁
    obtain ⟨evs₁, hruns₁, hshow₁, hw₁⟩ := moveBucket_sim ha hn (show k < n by omega) chainFuel hs hround
    obtain ⟨evs₂, hruns₂, hshow₂, hw₂⟩ := ih (show k + 1 + j = n by omega) (show j < fuel by omega) hshow₁ hs₁
    refine ⟨evs₁ ++ evs₂, Runs.load_bind rfl ?_, by rwa [applyAll_append], fun ev hev => ?_⟩
    · rw [hs.length, if_pos (show k < n by omega)]
      exact hruns₁.bind hruns₂
    · rcases List.mem_append.mp hev with hev | hev
      · exact hw₁ ev hev
      · exact hw₂ ev hev

theorem Arena.head_notIn (ha : Arena h A n N n' E) {y : ℕ} (h₁ : h ≤ y) (h₂ : y < h + 48) : ¬ InArena A n N n' E y := by
  have hold := ha.headOld
  have hnew := ha.headNew
  unfold Apart at hold hnew
  rintro (hin | hin | ⟨a, hE, hin⟩)
  · omega
  · omega
  · have hentry := ha.headEntry a hE
    unfold Apart at hentry
    omega

/-- What `hashtable_expand` does with the new array: the entries are in it afterwards. -/
structure Filled (m m' : Mem) (h N n' : ℕ) (s : Moving ℕ) : Prop where
  array : m' (h + 8) = N
  new : ∀ i < n', m' (N + 8 * i) = s.newtable i
  entries : ∀ a x, s.mem a = some x → ShowsEntry m' a x
  head : ∀ y, h ≤ y → y < h + 48 → y ≠ h + 8 → m' y = m y

theorem fillTable_sim {t : Hashtable ℕ} (ha : Arena h (m (h + 8)) t.tablelength N n' E) (hN : N ≠ 0) (hn : 0 < n')
    (hfuel : t.tablelength < chainFuel) (ht : Shows m h t) (hE : ∀ a x, t.mem a = some x → E a)
    (hrun : moveBuckets n' t.tablelength ⟨t.table, fun _ => 0, t.mem⟩ = some s) :
    ∃ evs, Runs true (Code.fillTable h N n') m () evs ∧ Filled m (applyAll evs m) h N n' s ∧
      ∀ ev ∈ evs, ∀ y, ev.Writes y → InArena (m (h + 8)) t.tablelength N n' E y ∨ y = h + 8 := by
  have hnew := ha.headNew
  have holdnew := ha.oldNew
  unfold Apart at hnew holdnew
  have hstart : ShowsMoving (applyAll (zeroEvents N n') m) h (m (h + 8))
      t.tablelength N n' E ⟨t.table, fun _ => 0, t.mem⟩ := by
    refine ⟨zero_keep _ (by omega), ?_, fun i hi => ?_, fun i hi => zero_word hi, fun a x hx => ?_, hE⟩
    · rw [zero_keep _ (by omega), ht.tablelength]
    · rw [zero_keep _ (by omega), ht.table i hi]
    · have hentry := ha.newEntry a (hE a x hx)
      unfold Apart at hentry
      exact (ht.entries a x hx).congr fun y h₁ h₂ => zero_keep y (by omega)
  obtain ⟨evs, hruns, hshow, hw⟩ := moveBuckets_sim ha hn hrun t.tablelength (Nat.zero_add _) hfuel hstart rfl
  have harena : ∀ a, InArena (m (h + 8)) t.tablelength N n' E a → a ≠ h + 8 := by
    rintro a hin rfl
    exact ha.head_notIn (by omega) (by omega) hin
  refine ⟨zeroEvents N n' ++ (evs ++ [.store (h + 8) N]), ?_, ⟨?_, fun i hi => ?_, fun a x hx => ?_,
    fun y h₁ h₂ h₃ => ?_⟩, ?_⟩
  · rw [Code.fillTable, if_neg hN]
    exact (bzeroWords_runs true m N _).seq (hruns.seq (Runs.store true _ (h + 8) N))
  · rw [applyAll_append, applyAll_append]
    exact Function.update_self ..
  · rw [applyAll_append, applyAll_append, applyAll_store, applyAll_nil,
      Function.update_of_ne (harena _ (Or.inr (Or.inl (by omega)))), hshow.new i hi]
  · rw [applyAll_append, applyAll_append, applyAll_store, applyAll_nil]
    refine (hshow.entries a x hx).congr fun y h₁ h₂ => Function.update_of_ne (harena y ?_) _ _
    exact Or.inr (Or.inr ⟨a, hshow.known a x hx, h₁, h₂⟩)
  · rw [applyAll_append, applyAll_append, applyAll_store, applyAll_nil, Function.update_of_ne h₃,
      applyAll_of_not_writes fun ev hev hy => ha.head_notIn h₁ h₂ (hw ev hev y hy)]
    exact zero_keep y (by omega)
  · intro ev hev y hy
    rcases List.mem_append.mp hev with hev | hev
    · exact Or.inl (Or.inr (Or.inl (writes_zeroEvents hev hy)))
    · rcases List.mem_append.mp hev with hev | hev
      · exact Or.inl (hw ev hev y hy)
      · obtain rfl := List.mem_singleton.mp hev
        exact Or.inr hy.symm

end Moves

end PmemExamples.CHashtable
