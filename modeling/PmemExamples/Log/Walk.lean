import PmemExamples.Log.Contents

/-! # Walking through a log

`pmemlog_walk` hands the contents to a callback in chunks, until the callback returns 0. Its offset is advanced
by whole chunks, so it may wrap around behind the last one. -/

namespace PmemExamples.Log
open Persist
set_option autoImplicit false

/-- How many chunks the bytes make. -/
def chunkCount (chunksize len : ℕ) : ℕ := (len + (chunksize - 1)) / chunksize

/-- The chunks of a log; a size of 0 stands for one chunk with everything. -/
def chunks (chunksize : ℕ) (bytes : List UInt8) : List (List UInt8) :=
  if chunksize = 0 then [bytes]
  else (List.range (chunkCount chunksize bytes.length)).map fun i => (bytes.drop (i * chunksize)).take chunksize

/-- A callback on one chunk after another, as long as it says so. -/
def feed {σ : Type} (process : σ → List UInt8 → σ × Bool) : List (List UInt8) → σ → σ
  | [], s => s
  | buf :: bufs, s => if (process s buf).2 then feed process bufs (process s buf).1 else (process s buf).1

/-- The chunks from the `i`th on. -/
def chunksFrom (chunksize : ℕ) (bytes : List UInt8) (i : ℕ) : List (List UInt8) :=
  (List.range' i (chunkCount chunksize bytes.length - i)).map fun i => (bytes.drop (i * chunksize)).take chunksize

section Walk
variable {chunksize : ℕ}

theorem lt_chunkCount (hc : 0 < chunksize) {i len : ℕ} : i < chunkCount chunksize len ↔ i * chunksize < len := by
  rw [chunkCount, ← Nat.succ_le_iff, Nat.le_div_iff_mul_le hc, Nat.succ_mul]
  omega

theorem chunksFrom_of_le {bytes : List UInt8} {i : ℕ} (h : chunkCount chunksize bytes.length ≤ i) :
    chunksFrom chunksize bytes i = [] := by
  rw [chunksFrom, Nat.sub_eq_zero_of_le h, List.range'_zero, List.map_nil]

theorem chunksFrom_of_lt {bytes : List UInt8} {i : ℕ} (h : i < chunkCount chunksize bytes.length) :
    chunksFrom chunksize bytes i =
      (bytes.drop (i * chunksize)).take chunksize :: chunksFrom chunksize bytes (i + 1) := by
  obtain ⟨k, hk⟩ := Nat.exists_eq_add_of_lt h
  rw [chunksFrom, chunksFrom, hk, show i + k + 1 - i = k + 1 by omega, show i + k + 1 - (i + 1) = k by omega,
    List.range'_succ, List.map_cons]

theorem chunks_eq (hc : 0 < chunksize) (bytes : List UInt8) : chunks chunksize bytes = chunksFrom chunksize bytes 0 := by
  rw [chunks, if_neg (Nat.ne_of_gt hc), chunksFrom, Nat.sub_zero, List.range_eq_range']

variable {u : Util} {hdr : List UInt8} {size : ℕ} {w : World} {plp : PMEMlogpool} {l : Contents (size - dataStart u)}

theorem Ready.bytes_at (h : Ready u hdr size w plp l) {i n : ℕ} (hin : i + n ≤ l.bytes.length) :
    bytesOf w.mem (plp.addr + (dataStart u + i)) n = (l.bytes.drop i).take n := by
  have halign : 8 ∣ plp.addr := Nat.dvd_trans (by decide) h.aligned
  have hdata := h.holds.data
  rw [bytesOf_fileAt halign] at hdata
  rw [← hdata, drop_bytesOf _ _ (by omega), take_bytesOf _ _ (by omega), Nat.add_assoc]

theorem walkLoop_chunk {σ : Type} {process : σ → List UInt8 → σ × Bool} (h : Ready u hdr size w plp l)
    (hc : 0 < chunksize) {i : ℕ} (hi : i < chunkCount chunksize l.bytes.length) (fuel : ℕ) (s : σ) :
    walkLoop plp process chunksize (dataStart u + l.bytes.length) (fuel + 1) (dataStart u + i * chunksize) s w =
      if (process s ((l.bytes.drop (i * chunksize)).take chunksize)).2 then
        walkLoop plp process chunksize (dataStart u + l.bytes.length) fuel
          ((dataStart u + (i + 1) * chunksize) % 2 ^ 64) (process s ((l.bytes.drop (i * chunksize)).take chunksize)).1 w
      else (.ok (process s ((l.bytes.drop (i * chunksize)).take chunksize)).1, w) := by
  have hlt := (lt_chunkCount hc).mp hi
  have hbytes : bytesOf w.mem (plp.addr + (dataStart u + i * chunksize))
      (min chunksize (dataStart u + l.bytes.length - (dataStart u + i * chunksize))) =
      (l.bytes.drop (i * chunksize)).take chunksize := by
    rw [Nat.add_sub_add_left, h.bytes_at (by omega), ← List.length_drop, ← List.take_take, List.take_length]
  have hread : readBytes (plp.addr + (dataStart u + i * chunksize))
      (min chunksize (dataStart u + l.bytes.length - (dataStart u + i * chunksize))) w =
      (.ok ((l.bytes.drop (i * chunksize)).take chunksize), w) := by
    rw [readBytes, hbytes]
  rw [walkLoop, if_pos (by omega), Prog.bind_ok hread, Nat.add_assoc (dataStart u), ← Nat.succ_mul]
  split <;> rfl

theorem walkLoop_end {σ : Type} {process : σ → List UInt8 → σ × Bool} {data write : ℕ} (hd : write ≤ data) (fuel : ℕ)
    (s : σ) (w : World) : walkLoop plp process chunksize write (fuel + 1) data s w = (.ok s, w) := by
  rw [walkLoop, if_neg (Nat.not_lt.mpr hd), Prog.pure_apply]

/-- Where the offset does not wrap around, the walk hands out the chunks. -/
theorem walkLoop_feed {σ : Type} (process : σ → List UInt8 → σ × Bool) (h : Ready u hdr size w plp l)
    (hc : 0 < chunksize) (hwrap : dataStart u + chunkCount chunksize l.bytes.length * chunksize < 2 ^ 64) :
    ∀ (k i fuel : ℕ) (s : σ), i + k = chunkCount chunksize l.bytes.length → k < fuel →
      walkLoop plp process chunksize (dataStart u + l.bytes.length) fuel (dataStart u + i * chunksize) s w =
        (.ok (feed process (chunksFrom chunksize l.bytes i) s), w) := by
  intro k
  induction k with
  | zero =>
    intro i fuel s hi hfuel
    obtain ⟨fuel, rfl⟩ := Nat.exists_eq_add_of_lt hfuel
    have hlast : ¬ i * chunksize < l.bytes.length := fun hlt => absurd ((lt_chunkCount hc).mpr hlt) (by omega)
    rw [chunksFrom_of_le (by omega), feed, Nat.zero_add, walkLoop_end (by omega)]
  | succ k ih =>
    intro i fuel s hi hfuel
    obtain ⟨fuel, rfl⟩ := Nat.exists_eq_add_of_lt hfuel
    have hnext : dataStart u + (i + 1) * chunksize < 2 ^ 64 := by
      have hle : (i + 1) * chunksize ≤ chunkCount chunksize l.bytes.length * chunksize :=
        Nat.mul_le_mul_right _ (by omega)
      omega
    rw [chunksFrom_of_lt (by omega), feed, walkLoop_chunk h hc (by omega), Nat.mod_eq_of_lt hnext]
    split
    · exact ih (i + 1) _ _ (by omega) (by omega)
    · rfl

/-! ## A walk that counts -/

/-- The callback that counts its chunks. -/
def countChunk (n : ℕ) (_ : List UInt8) : ℕ × Bool := (n + 1, true)

@[simp] theorem countChunk_fst (n : ℕ) (buf : List UInt8) : (countChunk n buf).1 = n + 1 := rfl
theorem countChunk_snd (n : ℕ) (buf : List UInt8) : (countChunk n buf).2 = true := rfl

theorem feed_countChunk (bufs : List (List UInt8)) (n : ℕ) : feed countChunk bufs n = n + bufs.length := by
  induction bufs generalizing n with
  | nil => rfl
  | cons buf bufs ih =>
    rw [feed, if_pos (countChunk_snd n buf), ih, List.length_cons, countChunk_fst]
    omega

/-- The loop counts at least one chunk where it starts before the end. -/
theorem walkLoop_counts {write : ℕ} : ∀ {fuel data n n' : ℕ} {w w' : World},
    walkLoop plp countChunk chunksize write fuel data n w = (.ok n', w') → n ≤ n' ∧ (data < write → n < n') := by
  intro fuel
  induction fuel with
  | zero =>
    intro data n n' w w' h
    cases h
  | succ fuel ih =>
    intro data n n' w w' h
    rw [walkLoop] at h
    by_cases hd : data < write
    · rw [if_pos hd] at h
      obtain ⟨hle, -⟩ := ih h
      exact ⟨Nat.le_of_succ_le hle, fun _ => hle⟩
    · rw [if_neg hd] at h
      obtain ⟨hn, -⟩ := Prod.mk.inj h
      obtain rfl := Outcome.ok.inj hn
      exact ⟨le_refl _, fun hlt => absurd hlt hd⟩

theorem walkLoop_reaches (h : Ready u hdr size w plp l) (hc : 0 < chunksize) (fuel : ℕ) :
    ∀ i < chunkCount chunksize l.bytes.length,
      walkLoop plp countChunk chunksize (dataStart u + l.bytes.length) (fuel + i) (dataStart u) 0 w =
        walkLoop plp countChunk chunksize (dataStart u + l.bytes.length) fuel (dataStart u + i * chunksize) i w := by
  intro i
  induction i generalizing fuel with
  | zero =>
    intro _
    rw [Nat.zero_mul, Nat.add_zero, Nat.add_zero]
  | succ i ih =>
    intro hi
    have hlt := (lt_chunkCount hc).mp hi
    have hle := h.le_size
    have hsmall := h.small
    rw [show fuel + (i + 1) = fuel + 1 + i by omega, ih (fuel + 1) (by omega), walkLoop_chunk h hc (by omega),
      Nat.mod_eq_of_lt (by omega), if_pos (countChunk_snd i _), countChunk_fst]

end Walk

section Walks
variable {u : Util} {hdr : List UInt8} {size : ℕ} {w : World} {plp : PMEMlogpool} {l : Contents (size - dataStart u)}

theorem pmemlogWalk_apply {σ : Type} (process : σ → List UInt8 → σ × Bool) (h : Ready u hdr size w plp l)
    {chunksize : ℕ} (hc : 0 < chunksize) (fuel : ℕ) (s : σ) : pmemlogWalk u plp process chunksize fuel s w =
      walkLoop plp process chunksize (dataStart u + l.bytes.length) fuel (dataStart u) s w := by
  have hstart : w.mem (startOffset u plp) = dataStart u := h.holds.start
  rw [pmemlogWalk, Prog.bind_ok (Prog.load_apply _ w), Prog.bind_ok (Prog.load_apply _ w), h.write_eq, hstart,
    if_neg (Nat.ne_of_gt hc)]

theorem pmemlogWalk_zero {σ : Type} (process : σ → List UInt8 → σ × Bool) (h : Ready u hdr size w plp l) (fuel : ℕ)
    (s : σ) : pmemlogWalk u plp process 0 fuel s w = (.ok (feed process [l.bytes] s), w) := by
  have hstart : w.mem (startOffset u plp) = dataStart u := h.holds.start
  have hle := h.le_size
  have hsmall := h.small
  have hlen : (dataStart u + l.bytes.length + 2 ^ 64 - dataStart u) % 2 ^ 64 = l.bytes.length := by omega
  have hread : readBytes (plp.addr + dataStart u) l.bytes.length w = (.ok l.bytes, w) := by
    have hbytes := h.bytes_at (i := 0) (n := l.bytes.length) (by omega)
    rw [Nat.add_zero, List.drop_zero, List.take_length] at hbytes
    rw [readBytes, hbytes]
  rw [pmemlogWalk, Prog.bind_ok (Prog.load_apply _ w), Prog.bind_ok (Prog.load_apply _ w), h.write_eq, hstart,
    if_pos rfl, hlen, Prog.bind_ok hread, feed]
  split <;> rfl

/-- A walk hands every callback the contents in chunks of the given size, until the callback stops it, exactly if
the end of the last chunk is an offset of 64 bits. -/
theorem walk_chunks_iff (h : Ready u hdr size w plp l) {chunksize fuel : ℕ} (h64 : chunksize < 2 ^ 64)
    (hfuel : l.bytes.length < fuel) :
    (∀ (σ : Type) (process : σ → List UInt8 → σ × Bool) (s : σ), pmemlogWalk u plp process chunksize fuel s w =
      (.ok (feed process (chunks chunksize l.bytes) s), w)) ↔
    dataStart u + chunkCount chunksize l.bytes.length * chunksize < 2 ^ 64 := by
  have hle := h.le_size
  have hsmall := h.small
  rcases Nat.eq_zero_or_pos chunksize with rfl | hc
  · rw [Nat.mul_zero, Nat.add_zero]
    apply iff_of_true
    · intro σ process s
      rw [pmemlogWalk_zero process h, chunks, if_pos rfl]
    · omega
  have hcount : chunkCount chunksize l.bytes.length ≤ l.bytes.length := by
    by_contra hgt
    have hlt := (lt_chunkCount hc).mp (Nat.lt_of_not_le hgt)
    exact absurd hlt (Nat.not_lt.mpr (Nat.le_mul_of_pos_right _ hc))
  constructor
  · intro hall
    by_contra hwrap
    obtain ⟨k, hk⟩ : ∃ k, chunkCount chunksize l.bytes.length = k + 1 := by
      apply Nat.exists_eq_succ_of_ne_zero
      intro hzero
      rw [hzero] at hwrap
      omega
    obtain ⟨fuel, rfl⟩ : ∃ n, fuel = n + 1 + k := ⟨fuel - 1 - k, by omega⟩
    have hlast := (lt_chunkCount hc).mp (show k < chunkCount chunksize l.bytes.length by omega)
    have hcounted := hall ℕ countChunk 0
    rw [pmemlogWalk_apply countChunk h hc, walkLoop_reaches h hc (fuel + 1) k (by omega), walkLoop_chunk h hc (by omega),
      if_pos (countChunk_snd k _), countChunk_fst, feed_countChunk, chunks_eq hc] at hcounted
    have hmore := (walkLoop_counts hcounted).2
    rw [chunksFrom, List.length_map, List.length_range', hk] at hmore
    rw [hk, Nat.succ_mul] at hwrap
    rw [Nat.succ_mul] at hmore
    omega
  · intro hwrap σ process s
    have hfeed := walkLoop_feed process h hc hwrap (chunkCount chunksize l.bytes.length) 0 fuel s
      (Nat.zero_add _) (by omega)
    rw [Nat.zero_mul, Nat.add_zero] at hfeed
    rw [pmemlogWalk_apply process h hc, hfeed, chunks_eq hc]

/-- A pool of 2 MiB with three bytes in it. -/
def threeBytes : Mem := fun a =>
  if a = 4096 then 8192 else if a = 4104 then 2097152 else if a = 4112 then 8195 else if a = 8192 then 197121 else 0

theorem threeBytes_holds : Holds pageHdr (bytesOf threeBytes 0 4096) 2097152 threeBytes ⟨[1, 2, 3], by decide⟩ :=
  ⟨rfl, rfl, rfl, rfl, by decide⟩

theorem walk_chunks_iff_three : ∃ w plp,
    (∀ (σ : Type) (process : σ → List UInt8 → σ × Bool) (s : σ),
      pmemlogWalk pageHdr plp process 2 4 s w = (.ok (feed process [[1, 2], [3]] s), w)) ∧
    ¬ ∀ (σ : Type) (process : σ → List UInt8 → σ × Bool) (s : σ),
      pmemlogWalk pageHdr plp process (2 ^ 64 - 1) 4 s w = (.ok (feed process (chunks (2 ^ 64 - 1) [1, 2, 3]) s),
      w) := by
  have hb := Booted.boot 4096 threeBytes fun _ => true
  have hready := threeBytes_holds.ready (by decide) (by decide) (by decide) hb true
  refine ⟨_, _, (walk_chunks_iff hready (by decide) (by decide)).mpr (by decide), fun hall => ?_⟩
  exact absurd ((walk_chunks_iff hready (by decide) (by decide)).mp hall) (by decide)

end Walks

end PmemExamples.Log
