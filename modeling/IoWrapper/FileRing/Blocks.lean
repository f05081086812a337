import Mathlib.Algebra.Group.Int.Defs
import IoWrapper.Core.Vectored

/-! Block arithmetic of `iouring/liburing.c` and the copy loop of
`read_callback` in `iouring/liburing.go`. The block count is computed twice in
the source, once when the read is pushed and once when it is popped, and the
length of each block is narrowed to a C `int` before it is copied. -/
namespace IoWrapper.FileRing.Blocks
open Core.Vectored

abbrev Cell := Option UInt8

def initialNumBlocks : Nat := 7

/-- `struct iovec`: `iov_len` bytes stand at `iov_base`, so the block carries
its own length. -/
structure Iovec where
  iovBase : Block UInt8
deriving DecidableEq

def Iovec.iovLen (iovec : Iovec) : Nat := iovec.iovBase.length

structure Layout where
  totalBlocks : Nat
  initialBlockSize : Nat
  lastBlockSize : Nat

def pushLayout (fileSz : Nat) : Layout :=
  let initialBlockSize := fileSz / initialNumBlocks
  let lastBlockSize := initialBlockSize
  let totalBlocks := if initialBlockSize = 0 then 0 else initialNumBlocks
  if fileSz - initialBlockSize * totalBlocks > 0 then
    ⟨totalBlocks + 1, initialBlockSize, fileSz - initialBlockSize * totalBlocks⟩
  else
    ⟨totalBlocks, initialBlockSize, lastBlockSize⟩

def Layout.currentBlockSize (layout : Layout) (i : Nat) : Nat :=
  if i = layout.totalBlocks - 1 then layout.lastBlockSize else layout.initialBlockSize

/-- The loop over `posix_memalign`: the first allocation that fails ends it. -/
def populate (memalign : Nat → Bool) (layout : Layout) : Option (List Iovec) :=
  (List.range layout.totalBlocks).mapM fun i =>
    if memalign i then some ⟨blank UInt8 (layout.currentBlockSize i)⟩ else none

def popBlocks (fileSz : Nat) : Nat :=
  let initialBlockSize := fileSz / initialNumBlocks
  let totalBlocks := if initialBlockSize = 0 then 0 else initialNumBlocks
  if fileSz - initialBlockSize * totalBlocks > 0 then totalBlocks + 1 else totalBlocks

/-- The kernel's side of a `READV`: the bytes read fill the blocks in order. -/
def readv (iovecs : List Iovec) (data : List UInt8) : List Iovec :=
  (fill (iovecs.map Iovec.iovBase) data).map Iovec.mk

/-- `C.int(n)` of a 64-bit length: the low 32 bits, read as signed. -/
def cInt (n : Nat) : Int := Int.bmod n (2 ^ 32)

/-- `C.GoBytes`, which panics on a negative length. -/
def goBytes (base : Block UInt8) (n : Int) : Option (List Cell) :=
  if n < 0 then none else some (base.take n.toNat)

def writeBlock (buf : List Cell) (iovec : Iovec) : Option (List Cell) :=
  (goBytes iovec.iovBase (cInt iovec.iovLen)).map (buf ++ ·)

/-- The loop of `read_callback` over the first `length` blocks. -/
def gather (iovecs : List Iovec) (length : Nat) : Option (List Cell) :=
  (iovecs.take length).foldlM writeBlock []

theorem popBlocks_eq (fileSz : Nat) :
    popBlocks fileSz = (pushLayout fileSz).totalBlocks := by
  unfold popBlocks pushLayout
  dsimp only
  split <;> split <;> rfl

/-- The lengths of the blocks that `push_read_request` sets up. -/
def blockLens (fileSz : Nat) : List Nat :=
  (List.range (pushLayout fileSz).totalBlocks).map (pushLayout fileSz).currentBlockSize

theorem blockLens_small {fileSz : Nat} (h : fileSz < 7) :
    blockLens fileSz = if fileSz = 0 then [] else [fileSz] := by
  have hdiv : fileSz / 7 = 0 := Nat.div_eq_of_lt h
  by_cases hzero : fileSz = 0
  · subst hzero
    rfl
  · have hpos : 0 < fileSz := by omega
    simp [blockLens, pushLayout, initialNumBlocks, hdiv, hzero, hpos, Layout.currentBlockSize]

theorem blockLens_large {fileSz : Nat} (h : 7 ≤ fileSz) :
    blockLens fileSz = List.replicate 7 (fileSz / 7) ++
      if fileSz % 7 = 0 then [] else [fileSz % 7] := by
  have hdiv : fileSz / 7 ≠ 0 := by omega
  have hrest : fileSz - fileSz / 7 * 7 = fileSz % 7 := by omega
  by_cases hmod : fileSz % 7 = 0
  · simp [blockLens, pushLayout, initialNumBlocks, hdiv, hrest, hmod, Layout.currentBlockSize,
      List.range_succ, List.replicate_succ]
  · have hpos : 0 < fileSz % 7 := by omega
    simp [blockLens, pushLayout, initialNumBlocks, hdiv, hrest, hmod, hpos,
      Layout.currentBlockSize, List.range_succ, List.replicate_succ]

theorem blockLens_sum (fileSz : Nat) : (blockLens fileSz).sum = fileSz := by
  rcases Nat.lt_or_ge fileSz 7 with h | h
  · rw [blockLens_small h]
    split <;> simp [*]
  · rw [blockLens_large h]
    split
    · simp
      omega
    · simp
      omega

theorem blockLens_length (fileSz : Nat) :
    (blockLens fileSz).length = popBlocks fileSz := by
  simp [blockLens, popBlocks_eq]

/-- The iovecs of a request as `push_read_request` leaves them. -/
def blankIovecs (fileSz : Nat) : List Iovec :=
  (blockLens fileSz).map fun length => ⟨blank UInt8 length⟩

theorem populate_eq_some {memalign : Nat → Bool} {fileSz : Nat} {iovecs : List Iovec}
    (h : populate memalign (pushLayout fileSz) = some iovecs) :
    iovecs = blankIovecs fileSz := by
  unfold populate at h
  have key : ∀ (l : List Nat) (out : List Iovec),
      l.mapM (fun i => if memalign i then
        some (Iovec.mk (blank UInt8 ((pushLayout fileSz).currentBlockSize i))) else none) =
          some out →
      out = (l.map (pushLayout fileSz).currentBlockSize).map fun length =>
        ⟨blank UInt8 length⟩ := by
    intro l
    induction l with
    | nil =>
      intro out hout
      simp at hout
      simp [hout]
    | cons i l ih =>
      intro out hout
      rw [List.mapM_cons] at hout
      rcases Option.bind_eq_some_iff.mp hout with ⟨v, hv, hout⟩
      rcases Option.bind_eq_some_iff.mp hout with ⟨vs, hvs, hout⟩
      split at hv
      · cases Option.some.inj hv
        cases Option.some.inj hout
        simp [ih vs hvs]
      · contradiction
  exact key _ _ h

/-- What one iteration of the copy loop appends, where it does not panic. -/
def copied (iovec : Iovec) : List Cell := iovec.iovBase.take (cInt iovec.iovLen).toNat

theorem writeBlock_of_nonneg (buf : List Cell) {iovec : Iovec} (h : 0 ≤ cInt iovec.iovLen) :
    writeBlock buf iovec = some (buf ++ copied iovec) := by
  have hnot : ¬ cInt iovec.iovLen < 0 := by omega
  simp [writeBlock, goBytes, copied, hnot]

theorem writeBlock_of_neg (buf : List Cell) {iovec : Iovec} (h : cInt iovec.iovLen < 0) :
    writeBlock buf iovec = none := by
  simp [writeBlock, goBytes, h]

theorem gather_of_nonneg (iovecs : List Iovec) (h : ∀ v ∈ iovecs, 0 ≤ cInt v.iovLen) :
    gather iovecs iovecs.length = some (iovecs.flatMap copied) := by
  have key : ∀ buf, iovecs.foldlM writeBlock buf = some (buf ++ iovecs.flatMap copied) := by
    induction iovecs with
    | nil =>
      intro buf
      simp
    | cons v vs ih =>
      intro buf
      rw [List.foldlM_cons, writeBlock_of_nonneg buf (h v (by simp))]
      change vs.foldlM writeBlock (buf ++ copied v) = _
      rw [ih (fun u hu => h u (by simp [hu]))]
      simp
  unfold gather
  rw [List.take_length, key, List.nil_append]

theorem gather_of_neg (iovecs : List Iovec) {v : Iovec} (hv : v ∈ iovecs)
    (hneg : cInt v.iovLen < 0) : gather iovecs iovecs.length = none := by
  have key : ∀ buf, iovecs.foldlM writeBlock buf = none := by
    induction iovecs with
    | nil => simp at hv
    | cons u us ih =>
      intro buf
      rw [List.foldlM_cons]
      by_cases hu : cInt u.iovLen < 0
      · rw [writeBlock_of_neg buf hu]
        rfl
      · have hne : v ≠ u := by
          intro he
          exact hu (he ▸ hneg)
        rw [writeBlock_of_nonneg buf (by omega)]
        exact ih (by simpa [hne] using hv) (buf ++ copied u)
  unfold gather
  rw [List.take_length, key]

theorem cInt_of_lt {n : Nat} (h : n < 2 ^ 31) : cInt n = n := by
  unfold cInt
  rw [Int.bmod_def]
  have : ((n : Int) % ((2 ^ 32 : Nat) : Int)) = n := by omega
  rw [this]
  split <;> omega

theorem cInt_neg_iff (n : Nat) : cInt n < 0 ↔ 2 ^ 31 ≤ n % 2 ^ 32 := by
  unfold cInt
  rw [Int.bmod_def]
  split <;> omega

theorem cInt_of_nonneg {n : Nat} (h : 0 ≤ cInt n) : cInt n = (n % 2 ^ 32 : Nat) := by
  have hlt : ¬ 2 ^ 31 ≤ n % 2 ^ 32 := by
    rw [← cInt_neg_iff]
    omega
  unfold cInt
  rw [Int.bmod_def]
  split <;> omega

theorem map_iovBase_readv (iovecs : List Iovec) (data : List UInt8) :
    (readv iovecs data).map Iovec.iovBase = fill (iovecs.map Iovec.iovBase) data := by
  simp [readv, Function.comp_def]

theorem map_iovBase_blankIovecs (fileSz : Nat) :
    (blankIovecs fileSz).map Iovec.iovBase = (blockLens fileSz).map (blank UInt8) := by
  simp [blankIovecs, Function.comp_def]

theorem map_iovLen_filled (iovecs : List Iovec) (data : List UInt8) :
    (readv iovecs data).map Iovec.iovLen = iovecs.map Iovec.iovLen := by
  have hlen : Iovec.iovLen = List.length ∘ Iovec.iovBase := rfl
  rw [hlen, ← List.map_map, ← List.map_map, map_iovBase_readv, fill_map_length]

theorem map_iovLen_blankIovecs (fileSz : Nat) :
    (blankIovecs fileSz).map Iovec.iovLen = blockLens fileSz := by
  have hlen : Iovec.iovLen = List.length ∘ Iovec.iovBase := rfl
  rw [hlen, ← List.map_map, map_iovBase_blankIovecs, List.map_map]
  simp [Function.comp_def, blank]

@[simp] theorem map_iovLen_readv (fileSz : Nat) (data : List UInt8) :
    (readv (blankIovecs fileSz) data).map Iovec.iovLen = blockLens fileSz := by
  rw [map_iovLen_filled, map_iovLen_blankIovecs]

@[simp] theorem length_readv (fileSz : Nat) (data : List UInt8) :
    (readv (blankIovecs fileSz) data).length = popBlocks fileSz := by
  rw [← blockLens_length, ← map_iovLen_readv fileSz data, List.length_map]

theorem iovLen_mem_blockLens {fileSz : Nat} {data : List UInt8} {v : Iovec}
    (h : v ∈ readv (blankIovecs fileSz) data) : v.iovLen ∈ blockLens fileSz := by
  rw [← map_iovLen_readv fileSz data]
  exact List.mem_map_of_mem h

theorem blockLens_lt {fileSz n : Nat} (h : fileSz / 7 < 2 ^ 31) (hn : n ∈ blockLens fileSz) :
    n < 2 ^ 31 := by
  rcases Nat.lt_or_ge fileSz 7 with hsmall | hlarge
  · rw [blockLens_small hsmall] at hn
    split at hn
    · simp at hn
    · simp only [List.mem_singleton] at hn
      omega
  · rw [blockLens_large hlarge, List.mem_append, List.mem_replicate] at hn
    rcases hn with hn | hn
    · omega
    · split at hn
      · simp at hn
      · simp only [List.mem_singleton] at hn
        omega

theorem gather_of_fits {fileSz : Nat} {data : List UInt8} (h : fileSz / 7 < 2 ^ 31)
    (hdata : data.length ≤ fileSz) :
    gather (readv (blankIovecs fileSz) data) (popBlocks fileSz) =
      some (data.map some ++ List.replicate (fileSz - data.length) none) := by
  have hfit : ∀ v ∈ readv (blankIovecs fileSz) data, cInt v.iovLen = v.iovLen := fun v hv =>
    cInt_of_lt (blockLens_lt h (iovLen_mem_blockLens hv))
  rw [← length_readv fileSz data, gather_of_nonneg _ fun v hv => by
    rw [hfit v hv]
    omega]
  have hcopied : (readv (blankIovecs fileSz) data).flatMap copied =
      (fill ((blockLens fileSz).map (blank UInt8)) data).flatten := by
    have hbase : (readv (blankIovecs fileSz) data).map copied =
        (readv (blankIovecs fileSz) data).map Iovec.iovBase := by
      apply List.map_congr_left
      intro v hv
      unfold copied
      rw [hfit v hv]
      simp [Iovec.iovLen]
    rw [List.flatMap_def, hbase, map_iovBase_readv, map_iovBase_blankIovecs]
  rw [hcopied, fill_flatten, flatten_map_blank, blockLens_sum]
  simp only [blank, List.length_replicate, List.drop_replicate]
  rw [List.take_of_length_le hdata]

theorem length_copied {v : Iovec} (h : 0 ≤ cInt v.iovLen) :
    (copied v).length = v.iovLen % 2 ^ 32 := by
  unfold copied
  rw [cInt_of_nonneg h, Int.toNat_natCast, List.length_take]
  exact Nat.min_eq_left (Nat.mod_le _ _)

theorem cInt_nonneg_of_mem {fileSz n : Nat} (h : 0 ≤ cInt (fileSz / 7))
    (hn : n ∈ blockLens fileSz) : 0 ≤ cInt n := by
  have hsmall : ∀ m < 7, 0 ≤ cInt m := fun m hm => by
    rw [cInt_of_lt (by omega)]
    omega
  rcases Nat.lt_or_ge fileSz 7 with hlt | hge
  · rw [blockLens_small hlt] at hn
    split at hn
    · simp at hn
    · simp only [List.mem_singleton] at hn
      exact hsmall n (by omega)
  · rw [blockLens_large hge, List.mem_append, List.mem_replicate] at hn
    rcases hn with hn | hn
    · rw [hn.2]
      exact h
    · split at hn
      · simp at hn
      · simp only [List.mem_singleton] at hn
        exact hsmall n (by omega)

theorem gather_isSome_iff {fileSz : Nat} {iovecs : List Iovec}
    (h : iovecs.map Iovec.iovLen = blockLens fileSz) :
    (gather iovecs (popBlocks fileSz)).isSome ↔ fileSz / 7 % 2 ^ 32 < 2 ^ 31 := by
  have hlen : iovecs.length = popBlocks fileSz := by
    rw [← blockLens_length, ← h, List.length_map]
  have hmem : ∀ v ∈ iovecs, v.iovLen ∈ blockLens fileSz := fun v hv => by
    rw [← h]
    exact List.mem_map_of_mem hv
  rw [← hlen]
  by_cases hneg : cInt (fileSz / 7) < 0
  · have hhigh := (cInt_neg_iff _).mp hneg
    have hlarge : 7 ≤ fileSz := by omega
    have hblock : fileSz / 7 ∈ iovecs.map Iovec.iovLen := by
      rw [h, blockLens_large hlarge]
      simp
    rcases List.mem_map.mp hblock with ⟨v, hv, hvlen⟩
    rw [gather_of_neg iovecs hv (hvlen ▸ hneg)]
    simp only [Option.isSome_none, Bool.false_eq_true, false_iff]
    omega
  · have hlow := (cInt_neg_iff (fileSz / 7)).not.mp hneg
    rw [gather_of_nonneg iovecs fun v hv => cInt_nonneg_of_mem (by omega) (hmem v hv)]
    simp only [Option.isSome_some, true_iff]
    omega

theorem length_flatMap_copied (iovecs : List Iovec) (h : ∀ v ∈ iovecs, 0 ≤ cInt v.iovLen) :
    (iovecs.flatMap copied).length = ((iovecs.map Iovec.iovLen).map (· % 2 ^ 32)).sum := by
  induction iovecs with
  | nil => rfl
  | cons v vs ih =>
    simp only [List.flatMap_cons, List.length_append, List.map_cons, List.sum_cons]
    rw [ih fun u hu => h u (by simp [hu]), length_copied (h v (by simp))]

theorem none_mem_copied_blank {n : Nat} (h : 0 ≤ cInt n) (hcut : n % 2 ^ 32 ≠ 0) :
    none ∈ copied ⟨blank UInt8 n⟩ := by
  have hle := Nat.mod_le n (2 ^ 32)
  unfold copied Iovec.iovLen
  simp only [blank, List.length_replicate, List.take_replicate, List.mem_replicate, and_true]
  rw [cInt_of_nonneg h, Int.toNat_natCast]
  omega

theorem readv_of_short {fileSz : Nat} (data : List UInt8) (h : 7 ≤ fileSz)
    (hdata : data.length ≤ 6 * (fileSz / 7)) :
    ∃ front, readv (blankIovecs fileSz) data = front ++
      (fileSz / 7 :: if fileSz % 7 = 0 then [] else [fileSz % 7]).map
        fun length => Iovec.mk (blank UInt8 length) := by
  refine ⟨(fill (List.replicate 6 (blank UInt8 (fileSz / 7))) data).map Iovec.mk, ?_⟩
  have hlens : blockLens fileSz = List.replicate 6 (fileSz / 7) ++
      (fileSz / 7 :: if fileSz % 7 = 0 then [] else [fileSz % 7]) := by
    rw [blockLens_large h]
    simp [List.replicate_succ]
  unfold readv
  rw [map_iovBase_blankIovecs, hlens, List.map_append, List.map_replicate, fill_append_of_le]
  · simp [Function.comp_def]
  · simp only [blank, List.flatten_replicate_replicate, List.length_replicate]
    exact hdata

/-- Past the range of a C `int` the slice is cut, and what is left of it is
right only where it should have been empty. -/
theorem gather_of_wraps {fileSz : Nat} {data : List UInt8} (h : 2 ^ 31 ≤ fileSz / 7) :
    gather (readv (blankIovecs fileSz) data) (popBlocks fileSz) = some (data.map some) ↔
      data = [] ∧ 7 * 2 ^ 32 ∣ fileSz := by
  have hlarge : 7 ≤ fileSz := by omega
  have hlens := blockLens_large hlarge
  have hmem : fileSz / 7 ∈ blockLens fileSz := by
    rw [hlens]
    simp
  by_cases hneg : cInt (fileSz / 7) < 0
  -- The conversion of a block with a negative length panics.
  · rw [← map_iovLen_readv fileSz data] at hmem
    rcases List.mem_map.mp hmem with ⟨v, hv, hlen⟩
    rw [← length_readv fileSz data, gather_of_neg _ hv (hlen ▸ hneg)]
    have hhigh := (cInt_neg_iff _).mp hneg
    simp only [reduceCtorEq, false_iff, not_and]
    intro _ hdvd
    omega
  have hnonneg : 0 ≤ cInt (fileSz / 7) := by omega
  have hlow : fileSz / 7 % 2 ^ 32 < 2 ^ 31 := by
    have := (cInt_neg_iff (fileSz / 7)).not.mp hneg
    omega
  have hall : ∀ v ∈ readv (blankIovecs fileSz) data, 0 ≤ cInt v.iovLen := fun v hv =>
    cInt_nonneg_of_mem hnonneg (iovLen_mem_blockLens hv)
  have hlength : ((readv (blankIovecs fileSz) data).flatMap copied).length =
      7 * (fileSz / 7 % 2 ^ 32) + fileSz % 7 := by
    rw [length_flatMap_copied _ hall, map_iovLen_readv, hlens, List.map_append,
      List.map_replicate, List.sum_append, List.sum_replicate_nat]
    split
    · simp [*]
    · simp only [List.map_cons, List.map_nil, List.sum_cons, List.sum_nil]
      omega
  rw [← length_readv fileSz data, gather_of_nonneg _ hall, Option.some.injEq]
  refine ⟨fun heq => ?_, fun hempty => ?_⟩
  · have hdata : data.length = 7 * (fileSz / 7 % 2 ^ 32) + fileSz % 7 := by
      rw [← hlength, heq, List.length_map]
    -- So little data does not come to the last blocks, which would show what was not read.
    rcases readv_of_short data hlarge (by omega) with ⟨front, hsplit⟩
    have hcut : ∀ n ∈ fileSz / 7 :: (if fileSz % 7 = 0 then [] else [fileSz % 7]),
        n ∈ blockLens fileSz → n % 2 ^ 32 = 0 := by
      intro n hn hblock
      by_contra hpos
      have hnone : none ∈ data.map some := by
        rw [← heq, hsplit, List.flatMap_append, List.mem_append, List.flatMap_map]
        exact Or.inr (List.mem_flatMap.mpr
          ⟨n, hn, none_mem_copied_blank (cInt_nonneg_of_mem hnonneg hblock) hpos⟩)
      simp at hnone
    have hfirst := hcut (fileSz / 7) (by simp) hmem
    have hrest : fileSz % 7 = 0 := by
      by_contra hrest
      have := hcut (fileSz % 7) (by simp [hrest]) (by simp [hlens, hrest])
      omega
    exact ⟨List.eq_nil_of_length_eq_zero (by omega), by omega⟩
  · rcases hempty.2 with ⟨c, hc⟩
    rw [hempty.1, List.map_nil]
    apply List.eq_nil_of_length_eq_zero
    rw [hempty.1] at hlength
    rw [hlength]
    omega

theorem gather_eq_data_iff {fileSz : Nat} {data : List UInt8} (hdata : data.length ≤ fileSz) :
    gather (readv (blankIovecs fileSz) data) (popBlocks fileSz) = some (data.map some) ↔
      (data.length = fileSz ∧ fileSz / 7 < 2 ^ 31) ∨ (data = [] ∧ 7 * 2 ^ 32 ∣ fileSz) := by
  rcases Nat.lt_or_ge (fileSz / 7) (2 ^ 31) with h | h
  · rw [gather_of_fits h hdata, Option.some.injEq]
    refine ⟨fun heq => Or.inl ⟨?_, h⟩, fun hcase => ?_⟩
    · have := congrArg List.length heq
      simp only [List.length_append, List.length_map, List.length_replicate] at this
      omega
    · have hfull : fileSz - data.length = 0 := by
        rcases hcase with hcase | hcase
        · omega
        · rcases hcase.2 with ⟨c, hc⟩
          omega
      simp [hfull]
  · rw [gather_of_wraps h]
    refine ⟨Or.inr, fun hcase => ?_⟩
    rcases hcase with hcase | hcase
    · omega
    · exact hcase

end IoWrapper.FileRing.Blocks
