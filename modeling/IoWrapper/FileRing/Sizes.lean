import IoWrapper.FileRing.Blocks

/-! The block arithmetic of `push_read_request` and `pop_request` in `off_t`, where products
and differences can overflow. For a size that is not negative none of them does, and the
blocks are those of `FileRing.Blocks`. -/
namespace IoWrapper.FileRing.Sizes
open Blocks

/-- `INITIAL_NUM_BLOCKS`, as it enters the arithmetic. -/
def initialNumBlocks : Int64 := 7

structure OffLayout where
  totalBlocks : Int64
  initialBlockSize : Int64
  lastBlockSize : Int64

def pushLayout (fileSz : Int64) : OffLayout :=
  let initialBlockSize := fileSz / initialNumBlocks
  let totalBlocks := if initialBlockSize = 0 then 0 else initialNumBlocks
  if fileSz - initialBlockSize * totalBlocks > 0 then
    ⟨totalBlocks + 1, initialBlockSize, fileSz - initialBlockSize * totalBlocks⟩
  else
    ⟨totalBlocks, initialBlockSize, initialBlockSize⟩

def OffLayout.currentBlockSize (layout : OffLayout) (i : Nat) : Int64 :=
  if (i : Int) = layout.totalBlocks.toInt - 1 then layout.lastBlockSize
  else layout.initialBlockSize

/-- The `iov_len` of the blocks, in order. -/
def blockSizes (fileSz : Int64) : List Int64 :=
  (List.range (pushLayout fileSz).totalBlocks.toInt.toNat).map
    (pushLayout fileSz).currentBlockSize

def popBlocks (fileSz : Int64) : Int64 :=
  let initialBlockSize := fileSz / initialNumBlocks
  let totalBlocks := if initialBlockSize = 0 then 0 else initialNumBlocks
  if fileSz - initialBlockSize * totalBlocks > 0 then totalBlocks + 1 else totalBlocks

def bytes (fileSz : Int64) : Nat := fileSz.toInt.toNat

/-- `initial_block_size * total_blocks`, as an integer: what both functions compute. -/
def product (fileSz : Int64) : Int :=
  (fileSz / initialNumBlocks).toInt *
    (if fileSz / initialNumBlocks = 0 then 0 else initialNumBlocks : Int64).toInt

section Exact

variable {fileSz : Int64}

theorem toInt_eq_bytes (h : 0 ≤ fileSz) : fileSz.toInt = bytes fileSz := by
  have hnonneg : 0 ≤ fileSz.toInt := Int64.le_iff_toInt_le.mp h
  rw [bytes, Int.toNat_of_nonneg hnonneg]

theorem bytes_lt (fileSz : Int64) : bytes fileSz < 2 ^ 63 := by
  have hlt := Int64.toInt_lt fileSz
  unfold bytes
  omega

theorem toInt_initial (h : 0 ≤ fileSz) :
    (fileSz / initialNumBlocks).toInt = (bytes fileSz / 7 : Nat) := by
  rw [Int64.toInt_div_of_ne_right _ _ (by decide), toInt_eq_bytes h]
  exact Int.ofNat_tdiv (bytes fileSz) 7

theorem initial_eq_zero_iff (h : 0 ≤ fileSz) :
    fileSz / initialNumBlocks = 0 ↔ bytes fileSz / 7 = 0 := by
  rw [← Int64.toInt_inj, toInt_initial h, Int64.toInt_zero]
  omega

theorem toInt_total (h : 0 ≤ fileSz) :
    (if fileSz / initialNumBlocks = 0 then 0 else initialNumBlocks : Int64).toInt =
      (if bytes fileSz / 7 = 0 then 0 else 7 : Nat) := by
  by_cases hzero : bytes fileSz / 7 = 0
  · rw [if_pos ((initial_eq_zero_iff h).mpr hzero), if_pos hzero]
    rfl
  · rw [if_neg (fun heq => hzero ((initial_eq_zero_iff h).mp heq)), if_neg hzero]
    rfl

theorem product_eq (h : 0 ≤ fileSz) : product fileSz = (bytes fileSz / 7 * 7 : Nat) := by
  unfold product
  rw [toInt_initial h, toInt_total h]
  split <;> omega

theorem product_bounds (h : 0 ≤ fileSz) :
    0 ≤ product fileSz ∧ product fileSz ≤ fileSz.toInt := by
  rw [product_eq h, toInt_eq_bytes h]
  omega

theorem toInt_rest (h : 0 ≤ fileSz) :
    (fileSz - fileSz / initialNumBlocks *
      (if fileSz / initialNumBlocks = 0 then 0 else initialNumBlocks)).toInt =
      (bytes fileSz % 7 : Nat) := by
  have hlt := bytes_lt fileSz
  have hproduct : (fileSz / initialNumBlocks *
      (if fileSz / initialNumBlocks = 0 then 0 else initialNumBlocks)).toInt =
        (bytes fileSz / 7 * 7 : Nat) := by
    rw [Int64.toInt_mul]
    change (product fileSz).bmod (2 ^ 64) = _
    rw [product_eq h, Int.bmod_eq_of_le (by omega) (by omega)]
  rw [Int64.toInt_sub, hproduct, toInt_eq_bytes h, Int.bmod_eq_of_le (by omega) (by omega)]
  omega

theorem rest_pos_iff (h : 0 ≤ fileSz) :
    fileSz - fileSz / initialNumBlocks *
      (if fileSz / initialNumBlocks = 0 then 0 else initialNumBlocks) > 0 ↔
      bytes fileSz - bytes fileSz / 7 * (if bytes fileSz / 7 = 0 then 0 else 7) > 0 := by
  rw [gt_iff_lt, Int64.lt_iff_toInt_lt, toInt_rest h, Int64.toInt_zero]
  split <;> omega

theorem toInt_succ_total (h : 0 ≤ fileSz) :
    ((if fileSz / initialNumBlocks = 0 then 0 else initialNumBlocks : Int64) + 1).toInt =
      ((if bytes fileSz / 7 = 0 then 0 else 7 : Nat) + 1 : Nat) := by
  have hone : (1 : Int64).toInt = 1 := rfl
  rw [Int64.toInt_add, toInt_total h, hone, Int.bmod_eq_of_le (by split <;> omega)
    (by split <;> omega)]
  rfl

theorem pushLayout_exact (h : 0 ≤ fileSz) :
    (pushLayout fileSz).totalBlocks.toInt = (Blocks.pushLayout (bytes fileSz)).totalBlocks ∧
      (pushLayout fileSz).initialBlockSize.toInt =
        (Blocks.pushLayout (bytes fileSz)).initialBlockSize ∧
      (pushLayout fileSz).lastBlockSize.toInt =
        (Blocks.pushLayout (bytes fileSz)).lastBlockSize := by
  have hpos := rest_pos_iff h
  unfold pushLayout Blocks.pushLayout Blocks.initialNumBlocks
  dsimp only
  by_cases hrest : bytes fileSz - bytes fileSz / 7 * (if bytes fileSz / 7 = 0 then 0 else 7) > 0
  · rw [if_pos (hpos.mpr hrest), if_pos hrest]
    refine ⟨toInt_succ_total h, toInt_initial h, ?_⟩
    dsimp only
    rw [toInt_rest h]
    split <;> omega
  · rw [if_neg (fun hlt => hrest (hpos.mp hlt)), if_neg hrest]
    exact ⟨toInt_total h, toInt_initial h, toInt_initial h⟩

theorem popBlocks_eq_total (fileSz : Int64) :
    popBlocks fileSz = (pushLayout fileSz).totalBlocks := by
  unfold popBlocks pushLayout
  dsimp only
  split <;> split <;> rfl

theorem blockSizes_exact (h : 0 ≤ fileSz) :
    (blockSizes fileSz).map Int64.toInt = (blockLens (bytes fileSz)).map Nat.cast := by
  rcases pushLayout_exact h with ⟨htotal, hinitial, hlast⟩
  unfold blockSizes blockLens
  rw [htotal, Int.toNat_natCast, List.map_map, List.map_map]
  apply List.map_congr_left
  intro i hi
  have hlt := List.mem_range.mp hi
  simp only [Function.comp_apply, OffLayout.currentBlockSize, Layout.currentBlockSize, htotal]
  by_cases heq : i = (Blocks.pushLayout (bytes fileSz)).totalBlocks - 1
  · rw [if_pos heq, if_pos (by omega), hlast]
  · rw [if_neg heq, if_neg (by omega), hinitial]

theorem map_bytes_blockSizes (h : 0 ≤ fileSz) :
    (blockSizes fileSz).map bytes = blockLens (bytes fileSz) := by
  have hexact := congrArg (List.map Int.toNat) (blockSizes_exact h)
  rw [List.map_map, List.map_map] at hexact
  exact hexact.trans (List.map_id _)

end Exact

theorem totalBlocks_le (n : Nat) : (Blocks.pushLayout n).totalBlocks ≤ 8 := by
  unfold Blocks.pushLayout Blocks.initialNumBlocks
  dsimp only
  split <;> split <;> dsimp only <;> omega

theorem totalBlocks_eq_zero_iff (n : Nat) : (Blocks.pushLayout n).totalBlocks = 0 ↔ n = 0 := by
  unfold Blocks.pushLayout Blocks.initialNumBlocks
  dsimp only
  split <;> split <;> dsimp only <;> omega

theorem pos_of_mem_blockLens {n length : Nat} (h : length ∈ blockLens n) : 0 < length := by
  rcases Nat.lt_or_ge n 7 with hsmall | hlarge
  · rw [blockLens_small hsmall] at h
    split at h
    · cases h
    · rw [List.mem_singleton] at h
      omega
  · rw [blockLens_large hlarge, List.mem_append, List.mem_replicate] at h
    rcases h with h | h
    · omega
    · split at h
      · cases h
      · rw [List.mem_singleton] at h
        omega

theorem dropLast_blockLens {n length : Nat} (h : length ∈ (blockLens n).dropLast) :
    length = n / 7 := by
  rcases Nat.lt_or_ge n 7 with hsmall | hlarge
  · rw [blockLens_small hsmall] at h
    split at h <;> cases h
  · rw [blockLens_large hlarge] at h
    split at h
    · rw [List.append_nil] at h
      exact List.eq_of_mem_replicate (List.dropLast_subset _ h)
    · rw [List.dropLast_concat] at h
      exact List.eq_of_mem_replicate h

section Parts

variable {fileSz : Int64}

theorem toInt_popBlocks (h : 0 ≤ fileSz) :
    (popBlocks fileSz).toInt = (Blocks.popBlocks (bytes fileSz) : Nat) := by
  rw [popBlocks_eq_total, (pushLayout_exact h).1, popBlocks_eq]

theorem popBlocks_le_eight (h : 0 ≤ fileSz) : popBlocks fileSz ≤ 8 := by
  have hle := totalBlocks_le (bytes fileSz)
  have height : (8 : Int64).toInt = 8 := rfl
  rw [Int64.le_iff_toInt_le, toInt_popBlocks h, popBlocks_eq, height]
  omega

theorem popBlocks_eq_zero_iff (h : 0 ≤ fileSz) : popBlocks fileSz = 0 ↔ fileSz = 0 := by
  have hzero := totalBlocks_eq_zero_iff (bytes fileSz)
  rw [← Int64.toInt_inj, ← Int64.toInt_inj, toInt_popBlocks h, popBlocks_eq, toInt_eq_bytes h,
    Int64.toInt_zero]
  omega

theorem length_blockSizes (h : 0 ≤ fileSz) :
    (blockSizes fileSz).length = (popBlocks fileSz).toInt := by
  have hlength := congrArg List.length (blockSizes_exact h)
  rw [List.length_map, List.length_map] at hlength
  rw [toInt_popBlocks h, ← blockLens_length, hlength]

theorem pos_of_mem_blockSizes {size : Int64} (h : 0 ≤ fileSz) (hsize : size ∈ blockSizes fileSz) :
    0 < size := by
  have hint := List.mem_map_of_mem (f := Int64.toInt) hsize
  rw [blockSizes_exact h] at hint
  rcases List.mem_map.mp hint with ⟨length, hlength, heq⟩
  have hpos := pos_of_mem_blockLens hlength
  rw [Int64.lt_iff_toInt_lt, ← heq, Int64.toInt_zero]
  omega

theorem dropLast_blockSizes {size : Int64} (h : 0 ≤ fileSz)
    (hsize : size ∈ (blockSizes fileSz).dropLast) : size = fileSz / 7 := by
  have hint := List.mem_map_of_mem (f := Int64.toInt) hsize
  rw [List.map_dropLast, blockSizes_exact h, ← List.map_dropLast] at hint
  rcases List.mem_map.mp hint with ⟨length, hlength, heq⟩
  rw [← Int64.toInt_inj, ← heq, dropLast_blockLens hlength]
  exact (toInt_initial h).symm

theorem blockSizes_small (hpos : 0 < fileSz) (hlt : fileSz < 7) : blockSizes fileSz = [fileSz] := by
  have h : 0 ≤ fileSz := Int64.le_of_lt hpos
  have hexact := blockSizes_exact h
  have hbytes := toInt_eq_bytes h
  have hseven : (7 : Int64).toInt = 7 := rfl
  rw [Int64.lt_iff_toInt_lt, hbytes] at hpos hlt
  rw [hseven] at hlt
  rw [Int64.toInt_zero] at hpos
  rw [blockLens_small (by omega), if_neg (by omega), List.map_singleton, ← hbytes] at hexact
  rcases List.map_eq_singleton_iff.mp hexact with ⟨size, hsizes, heq⟩
  rw [hsizes, Int64.toInt_inj.mp heq]

theorem seventh_lt_of_fits (h : 0 ≤ fileSz)
    (hfits : ∀ size ∈ blockSizes fileSz, size.toInt < 2 ^ 31) : bytes fileSz / 7 < 2 ^ 31 := by
  rcases Nat.lt_or_ge (bytes fileSz) 7 with hsmall | hlarge
  · omega
  · have hlen : bytes fileSz / 7 ∈ blockLens (bytes fileSz) := by
      rw [blockLens_large hlarge]
      exact List.mem_append_left _ (List.mem_replicate.mpr ⟨by decide, rfl⟩)
    have hint := List.mem_map_of_mem (f := (Nat.cast : Nat → Int)) hlen
    rw [← blockSizes_exact h] at hint
    rcases List.mem_map.mp hint with ⟨size, hsize, heq⟩
    have hfit := hfits size hsize
    omega

end Parts

/-- For every size that is not negative, both functions count the same blocks: at most eight,
and none exactly for the empty file. All are positive, all but the last have a seventh of the
size, a small file has one, and they add up to the size. No product overflows. If the blocks
are filled with a file and their lengths fit a C `int`, the callback gets the file. -/
theorem blocks_of_size {fileSz : Int64} (h : 0 ≤ fileSz) :
    popBlocks fileSz = (pushLayout fileSz).totalBlocks ∧
    popBlocks fileSz ≤ 8 ∧ (popBlocks fileSz = 0 ↔ fileSz = 0) ∧
    (blockSizes fileSz).length = (popBlocks fileSz).toInt ∧
    (∀ size ∈ blockSizes fileSz, 0 < size) ∧
    (∀ size ∈ (blockSizes fileSz).dropLast, size = fileSz / 7) ∧
    (0 < fileSz → fileSz < 7 → blockSizes fileSz = [fileSz]) ∧
    ((blockSizes fileSz).map bytes).sum = bytes fileSz ∧
    0 ≤ product fileSz ∧ product fileSz ≤ fileSz.toInt ∧
    ∀ data : List UInt8, data.length = fileSz.toInt → (∀ size ∈ blockSizes fileSz,
      size.toInt < 2 ^ 31) → gather (readv (blankIovecs (bytes fileSz)) data)
        (popBlocks fileSz).toInt.toNat = some (data.map some) := by
  refine ⟨popBlocks_eq_total fileSz, popBlocks_le_eight h, popBlocks_eq_zero_iff h,
    length_blockSizes h, fun size => pos_of_mem_blockSizes h, fun size => dropLast_blockSizes h,
    blockSizes_small, ?_, (product_bounds h).1, (product_bounds h).2, ?_⟩
  · rw [map_bytes_blockSizes h, blockLens_sum]
  · intro data hdata hfits
    have hlength : data.length = bytes fileSz := by
      have hbytes := toInt_eq_bytes h
      omega
    rw [toInt_popBlocks h, Int.toNat_natCast,
      gather_of_fits (seventh_lt_of_fits h hfits) (Nat.le_of_eq hlength), hlength, Nat.sub_self,
      List.replicate_zero, List.append_nil]

theorem blocks_of_fifteen :
    blockSizes 15 = [2, 2, 2, 2, 2, 2, 2, 1] ∧ ∀ data : List UInt8, data.length = 15 →
      gather (readv (blankIovecs 15) data) 8 = some (data.map some) := by
  have hsizes : blockSizes 15 = [2, 2, 2, 2, 2, 2, 2, 1] := by decide
  rcases blocks_of_size (show (0 : Int64) ≤ 15 by decide) with
    ⟨-, -, -, -, -, -, -, -, -, -, hgather⟩
  have hone : (1 : Int64).toInt = 1 := rfl
  have htwo : (2 : Int64).toInt = 2 := rfl
  refine ⟨hsizes, fun data hdata => hgather data (congrArg Nat.cast hdata) ?_⟩
  simp [hsizes, hone, htwo]

end IoWrapper.FileRing.Sizes
