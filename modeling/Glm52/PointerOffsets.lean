import Glm52.Fp8Cache
import Glm52.FusedAttention
import Glm52.MachineInt
import Glm52.SplitAttention

/-! # The pointer offsets of the sparse attention kernels

Every load and store of a kernel adds to a pointer a few products of a program id or a
lane with a stride.  The products are narrow unless an operand was promoted; adding to
a pointer is wide.  A kernel is written once, as the accesses of one choice of lanes;
on machine integers it gives the addresses that are used, on `ℤ` the addresses that are
meant.

Three of the kernels promote the token.  The finish kernel does not, and its product
of token and stride wraps from the first token whose row starts at `2^31` or beyond. -/
namespace Glm52.PointerOffsets
open MachineInt

/-- The tensors that the kernels are launched with. -/
inductive Buffer
  | q | cache | indices | lens | out | kv | valid | maxScore | denom | acc | sink | output
deriving DecidableEq

/-- What a lane loads or stores where its mask is set: `count` elements from `offset`. -/
structure Access (W : Type) where
  buffer : Buffer
  mask : Bool
  offset : W
  count : ℕ

section Kernels
variable {N W : Type} [Add N] [Sub N] [Mul N] [Div N] [Max N] [LT N] [DecidableLT N] [LE N]
  [DecidableLE N] [Add W] [Mul W] [LT W] [DecidableLT W] [Lit N] [Lit W] [Promote N W]

/-- `(slot >= 0) & (slot < total_slots)`. -/
def slotInRange (slot : N) (totalSlots : W) : Bool :=
  decide (lit 0 ≤ slot) && decide (wide slot < totalSlots)

/-- The NoPE loads of a cache row: the byte of a dimension and the four bytes of its
scale. -/
def nopeAccesses (base : W) (dim : N) (mask : Bool) : List (Access W) :=
  let scaleTile := dim / lit fp8dsQuantTile
  let scaleByte := lit scaleByteOff + scaleTile * lit 4
  [⟨.cache, mask, base + wide dim, 1⟩,
    ⟨.cache, mask, base + wide scaleByte + wide (lit 0 : N), 1⟩,
    ⟨.cache, mask, base + wide scaleByte + wide (lit 1 : N), 1⟩,
    ⟨.cache, mask, base + wide scaleByte + wide (lit 2 : N), 1⟩,
    ⟨.cache, mask, base + wide scaleByte + wide (lit 3 : N), 1⟩]

/-- The RoPE load of a cache row: an element of two bytes. -/
def ropeAccess (base : W) (ropeElem : N) (mask : Bool) : Access W :=
  ⟨.cache, mask, base + wide (lit ropeByteOff : N) + lit 2 * wide ropeElem, 2⟩

/-- `_gather_dequant_fp8ds_kernel`, one dimension of one candidate. -/
def gatherDequantFp8dsKernel (pid0 pid1 slot dimOffset : N)
    (strideCacheS strideIdxT strideIdxK strideOutT strideOutK strideOutD : N) (totalSlots : W) :
    List (Access W) :=
  let t := wide pid0
  let k := wide pid1
  let isValid := slotInRange slot totalSlots
  let headDim : N := lit fp8dsNopeDim + lit fp8dsRopeDim
  let dimMask := decide (dimOffset < headDim)
  let nopeMask := decide (dimOffset < lit fp8dsNopeDim)
  let ropeMask := decide (lit fp8dsNopeDim ≤ dimOffset) && dimMask
  let base := wide slot * wide strideCacheS
  let ropeElem := max (dimOffset - lit fp8dsNopeDim) (lit 0)
  ⟨.indices, true, t * wide strideIdxT + k * wide strideIdxK, 1⟩ ::
    nopeAccesses base dimOffset (nopeMask && isValid) ++
    [ropeAccess base ropeElem (ropeMask && isValid),
      ⟨.out, dimMask, t * wide strideOutT + k * wide strideOutK + wide (dimOffset * strideOutD), 1⟩]

/-- `_fused_gather_dequant_attn_kernel` outside its loop, for a head and a dimension of
either part. -/
def fusedGatherDequantAttnKernel (pid0 pid1 headLane nopeOff ropeOff : N)
    (strideQT strideQH strideQD strideStateT strideStateH strideAccT strideAccH strideAccD : N)
    (numHeads : N) : List (Access W) :=
  let tokenIdx := wide pid0
  let headOffset := pid1 * lit fusedHeadBlock + headLane
  let headMask := decide (headOffset < numHeads)
  let nopeMask := decide (nopeOff < lit fp8dsNopeDim)
  let ropeMask := decide (ropeOff < lit fp8dsRopeDim)
  let stateBase := tokenIdx * wide strideStateT
  [⟨.q, headMask && nopeMask, tokenIdx * wide strideQT + wide (headOffset * strideQH) +
      wide (nopeOff * strideQD), 1⟩,
    ⟨.q, headMask && ropeMask, tokenIdx * wide strideQT + wide (headOffset * strideQH) +
      wide ((lit fp8dsNopeDim + ropeOff) * strideQD), 1⟩,
    ⟨.lens, true, tokenIdx, 1⟩,
    ⟨.maxScore, headMask, stateBase + wide (headOffset * strideStateH), 1⟩,
    ⟨.denom, headMask, stateBase + wide (headOffset * strideStateH), 1⟩,
    ⟨.acc, headMask && nopeMask, tokenIdx * wide strideAccT + wide (headOffset * strideAccH) +
      wide (nopeOff * strideAccD), 1⟩]

/-- A pass of the loop of `_fused_gather_dequant_attn_kernel`, for a candidate of the
tile and a dimension of either part. -/
def fusedGatherDequantAttnPass (pid0 n0 candBase slot validLen nopeOff ropeOff : N)
    (strideCacheS strideIdxT strideIdxK numCandidates : N) (totalSlots : W) : List (Access W) :=
  let tokenIdx := wide pid0
  let cand := n0 + candBase
  let candInRange := decide (cand < numCandidates)
  let candValid := slotInRange slot totalSlots && decide (cand < validLen)
  let base := wide slot * wide strideCacheS
  let nopeMask := decide (nopeOff < lit fp8dsNopeDim)
  let ropeMask := decide (ropeOff < lit fp8dsRopeDim)
  ⟨.indices, candInRange, tokenIdx * wide strideIdxT + wide (cand * strideIdxK), 1⟩ ::
    nopeAccesses base nopeOff (candValid && nopeMask) ++
    [ropeAccess base ropeOff (candValid && ropeMask)]

/-- `_materialized_attn_kernel` outside its loop, for a head and a dimension. -/
def materializedAttnKernel (pid0 pid1 headLane dimOffset : N)
    (strideQT strideQH strideQD strideStateT strideStateH strideAccT strideAccH strideAccD : N)
    (numHeads headDim headBlock : N) : List (Access W) :=
  let tokenIdx := wide pid0
  let headOffset := pid1 * headBlock + headLane
  let headMask := decide (headOffset < numHeads)
  let dimMask := decide (dimOffset < headDim)
  let stateBase := tokenIdx * wide strideStateT
  [⟨.q, headMask && dimMask, tokenIdx * wide strideQT + wide (headOffset * strideQH) +
      wide (dimOffset * strideQD), 1⟩,
    ⟨.maxScore, headMask, stateBase + wide (headOffset * strideStateH), 1⟩,
    ⟨.denom, headMask, stateBase + wide (headOffset * strideStateH), 1⟩,
    ⟨.acc, headMask && dimMask, tokenIdx * wide strideAccT + wide (headOffset * strideAccH) +
      wide (dimOffset * strideAccD), 1⟩]

/-- A pass of the loop of `_materialized_attn_kernel`, for one dimension. -/
def materializedAttnPass (pid0 candidateIdx dimOffset : N) (isValid : Bool)
    (strideKvT strideKvK strideKvD strideValidT strideValidK headDim : N) : List (Access W) :=
  let tokenIdx := wide pid0
  let dimMask := decide (dimOffset < headDim)
  [⟨.valid, true, tokenIdx * wide strideValidT + wide (candidateIdx * strideValidK), 1⟩,
    ⟨.kv, isValid && dimMask, tokenIdx * wide strideKvT + wide (candidateIdx * strideKvK) +
      wide (dimOffset * strideKvD), 1⟩]

/-- `_finish_attention_state_with_sink_kernel`, for one dimension.  Nothing is promoted
before it is added to a pointer. -/
def finishAttentionStateWithSinkKernel (tokenHead blockD dimLane : N)
    (strideStateT strideStateH strideAccT strideAccH strideAccD : N)
    (strideOutputT strideOutputH strideOutputD numHeads headDim BLOCK_D : N) :
    List (Access W) :=
  let tokenIdx := tokenHead / numHeads
  let headIdx := tokenHead - tokenIdx * numHeads
  let offset := blockD * BLOCK_D + dimLane
  let dimMask := decide (offset < headDim)
  let stateOffset := tokenIdx * strideStateT + headIdx * strideStateH
  [⟨.maxScore, true, wide stateOffset, 1⟩,
    ⟨.denom, true, wide stateOffset, 1⟩,
    ⟨.sink, true, wide headIdx, 1⟩,
    ⟨.acc, dimMask, wide (tokenIdx * strideAccT) + wide (headIdx * strideAccH) +
      wide (offset * strideAccD), 1⟩,
    ⟨.output, dimMask, wide (tokenIdx * strideOutputT) + wide (headIdx * strideOutputH) +
      wide (offset * strideOutputD), 1⟩]

/-! ### The launches

The tensors are contiguous, so the stride of a dimension is the product of the sizes
after it. -/

/-- `_gather_dequant_fp8ds`: program `(t, k)`. -/
def gatherDequantFp8ds (K totalSlots t k d : ℕ) (slot : N) : List (Access W) :=
  gatherDequantFp8dsKernel (lit t) (lit k) slot (lit d) (lit fp8dsEntryBytes) (lit K) (lit 1)
    (lit (K * dqk)) (lit dqk) (lit 1) (lit totalSlots)

/-- `_fused_gather_dequant_attend`: program `(t, b)`, outside the loop. -/
def fusedGatherDequantAttend (H t b lane nopeOff ropeOff : ℕ) : List (Access W) :=
  fusedGatherDequantAttnKernel (lit t : N) (lit b) (lit lane) (lit nopeOff) (lit ropeOff)
    (lit (H * dqk)) (lit dqk) (lit 1) (lit H) (lit 1) (lit (H * dv)) (lit dv) (lit 1) (lit H)

/-- `_fused_gather_dequant_attend`: pass `n0` of program `(t, _)`. -/
def fusedGatherDequantAttendPass (K totalSlots t n0 candBase nopeOff ropeOff : ℕ)
    (slot validLen : N) : List (Access W) :=
  fusedGatherDequantAttnPass (lit t) (lit n0) (lit candBase) slot validLen (lit nopeOff)
    (lit ropeOff) (lit fp8dsEntryBytes) (lit K) (lit 1) (lit K) (lit totalSlots)

/-- `head_block = 8 if H >= 8 else 1`. -/
def materializedHeadBlock (H : ℕ) : ℕ := if 8 ≤ H then 8 else 1

/-- `_materialized_indexed_accumulate`: program `(t, b)`, outside the loop. -/
def materializedIndexedAccumulate (H t b lane d : ℕ) : List (Access W) :=
  materializedAttnKernel (lit t : N) (lit b) (lit lane) (lit d)
    (lit (H * dqk)) (lit dqk) (lit 1) (lit H) (lit 1) (lit (H * dqk)) (lit dqk) (lit 1)
    (lit H) (lit dqk) (lit (materializedHeadBlock H))

/-- `_materialized_indexed_accumulate`: pass `c` of program `(t, _)`. -/
def materializedIndexedAccumulatePass (K t c d : ℕ) (isValid : Bool) : List (Access W) :=
  materializedAttnPass (lit t : N) (lit c) (lit d) isValid (lit (K * dqk)) (lit dqk) (lit 1)
    (lit K) (lit 1) (lit dqk)

/-- `min(128, next_power_of_2(head_dim))`. -/
def finishBlockD : ℕ := min 128 dv.nextPowerOfTwo

/-- `finish_sparse_mla_attention_with_sink`: program `(p, b)`. -/
def finishSparseMlaAttentionWithSink (H p b lane : ℕ) : List (Access W) :=
  finishAttentionStateWithSinkKernel (lit p : N) (lit b) (lit lane)
    (lit H) (lit 1) (lit (H * dv)) (lit dv) (lit 1) (lit (H * dv)) (lit dv) (lit 1)
    (lit H) (lit dv) (lit finishBlockD)

end Kernels

/-! ### Exact accesses -/

/-- The mask is the one meant, and where it is set the offset is the one meant and the
elements lie in the tensor. -/
def Access.Exact (size : Buffer → ℕ) (m : Access Int64) (z : Access ℤ) : Prop :=
  m.mask = z.mask ∧
    (z.mask = true → HoldsWide m.offset z.offset ∧ z.offset + z.count ≤ size z.buffer)

/-- The elements of the tensors of a launch with `T` tokens, `K` candidates, `H` heads and
value rows of `D`. -/
def sizes (T K H totalSlots D : ℕ) : Buffer → ℕ
  | .q => T * (H * dqk)
  | .cache => totalSlots * fp8dsEntryBytes
  | .indices => T * K
  | .lens => T
  | .out => T * (K * dqk)
  | .kv => T * (K * dqk)
  | .valid => T * K
  | .maxScore => T * H
  | .denom => T * H
  | .acc => T * (H * D)
  | .sink => H
  | .output => T * (H * D)

/-- **Every access of the four kernels is exact**, each kernel for the sizes whose
strides fit 32 bits. -/
structure OffsetsExact (T K H totalSlots : ℕ) : Prop where
  gather : K * dqk < 2 ^ 31 → ∀ t < T, ∀ k < K, ∀ d < max 64 dqk.nextPowerOfTwo, ∀ slot : Int32,
    List.Forall₂ (Access.Exact (sizes T K H totalSlots dqk))
      (gatherDequantFp8ds K totalSlots t k d slot)
      (gatherDequantFp8ds K totalSlots t k d slot.toInt)
  fused : H * dqk < 2 ^ 31 → ∀ t < T, ∀ b < cdiv H fusedHeadBlock, ∀ lane < fusedHeadBlock,
    ∀ nopeOff < fp8dsNopeDim, ∀ ropeOff < fp8dsRopeDim,
    List.Forall₂ (Access.Exact (sizes T K H totalSlots dv))
      (fusedGatherDequantAttend (N := Int32) H t b lane nopeOff ropeOff)
      (fusedGatherDequantAttend (N := ℤ) H t b lane nopeOff ropeOff)
  fusedPass : ∀ t < T, ∀ n, n * fusedBlockN < K → ∀ candBase < fusedBlockN,
    ∀ nopeOff < fp8dsNopeDim, ∀ ropeOff < fp8dsRopeDim, ∀ slot validLen : Int32,
    List.Forall₂ (Access.Exact (sizes T K H totalSlots dv))
      (fusedGatherDequantAttendPass K totalSlots t (n * fusedBlockN) candBase nopeOff ropeOff
        slot validLen)
      (fusedGatherDequantAttendPass K totalSlots t (n * fusedBlockN) candBase nopeOff ropeOff
        slot.toInt validLen.toInt)
  materialized : H * dqk < 2 ^ 31 → ∀ t < T, ∀ b < cdiv H (materializedHeadBlock H),
    ∀ lane < materializedHeadBlock H, ∀ d < blockD dqk,
    List.Forall₂ (Access.Exact (sizes T K H totalSlots dqk))
      (materializedIndexedAccumulate (N := Int32) H t b lane d)
      (materializedIndexedAccumulate (N := ℤ) H t b lane d)
  materializedPass : K * dqk < 2 ^ 31 → ∀ t < T, ∀ c < K, ∀ d < blockD dqk, ∀ isValid : Bool,
    List.Forall₂ (Access.Exact (sizes T K H totalSlots dqk))
      (materializedIndexedAccumulatePass (N := Int32) K t c d isValid)
      (materializedIndexedAccumulatePass (N := ℤ) K t c d isValid)
  finish : H * dv < 2 ^ 31 → ∀ p < T * H, ∀ b < cdiv dv finishBlockD, ∀ lane < finishBlockD,
    List.Forall₂ (Access.Exact (sizes T K H totalSlots dv))
      (finishSparseMlaAttentionWithSink (N := Int32) H p b lane)
      (finishSparseMlaAttentionWithSink (N := ℤ) H p b lane)

section Access
variable {size : Buffer → ℕ} {buffer : Buffer} {m m' : Bool} {x y z : Int64} {a b c : ℤ}
  {count : ℕ}

/-- An access at one wide offset. -/
theorem exact_one (hmask : m = m') (h : m' = true → HoldsWide x a ∧ a + count ≤ size buffer) :
    Access.Exact size ⟨buffer, m, x, count⟩ ⟨buffer, m', a, count⟩ := ⟨hmask, h⟩

/-- An access at a sum of two terms. -/
theorem exact_two (hsize : size buffer < 2 ^ 63) (hmask : m = m')
    (h : m' = true → HoldsWide x a ∧ HoldsWide y b ∧ a + b + count ≤ size buffer) :
    Access.Exact size ⟨buffer, m, x + y, count⟩ ⟨buffer, m', a + b, count⟩ := by
  refine exact_one hmask fun hm => ?_
  obtain ⟨hx, hy, hend⟩ := h hm
  exact ⟨hx.add hy (by omega), hend⟩

/-- An access at a sum of three terms. -/
theorem exact_three (hsize : size buffer < 2 ^ 63) (hmask : m = m')
    (h : m' = true →
      HoldsWide x a ∧ HoldsWide y b ∧ HoldsWide z c ∧ a + b + c + count ≤ size buffer) :
    Access.Exact size ⟨buffer, m, x + y + z, count⟩ ⟨buffer, m', a + b + c, count⟩ := by
  refine exact_one hmask fun hm => ?_
  obtain ⟨hx, hy, hz, hend⟩ := h hm
  exact ⟨hx.add_three hy hz (by omega), hend⟩

end Access

/-! ### The cache rows -/

theorem slotInRange_eq (slot : Int32) {totalSlots : ℕ} (hS : totalSlots < 2 ^ 63) :
    slotInRange slot (lit totalSlots : Int64) = slotInRange slot.toInt (lit totalSlots : ℤ) := by
  have hzero : (lit 0 : Int32).toInt = 0 := by decide
  have htotal := (holdsWide_lit hS).1
  unfold slotInRange
  congr 1
  · rw [decide_le_eq hzero rfl, lit_int, Nat.cast_zero]
  · simp only [Int64.lt_iff_toInt_lt, toInt_wide, htotal, wide_int, lit_int]

/-- A slot in range names a row of the cache. -/
theorem holdsWide_base {slot : Int32} {totalSlots : ℕ}
    (h : slotInRange slot.toInt (lit totalSlots : ℤ) = true) :
    HoldsWide (wide slot * wide (lit fp8dsEntryBytes : Int32))
        (wide slot.toInt * wide (lit fp8dsEntryBytes : ℤ)) ∧
      wide slot.toInt * wide (lit fp8dsEntryBytes : ℤ) + fp8dsEntryBytes ≤
        ((totalSlots * fp8dsEntryBytes : ℕ) : ℤ) := by
  simp only [slotInRange, Bool.and_eq_true, decide_eq_true_eq, wide_int, lit_int,
    Nat.cast_zero] at h
  refine ⟨Holds.mul_wide ⟨rfl, h.1⟩ (holds_lit (by decide)), ?_⟩
  rw [wide_int, wide_int, lit_int, show fp8dsEntryBytes = 656 from rfl]
  push_cast
  omega

section Cache
variable {size : Buffer → ℕ} (hsize : size .cache < 2 ^ 63) {m m' : Bool} (hmask : m = m')
  {base : Int64} {base' : ℤ}
  (hbase : m' = true → HoldsWide base base' ∧ base' + fp8dsEntryBytes ≤ size .cache)
include hsize hmask hbase

/-- **The NoPE loads stay in their row.** -/
theorem nopeAccesses_exact {d : ℕ} (hd : m' = true → d < fp8dsNopeDim) (hlane : d < 2 ^ 31) :
    List.Forall₂ (Access.Exact size) (nopeAccesses base (lit d : Int32) m)
      (nopeAccesses base' (lit d : ℤ) m') := by
  have hdim : Holds (lit d) d := holds_lit hlane
  have htile : Holds (lit d / lit fp8dsQuantTile) ((d : ℤ) / fp8dsQuantTile) :=
    hdim.div (holds_lit (by decide))
  have hbyte : ∀ j ≤ 3, m' = true → HoldsWide base base' ∧
      HoldsWide (wide (lit scaleByteOff + lit d / lit fp8dsQuantTile * lit 4 : Int32))
        ((scaleByteOff : ℤ) + (d : ℤ) / fp8dsQuantTile * 4) ∧
      HoldsWide (wide (lit j : Int32)) j ∧
      base' + ((scaleByteOff : ℤ) + (d : ℤ) / fp8dsQuantTile * 4) + j + 1 ≤ size .cache := by
    intro j hj hm
    obtain ⟨hrow, hend⟩ := hbase hm
    have hd := hd hm
    simp only [show fp8dsEntryBytes = 656 from rfl, show fp8dsNopeDim = 512 from rfl,
      show fp8dsQuantTile = 128 from rfl, show scaleByteOff = 512 from rfl] at hend hd htile ⊢
    have hscale := (holds_lit (n := 512) (by decide)).add
      (htile.mul (holds_lit (n := 4) (by decide)) (by push_cast; omega)) (by push_cast; omega)
    refine ⟨hrow, ?_, (holds_lit (by omega)).wide, by push_cast; omega⟩
    exact_mod_cast hscale.wide
  simp only [nopeAccesses, lit_int, wide_int]
  refine .cons ?_ (.cons ?_ (.cons ?_ (.cons ?_ (.cons ?_ .nil))))
  · refine exact_two hsize hmask fun hm => ?_
    obtain ⟨hrow, hend⟩ := hbase hm
    have hd := hd hm
    have hentry : fp8dsNopeDim ≤ fp8dsEntryBytes := by decide
    exact ⟨hrow, hdim.wide, by push_cast; omega⟩
  · exact exact_three hsize hmask (hbyte 0 (by decide))
  · exact exact_three hsize hmask (hbyte 1 (by decide))
  · exact exact_three hsize hmask (hbyte 2 (by decide))
  · exact exact_three hsize hmask (hbyte 3 (by decide))

/-- **The RoPE load stays in its row.** -/
theorem ropeAccess_exact {elem : Int32} {e : ℤ}
    (he : m' = true → Holds elem e ∧ e < fp8dsRopeDim) :
    Access.Exact size (ropeAccess base elem m) (ropeAccess base' e m') := by
  refine exact_three hsize hmask fun hm => ?_
  obtain ⟨hrow, hend⟩ := hbase hm
  obtain ⟨helem, hlt⟩ := he hm
  simp only [show fp8dsEntryBytes = 656 from rfl, show fp8dsRopeDim = 64 from rfl, lit_int,
    wide_int, show ropeByteOff = 528 from rfl] at hend hlt ⊢
  refine ⟨hrow, (holds_lit (by decide)).wide, ?_, by push_cast; omega⟩
  exact (holdsWide_lit (n := 2) (by decide)).mul helem.wide (by push_cast; omega)

end Cache

/-! ### The kernels that promote the token -/

section Sizes
variable {T K H totalSlots : ℕ}

/-- A token's rows of a tensor with narrow strides. -/
theorem rows_lt {n s : ℕ} (hn : n < 2 ^ 31) (hs : s < 2 ^ 31) : n * s < 2 ^ 63 :=
  calc n * s < 2 ^ 31 * 2 ^ 31 := Nat.mul_lt_mul'' hn hs
    _ < 2 ^ 63 := by norm_num

/-- The element `(t, h, d)` of a tensor. -/
theorem element_lt {t h d D : ℕ} (ht : t < T) (hh : h < H) (hd : d < D) :
    t * (H * D) + h * D + d < T * (H * D) := by
  rw [Nat.add_assoc]
  exact row_lt ht (row_lt hh hd)

/-- A narrow product of an index and a stride, below the size of the row. -/
theorem holds_mul_lit {x : Int32} {i n s : ℕ} (hx : Holds x i) (hi : i < n) (hs : 0 < s)
    (hrow : n * s < 2 ^ 31) : Holds (x * lit s) ((i : ℤ) * s) := by
  have hlt := mul_lt_of_row hi hs
  have hle : s ≤ n * s := Nat.le_mul_of_pos_left s (by omega)
  apply hx.mul (holds_lit (by omega))
  exact_mod_cast hlt.trans hrow

/-- The terms of the element `(t, h, d)`: the token promoted, the head promoted or its
product narrow, the dimension narrow. -/
theorem exact_element (h d : ℕ) {size : Buffer → ℕ} {buffer : Buffer} {m m' : Bool}
    (hmask : m = m') {t D : ℕ} {y : Int64} {b : ℤ} {dim : Int32} {dim' : ℤ} (hT : T < 2 ^ 31)
    (hrow : H * D < 2 ^ 31) (hbuffer : size buffer = T * (H * D)) (ht : t < T)
    (hm : m' = true →
      (HoldsWide y b ∧ b = h * D ∧ h < H) ∧ Holds dim d ∧ dim' = d ∧ d < D) :
    Access.Exact size
      ⟨buffer, m, wide (lit t : Int32) * wide (lit (H * D) : Int32) + y + wide (dim * lit 1), 1⟩
      ⟨buffer, m', wide (lit t : ℤ) * wide (lit (H * D) : ℤ) + b + wide (dim' * lit 1), 1⟩ := by
  refine exact_three (by rw [hbuffer]; exact rows_lt hT hrow) hmask fun h' => ?_
  obtain ⟨⟨hy, rfl, hh⟩, hdim, rfl, hd⟩ := hm h'
  have hdrow : d < H * D := lt_of_lt_of_le hd (Nat.le_mul_of_pos_left D (by omega))
  have hend := element_lt ht hh hd
  refine ⟨(holds_lit (by omega)).mul_wide (holds_lit hrow), hy, ?_, ?_⟩
  · exact (holds_mul_lit hdim hdrow Nat.one_pos (by omega)).wide
  · rw [hbuffer]
    simp only [wide_int, lit_int, Nat.cast_one, mul_one]
    exact_mod_cast hend

/-- The terms of the element `(t, k)` with both promoted or the second narrow. -/
theorem exact_pair {size : Buffer → ℕ} {buffer : Buffer} {m m' : Bool} (hmask : m = m')
    {t k : ℕ} {y : Int64} {b : ℤ} (hT : T < 2 ^ 31) (hK : K < 2 ^ 31)
    (hbuffer : size buffer = T * K) (ht : t < T)
    (hm : m' = true → HoldsWide y b ∧ b = k ∧ k < K) :
    Access.Exact size ⟨buffer, m, wide (lit t : Int32) * wide (lit K : Int32) + y, 1⟩
      ⟨buffer, m', wide (lit t : ℤ) * wide (lit K : ℤ) + b, 1⟩ := by
  refine exact_two (by rw [hbuffer]; exact rows_lt hT hK) hmask fun h' => ?_
  obtain ⟨hy, rfl, hk⟩ := hm h'
  have hend := row_lt ht hk
  refine ⟨(holds_lit (by omega)).mul_wide (holds_lit hK), hy, ?_⟩
  rw [hbuffer]
  simp only [wide_int, lit_int]
  exact_mod_cast hend

end Sizes

section Launches
variable {T K H totalSlots : ℕ} (hT : T < 2 ^ 31) (hslots : totalSlots * fp8dsEntryBytes < 2 ^ 63)

/-- A comparison of a value with a constant. -/
theorem decide_lit_lt {x : Int32} {a : ℤ} (hx : x.toInt = a) {n : ℕ} (hn : n < 2 ^ 31) :
    decide (x < lit n) = decide (a < (lit n : ℤ)) :=
  decide_lt_eq hx (holds_lit hn).1

/-- What an exact mask says of the number that a value denotes. -/
theorem lt_of_decide_lit {a : ℤ} {m n : ℕ} (ha : a = m) (h : decide (a < (lit n : ℤ)) = true) :
    m < n := by
  have hlt := of_decide_eq_true h
  rw [ha, lit_int] at hlt
  exact_mod_cast hlt

include hslots in
theorem totalSlots_lt : totalSlots < 2 ^ 63 := by
  have hentry : 0 < fp8dsEntryBytes := by decide
  exact lt_of_le_of_lt (Nat.le_mul_of_pos_right totalSlots hentry) hslots

include hT hslots in
theorem gather_exact (hK : K * dqk < 2 ^ 31) {t k d : ℕ} (ht : t < T) (hk : k < K)
    (hd : d < max 64 dqk.nextPowerOfTwo) (slot : Int32) :
    List.Forall₂ (Access.Exact (sizes T K H totalSlots dqk))
      (gatherDequantFp8ds K totalSlots t k d slot)
      (gatherDequantFp8ds K totalSlots t k d slot.toInt) := by
  have hd : d < 1024 := lt_of_lt_of_le hd (by decide +kernel)
  have hK31 : K < 2 ^ 31 := lt_of_le_of_lt (Nat.le_mul_of_pos_right K (by decide)) hK
  have hdim : Holds (lit d) d := holds_lit (by omega)
  have hk32 : Holds (lit k) k := holds_lit (by omega)
  have hvalid := slotInRange_eq slot (totalSlots_lt hslots)
  have hnope := decide_lit_lt hdim.1 (n := fp8dsNopeDim) (by decide)
  have hrope : decide (lit fp8dsNopeDim ≤ (lit d : Int32)) =
      decide ((lit fp8dsNopeDim : ℤ) ≤ (lit d : ℤ)) :=
    decide_le_eq (holds_lit (by decide)).1 hdim.1
  have hhead : Holds (lit fp8dsNopeDim + lit fp8dsRopeDim : Int32)
      ((lit fp8dsNopeDim : ℤ) + (lit fp8dsRopeDim : ℤ)) :=
    (holds_lit (by decide)).add (holds_lit (by decide)) (by decide)
  have hheadDim : (lit fp8dsNopeDim : ℤ) + (lit fp8dsRopeDim : ℤ) = (dqk : ℕ) := by decide
  have hdimMask := decide_lt_eq hdim.1 hhead.1
  simp only [gatherDequantFp8ds, gatherDequantFp8dsKernel]
  refine .cons ?_ (List.rel_append ?_ (.cons ?_ (.cons ?_ .nil)))
  · refine exact_pair rfl hT hK31 rfl ht fun _ => ⟨?_, ?_, hk⟩
    · exact hk32.mul_wide (holds_lit (by decide))
    · rw [wide_int, wide_int, lit_int, lit_int, Nat.cast_one, mul_one]
  · refine nopeAccesses_exact hslots (by rw [hnope, hvalid]; rfl) ?_ ?_ (by omega)
    · intro h
      exact holdsWide_base (Bool.and_eq_true_iff.mp h).2
    · intro h
      exact lt_of_decide_lit rfl (Bool.and_eq_true_iff.mp h).1
  · refine ropeAccess_exact hslots (by rw [hrope, hdimMask, hvalid]; rfl) ?_ ?_
    · intro h
      exact holdsWide_base (Bool.and_eq_true_iff.mp h).2
    · intro h
      obtain ⟨hle, hlt⟩ := Bool.and_eq_true_iff.mp (Bool.and_eq_true_iff.mp h).1
      have hle := of_decide_eq_true hle
      have hlt := of_decide_eq_true hlt
      refine ⟨holds_max_zero (hdim.sub (holds_lit (by decide)) hle).1, ?_⟩
      rw [lit_int, lit_int] at hle
      rw [lit_int, lit_int, lit_int] at hlt
      rw [lit_int, lit_int, lit_int, Nat.cast_zero, max_eq_left (by omega)]
      omega
  · refine exact_element k d hdimMask hT hK rfl ht fun h => ?_
    have hlt := of_decide_eq_true h
    rw [hheadDim] at hlt
    refine ⟨⟨hk32.mul_wide (holds_lit (by decide)), ?_, hk⟩, hdim, rfl, by exact_mod_cast hlt⟩
    rw [wide_int, wide_int, lit_int, lit_int]

/-- The head of a lane. -/
theorem holds_head {n b lane : ℕ} (hn : 0 < n) (hH : H + n < 2 ^ 31) (hb : b < cdiv H n)
    (hlane : lane < n) :
    Holds (lit b * lit n + lit lane) (b * n + lane : ℕ) ∧
      (lit b : ℤ) * lit n + lit lane = (b * n + lane : ℕ) := by
  have hgrid : (b + 1) * n ≤ H + n - 1 := (Nat.le_div_iff_mul_le hn).mp hb
  rw [Nat.succ_mul] at hgrid
  have hle : b ≤ b * n := Nat.le_mul_of_pos_right b hn
  have hprod : Holds (lit b * lit n) ((b : ℤ) * n) := by
    apply (holds_lit (by omega)).mul (holds_lit (by omega))
    exact_mod_cast (by omega : b * n < 2 ^ 31)
  have hsum : Holds (lit b * lit n + lit lane) ((b : ℤ) * n + lane) := by
    apply hprod.add (holds_lit (by omega))
    exact_mod_cast (by omega : b * n + lane < 2 ^ 31)
  constructor
  · exact_mod_cast hsum
  · simp

/-- An element at a head and a dimension, both narrow. -/
theorem exact_head_element (h d : ℕ) {size : Buffer → ℕ} {buffer : Buffer} {m m' : Bool}
    (hmask : m = m') {t D : ℕ} {head dim : Int32} {head' dim' : ℤ} (hT : T < 2 ^ 31)
    (hrow : H * D < 2 ^ 31) (hbuffer : size buffer = T * (H * D)) (ht : t < T)
    (hhead : Holds head h ∧ head' = h) (hdim : Holds dim d ∧ dim' = d)
    (hm : m' = true → h < H ∧ d < D) :
    Access.Exact size
      ⟨buffer, m, wide (lit t : Int32) * wide (lit (H * D) : Int32) + wide (head * lit D) +
        wide (dim * lit 1), 1⟩
      ⟨buffer, m', wide (lit t : ℤ) * wide (lit (H * D) : ℤ) + wide (head' * lit D) +
        wide (dim' * lit 1), 1⟩ := by
  refine exact_element h d hmask hT hrow hbuffer ht fun h' => ?_
  obtain ⟨hh, hd⟩ := hm h'
  refine ⟨⟨?_, ?_, hh⟩, hdim.1, hdim.2, hd⟩
  · rw [hhead.2]
    exact (holds_mul_lit hhead.1 hh (by omega) hrow).wide
  · rw [wide_int, lit_int, hhead.2]

/-- A state element at a head. -/
theorem exact_head_state (h : ℕ) {size : Buffer → ℕ} {buffer : Buffer} {m m' : Bool}
    (hmask : m = m') {t : ℕ} {head : Int32} {head' : ℤ} (hT : T < 2 ^ 31)
    (hH : H < 2 ^ 31) (hbuffer : size buffer = T * H) (ht : t < T)
    (hhead : Holds head h ∧ head' = h) (hm : m' = true → h < H) :
    Access.Exact size
      ⟨buffer, m, wide (lit t : Int32) * wide (lit H : Int32) + wide (head * lit 1), 1⟩
      ⟨buffer, m', wide (lit t : ℤ) * wide (lit H : ℤ) + wide (head' * lit 1), 1⟩ := by
  refine exact_pair (k := h) hmask hT hH hbuffer ht fun h' => ⟨?_, ?_, hm h'⟩
  · rw [hhead.2]
    exact (holds_mul_lit hhead.1 (hm h') Nat.one_pos (by omega)).wide
  · rw [wide_int, lit_int, Nat.cast_one, mul_one, hhead.2]

include hT in
theorem fused_exact (hH : H * dqk < 2 ^ 31) {t b lane nopeOff ropeOff : ℕ} (ht : t < T)
    (hb : b < cdiv H fusedHeadBlock) (hlane : lane < fusedHeadBlock)
    (hnope : nopeOff < fp8dsNopeDim) (hrope : ropeOff < fp8dsRopeDim) :
    List.Forall₂ (Access.Exact (sizes T K H totalSlots dv))
      (fusedGatherDequantAttend (N := Int32) H t b lane nopeOff ropeOff)
      (fusedGatherDequantAttend (N := ℤ) H t b lane nopeOff ropeOff) := by
  have hdqk : dqk = 576 := rfl
  have hdv : dv = 512 := rfl
  have hnopeDim : fp8dsNopeDim = 512 := rfl
  have hropeDim : fp8dsRopeDim = 64 := rfl
  have hblock : fusedHeadBlock = 16 := rfl
  have hH31 : H * 576 < 2 ^ 31 := by rwa [hdqk] at hH
  have hHdv : H * dv < 2 ^ 31 := lt_of_le_of_lt (Nat.mul_le_mul_left H (by decide)) hH
  have hhead := holds_head (by decide) (by omega) hb hlane
  have hnope' : Holds (lit nopeOff) nopeOff ∧ (lit nopeOff : ℤ) = nopeOff :=
    ⟨holds_lit (by omega), rfl⟩
  have hrope' : Holds (lit fp8dsNopeDim + lit ropeOff) (fp8dsNopeDim + ropeOff : ℕ) ∧
      (lit fp8dsNopeDim : ℤ) + lit ropeOff = (fp8dsNopeDim + ropeOff : ℕ) := by
    refine ⟨?_, by simp⟩
    rw [Nat.cast_add]
    exact (holds_lit (by decide)).add (holds_lit (by omega)) (by omega)
  -- the masks agree, and say that the head is one
  have hmask := decide_lt_eq (hhead.2 ▸ hhead.1).1 (holds_lit (n := H) (by omega)).1
  have hmask_head : decide ((lit b : ℤ) * lit fusedHeadBlock + lit lane < lit H) = true →
      b * fusedHeadBlock + lane < H := lt_of_decide_lit hhead.2
  have hnopeMask := decide_lit_lt hnope'.1.1 (n := fp8dsNopeDim) (by decide)
  have hropeMask := decide_lit_lt (holds_lit (n := ropeOff) (by omega)).1 (n := fp8dsRopeDim)
    (by decide)
  simp only [fusedGatherDequantAttend, fusedGatherDequantAttnKernel]
  refine .cons ?_ (.cons ?_ (.cons ?_ (.cons ?_ (.cons ?_ (.cons ?_ .nil)))))
  · refine exact_head_element _ nopeOff (by rw [hmask, hnopeMask]; rfl) hT hH rfl ht hhead hnope' ?_
    intro h
    exact ⟨hmask_head (Bool.and_eq_true_iff.mp h).1, by omega⟩
  · refine exact_head_element _ (fp8dsNopeDim + ropeOff) (by rw [hmask, hropeMask]; rfl) hT hH rfl
      ht hhead hrope' ?_
    intro h
    exact ⟨hmask_head (Bool.and_eq_true_iff.mp h).1, by omega⟩
  · refine exact_one rfl fun _ => ⟨(holds_lit (by omega)).wide, ?_⟩
    rw [wide_int, lit_int]
    exact_mod_cast ht
  · exact exact_head_state _ hmask hT (by omega) rfl ht hhead hmask_head
  · exact exact_head_state _ hmask hT (by omega) rfl ht hhead hmask_head
  · refine exact_head_element _ nopeOff (by rw [hmask, hnopeMask]; rfl) hT hHdv rfl ht hhead
      hnope' ?_
    intro h
    exact ⟨hmask_head (Bool.and_eq_true_iff.mp h).1, by omega⟩

include hT hslots in
theorem fusedPass_exact (hK : K < 2 ^ 31) {t n candBase nopeOff ropeOff : ℕ} (ht : t < T)
    (hn : n * fusedBlockN < K) (hcand : candBase < fusedBlockN)
    (hnope : nopeOff < fp8dsNopeDim) (hrope : ropeOff < fp8dsRopeDim) (slot validLen : Int32) :
    List.Forall₂ (Access.Exact (sizes T K H totalSlots dv))
      (fusedGatherDequantAttendPass K totalSlots t (n * fusedBlockN) candBase nopeOff ropeOff
        slot validLen)
      (fusedGatherDequantAttendPass K totalSlots t (n * fusedBlockN) candBase nopeOff ropeOff
        slot.toInt validLen.toInt) := by
  have hblock : fusedBlockN = 32 := rfl
  have hnopeDim : fp8dsNopeDim = 512 := rfl
  have hropeDim : fp8dsRopeDim = 64 := rfl
  -- the tile starts at a multiple of 32, so its last lane is below `2^31` as well
  have hcandHolds : Holds (lit (n * fusedBlockN) + lit candBase)
      ((lit (n * fusedBlockN) : ℤ) + lit candBase) := by
    rw [hblock] at hn hcand ⊢
    exact (holds_lit (by omega)).add (holds_lit (by omega)) (by rw [lit_int]; push_cast; omega)
  have hvalid := slotInRange_eq slot (totalSlots_lt hslots)
  have hinRange := decide_lit_lt hcandHolds.1 hK
  have hvalidLen := decide_lt_eq hcandHolds.1 (rfl : validLen.toInt = _)
  have hnopeMask := decide_lit_lt (holds_lit (n := nopeOff) (by omega)).1 (n := fp8dsNopeDim)
    (by decide)
  have hropeMask := decide_lit_lt (holds_lit (n := ropeOff) (by omega)).1 (n := fp8dsRopeDim)
    (by decide)
  simp only [fusedGatherDequantAttendPass, fusedGatherDequantAttnPass]
  refine .cons ?_ (List.rel_append ?_ (.cons ?_ .nil))
  · refine exact_pair (k := n * fusedBlockN + candBase) hinRange hT hK rfl ht fun h => ?_
    have hlt := of_decide_eq_true h
    simp only [lit_int, ← Nat.cast_add, Nat.cast_lt] at hlt hcandHolds
    refine ⟨(holds_mul_lit hcandHolds hlt Nat.one_pos (by omega)).wide, ?_, hlt⟩
    simp
  · refine nopeAccesses_exact hslots (by rw [hvalid, hvalidLen, hnopeMask]; rfl) ?_
      (fun _ => hnope) (by omega)
    intro h
    exact holdsWide_base (Bool.and_eq_true_iff.mp (Bool.and_eq_true_iff.mp h).1).1
  · refine ropeAccess_exact hslots (by rw [hvalid, hvalidLen, hropeMask]; rfl) ?_ ?_
    · intro h
      exact holdsWide_base (Bool.and_eq_true_iff.mp (Bool.and_eq_true_iff.mp h).1).1
    · intro _
      exact ⟨holds_lit (by omega), by rw [lit_int]; exact_mod_cast hrope⟩

include hT in
theorem materialized_exact (hH : H * dqk < 2 ^ 31) {t b lane d : ℕ} (ht : t < T)
    (hb : b < cdiv H (materializedHeadBlock H)) (hlane : lane < materializedHeadBlock H)
    (hd : d < blockD dqk) :
    List.Forall₂ (Access.Exact (sizes T K H totalSlots dqk))
      (materializedIndexedAccumulate (N := Int32) H t b lane d)
      (materializedIndexedAccumulate (N := ℤ) H t b lane d) := by
  have hdqk : dqk = 576 := rfl
  have hd : d < 1024 := lt_of_lt_of_le hd (Nat.min_le_left _ _)
  have hH31 : H * 576 < 2 ^ 31 := by rwa [hdqk] at hH
  have hblock : 0 < materializedHeadBlock H ∧ materializedHeadBlock H ≤ 8 := by
    unfold materializedHeadBlock
    split <;> decide
  have hhead := holds_head hblock.1 (by omega) hb hlane
  have hdim : Holds (lit d) d ∧ (lit d : ℤ) = d := ⟨holds_lit (by omega), rfl⟩
  have hmask := decide_lit_lt (hhead.2 ▸ hhead.1).1 (n := H) (by omega)
  have hmask_head : decide ((lit b : ℤ) * lit (materializedHeadBlock H) + lit lane < lit H) = true →
      b * materializedHeadBlock H + lane < H := lt_of_decide_lit hhead.2
  have hdimMask := decide_lit_lt hdim.1.1 (n := dqk) (by decide)
  have hdim_lt : decide ((lit d : ℤ) < lit dqk) = true → d < dqk := lt_of_decide_lit hdim.2
  simp only [materializedIndexedAccumulate, materializedAttnKernel]
  refine .cons ?_ (.cons ?_ (.cons ?_ (.cons ?_ .nil)))
  · refine exact_head_element _ d (by rw [hmask, hdimMask]; rfl) hT hH rfl ht hhead hdim ?_
    intro h
    exact (Bool.and_eq_true_iff.mp h).imp hmask_head hdim_lt
  · exact exact_head_state _ hmask hT (by omega) rfl ht hhead hmask_head
  · exact exact_head_state _ hmask hT (by omega) rfl ht hhead hmask_head
  · refine exact_head_element _ d (by rw [hmask, hdimMask]; rfl) hT hH rfl ht hhead hdim ?_
    intro h
    exact (Bool.and_eq_true_iff.mp h).imp hmask_head hdim_lt

include hT in
theorem materializedPass_exact (hK : K * dqk < 2 ^ 31) {t c d : ℕ} (ht : t < T) (hc : c < K)
    (hd : d < blockD dqk) (isValid : Bool) :
    List.Forall₂ (Access.Exact (sizes T K H totalSlots dqk))
      (materializedIndexedAccumulatePass (N := Int32) K t c d isValid)
      (materializedIndexedAccumulatePass (N := ℤ) K t c d isValid) := by
  have hd : d < 1024 := lt_of_lt_of_le hd (Nat.min_le_left _ _)
  have hK31 : K * 576 < 2 ^ 31 := by rwa [show dqk = 576 from rfl] at hK
  have hcand : Holds (lit c) c ∧ (lit c : ℤ) = c := ⟨holds_lit (by omega), rfl⟩
  have hdim : Holds (lit d) d ∧ (lit d : ℤ) = d := ⟨holds_lit (by omega), rfl⟩
  have hdimMask := decide_lit_lt hdim.1.1 (n := dqk) (by decide)
  simp only [materializedIndexedAccumulatePass, materializedAttnPass]
  refine .cons ?_ (.cons ?_ .nil)
  · exact exact_head_state c rfl hT (by omega) rfl ht hcand fun _ => hc
  · refine exact_head_element c d (by rw [hdimMask]; rfl) hT hK rfl ht hcand hdim fun h => ⟨hc, ?_⟩
    exact lt_of_decide_lit hdim.2 (Bool.and_eq_true_iff.mp h).2

end Launches

/-! ### The finish kernel -/

section Finish
variable {T K H totalSlots : ℕ}

theorem finishBlockD_eq : finishBlockD = 128 := by decide +kernel

theorem finish_lane_zero : 0 < cdiv dv finishBlockD ∧ 0 < finishBlockD := by
  rw [finishBlockD_eq]
  decide

/-- The token and the head of a program. -/
theorem holds_token_head {p : ℕ} (hp : p < 2 ^ 31) (hH : H < 2 ^ 31) :
    (Holds (lit p / lit H) (p / H : ℕ) ∧ (lit p : ℤ) / lit H = (p / H : ℕ)) ∧
      Holds (lit p - lit p / lit H * lit H) (p % H : ℕ) ∧
      (lit p : ℤ) - ((p / H : ℕ) : ℤ) * lit H = (p % H : ℕ) := by
  have hdecomp := Nat.div_add_mod' p H
  have htoken : Holds (lit p / lit H) (p / H : ℕ) := by
    rw [Int.natCast_div]
    exact (holds_lit hp).div (holds_lit hH)
  have hrow : Holds (lit p / lit H * lit H) (p / H * H : ℕ) := by
    rw [Int.natCast_mul]
    exact htoken.mul (holds_lit hH) (by exact_mod_cast (by omega : p / H * H < 2 ^ 31))
  have hrem : ((p : ℤ) - (p / H * H : ℕ)) = (p % H : ℕ) := by omega
  refine ⟨⟨htoken, (Int.natCast_div p H).symm⟩, ?_, ?_⟩
  · rw [← hrem]
    exact (holds_lit hp).sub hrow (by omega)
  · rw [lit_int, lit_int, ← Int.natCast_mul]
    exact hrem

/-- The narrow offset of a state. -/
theorem holds_state {token head : Int32} {t h : ℕ} (ht : Holds token t) (hh : Holds head h)
    (hH : H < 2 ^ 31) (hlt : t * H + h < 2 ^ 31) :
    Holds (token * lit H + head * lit 1) ((t : ℤ) * H + (h : ℤ) * (1 : ℕ)) := by
  have hrow : Holds (token * lit H) ((t : ℤ) * H) :=
    ht.mul (holds_lit hH) (by exact_mod_cast (by omega : t * H < 2 ^ 31))
  have hone : Holds (head * lit 1) ((h : ℤ) * (1 : ℕ)) :=
    hh.mul (holds_lit (by decide)) (by push_cast; omega)
  exact hrow.add hone (by rw [Nat.cast_one, mul_one]; exact_mod_cast hlt)

/-- The rows of all tokens but the last start below `2^31`; so do the programs and the
states, and the tensor is small. -/
theorem finish_bounds (hH : H * dv < 2 ^ 31) (hT : (T - 1) * (H * dv) < 2 ^ 31) :
    T * H < 2 ^ 31 ∧ T * (H * dv) < 2 ^ 63 := by
  cases T with
  | zero => simp
  | succ n =>
    rw [Nat.add_sub_cancel] at hT
    have hlast : (n + 1) * (H * dv) = n * (H * dv) + H * dv := Nat.succ_mul n (H * dv)
    have hprograms : (n + 1) * (H * dv) = (n + 1) * H * 512 := (Nat.mul_assoc _ _ _).symm
    constructor
    · omega
    · omega

/-- **While the rows start below `2^31` the finish kernel is exact.** -/
theorem finish_exact (hH : H * dv < 2 ^ 31) (hT : (T - 1) * (H * dv) < 2 ^ 31) {p b lane : ℕ}
    (hp : p < T * H) (hb : b < cdiv dv finishBlockD) (hlane : lane < finishBlockD) :
    List.Forall₂ (Access.Exact (sizes T K H totalSlots dv))
      (finishSparseMlaAttentionWithSink (N := Int32) H p b lane)
      (finishSparseMlaAttentionWithSink (N := ℤ) H p b lane) := by
  obtain ⟨hprograms, hsize⟩ := finish_bounds hH hT
  have hHpos : 0 < H := Nat.pos_of_ne_zero fun h => by simp [h] at hp
  have hH31 : H < 2 ^ 31 := lt_of_le_of_lt (Nat.le_mul_of_pos_right H (by decide)) hH
  have ht : p / H < T := Nat.div_lt_of_lt_mul (by rwa [Nat.mul_comm])
  have hh : p % H < H := Nat.mod_lt p hHpos
  obtain ⟨⟨htoken, htokenInt⟩, hhead, hheadInt⟩ := holds_token_head (by omega : p < 2 ^ 31) hH31
  rw [finishBlockD_eq] at hb hlane
  have hb : b < 4 := hb
  have hd : b * 128 + lane < dv := by
    have hdv : dv = 512 := rfl
    omega
  have hoffset : Holds (lit b * lit finishBlockD + lit lane) (b * 128 + lane : ℕ) ∧
      (lit b : ℤ) * lit finishBlockD + lit lane = (b * 128 + lane : ℕ) := by
    rw [finishBlockD_eq]
    refine ⟨?_, by simp⟩
    rw [Nat.cast_add, Nat.cast_mul]
    exact ((holds_lit (by omega)).mul (holds_lit (by omega)) (by omega)).add (holds_lit (by omega))
      (by omega)
  have hmask := decide_lit_lt hoffset.1.1 (n := dv) (by decide)
  have hstate := holds_state htoken hhead hH31 ((row_lt ht hh).trans hprograms)
  have hstate_lt := row_lt ht hh
  -- the terms of an element
  have htokenTerm : Holds (lit p / lit H * lit (H * dv)) (((p / H : ℕ) : ℤ) * (H * dv : ℕ)) := by
    apply htoken.mul (holds_lit hH)
    exact_mod_cast lt_of_le_of_lt (Nat.mul_le_mul_right _ (Nat.le_sub_one_of_lt ht)) hT
  have hheadTerm := holds_mul_lit hhead hh (by decide : 0 < dv) hH
  have hdimTerm := holds_mul_lit hoffset.1 hd Nat.one_pos (by decide)
  have hend := element_lt ht hh hd
  simp only [finishSparseMlaAttentionWithSink, finishAttentionStateWithSinkKernel, htokenInt,
    hheadInt, hoffset.2]
  have hscore : ((p / H : ℕ) : ℤ) * H + ((p % H : ℕ) : ℤ) * (1 : ℕ) + 1 ≤ (T * H : ℕ) := by
    rw [Nat.cast_one, mul_one]
    exact_mod_cast hstate_lt
  have helement : ((p / H : ℕ) : ℤ) * (H * dv : ℕ) + ((p % H : ℕ) : ℤ) * dv +
      ((b * 128 + lane : ℕ) : ℤ) * (1 : ℕ) + 1 ≤ (T * (H * dv) : ℕ) := by
    rw [Nat.cast_one, mul_one]
    exact_mod_cast hend
  refine .cons ?_ (.cons ?_ (.cons ?_ (.cons ?_ (.cons ?_ .nil))))
  · exact exact_one rfl fun _ => ⟨hstate.wide, hscore⟩
  · exact exact_one rfl fun _ => ⟨hstate.wide, hscore⟩
  · exact exact_one rfl fun _ => ⟨hhead.wide, by rw [wide_int]; exact_mod_cast hh⟩
  · exact exact_three hsize hmask fun _ =>
      ⟨htokenTerm.wide, hheadTerm.wide, hdimTerm.wide, helement⟩
  · exact exact_three hsize hmask fun _ =>
      ⟨htokenTerm.wide, hheadTerm.wide, hdimTerm.wide, helement⟩

/-- A narrow product between `2^31` and `2^32` is negative. -/
theorem toInt_mul_wrapped {x y : Int32} {a b : ℕ} (hx : Holds x a) (hy : Holds y b)
    (hle : 2 ^ 31 ≤ a * b) (hlt : a * b < 2 ^ 32) : (x * y).toInt = ((a * b : ℕ) : ℤ) - 2 ^ 32 := by
  rw [Int32.toInt_mul, hx.1, hy.1, ← Int.natCast_mul, Int.bmod_def]
  have hmod : ((a * b : ℕ) : ℤ) % ((2 ^ 32 : ℕ) : ℤ) = (a * b : ℕ) :=
    Int.emod_eq_of_lt (by omega) (by exact_mod_cast hlt)
  rw [hmod, if_neg (by omega)]
  rfl

/-- The first token whose row starts at `2^31` or beyond. -/
theorem exists_first_row {s : ℕ} (hs : s < 2 ^ 31) (hT : 2 ^ 31 ≤ (T - 1) * s) :
    ∃ t < T, 2 ^ 31 ≤ t * s ∧ t * s < 2 ^ 32 := by
  have hspos : 0 < s := Nat.pos_of_ne_zero fun h => by simp [h] at hT
  have hTpos : 0 < T := Nat.pos_of_ne_zero fun h => by simp [h] at hT
  have hsucc : (T - 1) * s + s = T * s := by rw [← Nat.succ_mul, Nat.succ_eq_add_one,
    Nat.sub_add_cancel hTpos]
  refine ⟨cdiv (2 ^ 31) s, ?_, le_cdiv_mul hspos, ?_⟩
  · rw [cdiv, Nat.div_lt_iff_lt_mul hspos]
    omega
  · have hle := Nat.div_mul_le_self (2 ^ 31 + s - 1) s
    unfold cdiv
    omega

/-- **From the first such token on, the finish kernel is not exact**: its rows of the
accumulator and the output are at a negative offset. -/
theorem finish_wraps (hH : H * dv < 2 ^ 31) (hT : 2 ^ 31 ≤ (T - 1) * (H * dv)) :
    ∃ p < T * H, ¬ List.Forall₂ (Access.Exact (sizes T K H totalSlots dv))
      (finishSparseMlaAttentionWithSink (N := Int32) H p 0 0)
      (finishSparseMlaAttentionWithSink (N := ℤ) H p 0 0) := by
  obtain ⟨t, ht, hle, hlt⟩ := exists_first_row hH hT
  have hHpos : 0 < H := Nat.pos_of_ne_zero fun h => by simp [h] at hle
  have hH31 : H < 2 ^ 31 := lt_of_le_of_lt (Nat.le_mul_of_pos_right H (by decide)) hH
  have hprograms : t * (H * dv) = t * H * 512 := (Nat.mul_assoc _ _ _).symm
  refine ⟨t * H, Nat.mul_lt_mul_of_pos_right ht hHpos, fun hexact => ?_⟩
  obtain ⟨⟨htoken, -⟩, hhead, -⟩ := holds_token_head (by omega : t * H < 2 ^ 31) hH31
  rw [Nat.mul_div_cancel _ hHpos] at htoken
  rw [Nat.mul_mod_left] at hhead
  simp only [finishSparseMlaAttentionWithSink, finishAttentionStateWithSinkKernel,
    List.forall₂_cons] at hexact
  obtain ⟨-, -, -, hacc, -⟩ := hexact
  have hoffset := (hacc.2 (by simp [dv])).1
  -- head and dimension are zero, so the offset is that of the token
  have hheadTerm : wide ((lit (t * H) - lit (t * H) / lit H * lit H) * lit dv : Int32) = 0 := by
    have hzero := hhead.mul (holds_lit (n := dv) (by decide)) (by norm_num)
    rw [← Int64.toInt_inj, toInt_wide, hzero.1]
    simp
  have hdimTerm : wide ((lit 0 * lit finishBlockD + lit 0) * lit 1 : Int32) = 0 := by
    rw [finishBlockD_eq]
    rfl
  have hnonneg := hoffset.2
  rw [← hoffset.1, hheadTerm, hdimTerm, Int64.add_zero, Int64.add_zero, toInt_wide,
    toInt_mul_wrapped htoken (holds_lit hH) hle hlt] at hnonneg
  omega

end Finish

/-! ### All four kernels -/

/-- **The offsets of the four kernels are exact exactly when the finish kernel's rows
start below `2^31`**; the other three promote the token. -/
theorem offsets_exact_iff {T K H totalSlots : ℕ} (hT : T < 2 ^ 31) (hK : K < 2 ^ 31)
    (hslots : totalSlots * fp8dsEntryBytes < 2 ^ 63) :
    OffsetsExact T K H totalSlots ↔ (H * dv < 2 ^ 31 → (T - 1) * (H * dv) < 2 ^ 31) := by
  constructor
  · intro hexact hH
    by_contra hbig
    obtain ⟨p, hp, hwrap⟩ := @finish_wraps T K H totalSlots hH (not_lt.mp hbig)
    exact hwrap (hexact.finish hH p hp 0 finish_lane_zero.1 0 finish_lane_zero.2)
  · intro hrows
    constructor
    · intro hrow t ht k hk d hd slot
      exact gather_exact hT hslots hrow ht hk hd slot
    · intro hrow t ht b hb lane hlane nopeOff hnope ropeOff hrope
      exact fused_exact hT hrow ht hb hlane hnope hrope
    · intro t ht n hn candBase hcand nopeOff hnope ropeOff hrope slot validLen
      exact fusedPass_exact hT hslots hK ht hn hcand hnope hrope slot validLen
    · intro hrow t ht b hb lane hlane d hd
      exact materialized_exact hT hrow ht hb hlane hd
    · intro hrow t ht c hc d hd isValid
      exact materializedPass_exact hT hrow ht hc hd isValid
    · intro hrow p hp b hb lane hlane
      exact finish_exact hrow (hrows hrow) hp hb hlane

/-- At 2048 tokens and 64 heads every offset is exact. -/
theorem offsets_exact_iff_prefill : OffsetsExact 2048 2048 64 4096 :=
  (offsets_exact_iff (by decide) (by decide) (by decide)).mpr (fun _ => by decide)

/-- With 64 heads the row of token 65536 starts at `2^31`. -/
theorem offsets_wrap_at_65536 : ¬ OffsetsExact 65537 2048 64 4096 := by
  intro hexact
  obtain ⟨p, hp, hwrap⟩ := @finish_wraps 65537 2048 64 4096
    (by decide) (by decide)
  exact hwrap (hexact.finish (by decide) p hp 0 finish_lane_zero.1 0 finish_lane_zero.2)

end Glm52.PointerOffsets
