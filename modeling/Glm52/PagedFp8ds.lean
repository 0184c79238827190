import Glm52.Fp8Cache
import Glm52.SplitAttention

/-! # The paged `fp8_ds_mla` cache

A second layout of quantised rows, for rows of width 512 in pages.  A page begins with
the data of its tokens, 576 bytes each: 448 e4m3 values and 64 bfloat16 values.  Behind the
data of the whole page come the scales, eight bytes a token, of which seven are used: an
exponent byte for every 64 of the e4m3 values.

The bytes of a token are not contiguous, but they are its own: two tokens share no byte as
soon as a page has room for the 584 bytes of each of its tokens (`disjoint_rowBytes`), and
a decoded row depends on no other byte (`pagedRow_congr`). -/
namespace Glm52
open ExactFloat

def tokenFp8Dim : ℕ := 448
def tokenBf16Dim : ℕ := 64
def tokenScaleDim : ℕ := 8
def quantBlockSize : ℕ := 64
def tokenDataSize : ℕ := tokenFp8Dim + tokenBf16Dim * 2

/-- A cache tensor: tokens a page, bytes from one page to the next, and the bytes by their
address relative to the start of the tensor. -/
structure PagedCache where
  cacheBlockSize : ℕ
  blockStride : ℕ
  byte : ℤ → BitVec 8

namespace PagedCache
variable (cache : PagedCache)

/-- `token_data_ptr`. -/
def tokenDataPtr (block posInBlock : ℤ) : ℤ :=
  block * cache.blockStride + posInBlock * tokenDataSize

/-- `token_scale_ptr`. -/
def tokenScalePtr (block posInBlock : ℤ) : ℤ :=
  block * cache.blockStride + (cache.cacheBlockSize * tokenDataSize : ℕ) +
    posInBlock * tokenScaleDim

/-- `exp2(encoded_scale - 127)`. -/
def dequantScale (encodedScale : BitVec 8) : ExactFloat ℚ :=
  fin (2 ^ ((encodedScale.toNat : ℤ) - 127))

/-- The lanes `kv` that the kernels compute for a token: dequantised below `fp8_dim`, then
the bfloat16 values, zero beyond the head dimension. -/
noncomputable def row (block posInBlock : ℤ) (d : ℕ) : Scalar :=
  let tokenDataPtr := cache.tokenDataPtr block posInBlock
  let tokenScalePtr := cache.tokenScalePtr block posInBlock
  let fp8Mask := decide (d < tokenFp8Dim)
  let dimMask := decide (d < headDim512)
  let ropeMask := decide (tokenFp8Dim ≤ d) && dimMask
  let ropeOffset := max (d - tokenFp8Dim) 0
  let xFloat := float8e4nv (if fp8Mask then cache.byte (tokenDataPtr + d) else 0)
  let encodedScale :=
    if fp8Mask then cache.byte (tokenScalePtr + (d / quantBlockSize : ℕ)) else 127
  let xDequant := toScalar xFloat * toScalar (dequantScale encodedScale)
  let ropePtr := tokenDataPtr + tokenFp8Dim
  let rope := if ropeMask then
      toScalar (bfloat16 (cache.byte (ropePtr + (2 * ropeOffset + 1 : ℕ)) ++
        cache.byte (ropePtr + (2 * ropeOffset : ℕ))))
    else 0
  let kv := if fp8Mask then xDequant else rope
  if dimMask then kv else 0

/-- The bytes of a token: its data and its scales. -/
def rowBytes (block posInBlock : ℤ) : Set ℤ :=
  {a | cache.tokenDataPtr block posInBlock ≤ a ∧
      a < cache.tokenDataPtr block posInBlock + tokenDataSize} ∪
    {a | cache.tokenScalePtr block posInBlock ≤ a ∧
      a < cache.tokenScalePtr block posInBlock + tokenScaleDim}

/-- A page has room for the data and the scales of its tokens. -/
def Fits : Prop := cache.cacheBlockSize * (tokenDataSize + tokenScaleDim) ≤ cache.blockStride

variable {cache}

theorem mem_rowBytes_data {block posInBlock : ℤ} {o : ℕ} (ho : o < tokenDataSize) :
    cache.tokenDataPtr block posInBlock + o ∈ cache.rowBytes block posInBlock :=
  Or.inl ⟨by omega, by omega⟩

theorem mem_rowBytes_scale {block posInBlock : ℤ} {o : ℕ} (ho : o < tokenScaleDim) :
    cache.tokenScalePtr block posInBlock + o ∈ cache.rowBytes block posInBlock :=
  Or.inr ⟨by omega, by omega⟩

/-- **A row depends on its own bytes only.** -/
theorem row_congr {cache' : PagedCache} (hsize : cache'.cacheBlockSize = cache.cacheBlockSize)
    (hstride : cache'.blockStride = cache.blockStride) {block posInBlock : ℤ}
    (hagree : ∀ a ∈ cache.rowBytes block posInBlock, cache'.byte a = cache.byte a) :
    cache'.row block posInBlock = cache.row block posInBlock := by
  funext d
  have hdata : cache'.tokenDataPtr block posInBlock = cache.tokenDataPtr block posInBlock := by
    rw [tokenDataPtr, tokenDataPtr, hstride]
  have hscale : cache'.tokenScalePtr block posInBlock = cache.tokenScalePtr block posInBlock := by
    rw [tokenScalePtr, tokenScalePtr, hstride, hsize]
  unfold row
  rw [hdata, hscale]
  by_cases hfp8 : d < tokenFp8Dim
  · have hvalue := hagree _ (mem_rowBytes_data (o := d) (by unfold tokenDataSize; omega))
    have hexponent := hagree _ (mem_rowBytes_scale (o := d / quantBlockSize) (by
      unfold tokenFp8Dim at hfp8
      unfold quantBlockSize tokenScaleDim
      omega))
    simp only [hfp8, decide_true, if_true, hvalue, hexponent]
  · by_cases hdim : d < headDim512
    · have hbound : 2 * (d - tokenFp8Dim) + 1 < tokenBf16Dim * 2 := by
        unfold headDim512 at hdim
        unfold tokenFp8Dim at hfp8 ⊢
        unfold tokenBf16Dim
        omega
      have hbyte : ∀ o < tokenBf16Dim * 2,
          cache'.byte (cache.tokenDataPtr block posInBlock + tokenFp8Dim + (o : ℕ)) =
            cache.byte (cache.tokenDataPtr block posInBlock + tokenFp8Dim + (o : ℕ)) := by
        intro o ho
        have hmem := @mem_rowBytes_data cache block posInBlock (tokenFp8Dim + o)
          (by unfold tokenDataSize; omega)
        rw [Nat.cast_add, ← add_assoc] at hmem
        exact hagree _ hmem
      simp only [hfp8, decide_false, Bool.false_eq_true, if_false, Nat.max_zero,
        hbyte _ hbound, hbyte _ (Nat.lt_of_succ_lt hbound)]
    · simp only [hdim, decide_false, Bool.false_eq_true, if_false]

/-- **The bytes of a token lie in its page.** -/
theorem rowBytes_subset {block posInBlock : ℤ} (hpos : 0 ≤ posInBlock)
    (hlt : posInBlock < cache.cacheBlockSize) {a : ℤ} (ha : a ∈ cache.rowBytes block posInBlock) :
    block * cache.blockStride ≤ a ∧ a < block * cache.blockStride +
      (cache.cacheBlockSize * (tokenDataSize + tokenScaleDim) : ℕ) := by
  rcases ha with ⟨hle, hbound⟩ | ⟨hle, hbound⟩
  · unfold tokenDataPtr tokenDataSize tokenFp8Dim tokenBf16Dim at hle hbound
    unfold tokenDataSize tokenScaleDim tokenFp8Dim tokenBf16Dim
    push_cast at hle hbound ⊢
    omega
  · unfold tokenScalePtr tokenDataSize tokenScaleDim tokenFp8Dim tokenBf16Dim at hle hbound
    unfold tokenDataSize tokenScaleDim tokenFp8Dim tokenBf16Dim
    push_cast at hle hbound ⊢
    omega

/-- Pages follow one another. -/
theorem page_le (stride : ℕ) {block block' : ℤ} (hlt : block < block') :
    block * stride + stride ≤ block' * stride := by
  have hstep : (block + 1) * stride ≤ block' * stride :=
    mul_le_mul_of_nonneg_right hlt (Int.natCast_nonneg stride)
  rwa [add_mul, one_mul] at hstep

/-- **Two tokens share no byte.** -/
theorem disjoint_rowBytes (hfits : cache.Fits) {block posInBlock block' posInBlock' : ℤ}
    (hpos : 0 ≤ posInBlock) (hlt : posInBlock < cache.cacheBlockSize) (hpos' : 0 ≤ posInBlock')
    (hlt' : posInBlock' < cache.cacheBlockSize)
    (hne : (block, posInBlock) ≠ (block', posInBlock')) {a : ℤ}
    (ha : a ∈ cache.rowBytes block posInBlock) : a ∉ cache.rowBytes block' posInBlock' := by
  intro ha'
  have hroom : ((cache.cacheBlockSize * (tokenDataSize + tokenScaleDim) : ℕ) : ℤ) ≤
      cache.blockStride := by exact_mod_cast hfits
  by_cases hblock : block = block'
  · -- in one page the data areas and the scale areas are laid out by position
    subst hblock
    have hposne : posInBlock ≠ posInBlock' := fun h => hne (by rw [h])
    simp only [rowBytes, tokenDataPtr, tokenScalePtr, tokenDataSize, tokenScaleDim, tokenFp8Dim,
      tokenBf16Dim, Set.mem_union, Set.mem_ofPred_eq] at ha ha'
    push_cast at ha ha'
    omega
  · obtain ⟨hle, hbound⟩ := rowBytes_subset hpos hlt ha
    obtain ⟨hle', hbound'⟩ := rowBytes_subset hpos' hlt' ha'
    rcases lt_or_gt_of_ne hblock with hbefore | hafter
    · have hpage := page_le cache.blockStride hbefore
      omega
    · have hpage := page_le cache.blockStride hafter
      omega

end PagedCache

end Glm52
