import Glm52.FusedAttention
import Glm52.TensorShape

/-! # The sparse MLA backend under context parallelism

`forward_mqa` with DCP enabled and the `fp8_ds_mla` cache: every call returns the
output and the log-sum-exp.  A mixed batch goes through the FP8 kernel as one batch of
tokens; a separate batch runs its decode tokens through the FP8 kernel and its prefill
chunks through the BF16 kernel over an upconverted workspace.

The kernels pad the heads: the FP8 kernel to `fp8_decode_padded_heads`, the BF16
kernel to `prefill_padding`.  Shapes are part of the model, and a reshape, a slice
assignment or an assertion that fails makes the run fail.

Outside the repository, and a parameter here: the index conversion, the two
spec-decode reshapes, the workspace gather, and the contents of fresh tensors
(`ExternalOps`).  The optional b12x helper returns `None`. -/
namespace Glm52
open ExactFloat Softmax OnlineSoftmax TensorShape

/-! ### Configuration and metadata -/

/-- What the forward pass reads of `FlashMLASparseImpl`. -/
structure FlashMLASparseImpl where
  numHeads : ℕ
  softmaxScale : ℝ
  /-- `is_device_capability_family(100)` -/
  capabilityFamily100 : Bool
  /-- `prefill_bf16_workspace.shape[0]` -/
  prefillWorkspaceRows : ℕ
  /-- `VLLM_SPARSE_MLA_FUSED` -/
  fusedEnabled : Bool

namespace FlashMLASparseImpl
variable (impl : FlashMLASparseImpl)

/-- `_compute_fp8_decode_padded_heads(num_heads)`. -/
def fp8DecodePaddedHeads : ℕ := if impl.numHeads ≤ 64 then 64 else 128

/-- `prefill_padding`. -/
def prefillPadding : ℕ := if impl.capabilityFamily100 then 128 else 64

end FlashMLASparseImpl

/-- `FP8SeparatePrefillDecode.Prefill.Chunk`. -/
structure PrefillChunk where
  reqStartIdx : ℕ
  tokenStart : ℕ
  tokenEnd : ℕ
  chunkTotSeqlen : ℕ

/-- `FP8SeparatePrefillDecode`; `decode` says whether the decode metadata is there. -/
structure FP8SeparatePrefillDecode where
  numDecodes : ℕ
  numPrefills : ℕ
  numDecodeTokens : ℕ
  numPrefillTokens : ℕ
  decode : Bool
  prefill : Option (List PrefillChunk)

/-- `fp8_extra_metadata`, of the kind that `fp8_use_mixed_batch` says. -/
inductive Fp8ExtraMetadata
  | mixed
  | separate (fp8 : FP8SeparatePrefillDecode)

/-- What the forward pass reads of `FlashMLASparseMetadata`. -/
structure FlashMLASparseMetadata where
  numActualTokens : ℕ
  fp8ExtraMetadata : Fp8ExtraMetadata

/-- What the backend uses from outside the repository. -/
structure ExternalOps where
  /-- `triton_convert_req_index_to_global_index`, row by row -/
  convertIndices : (ℕ → List ℤ) → ℕ → List ℤ
  /-- the same with the prefill workspace mapping -/
  convertIndicesWorkspace : (ℕ → List ℤ) → ℕ → List ℤ
  /-- its valid counts -/
  validCounts : (ℕ → List ℤ) → ℕ → ℤ
  reshapeQueryForSpecDecode : Tensor3 Scalar → ℕ → Option (Tensor4 Scalar)
  reshapeAttnOutputForSpecDecode : Tensor4 Scalar → Tensor3 Scalar
  /-- the workspace rows that `cp_gather_and_upconvert_fp8_kv_cache` fills for a chunk -/
  gatherAndUpconvert : PrefillChunk → ℕ → ℕ → Scalar
  /-- the contents of `new_empty` -/
  uninit : ℕ → ℕ → ℕ → Scalar

/-! ### The kernels, with shapes -/

/-- `flash_mla_with_kvcache`: out `(b, s_q, h_q, 512)`, lse `(b, h_q, s_q)`. -/
noncomputable def flashMlaWithKvcache (fusedEnabled : Bool) (cache : Fp8Cache) (scale : ℝ)
    (q : Tensor4 Scalar) (indices : ℕ → ℕ → List ℤ) : Option (Tensor4 Scalar × Tensor3 Scalar) :=
  if q.d3 = dqk then
    let r := flashMlaWithKvcacheTriton fusedEnabled q.d2 cache scale
      (fun t h d => q.get (t / q.d1) (t % q.d1) h d) (fun t => indices (t / q.d1) (t % q.d1))
      none none
    let out : Tensor4 Scalar := ⟨q.d0, q.d1, q.d2, dv, fun b i h d => r.out (b * q.d1 + i) h d⟩
    let lse : Tensor3 Scalar := ⟨q.d0, q.d1, q.d2, fun b i h => r.lse (b * q.d1 + i) h⟩
    some (out, lse.transpose12)
  else none

/-- `_fp8_flash_mla_kernel`: the query is padded with zero heads, and the output cut
back to the actual heads. -/
noncomputable def fp8FlashMlaKernel (impl : FlashMLASparseImpl) (cache : Fp8Cache)
    (q : Tensor4 Scalar) (topkIndices : ℕ → ℕ → List ℤ) :
    Option (Tensor4 Scalar × Tensor3 Scalar) := do
  let actualNumHeads := q.d2
  let paddedNumHeads := impl.fp8DecodePaddedHeads
  let q := if actualNumHeads < paddedNumHeads then q.padHeads paddedNumHeads 0 else q
  let (out, lse) ← flashMlaWithKvcache impl.fusedEnabled cache impl.softmaxScale q topkIndices
  let out := if actualNumHeads < paddedNumHeads then out.heads actualNumHeads else out
  some (out, lse)

/-- `q_padded` of `_bf16_flash_mla_kernel`, where `num_heads` needs padding. -/
noncomputable def padPrefillQuery (impl : FlashMLASparseImpl) (ops : ExternalOps)
    (q : Tensor3 Scalar) : Option (Tensor3 Scalar) :=
  if impl.numHeads % impl.prefillPadding ≠ 0 then
    if impl.prefillPadding % impl.numHeads = 0 then
      let qPadded : Tensor3 Scalar := ⟨q.d0, impl.prefillPadding, q.d2, ops.uninit⟩
      qPadded.assignHeads impl.numHeads q
    else none
  else some q

/-- `flash_mla_sparse_fwd`: out `(s_q, h_q, 512)`, lse `(s_q, h_q)`.  The kernel that an
autotuner runs is the one for fewer than eight heads; a query comes here with 64 heads or more,
and the widths count as tuned. -/
noncomputable def flashMlaSparseFwd (q : Tensor3 Scalar) (sKv : ℕ) (kv : ℕ → ℕ → Scalar)
    (indices : ℕ → List ℤ) (smScale : ℝ) (topkLength : ℕ → ℤ) :
    Option (Tensor3 Scalar × Tensor2 Scalar) :=
  if q.d2 = dqk then
    let r := flashMlaSparseFwdTriton Autotune.Tuner.warm q.d1 sKv q.get kv indices smScale none
      (some topkLength)
    some (⟨q.d0, q.d1, dv, r.out⟩, ⟨q.d0, q.d1, r.lse⟩)
  else none

/-- `_bf16_flash_mla_kernel`, with `return_lse=True`. -/
noncomputable def bf16FlashMlaKernel (impl : FlashMLASparseImpl) (ops : ExternalOps)
    (q : Tensor3 Scalar) (sKv : ℕ) (kv : ℕ → ℕ → Scalar) (topkIndices : ℕ → List ℤ)
    (topkLength : ℕ → ℤ) : Option (Tensor3 Scalar × Tensor2 Scalar) := do
  let q ← padPrefillQuery impl ops q
  let (out, lse) ← flashMlaSparseFwd q sKv kv topkIndices impl.softmaxScale topkLength
  some (out.heads impl.numHeads, lse.heads impl.numHeads)

/-! ### The forward paths -/

section Forward
variable (impl : FlashMLASparseImpl) (ops : ExternalOps) (cache : Fp8Cache)

/-- `_forward_fp8_kv_mixed_batch`, with `return_lse=True`. -/
noncomputable def forwardFp8KvMixedBatch (q : Tensor3 Scalar) (topkIndices : ℕ → List ℤ) :
    Option (Tensor3 Scalar × Tensor2 Scalar) := do
  let topkIndices := ops.convertIndices topkIndices
  let (attnOut, lse) ← fp8FlashMlaKernel impl cache q.unsqueeze0 (fun _ t => topkIndices t)
  some (attnOut.squeeze0, lse.squeeze0.transpose01)

/-- `_fp8_decode(q, topk_indices, want_lse=True)`. -/
noncomputable def fp8Decode (fp8 : FP8SeparatePrefillDecode) (q : Tensor3 Scalar)
    (topkIndices : ℕ → List ℤ) : Option (Tensor3 Scalar × Tensor2 Scalar) := do
  let numTokens := q.d0
  let q ← ops.reshapeQueryForSpecDecode q fp8.numDecodes
  let seqLen := q.d1
  -- `topk_indices.view(num_decodes, seq_len, -1)`, and the metadata assertion
  if fp8.numDecodes * seqLen = numTokens ∧ fp8.decode = true then
    let (attnOut, lse) ← fp8FlashMlaKernel impl cache q (fun b i => topkIndices (b * seqLen + i))
    let out := ops.reshapeAttnOutputForSpecDecode attnOut
    let lse ← lse.transpose12.reshape2 out.d0 out.d1
    some (out, lse)
  else none

/-- The rows of the workspace a chunk attends over. -/
def chunkRows (chunk : PrefillChunk) : ℕ := min chunk.chunkTotSeqlen impl.prefillWorkspaceRows

/-- One pass of the loop over the prefill chunks. -/
noncomputable def prefillChunkStep (q : Tensor3 Scalar) (topkIndices : ℕ → List ℤ)
    (topkLength : ℕ → ℤ) (outs : Tensor3 Scalar × Tensor2 Scalar) (chunk : PrefillChunk) :
    Option (Tensor3 Scalar × Tensor2 Scalar) := do
  let (chunkOut, chunkLse) ← bf16FlashMlaKernel impl ops (q.rows chunk.tokenStart chunk.tokenEnd)
    (chunkRows impl chunk) (ops.gatherAndUpconvert chunk)
    (fun t => topkIndices (chunk.tokenStart + t)) (fun t => topkLength (chunk.tokenStart + t))
  let attnOut ← outs.1.assignRows chunk.tokenStart chunk.tokenEnd chunkOut
  let lseFull ← outs.2.assignRows chunk.tokenStart chunk.tokenEnd chunkLse
  some (attnOut, lseFull)

/-- The decode tokens' part of a batch that also has prefill tokens. -/
noncomputable def decodeStep (fp8 : FP8SeparatePrefillDecode) (q : Tensor3 Scalar)
    (indices : ℕ → List ℤ) (outs : Tensor3 Scalar × Tensor2 Scalar) :
    Option (Tensor3 Scalar × Tensor2 Scalar) :=
  if 0 < fp8.numDecodeTokens then do
    let (decOut, decLse) ← fp8Decode impl ops cache fp8 (q.rows 0 fp8.numDecodeTokens) indices
    let attnOut ← outs.1.assignRows 0 fp8.numDecodeTokens decOut
    let lseFull ← outs.2.assignRows 0 fp8.numDecodeTokens decLse
    some (attnOut, lseFull)
  else some outs

/-- The buffers `attn_out` and `lse_full`, as allocated. -/
def emptyBuffers (numActualTokens : ℕ) : Tensor3 Scalar × Tensor2 Scalar :=
  (⟨numActualTokens, impl.numHeads, dv, ops.uninit⟩,
    ⟨numActualTokens, impl.numHeads, ops.uninit 0⟩)

/-- `_forward_fp8_kv_separate_prefill_decode`, with `return_lse=True`. -/
noncomputable def forwardFp8KvSeparatePrefillDecode (fp8 : FP8SeparatePrefillDecode)
    (numActualTokens : ℕ) (q : Tensor3 Scalar) (topkIndices : ℕ → List ℤ) :
    Option (Tensor3 Scalar × Tensor2 Scalar) :=
  let indices := ops.convertIndicesWorkspace topkIndices
  let topkLength := ops.validCounts topkIndices
  if 0 < fp8.numDecodeTokens ∧ fp8.numPrefillTokens = 0 then
    fp8Decode impl ops cache fp8 q indices
  else do
    let outs ← decodeStep impl ops cache fp8 q indices (emptyBuffers impl ops numActualTokens)
    let chunks ← fp8.prefill
    chunks.foldlM (prefillChunkStep impl ops q indices topkLength) outs

/-- `forward_mqa` with DCP enabled. -/
noncomputable def forwardMqa (attnMetadata : FlashMLASparseMetadata) (q : Tensor3 Scalar)
    (topkIndicesBuffer : ℕ → List ℤ) : Option (Tensor3 Scalar × Tensor2 Scalar) :=
  match attnMetadata.fp8ExtraMetadata with
  | .mixed => forwardFp8KvMixedBatch impl ops cache q topkIndicesBuffer
  | .separate fp8 =>
    forwardFp8KvSeparatePrefillDecode impl ops cache fp8 attnMetadata.numActualTokens q
      topkIndicesBuffer

end Forward

/-! ### What the kernels return -/

/-- A result reads as attention over `cands` at one token and head. -/
def ReadsAt (out : ℕ → Scalar) (lse : Scalar) (cands : List (Candidate (ℕ → ℝ))) : Prop :=
  (∀ d < dv, out d = fin (attend cands d)) ∧ lse = logSumExp cands

/-- The FP8 kernel's candidates: the valid slots of the converted row. -/
noncomputable def cacheCandidates (impl : FlashMLASparseImpl) (cache : Fp8Cache) (y : ℕ → ℕ → ℝ)
    (x : ℕ → ℝ) (row : List ℤ) : List (Candidate (ℕ → ℝ)) :=
  rowCandidates cache.totalSlots impl.softmaxScale x y row

/-- The BF16 kernel's candidates: the valid rows among the first `count` entries. -/
noncomputable def chunkCandidates (impl : FlashMLASparseImpl) (chunk : PrefillChunk)
    (ws : ℕ → ℕ → ℝ) (x : ℕ → ℝ) (row : List ℤ) (count : ℤ) : List (Candidate (ℕ → ℝ)) :=
  rowCandidates (chunkRows impl chunk) impl.softmaxScale x ws (row.take count.toNat)

section Kernels

theorem flashMlaWithKvcache_eq (fusedEnabled : Bool) (cache : Fp8Cache) (scale : ℝ)
    {q : Tensor4 Scalar} (hd : q.d3 = dqk) (indices : ℕ → ℕ → List ℤ) :
    ∃ out lse, flashMlaWithKvcache fusedEnabled cache scale q indices = some (out, lse) ∧
      (out.d0 = q.d0 ∧ out.d1 = q.d1 ∧ out.d2 = q.d2 ∧ out.d3 = dv) ∧
      (lse.d0 = q.d0 ∧ lse.d1 = q.d2 ∧ lse.d2 = q.d1) ∧
      ∀ b, ∀ i < q.d1, ∀ h < q.d2, ∀ x, HoldsLanes dqk (q.get b i h) x →
        ∀ y, RowsDecodeTo cache y (indices b i) → ReadsAt (out.get b i h) (lse.get b h i)
          (rowCandidates cache.totalSlots scale x y (indices b i)) := by
  refine ⟨_, _, if_pos hd, ⟨rfl, rfl, rfl, rfl⟩, ⟨rfl, rfl, rfl⟩, ?_⟩
  intro b i hi h hh x hx y hy
  have hb : (b * q.d1 + i) / q.d1 = b := Enumeration.digits_div b hi
  have hi' : (b * q.d1 + i) % q.d1 = i := Nat.mul_add_mod_of_lt hi
  have hq : HoldsLanes dqk ((fun t h d => q.get (t / q.d1) (t % q.d1) h d) (b * q.d1 + i) h) x := by
    simp only [hb, hi']
    exact hx
  have hy' : RowsDecodeTo cache y ((fun t => indices (t / q.d1) (t % q.d1)) (b * q.d1 + i)) := by
    simp only [hb, hi']
    exact hy
  have hcands := flashMlaWithKvcacheTriton_eq (fun t => indices (t / q.d1) (t % q.d1))
    (b * q.d1 + i) hy' fusedEnabled hh scale
    (q := fun t h d => q.get (t / q.d1) (t % q.d1) h d) hq none
  simp only [slotCandidates, Option.map_none, Option.getD_none, Int.toNat_natCast,
    List.take_length, hb, hi'] at hcands
  exact hcands

/-- **The FP8 kernel's shapes and values.** The output has the actual heads, the
log-sum-exp the heads the kernel ran with. -/
theorem fp8FlashMlaKernel_eq (impl : FlashMLASparseImpl) (cache : Fp8Cache)
    {q : Tensor4 Scalar} (hd : q.d3 = dqk) (topkIndices : ℕ → ℕ → List ℤ) :
    ∃ out lse, fp8FlashMlaKernel impl cache q topkIndices = some (out, lse) ∧
      (out.d0 = q.d0 ∧ out.d1 = q.d1 ∧ out.d2 = q.d2 ∧ out.d3 = dv) ∧
      (lse.d0 = q.d0 ∧ lse.d1 = max q.d2 impl.fp8DecodePaddedHeads ∧ lse.d2 = q.d1) ∧
      ∀ b, ∀ i < q.d1, ∀ h < q.d2, ∀ x, HoldsLanes dqk (q.get b i h) x →
        ∀ y, RowsDecodeTo cache y (topkIndices b i) → ReadsAt (out.get b i h) (lse.get b h i)
          (cacheCandidates impl cache y x (topkIndices b i)) := by
  by_cases hpad : q.d2 < impl.fp8DecodePaddedHeads
  · -- the padded query: the rows of the actual heads are those of `q`
    obtain ⟨out, lse, hrun, ⟨h0, h1, h2, h3⟩, ⟨l0, l1, l2⟩, hreads⟩ :=
      flashMlaWithKvcache_eq impl.fusedEnabled cache impl.softmaxScale
        (q := q.padHeads impl.fp8DecodePaddedHeads 0) hd topkIndices
    refine ⟨out.heads q.d2, lse, ?_, ⟨h0, h1, ?_, h3⟩, ⟨l0, ?_, l2⟩, ?_⟩
    · simp [fp8FlashMlaKernel, if_pos hpad, hrun]
    · rw [Tensor4.heads, h2]
      exact Nat.min_eq_left hpad.le
    · rw [l1, max_eq_right hpad.le]
      rfl
    · intro b i hi h hh x hx
      apply hreads b i hi h (lt_trans hh hpad) x
      intro d hd
      rw [← hx d hd]
      exact if_pos hh
  · obtain ⟨out, lse, hrun, hout, ⟨l0, l1, l2⟩, hreads⟩ :=
      flashMlaWithKvcache_eq impl.fusedEnabled cache impl.softmaxScale hd topkIndices
    refine ⟨out, lse, ?_, hout, ⟨l0, ?_, l2⟩, hreads⟩
    · simp [fp8FlashMlaKernel, if_neg hpad, hrun]
    · rw [l1, max_eq_left (not_lt.mp hpad)]

variable {impl : FlashMLASparseImpl} {ops : ExternalOps} {q : Tensor3 Scalar} {sKv : ℕ}
  {kv : ℕ → ℕ → Scalar} {topkIndices : ℕ → List ℤ} {topkLength : ℕ → ℤ}

/-- `num_heads` is one the BF16 kernel pads: a multiple or a divisor of
`prefill_padding`. -/
def PrefillHeads (impl : FlashMLASparseImpl) : Prop :=
  impl.numHeads % impl.prefillPadding = 0 ∨ impl.prefillPadding % impl.numHeads = 0

theorem prefillPadding_pos (impl : FlashMLASparseImpl) : 0 < impl.prefillPadding := by
  unfold FlashMLASparseImpl.prefillPadding
  split <;> decide

/-- A divisor of `prefill_padding` is at most `prefill_padding`. -/
theorem numHeads_le_of_mod (h : impl.prefillPadding % impl.numHeads = 0) :
    impl.numHeads ≤ impl.prefillPadding :=
  Nat.le_of_dvd (prefillPadding_pos impl) (Nat.dvd_of_mod_eq_zero h)

/-- The padded query agrees with the query on the heads both have. -/
theorem padPrefillQuery_eq_some {q' : Tensor3 Scalar} (h : padPrefillQuery impl ops q = some q') :
    PrefillHeads impl ∧ q'.d0 = q.d0 ∧ q'.d2 = q.d2 ∧
    min q.d1 impl.numHeads ≤ min impl.numHeads q'.d1 ∧
    ∀ t < q.d0, ∀ h < min q.d1 impl.numHeads, ∀ d < q.d2, q'.get t h d = q.get t h d := by
  unfold padPrefillQuery at h
  split at h
  · split at h
    · next hdvd =>
      obtain ⟨-, h0, h1, h2, hget⟩ := Tensor3.assignHeads_eq_some h
      have hle := numHeads_le_of_mod hdvd
      refine ⟨Or.inr hdvd, h0, h2, ?_, ?_⟩
      · rw [h1]
        show min q.d1 impl.numHeads ≤ min impl.numHeads impl.prefillPadding
        omega
      · intro t ht h hh d hd
        rw [hget t h d (lt_of_lt_of_le hh (min_le_right _ _)), bcast_of_lt ht,
          bcast_of_lt (lt_of_lt_of_le hh (min_le_left _ _)), bcast_of_lt hd]
    · cases h
  · next hpad =>
    cases h
    exact ⟨Or.inl (not_not.mp hpad), rfl, rfl, (min_comm _ _).le, fun _ _ _ _ _ _ => rfl⟩

theorem padPrefillQuery_returns (ops : ExternalOps) (hheads : PrefillHeads impl)
    (h1 : q.d1 = impl.numHeads) :
    ∃ q', padPrefillQuery impl ops q = some q' := by
  unfold padPrefillQuery
  split
  · next hpad =>
    have hdvd : impl.prefillPadding % impl.numHeads = 0 := hheads.resolve_left hpad
    have hle := numHeads_le_of_mod hdvd
    rw [if_pos hdvd]
    refine ⟨_, if_pos ⟨Or.inl rfl, Or.inl ?_, Or.inl rfl⟩⟩
    rw [h1]
    exact (Nat.min_eq_left hle).symm
  · exact ⟨q, rfl⟩

/-- **What a returning BF16 kernel returns**: both results have the heads of `num_heads`
that the query has, and read as attention at each of them. -/
theorem bf16FlashMlaKernel_reads {out : Tensor3 Scalar} {lse : Tensor2 Scalar}
    (hrun : bf16FlashMlaKernel impl ops q sKv kv topkIndices topkLength = some (out, lse)) :
    PrefillHeads impl ∧ out.d0 = q.d0 ∧ lse.d0 = q.d0 ∧ out.d2 = dv ∧ lse.d1 = out.d1 ∧
    min q.d1 impl.numHeads ≤ out.d1 ∧
    ∀ k : ℕ → ℕ → ℝ, (∀ i < sKv, HoldsLanes dqk (kv i) (k i)) →
      ∀ t < q.d0, ∀ h < min q.d1 impl.numHeads, ∀ x, HoldsLanes dqk (q.get t h) x →
        ReadsAt (out.get t h) (lse.get t h) (rowCandidates sKv impl.softmaxScale x k
          ((topkIndices t).take (topkLength t).toNat)) := by
  obtain ⟨q', hq', hrun⟩ := Option.bind_eq_some_iff.mp hrun
  obtain ⟨hheads, h0, h2, hmin, hget⟩ := padPrefillQuery_eq_some hq'
  unfold flashMlaSparseFwd at hrun
  split at hrun
  · next hd =>
    cases hrun
    refine ⟨hheads, h0, h0, rfl, rfl, hmin, ?_⟩
    intro k hkv t ht h hh x hx
    have hh' : h < q'.d1 := lt_of_lt_of_le hh (le_trans hmin (min_le_right _ _))
    have hx' : HoldsLanes dqk (q'.get t h) x := by
      intro d hd'
      rw [hget t ht h hh d (by omega), hx d hd']
    have htuned : prefillIndexedHeadBlock ≤ q'.d1 ∨
        (Autotune.Tuner.warm : Autotune.Tuner ℕ).tuned (topkIndices t).length = true := Or.inr rfl
    have hcands := flashMlaSparseFwdTriton_eq hh' hx' hkv topkIndices impl.softmaxScale htuned
      (some topkLength)
    exact ⟨fun d hd => hcands.1 d (lt_of_lt_of_le hd (by decide)), hcands.2⟩
  · cases hrun

theorem flashMlaSparseFwd_returns (sKv : ℕ) (kv : ℕ → ℕ → Scalar) (indices : ℕ → List ℤ)
    (smScale : ℝ) (topkLength : ℕ → ℤ) (hd : q.d2 = dqk) :
    ∃ out lse, flashMlaSparseFwd q sKv kv indices smScale topkLength = some (out, lse) ∧
      (out.d0 = q.d0 ∧ out.d1 = q.d1 ∧ out.d2 = dv) ∧ lse.d0 = q.d0 ∧ lse.d1 = q.d1 :=
  ⟨_, _, if_pos hd, ⟨rfl, rfl, rfl⟩, rfl, rfl⟩

/-- The BF16 kernel returns when the query has the heads it slices to. -/
theorem bf16FlashMlaKernel_returns (ops : ExternalOps) (hheads : PrefillHeads impl)
    (h1 : q.d1 = impl.numHeads) (h2 : q.d2 = dqk) (sKv : ℕ) (kv : ℕ → ℕ → Scalar)
    (topkIndices : ℕ → List ℤ) (topkLength : ℕ → ℤ) :
    ∃ out lse, bf16FlashMlaKernel impl ops q sKv kv topkIndices topkLength = some (out, lse) ∧
      out.d0 = q.d0 ∧ lse.d0 = q.d0 ∧ out.d1 = impl.numHeads ∧ lse.d1 = impl.numHeads ∧
      out.d2 = dv := by
  obtain ⟨q', hq'⟩ := padPrefillQuery_returns ops hheads h1
  obtain ⟨-, h0, hd, hmin, -⟩ := padPrefillQuery_eq_some hq'
  have hcut : min impl.numHeads q'.d1 = impl.numHeads := by omega
  obtain ⟨out, lse, hfwd, ⟨o0, o1, o2⟩, l0, l1⟩ :=
    flashMlaSparseFwd_returns sKv kv topkIndices impl.softmaxScale topkLength (hd.trans h2)
  refine ⟨out.heads impl.numHeads, lse.heads impl.numHeads, ?_, o0.trans h0, l0.trans h0, ?_, ?_,
    o2⟩
  · rw [bf16FlashMlaKernel, hq', Option.bind_eq_bind, Option.bind_some, hfwd]
    rfl
  · rw [Tensor3.heads, o1, hcut]
  · rw [Tensor2.heads, l1, hcut]

end Kernels

end Glm52
