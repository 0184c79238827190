import Glm52.FlashMlaSparse

/-! # A batch of decodes and prefills

The builder orders a batch with the decodes first, all of one query length, then the
prefills, and cuts the prefills into chunks that fit the workspace; a chunk's tokens
are the slice of the batch between its first and last request.

The forward pass fills the output and log-sum-exp buffers slice by slice: first the
decode tokens, then one chunk after another.  `prefillChunkStep_spec` says what one pass
of the loop does and `prefillChunks_spec` what the loop does: it keeps the shapes,
leaves the rows outside the chunks alone, and each chunk's rows read as attention over
that chunk's workspace. -/
namespace Glm52
open ExactFloat Softmax OnlineSoftmax TensorShape Ragged

/-! ### The builder -/

/-- A batch as `split_decodes_and_prefills` and `split_prefill_chunks` deliver it:
`num_decodes` requests of `decode_query_len` tokens, then the prefills, in consecutive
chunks of at least one prefill each. -/
structure Batch where
  numDecodes : ℕ
  decodeQueryLen : ℕ
  prefillQueryLens : List ℕ
  /-- `seq_lens_cpu[num_decodes:]` -/
  prefillSeqLens : List ℕ
  /-- `chunk_bounds` -/
  chunkBounds : List (ℕ × ℕ)
  decodeQueryLen_pos : 0 < decodeQueryLen
  prefillQueryLens_pos : ∀ n ∈ prefillQueryLens, 0 < n
  chunkBounds_consecutive : Consecutive 0 prefillQueryLens.length chunkBounds
  chunkBounds_nonempty : ∀ bounds ∈ chunkBounds, bounds.1 < bounds.2

namespace Batch
variable (batch : Batch)

def numPrefills : ℕ := batch.prefillQueryLens.length

def queryLens : List ℕ :=
  List.replicate batch.numDecodes batch.decodeQueryLen ++ batch.prefillQueryLens

/-- `query_start_loc_cpu[i]`. -/
def queryStartLoc (i : ℕ) : ℕ := (batch.queryLens.take i).sum

def numActualTokens : ℕ := batch.queryLens.sum

def numDecodeTokens : ℕ := batch.queryStartLoc batch.numDecodes

def numPrefillTokens : ℕ := batch.numActualTokens - batch.numDecodeTokens

/-- The chunk of the prefills `chunkStart .. chunkEnd`. -/
def chunk (bounds : ℕ × ℕ) : PrefillChunk where
  reqStartIdx := bounds.1
  tokenStart := batch.queryStartLoc (batch.numDecodes + bounds.1)
  tokenEnd := batch.queryStartLoc (batch.numDecodes + bounds.2)
  chunkTotSeqlen := ((batch.prefillSeqLens.take bounds.2).drop bounds.1).sum

def chunks : List PrefillChunk := batch.chunkBounds.map batch.chunk

/-- `_build_fp8_separate_prefill_decode`. -/
def buildFp8SeparatePrefillDecode : FP8SeparatePrefillDecode where
  numDecodes := batch.numDecodes
  numPrefills := batch.numPrefills
  numDecodeTokens := batch.numDecodeTokens
  numPrefillTokens := batch.numPrefillTokens
  decode := 0 < batch.numDecodes
  prefill := if 0 < batch.numPrefills then some batch.chunks else none

/-- `build`, for the value of `fp8_use_mixed_batch` that `num_heads` gives. -/
def build (fp8UseMixedBatch : Bool) : FlashMLASparseMetadata where
  numActualTokens := batch.numActualTokens
  fp8ExtraMetadata :=
    if fp8UseMixedBatch then .mixed else .separate batch.buildFp8SeparatePrefillDecode

theorem numDecodeTokens_eq : batch.numDecodeTokens = batch.numDecodes * batch.decodeQueryLen := by
  have htake : batch.queryLens.take batch.numDecodes =
      List.replicate batch.numDecodes batch.decodeQueryLen := by
    rw [queryLens, List.take_left' (List.length_replicate)]
  rw [numDecodeTokens, queryStartLoc, htake, List.sum_replicate, smul_eq_mul]

theorem numActualTokens_eq :
    batch.numActualTokens = batch.numDecodeTokens + batch.prefillQueryLens.sum := by
  rw [numActualTokens, queryLens, List.sum_append, List.sum_replicate, smul_eq_mul,
    numDecodeTokens_eq]

theorem numDecodeTokens_le : batch.numDecodeTokens ≤ batch.numActualTokens := by
  rw [numActualTokens_eq]
  exact Nat.le_add_right _ _

theorem numDecodeTokens_pos_iff : 0 < batch.numDecodeTokens ↔ 0 < batch.numDecodes := by
  rw [numDecodeTokens_eq, Nat.mul_pos_iff_of_pos_right batch.decodeQueryLen_pos]

theorem numPrefillTokens_eq : batch.numPrefillTokens = batch.prefillQueryLens.sum := by
  rw [numPrefillTokens, numActualTokens_eq, Nat.add_sub_cancel_left]

/-- A prefill has tokens, so a batch without prefill tokens has no prefills. -/
theorem numPrefillTokens_pos_iff : 0 < batch.numPrefillTokens ↔ 0 < batch.numPrefills := by
  rw [numPrefillTokens_eq, numPrefills]
  constructor
  · intro h
    rw [List.length_pos_iff]
    rintro hnil
    rw [hnil] at h
    exact absurd h (lt_irrefl 0)
  · intro h
    obtain ⟨n, hn⟩ := List.exists_mem_of_length_pos h
    exact lt_of_lt_of_le (batch.prefillQueryLens_pos n hn) (List.le_sum_of_mem hn)

theorem queryStartLoc_mono : Monotone batch.queryStartLoc := by
  intro i j hij
  rw [queryStartLoc, queryStartLoc, ← Nat.add_sub_cancel' hij, List.take_add, List.sum_append]
  exact Nat.le_add_right _ _

/-- **The chunks' token slices cover the prefill tokens, one after another.** -/
theorem chunks_consecutive : Consecutive batch.numDecodeTokens batch.numActualTokens
    (batch.chunks.map (fun chunk => (chunk.tokenStart, chunk.tokenEnd))) := by
  have hmono : Monotone (fun i => batch.queryStartLoc (batch.numDecodes + i)) :=
    fun i j hij => batch.queryStartLoc_mono (Nat.add_le_add_left hij _)
  have hend : batch.queryStartLoc (batch.numDecodes + batch.prefillQueryLens.length) =
      batch.numActualTokens := by
    rw [queryStartLoc, numActualTokens, List.take_of_length_le (by simp [queryLens])]
  have hslices := batch.chunkBounds_consecutive.map hmono
  simp only [Nat.add_zero, hend] at hslices
  rw [chunks, List.map_map]
  exact hslices

theorem chunks_ne_nil (h : 0 < batch.numPrefills) : batch.chunks ≠ [] := by
  intro hnil
  have hcons := batch.chunks_consecutive
  rw [hnil] at hcons
  have htokens := batch.numPrefillTokens_pos_iff.mpr h
  have hempty : batch.numDecodeTokens = batch.numActualTokens := hcons
  rw [numPrefillTokens] at htokens
  omega

end Batch

/-! ### The decode tokens -/

/-- What the two spec-decode reshapes of the serving framework do. -/
structure ExternalOps.Lawful (ops : ExternalOps) : Prop where
  reshapeQuery : ∀ (q : Tensor3 Scalar) (numDecodes seqLen : ℕ), 0 < numDecodes →
    q.d0 = numDecodes * seqLen → ops.reshapeQueryForSpecDecode q numDecodes =
      some ⟨numDecodes, seqLen, q.d1, q.d2, fun b i => q.get (b * seqLen + i)⟩
  reshapeAttnOutput : ∀ out : Tensor4 Scalar, ops.reshapeAttnOutputForSpecDecode out =
    ⟨out.d0 * out.d1, out.d2, out.d3, fun t => out.get (t / out.d1) (t % out.d1)⟩

section Decode
variable {impl : FlashMLASparseImpl} {ops : ExternalOps} {cache : Fp8Cache}
  {fp8 : FP8SeparatePrefillDecode} {q : Tensor3 Scalar} {seqLen : ℕ}

/-- **The decode tokens.** With at least the padded number of heads, output and
log-sum-exp have the query's tokens and heads and read as attention; with fewer, the
log-sum-exp has the wrong number of elements and its reshape fails. -/
theorem fp8Decode_eq (hops : ops.Lawful) (hdec : 0 < fp8.numDecodes)
    (hmeta : fp8.decode = true) (hlen : 0 < seqLen) (h0 : q.d0 = fp8.numDecodes * seqLen)
    (hd : q.d2 = dqk) (topkIndices : ℕ → List ℤ) :
    (impl.fp8DecodePaddedHeads ≤ q.d1 →
      ∃ out lse, fp8Decode impl ops cache fp8 q topkIndices = some (out, lse) ∧
        (out.d0 = q.d0 ∧ out.d1 = q.d1 ∧ out.d2 = dv) ∧ (lse.d0 = q.d0 ∧ lse.d1 = q.d1) ∧
        ∀ t < q.d0, ∀ h < q.d1, ∀ x, HoldsLanes dqk (q.get t h) x →
          ∀ y, RowsDecodeTo cache y (topkIndices t) → ReadsAt (out.get t h) (lse.get t h)
            (cacheCandidates impl cache y x (topkIndices t))) ∧
    (q.d1 < impl.fp8DecodePaddedHeads → fp8Decode impl ops cache fp8 q topkIndices = none) := by
  obtain ⟨out, lse, hrun, ⟨o0, o1, o2, o3⟩, ⟨l0, l1, l2⟩, hreads⟩ :=
    fp8FlashMlaKernel_eq impl cache
      (q := ⟨fp8.numDecodes, seqLen, q.d1, q.d2, fun b i => q.get (b * seqLen + i)⟩) hd
      (fun b i => topkIndices (b * seqLen + i))
  have hdecode : fp8Decode impl ops cache fp8 q topkIndices =
      (lse.transpose12.reshape2 (out.d0 * out.d1) out.d2).bind (fun lse =>
        some (⟨out.d0 * out.d1, out.d2, out.d3, fun t => out.get (t / out.d1) (t % out.d1)⟩,
          lse)) := by
    simp only [fp8Decode, hops.reshapeQuery q _ seqLen hdec h0, hops.reshapeAttnOutput,
      Option.bind_eq_bind, Option.bind_some, h0, hmeta, and_self, if_true, hrun]
  rw [hdecode]
  constructor
  · intro hpad
    -- the padding adds no head, so the transposed log-sum-exp has the elements to reshape
    have hheads : lse.transpose12.d2 = out.d2 := by
      rw [o2]
      exact l1.trans (max_eq_left hpad)
    have hcount : lse.transpose12.d0 * lse.transpose12.d1 * lse.transpose12.d2 =
        out.d0 * out.d1 * out.d2 := by
      rw [hheads, o0, o1]
      show lse.d0 * lse.d2 * _ = _
      rw [l0, l2]
    rw [← hheads] at hcount ⊢
    obtain ⟨lse', hreshape, r0, r1, hget⟩ := Tensor3.reshape2_fold hcount
    have htokens : out.d0 * out.d1 = q.d0 := by rw [o0, o1, h0]
    rw [hreshape, Option.bind_some]
    refine ⟨_, _, rfl, ⟨htokens, ?_, o3⟩, ⟨r0.trans htokens, ?_⟩, ?_⟩
    · exact hheads.trans o2
    · rw [r1, hheads, o2]
    · intro t ht h hh x hx y hy
      have hi : t % seqLen < seqLen := Nat.mod_lt t hlen
      have ht' : t / seqLen * seqLen + t % seqLen = t := Nat.div_add_mod' t seqLen
      have hread := hreads (t / seqLen) (t % seqLen) hi h hh x
      simp only [ht'] at hread
      replace hread := hread hx y hy
      rw [hget t h (by rw [hheads, o2]; exact hh)]
      show ReadsAt (out.get (t / out.d1) (t % out.d1) h) (lse.get (t / lse.d2) h (t % lse.d2)) _
      rw [o1, l2]
      exact hread
  · intro hpad
    -- the padded heads are too many for the reshape
    have hcount : ¬ lse.transpose12.d0 * lse.transpose12.d1 * lse.transpose12.d2 =
        out.d0 * out.d1 * out.d2 := by
      show ¬ lse.d0 * lse.d2 * lse.d1 = _
      rw [l0, l1, l2, o0, o1, o2]
      intro heq
      have hheads : max q.d1 impl.fp8DecodePaddedHeads = q.d1 :=
        Nat.eq_of_mul_eq_mul_left (Nat.mul_pos hdec hlen) heq
      omega
    rw [Tensor3.reshape2, if_neg hcount, Option.bind_none]

end Decode

/-! ### The loop over the prefill chunks -/

/-- Output and log-sum-exp have the same sizes in both. -/
structure SameShape (outs outs' : Tensor3 Scalar × Tensor2 Scalar) : Prop where
  outTokens : outs'.1.d0 = outs.1.d0
  outHeads : outs'.1.d1 = outs.1.d1
  outDim : outs'.1.d2 = outs.1.d2
  lseTokens : outs'.2.d0 = outs.2.d0
  lseHeads : outs'.2.d1 = outs.2.d1

theorem SameShape.trans {a b c : Tensor3 Scalar × Tensor2 Scalar} (hab : SameShape a b)
    (hbc : SameShape b c) : SameShape a c :=
  ⟨hbc.1.trans hab.1, hbc.2.trans hab.2, hbc.3.trans hab.3, hbc.4.trans hab.4, hbc.5.trans hab.5⟩

/-- Token `t` has the same output and log-sum-exp in both. -/
def SameRow (outs outs' : Tensor3 Scalar × Tensor2 Scalar) (t : ℕ) : Prop :=
  outs'.1.get t = outs.1.get t ∧ outs'.2.get t = outs.2.get t

section Chunks
variable (impl : FlashMLASparseImpl) (ops : ExternalOps) (q : Tensor3 Scalar)
  (indices : ℕ → List ℤ) (topkLength : ℕ → ℤ)

/-- The chunk's tokens read as attention over the chunk's workspace. -/
def ChunkReads (outs : Tensor3 Scalar × Tensor2 Scalar) (chunk : PrefillChunk) : Prop :=
  ∀ ws : ℕ → ℕ → ℝ,
    (∀ i < chunkRows impl chunk, HoldsLanes dqk (ops.gatherAndUpconvert chunk i) (ws i)) →
    ∀ t, chunk.tokenStart ≤ t → t < chunk.tokenEnd → ∀ h < min q.d1 impl.numHeads, ∀ x,
      HoldsLanes dqk (q.get t h) x → ReadsAt (outs.1.get t h) (outs.2.get t h)
        (chunkCandidates impl chunk ws x (indices t) (topkLength t))

variable {impl ops q indices topkLength} {outs outs' : Tensor3 Scalar × Tensor2 Scalar}

/-- A row that later stays the same still reads the same. -/
theorem ChunkReads.of_sameRow {chunk : PrefillChunk}
    (h : ChunkReads impl ops q indices topkLength outs chunk)
    (hsame : ∀ t, chunk.tokenStart ≤ t → t < chunk.tokenEnd → SameRow outs outs' t) :
    ChunkReads impl ops q indices topkLength outs' chunk := by
  intro ws hws t hstart hend h' hh x hx
  obtain ⟨hout, hlse⟩ := hsame t hstart hend
  rw [hout, hlse]
  exact h ws hws t hstart hend h' hh x hx

/-- What is read from a slice after output and log-sum-exp have been assigned to it. -/
theorem readsAt_assigned {start stop : ℕ} {out attnOut : Tensor3 Scalar}
    {lse lseFull : Tensor2 Scalar} (hout : outs.1.assignRows start stop out = some attnOut)
    (hlse : outs.2.assignRows start stop lse = some lseFull) {t h : ℕ}
    (ht : start ≤ t ∧ t < stop) (hrow : t - start < out.d0 ∧ t - start < lse.d0)
    (hhead : h < out.d1 ∧ h < lse.d1) (hdim : out.d2 = dv)
    {cands : List (Candidate (ℕ → ℝ))}
    (hread : ReadsAt (out.get (t - start) h) (lse.get (t - start) h) cands) :
    ReadsAt (attnOut.get t h) (lseFull.get t h) cands := by
  constructor
  · intro d hd
    rw [Tensor3.assignRows_get hout t h d, if_pos ht, bcast_of_lt hrow.1, bcast_of_lt hhead.1,
      bcast_of_lt (lt_of_lt_of_eq hd hdim.symm)]
    exact hread.1 d hd
  · rw [Tensor2.assignRows_get hlse t h, if_pos ht, bcast_of_lt hrow.2, bcast_of_lt hhead.2]
    exact hread.2

/-- **One pass of the loop** writes the chunk's rows and nothing else. -/
theorem prefillChunkStep_spec {chunk : PrefillChunk} (hend : chunk.tokenEnd ≤ q.d0)
    (hrun : prefillChunkStep impl ops q indices topkLength outs chunk = some outs') :
    PrefillHeads impl ∧ SameShape outs outs' ∧
    (∀ t, t < chunk.tokenStart ∨ chunk.tokenEnd ≤ t → SameRow outs outs' t) ∧
    ChunkReads impl ops q indices topkLength outs' chunk := by
  obtain ⟨⟨chunkOut, chunkLse⟩, hkernel, hrun⟩ := Option.bind_eq_some_iff.mp hrun
  obtain ⟨attnOut, hout, hrun⟩ := Option.bind_eq_some_iff.mp hrun
  obtain ⟨lseFull, hlse, hrun⟩ := Option.bind_eq_some_iff.mp hrun
  cases hrun
  obtain ⟨hheads, c0, l0, c2, l1, hmin, hreads⟩ := bf16FlashMlaKernel_reads hkernel
  obtain ⟨s0, s1, s2⟩ := Tensor3.assignRows_shape hout
  obtain ⟨r0, r1⟩ := Tensor2.assignRows_shape hlse
  refine ⟨hheads, ⟨s0, s1, s2, r0, r1⟩, ?_, ?_⟩
  · intro t ht
    have houtside : ¬ (chunk.tokenStart ≤ t ∧ t < chunk.tokenEnd) := by omega
    refine ⟨?_, ?_⟩
    · funext h d
      rw [Tensor3.assignRows_get hout t h d, if_neg houtside]
    · funext h
      rw [Tensor2.assignRows_get hlse t h, if_neg houtside]
  · intro ws hws t hstart hlt h hh x hx
    -- row `t` of the buffers is row `t - token_start` of the chunk
    have hrow : t - chunk.tokenStart < sliceLen q.d0 chunk.tokenStart chunk.tokenEnd := by
      unfold sliceLen
      omega
    have hsplit : chunk.tokenStart + (t - chunk.tokenStart) = t := by omega
    have hread := hreads ws hws (t - chunk.tokenStart) hrow h hh x (by
      show HoldsLanes dqk (q.get (chunk.tokenStart + (t - chunk.tokenStart)) h) x
      rw [hsplit]
      exact hx)
    rw [hsplit] at hread
    have hhead : h < chunkOut.d1 := lt_of_lt_of_le hh hmin
    exact readsAt_assigned hout hlse ⟨hstart, hlt⟩
      ⟨lt_of_lt_of_eq hrow c0.symm, lt_of_lt_of_eq hrow l0.symm⟩
      ⟨hhead, lt_of_lt_of_eq hhead l1.symm⟩ c2 hread

/-- **The loop over the chunks** keeps the shapes, leaves the rows outside the chunks
alone, and every chunk's rows read as attention over its workspace: later chunks write
other rows. -/
theorem prefillChunks_spec {chunks : List PrefillChunk} {a b : ℕ}
    (hcons : Consecutive a b (chunks.map (fun chunk => (chunk.tokenStart, chunk.tokenEnd))))
    (hb : b ≤ q.d0)
    (hrun : chunks.foldlM (prefillChunkStep impl ops q indices topkLength) outs = some outs') :
    SameShape outs outs' ∧ (∀ t, t < a ∨ b ≤ t → SameRow outs outs' t) ∧
    (chunks ≠ [] → PrefillHeads impl) ∧
    ∀ chunk ∈ chunks, ChunkReads impl ops q indices topkLength outs' chunk := by
  induction chunks generalizing a outs with
  | nil =>
    cases hrun
    exact ⟨⟨rfl, rfl, rfl, rfl, rfl⟩, fun t _ => ⟨rfl, rfl⟩, fun h => absurd rfl h,
      fun _ h => absurd h List.not_mem_nil⟩
  | cons chunk rest ih =>
    obtain ⟨hstart, hle, hrest⟩ := hcons
    replace hstart : chunk.tokenStart = a := hstart
    replace hle : a ≤ chunk.tokenEnd := hle
    have hend : chunk.tokenEnd ≤ b := hrest.le
    obtain ⟨mid, hstep, hrun⟩ := Option.bind_eq_some_iff.mp hrun
    obtain ⟨hheads, hshape, hsame, hreads⟩ := prefillChunkStep_spec (le_trans hend hb) hstep
    obtain ⟨hshape', hsame', -, hreads'⟩ := ih hrest hrun
    refine ⟨hshape.trans hshape', ?_, fun _ => hheads, ?_⟩
    · intro t ht
      have houtside : t < chunk.tokenStart ∨ chunk.tokenEnd ≤ t := by omega
      have hrest' : t < chunk.tokenEnd ∨ b ≤ t := by omega
      obtain ⟨hout, hlse⟩ := hsame t houtside
      obtain ⟨hout', hlse'⟩ := hsame' t hrest'
      exact ⟨hout'.trans hout, hlse'.trans hlse⟩
    · intro c hc
      rcases List.mem_cons.mp hc with rfl | hc
      · exact hreads.of_sameRow (fun t _ ht => hsame' t (Or.inl ht))
      · exact hreads' c hc

/-- The loop returns when the query and the buffers have the heads of the kernel. -/
theorem prefillChunks_returns {chunks : List PrefillChunk} {a b : ℕ}
    (hcons : Consecutive a b (chunks.map (fun chunk => (chunk.tokenStart, chunk.tokenEnd))))
    (hheads : PrefillHeads impl) (h1 : q.d1 = impl.numHeads) (h2 : q.d2 = dqk)
    (hout : outs.1.d0 = q.d0 ∧ outs.1.d1 = impl.numHeads ∧ outs.1.d2 = dv)
    (hlse : outs.2.d0 = q.d0 ∧ outs.2.d1 = impl.numHeads) :
    ∃ outs', chunks.foldlM (prefillChunkStep impl ops q indices topkLength) outs = some outs' := by
  induction chunks generalizing a outs with
  | nil => exact ⟨outs, rfl⟩
  | cons chunk rest ih =>
    obtain ⟨-, -, hrest⟩ := hcons
    obtain ⟨chunkOut, chunkLse, hkernel, c0, l0, c1, l1, c2⟩ :=
      bf16FlashMlaKernel_returns ops (q := q.rows chunk.tokenStart chunk.tokenEnd) hheads h1 h2
        (chunkRows impl chunk) (ops.gatherAndUpconvert chunk)
        (fun t => indices (chunk.tokenStart + t)) (fun t => topkLength (chunk.tokenStart + t))
    have hrows : (q.rows chunk.tokenStart chunk.tokenEnd).d0 =
        sliceLen q.d0 chunk.tokenStart chunk.tokenEnd := rfl
    obtain ⟨attnOut, hattn⟩ := Tensor3.assignRows_returns (x := outs.1) (y := chunkOut)
      (by rw [c0, hrows, hout.1]) (c1.trans hout.2.1.symm) (c2.trans hout.2.2.symm)
    obtain ⟨lseFull, hfull⟩ := Tensor2.assignRows_returns (x := outs.2) (y := chunkLse)
      (by rw [l0, hrows, hlse.1]) (l1.trans hlse.2.symm)
    have hstep : prefillChunkStep impl ops q indices topkLength outs chunk =
        some (attnOut, lseFull) := by
      rw [prefillChunkStep, hkernel, Option.bind_eq_bind, Option.bind_some]
      simp only [hattn, hfull, Option.bind_eq_bind, Option.bind_some]
    obtain ⟨s0, s1, s2⟩ := Tensor3.assignRows_shape hattn
    obtain ⟨r0, r1⟩ := Tensor2.assignRows_shape hfull
    rw [List.foldlM_cons, hstep]
    exact ih hrest ⟨s0.trans hout.1, s1.trans hout.2.1, s2.trans hout.2.2⟩
      ⟨r0.trans hlse.1, r1.trans hlse.2⟩

end Chunks

/-! ### The separate path on a batch with prefills -/

section Separate
variable {impl : FlashMLASparseImpl} {ops : ExternalOps} {cache : Fp8Cache} (batch : Batch)
  {q : Tensor3 Scalar}

/-- The decode tokens of a batch are a query of their own. -/
theorem fp8Decode_batch (impl : FlashMLASparseImpl) (cache : Fp8Cache) (hops : ops.Lawful)
    (hdec : 0 < batch.numDecodeTokens) (h0 : q.d0 = batch.numDecodeTokens) (hd : q.d2 = dqk)
    (indices : ℕ → List ℤ) :
    (impl.fp8DecodePaddedHeads ≤ q.d1 → ∃ out lse,
      fp8Decode impl ops cache batch.buildFp8SeparatePrefillDecode q indices = some (out, lse) ∧
        (out.d0 = q.d0 ∧ out.d1 = q.d1 ∧ out.d2 = dv) ∧ (lse.d0 = q.d0 ∧ lse.d1 = q.d1) ∧
        ∀ t < q.d0, ∀ h < q.d1, ∀ x, HoldsLanes dqk (q.get t h) x →
          ∀ y, RowsDecodeTo cache y (indices t) → ReadsAt (out.get t h) (lse.get t h)
            (cacheCandidates impl cache y x (indices t))) ∧
    (q.d1 < impl.fp8DecodePaddedHeads →
      fp8Decode impl ops cache batch.buildFp8SeparatePrefillDecode q indices = none) :=
  fp8Decode_eq hops (batch.numDecodeTokens_pos_iff.mp hdec)
    (decide_eq_true (batch.numDecodeTokens_pos_iff.mp hdec)) batch.decodeQueryLen_pos
    (h0.trans batch.numDecodeTokens_eq) hd indices

/-- What the decode tokens leave in the buffers. -/
theorem decodeStep_spec (hops : ops.Lawful) (h0 : batch.numDecodeTokens ≤ q.d0)
    (hd : q.d2 = dqk) {indices : ℕ → List ℤ}
    {outs outs' : Tensor3 Scalar × Tensor2 Scalar}
    (hrun : decodeStep impl ops cache batch.buildFp8SeparatePrefillDecode q indices outs =
      some outs') :
    (0 < batch.numDecodeTokens → impl.fp8DecodePaddedHeads ≤ q.d1) ∧ SameShape outs outs' ∧
    ∀ t < batch.numDecodeTokens, ∀ h < q.d1, ∀ x, HoldsLanes dqk (q.get t h) x →
      ∀ y, RowsDecodeTo cache y (indices t) → ReadsAt (outs'.1.get t h) (outs'.2.get t h)
        (cacheCandidates impl cache y x (indices t)) := by
  unfold decodeStep at hrun
  split at hrun
  · next hdec =>
    have hslice := sliceLen_zero h0
    obtain ⟨hfit, hnofit⟩ := fp8Decode_batch batch impl cache hops
      (q := q.rows 0 batch.numDecodeTokens) hdec hslice hd indices
    obtain ⟨⟨decOut, decLse⟩, hdecode, hrun⟩ := Option.bind_eq_some_iff.mp hrun
    obtain ⟨attnOut, hattn, hrun⟩ := Option.bind_eq_some_iff.mp hrun
    obtain ⟨lseFull, hfull, hrun⟩ := Option.bind_eq_some_iff.mp hrun
    cases hrun
    have hpad : impl.fp8DecodePaddedHeads ≤ q.d1 := by
      by_contra hlt
      cases (hnofit (not_le.mp hlt)).symm.trans hdecode
    obtain ⟨out, lse, hsome, ⟨o0, o1, o2⟩, ⟨l0, l1⟩, hreads⟩ := hfit hpad
    obtain ⟨rfl, rfl⟩ : out = decOut ∧ lse = decLse := by
      simpa using hsome.symm.trans hdecode
    obtain ⟨s0, s1, s2⟩ := Tensor3.assignRows_shape hattn
    obtain ⟨r0, r1⟩ := Tensor2.assignRows_shape hfull
    refine ⟨fun _ => hpad, ⟨s0, s1, s2, r0, r1⟩, ?_⟩
    intro t ht h hh x hx y hy
    have hrow : t - 0 < sliceLen q.d0 0 batch.numDecodeTokens := by omega
    have hread := hreads t hrow h hh x (by
      show HoldsLanes dqk (q.get (0 + t) h) x
      rw [Nat.zero_add]
      exact hx) y hy
    exact readsAt_assigned hattn hfull ⟨Nat.zero_le t, ht⟩
      ⟨lt_of_lt_of_eq hrow o0.symm, lt_of_lt_of_eq hrow l0.symm⟩
      ⟨lt_of_lt_of_eq hh o1.symm, lt_of_lt_of_eq hh l1.symm⟩ o2 hread
  · next hdec =>
    cases hrun
    exact ⟨fun h => absurd h hdec, ⟨rfl, rfl, rfl, rfl, rfl⟩,
      fun t ht => absurd (lt_of_le_of_lt (Nat.zero_le t) ht) hdec⟩

theorem decodeStep_returns (cache : Fp8Cache) (hops : ops.Lawful)
    (h0 : batch.numDecodeTokens ≤ q.d0) (hd : q.d2 = dqk) (indices : ℕ → List ℤ)
    (outs : Tensor3 Scalar × Tensor2 Scalar)
    (hpad : 0 < batch.numDecodeTokens → impl.fp8DecodePaddedHeads ≤ q.d1)
    (hout : outs.1.d0 = q.d0 ∧ outs.1.d1 = q.d1 ∧ outs.1.d2 = dv)
    (hlse : outs.2.d0 = q.d0 ∧ outs.2.d1 = q.d1) :
    ∃ outs', decodeStep impl ops cache batch.buildFp8SeparatePrefillDecode q indices outs =
      some outs' := by
  unfold decodeStep
  split
  · next hdec =>
    have hslice := sliceLen_zero h0
    obtain ⟨out, lse, hdecode, ⟨o0, o1, o2⟩, ⟨l0, l1⟩, -⟩ :=
      (fp8Decode_batch batch impl cache hops (q := q.rows 0 batch.numDecodeTokens) hdec
        hslice hd indices).1 (hpad hdec)
    have hrows : (q.rows 0 batch.numDecodeTokens).d0 = sliceLen q.d0 0 batch.numDecodeTokens := rfl
    obtain ⟨attnOut, hattn⟩ := Tensor3.assignRows_returns (x := outs.1) (y := out)
      (by rw [o0, hrows, hout.1]) (o1.trans hout.2.1.symm) (o2.trans hout.2.2.symm)
    obtain ⟨lseFull, hfull⟩ := Tensor2.assignRows_returns (x := outs.2) (y := lse)
      (by rw [l0, hrows, hlse.1]) (l1.trans hlse.2.symm)
    refine ⟨(attnOut, lseFull), ?_⟩
    refine Option.bind_eq_some_iff.mpr ⟨_, hdecode, ?_⟩
    refine Option.bind_eq_some_iff.mpr ⟨_, hattn, ?_⟩
    exact Option.bind_eq_some_iff.mpr ⟨_, hfull, rfl⟩
  · exact ⟨outs, rfl⟩

variable (topkIndices : ℕ → List ℤ)

/-- With prefills the separate path is the decode step, then the loop. -/
theorem forwardSeparate_eq (hpre : 0 < batch.numPrefills) :
    forwardFp8KvSeparatePrefillDecode impl ops cache batch.buildFp8SeparatePrefillDecode
        batch.numActualTokens q topkIndices =
      (decodeStep impl ops cache batch.buildFp8SeparatePrefillDecode q
        (ops.convertIndicesWorkspace topkIndices)
        (emptyBuffers impl ops batch.numActualTokens)).bind
      (fun outs => batch.chunks.foldlM (prefillChunkStep impl ops q
        (ops.convertIndicesWorkspace topkIndices) (ops.validCounts topkIndices)) outs) := by
  have htokens := batch.numPrefillTokens_pos_iff.mpr hpre
  have hbranch : ¬ (0 < batch.buildFp8SeparatePrefillDecode.numDecodeTokens ∧
      batch.buildFp8SeparatePrefillDecode.numPrefillTokens = 0) := fun h => htokens.ne' h.2
  have hchunks : batch.buildFp8SeparatePrefillDecode.prefill = some batch.chunks := if_pos hpre
  simp only [forwardFp8KvSeparatePrefillDecode, if_neg hbranch, hchunks, Option.bind_eq_bind,
    Option.bind_some]

/-- **What a returning run on a batch with prefills has done**: its buffers have the
impl's heads, the decode rows read as attention over the cache and the prefill rows as
attention over their chunk's workspace. -/
theorem forwardSeparate_spec (hops : ops.Lawful) (h0 : q.d0 = batch.numActualTokens)
    (hd : q.d2 = dqk) (hpre : 0 < batch.numPrefills)
    {outs : Tensor3 Scalar × Tensor2 Scalar}
    (hrun : forwardFp8KvSeparatePrefillDecode impl ops cache batch.buildFp8SeparatePrefillDecode
      batch.numActualTokens q topkIndices = some outs) :
    (0 < batch.numDecodeTokens → impl.fp8DecodePaddedHeads ≤ q.d1) ∧ PrefillHeads impl ∧
    SameShape (emptyBuffers impl ops batch.numActualTokens) outs ∧
    (∀ t < batch.numDecodeTokens, ∀ h < q.d1, ∀ x, HoldsLanes dqk (q.get t h) x →
      ∀ y, RowsDecodeTo cache y (ops.convertIndicesWorkspace topkIndices t) →
      ReadsAt (outs.1.get t h) (outs.2.get t h)
        (cacheCandidates impl cache y x (ops.convertIndicesWorkspace topkIndices t))) ∧
    ∀ chunk ∈ batch.chunks, ChunkReads impl ops q (ops.convertIndicesWorkspace topkIndices)
      (ops.validCounts topkIndices) outs chunk := by
  rw [forwardSeparate_eq batch topkIndices hpre] at hrun
  obtain ⟨mid, hdec, hloop⟩ := Option.bind_eq_some_iff.mp hrun
  have hle : batch.numDecodeTokens ≤ q.d0 := h0 ▸ batch.numDecodeTokens_le
  obtain ⟨hpad, hshape, hreads⟩ := decodeStep_spec batch hops hle hd hdec
  obtain ⟨hshape', hsame, hheads, hchunks⟩ :=
    prefillChunks_spec batch.chunks_consecutive h0.ge hloop
  refine ⟨hpad, hheads (batch.chunks_ne_nil hpre), hshape.trans hshape', ?_, hchunks⟩
  -- the loop leaves the decode rows alone
  intro t ht h hh x hx y hy
  obtain ⟨hout, hlse⟩ := hsame t (Or.inl ht)
  rw [hout, hlse]
  exact hreads t ht h hh x hx y hy

/-- The run returns when the query has the impl's heads and both kernels take them. -/
theorem forwardSeparate_returns (impl : FlashMLASparseImpl) (cache : Fp8Cache)
    (hops : ops.Lawful) (h0 : q.d0 = batch.numActualTokens) (hd : q.d2 = dqk)
    (hpre : 0 < batch.numPrefills) (h1 : q.d1 = impl.numHeads) (hheads : PrefillHeads impl)
    (hpad : 0 < batch.numDecodeTokens → impl.fp8DecodePaddedHeads ≤ q.d1) :
    ∃ outs, forwardFp8KvSeparatePrefillDecode impl ops cache batch.buildFp8SeparatePrefillDecode
      batch.numActualTokens q topkIndices = some outs := by
  rw [forwardSeparate_eq batch topkIndices hpre]
  have hle : batch.numDecodeTokens ≤ q.d0 := h0 ▸ batch.numDecodeTokens_le
  obtain ⟨mid, hdec⟩ := decodeStep_returns batch cache hops hle hd
    (ops.convertIndicesWorkspace topkIndices) (emptyBuffers impl ops batch.numActualTokens) hpad
    ⟨h0.symm, h1.symm, rfl⟩
    ⟨h0.symm, h1.symm⟩
  obtain ⟨-, hshape, -⟩ := decodeStep_spec batch hops hle hd hdec
  rw [hdec, Option.bind_some]
  exact prefillChunks_returns batch.chunks_consecutive hheads h1 hd
    ⟨hshape.outTokens.trans h0.symm, hshape.outHeads, hshape.outDim⟩
    ⟨hshape.lseTokens.trans h0.symm, hshape.lseHeads⟩

end Separate

end Glm52
