import Glm52.SeparateBatch

/-! # Output and log-sum-exp through the forward pass

Under DCP every call returns an output of shape `(T, H, 512)` and a log-sum-exp of
shape `(T, H)`, for the merge across ranks; `Aligned` says that the shapes are these
and that each log-sum-exp belongs to the output beside it.

The paths pad and size by different head counts.  The FP8 kernel pads the query to
`fp8_decode_padded_heads` and cuts back the output, but not the log-sum-exp; the
buffers of a batch with prefills and the BF16 kernel go by the impl's `num_heads`, while
the query may hold the all-gathered heads.  `HeadsFit` is the exact condition on the
head counts for an aligned result (`forward_mqa_aligned_iff`). -/
namespace Glm52
open ExactFloat Softmax OnlineSoftmax TensorShape Ragged

/-- The result holds `T` tokens and `H` heads, and each of its log-sum-exps belongs to
the output beside it: both are those of `cands t h`. -/
def Aligned (T H : ℕ) (cands : ℕ → ℕ → List (Candidate (ℕ → ℝ)))
    (result : Option (Tensor3 Scalar × Tensor2 Scalar)) : Prop :=
  ∃ out lse, result = some (out, lse) ∧ (out.d0 = T ∧ out.d1 = H ∧ out.d2 = dv) ∧
    (lse.d0 = T ∧ lse.d1 = H) ∧
    ∀ t < T, ∀ h < H, ReadsAt (out.get t h) (lse.get t h) (cands t h)

/-- The keys token `t` attends to, for a head with query `x`: the cache rows of its
converted indices, or the rows of its chunk's workspace. -/
noncomputable def tokenCandidates (impl : FlashMLASparseImpl) (ops : ExternalOps)
    (cache : Fp8Cache) (y : ℕ → ℕ → ℝ) (ws : PrefillChunk → ℕ → ℕ → ℝ)
    (attnMetadata : FlashMLASparseMetadata) (topkIndices : ℕ → List ℤ) (x : ℕ → ℝ) (t : ℕ) :
    List (Candidate (ℕ → ℝ)) :=
  match attnMetadata.fp8ExtraMetadata with
  | .mixed => cacheCandidates impl cache y x (ops.convertIndices topkIndices t)
  | .separate fp8 =>
    let row := ops.convertIndicesWorkspace topkIndices t
    if t < fp8.numDecodeTokens then cacheCandidates impl cache y x row
    else
      let inChunk := fun chunk : PrefillChunk => decide (chunk.tokenStart ≤ t ∧ t < chunk.tokenEnd)
      match (fp8.prefill.getD []).find? inChunk with
      | some chunk => chunkCandidates impl chunk (ws chunk) x row (ops.validCounts topkIndices t)
      | none => []

/-- The head counts for which `forward_mqa` returns an aligned result, for a query of
`H` heads. -/
def HeadsFit (impl : FlashMLASparseImpl) (batch : Batch) (fp8UseMixedBatch : Bool) (H : ℕ) :
    Prop :=
  if fp8UseMixedBatch then impl.fp8DecodePaddedHeads ≤ H
  else if batch.numActualTokens = 0 then False
  else if batch.numPrefillTokens = 0 then impl.fp8DecodePaddedHeads ≤ H
  else H = impl.numHeads ∧ PrefillHeads impl ∧
    (0 < batch.numDecodeTokens → impl.fp8DecodePaddedHeads ≤ H)

/-- A prefill token's candidates are those of the chunk it is in. -/
theorem tokenCandidates_prefill (impl : FlashMLASparseImpl) (ops : ExternalOps)
    (cache : Fp8Cache) (y : ℕ → ℕ → ℝ) (ws : PrefillChunk → ℕ → ℕ → ℝ) (batch : Batch)
    (topkIndices : ℕ → List ℤ) (x : ℕ → ℝ) {t : ℕ} (hpre : 0 < batch.numPrefills)
    (hge : batch.numDecodeTokens ≤ t) (hlt : t < batch.numActualTokens) :
    ∃ chunk ∈ batch.chunks, (chunk.tokenStart ≤ t ∧ t < chunk.tokenEnd) ∧
      tokenCandidates impl ops cache y ws (batch.build false) topkIndices x t =
        chunkCandidates impl chunk (ws chunk) x (ops.convertIndicesWorkspace topkIndices t)
          (ops.validCounts topkIndices t) := by
  have hchunks : batch.buildFp8SeparatePrefillDecode.prefill.getD [] = batch.chunks := by
    simp [Batch.buildFp8SeparatePrefillDecode, hpre]
  cases hfind : batch.chunks.find?
      (fun chunk => decide (chunk.tokenStart ≤ t ∧ t < chunk.tokenEnd)) with
  | none =>
    obtain ⟨s, hs, hmem⟩ := batch.chunks_consecutive.exists_mem hge hlt
    obtain ⟨chunk, hchunk, rfl⟩ := List.mem_map.mp hs
    exact absurd (decide_eq_true hmem) (List.find?_eq_none.mp hfind chunk hchunk)
  | some chunk =>
    have hmem := of_decide_eq_true (List.find?_some (p := fun chunk : PrefillChunk =>
      decide (chunk.tokenStart ≤ t ∧ t < chunk.tokenEnd)) hfind)
    refine ⟨chunk, List.mem_of_find?_eq_some hfind, hmem, ?_⟩
    have hdecode : ¬ t < batch.buildFp8SeparatePrefillDecode.numDecodeTokens := not_lt.mpr hge
    simp only [tokenCandidates, Batch.build, Bool.false_eq_true, if_false, hdecode, hchunks, hfind]

section Aligned
variable {impl : FlashMLASparseImpl} {ops : ExternalOps} {cache : Fp8Cache} {y : ℕ → ℕ → ℝ}
  {q : Tensor3 Scalar} {x : ℕ → ℕ → ℕ → ℝ}

/-- **The mixed batch** always returns, with the query's heads in the output and the
padded heads in the log-sum-exp, and reads as attention at the query's heads. -/
theorem mixed_returns (impl : FlashMLASparseImpl) (ops : ExternalOps) (cache : Fp8Cache)
    (hd : q.d2 = dqk) (topkIndices : ℕ → List ℤ) :
    ∃ out lse, forwardFp8KvMixedBatch impl ops cache q topkIndices = some (out, lse) ∧
      (out.d0 = q.d0 ∧ out.d1 = q.d1 ∧ out.d2 = dv) ∧
      (lse.d0 = q.d0 ∧ lse.d1 = max q.d1 impl.fp8DecodePaddedHeads) ∧
      ∀ t < q.d0, ∀ h < q.d1, ∀ x, HoldsLanes dqk (q.get t h) x →
        ∀ y, RowsDecodeTo cache y (ops.convertIndices topkIndices t) →
        ReadsAt (out.get t h) (lse.get t h)
          (cacheCandidates impl cache y x (ops.convertIndices topkIndices t)) := by
  obtain ⟨out, lse, hkernel, ⟨-, o1, o2, o3⟩, ⟨-, l1, l2⟩, hreads⟩ :=
    fp8FlashMlaKernel_eq impl cache (q := q.unsqueeze0) hd
      (fun _ t => ops.convertIndices topkIndices t)
  refine ⟨out.squeeze0, lse.squeeze0.transpose01, ?_, ⟨o1, o2, o3⟩, ⟨l2, l1⟩, hreads 0⟩
  rw [forwardFp8KvMixedBatch, hkernel]
  rfl

/-- The mixed batch is aligned exactly when no head is padded. -/
theorem mixed_aligned_iff (impl : FlashMLASparseImpl) (ops : ExternalOps)
    (hy : DecodesTo cache y) (hd : q.d2 = dqk)
    (hx : ∀ t < q.d0, ∀ h < q.d1, HoldsLanes dqk (q.get t h) (x t h)) (topkIndices : ℕ → List ℤ) :
    Aligned q.d0 q.d1
      (fun t h => cacheCandidates impl cache y (x t h) (ops.convertIndices topkIndices t))
      (forwardFp8KvMixedBatch impl ops cache q topkIndices) ↔
    impl.fp8DecodePaddedHeads ≤ q.d1 := by
  obtain ⟨out, lse, hrun, hout, ⟨l0, l1⟩, hreads⟩ := mixed_returns impl ops cache hd topkIndices
  rw [hrun]
  constructor
  · rintro ⟨out', lse', hsome, -, ⟨-, hheads⟩, -⟩
    cases hsome
    have hmax : max q.d1 impl.fp8DecodePaddedHeads = q.d1 := l1.symm.trans hheads
    omega
  · intro hpad
    refine ⟨_, _, rfl, hout, ⟨l0, l1.trans (max_eq_left hpad)⟩, ?_⟩
    intro t ht h hh
    exact hreads t ht h hh (x t h) (hx t ht h hh) y (hy.rows _)

variable (batch : Batch) (topkIndices : ℕ → List ℤ) {ws : PrefillChunk → ℕ → ℕ → ℝ}

/-- **A batch of decodes** is aligned exactly when no head is padded: otherwise the
reshape of the log-sum-exp fails. -/
theorem pureDecode_aligned_iff (hops : ops.Lawful) (hy : DecodesTo cache y)
    (h0 : q.d0 = batch.numActualTokens) (hd : q.d2 = dqk)
    (hx : ∀ t < q.d0, ∀ h < q.d1, HoldsLanes dqk (q.get t h) (x t h))
    (htokens : batch.numActualTokens ≠ 0) (hpre : batch.numPrefillTokens = 0) :
    Aligned q.d0 q.d1 (fun t h => tokenCandidates impl ops cache y ws (batch.build false)
        topkIndices (x t h) t)
      (forwardMqa impl ops cache (batch.build false) q topkIndices) ↔
    impl.fp8DecodePaddedHeads ≤ q.d1 := by
  have hdecode : q.d0 = batch.numDecodeTokens := by
    have hle := batch.numDecodeTokens_le
    rw [Batch.numPrefillTokens] at hpre
    omega
  have hpos : 0 < batch.numDecodeTokens := by omega
  obtain ⟨hfit, hnofit⟩ := fp8Decode_batch batch impl cache hops hpos hdecode hd
    (ops.convertIndicesWorkspace topkIndices)
  have hrun : forwardMqa impl ops cache (batch.build false) q topkIndices =
      fp8Decode impl ops cache batch.buildFp8SeparatePrefillDecode q
        (ops.convertIndicesWorkspace topkIndices) := if_pos ⟨hpos, hpre⟩
  rw [hrun]
  constructor
  · rintro ⟨out, lse, hsome, -⟩
    by_contra hlt
    cases (hnofit (not_le.mp hlt)).symm.trans hsome
  · intro hpad
    obtain ⟨out, lse, hsome, ⟨o0, o1, o2⟩, hlse, hreads⟩ := hfit hpad
    refine ⟨out, lse, hsome, ⟨o0, o1, o2⟩, hlse, ?_⟩
    intro t ht h hh
    have hcands : tokenCandidates impl ops cache y ws (batch.build false) topkIndices (x t h) t =
        cacheCandidates impl cache y (x t h) (ops.convertIndicesWorkspace topkIndices t) :=
      if_pos (lt_of_lt_of_eq ht hdecode)
    simp only [hcands]
    exact hreads t ht h hh (x t h) (hx t ht h hh) y (hy.rows _)

/-- **A batch with prefills** is aligned exactly when the query has the impl's own heads,
the BF16 kernel takes them, and no decode head is padded. -/
theorem prefill_aligned_iff (hops : ops.Lawful) (hy : DecodesTo cache y)
    (hws : ∀ chunk ∈ batch.chunks, ∀ i < chunkRows impl chunk,
      HoldsLanes dqk (ops.gatherAndUpconvert chunk i) (ws chunk i))
    (h0 : q.d0 = batch.numActualTokens) (hd : q.d2 = dqk)
    (hx : ∀ t < q.d0, ∀ h < q.d1, HoldsLanes dqk (q.get t h) (x t h))
    (hpre : 0 < batch.numPrefills) :
    Aligned q.d0 q.d1 (fun t h => tokenCandidates impl ops cache y ws (batch.build false)
        topkIndices (x t h) t)
      (forwardMqa impl ops cache (batch.build false) q topkIndices) ↔
    q.d1 = impl.numHeads ∧ PrefillHeads impl ∧
      (0 < batch.numDecodeTokens → impl.fp8DecodePaddedHeads ≤ q.d1) := by
  constructor
  · rintro ⟨out, lse, hsome, ⟨-, hheads, -⟩, -⟩
    obtain ⟨hpad, hprefill, hshape, -⟩ :=
      forwardSeparate_spec batch topkIndices hops h0 hd hpre hsome
    exact ⟨hheads.symm.trans hshape.outHeads, hprefill, hpad⟩
  · rintro ⟨h1, hprefill, hpad⟩
    obtain ⟨outs, hrun⟩ :=
      forwardSeparate_returns batch topkIndices impl cache hops h0 hd hpre h1 hprefill hpad
    obtain ⟨-, -, hshape, hdecode, hchunks⟩ :=
      forwardSeparate_spec batch topkIndices hops h0 hd hpre hrun
    refine ⟨outs.1, outs.2, hrun, ⟨hshape.outTokens.trans h0.symm, hshape.outHeads.trans h1.symm,
      hshape.outDim⟩, ⟨hshape.lseTokens.trans h0.symm, hshape.lseHeads.trans h1.symm⟩, ?_⟩
    intro t ht h hh
    by_cases hdec : t < batch.numDecodeTokens
    · have hcands : tokenCandidates impl ops cache y ws (batch.build false) topkIndices (x t h) t =
          cacheCandidates impl cache y (x t h) (ops.convertIndicesWorkspace topkIndices t) :=
        if_pos hdec
      simp only [hcands]
      exact hdecode t hdec h hh (x t h) (hx t ht h hh) y (hy.rows _)
    · obtain ⟨chunk, hchunk, ⟨hstart, hend⟩, hcands⟩ :=
        tokenCandidates_prefill impl ops cache y ws batch topkIndices (x t h) hpre
          (not_lt.mp hdec) (lt_of_lt_of_eq ht h0)
      have hhead : h < min q.d1 impl.numHeads := by omega
      simp only [hcands]
      exact hchunks chunk hchunk (ws chunk) (hws chunk hchunk) t hstart hend h hhead (x t h)
        (hx t ht h hh)

/-- Without tokens the separate path has no metadata to run on. -/
theorem forwardMqa_empty (htokens : batch.numActualTokens = 0) :
    forwardMqa impl ops cache (batch.build false) q topkIndices = none := by
  have hpre : ¬ 0 < batch.numPrefills := by
    rw [← batch.numPrefillTokens_pos_iff, Batch.numPrefillTokens]
    omega
  have hnone : batch.buildFp8SeparatePrefillDecode.prefill = none := if_neg hpre
  have hdec : ¬ 0 < batch.buildFp8SeparatePrefillDecode.numDecodeTokens := by
    show ¬ 0 < batch.numDecodeTokens
    have hle := batch.numDecodeTokens_le
    omega
  show forwardFp8KvSeparatePrefillDecode _ _ _ _ _ _ _ = none
  rw [forwardFp8KvSeparatePrefillDecode, if_neg (fun h => hdec h.1), decodeStep, if_neg hdec, hnone]
  rfl

end Aligned

/-- **`forward_mqa` returns an aligned output and log-sum-exp exactly when the head
counts fit**, for every number of query heads, every batch and either path. -/
theorem forward_mqa_aligned_iff (impl : FlashMLASparseImpl) {ops : ExternalOps}
    (hops : ops.Lawful) {cache : Fp8Cache} {y : ℕ → ℕ → ℝ} (hy : DecodesTo cache y) (batch : Batch)
    (ws : PrefillChunk → ℕ → ℕ → ℝ)
    (hws : ∀ chunk ∈ batch.chunks, ∀ i < chunkRows impl chunk,
      HoldsLanes dqk (ops.gatherAndUpconvert chunk i) (ws chunk i))
    {q : Tensor3 Scalar} (h0 : q.d0 = batch.numActualTokens) (hd : q.d2 = dqk)
    {x : ℕ → ℕ → ℕ → ℝ} (hx : ∀ t < q.d0, ∀ h < q.d1, HoldsLanes dqk (q.get t h) (x t h))
    (topkIndices : ℕ → List ℤ) (fp8UseMixedBatch : Bool) :
    Aligned q.d0 q.d1 (fun t h => tokenCandidates impl ops cache y ws
        (batch.build fp8UseMixedBatch) topkIndices (x t h) t)
      (forwardMqa impl ops cache (batch.build fp8UseMixedBatch) q topkIndices) ↔
    HeadsFit impl batch fp8UseMixedBatch q.d1 := by
  cases fp8UseMixedBatch with
  | true => exact mixed_aligned_iff impl ops hy hd hx topkIndices
  | false =>
    simp only [HeadsFit, Bool.false_eq_true, if_false]
    split
    · next htokens =>
      rw [forwardMqa_empty batch topkIndices htokens]
      simp [Aligned]
    · next htokens =>
      split
      · next hpre => exact pureDecode_aligned_iff batch topkIndices hops hy h0 hd hx htokens hpre
      · next hpre =>
        have hprefills := batch.numPrefillTokens_pos_iff.mp (Nat.pos_of_ne_zero hpre)
        exact prefill_aligned_iff batch topkIndices hops hy hws h0 hd hx hprefills

/-! ### A small batch -/

/-- Identity block tables, so that the index conversion changes nothing, and a workspace
of ones. -/
noncomputable def identityOps : ExternalOps where
  convertIndices := id
  convertIndicesWorkspace := id
  validCounts := fun idx t => (idx t).countP (0 ≤ ·)
  reshapeQueryForSpecDecode := fun q numDecodes =>
    if q.d0 % numDecodes = 0 then
      some ⟨numDecodes, q.d0 / numDecodes, q.d1, q.d2,
        fun b i => q.get (b * (q.d0 / numDecodes) + i)⟩
    else none
  reshapeAttnOutputForSpecDecode := fun out =>
    ⟨out.d0 * out.d1, out.d2, out.d3, fun t => out.get (t / out.d1) (t % out.d1)⟩
  gatherAndUpconvert := fun _ _ _ => fin 1
  uninit := fun _ _ _ => 0

theorem identityOps_lawful : identityOps.Lawful where
  reshapeQuery := by
    intro q numDecodes seqLen hpos h0
    have hmod : q.d0 % numDecodes = 0 := by rw [h0, Nat.mul_mod_right]
    have hdiv : q.d0 / numDecodes = seqLen := by rw [h0, Nat.mul_div_cancel_left _ hpos]
    simp only [identityOps, if_pos hmod, hdiv]
  reshapeAttnOutput := fun _ => rfl

/-- One decode of one token and one prefill of two. -/
def smallBatch : Batch where
  numDecodes := 1
  decodeQueryLen := 1
  prefillQueryLens := [2]
  prefillSeqLens := [2]
  chunkBounds := [(0, 1)]
  decodeQueryLen_pos := by decide
  prefillQueryLens_pos := by decide
  chunkBounds_consecutive := ⟨rfl, by decide, rfl⟩
  chunkBounds_nonempty := by decide

/-- An impl with the given heads. -/
noncomputable def implWithHeads (numHeads : ℕ) : FlashMLASparseImpl where
  numHeads := numHeads
  softmaxScale := 1
  capabilityFamily100 := false
  prefillWorkspaceRows := 8
  fusedEnabled := true

/-- Sixty-four heads, which neither kernel pads. -/
theorem forward_mqa_aligned_iff_sixty_four :
    Aligned 3 64 (fun t _ => tokenCandidates (implWithHeads 64) identityOps unitCache
        (fun _ d => if d < 512 then 1 else 0) (fun _ _ _ => 1) (smallBatch.build false)
        (fun _ => [-1, 0]) (fun _ => 1) t)
      (forwardMqa (implWithHeads 64) identityOps unitCache (smallBatch.build false)
        ⟨3, 64, dqk, fun _ _ _ => fin 1⟩ (fun _ => [-1, 0])) :=
  (forward_mqa_aligned_iff (implWithHeads 64) identityOps_lawful unitCache_decodesTo smallBatch
    (fun _ _ _ => 1) (fun _ _ _ _ _ _ => rfl) (q := ⟨3, 64, dqk, fun _ _ _ => fin 1⟩) rfl rfl
    (x := fun _ _ _ => 1) (fun _ _ _ _ _ _ => rfl) (fun _ => [-1, 0]) false).mpr
    ⟨rfl, Or.inl rfl, fun _ => le_rfl⟩

/-- Sixteen heads, on the mixed batch that so few heads take: the log-sum-exp keeps the
padded sixty-four. -/
theorem forward_mqa_misaligned_sixteen :
    ¬ Aligned 3 16 (fun t _ => tokenCandidates (implWithHeads 16) identityOps unitCache
        (fun _ d => if d < 512 then 1 else 0) (fun _ _ _ => 1) (smallBatch.build true)
        (fun _ => [-1, 0]) (fun _ => 1) t)
      (forwardMqa (implWithHeads 16) identityOps unitCache (smallBatch.build true)
        ⟨3, 16, dqk, fun _ _ _ => fin 1⟩ (fun _ => [-1, 0])) := by
  intro haligned
  have hpad := (mixed_aligned_iff (implWithHeads 16) identityOps
    (q := ⟨3, 16, dqk, fun _ _ _ => fin 1⟩) (x := fun _ _ _ => 1) unitCache_decodesTo rfl
    (fun _ _ _ _ _ _ => rfl) (fun _ => [-1, 0])).mp haligned
  exact absurd hpad (by decide)

end Glm52
