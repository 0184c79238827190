import Glm52.ChunkLoop
import Glm52.SubsetMerge

/-! # Attention over gathered rows

The KV rows of a token's candidates are gathered into a buffer once.  Two paths attend
over it with a sink.  The streaming path accumulates the buffer chunk by chunk, each
call with the position of its first candidate, and finishes with the sink; the matrix
path computes all scores by one product and masks them
(`matmul_sparse_mla_attention_with_sink`).  The streaming kernel cuts its loop at the
length and skips negative slots, the matrix path has a mask for both.

Whatever the chunks and the blocks, the two store the same output, unless the matrix path
works by blocks of candidates and has nothing to attend to (`gathered_matmul_agree_iff`). -/
namespace Glm52
open ExactFloat Softmax OnlineSoftmax ChunkLoop

/-! ### The streaming path, for one token -/

/-- `is_valid` of the gathered kernel: without slot ids every lane counts. -/
def slotValid (slotIds : Option (ℕ → ℤ)) (c : ℕ) : Bool :=
  match slotIds with
  | some slotIds => decide (0 ≤ slotIds c)
  | none => true

/-- `_accumulate_gathered_attention_chunk_kernel`, for one head. -/
noncomputable def accumulateGatheredAttentionChunkKernel (headDim numCandidates candidateOffset : ℕ)
    (scale : ℝ) (q : ℕ → Scalar) (kv : ℕ → ℕ → Scalar) (slotIds : Option (ℕ → ℤ)) (validLen : ℤ)
    (state : State ℕ) : State ℕ :=
  let localEff := min (numCandidates : ℤ) (max (validLen - candidateOffset) 0)
  (List.range localEff.toNat).foldl (fun (running : State ℕ) (candidateIdx : ℕ) =>
    if slotValid slotIds candidateIdx then
      push running (laneDot headDim q (kv candidateIdx) * fin scale)
        (loadMasked headDim (kv candidateIdx))
    else running) state

/-- `accumulate_gathered_sparse_mla_attention_chunk`: a program a head. -/
noncomputable def accumulateGatheredSparseMlaAttentionChunk (numHeads headDim numCandidates : ℕ)
    (q : ℕ → ℕ → Scalar) (kv : ℕ → ℕ → Scalar) (lens : ℤ) (scale : ℝ) (candidateOffset : ℕ)
    (slotIds : Option (ℕ → ℤ)) (state : ℕ → State ℕ) (h : ℕ) : State ℕ :=
  if h < numHeads then
    accumulateGatheredAttentionChunkKernel headDim numCandidates candidateOffset scale (q h) kv
      slotIds lens (state h)
  else state h

/-- A call for each chunk of the gathered buffer, with the rows and the slot ids from the
chunk's first candidate on. -/
noncomputable def accumulateGatheredChunks (numHeads headDim : ℕ) (q : ℕ → ℕ → Scalar)
    (kv : ℕ → ℕ → Scalar) (lens : ℤ) (scale : ℝ) (slotIds : Option (ℕ → ℤ)) :
    ℕ → List ℕ → (ℕ → State ℕ) → ℕ → State ℕ
  | _, [], state => state
  | candidateOffset, width :: widths, state =>
    accumulateGatheredChunks numHeads headDim q kv lens scale slotIds (candidateOffset + width)
      widths (accumulateGatheredSparseMlaAttentionChunk numHeads headDim width q
        (fun c => kv (candidateOffset + c)) lens scale candidateOffset
        (slotIds.map (fun slotIds c => slotIds (candidateOffset + c))) state)

/-- `_build_combined_decode_valid_mask_kernel`: the compressed candidates below their
length with a slot, then the window's candidates below theirs. -/
def buildCombinedDecodeValidMaskKernel (numCompressedCandidates : ℕ) (slotIds : ℕ → ℤ)
    (topkLens swaLens : ℤ) (offsets : ℕ) : Bool :=
  let isCompressed := decide (offsets < numCompressedCandidates)
  let swaOffsets : ℤ := (offsets : ℤ) - numCompressedCandidates
  let slotId := if isCompressed then slotIds offsets else -1
  let validCompressed := isCompressed && decide ((offsets : ℤ) < topkLens) && decide (0 ≤ slotId)
  let validSwa := !isCompressed && decide (swaOffsets < swaLens)
  validCompressed || validSwa

/-! ### What the streaming path computes -/

/-- The mask that the streaming kernel applies to the row. -/
def gatheredMask (slotIds : Option (ℕ → ℤ)) (lens : ℤ) (c : ℕ) : Bool :=
  decide ((c : ℤ) < lens) && slotValid slotIds c

section Stream
variable {numHeads headDim h : ℕ} {scale : ℝ} {q : ℕ → ℕ → Scalar} {kv : ℕ → ℕ → Scalar}
  {slotIds : Option (ℕ → ℤ)} {lens : ℤ}

/-- One pass of the streaming kernel, by the candidate's position in the row. -/
noncomputable def gatheredStep (headDim : ℕ) (scale : ℝ) (q : ℕ → Scalar) (kv : ℕ → ℕ → Scalar)
    (slotIds : Option (ℕ → ℤ)) (running : State ℕ) (c : ℕ) : State ℕ :=
  if slotValid slotIds c then
    push running (laneDot headDim q (kv c) * fin scale) (loadMasked headDim (kv c))
  else running

/-- The calls for the chunks are a chunked loop over the row. -/
theorem accumulateGatheredChunks_eq (hh : h < numHeads) (candidateOffset : ℕ) (widths : List ℕ)
    (state : ℕ → State ℕ) :
    accumulateGatheredChunks numHeads headDim q kv lens scale slotIds candidateOffset widths state
        h =
      chunkLoop (gatheredStep headDim scale (q h) kv slotIds) lens candidateOffset widths
        (state h) := by
  induction widths generalizing candidateOffset state with
  | nil => rfl
  | cons width widths ih =>
    rw [accumulateGatheredChunks, ih, chunkLoop]
    congr 1
    rw [accumulateGatheredSparseMlaAttentionChunk, if_pos hh]
    cases slotIds with
    | none => rfl
    | some slotIds => rfl

/-- Cutting a loop at the cap is masking by the cap. -/
theorem filterMap_localEff {γ : Type} (item : ℕ → Option γ) (n : ℕ) (cap : ℤ) :
    (List.range (localEff n 0 cap)).filterMap item =
      (List.range n).filterMap (fun c : ℕ => if (c : ℤ) < cap then item c else none) := by
  have hle : localEff n 0 cap ≤ n := by unfold localEff; omega
  obtain ⟨k, hk⟩ := Nat.exists_eq_add_of_le hle
  have hbelow : (List.range (localEff n 0 cap)).filterMap item =
      (List.range (localEff n 0 cap)).filterMap
        (fun c : ℕ => if (c : ℤ) < cap then item c else none) := by
    refine List.filterMap_congr fun c hc => ?_
    have hlt := List.mem_range.mp hc
    rw [if_pos (by unfold localEff at hlt; omega)]
  have hbeyond : ((List.range k).map (localEff n 0 cap + ·)).filterMap
      (fun c : ℕ => if (c : ℤ) < cap then item c else none) = [] := by
    rw [List.filterMap_eq_nil_iff]
    intro c hc
    obtain ⟨i, hi, rfl⟩ := List.mem_map.mp hc
    have hlt := List.mem_range.mp hi
    refine if_neg ?_
    unfold localEff at hk ⊢
    omega
  rw [hbelow]
  conv_rhs => rw [hk, List.range_add, List.filterMap_append, hbeyond, List.append_nil]

/-- **A chunked loop takes in the items below the cap**, when a pass takes in its item. -/
theorem chunkLoop_stateOf {step : State ℕ → ℕ → State ℕ} {item : ℕ → Option (Candidate (ℕ → ℝ))}
    {n : ℕ} {cap : ℤ} {widths : List ℕ}
    (hstep : ∀ c < widths.sum, (c : ℤ) < cap → ∀ l,
      step (stateOf (truncate n l)) c = stateOf (truncate n (l ++ (item c).toList)))
    (l : List (Candidate (ℕ → ℝ))) :
    chunkLoop step cap 0 widths (stateOf (truncate n l)) = stateOf (truncate n
      (l ++ (List.range widths.sum).filterMap
        (fun c : ℕ => if (c : ℤ) < cap then item c else none))) := by
  rw [chunkLoop_eq, call, ← filterMap_localEff]
  refine foldl_rep_filterMap (fun l => stateOf (truncate n l)) (fun c hc l => ?_) l
  have hlt := List.mem_range.mp hc
  unfold localEff at hlt
  rw [Nat.zero_add]
  exact hstep c (by omega) (by omega) l

/-- **The chunks of the gathered buffer** are taken in as the masked row. -/
theorem accumulateGatheredChunks_stateOf (scale : ℝ) (hdim : headDim ≤ blockD headDim)
    (hh : h < numHeads) {x : ℕ → ℝ} (hq : HoldsLanes headDim (q h) x) {y : ℕ → ℕ → ℝ}
    (widths : List ℕ)
    (hkv : ∀ c < widths.sum, gatheredMask slotIds lens c = true → HoldsLanes headDim (kv c) (y c)) :
    accumulateGatheredChunks numHeads headDim q kv lens scale slotIds 0 widths
        (fun _ => State.empty) h =
      stateOf (truncate headDim (validCandidates widths.sum (gatheredMask slotIds lens)
        (fun c => dot headDim x (y c) * scale) y)) := by
  let item := fun c => if slotValid slotIds c then
    some ((dot headDim x (y c) * scale, y c) : Candidate (ℕ → ℝ)) else none
  have hmasked : validCandidates widths.sum (gatheredMask slotIds lens)
      (fun c => dot headDim x (y c) * scale) y =
        (List.range widths.sum).filterMap
          (fun c : ℕ => if (c : ℤ) < lens then item c else none) := by
    refine List.filterMap_congr fun c _ => ?_
    unfold gatheredMask
    by_cases hc : (c : ℤ) < lens
    · rw [decide_eq_true hc, Bool.true_and, if_pos hc]
    · rw [decide_eq_false hc, Bool.false_and, if_neg hc, if_neg Bool.false_ne_true]
  rw [accumulateGatheredChunks_eq hh, hmasked, ← List.nil_append (List.filterMap _ _),
    empty_eq_stateOf headDim]
  refine chunkLoop_stateOf (fun c hlt hcap l => ?_) []
  rw [gatheredStep]
  by_cases hvalid : slotValid slotIds c = true
  · have hmask : gatheredMask slotIds lens c = true := by
      rw [gatheredMask, hvalid, Bool.and_true, decide_eq_true hcap]
    have hrow := hkv c hlt hmask
    have hitem : item c = some (dot headDim x (y c) * scale, y c) := if_pos hvalid
    rw [if_pos hvalid, hitem, laneDot_fin hdim hq hrow, fin_mul, hrow.loadMasked, push_stateOf,
      Option.toList_some, truncate_append]
    rfl
  · have hitem : item c = none := if_neg hvalid
    rw [if_neg hvalid, hitem, Option.toList_none, List.append_nil]

end Stream

/-! ### Both paths -/

theorem headDim_le_blockD {headDim : ℕ} (hle : headDim ≤ 1024) : headDim ≤ blockD headDim := by
  have hcover := le_nextPowerOfTwo headDim (by unfold maxScoreWidth; omega)
  unfold blockD
  omega

/-- The batched product of a query and a row of numbers. -/
theorem bmm_fin {headDim : ℕ} {q kv : ℕ → Scalar} {x y : ℕ → ℝ} (hq : HoldsLanes headDim q x)
    (hkv : HoldsLanes headDim kv y) :
    ((List.range headDim).map (fun d => q d * kv d)).sum = (fin (dot headDim x y) : Scalar) := by
  have hlane : ∀ d ∈ List.range headDim, q d * kv d = (fin (x d * y d) : Scalar) := by
    intro d hd
    have hlt := List.mem_range.mp hd
    rw [hq d hlt, hkv d hlt, fin_mul]
  rw [List.map_congr_left hlane, sum_map_fin]
  rfl

/-- The scores that the product leaves in the buffer. -/
theorem scoreBuffer_holds (scale : ℝ) {t : MaterializedScores} {opts : FinishOptions}
    {q : ℕ → ℕ → Scalar} {x : ℕ → ℕ → ℝ} {y : ℕ → ℕ → ℝ} {sink : ℕ → WithBot ℝ}
    (hq : ∀ h < opts.activeHeads t, HoldsLanes t.headDim (q h) (x h))
    (hkv : ∀ c < t.numCandidates, t.validTokens c = true → HoldsLanes t.headDim (t.kv c) (y c))
    (hsink : ∀ h < opts.activeHeads t, t.attnSink h = ofBot (sink h)) :
    HoldsScoresOf
      { t with
        scores := fun h c =>
          ((List.range t.headDim).map (fun d => q h d * t.kv c d)).sum * fin scale
        scoreHeads := opts.activeHeads t } opts
      (fun h c => dot t.headDim (x h) (y c) * scale) y sink := by
  refine ⟨fun h hh => ⟨fun c hc hvalid => ?_, hkv⟩, hsink⟩
  show ((List.range t.headDim).map (fun d => q h d * t.kv c d)).sum * fin scale = _
  rw [bmm_fin (hq h hh) (hkv c hc hvalid), fin_mul]

/-- The active heads fit the query and the output. -/
theorem matmul_active_le {t : MaterializedScores} {opts : FinishOptions} {q : ℕ → ℕ → Scalar}
    {scale : ℝ} {output out : ℕ → ℕ → Scalar}
    (hout : matmulSparseMlaAttentionWithSink t q scale opts output = some out) :
    opts.activeHeads t ≤ t.outputHeads := by
  rw [matmulSparseMlaAttentionWithSink] at hout
  by_cases hactiveQ : opts.activeHeads t ≤ t.scoreHeads
  · rw [if_pos hactiveQ] at hout
    exact (finishMaterialized_asserted hout).2.2.2.2.1
  · rw [if_neg hactiveQ] at hout
    cases hout

/-- **The matrix path against attention with the sink.** Any output that is attention with
the sink over the valid candidates is what the matrix path stores in its active heads, for
any blocks, except by blocks of candidates where there is nothing to attend to. -/
theorem matmul_agree_iff {t : MaterializedScores} (hpos : 0 < t.headDim) (hle : t.headDim ≤ 1024)
    {opts : FinishOptions} {q : ℕ → ℕ → Scalar} {scale : ℝ} {output out ref : ℕ → ℕ → Scalar}
    {x : ℕ → ℕ → ℝ} {y : ℕ → ℕ → ℝ} {sink : ℕ → WithBot ℝ}
    (hq : ∀ h < opts.activeHeads t, HoldsLanes t.headDim (q h) (x h))
    (hkv : ∀ c < t.numCandidates, t.validTokens c = true → HoldsLanes t.headDim (t.kv c) (y c))
    (hsink : ∀ h < opts.activeHeads t, t.attnSink h = ofBot (sink h))
    (hout : matmulSparseMlaAttentionWithSink t q scale opts output = some out)
    (href : ∀ h < opts.activeHeads t, ∀ d < t.headDim,
      ref h d = fin (attendWithSink (sinkWeight (sink h)) (validCandidates t.numCandidates
        t.validTokens (fun c => dot t.headDim (x h) (y c) * scale) y) d)) :
    (∀ h < opts.activeHeads t, ∀ d < t.headDim, out h d = ref h d) ↔
      opts.candidateBlockSize = none ∨ ∀ h < opts.activeHeads t,
        sink h ≠ ⊥ ∨ ∃ c < t.numCandidates, t.validTokens c = true := by
  have hactiveQ : opts.activeHeads t ≤ t.scoreHeads := by
    by_contra hfail
    rw [matmulSparseMlaAttentionWithSink, if_neg hfail] at hout
    cases hout
  rw [matmulSparseMlaAttentionWithSink, if_pos hactiveQ] at hout
  have hholds := scoreBuffer_holds scale hq hkv hsink
  have hmatrix : ∀ h < opts.activeHeads t, ∀ d < t.headDim, out h d = sinkOutput opts (sink h)
      (validCandidates t.numCandidates t.validTokens
        (fun c => dot t.headDim (x h) (y c) * scale) y) d := fun h hh d hd =>
    (finishMaterialized_active hholds hout hh hd).1 (opts.stores_of_le hle hd)
  -- attention with the sink is what running kernels store
  let running : FinishOptions := { opts with candidateBlockSize := none }
  have hrunning : ∀ h d, sinkOutput running (sink h) (validCandidates t.numCandidates t.validTokens
      (fun c => dot t.headDim (x h) (y c) * scale) y) d =
        fin (attendWithSink (sinkWeight (sink h)) (validCandidates t.numCandidates t.validTokens
          (fun c => dot t.headDim (x h) (y c) * scale) y) d) := by
    intro h d
    refine if_neg ?_
    rintro ⟨hsome, -⟩
    cases hsome
  have hiff := @sinkOutput_agree_iff opts running (opts.activeHeads t) t.headDim hpos sink
    (fun h => validCandidates t.numCandidates t.validTokens
      (fun c => dot t.headDim (x h) (y c) * scale) y)
  simp only [validCandidates_ne_nil, hrunning] at hiff
  have hnone : opts.candidateBlockSize.isSome = running.candidateBlockSize.isSome ↔
      opts.candidateBlockSize = none := by
    show opts.candidateBlockSize.isSome = false ↔ _
    rw [Option.isSome_eq_false_iff, Option.isNone_iff_eq_none]
  rw [hnone] at hiff
  rw [← hiff]
  refine forall₂_congr fun h hh => forall₂_congr fun d hd => ?_
  rw [hmatrix h hh d hd, href h hh d hd]

/-- The gathered rows of token `t`, as the matrix path gets them. -/
noncomputable def gatheredRows (qHeads outputHeads headDim numCandidates : ℕ)
    (kv : ℕ → ℕ → ℕ → Scalar) (lens : ℕ → ℤ) (slotIds : Option (ℕ → ℕ → ℤ))
    (attnSink : ℕ → Scalar) (t : ℕ) :
    MaterializedScores where
  scoreHeads := qHeads
  outputHeads := outputHeads
  sinkHeads := outputHeads
  headDim := headDim
  numCandidates := numCandidates
  scores := fun _ _ => 0
  kv := kv t
  validTokens := gatheredMask (slotIds.map (· t)) (lens t)
  attnSink := attnSink

/-- The streaming path over all tokens. -/
noncomputable def streamGathered (numTokens numHeads headDim : ℕ) (q kv : ℕ → ℕ → ℕ → Scalar)
    (lens : ℕ → ℤ) (slotIds : Option (ℕ → ℕ → ℤ)) (scale : ℝ) (widths : List ℕ)
    (attnSink : ℕ → Scalar) (output : ℕ → ℕ → ℕ → Scalar) : ℕ → ℕ → ℕ → Scalar :=
  finishSparseMlaAttentionWithSink numTokens numHeads headDim
    (fun t => accumulateGatheredChunks numHeads headDim (q t) (kv t) (lens t) scale
      (slotIds.map (· t)) 0 widths (fun _ => State.empty)) attnSink output

/-- **The streaming and the matrix path agree.** For every token, the streaming path, for
any chunks, computes attention with the sink over the candidates below the length with a
slot; and the matrix path over the same mask stores the same in its active heads, for
any blocks, except by blocks of candidates at a head with neither a candidate nor a
finite sink. -/
theorem gathered_matmul_agree_iff {numTokens qHeads outputHeads headDim t : ℕ} (ht : t < numTokens)
    (hpos : 0 < headDim) (hle : headDim ≤ 1024) {q kv : ℕ → ℕ → ℕ → Scalar} {lens : ℕ → ℤ}
    {slotIds : Option (ℕ → ℕ → ℤ)} {scale : ℝ} {widths : List ℕ} {attnSink : ℕ → Scalar}
    {opts : FinishOptions} {output : ℕ → ℕ → ℕ → Scalar} {out : ℕ → ℕ → Scalar}
    {x : ℕ → ℕ → ℝ} {y : ℕ → ℕ → ℝ} {sink : ℕ → WithBot ℝ}
    (hq : ∀ h < outputHeads, HoldsLanes headDim (q t h) (x h))
    (hkv : ∀ c < widths.sum, gatheredMask (slotIds.map (· t)) (lens t) c = true →
      HoldsLanes headDim (kv t c) (y c))
    (hsink : ∀ h < outputHeads, attnSink h = ofBot (sink h))
    (hout : matmulSparseMlaAttentionWithSink (gatheredRows qHeads outputHeads headDim widths.sum kv
      lens slotIds attnSink t) (q t) scale opts (output t) = some out) :
    let rows := gatheredRows qHeads outputHeads headDim widths.sum kv lens slotIds attnSink t
    let streamed := streamGathered numTokens outputHeads headDim q kv lens slotIds scale widths
      attnSink output
    (∀ h < outputHeads, ∀ d < headDim, streamed t h d = fin (attendWithSink (sinkWeight (sink h))
      (validCandidates widths.sum rows.validTokens (fun c => dot headDim (x h) (y c) * scale) y)
        d)) ∧
    ((∀ h < opts.activeHeads rows, ∀ d < headDim, out h d = streamed t h d) ↔
      opts.candidateBlockSize = none ∨ ∀ h < opts.activeHeads rows,
        sink h ≠ ⊥ ∨ ∃ c < widths.sum, rows.validTokens c = true) := by
  intro rows streamed
  have hstream : ∀ h < outputHeads, ∀ d < headDim, streamed t h d =
      fin (attendWithSink (sinkWeight (sink h)) (validCandidates widths.sum rows.validTokens
        (fun c => dot headDim (x h) (y c) * scale) y) d) := by
    intro h hh d hd
    have hstate := accumulateGatheredChunks_stateOf scale (headDim_le_blockD hle) hh (hq h hh)
      widths hkv
    simp only [streamed, streamGathered, finishSparseMlaAttentionWithSink]
    rw [launchTokenHeads_lt ht hh hd, hstate, hsink h hh, finishWithSink_stateOf_eq,
      attendWithSink_truncate hd]
    rfl
  have hactive : opts.activeHeads rows ≤ outputHeads := matmul_active_le hout
  refine ⟨hstream, matmul_agree_iff hpos hle (fun h hh => hq h (lt_of_lt_of_le hh hactive)) hkv
    (fun h hh => hsink h (lt_of_lt_of_le hh hactive)) hout ?_⟩
  exact fun h hh d hd => hstream h (lt_of_lt_of_le hh hactive) d hd

/-- Two chunks of one row, the second beyond the length, against blocks of heads. -/
theorem gathered_matmul_agree_iff_one :
    ∃ out, matmulSparseMlaAttentionWithSink (gatheredRows 1 1 2 2 (fun _ _ _ => fin 1)
        (fun _ => 1) none (fun _ => fin 0) 0) (fun _ _ => fin 1) 1 ⟨none, 1, none, none⟩
        (fun _ _ => nan) = some out ∧
      out 0 1 = streamGathered 1 1 2 (fun _ _ _ => fin 1) (fun _ _ _ => fin 1) (fun _ => 1) none 1
        [1, 1] (fun _ => fin 0) (fun _ _ _ => nan) 0 0 1 := by
  refine ⟨_, rfl, ?_⟩
  have hagree := @gathered_matmul_agree_iff 1 1 1 2 0 Nat.one_pos (by decide) (by decide)
    (fun _ _ _ => fin 1) (fun _ _ _ => fin 1) (fun _ => 1) none 1 [1, 1] (fun _ => fin 0)
    ⟨none, 1, none, none⟩ (fun _ _ _ => nan) _ (fun _ _ => 1) (fun _ _ => 1)
    (fun _ => ((0 : ℝ) : WithBot ℝ)) (fun _ _ _ _ => rfl) (fun _ _ _ _ _ => rfl) (fun _ _ => rfl)
    rfl
  exact hagree.2.mpr (Or.inl rfl) 0 (by decide) 1 (by decide)

end Glm52
