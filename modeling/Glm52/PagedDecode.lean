import Glm52.GatheredAttention
import Glm52.PagedFp8ds

/-! # Decode attention over paged caches

A decode token attends to two groups of keys: the compressed keys that an index row names
by global slot ids, and the last `gather_len` keys of its sequence, found through a block
table.  Each group lies in a paged cache of its own.

There are four ways to the output.  One kernel runs through both groups and finishes with
the sink (`fp8dsGlobalPaged..WithSink`); the groups are accumulated chunk by chunk, either
into one state or into two that are merged with the sink at the end; or the rows are
gathered, a combined mask is built, and the matrix path is taken.  All four compute
attention with the sink over the same candidates (`decode_paths_agree`), and a window
that is found through a block table is a list of global slots (`paged_eq_globalSlots`).

The one-head kernels of the chunked paths are behind autotuners, with the width of the chunk
as the key, and update the state in place: they want their widths tuned. -/
namespace Glm52
open Autotune ExactFloat Softmax OnlineSoftmax ChunkLoop

/-! ### The kernels, for one token and head -/

/-- Take in the row of a token: its score, and its lanes. -/
noncomputable def pushRow (cache : PagedCache) (scale : ℝ) (q : ℕ → Scalar) (running : State ℕ)
    (block posInBlock : ℤ) : State ℕ :=
  let kv := cache.row block posInBlock
  push running (laneDot headDim512 q kv * fin scale) kv

/-- One pass over a global slot: a negative slot is skipped. -/
noncomputable def globalSlotStep (cache : PagedCache) (scale : ℝ) (q : ℕ → Scalar)
    (running : State ℕ) (slotId : ℤ) : State ℕ :=
  if 0 ≤ slotId then
    pushRow cache scale q running (slotId.tdiv cache.cacheBlockSize)
      (slotId.tmod cache.cacheBlockSize)
  else running

/-- One pass over position `pos` of the sequence. -/
noncomputable def pagedStep (cache : PagedCache) (scale : ℝ) (q : ℕ → Scalar) (blockTable : ℤ → ℤ)
    (running : State ℕ) (pos : ℤ) : State ℕ :=
  let blockInSeq := pos.tdiv cache.cacheBlockSize
  let posInBlock := pos.tmod cache.cacheBlockSize
  pushRow cache scale q running (blockTable blockInSeq) posInBlock

/-- `_accumulate_fp8ds_global_slots_attention_chunk_kernel`, and a lane of its multihead
form. -/
noncomputable def accumulateFp8dsGlobalSlotsAttentionChunkKernel (cache : PagedCache) (scale : ℝ)
    (q : ℕ → Scalar) (slotIds : ℕ → ℤ) (numCandidates candidateOffset : ℕ) (validLen : ℤ)
    (state : State ℕ) : State ℕ :=
  let localEff := min (numCandidates : ℤ) (max (validLen - candidateOffset) 0)
  (List.range localEff.toNat).foldl (fun (running : State ℕ) (candidateIdx : ℕ) =>
    globalSlotStep cache scale q running (slotIds candidateIdx)) state

/-- `_accumulate_fp8ds_paged_attention_chunk_kernel`, and a lane of its multihead form. -/
noncomputable def accumulateFp8dsPagedAttentionChunkKernel (cache : PagedCache) (scale : ℝ)
    (q : ℕ → Scalar) (seqLen gatherLen : ℤ) (blockTable : ℤ → ℤ)
    (numCandidates candidateOffset : ℕ) (state : State ℕ) : State ℕ :=
  let startPos := seqLen - gatherLen
  let localEff := min (numCandidates : ℤ) (max (gatherLen - candidateOffset) 0)
  (List.range localEff.toNat).foldl (fun (running : State ℕ) (candidateIdx : ℕ) =>
    pagedStep cache scale q blockTable running
      (startPos + (candidateOffset + candidateIdx : ℕ))) state

/-- The end of both kernels with a sink: like the finish kernel, without the guard on the
accumulator. -/
noncomputable def finishRunningWithSink (running : State ℕ) (sink : Scalar) (d : ℕ) : Scalar :=
  let hasTokens := lt 0 running.denom
  let hasSink := lt negInf sink
  let validMax := if hasTokens then running.maxScore else negInf
  let validSink := if hasSink then sink else negInf
  let mergeMax := maximum validMax validSink
  let hasAny := hasTokens || hasSink
  let safeMergeMax := if hasAny then mergeMax else 0
  let safeRunningMax := if hasTokens then running.maxScore else safeMergeMax
  let safeSink := if hasSink then sink else safeMergeMax
  let subsetScale := if hasTokens then exp (safeRunningMax - safeMergeMax) else 0
  let sinkWeight := if hasSink then exp (safeSink - safeMergeMax) else 0
  let totalWeight := running.denom * subsetScale + sinkWeight
  let invTotal := if lt 0 totalWeight then fin 1 / totalWeight else 0
  running.acc d * subsetScale * invTotal

/-- `_fp8ds_paged_attention_with_sink_multihead_kernel`. -/
noncomputable def fp8dsPagedAttentionWithSinkKernel (cache : PagedCache) (scale : ℝ)
    (q : ℕ → Scalar) (seqLen gatherLen : ℤ) (blockTable : ℤ → ℤ)
    (candidateOffset numCandidates : ℕ) (sink : Scalar) (d : ℕ) : Scalar :=
  finishRunningWithSink
    (accumulateFp8dsPagedAttentionChunkKernel cache scale q seqLen gatherLen blockTable
      numCandidates candidateOffset State.empty) sink d

/-- The compressed keys of a token: their cache, the index row and the length. -/
structure CompressedKeys where
  cache : PagedCache
  slotIds : ℕ → ℤ
  topkLen : ℤ
  numCandidates : ℕ

/-- The window of a token: its cache, the sequence length, how many of its last keys are
attended to, and the row of the block table. -/
structure WindowKeys where
  cache : PagedCache
  seqLen : ℤ
  gatherLen : ℤ
  blockTable : ℤ → ℤ
  numCandidates : ℕ

/-- `_fp8ds_global_paged_attention_with_sink_multihead_kernel`: the loops test every
candidate against its length. -/
noncomputable def fp8dsGlobalPagedAttentionWithSinkKernel (compressed : CompressedKeys)
    (swa : WindowKeys) (scale : ℝ) (q : ℕ → Scalar) (sink : Scalar) (d : ℕ) : Scalar :=
  let compressedState := (List.range compressed.numCandidates).foldl
    (fun (running : State ℕ) (candidateIdx : ℕ) =>
      let slotId := compressed.slotIds candidateIdx
      if (candidateIdx : ℤ) < compressed.topkLen ∧ 0 ≤ slotId then
        pushRow compressed.cache scale q running (slotId.tdiv compressed.cache.cacheBlockSize)
          (slotId.tmod compressed.cache.cacheBlockSize)
      else running) State.empty
  let startPos := swa.seqLen - swa.gatherLen
  let running := (List.range swa.numCandidates).foldl
    (fun (running : State ℕ) (candidateIdx : ℕ) =>
      if (candidateIdx : ℤ) < swa.gatherLen then
        pagedStep swa.cache scale q swa.blockTable running (startPos + candidateIdx)
      else running) compressedState
  finishRunningWithSink running sink d

/-! ### The wrappers, for one token -/

/-- A launch over heads that updates the states: one head a program, by a kernel that an
autotuner runs with `num_candidates` as its key, or a block of them. -/
noncomputable def launchStates (headBlockSize : Option ℕ) (tuner : Tuner ℕ)
    (numCandidates numHeads : ℕ) (lane : ℕ → State ℕ → State ℕ) (state : ℕ → State ℕ) :
    ℕ → State ℕ :=
  match headBlockSize with
  | none =>
    tuner.call numCandidates (fun state h => if h < numHeads then lane h (state h) else state h)
      state
  | some headBlock => fun h => if InGrid headBlock numHeads h then lane h (state h) else state h

/-- `accumulate_fp8ds_global_slots_sparse_mla_attention_chunk`, and its multihead form for
a head block. -/
noncomputable def accumulateFp8dsGlobalSlotsSparseMlaAttentionChunk (headBlockSize : Option ℕ)
    (tuner : Tuner ℕ) (numHeads : ℕ) (cache : PagedCache) (scale : ℝ) (q : ℕ → ℕ → Scalar)
    (slotIds : ℕ → ℤ) (lens : ℤ) (numCandidates candidateOffset : ℕ) (state : ℕ → State ℕ) :
    ℕ → State ℕ :=
  launchStates headBlockSize tuner numCandidates numHeads
    (fun h => accumulateFp8dsGlobalSlotsAttentionChunkKernel cache scale (q h) slotIds numCandidates
      candidateOffset lens) state

/-- `accumulate_fp8ds_paged_sparse_mla_attention_chunk`, and its multihead form for a head
block. -/
noncomputable def accumulateFp8dsPagedSparseMlaAttentionChunk (headBlockSize : Option ℕ)
    (tuner : Tuner ℕ) (numHeads : ℕ) (cache : PagedCache) (scale : ℝ) (q : ℕ → ℕ → Scalar)
    (seqLen gatherLen : ℤ) (blockTable : ℤ → ℤ) (candidateOffset numCandidates : ℕ)
    (state : ℕ → State ℕ) : ℕ → State ℕ :=
  launchStates headBlockSize tuner numCandidates numHeads
    (fun h => accumulateFp8dsPagedAttentionChunkKernel cache scale (q h) seqLen gatherLen blockTable
      numCandidates candidateOffset) state

/-- What the kernels with a sink are launched with: the heads of the query, of the output
and of the sink, and the keyword arguments. -/
structure SinkLaunch where
  qHeads : ℕ
  outputHeads : ℕ
  sinkHeads : ℕ
  headBlockSize : ℕ
  numHeads : Option ℕ

namespace SinkLaunch
variable (launch : SinkLaunch)

def activeHeads : ℕ := launch.numHeads.getD launch.outputHeads

/-- The asserted sizes. -/
def Asserted : Prop :=
  launch.headBlockSize ∈ [1, 2, 4] ∧ launch.activeHeads ≤ launch.qHeads ∧
    launch.activeHeads ≤ launch.outputHeads ∧ launch.activeHeads ≤ launch.sinkHeads

instance : Decidable launch.Asserted := inferInstanceAs (Decidable (_ ∧ _))

/-- The output after a launch over blocks of heads: further heads keep what they held. -/
noncomputable def store (lane output : ℕ → ℕ → Scalar) : Option (ℕ → ℕ → Scalar) :=
  if launch.Asserted then
    some (fun h d => if InGrid launch.headBlockSize launch.activeHeads h ∧ d < blockD headDim512 ∧
      d < headDim512 then lane h d else output h d)
  else none

end SinkLaunch

/-- `fp8ds_paged_sparse_mla_attention_with_sink_multihead`. -/
noncomputable def fp8dsPagedSparseMlaAttentionWithSinkMultihead (launch : SinkLaunch)
    (cache : PagedCache) (scale : ℝ) (q : ℕ → ℕ → Scalar) (seqLen gatherLen : ℤ)
    (blockTable : ℤ → ℤ) (candidateOffset numCandidates : ℕ) (attnSink : ℕ → Scalar)
    (output : ℕ → ℕ → Scalar) : Option (ℕ → ℕ → Scalar) :=
  launch.store (fun h => fp8dsPagedAttentionWithSinkKernel cache scale (q h) seqLen gatherLen
    blockTable candidateOffset numCandidates (attnSink h)) output

/-- `fp8ds_global_paged_sparse_mla_attention_with_sink_multihead`. -/
noncomputable def fp8dsGlobalPagedSparseMlaAttentionWithSinkMultihead (launch : SinkLaunch)
    (compressed : CompressedKeys) (swa : WindowKeys) (scale : ℝ) (q : ℕ → ℕ → Scalar)
    (attnSink : ℕ → Scalar) (output : ℕ → ℕ → Scalar) : Option (ℕ → ℕ → Scalar) :=
  launch.store (fun h => fp8dsGlobalPagedAttentionWithSinkKernel compressed swa scale (q h)
    (attnSink h)) output

/-! ### Chunks -/

/-- The autotuner of a one-head kernel behind a call; the multihead form has none. -/
def tunerBehindLaunch (headBlockSize : Option ℕ) (tuner : Tuner ℕ) (width : ℕ) : Tuner ℕ :=
  match headBlockSize with
  | none => tuner.after width
  | some _ => tuner

/-- A call for each chunk of the index row, with the slots from the chunk's first one on. -/
noncomputable def accumulateGlobalChunks (headBlockSize : Option ℕ) (numHeads : ℕ)
    (cache : PagedCache) (scale : ℝ) (q : ℕ → ℕ → Scalar) (slotIds : ℕ → ℤ) (lens : ℤ) :
    Tuner ℕ → ℕ → List ℕ → (ℕ → State ℕ) → ℕ → State ℕ
  | _, _, [], state => state
  | tuner, candidateOffset, width :: widths, state =>
    accumulateGlobalChunks headBlockSize numHeads cache scale q slotIds lens
      (tunerBehindLaunch headBlockSize tuner width) (candidateOffset + width) widths
      (accumulateFp8dsGlobalSlotsSparseMlaAttentionChunk headBlockSize tuner numHeads cache scale q
        (fun c => slotIds (candidateOffset + c)) lens width candidateOffset state)

/-- A call for each chunk of the window. -/
noncomputable def accumulatePagedChunks (headBlockSize : Option ℕ) (numHeads : ℕ)
    (cache : PagedCache) (scale : ℝ) (q : ℕ → ℕ → Scalar) (seqLen gatherLen : ℤ)
    (blockTable : ℤ → ℤ) : Tuner ℕ → ℕ → List ℕ → (ℕ → State ℕ) → ℕ → State ℕ
  | _, _, [], state => state
  | tuner, candidateOffset, width :: widths, state =>
    accumulatePagedChunks headBlockSize numHeads cache scale q seqLen gatherLen blockTable
      (tunerBehindLaunch headBlockSize tuner width) (candidateOffset + width) widths
      (accumulateFp8dsPagedSparseMlaAttentionChunk headBlockSize tuner numHeads cache scale q seqLen
        gatherLen blockTable candidateOffset width state)

/-- What runs a launch: its autotuner, or for the multihead form one run a call. -/
def launchTuner (headBlockSize : Option ℕ) (tuner : Tuner ℕ) : Tuner ℕ :=
  match headBlockSize with
  | none => tuner
  | some _ => Tuner.warm

theorem launchTuner_behind (headBlockSize : Option ℕ) (tuner : Tuner ℕ) (width : ℕ) :
    launchTuner headBlockSize (tunerBehindLaunch headBlockSize tuner width) =
      (launchTuner headBlockSize tuner).after width := by
  cases headBlockSize with
  | none => rfl
  | some _ => rfl

theorem launchTuner_tuned {headBlockSize : Option ℕ} {tuner : Tuner ℕ} {widths : List ℕ}
    (h : headBlockSize = none → ∀ width ∈ widths, tuner.tuned width = true) :
    ∀ width ∈ widths, (launchTuner headBlockSize tuner).tuned width = true := by
  cases headBlockSize with
  | none => exact h rfl
  | some _ => exact fun _ _ => rfl

/-- A launch updates every head, as often as it runs. -/
theorem launchStates_lt {headBlockSize : Option ℕ} (hblock : headBlockSize ≠ some 0)
    (tuner : Tuner ℕ) (numCandidates : ℕ) {numHeads h : ℕ} (hh : h < numHeads)
    (lane : ℕ → State ℕ → State ℕ) (state : ℕ → State ℕ) :
    launchStates headBlockSize tuner numCandidates numHeads lane state h =
      (launchTuner headBlockSize tuner).call numCandidates (lane h) (state h) := by
  cases headBlockSize with
  | none =>
    exact (Tuner.call_apply _ _ (· < numHeads) lane (fun _ _ => rfl) state h).trans (if_pos hh)
  | some headBlock =>
    have hpos : 0 < headBlock := by
      refine Nat.pos_of_ne_zero ?_
      rintro rfl
      exact hblock rfl
    have hrun : (launchTuner (some headBlock) tuner).call numCandidates (lane h) (state h) =
        lane h (state h) := Tuner.call_of_tuned rfl _ _
    rw [hrun]
    exact if_pos ((inGrid_iff hpos).mpr hh)

section Chunks
variable {headBlockSize : Option ℕ} (hblock : headBlockSize ≠ some 0) {numHeads h : ℕ}
  (hh : h < numHeads) (cache : PagedCache) (scale : ℝ) (q : ℕ → ℕ → Scalar)
include hblock hh

theorem accumulateGlobalChunks_eq (slotIds : ℕ → ℤ) (lens : ℤ) (tuner : Tuner ℕ)
    (candidateOffset : ℕ) (widths : List ℕ) (state : ℕ → State ℕ) :
    accumulateGlobalChunks headBlockSize numHeads cache scale q slotIds lens tuner candidateOffset
        widths state h =
      tunedLoop (fun running c => globalSlotStep cache scale (q h) running (slotIds c)) lens
        (launchTuner headBlockSize tuner) candidateOffset widths (state h) := by
  induction widths generalizing tuner candidateOffset state with
  | nil => rfl
  | cons width widths ih =>
    rw [accumulateGlobalChunks, ih, tunedLoop, launchTuner_behind]
    congr 1
    exact launchStates_lt hblock tuner width hh _ _

theorem accumulatePagedChunks_eq (seqLen gatherLen : ℤ) (blockTable : ℤ → ℤ) (tuner : Tuner ℕ)
    (candidateOffset : ℕ) (widths : List ℕ) (state : ℕ → State ℕ) :
    accumulatePagedChunks headBlockSize numHeads cache scale q seqLen gatherLen blockTable tuner
        candidateOffset widths state h =
      tunedLoop (fun running c => pagedStep cache scale (q h) blockTable running
        (seqLen - gatherLen + (c : ℕ))) gatherLen (launchTuner headBlockSize tuner) candidateOffset
        widths (state h) := by
  induction widths generalizing tuner candidateOffset state with
  | nil => rfl
  | cons width widths ih =>
    rw [accumulatePagedChunks, ih, tunedLoop, launchTuner_behind]
    congr 1
    exact launchStates_lt hblock tuner width hh _ _

end Chunks

/-! ### The candidates -/

/-- The candidate that a row stands for. -/
noncomputable def rowCandidate (scale : ℝ) (x : ℕ → ℝ) (row : ℕ → ℝ) : Candidate (ℕ → ℝ) :=
  (dot headDim512 x row * scale, row)

/-- The numbers in the row of a slot, for rows `y` by page and position. -/
def slotRow (cache : PagedCache) (y : ℤ → ℤ → ℕ → ℝ) (slotId : ℤ) : ℕ → ℝ :=
  y (slotId.tdiv cache.cacheBlockSize) (slotId.tmod cache.cacheBlockSize)

/-- The numbers in the row of a position of the sequence. -/
def pageRow (cache : PagedCache) (blockTable : ℤ → ℤ) (y : ℤ → ℤ → ℕ → ℝ) (pos : ℤ) : ℕ → ℝ :=
  y (blockTable (pos.tdiv cache.cacheBlockSize)) (pos.tmod cache.cacheBlockSize)

namespace CompressedKeys
variable (keys : CompressedKeys) (scale : ℝ) (x : ℕ → ℝ) (y : ℤ → ℤ → ℕ → ℝ)

/-- The candidate of an entry of the index row. -/
noncomputable def item (c : ℕ) : Option (Candidate (ℕ → ℝ)) :=
  if 0 ≤ keys.slotIds c then some (rowCandidate scale x (slotRow keys.cache y (keys.slotIds c)))
  else none

/-- The candidates of the index row: the slots below the length. -/
noncomputable def candidates : List (Candidate (ℕ → ℝ)) :=
  (List.range keys.numCandidates).filterMap
    (fun c : ℕ => if (c : ℤ) < keys.topkLen then keys.item scale x y c else none)

/-- The rows that are read hold numbers. -/
def Holds : Prop :=
  ∀ c < keys.numCandidates, (c : ℤ) < keys.topkLen → 0 ≤ keys.slotIds c →
    HoldsLanes headDim512 (keys.cache.row ((keys.slotIds c).tdiv keys.cache.cacheBlockSize)
      ((keys.slotIds c).tmod keys.cache.cacheBlockSize)) (slotRow keys.cache y (keys.slotIds c))

end CompressedKeys

namespace WindowKeys
variable (keys : WindowKeys) (scale : ℝ) (x : ℕ → ℝ) (y : ℤ → ℤ → ℕ → ℝ)

/-- Position `c` of the window in the sequence. -/
def pos (c : ℕ) : ℤ := keys.seqLen - keys.gatherLen + c

/-- The candidates of the window. -/
noncomputable def candidates : List (Candidate (ℕ → ℝ)) :=
  (List.range keys.numCandidates).filterMap (fun c : ℕ => if (c : ℤ) < keys.gatherLen then
    some (rowCandidate scale x (pageRow keys.cache keys.blockTable y (keys.pos c))) else none)

/-- The rows that are read hold numbers. -/
def Holds : Prop :=
  ∀ c < keys.numCandidates, (c : ℤ) < keys.gatherLen →
    HoldsLanes headDim512 (keys.cache.row
      (keys.blockTable ((keys.pos c).tdiv keys.cache.cacheBlockSize))
      ((keys.pos c).tmod keys.cache.cacheBlockSize))
      (pageRow keys.cache keys.blockTable y (keys.pos c))

end WindowKeys

/-! ### What the loops take in -/

section Loops
variable {scale : ℝ} {q : ℕ → Scalar} {x : ℕ → ℝ} (hq : HoldsLanes headDim512 q x)
include hq

omit hq in
/-- The lanes of a row that holds numbers. -/
theorem PagedCache.row_eq {cache : PagedCache} {block posInBlock : ℤ} {row : ℕ → ℝ}
    (hrow : HoldsLanes headDim512 (cache.row block posInBlock) row) :
    cache.row block posInBlock = fun d => fin (if d < headDim512 then row d else 0) := by
  funext d
  by_cases hd : d < headDim512
  · rw [if_pos hd, hrow d hd]
  · have hmask : decide (d < headDim512) = false := decide_eq_false hd
    simp only [PagedCache.row, hmask, if_neg hd, Bool.false_eq_true, if_false, zero_def]

/-- **One row.** -/
theorem pushRow_stateOf {cache : PagedCache} {block posInBlock : ℤ} {row : ℕ → ℝ}
    (hrow : HoldsLanes headDim512 (cache.row block posInBlock) row)
    (l : List (Candidate (ℕ → ℝ))) :
    pushRow cache scale q (stateOf (truncate headDim512 l)) block posInBlock =
      stateOf (truncate headDim512 (l ++ [rowCandidate scale x row])) := by
  unfold pushRow
  dsimp only
  rw [laneDot_fin (headDim_le_blockD (by decide)) hq hrow, fin_mul, PagedCache.row_eq hrow,
    push_stateOf, truncate_append]
  rfl

/-- **The index row**, chunk by chunk. -/
theorem globalChunks_stateOf {keys : CompressedKeys} {y : ℤ → ℤ → ℕ → ℝ} (hrows : keys.Holds y)
    {widths : List ℕ} (hwidths : widths.sum = keys.numCandidates)
    (l : List (Candidate (ℕ → ℝ))) :
    chunkLoop (fun running c => globalSlotStep keys.cache scale q running (keys.slotIds c))
        keys.topkLen 0 widths (stateOf (truncate headDim512 l)) =
      stateOf (truncate headDim512 (l ++ keys.candidates scale x y)) := by
  rw [CompressedKeys.candidates, ← hwidths]
  refine chunkLoop_stateOf (fun c hlt hcap l => ?_) l
  rw [hwidths] at hlt
  unfold globalSlotStep CompressedKeys.item
  by_cases hslot : 0 ≤ keys.slotIds c
  · rw [if_pos hslot, if_pos hslot, pushRow_stateOf hq (hrows c hlt hcap hslot),
      Option.toList_some]
  · rw [if_neg hslot, if_neg hslot, Option.toList_none, List.append_nil]

/-- **The window**, chunk by chunk. -/
theorem pagedChunks_stateOf {keys : WindowKeys} {y : ℤ → ℤ → ℕ → ℝ} (hrows : keys.Holds y)
    {widths : List ℕ} (hwidths : widths.sum = keys.numCandidates)
    (l : List (Candidate (ℕ → ℝ))) :
    chunkLoop (fun running c => pagedStep keys.cache scale q keys.blockTable running
        (keys.seqLen - keys.gatherLen + (c : ℕ))) keys.gatherLen 0 widths
        (stateOf (truncate headDim512 l)) =
      stateOf (truncate headDim512 (l ++ keys.candidates scale x y)) := by
  rw [WindowKeys.candidates, ← hwidths]
  refine chunkLoop_stateOf (fun c hlt hcap l => ?_) l
  rw [hwidths] at hlt
  exact pushRow_stateOf hq (hrows c hlt hcap) l

/-- **The kernel over both groups** takes in the candidates of the index row, then those of
the window. -/
theorem fusedLoops_stateOf {compressed : CompressedKeys} {swa : WindowKeys}
    {yC yW : ℤ → ℤ → ℕ → ℝ} (hC : compressed.Holds yC) (hW : swa.Holds yW) :
    (List.range swa.numCandidates).foldl
        (fun (running : State ℕ) (candidateIdx : ℕ) =>
          if (candidateIdx : ℤ) < swa.gatherLen then
            pagedStep swa.cache scale q swa.blockTable running
              (swa.seqLen - swa.gatherLen + candidateIdx)
          else running)
        ((List.range compressed.numCandidates).foldl
          (fun (running : State ℕ) (candidateIdx : ℕ) =>
            if (candidateIdx : ℤ) < compressed.topkLen ∧ 0 ≤ compressed.slotIds candidateIdx then
              pushRow compressed.cache scale q running
                ((compressed.slotIds candidateIdx).tdiv compressed.cache.cacheBlockSize)
                ((compressed.slotIds candidateIdx).tmod compressed.cache.cacheBlockSize)
            else running) State.empty) =
      stateOf (truncate headDim512
        (compressed.candidates scale x yC ++ swa.candidates scale x yW)) := by
  have hfirst : (List.range compressed.numCandidates).foldl
      (fun (running : State ℕ) (candidateIdx : ℕ) =>
        if (candidateIdx : ℤ) < compressed.topkLen ∧ 0 ≤ compressed.slotIds candidateIdx then
          pushRow compressed.cache scale q running
            ((compressed.slotIds candidateIdx).tdiv compressed.cache.cacheBlockSize)
            ((compressed.slotIds candidateIdx).tmod compressed.cache.cacheBlockSize)
        else running) (stateOf (truncate headDim512 [])) =
      stateOf (truncate headDim512 ([] ++ compressed.candidates scale x yC)) := by
    refine foldl_rep_filterMap (fun l => stateOf (truncate headDim512 l)) (fun c hc l => ?_) []
    have hlt := List.mem_range.mp hc
    unfold CompressedKeys.item
    by_cases hcap : (c : ℤ) < compressed.topkLen
    · by_cases hslot : 0 ≤ compressed.slotIds c
      · rw [if_pos ⟨hcap, hslot⟩, if_pos hcap, if_pos hslot,
          pushRow_stateOf hq (hC c hlt hcap hslot), Option.toList_some]
      · rw [if_neg (fun hboth => hslot hboth.2), if_pos hcap, if_neg hslot, Option.toList_none,
          List.append_nil]
    · rw [if_neg (fun hboth => hcap hboth.1), if_neg hcap, Option.toList_none, List.append_nil]
  rw [List.nil_append] at hfirst
  rw [empty_eq_stateOf headDim512, hfirst]
  refine foldl_rep_filterMap (fun l => stateOf (truncate headDim512 l)) (fun c hc l => ?_) _
  have hlt := List.mem_range.mp hc
  by_cases hcap : (c : ℤ) < swa.gatherLen
  · rw [if_pos hcap, if_pos hcap, Option.toList_some]
    exact pushRow_stateOf hq (hW c hlt hcap) l
  · rw [if_neg hcap, if_neg hcap, Option.toList_none, List.append_nil]

end Loops

/-- The end of the kernels with a sink. -/
theorem finishRunningWithSink_stateOf (l : List (Candidate (ℕ → ℝ))) (sink : WithBot ℝ) (d : ℕ) :
    finishRunningWithSink (stateOf l) (ofBot sink) d =
      fin (attendWithSink (sinkWeight sink) l d) := by
  have hguard : (if lt 0 (stateOf l).denom then (stateOf l).acc d else 0) = (stateOf l).acc d := by
    rw [lt_zero_denom]
    by_cases hl : l = []
    · subst hl
      simp [State.empty]
    · rw [decide_eq_true hl, if_pos rfl]
  rw [← finishWithSink_stateOf_eq]
  simp only [finishAttentionStateWithSinkKernel, hguard]
  rfl

theorem SinkLaunch.asserted_of_store {launch : SinkLaunch} {lane output out : ℕ → ℕ → Scalar}
    (hout : launch.store lane output = some out) : launch.Asserted := by
  by_contra hfail
  rw [SinkLaunch.store, if_neg hfail] at hout
  cases hout

/-- A launch over blocks of heads stores the active heads. -/
theorem SinkLaunch.store_active {launch : SinkLaunch} {lane output out : ℕ → ℕ → Scalar}
    (hout : launch.store lane output = some out) {h : ℕ} (hh : h < launch.activeHeads) {d : ℕ}
    (hd : d < headDim512) : out h d = lane h d := by
  have hasserted := SinkLaunch.asserted_of_store hout
  have hpos : 0 < launch.headBlockSize := pos_of_mem_sizes hasserted.1 (by decide)
  have hblock : d < blockD headDim512 := lt_of_lt_of_le hd (headDim_le_blockD (by decide))
  rw [SinkLaunch.store, if_pos hasserted] at hout
  rw [← Option.some.inj hout]
  exact if_pos ⟨(inGrid_iff hpos).mpr hh, hblock, hd⟩

/-! ### A cache of ones -/

/-- Pages of one token each: every e4m3 value and every scale is one, every bfloat16 value
zero. -/
def unitPages : PagedCache where
  cacheBlockSize := 1
  blockStride := 584
  byte := fun a => if a % 584 < 448 then 0x38#8 else if a % 584 < 576 then 0#8 else 127#8

/-- The values of its rows. -/
def unitRow (d : ℕ) : ℝ := if d < 448 then 1 else 0

theorem unitPages_row (block : ℤ) : HoldsLanes headDim512 (unitPages.row block 0) unitRow := by
  intro d hd
  have hfp8 : float8e4nv 0x38#8 = fin 1 := by
    simp [float8e4nv, fieldsValue, show (56#8).msb = false by decide]
  have hscale : PagedCache.dequantScale 127#8 = fin 1 := by simp [PagedCache.dequantScale]
  have hrope : bfloat16 (0#8 ++ 0#8) = fin 0 := by
    simp [bfloat16, float32, fieldsValue]
  have hdata : ∀ o : ℕ, o < 448 → unitPages.byte (block * 584 + o) = 0x38#8 := by
    intro o ho
    exact if_pos (by omega)
  have hmiddle : ∀ o : ℕ, 448 ≤ o → o < 576 → unitPages.byte (block * 584 + o) = 0#8 := by
    intro o hle ho
    refine (if_neg (by omega)).trans (if_pos (by omega))
  have hexponent : ∀ o : ℕ, 576 ≤ o → o < 584 → unitPages.byte (block * 584 + o) = 127#8 := by
    intro o hle ho
    refine (if_neg (by omega)).trans (if_neg (by omega))
  have hptr : unitPages.tokenDataPtr block 0 = block * 584 := by
    simp [PagedCache.tokenDataPtr, unitPages]
  have hscalePtr : unitPages.tokenScalePtr block 0 = block * 584 + (576 : ℕ) := by
    simp [PagedCache.tokenScalePtr, unitPages, tokenDataSize, tokenFp8Dim, tokenBf16Dim]
  unfold headDim512 at hd
  unfold PagedCache.row unitRow
  rw [hptr, hscalePtr]
  by_cases hnope : d < 448
  · have hvalue := hdata d hnope
    have hexp := hexponent (576 + d / 64) (by omega) (by omega)
    push_cast [← add_assoc] at hexp
    simp [tokenFp8Dim, headDim512, quantBlockSize, hnope, hd, hvalue, hexp, hfp8, hscale, toScalar,
      ExactFloat.map]
  · obtain ⟨e, rfl⟩ := Nat.exists_eq_add_of_le (not_lt.mp hnope)
    have hrope' : ∀ o < 128, unitPages.byte (block * 584 + (448 : ℕ) + (o : ℕ)) = 0#8 := by
      intro o ho
      rw [add_assoc, ← Nat.cast_add]
      exact hmiddle (448 + o) (by omega) (by omega)
    have hdim : decide (448 + e < headDim512) = true := decide_eq_true hd
    simp only [tokenFp8Dim, hdim, hnope, decide_false, Bool.false_eq_true, if_false, if_true,
      Bool.and_true, Nat.add_sub_cancel_left, Nat.max_zero, hrope' (2 * e + 1) (by omega),
      hrope' (2 * e) (by omega), hrope]
    simp [toScalar, ExactFloat.map]

/-- An index row with a sentinel, the last slot beyond the length, and a window of two. -/
def unitCompressed : CompressedKeys := ⟨unitPages, fun c => 7 * c - 1, 2, 3⟩
def unitWindow : WindowKeys := ⟨unitPages, 5, 2, fun block => block, 4⟩

theorem unitCompressed_holds : unitCompressed.Holds (fun _ _ => unitRow) := by
  intro c _ _ _
  rw [show (unitCompressed.slotIds c).tmod unitCompressed.cache.cacheBlockSize = 0 from
    Int.tmod_one _]
  exact unitPages_row _

theorem unitWindow_holds : unitWindow.Holds (fun _ _ => unitRow) := by
  intro c _ _
  rw [show (unitWindow.pos c).tmod unitWindow.cache.cacheBlockSize = 0 from Int.tmod_one _]
  exact unitPages_row _

/-! ### The four paths -/

section Paths
variable {launch : SinkLaunch} {compressed : CompressedKeys} {swa : WindowKeys} {scale : ℝ}
  {q : ℕ → ℕ → Scalar} {x : ℕ → ℕ → ℝ} {yC yW : ℤ → ℤ → ℕ → ℝ} {attnSink : ℕ → Scalar}
  {sink : ℕ → WithBot ℝ} {output out : ℕ → ℕ → Scalar}
  (hq : ∀ h < launch.activeHeads, HoldsLanes headDim512 (q h) (x h))
  (hsink : ∀ h < launch.activeHeads, attnSink h = ofBot (sink h))
  (hC : compressed.Holds yC) (hW : swa.Holds yW)
  (hout : fp8dsGlobalPagedSparseMlaAttentionWithSinkMultihead launch compressed swa scale q attnSink
    output = some out)
include hq hsink hC hW hout

/-- The single kernel. -/
theorem fusedPath_eq {h : ℕ} (hh : h < launch.activeHeads) {d : ℕ} (hd : d < headDim512) :
    out h d = fin (attendWithSink (sinkWeight (sink h))
      (compressed.candidates scale (x h) yC ++ swa.candidates scale (x h) yW) d) := by
  rw [SinkLaunch.store_active hout hh hd, fp8dsGlobalPagedAttentionWithSinkKernel]
  dsimp only
  rw [fusedLoops_stateOf (hq h hh) hC hW, hsink h hh, finishRunningWithSink_stateOf,
    attendWithSink_truncate hd]

omit hC hout in
/-- The single kernel over the window. -/
theorem windowPath_eq {outW : ℕ → ℕ → Scalar}
    (houtW : fp8dsPagedSparseMlaAttentionWithSinkMultihead launch swa.cache scale q swa.seqLen
      swa.gatherLen swa.blockTable 0 swa.numCandidates attnSink output = some outW) {h : ℕ}
    (hh : h < launch.activeHeads) {d : ℕ} (hd : d < headDim512) :
    outW h d = fin (attendWithSink (sinkWeight (sink h)) (swa.candidates scale (x h) yW) d) := by
  have hloop : accumulateFp8dsPagedAttentionChunkKernel swa.cache scale (q h) swa.seqLen
      swa.gatherLen swa.blockTable swa.numCandidates 0 (stateOf (truncate headDim512 [])) =
      stateOf (truncate headDim512 ([] ++ swa.candidates scale (x h) yW)) :=
    pagedChunks_stateOf (hq h hh) hW List.sum_singleton []
  rw [List.nil_append] at hloop
  rw [SinkLaunch.store_active houtW hh hd, fp8dsPagedAttentionWithSinkKernel,
    empty_eq_stateOf headDim512, hloop, hsink h hh, finishRunningWithSink_stateOf,
    attendWithSink_truncate hd]

/-- **The decode paths agree.** The single kernel over both groups of keys computes
attention with the sink over the slots of the index row below its length and the positions
of the window below its own; accumulating the groups chunk by chunk, with a block of heads a
program, or with one head and the widths tuned, gives the same output, whether into two states
that are merged with the sink or into one after the other.  The single kernel over the window
alone computes what finishing the window's state does. -/
theorem decode_paths_agree {numTokens t : ℕ} (ht : t < numTokens) {blockC blockW : Option ℕ}
    (hblockC : blockC ≠ some 0) (hblockW : blockW ≠ some 0) {widthsC widthsW : List ℕ}
    (hwidthsC : widthsC.sum = compressed.numCandidates)
    (hwidthsW : widthsW.sum = swa.numCandidates) {tunerC tunerW : Tuner ℕ}
    (htunedC : blockC = none → ∀ width ∈ widthsC, tunerC.tuned width = true)
    (htunedW : blockW = none → ∀ width ∈ widthsW, tunerW.tuned width = true)
    (output' : ℕ → ℕ → ℕ → Scalar) :
    let heads := launch.activeHeads
    let global := fun state => accumulateGlobalChunks blockC heads compressed.cache scale q
      compressed.slotIds compressed.topkLen tunerC 0 widthsC state
    let paged := fun state => accumulatePagedChunks blockW heads swa.cache scale q swa.seqLen
      swa.gatherLen swa.blockTable tunerW 0 widthsW state
    let two := finishTwoSparseMlaAttentionStatesWithSink numTokens heads headDim512
      (fun _ => global (fun _ => State.empty)) (fun _ => paged (fun _ => State.empty)) attnSink
      output'
    let one := finishSparseMlaAttentionWithSink numTokens heads headDim512
      (fun _ => paged (global (fun _ => State.empty))) attnSink output'
    let window := finishSparseMlaAttentionWithSink numTokens heads headDim512
      (fun _ => paged (fun _ => State.empty)) attnSink output'
    (∀ h < heads, ∀ d < headDim512,
      out h d = fin (attendWithSink (sinkWeight (sink h))
        (compressed.candidates scale (x h) yC ++ swa.candidates scale (x h) yW) d) ∧
      two t h d = out h d ∧ one t h d = out h d) ∧
    ∀ outW, fp8dsPagedSparseMlaAttentionWithSinkMultihead launch swa.cache scale q swa.seqLen
        swa.gatherLen swa.blockTable 0 swa.numCandidates attnSink output = some outW →
      ∀ h < heads, ∀ d < headDim512,
        outW h d = fin (attendWithSink (sinkWeight (sink h)) (swa.candidates scale (x h) yW) d) ∧
        window t h d = outW h d := by
  intro heads global paged two one window
  have hglobal : ∀ h < heads, global (fun _ => State.empty) h =
      stateOf (truncate headDim512 (compressed.candidates scale (x h) yC)) := by
    intro h hh
    show accumulateGlobalChunks _ _ _ _ _ _ _ _ _ _ _ h = _
    rw [accumulateGlobalChunks_eq hblockC hh,
      tunedLoop_eq_chunkLoop _ _ (launchTuner_tuned htunedC), empty_eq_stateOf headDim512,
      globalChunks_stateOf (hq h hh) hC hwidthsC, List.nil_append]
  have hpaged : ∀ h < heads, ∀ state l, state h = stateOf (truncate headDim512 l) →
      paged state h = stateOf (truncate headDim512 (l ++ swa.candidates scale (x h) yW)) := by
    intro h hh state l hstate
    show accumulatePagedChunks _ _ _ _ _ _ _ _ _ _ _ _ h = _
    rw [accumulatePagedChunks_eq hblockW hh,
      tunedLoop_eq_chunkLoop _ _ (launchTuner_tuned htunedW), hstate,
      pagedChunks_stateOf (hq h hh) hW hwidthsW]
  have hwindow : ∀ h < heads, paged (fun _ => State.empty) h =
      stateOf (truncate headDim512 (swa.candidates scale (x h) yW)) := fun h hh =>
    hpaged h hh (fun _ => State.empty) [] (empty_eq_stateOf headDim512)
  refine ⟨fun h hh d hd => ?_, fun outW houtW h hh d hd => ?_⟩
  · have hfused := fusedPath_eq hq hsink hC hW hout hh hd
    refine ⟨hfused, ?_, ?_⟩
    · show launchTokenHeads _ _ _ _ _ t h d = _
      rw [launchTokenHeads_lt ht hh hd]
      beta_reduce
      rw [hglobal h hh, hwindow h hh, hsink h hh, finishTwoKernel_eq, ← truncate_append,
        attendWithSink_truncate hd, hfused]
    · show launchTokenHeads _ _ _ _ _ t h d = _
      rw [launchTokenHeads_lt ht hh hd]
      beta_reduce
      rw [hpaged h hh _ _ (hglobal h hh), hsink h hh, finishWithSink_stateOf_eq,
        attendWithSink_truncate hd, hfused]
  · have halone := windowPath_eq hq hsink hW houtW hh hd
    refine ⟨halone, ?_⟩
    show launchTokenHeads _ _ _ _ _ t h d = _
    rw [launchTokenHeads_lt ht hh hd]
    beta_reduce
    rw [hwindow h hh, hsink h hh, finishWithSink_stateOf_eq, attendWithSink_truncate hd, halone]

omit hq hsink hC hW hout in
/-- The window by blocks of two heads in one call against an index row by single heads in two,
whose widths are tuned: two states merged. -/
theorem decode_paths_agree_unitPages :
    ∃ out, fp8dsGlobalPagedSparseMlaAttentionWithSinkMultihead ⟨1, 1, 1, 1, none⟩ unitCompressed
        unitWindow 1 (fun _ _ => fin 1) (fun _ => fin 0) (fun _ _ => nan) = some out ∧
      finishTwoSparseMlaAttentionStatesWithSink 1 1 headDim512
        (fun _ => accumulateGlobalChunks none 1 unitPages 1 (fun _ _ => fin 1)
          unitCompressed.slotIds 2 Tuner.warm 0 [1, 2] (fun _ => State.empty))
        (fun _ => accumulatePagedChunks (some 2) 1 unitPages 1 (fun _ _ => fin 1) 5 2
          unitWindow.blockTable (Tuner.cold 4 (by decide)) 0 [4] (fun _ => State.empty))
        (fun _ => fin 0) (fun _ _ _ => nan) 0 0 3 = out 0 3 := by
  refine ⟨_, rfl, ?_⟩
  have hagree := @decode_paths_agree ⟨1, 1, 1, 1, none⟩ unitCompressed unitWindow 1
    (fun _ _ => fin 1) (fun _ _ => 1) (fun _ _ => unitRow) (fun _ _ => unitRow) (fun _ => fin 0)
    (fun _ => ((0 : ℝ) : WithBot ℝ)) (fun _ _ => nan) _ (fun _ _ _ _ => rfl) (fun _ _ => rfl)
    unitCompressed_holds unitWindow_holds rfl 1 0 Nat.one_pos none (some 2) (by decide) (by decide)
    [1, 2] [4] rfl rfl Tuner.warm (Tuner.cold 4 (by decide)) (fun _ _ _ => rfl)
    (fun hnone => absurd hnone (by decide)) (fun _ _ _ => nan)
  exact (hagree.1 0 (by decide) 3 (by decide)).2.1

/-- The lanes of combined candidate `c`: the slot's row, or the row of the window. -/
noncomputable def combinedLanes (compressed : CompressedKeys) (swa : WindowKeys) (c : ℕ) :
    ℕ → Scalar :=
  if c < compressed.numCandidates then
    compressed.cache.row ((compressed.slotIds c).tdiv compressed.cache.cacheBlockSize)
      ((compressed.slotIds c).tmod compressed.cache.cacheBlockSize)
  else
    swa.cache.row (swa.blockTable
      ((swa.pos (c - compressed.numCandidates)).tdiv swa.cache.cacheBlockSize))
      ((swa.pos (c - compressed.numCandidates)).tmod swa.cache.cacheBlockSize)

/-- The numbers in them. -/
def combinedRow (compressed : CompressedKeys) (swa : WindowKeys) (yC yW : ℤ → ℤ → ℕ → ℝ) (c : ℕ) :
    ℕ → ℝ :=
  if c < compressed.numCandidates then slotRow compressed.cache yC (compressed.slotIds c)
  else pageRow swa.cache swa.blockTable yW (swa.pos (c - compressed.numCandidates))

/-- The combined mask of a token. -/
def combinedMask (compressed : CompressedKeys) (swa : WindowKeys) : ℕ → Bool :=
  buildCombinedDecodeValidMaskKernel compressed.numCandidates compressed.slotIds compressed.topkLen
    swa.gatherLen

omit hq hsink hC hW hout in
theorem combinedMask_compressed {c : ℕ} (hc : c < compressed.numCandidates) :
    combinedMask compressed swa c = true ↔
      (c : ℤ) < compressed.topkLen ∧ 0 ≤ compressed.slotIds c := by
  simp [combinedMask, buildCombinedDecodeValidMaskKernel, hc]

omit hq hsink hC hW hout in
theorem combinedMask_window (c : ℕ) :
    combinedMask compressed swa (compressed.numCandidates + c) = true ↔
      (c : ℤ) < swa.gatherLen := by
  simp [combinedMask, buildCombinedDecodeValidMaskKernel]

omit hq hsink hC hW hout in
/-- **The combined mask selects the candidates of both groups.** -/
theorem validCandidates_combined (scale : ℝ) (x : ℕ → ℝ) :
    validCandidates (compressed.numCandidates + swa.numCandidates) (combinedMask compressed swa)
        (fun c => dot headDim512 x (combinedRow compressed swa yC yW c) * scale)
        (combinedRow compressed swa yC yW) =
      compressed.candidates scale x yC ++ swa.candidates scale x yW := by
  rw [validCandidates, List.range_add, List.filterMap_append, List.filterMap_map]
  congr 1
  · refine List.filterMap_congr fun c hc => ?_
    have hlt := List.mem_range.mp hc
    have hmask := @combinedMask_compressed compressed swa c hlt
    unfold CompressedKeys.item
    by_cases hcap : (c : ℤ) < compressed.topkLen
    · by_cases hslot : 0 ≤ compressed.slotIds c
      · rw [if_pos (hmask.mpr ⟨hcap, hslot⟩), if_pos hcap, if_pos hslot, combinedRow, if_pos hlt]
        rfl
      · rw [if_neg (fun h => hslot (hmask.mp h).2), if_pos hcap, if_neg hslot]
    · rw [if_neg (fun h => hcap (hmask.mp h).1), if_neg hcap]
  · refine List.filterMap_congr fun c _ => ?_
    have hmask := @combinedMask_window compressed swa c
    have hge : ¬ compressed.numCandidates + c < compressed.numCandidates := by omega
    rw [Function.comp_apply]
    by_cases hcap : (c : ℤ) < swa.gatherLen
    · rw [if_pos (hmask.mpr hcap), if_pos hcap, combinedRow, if_neg hge, Nat.add_sub_cancel_left]
      rfl
    · rw [if_neg (fun h => hcap (hmask.mp h)), if_neg hcap]

omit hq hsink hout in
/-- Gathered lanes hold the numbers of their rows. -/
theorem combinedLanes_holds {c : ℕ} (hc : c < compressed.numCandidates + swa.numCandidates)
    (hmask : combinedMask compressed swa c = true) :
    HoldsLanes headDim512 (combinedLanes compressed swa c)
      (combinedRow compressed swa yC yW c) := by
  unfold combinedLanes combinedRow
  by_cases hlt : c < compressed.numCandidates
  · obtain ⟨hcap, hslot⟩ := (combinedMask_compressed hlt).mp hmask
    rw [if_pos hlt, if_pos hlt]
    exact hC c hlt hcap hslot
  · obtain ⟨i, rfl⟩ := Nat.exists_eq_add_of_le (not_lt.mp hlt)
    have hcap := (combinedMask_window i).mp hmask
    rw [if_neg hlt, if_neg hlt, Nat.add_sub_cancel_left]
    exact hW i (by omega) hcap

/-- What the matrix path gets: the gathered rows of both groups and the combined mask. -/
noncomputable def combinedRows (launch : SinkLaunch) (compressed : CompressedKeys)
    (swa : WindowKeys) (kv : ℕ → ℕ → Scalar) (attnSink : ℕ → Scalar) : MaterializedScores where
  scoreHeads := launch.qHeads
  outputHeads := launch.outputHeads
  sinkHeads := launch.sinkHeads
  headDim := headDim512
  numCandidates := compressed.numCandidates + swa.numCandidates
  scores := fun _ _ => 0
  kv := kv
  validTokens := combinedMask compressed swa
  attnSink := attnSink

/-- **The matrix path agrees with the single kernel**, when the gathered buffer holds the
rows of the valid candidates: for any blocks, except by blocks of candidates at a head with
neither a candidate nor a finite sink. -/
theorem matrix_path_agrees_iff {kv : ℕ → ℕ → Scalar}
    (hkv : ∀ c < compressed.numCandidates + swa.numCandidates,
      combinedMask compressed swa c = true →
        ∀ d < headDim512, kv c d = combinedLanes compressed swa c d)
    {opts : FinishOptions} (hheads : opts.numHeads = launch.numHeads)
    {output' out' : ℕ → ℕ → Scalar}
    (hout' : matmulSparseMlaAttentionWithSink (combinedRows launch compressed swa kv attnSink) q
      scale opts output' = some out') :
    (∀ h < launch.activeHeads, ∀ d < headDim512, out' h d = out h d) ↔
      opts.candidateBlockSize = none ∨ ∀ h < launch.activeHeads, sink h ≠ ⊥ ∨
        ∃ c < compressed.numCandidates + swa.numCandidates,
          combinedMask compressed swa c = true := by
  have hactive : opts.activeHeads (combinedRows launch compressed swa kv attnSink) =
      launch.activeHeads := by
    rw [FinishOptions.activeHeads, hheads]
    rfl
  have hlanes : ∀ c < compressed.numCandidates + swa.numCandidates,
      combinedMask compressed swa c = true →
        HoldsLanes headDim512 (kv c) (combinedRow compressed swa yC yW c) := by
    intro c hc hmask d hd
    rw [hkv c hc hmask d hd, combinedLanes_holds hC hW hc hmask d hd]
  have hiff := @matmul_agree_iff (combinedRows launch compressed swa kv attnSink)
    (show 0 < headDim512 by decide) (show headDim512 ≤ 1024 by decide) opts q scale
    output' out' out x (combinedRow compressed swa yC yW) sink
  rw [hactive] at hiff
  refine hiff hq hlanes hsink hout' fun h hh d hd => ?_
  rw [fusedPath_eq hq hsink hC hW hout hh hd, ← validCandidates_combined]
  rfl

omit hq hsink hC hW hout in
/-- The gathered rows of the same keys, by blocks of sixteen candidates. -/
theorem matrix_path_agrees_iff_unitPages :
    ∃ out out', fp8dsGlobalPagedSparseMlaAttentionWithSinkMultihead ⟨1, 1, 1, 1, none⟩
        unitCompressed unitWindow 1 (fun _ _ => fin 1) (fun _ => fin 0) (fun _ _ => nan) =
          some out ∧
      matmulSparseMlaAttentionWithSink (combinedRows ⟨1, 1, 1, 1, none⟩ unitCompressed unitWindow
        (combinedLanes unitCompressed unitWindow) (fun _ => fin 0)) (fun _ _ => fin 1) 1
        ⟨none, 1, none, some 16⟩ (fun _ _ => nan) = some out' ∧
      out' 0 3 = out 0 3 := by
  refine ⟨_, _, rfl, rfl, ?_⟩
  have hagree := @matrix_path_agrees_iff ⟨1, 1, 1, 1, none⟩ unitCompressed unitWindow 1
    (fun _ _ => fin 1) (fun _ _ => 1) (fun _ _ => unitRow) (fun _ _ => unitRow) (fun _ => fin 0)
    (fun _ => ((0 : ℝ) : WithBot ℝ)) (fun _ _ => nan) _ (fun _ _ _ _ => rfl) (fun _ _ => rfl)
    unitCompressed_holds unitWindow_holds rfl (combinedLanes unitCompressed unitWindow)
    (fun _ _ _ _ _ => rfl) ⟨none, 1, none, some 16⟩ rfl (fun _ _ => nan) _ rfl
  exact hagree.mpr (Or.inr fun _ _ => Or.inl WithBot.coe_ne_bot) 0 (by decide) 3 (by decide)

end Paths

/-! ### The window as global slots -/

/-- The global slot of a position of the sequence. -/
def slotOfPosition (cache : PagedCache) (blockTable : ℤ → ℤ) (pos : ℤ) : ℤ :=
  blockTable (pos.tdiv cache.cacheBlockSize) * cache.cacheBlockSize +
    pos.tmod cache.cacheBlockSize

/-- A page number and a position in the page are read back from the slot. -/
theorem slot_tdiv_tmod {blockSize : ℕ} (hsize : 0 < blockSize) {block posInBlock : ℤ}
    (hblock : 0 ≤ block) (hpos : 0 ≤ posInBlock) (hlt : posInBlock < blockSize) :
    (block * blockSize + posInBlock).tdiv blockSize = block ∧
      (block * blockSize + posInBlock).tmod blockSize = posInBlock := by
  have hne : (blockSize : ℤ) ≠ 0 := by omega
  have hslot : 0 ≤ block * blockSize + posInBlock :=
    add_nonneg (mul_nonneg hblock (Int.natCast_nonneg blockSize)) hpos
  rw [Int.tdiv_eq_ediv_of_nonneg hslot, Int.tmod_eq_emod_of_nonneg hslot, add_comm]
  refine ⟨?_, ?_⟩
  · rw [Int.add_mul_ediv_right _ _ hne, Int.ediv_eq_zero_of_lt hpos hlt, zero_add]
  · rw [Int.add_mul_emod_self_right, Int.emod_eq_of_lt hpos hlt]

/-- A position of the window is taken in as its slot. -/
theorem globalSlotStep_slotOfPosition {cache : PagedCache} (hsize : 0 < cache.cacheBlockSize)
    {blockTable : ℤ → ℤ} {pos : ℤ} (hpos : 0 ≤ pos)
    (hblock : 0 ≤ blockTable (pos.tdiv cache.cacheBlockSize)) (scale : ℝ) (q : ℕ → Scalar)
    (running : State ℕ) :
    globalSlotStep cache scale q running (slotOfPosition cache blockTable pos) =
      pagedStep cache scale q blockTable running pos := by
  have hsize' : (0 : ℤ) < cache.cacheBlockSize := by omega
  have hmod : 0 ≤ pos.tmod cache.cacheBlockSize := Int.tmod_nonneg _ hpos
  have hlt : pos.tmod cache.cacheBlockSize < cache.cacheBlockSize := Int.tmod_lt_of_pos _ hsize'
  obtain ⟨hpage, hoffset⟩ := slot_tdiv_tmod hsize hblock hmod hlt
  have hslot : 0 ≤ slotOfPosition cache blockTable pos :=
    add_nonneg (mul_nonneg hblock hsize'.le) hmod
  unfold slotOfPosition at hslot
  unfold globalSlotStep slotOfPosition pagedStep
  rw [if_pos hslot, hpage, hoffset]

/-- **A window is a list of slots.** For a sequence at least as long as the window, with a
page for every position that is read, the paged path computes the state that the slot path
computes on the slots of the positions: for any chunks and blocks of heads on either side,
the widths of one-head kernels tuned, from any states, whatever the bytes of the cache. -/
theorem paged_eq_globalSlots {keys : WindowKeys} (hsize : 0 < keys.cache.cacheBlockSize)
    (hlen : keys.gatherLen ≤ keys.seqLen)
    (hblocks : ∀ c < keys.numCandidates, (c : ℤ) < keys.gatherLen →
      0 ≤ keys.blockTable ((keys.pos c).tdiv keys.cache.cacheBlockSize))
    {headBlock headBlock' : Option ℕ} (hheadBlock : headBlock ≠ some 0)
    (hheadBlock' : headBlock' ≠ some 0) {widths widths' : List ℕ}
    (hwidths : widths.sum = keys.numCandidates) (hwidths' : widths'.sum = keys.numCandidates)
    {tuner tuner' : Tuner ℕ}
    (htuned : headBlock = none → ∀ width ∈ widths, tuner.tuned width = true)
    (htuned' : headBlock' = none → ∀ width ∈ widths', tuner'.tuned width = true)
    {numHeads h : ℕ} (hh : h < numHeads) (scale : ℝ) (q : ℕ → ℕ → Scalar) (state : ℕ → State ℕ) :
    accumulateGlobalChunks headBlock' numHeads keys.cache scale q
        (fun c => slotOfPosition keys.cache keys.blockTable (keys.pos c)) keys.gatherLen tuner' 0
        widths' state h =
      accumulatePagedChunks headBlock numHeads keys.cache scale q keys.seqLen keys.gatherLen
        keys.blockTable tuner 0 widths state h := by
  rw [accumulateGlobalChunks_eq hheadBlock' hh, accumulatePagedChunks_eq hheadBlock hh,
    tunedLoop_eq_chunkLoop _ _ (launchTuner_tuned htuned'),
    tunedLoop_eq_chunkLoop _ _ (launchTuner_tuned htuned)]
  refine chunkLoop_congr (hwidths'.trans hwidths.symm) (fun running c hc hcap => ?_) _
  rw [hwidths] at hc
  have hpos : 0 ≤ keys.pos c := by unfold WindowKeys.pos; omega
  exact globalSlotStep_slotOfPosition hsize hpos (hblocks c hc hcap) scale (q h) running

/-- A window of three over pages of two, cut into single keys and not cut. -/
theorem paged_eq_globalSlots_three :
    accumulateGlobalChunks none 1 ⟨2, 1168, fun _ => 0⟩ 1 (fun _ _ => fin 1)
        (fun c => slotOfPosition ⟨2, 1168, fun _ => 0⟩ (fun block => 9 - block) (2 + c)) 3
        Tuner.warm 0 [1, 1, 1] (fun _ => State.empty) 0 =
      accumulatePagedChunks (some 2) 1 ⟨2, 1168, fun _ => 0⟩ 1 (fun _ _ => fin 1) 5 3
        (fun block => 9 - block) (Tuner.cold 4 (by decide)) 0 [3] (fun _ => State.empty) 0 :=
  @paged_eq_globalSlots ⟨⟨2, 1168, fun _ => 0⟩, 5, 3, fun block => 9 - block, 3⟩ (by decide)
    (by decide) (by decide) (some 2) none (by decide) (by decide) [3] [1, 1, 1] rfl rfl
    (Tuner.cold 4 (by decide)) Tuner.warm (fun hnone => absurd hnone (by decide)) (fun _ _ _ => rfl)
    1 0 Nat.one_pos 1 (fun _ _ => fin 1) (fun _ => State.empty)

end Glm52
