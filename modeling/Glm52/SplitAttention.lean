import Glm52.ChunkedAccumulation
import Glm52.Ragged

/-! # The d512 split kernels

A second implementation of the indexed attention, for rows of width 512.  Three
kernels communicate through a score buffer: one stores the scores of the candidates
below the length, one takes the maximum and the denominator of the stored scores, one
sums the weighted values.  A row longer than the buffer is cut into chunks, and the
state of each chunk is merged into the running state.

The kernels mask by the length, and an index that is no row of the KV reads a row of
zeros.  Such a lane keeps the score of that row, which is zero, and takes part in the
maximum and in the denominator (`splitCandidate`); the indexed accumulation skips it.
The two paths give the same output and log-sum-exp exactly when no such lane lies below
the length (`split_agrees_iff`). -/
namespace Glm52
open ExactFloat Softmax OnlineSoftmax Ragged

/-- The width of the rows: `q.shape[-1] == 512` is asserted. -/
def headDim512 : ℕ := 512

/-- The widest score buffer: `indices.shape[1] <= 1152` is asserted. -/
def maxScoreWidth : ℕ := 1152

/-- The block sizes of a launch, as asserted. -/
structure SplitBlocks where
  headBlockSize : ℕ
  candidateBlockSize : ℕ
  valueBlockSize : ℕ
  headBlockSize_mem : headBlockSize ∈ [8, 16, 32]
  candidateBlockSize_mem : candidateBlockSize ∈ [32, 64, 128]
  valueBlockSize_mem : valueBlockSize ∈ [32, 64, 128]

theorem SplitBlocks.sizes_pos (blocks : SplitBlocks) :
    0 < blocks.headBlockSize ∧ 0 < blocks.candidateBlockSize ∧ 0 < blocks.valueBlockSize := by
  obtain ⟨hb, cb, vb, hhead, hcand, hvalue⟩ := blocks
  have hpos : ∀ {b : ℕ} {sizes : List ℕ}, b ∈ sizes → 0 ∉ sizes → 0 < b := by
    intro b sizes hmem hzero
    refine Nat.pos_of_ne_zero ?_
    rintro rfl
    exact hzero hmem
  exact ⟨hpos hhead (by decide), hpos hcand (by decide), hpos hvalue (by decide)⟩

/-- `triton.cdiv`. -/
def cdiv (n b : ℕ) : ℕ := (n + b - 1) / b

/-- Item `i` of `n` is one that a grid of blocks of size `b` stores. -/
def InGrid (b n i : ℕ) : Prop := ∃ p < cdiv n b, p * b ≤ i ∧ i < p * b + b ∧ i < n

instance (b n i : ℕ) : Decidable (InGrid b n i) := inferInstanceAs (Decidable (∃ _ < _, _))

/-- A grid stores every item. -/
theorem inGrid_iff {b n i : ℕ} (hb : 0 < b) : InGrid b n i ↔ i < n := by
  constructor
  · rintro ⟨-, -, -, -, hi⟩
    exact hi
  · intro hi
    have hdecomp := Nat.div_add_mod' i b
    have hmod := Nat.mod_lt i hb
    exact ⟨i / b, div_lt_cdiv hb hi, by omega, by omega, hi⟩

theorem le_cdiv_mul {n b : ℕ} (hb : 0 < b) : n ≤ cdiv n b * b := by
  have hceil := Nat.div_add_mod' (n + b - 1) b
  have hmod := Nat.mod_lt (n + b - 1) hb
  unfold cdiv
  omega

/-! ### The kernels, for one token and head -/

/-- A lane counts when it is below the length and within the row. -/
def candidateMask (validLen : ℤ) (numCandidates c : ℕ) : Bool :=
  decide ((c : ℤ) < min validLen numCandidates)

/-- The KV row that a lane reads: zeros for a lane that is masked, or whose index is
negative or beyond the KV. -/
noncomputable def laneKv (numKvRows : ℕ) (kvFlat : ℕ → ℕ → Scalar) (indices : List ℤ)
    (validLen : ℤ) (c d : ℕ) : Scalar :=
  let kvIndex := if candidateMask validLen indices.length c then indices.getD c (-1) else -1
  if 0 ≤ kvIndex ∧ kvIndex < numKvRows then kvFlat kvIndex.toNat d else 0

/-- `_indexed_d512_split_score_kernel`: a program whose block starts beyond the length
returns at once; the others store the scores of the lanes below the length. -/
noncomputable def splitScoreKernel (blockC numKvRows : ℕ) (scale : ℝ) (q : ℕ → Scalar)
    (kvFlat : ℕ → ℕ → Scalar) (indices : List ℤ) (validLen : ℤ) (scores : ℕ → Scalar) (c : ℕ) :
    Scalar :=
  let n := indices.length
  if ∃ p < cdiv n blockC, ¬ min validLen n ≤ (p * blockC : ℕ) ∧
      p * blockC ≤ c ∧ c < p * blockC + blockC ∧ candidateMask validLen n c then
    ((List.range headDim512).map
      (fun d => q d * laneKv numKvRows kvFlat indices validLen c d)).sum * fin scale
  else scores c

/-- The score a later kernel loads for a lane, `-inf` beyond the length. -/
def loadScore (validLen : ℤ) (numCandidates : ℕ) (scores : ℕ → Scalar) (c : ℕ) : Scalar :=
  if candidateMask validLen numCandidates c then scores c else negInf

/-- The weight of a lane, zero beyond the length. -/
noncomputable def laneWeight (validLen : ℤ) (numCandidates : ℕ) (scores : ℕ → Scalar)
    (safeMax : Scalar) (c : ℕ) : Scalar :=
  if candidateMask validLen numCandidates c then
    exp (loadScore validLen numCandidates scores c - safeMax)
  else 0

/-- `_indexed_d512_split_stats_kernel`: the maximum and the denominator. -/
noncomputable def splitStatsKernel (scores : ℕ → Scalar) (validLen : ℤ) (numCandidates : ℕ) :
    Scalar × Scalar :=
  let lanes := List.range numCandidates.nextPowerOfTwo
  let runningMax := (lanes.map (loadScore validLen numCandidates scores)).foldr maximum negInf
  let safeMax := if 0 < validLen then runningMax else 0
  (runningMax, (lanes.map (laneWeight validLen numCandidates scores safeMax)).sum)

/-- One pass of the value kernel's loop: a block that starts below the length adds its
weighted rows. -/
noncomputable def valueStep (blockC numKvRows : ℕ) (scores : ℕ → Scalar) (kvFlat : ℕ → ℕ → Scalar)
    (indices : List ℤ) (validLen : ℤ) (safeMax : Scalar) (d : ℕ) (a : Scalar) (p : ℕ) : Scalar :=
  if ((p * blockC : ℕ) : ℤ) < min validLen indices.length then
    a + ((List.range blockC).map (fun j =>
      laneWeight validLen indices.length scores safeMax (p * blockC + j) *
        laneKv numKvRows kvFlat indices validLen (p * blockC + j) d)).sum
  else a

/-- `_indexed_d512_split_value_kernel`: the accumulator, candidate block by candidate
block. -/
noncomputable def splitValueKernel (blockC blockD numKvRows : ℕ) (scores : ℕ → Scalar)
    (kvFlat : ℕ → ℕ → Scalar) (indices : List ℤ) (validLen : ℤ) (maxScore : Scalar)
    (acc : ℕ → Scalar) (d : ℕ) : Scalar :=
  let safeMax := if 0 < validLen then maxScore else 0
  if InGrid blockD headDim512 d then
    (List.range (cdiv indices.length blockC)).foldl
      (valueStep blockC numKvRows scores kvFlat indices validLen safeMax d) 0
  else acc d

/-! ### A token -/

/-- The score buffer and the stored states of a token's heads. -/
structure SplitBuffers where
  scores : ℕ → ℕ → Scalar
  state : ℕ → State ℕ

/-- The three launches of `accumulate_indexed_d512_split_sparse_mla_attention`. -/
noncomputable def splitLaunches (blocks : SplitBlocks) (numHeads numKvRows : ℕ) (scale : ℝ)
    (q : ℕ → ℕ → Scalar) (kvFlat : ℕ → ℕ → Scalar) (indices : List ℤ) (lens : ℤ)
    (buffers : SplitBuffers) : SplitBuffers :=
  let scores := fun h =>
    if InGrid blocks.headBlockSize numHeads h then
      splitScoreKernel blocks.candidateBlockSize numKvRows scale (q h) kvFlat indices lens
        (buffers.scores h)
    else buffers.scores h
  let stats := fun h => splitStatsKernel (scores h) lens indices.length
  let state := fun h =>
    if h < numHeads then
      { buffers.state h with maxScore := (stats h).1, denom := (stats h).2 }
    else buffers.state h
  let acc := fun h =>
    if InGrid blocks.headBlockSize numHeads h then
      splitValueKernel blocks.candidateBlockSize blocks.valueBlockSize numKvRows (scores h) kvFlat
        indices lens (state h).maxScore (state h).acc
    else (state h).acc
  { scores := scores
    state := fun h => { state h with acc := acc h } }

/-- `accumulate_indexed_d512_split_sparse_mla_attention`, for one token. -/
noncomputable def accumulateIndexedD512Split (blocks : SplitBlocks) (numHeads numKvRows : ℕ)
    (scale : ℝ) (q : ℕ → ℕ → Scalar) (kvFlat : ℕ → ℕ → Scalar) (indices : List ℤ) (lens : ℤ)
    (buffers : SplitBuffers) : Option SplitBuffers :=
  if indices.length ≤ maxScoreWidth then
    some (splitLaunches blocks numHeads numKvRows scale q kvFlat indices lens buffers)
  else none

/-! ### Chunks -/

/-- The weight of a state in a merge kernel; zero when its maximum is `-inf`. -/
noncomputable def mergeScale (maxScore nextMax : Scalar) : Scalar :=
  if maxScore ≠ negInf then exp (maxScore - nextMax) else 0

/-- `_indexed_d512_chunked_merge_acc_kernel`, for one head. -/
noncomputable def chunkedMergeAccKernel (blockD : ℕ) (running chunk : State ℕ) : State ℕ :=
  let nextMax := maximum running.maxScore chunk.maxScore
  { running with
    acc := fun d =>
      if InGrid blockD headDim512 d then
        running.acc d * mergeScale running.maxScore nextMax +
          chunk.acc d * mergeScale chunk.maxScore nextMax
      else running.acc d }

/-- `_indexed_d512_chunked_merge_state_kernel`, for one head. -/
noncomputable def chunkedMergeStateKernel (running chunk : State ℕ) : State ℕ :=
  let nextMax := maximum running.maxScore chunk.maxScore
  { running with
    maxScore := nextMax
    denom := running.denom * mergeScale running.maxScore nextMax +
      chunk.denom * mergeScale chunk.maxScore nextMax }

/-- The two merge launches: the accumulators first, by the maxima still unmerged. -/
noncomputable def mergeLaunches (blocks : SplitBlocks) (numHeads : ℕ)
    (running chunk : ℕ → State ℕ) (h : ℕ) : State ℕ :=
  let merged :=
    if InGrid blocks.headBlockSize numHeads h then
      chunkedMergeAccKernel blocks.valueBlockSize (running h) (chunk h)
    else running h
  if h < numHeads then chunkedMergeStateKernel merged (chunk h) else merged

/-- A pass of the chunk loop: the split kernels on the chunk, then the merge. -/
noncomputable def chunkedPass (blocks : SplitBlocks) (numHeads numKvRows : ℕ) (scale : ℝ)
    (q : ℕ → ℕ → Scalar) (kvFlat : ℕ → ℕ → Scalar) (indices : List ℤ) (lens : ℤ) (chunkSize : ℕ)
    (buffers : SplitBuffers × (ℕ → State ℕ)) (candidateStart : ℕ) :
    Option (SplitBuffers × (ℕ → State ℕ)) := do
  let chunk := (indices.drop candidateStart).take chunkSize
  let chunkLens := min (max (lens - candidateStart) 0) chunk.length
  let chunkBuffers ← accumulateIndexedD512Split blocks numHeads numKvRows scale q kvFlat chunk
    chunkLens buffers.1
  some (chunkBuffers, mergeLaunches blocks numHeads buffers.2 chunkBuffers.state)

/-- `accumulate_indexed_d512_chunked_sparse_mla_attention`, for one token, with a score
buffer of width `chunkSize`.  The running state starts empty. -/
noncomputable def accumulateIndexedD512Chunked (blocks : SplitBlocks) (numHeads numKvRows : ℕ)
    (scale : ℝ) (q : ℕ → ℕ → Scalar) (kvFlat : ℕ → ℕ → Scalar) (indices : List ℤ) (lens : ℤ)
    (chunkSize : ℕ) (buffers : SplitBuffers) : Option (SplitBuffers × (ℕ → State ℕ)) :=
  if 0 < chunkSize ∧ chunkSize ≤ maxScoreWidth then
    ((List.range (cdiv indices.length chunkSize)).map (· * chunkSize)).foldlM
      (chunkedPass blocks numHeads numKvRows scale q kvFlat indices lens chunkSize)
      (buffers, fun _ => State.empty)
  else none

/-! ### What the kernels compute -/

/-- What a lane stands for: the KV row it names, or a row of zeros, scored like the
others. -/
noncomputable def splitCandidate (numKvRows : ℕ) (scale : ℝ) (x : ℕ → ℝ) (y : ℕ → ℕ → ℝ) (i : ℤ) :
    Candidate (ℕ → ℝ) :=
  if 0 ≤ i ∧ i < numKvRows then (dot headDim512 x (y i.toNat) * scale, y i.toNat)
  else (0, fun _ => 0)

/-- The candidates of the lanes below the length. -/
noncomputable def splitCandidates (numKvRows : ℕ) (scale : ℝ) (x : ℕ → ℝ) (y : ℕ → ℕ → ℝ)
    (indices : List ℤ) (validLen : ℤ) : List (Candidate (ℕ → ℝ)) :=
  (indices.take validLen.toNat).map (splitCandidate numKvRows scale x y)

section Kernels
variable {numKvRows : ℕ} {scale : ℝ} {x : ℕ → ℝ} {kvFlat : ℕ → ℕ → Scalar} {y : ℕ → ℕ → ℝ}
  {indices : List ℤ} {validLen : ℤ}

theorem candidateMask_iff {c : ℕ} :
    candidateMask validLen indices.length c = true ↔ c < (indices.take validLen.toNat).length := by
  rw [candidateMask, decide_eq_true_iff, List.length_take]
  omega

/-- A lane below the length reads its candidate's row; the others read zeros. -/
theorem laneKv_eq (scale : ℝ) (x : ℕ → ℝ)
    (hkv : ∀ i < numKvRows, HoldsLanes headDim512 (kvFlat i) (y i)) {d : ℕ} (hd : d < headDim512)
    (indices : List ℤ) (validLen : ℤ) (c : ℕ) :
    laneKv numKvRows kvFlat indices validLen c d =
      match (splitCandidates numKvRows scale x y indices validLen)[c]? with
      | some cand => fin (cand.2 d)
      | none => 0 := by
  by_cases hc : c < (indices.take validLen.toNat).length
  · have hlen : c < indices.length := lt_of_lt_of_le hc (List.length_take_le' _ _)
    have hget : indices.getD c (-1) = (indices.take validLen.toNat)[c] := by
      rw [List.getD_eq_getElem?_getD, List.getElem?_eq_getElem hlen, Option.getD_some,
        List.getElem_take]
    rw [laneKv, candidateMask_iff.mpr hc, if_pos rfl, hget, splitCandidates, List.getElem?_map,
      List.getElem?_eq_getElem hc, Option.map_some]
    simp only [splitCandidate]
    split
    · next hi => exact hkv _ (by omega) d hd
    · rfl
  · have hnone : (splitCandidates numKvRows scale x y indices validLen)[c]? = none := by
      rw [List.getElem?_eq_none]
      rw [splitCandidates, List.length_map]
      exact not_lt.mp hc
    rw [hnone, laneKv, if_neg (fun h => hc (candidateMask_iff.mp h)), if_neg (by omega)]

/-- The score buffer holds the scores of the candidates. -/
def HoldsScores (scores : ℕ → Scalar) (cands : List (Candidate (ℕ → ℝ))) : Prop :=
  ∀ c cand, cands[c]? = some cand → scores c = fin cand.1

/-- **The score kernel** scores every lane below the length, a lane of zeros too. -/
theorem splitScoreKernel_spec (scale : ℝ) {blockC : ℕ} (hC : 0 < blockC) {q : ℕ → Scalar}
    (hq : HoldsLanes headDim512 q x)
    (hkv : ∀ i < numKvRows, HoldsLanes headDim512 (kvFlat i) (y i)) (indices : List ℤ)
    (validLen : ℤ) (scores : ℕ → Scalar) :
    HoldsScores (splitScoreKernel blockC numKvRows scale q kvFlat indices validLen scores)
      (splitCandidates numKvRows scale x y indices validLen) := by
  intro c cand hcand
  have hc : c < (indices.take validLen.toNat).length := by
    have hlt := (List.getElem?_eq_some_iff.mp hcand).1
    rwa [splitCandidates, List.length_map] at hlt
  have hmask := candidateMask_iff.mpr hc
  have hbelow : (c : ℤ) < min validLen indices.length := decide_eq_true_iff.mp hmask
  have hdecomp := Nat.div_add_mod' c blockC
  have hmod := Nat.mod_lt c hC
  -- the program that has the lane in its block does not return early
  have hprogram : ∃ p < cdiv indices.length blockC,
      ¬ min validLen indices.length ≤ (p * blockC : ℕ) ∧ p * blockC ≤ c ∧
        c < p * blockC + blockC ∧ candidateMask validLen indices.length c :=
    ⟨c / blockC, div_lt_cdiv hC (by omega), by omega, by omega, by omega, hmask⟩
  have hlane : ∀ d ∈ List.range headDim512,
      q d * laneKv numKvRows kvFlat indices validLen c d = fin (x d * cand.2 d) := by
    intro d hd
    have hd := List.mem_range.mp hd
    rw [hq d hd, laneKv_eq scale x hkv hd, hcand, fin_mul]
  have hscore : cand.1 = dot headDim512 x cand.2 * scale := by
    rw [splitCandidates, List.getElem?_map, List.getElem?_eq_getElem hc, Option.map_some] at hcand
    obtain rfl := Option.some.inj hcand
    unfold splitCandidate
    split
    · rfl
    · simp [dot]
  have hsum : ((List.range headDim512).map (fun d => x d * cand.2 d)).sum =
      dot headDim512 x cand.2 := rfl
  rw [splitScoreKernel, if_pos hprogram, List.map_congr_left hlane, sum_map_fin, hsum, fin_mul,
    hscore]

/-- A lane as the stats and value kernels see it. -/
noncomputable def splitLane (numKvRows : ℕ) (kvFlat : ℕ → ℕ → Scalar) (indices : List ℤ)
    (validLen : ℤ) (scores : ℕ → Scalar) (c : ℕ) : Lane ℕ where
  valid := candidateMask validLen indices.length c
  score := scores c
  value := fun d => if d < headDim512 then laneKv numKvRows kvFlat indices validLen c d else 0

/-- The lanes read the candidates, cut to the row width. -/
theorem splitLane_reads (hkv : ∀ i < numKvRows, HoldsLanes headDim512 (kvFlat i) (y i))
    {scores : ℕ → Scalar}
    (hscores : HoldsScores scores (splitCandidates numKvRows scale x y indices validLen))
    (lanes : List ℕ) :
    List.Forall₂ Lane.Reads (lanes.map (splitLane numKvRows kvFlat indices validLen scores))
      (lanes.map (fun c =>
        (truncate headDim512 (splitCandidates numKvRows scale x y indices validLen))[c]?)) := by
  rw [List.forall₂_map_left_iff, List.forall₂_map_right_iff, List.forall₂_same]
  intro c _
  have hvalue := fun {d : ℕ} (hd : d < headDim512) =>
    laneKv_eq scale x hkv hd indices validLen c
  rw [truncate, List.getElem?_map]
  cases hcand : (splitCandidates numKvRows scale x y indices validLen)[c]? with
  | none =>
    have hc : ¬ c < (indices.take validLen.toNat).length := by
      have hle := List.getElem?_eq_none_iff.mp hcand
      rw [splitCandidates, List.length_map] at hle
      exact not_lt.mpr hle
    refine ⟨Bool.eq_false_iff.mpr (fun h => hc (candidateMask_iff.mp h)), fun d => ?_⟩
    simp only [splitLane]
    split
    · next hd => rw [hvalue hd, hcand]
    · rfl
  | some cand =>
    have hc : c < (indices.take validLen.toNat).length := by
      have hlt := (List.getElem?_eq_some_iff.mp hcand).1
      rwa [splitCandidates, List.length_map] at hlt
    refine ⟨candidateMask_iff.mpr hc, hscores c cand hcand, fun d => ?_⟩
    simp only [splitLane]
    split
    · next hd => rw [hvalue hd, hcand]
    · rfl

/-- All lanes of a row, read through enough positions. -/
theorem reduceOption_lanes {α : Type} (xs : List α) {n : ℕ} (hn : xs.length ≤ n) :
    ((List.range n).map (fun c => xs[c]?)).reduceOption = xs := by
  have hread := filterMap_range_getElem? xs some hn
  simp only [Option.bind_fun_some] at hread
  rw [List.reduceOption, List.filterMap_map]
  exact hread.trans List.filterMap_some

theorem length_splitCandidates_le :
    (splitCandidates numKvRows scale x y indices validLen).length ≤ indices.length := by
  rw [splitCandidates, List.length_map]
  exact List.length_take_le' _ _

theorem splitCandidates_eq_nil_iff (hpos : 0 < indices.length) :
    splitCandidates numKvRows scale x y indices validLen = [] ↔ ¬ 0 < validLen := by
  rw [splitCandidates, List.map_eq_nil_iff, List.take_eq_nil_iff]
  constructor
  · rintro (h | h)
    · omega
    · rw [h] at hpos
      exact absurd hpos (lt_irrefl 0)
  · intro h
    exact Or.inl (by omega)

/-- The maximum that the kernels subtract. -/
theorem safeMax_eq (hpos : 0 < indices.length) :
    (if 0 < validLen then ofBot (peak (splitCandidates numKvRows scale x y indices validLen))
      else 0) = (fin (shift (splitCandidates numKvRows scale x y indices validLen)) : Scalar) := by
  by_cases hlen : 0 < validLen
  · have hne : splitCandidates numKvRows scale x y indices validLen ≠ [] :=
      fun h => (splitCandidates_eq_nil_iff hpos).mp h hlen
    rw [if_pos hlen, peak_eq_shift hne, ofBot_coe]
  · rw [if_neg hlen, (splitCandidates_eq_nil_iff hpos).mpr hlen]
    rfl

theorem le_nextPowerOfTwo : ∀ n < maxScoreWidth + 1, n ≤ n.nextPowerOfTwo := by
  unfold maxScoreWidth
  decide +kernel

/-- **The stats kernel** takes the maximum and the denominator of all the lanes. -/
theorem splitStatsKernel_eq (hkv : ∀ i < numKvRows, HoldsLanes headDim512 (kvFlat i) (y i))
    (hpos : 0 < indices.length) (hwidth : indices.length ≤ maxScoreWidth) {scores : ℕ → Scalar}
    (hscores : HoldsScores scores (splitCandidates numKvRows scale x y indices validLen)) :
    splitStatsKernel scores validLen indices.length =
      ((stateOf (splitCandidates numKvRows scale x y indices validLen)).maxScore,
        (stateOf (splitCandidates numKvRows scale x y indices validLen)).denom) := by
  have hlanes := splitLane_reads hkv hscores (List.range indices.length.nextPowerOfTwo)
  -- the lanes of a launch are rounded up to a power of two, so they cover the row
  have hcover : (truncate headDim512
      (splitCandidates numKvRows scale x y indices validLen)).length ≤
        indices.length.nextPowerOfTwo := by
    rw [truncate, List.length_map]
    exact le_trans length_splitCandidates_le (le_nextPowerOfTwo _ (Nat.lt_succ_of_le hwidth))
  have hmax := foldr_maskedScore hlanes
  have hdenom := fun m => sum_weight hlanes m
  simp only [reduceOption_lanes _ hcover, peak_truncate, weight_truncate] at hmax hdenom
  rw [List.map_map] at hmax
  have hload : Lane.maskedScore ∘ splitLane numKvRows kvFlat indices validLen scores =
      loadScore validLen indices.length scores := rfl
  rw [hload] at hmax
  simp only [splitStatsKernel, hmax, safeMax_eq hpos]
  refine Prod.ext rfl ?_
  refine Eq.trans ?_ (hdenom _)
  rw [List.map_map]
  rfl

/-- The candidates of a block of lanes. -/
noncomputable def blockCandidates (blockC : ℕ) (cands : List (Candidate (ℕ → ℝ))) (p : ℕ) :
    List (Candidate (ℕ → ℝ)) :=
  ((List.range blockC).map (fun j => cands[p * blockC + j]?)).reduceOption

/-- The blocks hold the candidates, in order. -/
theorem flatMap_blockCandidates {blockC m : ℕ} {cands : List (Candidate (ℕ → ℝ))}
    (h : cands.length ≤ m * blockC) :
    (List.range m).flatMap (blockCandidates blockC cands) = cands := by
  have hread := reduceOption_lanes cands h
  rw [range_mul, List.map_flatMap, List.reduceOption, List.filterMap_flatMap] at hread
  simp only [List.map_map] at hread
  exact hread

/-- A pass adds the candidates of its block to the moment. -/
theorem valueStep_eq (blockC : ℕ) (hkv : ∀ i < numKvRows, HoldsLanes headDim512 (kvFlat i) (y i))
    {scores : ℕ → Scalar}
    (hscores : HoldsScores scores (splitCandidates numKvRows scale x y indices validLen)) (m : ℝ)
    {d : ℕ} (hd : d < headDim512) (p : ℕ) (l : List (Candidate (ℕ → ℝ))) :
    valueStep blockC numKvRows scores kvFlat indices validLen (fin m) d
      (fin (Real.exp (-m) * moment l d)) p =
      fin (Real.exp (-m) * moment (l ++ blockCandidates blockC
        (truncate headDim512 (splitCandidates numKvRows scale x y indices validLen)) p) d) := by
  unfold valueStep
  split
  · have hlanes := splitLane_reads hkv hscores ((List.range blockC).map (p * blockC + ·))
    have hsum := sum_weight_mul hlanes m d
    rw [List.map_map, List.map_map, List.map_map] at hsum
    have hblock : ((List.range blockC).map (fun j =>
        laneWeight validLen indices.length scores (fin m) (p * blockC + j) *
          laneKv numKvRows kvFlat indices validLen (p * blockC + j) d)).sum =
        fin (Real.exp (-m) * moment (blockCandidates blockC
          (truncate headDim512 (splitCandidates numKvRows scale x y indices validLen)) p) d) := by
      refine Eq.trans (congrArg List.sum (List.map_congr_left (fun j _ => ?_))) hsum
      exact congrArg (laneWeight validLen indices.length scores (fin m) (p * blockC + j) * ·)
        (if_pos hd).symm
    rw [hblock, fin_add, moment_append, Pi.add_apply, mul_add]
  · next hbeyond =>
    -- a block that starts beyond the length has no candidate
    have hempty : blockCandidates blockC
        (truncate headDim512 (splitCandidates numKvRows scale x y indices validLen)) p = [] := by
      refine List.filterMap_eq_nil_iff.mpr (fun o ho => ?_)
      obtain ⟨j, -, rfl⟩ := List.mem_map.mp ho
      rw [id, List.getElem?_eq_none_iff, truncate, List.length_map, splitCandidates,
        List.length_map, List.length_take]
      omega
    rw [hempty, List.append_nil]

/-- **The value kernel** sums the weighted rows of all the lanes, block by block. -/
theorem splitValueKernel_eq {blockC blockD : ℕ} (hC : 0 < blockC) (hD : 0 < blockD)
    (hkv : ∀ i < numKvRows, HoldsLanes headDim512 (kvFlat i) (y i)) (hpos : 0 < indices.length)
    {scores : ℕ → Scalar}
    (hscores : HoldsScores scores (splitCandidates numKvRows scale x y indices validLen))
    (acc : ℕ → Scalar) {d : ℕ} (hd : d < headDim512) :
    splitValueKernel blockC blockD numKvRows scores kvFlat indices validLen
      (ofBot (peak (splitCandidates numKvRows scale x y indices validLen))) acc d =
      (stateOf (splitCandidates numKvRows scale x y indices validLen)).acc d := by
  have hcover : (truncate headDim512
      (splitCandidates numKvRows scale x y indices validLen)).length ≤
        cdiv indices.length blockC * blockC := by
    rw [truncate, List.length_map]
    exact le_trans length_splitCandidates_le (le_cdiv_mul hC)
  have hrun := foldl_rep (fun l : List (Candidate (ℕ → ℝ)) => (fin (Real.exp
    (-shift (splitCandidates numKvRows scale x y indices validLen)) * moment l d) : Scalar))
    (fun p (_ : p ∈ List.range (cdiv indices.length blockC)) l =>
      valueStep_eq blockC hkv hscores _ hd p l) []
  rw [List.nil_append, flatMap_blockCandidates hcover, moment_nil, moment_truncate hd,
    Pi.zero_apply, mul_zero] at hrun
  rw [splitValueKernel, safeMax_eq hpos, if_pos ((inGrid_iff hD).mpr hd)]
  exact hrun

/-- The split kernels see a row in two parts. -/
theorem splitCandidates_append (a b : List ℤ) :
    splitCandidates numKvRows scale x y (a ++ b) validLen =
      splitCandidates numKvRows scale x y a validLen ++
        splitCandidates numKvRows scale x y b (validLen - a.length) := by
  have hcap : validLen.toNat - a.length = (validLen - a.length).toNat := by omega
  rw [splitCandidates, List.take_append, List.map_append, hcap]
  rfl

/-- `chunk_lens` is clamped to the chunk, which changes nothing. -/
theorem splitCandidates_clamp (row : List ℤ) (len : ℤ) :
    splitCandidates numKvRows scale x y row (min (max len 0) row.length) =
      splitCandidates numKvRows scale x y row len := by
  unfold splitCandidates
  congr 1
  rcases Nat.le_total len.toNat row.length with hle | hle
  · congr 1
    omega
  · rw [List.take_of_length_le hle, List.take_of_length_le (by omega)]

end Kernels

/-! ### What the launches compute -/

section Launches
variable (blocks : SplitBlocks) {numHeads numKvRows : ℕ} {scale : ℝ} {q : ℕ → ℕ → Scalar}
  {x : ℕ → ℕ → ℝ} {kvFlat : ℕ → ℕ → Scalar} {y : ℕ → ℕ → ℝ} {indices : List ℤ} {lens : ℤ}

/-- **One run of the split kernels** leaves the state of all the lanes below the length
in every head. -/
theorem splitLaunches_agree (scale : ℝ) (lens : ℤ)
    (hq : ∀ h < numHeads, HoldsLanes headDim512 (q h) (x h))
    (hkv : ∀ i < numKvRows, HoldsLanes headDim512 (kvFlat i) (y i)) (hpos : 0 < indices.length)
    (hwidth : indices.length ≤ maxScoreWidth) (buffers : SplitBuffers) {h : ℕ}
    (hh : h < numHeads) :
    Agree headDim512
      ((splitLaunches blocks numHeads numKvRows scale q kvFlat indices lens buffers).state h)
      (stateOf (splitCandidates numKvRows scale (x h) y indices lens)) := by
  obtain ⟨hH, hC, hD⟩ := blocks.sizes_pos
  have hscores := splitScoreKernel_spec scale hC (hq h hh) hkv indices lens (buffers.scores h)
  have hstats := splitStatsKernel_eq hkv hpos hwidth hscores
  simp only [splitLaunches, if_pos ((inGrid_iff hH).mpr hh), if_pos hh, hstats]
  exact ⟨rfl, rfl, fun d hd => splitValueKernel_eq hC hD hkv hpos hscores _ hd⟩

theorem mergeLaunches_agree (running chunk : ℕ → State ℕ) {h : ℕ} (hh : h < numHeads) :
    Agree headDim512 (mergeLaunches blocks numHeads running chunk h)
      (merge (running h) (chunk h)) := by
  obtain ⟨hH, -, hD⟩ := blocks.sizes_pos
  have hscale : ∀ (s : State ℕ) (m : Scalar), mergeScale s.maxScore m = s.mergeWeight m :=
    fun s m => ite_not _ _ _
  simp only [mergeLaunches, if_pos ((inGrid_iff hH).mpr hh), if_pos hh, chunkedMergeAccKernel,
    chunkedMergeStateKernel, hscale]
  exact ⟨rfl, rfl, fun d hd => if_pos ((inGrid_iff hD).mpr hd)⟩

/-- A merge reads no more than what agrees. -/
theorem Agree.merge {n : ℕ} {s s' t t' : State ℕ} (hs : Agree n s s') (ht : Agree n t t') :
    Agree n (merge s t) (merge s' t') := by
  obtain ⟨hsmax, hsdenom, hsacc⟩ := hs
  obtain ⟨htmax, htdenom, htacc⟩ := ht
  refine ⟨?_, ?_, fun d hd => ?_⟩
  · simp only [OnlineSoftmax.merge, hsmax, htmax]
  · simp only [OnlineSoftmax.merge, State.mergeWeight, hsmax, htmax, hsdenom, htdenom]
  · simp only [OnlineSoftmax.merge, State.mergeWeight, hsmax, htmax, hsacc d hd, htacc d hd]

/-- **A pass of the chunk loop** takes in the next chunk. -/
theorem chunkedPass_agree (hq : ∀ h < numHeads, HoldsLanes headDim512 (q h) (x h))
    (hkv : ∀ i < numKvRows, HoldsLanes headDim512 (kvFlat i) (y i)) {chunkSize : ℕ}
    (hchunk : 0 < chunkSize) (hwidth : chunkSize ≤ maxScoreWidth) {start : ℕ}
    (hstart : start < indices.length) (buffers : SplitBuffers) {running : ℕ → State ℕ}
    (hrunning : ∀ h < numHeads, Agree headDim512 (running h)
      (stateOf (splitCandidates numKvRows scale (x h) y (indices.take start) lens))) :
    ∃ buffers' running', chunkedPass blocks numHeads numKvRows scale q kvFlat indices lens chunkSize
        (buffers, running) start = some (buffers', running') ∧
      ∀ h < numHeads, Agree headDim512 (running' h)
        (stateOf (splitCandidates numKvRows scale (x h) y (indices.take (start + chunkSize))
          lens)) := by
  set chunk := (indices.drop start).take chunkSize with hchunkdef
  set chunkLens := min (max (lens - start) 0) (chunk.length : ℤ) with hlensdef
  have hlen : chunk.length = min chunkSize (indices.length - start) := by
    rw [hchunkdef, List.length_take, List.length_drop]
  have hpos : 0 < chunk.length := by omega
  have hle : chunk.length ≤ maxScoreWidth := by omega
  have hrun : accumulateIndexedD512Split blocks numHeads numKvRows scale q kvFlat chunk chunkLens
      buffers = some (splitLaunches blocks numHeads numKvRows scale q kvFlat chunk chunkLens
        buffers) := if_pos hle
  refine ⟨splitLaunches blocks numHeads numKvRows scale q kvFlat chunk chunkLens buffers,
    mergeLaunches blocks numHeads running (splitLaunches blocks numHeads numKvRows scale q kvFlat
      chunk chunkLens buffers).state, ?_, ?_⟩
  · simp only [chunkedPass, ← hchunkdef, ← hlensdef, hrun, Option.bind_eq_bind, Option.bind_some]
  · intro h hh
    have hsplit := splitLaunches_agree blocks scale chunkLens hq hkv hpos hle buffers hh
    -- the cap of the chunk is what the lanes before it have left of the length
    have hcands : splitCandidates numKvRows scale (x h) y (indices.take (start + chunkSize)) lens =
        splitCandidates numKvRows scale (x h) y (indices.take start) lens ++
          splitCandidates numKvRows scale (x h) y chunk chunkLens := by
      have htake : (indices.take start).length = start := List.length_take_of_le hstart.le
      rw [List.take_add, splitCandidates_append, htake, hlensdef, splitCandidates_clamp]
    rw [hcands, ← merge_stateOf]
    exact (mergeLaunches_agree blocks running _ hh).trans ((hrunning h hh).merge hsplit)

/-- **The chunk loop** takes in the lanes below the length, chunk after chunk. -/
theorem accumulateIndexedD512Chunked_agree
    (hq : ∀ h < numHeads, HoldsLanes headDim512 (q h) (x h))
    (hkv : ∀ i < numKvRows, HoldsLanes headDim512 (kvFlat i) (y i)) {chunkSize : ℕ}
    (hchunk : 0 < chunkSize) (hwidth : chunkSize ≤ maxScoreWidth) (buffers : SplitBuffers) :
    ∃ buffers' running, accumulateIndexedD512Chunked blocks numHeads numKvRows scale q kvFlat
        indices lens chunkSize buffers = some (buffers', running) ∧
      ∀ h < numHeads, Agree headDim512 (running h)
        (stateOf (splitCandidates numKvRows scale (x h) y indices lens)) := by
  -- after `m` passes the running state has seen the first `m * chunkSize` lanes
  have hloop : ∀ m ≤ cdiv indices.length chunkSize, ∃ buffers' running,
      ((List.range m).map (· * chunkSize)).foldlM
        (chunkedPass blocks numHeads numKvRows scale q kvFlat indices lens chunkSize)
        (buffers, fun _ => State.empty) = some (buffers', running) ∧
      ∀ h < numHeads, Agree headDim512 (running h)
        (stateOf (splitCandidates numKvRows scale (x h) y (indices.take (m * chunkSize))
          lens)) := by
    intro m hm
    induction m with
    | zero =>
      refine ⟨buffers, fun _ => State.empty, rfl, fun h _ => ?_⟩
      have hnil :
          splitCandidates numKvRows scale (x h) y (indices.take (0 * chunkSize)) lens = [] := by
        rw [Nat.zero_mul, List.take_zero, splitCandidates, List.take_nil, List.map_nil]
      rw [hnil, stateOf_nil]
      exact ⟨rfl, rfl, fun _ _ => rfl⟩
    | succ m ih =>
      obtain ⟨buffers', running, hrun, hagree⟩ := ih (by omega)
      have hstart : m * chunkSize < indices.length := by
        have hmul := Nat.mul_le_mul_right chunkSize hm
        have hceil := Nat.div_mul_le_self (indices.length + chunkSize - 1) chunkSize
        rw [Nat.add_mul] at hmul
        unfold cdiv at hmul
        omega
      obtain ⟨buffers'', running', hpass, hagree'⟩ :=
        chunkedPass_agree blocks hq hkv hchunk hwidth hstart buffers' hagree
      refine ⟨buffers'', running', ?_, ?_⟩
      · rw [List.range_succ, List.map_append, List.foldlM_append, hrun]
        simp only [List.map_cons, List.map_nil, Option.bind_eq_bind, Option.bind_some,
          List.foldlM_cons, hpass, List.foldlM_nil]
        rfl
      · rw [Nat.add_mul, Nat.one_mul]
        exact hagree'
  obtain ⟨buffers', running, hrun, hagree⟩ := hloop _ le_rfl
  rw [List.take_of_length_le (le_cdiv_mul hchunk)] at hagree
  refine ⟨buffers', running, ?_, hagree⟩
  rw [accumulateIndexedD512Chunked, if_pos ⟨hchunk, hwidth⟩]
  exact hrun

end Launches

/-! ### The two paths -/

/-- The states give the same output, whatever the sink, and the same log-sum-exp. -/
def SameResult (s s' : State ℕ) : Prop :=
  (∀ sink, ∀ d < headDim512, finishAttentionStateWithSinkKernel s sink d =
    finishAttentionStateWithSinkKernel s' sink d) ∧
  stateLse s = stateLse s'

/-- Every lane below the length names a row of the KV. -/
def AllValid (numKvRows : ℕ) (indices : List ℤ) (lens : ℤ) : Prop :=
  ∀ i ∈ indices.take lens.toNat, 0 ≤ i ∧ i < numKvRows

instance (numKvRows : ℕ) (indices : List ℤ) (lens : ℤ) :
    Decidable (AllValid numKvRows indices lens) :=
  inferInstanceAs (Decidable (∀ i ∈ indices.take lens.toNat, 0 ≤ i ∧ i < numKvRows))

theorem Agree.symm {n : ℕ} {s t : State ℕ} (h : Agree n s t) : Agree n t s :=
  ⟨h.1.symm, h.2.1.symm, fun d hd => (h.2.2 d hd).symm⟩

/-- What is computed from a state reads no more than what agrees. -/
theorem Agree.sameResult {s s' : State ℕ} (h : Agree headDim512 s s') : SameResult s s' := by
  obtain ⟨hmax, hdenom, hacc⟩ := h
  refine ⟨fun sink d hd => ?_, ?_⟩
  · simp only [finishAttentionStateWithSinkKernel, hmax, hdenom, hacc d hd]
  · simp only [stateLse, hmax, hdenom]

/-- A lane that names no row weighs `exp 0` in the split path. -/
theorem weight_splitCandidates (numKvRows : ℕ) (scale : ℝ) (x : ℕ → ℝ) (y : ℕ → ℕ → ℝ)
    (row : List ℤ) :
    weight (row.map (splitCandidate numKvRows scale x y)) =
      weight (row.filterMap (indexedCandidate headDim512 numKvRows scale x y)) +
        row.countP (fun i : ℤ => ¬ (0 ≤ i ∧ i < numKvRows)) := by
  induction row with
  | nil => simp
  | cons i row ih =>
    rw [List.map_cons, ← List.singleton_append, weight_append, ih]
    by_cases hi : 0 ≤ i ∧ i < (numKvRows : ℤ)
    · have hsplit : splitCandidate numKvRows scale x y i =
          (dot headDim512 x (y i.toNat) * scale, y i.toNat) := if_pos hi
      have hindexed : indexedCandidate headDim512 numKvRows scale x y i =
          some (dot headDim512 x (y i.toNat) * scale, y i.toNat) := if_pos hi
      rw [List.filterMap_cons_some hindexed, hsplit, List.countP_cons_of_neg (by simpa using hi),
        ← List.singleton_append (l := row.filterMap _), weight_append]
      ring
    · have hsplit : splitCandidate numKvRows scale x y i = (0, fun _ => 0) := if_neg hi
      have hindexed : indexedCandidate headDim512 numKvRows scale x y i = none := if_neg hi
      have hzero : weight [((0 : ℝ), fun _ : ℕ => (0 : ℝ))] = 1 := by simp [weight]
      rw [List.filterMap_cons_none hindexed, hsplit, hzero,
        List.countP_cons_of_pos (p := fun i : ℤ => decide (¬ (0 ≤ i ∧ i < numKvRows)))
          (decide_eq_true hi)]
      push_cast
      ring

/-- Without such lanes the split path sees the candidates of the indexed path. -/
theorem map_splitCandidate_of_valid {numKvRows : ℕ} {scale : ℝ} {x : ℕ → ℝ} {y : ℕ → ℕ → ℝ}
    {row : List ℤ} (h : ∀ i ∈ row, 0 ≤ i ∧ i < numKvRows) :
    row.map (splitCandidate numKvRows scale x y) =
      row.filterMap (indexedCandidate headDim512 numKvRows scale x y) := by
  rw [← List.filterMap_eq_map]
  refine List.filterMap_congr (fun i hi => ?_)
  have hsplit : splitCandidate numKvRows scale x y i =
      (dot headDim512 x (y i.toNat) * scale, y i.toNat) := if_pos (h i hi)
  have hindexed : indexedCandidate headDim512 numKvRows scale x y i =
      some (dot headDim512 x (y i.toNat) * scale, y i.toNat) := if_pos (h i hi)
  rw [Function.comp_apply, hsplit, hindexed]

section Paths
variable {numHeads numKvRows : ℕ} {scale : ℝ} {q : ℕ → ℕ → Scalar} {x : ℕ → ℕ → ℝ}
  {kvFlat : ℕ → ℕ → Scalar} {y : ℕ → ℕ → ℝ} {indices : List ℤ} {lens : ℤ}

/-- The states of the multihead indexed launch from the empty state. -/
noncomputable def multiheadFromEmpty (numHeads numKvRows : ℕ) (scale : ℝ) (q : ℕ → ℕ → Scalar)
    (kvFlat : ℕ → ℕ → Scalar) (indices : List ℤ) (lens : ℤ) : ℕ → State ℕ :=
  launch (headGrid prefillIndexedHeadBlock numHeads)
    (multiheadProgram prefillIndexedHeadBlock numHeads headDim512 numKvRows 0 scale q kvFlat
      indices lens) (fun _ => State.empty)

theorem headDim512_le_blockD : headDim512 ≤ blockD headDim512 := by decide +kernel

/-- The indexed launch takes in the lanes that name a row. -/
theorem multiheadFromEmpty_agree (hq : ∀ h < numHeads, HoldsLanes headDim512 (q h) (x h))
    (hkv : ∀ i < numKvRows, HoldsLanes headDim512 (kvFlat i) (y i)) {h : ℕ} (hh : h < numHeads) :
    Agree headDim512 (multiheadFromEmpty numHeads numKvRows scale q kvFlat indices lens h)
      (stateOf ((indices.take lens.toNat).filterMap
        (indexedCandidate headDim512 numKvRows scale (x h) y))) := by
  have hlane := accumulateIndexedLane_stateOf headDim512_le_blockD 0 scale (hq h hh) hkv indices
    lens []
  rw [truncate_nil, stateOf_nil, List.nil_append, Nat.cast_zero, sub_zero] at hlane
  rw [multiheadFromEmpty, launch_multihead (by decide), if_pos hh, storedLane, hlane]
  obtain ⟨hmax, hdenom, hacc⟩ := stateOf_truncate headDim512
    ((indices.take lens.toNat).filterMap (indexedCandidate headDim512 numKvRows scale (x h) y))
  have hstored : storedDims headDim512 = headDim512 := min_eq_left headDim512_le_blockD
  exact ⟨hmax, hdenom, fun d hd => (if_pos (hstored.symm ▸ hd)).trans (hacc d hd)⟩

/-- A state of the lanes below the length has the indexed launch's result exactly when
they all name a row: each other lane adds to the log-sum-exp. -/
theorem sameResult_iff (hq : ∀ h < numHeads, HoldsLanes headDim512 (q h) (x h))
    (hkv : ∀ i < numKvRows, HoldsLanes headDim512 (kvFlat i) (y i)) {h : ℕ} (hh : h < numHeads)
    {s : State ℕ}
    (hs : Agree headDim512 s (stateOf (splitCandidates numKvRows scale (x h) y indices lens))) :
    SameResult s (multiheadFromEmpty numHeads numKvRows scale q kvFlat indices lens h) ↔
      AllValid numKvRows indices lens := by
  have hindexed : Agree headDim512
      (multiheadFromEmpty numHeads numKvRows scale q kvFlat indices lens h)
      (stateOf ((indices.take lens.toNat).filterMap
        (indexedCandidate headDim512 numKvRows scale (x h) y))) :=
    multiheadFromEmpty_agree hq hkv hh
  constructor
  · intro hsame
    have hlse : logSumExp (splitCandidates numKvRows scale (x h) y indices lens) =
        logSumExp ((indices.take lens.toNat).filterMap
          (indexedCandidate headDim512 numKvRows scale (x h) y)) := by
      rw [← stateLse_stateOf, ← stateLse_stateOf, ← hs.sameResult.2, hsame.2, hindexed.sameResult.2]
    -- the log-sum-exps fix the weights, and every lane without a row has added one
    have hweight := congrArg exp hlse
    rw [exp_logSumExp, exp_logSumExp, fin.injEq, splitCandidates, weight_splitCandidates] at hweight
    have hcount : (indices.take lens.toNat).countP
        (fun i => decide (¬ (0 ≤ i ∧ i < (numKvRows : ℤ)))) = 0 := by
      exact_mod_cast add_eq_left.mp hweight
    intro i hi
    have hnot := List.countP_eq_zero.mp hcount i hi
    rw [decide_eq_true_iff, not_not] at hnot
    exact hnot
  · intro hvalid
    rw [splitCandidates, map_splitCandidate_of_valid hvalid] at hs
    exact (hs.trans hindexed.symm).sameResult

/-- **The split path, once or in chunks, agrees with the indexed launch exactly when
every lane below the length names a row of the KV.**  A lane that does not is a row of
zeros with score zero to the split path. -/
theorem split_agrees_iff (blocks : SplitBlocks) (lens : ℤ) (buffers : SplitBuffers)
    (hq : ∀ h < numHeads, HoldsLanes headDim512 (q h) (x h))
    (hkv : ∀ i < numKvRows, HoldsLanes headDim512 (kvFlat i) (y i)) {h : ℕ} (hh : h < numHeads) :
    (0 < indices.length → indices.length ≤ maxScoreWidth →
      ∃ buffers', accumulateIndexedD512Split blocks numHeads numKvRows scale q kvFlat indices lens
          buffers = some buffers' ∧
        (SameResult (buffers'.state h)
          (multiheadFromEmpty numHeads numKvRows scale q kvFlat indices lens h) ↔
            AllValid numKvRows indices lens)) ∧
    ∀ chunkSize, 0 < chunkSize → chunkSize ≤ maxScoreWidth →
      ∃ buffers' running, accumulateIndexedD512Chunked blocks numHeads numKvRows scale q kvFlat
          indices lens chunkSize buffers = some (buffers', running) ∧
        (SameResult (running h)
          (multiheadFromEmpty numHeads numKvRows scale q kvFlat indices lens h) ↔
            AllValid numKvRows indices lens) := by
  constructor
  · intro hpos hwidth
    exact ⟨_, if_pos hwidth, sameResult_iff hq hkv hh
      (splitLaunches_agree blocks scale lens hq hkv hpos hwidth buffers hh)⟩
  · intro chunkSize hchunk hwidth
    obtain ⟨buffers', running, hrun, hagree⟩ :=
      accumulateIndexedD512Chunked_agree blocks hq hkv hchunk hwidth buffers
    exact ⟨buffers', running, hrun, sameResult_iff hq hkv hh (hagree h hh)⟩

end Paths

/-- The smallest blocks. -/
def smallBlocks : SplitBlocks := ⟨8, 32, 32, by decide, by decide, by decide⟩

/-- Rows of zeros: a query of one head, a KV of one row. -/
noncomputable def zeroRows (_ _ : ℕ) : Scalar := fin 0

theorem zeroRows_holds : ∀ i < 1, HoldsLanes headDim512 (zeroRows i) ((fun _ _ => 0) i) :=
  fun _ _ _ _ => rfl

/-- Buffers of zeros. -/
noncomputable def zeroBuffers : SplitBuffers := ⟨zeroRows, fun _ => ⟨fin 0, fin 0, zeroRows 0⟩⟩

/-- A hole behind the length costs nothing: one valid lane, then `-1`. -/
theorem split_agrees_iff_hole_behind :
    ∃ buffers' running, accumulateIndexedD512Chunked smallBlocks 1 1 1 zeroRows zeroRows [0, -1] 1 1
        zeroBuffers = some (buffers', running) ∧
      SameResult (running 0) (multiheadFromEmpty 1 1 1 zeroRows zeroRows [0, -1] 1 0) := by
  obtain ⟨buffers', running, hrun, hiff⟩ := (split_agrees_iff smallBlocks 1 zeroBuffers
    zeroRows_holds zeroRows_holds Nat.one_pos).2 1 Nat.one_pos (by decide)
  exact ⟨buffers', running, hrun, hiff.mpr (by decide)⟩

/-- A row of one lane, `-1`: the indexed launch has seen nothing, the split path has
seen a row of zeros. -/
theorem split_counts_invalid_lane :
    ∃ buffers', accumulateIndexedD512Split smallBlocks 1 1 1 zeroRows zeroRows [-1] 1 zeroBuffers =
        some buffers' ∧
      ¬ SameResult (buffers'.state 0)
        (multiheadFromEmpty 1 1 1 zeroRows zeroRows [-1] 1 0) := by
  have hpos : 0 < [(-1 : ℤ)].length := Nat.one_pos
  have hwidth : [(-1 : ℤ)].length ≤ maxScoreWidth := by decide
  refine ⟨_, if_pos hwidth, fun hsame => ?_⟩
  have hvalid := (sameResult_iff zeroRows_holds zeroRows_holds Nat.one_pos
    (splitLaunches_agree smallBlocks 1 1 zeroRows_holds zeroRows_holds hpos hwidth zeroBuffers
      Nat.one_pos)).mp hsame
  exact absurd (hvalid (-1) (by decide)).1 (by decide)

end Glm52
