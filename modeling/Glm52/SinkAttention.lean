import Glm52.FinishWithSink
import Glm52.SinkSoftmax
import Glm52.SplitAttention

/-! # Attention with a sink over materialised scores

`matmul_sparse_mla_attention_with_sink` computes all scores by one batched product and
leaves the softmax to one of three kernels: over blocks of heads, over blocks of value
dimensions, or over blocks of candidates.  The first two run through the candidates with
a state that starts from the sink (maximum the sink, denominator one); the third takes
the maximum of all scores first and then sums the weights.

A start from a sink of `-inf` needs no guard, because the first candidate rescales the
denominator of one by `exp(-inf)` (`sinkState`).  The two-pass form has no such first
candidate: without a valid one it computes `exp(-inf - -inf)`, so that its output is NaN
where the other two kernels store zero (`finish_materialized_exact`). -/
namespace Glm52
open ExactFloat Softmax OnlineSoftmax

/-! ### A state that starts from the sink -/

section SinkState
variable {ι : Type}

/-- `running_max = sink`, `running_denom = 1`, `running_acc = 0`. -/
noncomputable def startFromSink (sink : Scalar) : State ι := ⟨sink, fin 1, fun _ => 0⟩

/-- The state that started from the sink and has seen the candidates `l`: a finite sink
is a candidate with the zero value. -/
noncomputable def sinkState (sink : WithBot ℝ) (l : List (Candidate (ι → ℝ))) : State ι :=
  WithBot.recBotCoe (if l = [] then startFromSink negInf else stateOf l)
    (fun x => stateOf ((x, 0) :: l)) sink

theorem sinkState_bot_of_ne_nil {l : List (Candidate (ι → ℝ))} (hl : l ≠ []) :
    sinkState ⊥ l = stateOf l := if_neg hl

theorem sinkState_coe (x : ℝ) (l : List (Candidate (ι → ℝ))) :
    sinkState (x : WithBot ℝ) l = stateOf ((x, 0) :: l) := rfl

theorem sinkState_nil (sink : WithBot ℝ) :
    sinkState sink ([] : List (Candidate (ι → ℝ))) = startFromSink (ofBot sink) := by
  cases sink with
  | bot => rfl
  | coe x =>
    -- one candidate with the zero value, relative to its own score
    have hpeak : peak [(x, (0 : ι → ℝ))] = (x : WithBot ℝ) := peak_singleton _
    have hshift : shift [(x, (0 : ι → ℝ))] = x := by rw [shift, hpeak, WithBot.unbotD_coe]
    have hweight : Real.exp (-x) * weight [(x, (0 : ι → ℝ))] = 1 := by
      simp [weight, ← Real.exp_add]
    rw [sinkState_coe]
    ext
    · rw [stateOf, hpeak, startFromSink]
    · simp only [stateOf, startFromSink, hshift, hweight]
    · simp [stateOf, startFromSink, moment, zero_def]

/-- **One candidate**, after a sink of any kind. -/
theorem push_sinkState (sink : WithBot ℝ) (l : List (Candidate (ι → ℝ))) (s : ℝ) (v : ι → ℝ) :
    push (sinkState sink l) (fin s) (fun d => fin (v d)) = sinkState sink (l ++ [(s, v)]) := by
  cases sink with
  | bot =>
    have hne : l ++ [(s, v)] ≠ [] := by simp
    rw [sinkState_bot_of_ne_nil hne]
    by_cases hl : l = []
    · subst hl
      -- the denominator of one has the weight `exp(-inf)`
      have hstart : push (startFromSink negInf) (fin s) (fun d => fin (v d)) =
          push (stateOf []) (fin s) (fun d => fin (v d)) := by
        rw [stateOf_nil]
        ext <;> simp [push, startFromSink, State.empty, zero_def]
      rw [sinkState_nil, ofBot_bot, hstart, push_stateOf]
    · rw [sinkState_bot_of_ne_nil hl, push_stateOf]
  | coe x => rw [sinkState_coe, sinkState_coe, push_stateOf, List.cons_append]

/-- The quotient of a state with candidates. -/
theorem stateOf_quotient {l : List (Candidate (ι → ℝ))} (hl : l ≠ []) (d : ι) :
    (stateOf l).acc d / (stateOf l).denom = fin (attend l d) := by
  have hpos : 0 < Real.exp (-shift l) * weight l := mul_pos (Real.exp_pos _) (weight_pos hl)
  rw [stateOf, fin_div hpos.ne', mul_div_mul_left _ _ (Real.exp_ne_zero _), attend, Pi.smul_apply,
    smul_eq_mul, div_eq_inv_mul]

/-- **The quotient of a state that started from the sink** is attention with that sink,
without candidates and with a sink of `-inf` too. -/
theorem sinkState_quotient (sink : WithBot ℝ) (l : List (Candidate (ι → ℝ))) (d : ι) :
    (sinkState sink l).acc d / (sinkState sink l).denom =
      fin (attendWithSink (sinkWeight sink) l d) := by
  cases sink with
  | bot =>
    rw [sinkWeight_bot, attendWithSink_zero]
    by_cases hl : l = []
    · subst hl
      rw [sinkState_nil, attend_nil]
      simp [startFromSink, zero_def]
    · rw [sinkState_bot_of_ne_nil hl, stateOf_quotient hl]
  | coe x =>
    rw [sinkState_coe, stateOf_quotient (List.cons_ne_nil _ _), attend_cons_zero, sinkWeight_coe]

end SinkState

/-! ### The kernels, for one token and head -/

/-- The loop of the head-block and of the value-block kernel: a state that starts from the
sink runs through the valid candidates. -/
noncomputable def runFromSink (headDim numCandidates : ℕ) (scores : ℕ → Scalar)
    (kv : ℕ → ℕ → Scalar) (validTokens : ℕ → Bool) (sink : Scalar) : State ℕ :=
  (List.range numCandidates).foldl (fun (running : State ℕ) (candidateIdx : ℕ) =>
    if validTokens candidateIdx then
      push running (scores candidateIdx) (loadMasked headDim (kv candidateIdx))
    else running) (startFromSink sink)

/-- `_finish_materialized_scores_with_sink_kernel`: a head is a lane of a block of heads,
and holds all value dimensions. -/
noncomputable def finishMaterializedScoresWithSinkKernel (headDim numCandidates : ℕ)
    (scores : ℕ → Scalar) (kv : ℕ → ℕ → Scalar) (validTokens : ℕ → Bool) (sink : Scalar) (d : ℕ) :
    Scalar :=
  let running := runFromSink headDim numCandidates scores kv validTokens sink
  running.acc d / running.denom

/-- `_finish_materialized_scores_with_sink_value_block_kernel`: a program a head and block
of value dimensions. -/
noncomputable def finishMaterializedScoresWithSinkValueBlockKernel (headDim numCandidates : ℕ)
    (scores : ℕ → Scalar) (kv : ℕ → ℕ → Scalar) (validTokens : ℕ → Bool) (sink : Scalar) (d : ℕ) :
    Scalar :=
  let running := runFromSink headDim numCandidates scores kv validTokens sink
  running.acc d / running.denom

/-- The loads of the candidate-block kernel for candidate `c`: valid within the row, with
a score of `-inf` and a value of zero otherwise. -/
noncomputable def candidateLane (headDim numCandidates : ℕ) (scores : ℕ → Scalar)
    (kv : ℕ → ℕ → Scalar) (validTokens : ℕ → Bool) (c : ℕ) : Lane ℕ :=
  let isValid := decide (c < numCandidates) && validTokens c
  { valid := isValid
    score := scores c
    value := fun d => if isValid && decide (d < headDim) then kv c d else 0 }

/-- `_finish_materialized_scores_with_sink_candidate_block_kernel`: the maximum of the sink
and all scores, then the sums of the weights and of the weighted values, each in blocks of
`BLOCK_K` candidates. -/
noncomputable def finishMaterializedScoresWithSinkCandidateBlockKernel
    (headDim numCandidates blockK : ℕ) (scores : ℕ → Scalar) (kv : ℕ → ℕ → Scalar)
    (validTokens : ℕ → Bool) (sink : Scalar) (d : ℕ) : Scalar :=
  let candidateStarts := (List.range (cdiv numCandidates blockK)).map (· * blockK)
  let lanes := fun candidateStart => (List.range blockK).map (fun j =>
    candidateLane headDim numCandidates scores kv validTokens (candidateStart + j))
  let maxScore := candidateStarts.foldl (fun m start =>
    maximum m (((lanes start).map Lane.maskedScore).foldr maximum negInf)) sink
  let weights := fun lane : Lane ℕ => exp (lane.maskedScore - maxScore)
  let denom := candidateStarts.foldl (fun denom start => denom + ((lanes start).map weights).sum)
    (exp (sink - maxScore))
  let acc := candidateStarts.foldl (fun acc start =>
    acc + ((lanes start).map (fun lane => lane.value d * weights lane)).sum) 0
  acc / denom

/-! ### The wrapper, for one token -/

/-- What the wrapper gets: the number of heads of the scores, of the output and of the
sink, the width of a row, and the tensors. -/
structure MaterializedScores where
  scoreHeads : ℕ
  outputHeads : ℕ
  sinkHeads : ℕ
  headDim : ℕ
  numCandidates : ℕ
  scores : ℕ → ℕ → Scalar
  kv : ℕ → ℕ → Scalar
  validTokens : ℕ → Bool
  attnSink : ℕ → Scalar

/-- The keyword arguments. -/
structure FinishOptions where
  numHeads : Option ℕ
  headBlockSize : ℕ
  valueBlockSize : Option ℕ
  candidateBlockSize : Option ℕ

/-- `num_heads if num_heads is not None else output.shape[1]`. -/
def FinishOptions.activeHeads (opts : FinishOptions) (t : MaterializedScores) : ℕ :=
  opts.numHeads.getD t.outputHeads

/-- The asserted sizes. -/
def FinishOptions.Asserted (opts : FinishOptions) (t : MaterializedScores) : Prop :=
  opts.headBlockSize ∈ [1, 2, 4] ∧
  (∀ v, opts.valueBlockSize = some v → v ∈ [64, 128, 256, 512]) ∧
  (∀ k, opts.candidateBlockSize = some k → k ∈ [16, 32, 64, 128]) ∧
  opts.activeHeads t ≤ t.scoreHeads ∧ opts.activeHeads t ≤ t.outputHeads ∧
  opts.activeHeads t ≤ t.sinkHeads

instance (opts : FinishOptions) (t : MaterializedScores) : Decidable (opts.Asserted t) :=
  inferInstanceAs (Decidable (_ ∧ _))

/-- `_smallest_block_d_covering`. -/
def smallestBlockDCovering (hd : ℕ) : ℕ := ([64, 128, 256, 512].find? (hd ≤ ·)).getD 512

/-- The cells of a launch over blocks of heads and blocks of value dimensions; the others
keep what the output held. -/
noncomputable def storeBlocks (headBlock numHeads blockD headDim : ℕ) (lane output : ℕ → ℕ → Scalar)
    (h d : ℕ) : Scalar :=
  if InGrid headBlock numHeads h ∧ InGrid blockD headDim d then lane h d else output h d

/-- `finish_materialized_sparse_mla_scores_with_sink`: what the output holds afterwards. -/
noncomputable def finishMaterializedSparseMlaScoresWithSink (t : MaterializedScores)
    (opts : FinishOptions) (output : ℕ → ℕ → Scalar) : Option (ℕ → ℕ → Scalar) :=
  if opts.Asserted t then
    let activeHeads := opts.activeHeads t
    let valueKernel := fun h => finishMaterializedScoresWithSinkValueBlockKernel t.headDim
      t.numCandidates (t.scores h) t.kv t.validTokens (t.attnSink h)
    let headKernel := fun h => finishMaterializedScoresWithSinkKernel t.headDim t.numCandidates
      (t.scores h) t.kv t.validTokens (t.attnSink h)
    -- one program holds all the value dimensions of its heads, up to the largest block
    let headLaunch := fun h d =>
      if InGrid opts.headBlockSize activeHeads h ∧ d < blockD t.headDim ∧ d < t.headDim then
        headKernel h d
      else output h d
    let stored := match opts.candidateBlockSize with
      | some blockK =>
        let targetBlockD := smallestBlockDCovering t.headDim
        let blockD := match opts.valueBlockSize with
          | none => targetBlockD
          | some valueBlockSize => min valueBlockSize targetBlockD
        storeBlocks 1 activeHeads blockD t.headDim
          (fun h => finishMaterializedScoresWithSinkCandidateBlockKernel t.headDim t.numCandidates
            blockK (t.scores h) t.kv t.validTokens (t.attnSink h)) output
      | none =>
        match opts.valueBlockSize with
        | some valueBlockSize =>
          if valueBlockSize < t.headDim then
            storeBlocks 1 activeHeads valueBlockSize t.headDim valueKernel output
          else headLaunch
        | none => headLaunch
    -- `output[:, active_heads:].zero_()`
    some (fun h d => if activeHeads ≤ h ∧ h < t.outputHeads then 0 else stored h d)
  else none

/-- `matmul_sparse_mla_attention_with_sink`, for `t.scoreHeads` heads of the query: the
scores by one product over the head dimension, then scaled. -/
noncomputable def matmulSparseMlaAttentionWithSink (t : MaterializedScores) (q : ℕ → ℕ → Scalar)
    (scale : ℝ) (opts : FinishOptions) (output : ℕ → ℕ → Scalar) : Option (ℕ → ℕ → Scalar) :=
  if opts.activeHeads t ≤ t.scoreHeads then
    let scoreBuffer := fun h c =>
      ((List.range t.headDim).map (fun d => q h d * t.kv c d)).sum * fin scale
    finishMaterializedSparseMlaScoresWithSink
      { t with scores := scoreBuffer, scoreHeads := opts.activeHeads t } opts output
  else none

/-! ### What the kernels compute -/

/-- The candidates of a row: the valid positions, with the score `s c` and the value
`y c`. -/
noncomputable def validCandidates (numCandidates : ℕ) (validTokens : ℕ → Bool) (s : ℕ → ℝ)
    (y : ℕ → ℕ → ℝ) : List (Candidate (ℕ → ℝ)) :=
  (List.range numCandidates).filterMap (fun c => if validTokens c then some (s c, y c) else none)

theorem validCandidates_eq_nil {numCandidates : ℕ} {validTokens : ℕ → Bool} {s : ℕ → ℝ}
    {y : ℕ → ℕ → ℝ} : validCandidates numCandidates validTokens s y = [] ↔
      ∀ c < numCandidates, validTokens c = false := by
  simp [validCandidates, List.filterMap_eq_nil_iff]

theorem truncate_validCandidates (headDim numCandidates : ℕ) (validTokens : ℕ → Bool) (s : ℕ → ℝ)
    (y : ℕ → ℕ → ℝ) : truncate headDim (validCandidates numCandidates validTokens s y) =
      (List.range numCandidates).filterMap (fun c => (if validTokens c then some (s c, y c)
        else none).map (fun cand => (cand.1, fun d => if d < headDim then cand.2 d else 0))) := by
  rw [truncate, validCandidates, List.map_filterMap]

/-- The scores and the rows of the valid candidates are the numbers `s` and `y`. -/
structure HoldsCandidates (headDim numCandidates : ℕ) (validTokens : ℕ → Bool) (scores : ℕ → Scalar)
    (kv : ℕ → ℕ → Scalar) (s : ℕ → ℝ) (y : ℕ → ℕ → ℝ) : Prop where
  score : ∀ c < numCandidates, validTokens c = true → scores c = fin (s c)
  row : ∀ c < numCandidates, validTokens c = true → HoldsLanes headDim (kv c) (y c)

/-- What a lane of the candidate-block kernel reads, its value cut to the row. -/
noncomputable def blockItem (headDim numCandidates : ℕ) (validTokens : ℕ → Bool) (s : ℕ → ℝ)
    (y : ℕ → ℕ → ℝ) (c : ℕ) : Option (Candidate (ℕ → ℝ)) :=
  (if decide (c < numCandidates) && validTokens c then some (s c, y c) else none).map
    (fun cand => (cand.1, fun d => if d < headDim then cand.2 d else 0))

/-- The blocks read the valid candidates, in order. -/
theorem flatMap_blockItem {headDim numCandidates blockK : ℕ} (hK : 0 < blockK)
    {validTokens : ℕ → Bool} {s : ℕ → ℝ} {y : ℕ → ℕ → ℝ} :
    ((List.range (cdiv numCandidates blockK)).map (· * blockK)).flatMap (fun start =>
        (List.range blockK).filterMap (fun j =>
          blockItem headDim numCandidates validTokens s y (start + j))) =
      truncate headDim (validCandidates numCandidates validTokens s y) := by
  rw [Ragged.filterMap_range_blocks (le_cdiv_mul hK), truncate_validCandidates]
  · refine List.filterMap_congr fun c hc => ?_
    rw [blockItem, decide_eq_true (List.mem_range.mp hc), Bool.true_and]
  · intro c hc
    rw [blockItem, decide_eq_false (not_lt.mpr hc), Bool.false_and, if_neg Bool.false_ne_true,
      Option.map_none]

/-! Facts about floats that the two-pass form needs. -/

/-- The weight of a lane relative to a number needs no guard. -/
theorem maskedWeight_eq (m : ℝ) (lane : Lane ℕ) :
    exp (lane.maskedScore - fin m) = lane.weight (fin m) := by
  unfold Lane.weight Lane.maskedScore
  by_cases hvalid : lane.valid = true
  · simp only [hvalid, if_true]
  · simp only [hvalid, if_false, negInf_sub_fin, exp_negInf, zero_def, Bool.false_eq_true]

theorem scalar_mul_comm (x y : Scalar) : x * y = y * x := by
  cases x <;> cases y <;> first | rfl | exact congrArg fin (mul_comm _ _)

theorem div_nan (x : Scalar) : x / nan = nan := by cases x <;> rfl

theorem foldl_nan {α : Type} (xs : List α) (term : α → Scalar) :
    xs.foldl (fun acc x => acc + term x) nan = nan := by
  induction xs with
  | nil => rfl
  | cons x xs ih => exact ih

/-- The weight of a sink relative to a number. -/
theorem exp_ofBot_sub (sink : WithBot ℝ) (m : ℝ) :
    exp (ofBot sink - fin m) = fin (Real.exp (-m) * sinkWeight sink) := by
  cases sink with
  | bot => simp
  | coe x => rw [ofBot_coe, fin_sub, exp_fin, exp_sub_eq, sinkWeight_coe]

theorem max_peak_ne_bot {l : List (Candidate (ℕ → ℝ))} {sink : WithBot ℝ}
    (h : l ≠ [] ∨ sink ≠ ⊥) : max sink (peak l) ≠ ⊥ := by
  intro hbot
  obtain ⟨hsink, hpeak⟩ := max_eq_bot.mp hbot
  rcases h with hl | hne
  · exact hl (peak_eq_bot.mp hpeak)
  · exact hne hsink

section Kernels
variable {headDim numCandidates : ℕ} {validTokens : ℕ → Bool} {scores : ℕ → Scalar}
  {kv : ℕ → ℕ → Scalar} {s : ℕ → ℝ} {y : ℕ → ℕ → ℝ}
  (holds : HoldsCandidates headDim numCandidates validTokens scores kv s y)
include holds

/-- **The running kernels take in the valid candidates** after the sink. -/
theorem runFromSink_eq (sink : WithBot ℝ) :
    runFromSink headDim numCandidates scores kv validTokens (ofBot sink) =
      sinkState sink (truncate headDim (validCandidates numCandidates validTokens s y)) := by
  rw [← List.nil_append (validCandidates _ _ _ _), runFromSink, ← sinkState_nil]
  refine foldl_rep_filterMap (fun l => sinkState sink (truncate headDim l)) (fun c hc l => ?_) []
  have hlt := List.mem_range.mp hc
  by_cases hvalid : validTokens c = true
  · rw [if_pos hvalid, if_pos hvalid, holds.score c hlt hvalid, (holds.row c hlt hvalid).loadMasked,
      push_sinkState, Option.toList_some, truncate_append]
    rfl
  · rw [if_neg hvalid, if_neg hvalid, Option.toList_none, List.append_nil]

/-- **The running kernels compute attention with the sink**, for every sink. -/
theorem runFromSink_quotient (sink : WithBot ℝ) {d : ℕ} (hd : d < headDim) :
    (runFromSink headDim numCandidates scores kv validTokens (ofBot sink)).acc d /
        (runFromSink headDim numCandidates scores kv validTokens (ofBot sink)).denom =
      fin (attendWithSink (sinkWeight sink) (validCandidates numCandidates validTokens s y) d) := by
  rw [runFromSink_eq holds, sinkState_quotient, attendWithSink_truncate hd]

/-- A lane of the candidate-block kernel reads its candidate, and zeros when it has none. -/
theorem candidateLane_reads (c : ℕ) :
    (candidateLane headDim numCandidates scores kv validTokens c).Reads
      (blockItem headDim numCandidates validTokens s y c) := by
  unfold blockItem
  by_cases hvalid : (decide (c < numCandidates) && validTokens c) = true
  · obtain ⟨hc, htoken⟩ := Bool.and_eq_true_iff.mp hvalid
    have hlt := of_decide_eq_true hc
    rw [if_pos hvalid]
    refine ⟨hvalid, holds.score c hlt htoken, fun d => ?_⟩
    simp only [candidateLane, hvalid, Bool.true_and]
    by_cases hd : d < headDim
    · simp only [hd, decide_true, if_true, holds.row c hlt htoken d hd]
    · simp only [hd, decide_false, Bool.false_eq_true, if_false, zero_def]
  · rw [if_neg hvalid]
    refine ⟨Bool.eq_false_iff.mpr hvalid, fun d => ?_⟩
    simp only [candidateLane, Bool.eq_false_iff.mpr hvalid, Bool.false_and, Bool.false_eq_true,
      if_false]

/-- **A loop over the blocks**, by what one block of lanes adds. -/
theorem foldl_candidateBlocks {σ : Type} {blockK : ℕ} (hK : 0 < blockK)
    (rep : List (Candidate (ℕ → ℝ)) → σ) (step : σ → List (Lane ℕ) → σ)
    (hstep : ∀ {lanes cs}, List.Forall₂ Lane.Reads lanes cs → ∀ l,
      step (rep l) lanes = rep (l ++ cs.reduceOption)) :
    ((List.range (cdiv numCandidates blockK)).map (· * blockK)).foldl (fun acc start =>
        step acc ((List.range blockK).map (fun j =>
          candidateLane headDim numCandidates scores kv validTokens (start + j)))) (rep []) =
      rep (truncate headDim (validCandidates numCandidates validTokens s y)) := by
  rw [← flatMap_blockItem hK, ← List.nil_append (List.flatMap _ _)]
  refine foldl_rep rep (fun start _ l => ?_) []
  have hreads : List.Forall₂ Lane.Reads
      ((List.range blockK).map (fun j =>
        candidateLane headDim numCandidates scores kv validTokens (start + j)))
      ((List.range blockK).map (fun j =>
        blockItem headDim numCandidates validTokens s y (start + j))) := by
    rw [List.forall₂_map_left_iff, List.forall₂_map_right_iff, List.forall₂_same]
    exact fun j _ => candidateLane_reads holds (start + j)
  rw [hstep hreads, List.reduceOption, List.filterMap_map]
  rfl

/-- **The first pass**: the maximum of the sink and of all scores. -/
theorem candidateBlock_max {blockK : ℕ} (hK : 0 < blockK) (sink : WithBot ℝ) :
    ((List.range (cdiv numCandidates blockK)).map (· * blockK)).foldl (fun m start =>
        maximum m ((((List.range blockK).map (fun j => candidateLane headDim numCandidates scores kv
          validTokens (start + j))).map Lane.maskedScore).foldr maximum negInf)) (ofBot sink) =
      ofBot (max sink (peak (validCandidates numCandidates validTokens s y))) := by
  have hloop := foldl_candidateBlocks holds hK (fun l => (ofBot (max sink (peak l)) : Scalar))
    (fun m lanes => maximum m ((lanes.map Lane.maskedScore).foldr maximum negInf)) ?_
  · rw [peak_truncate, peak_nil, max_eq_left bot_le] at hloop
    exact hloop
  · intro lanes cs hreads l
    rw [foldr_maskedScore hreads, maximum_ofBot, peak_append, max_assoc]

/-- **The second pass**: the weights and the weighted values, relative to a number. -/
theorem candidateBlock_sums {blockK : ℕ} (hK : 0 < blockK) (sink : WithBot ℝ) (m : ℝ) {d : ℕ}
    (hd : d < headDim) :
    ((List.range (cdiv numCandidates blockK)).map (· * blockK)).foldl (fun denom start =>
        denom + (((List.range blockK).map (fun j => candidateLane headDim numCandidates scores kv
          validTokens (start + j))).map (fun lane => exp (lane.maskedScore - fin m))).sum)
        (fin (Real.exp (-m) * sinkWeight sink)) =
      fin (Real.exp (-m) * (sinkWeight sink +
        weight (validCandidates numCandidates validTokens s y))) ∧
    ((List.range (cdiv numCandidates blockK)).map (· * blockK)).foldl (fun acc start =>
        acc + (((List.range blockK).map (fun j => candidateLane headDim numCandidates scores kv
          validTokens (start + j))).map (fun lane =>
            lane.value d * exp (lane.maskedScore - fin m))).sum) 0 =
      fin (Real.exp (-m) * moment (validCandidates numCandidates validTokens s y) d) := by
  constructor
  · have hloop := foldl_candidateBlocks holds hK
      (fun l => (fin (Real.exp (-m) * (sinkWeight sink + weight l)) : Scalar))
      (fun denom lanes => denom + (lanes.map (fun lane => exp (lane.maskedScore - fin m))).sum) ?_
    · rw [weight_nil, add_zero, weight_truncate] at hloop
      exact hloop
    · intro lanes cs hreads l
      simp only [maskedWeight_eq]
      rw [sum_weight hreads, fin_add, weight_append, ← mul_add, add_assoc]
  · have hloop := foldl_candidateBlocks holds hK
      (fun l => (fin (Real.exp (-m) * moment l d) : Scalar))
      (fun acc lanes => acc +
        (lanes.map (fun lane => lane.value d * exp (lane.maskedScore - fin m))).sum) ?_
    · rw [moment_nil, Pi.zero_apply, mul_zero, moment_truncate hd] at hloop
      exact hloop
    · intro lanes cs hreads l
      simp only [maskedWeight_eq, scalar_mul_comm (Lane.value _ _)]
      rw [sum_weight_mul hreads, fin_add, moment_append, Pi.add_apply, mul_add]

/-- **The candidate-block kernel computes attention with the sink**, once there is a
candidate or a finite sink. -/
theorem candidateBlock_eq {blockK : ℕ} (hK : 0 < blockK) {sink : WithBot ℝ}
    (hsome : validCandidates numCandidates validTokens s y ≠ [] ∨ sink ≠ ⊥) {d : ℕ}
    (hd : d < headDim) :
    finishMaterializedScoresWithSinkCandidateBlockKernel headDim numCandidates blockK scores kv
        validTokens (ofBot sink) d =
      fin (attendWithSink (sinkWeight sink) (validCandidates numCandidates validTokens s y) d) := by
  obtain ⟨m, hm⟩ := WithBot.ne_bot_iff_exists.mp (max_peak_ne_bot hsome)
  have hmax := candidateBlock_max holds hK sink
  rw [← hm, ofBot_coe] at hmax
  obtain ⟨hdenom, hacc⟩ := candidateBlock_sums holds hK sink m hd
  have hpos := total_weight_pos hsome
  rw [add_comm] at hpos
  unfold finishMaterializedScoresWithSinkCandidateBlockKernel
  simp only [hmax, exp_ofBot_sub]
  rw [hdenom, hacc, fin_div (mul_ne_zero (Real.exp_ne_zero _) hpos.ne'),
    mul_div_mul_left _ _ (Real.exp_ne_zero _), attendWithSink_apply, add_comm]

/-- **Without a candidate and with a sink of `-inf`** the candidate-block kernel divides by
`exp(-inf - -inf)`. -/
theorem candidateBlock_nan {blockK : ℕ} (hK : 0 < blockK) {sink : WithBot ℝ}
    (hnone : ¬ (validCandidates numCandidates validTokens s y ≠ [] ∨ sink ≠ ⊥)) (d : ℕ) :
    finishMaterializedScoresWithSinkCandidateBlockKernel headDim numCandidates blockK scores kv
      validTokens (ofBot sink) d = nan := by
  rw [not_or, not_not, not_not] at hnone
  obtain ⟨hnil, rfl⟩ := hnone
  have hmax := candidateBlock_max holds hK ⊥
  rw [hnil, peak_nil, max_self, ofBot_bot] at hmax
  unfold finishMaterializedScoresWithSinkCandidateBlockKernel
  simp only [ofBot_bot, hmax]
  have hstart : exp (negInf - negInf) = nan := rfl
  rw [hstart, foldl_nan, div_nan]

end Kernels

/-! ### The wrapper -/

/-- The value dimensions that the launch of the wrapper stores: all of them when they are
split into blocks, those of one program otherwise. -/
def FinishOptions.Stores (opts : FinishOptions) (headDim d : ℕ) : Prop :=
  opts.candidateBlockSize.isSome ∨ (∃ v, opts.valueBlockSize = some v ∧ v < headDim) ∨
    d < blockD headDim

/-- Rows of up to 1024 dimensions are stored whole. -/
theorem FinishOptions.stores_of_le (opts : FinishOptions) {headDim d : ℕ} (hle : headDim ≤ 1024)
    (hd : d < headDim) : opts.Stores headDim d := by
  have hcover := le_nextPowerOfTwo headDim (by unfold maxScoreWidth; omega)
  refine Or.inr (Or.inr ?_)
  unfold blockD
  omega

/-- What a head's lane holds for a value dimension. -/
noncomputable def sinkOutput (opts : FinishOptions) (sink : WithBot ℝ)
    (cands : List (Candidate (ℕ → ℝ))) (d : ℕ) : Scalar :=
  if opts.candidateBlockSize.isSome ∧ sink = ⊥ ∧ cands = [] then nan
  else fin (attendWithSink (sinkWeight sink) cands d)

theorem smallestBlockDCovering_pos (hd : ℕ) : 0 < smallestBlockDCovering hd := by
  unfold smallestBlockDCovering
  cases hfind : [64, 128, 256, 512].find? (hd ≤ ·) with
  | none => decide
  | some b =>
    have hmem := List.mem_of_find?_eq_some hfind
    simp only [List.mem_cons, List.not_mem_nil, or_false] at hmem
    rw [Option.getD_some]
    omega

theorem storeBlocks_apply {headBlock blockD : ℕ} (hB : 0 < headBlock) (hD : 0 < blockD)
    (numHeads headDim : ℕ) (lane output : ℕ → ℕ → Scalar) (h d : ℕ) :
    storeBlocks headBlock numHeads blockD headDim lane output h d =
      if h < numHeads ∧ d < headDim then lane h d else output h d := by
  unfold storeBlocks
  exact if_congr (and_congr (inGrid_iff hB) (inGrid_iff hD)) rfl rfl

theorem pos_of_mem_sizes {size : ℕ} {sizes : List ℕ} (hmem : size ∈ sizes) (hzero : 0 ∉ sizes) :
    0 < size := by
  refine Nat.pos_of_ne_zero ?_
  rintro rfl
  exact hzero hmem

section Asserted
variable {opts : FinishOptions} {t : MaterializedScores} (hasserted : opts.Asserted t)
include hasserted

theorem FinishOptions.Asserted.headBlockSize_pos : 0 < opts.headBlockSize :=
  pos_of_mem_sizes hasserted.1 (by decide)

theorem FinishOptions.Asserted.valueBlockSize_pos {v : ℕ} (hv : opts.valueBlockSize = some v) :
    0 < v :=
  pos_of_mem_sizes (hasserted.2.1 v hv) (by decide)

theorem FinishOptions.Asserted.candidateBlockSize_pos {k : ℕ}
    (hk : opts.candidateBlockSize = some k) : 0 < k :=
  pos_of_mem_sizes (hasserted.2.2.1 k hk) (by decide)

end Asserted

section Wrapper
variable {t : MaterializedScores} {opts : FinishOptions} {output out : ℕ → ℕ → Scalar}

/-- The scores, the rows and the sinks of the active heads are numbers. -/
structure HoldsScoresOf (t : MaterializedScores) (opts : FinishOptions) (s : ℕ → ℕ → ℝ)
    (y : ℕ → ℕ → ℝ) (sink : ℕ → WithBot ℝ) : Prop where
  holds : ∀ h < opts.activeHeads t, HoldsCandidates t.headDim t.numCandidates t.validTokens
    (t.scores h) t.kv (s h) y
  sink : ∀ h < opts.activeHeads t, t.attnSink h = ofBot (sink h)

theorem finishMaterialized_asserted
    (hout : finishMaterializedSparseMlaScoresWithSink t opts output = some out) :
    opts.Asserted t := by
  by_contra hfail
  rw [finishMaterializedSparseMlaScoresWithSink, if_neg hfail] at hout
  cases hout

/-- Heads beyond the active ones are zeroed. -/
theorem finishMaterialized_inactive
    (hout : finishMaterializedSparseMlaScoresWithSink t opts output = some out) {h : ℕ}
    (hge : opts.activeHeads t ≤ h) (hh : h < t.outputHeads) (d : ℕ) : out h d = 0 := by
  rw [finishMaterializedSparseMlaScoresWithSink, if_pos (finishMaterialized_asserted hout)] at hout
  rw [← Option.some.inj hout]
  exact if_pos ⟨hge, hh⟩

/-- **The candidate-block launch** stores every value dimension. -/
theorem finishMaterialized_candidateBlock {s : ℕ → ℕ → ℝ} {y : ℕ → ℕ → ℝ} {sink : ℕ → WithBot ℝ}
    (holds : HoldsScoresOf t opts s y sink)
    (hout : finishMaterializedSparseMlaScoresWithSink t opts output = some out) {blockK : ℕ}
    (hk : opts.candidateBlockSize = some blockK) {h : ℕ} (hh : h < opts.activeHeads t) {d : ℕ}
    (hd : d < t.headDim) : out h d = sinkOutput opts (sink h)
      (validCandidates t.numCandidates t.validTokens (s h) y) d := by
  have hasserted := finishMaterialized_asserted hout
  have hrow := holds.holds h hh
  have hkPos := hasserted.candidateBlockSize_pos hk
  have hinactive : ¬ (opts.activeHeads t ≤ h ∧ h < t.outputHeads) := fun hbad => by omega
  have hblock : 0 < (match opts.valueBlockSize with
      | none => smallestBlockDCovering t.headDim
      | some v => min v (smallestBlockDCovering t.headDim)) := by
    cases hv : opts.valueBlockSize with
    | none => exact smallestBlockDCovering_pos _
    | some v => exact lt_min (hasserted.valueBlockSize_pos hv) (smallestBlockDCovering_pos _)
  rw [finishMaterializedSparseMlaScoresWithSink, if_pos hasserted] at hout
  rw [← Option.some.inj hout]
  simp only [if_neg hinactive, hk]
  rw [storeBlocks_apply Nat.one_pos hblock, if_pos ⟨hh, hd⟩, holds.sink h hh, sinkOutput, hk]
  by_cases hsome : validCandidates t.numCandidates t.validTokens (s h) y ≠ [] ∨ sink h ≠ ⊥
  · rw [candidateBlock_eq hrow hkPos hsome hd, if_neg]
    rintro ⟨-, hbot, hnil⟩
    exact hsome.elim (absurd hnil) (absurd hbot)
  · rw [candidateBlock_nan hrow hkPos hsome]
    rw [not_or, not_not, not_not] at hsome
    rw [if_pos ⟨rfl, hsome.2, hsome.1⟩]

/-- The lane that both running kernels compute. -/
theorem runningLane_eq {s : ℕ → ℕ → ℝ} {y : ℕ → ℕ → ℝ} {sink : ℕ → WithBot ℝ}
    (holds : HoldsScoresOf t opts s y sink) (hk : opts.candidateBlockSize = none) {h : ℕ}
    (hh : h < opts.activeHeads t) {d : ℕ} (hd : d < t.headDim) :
    finishMaterializedScoresWithSinkKernel t.headDim t.numCandidates (t.scores h) t.kv t.validTokens
      (t.attnSink h) d =
      sinkOutput opts (sink h) (validCandidates t.numCandidates t.validTokens (s h) y) d := by
  have hno : ¬ (opts.candidateBlockSize.isSome = true ∧ sink h = ⊥ ∧
      validCandidates t.numCandidates t.validTokens (s h) y = []) := by
    rw [hk]
    rintro ⟨hfalse, -⟩
    exact Bool.false_ne_true hfalse
  rw [sinkOutput, if_neg hno, holds.sink h hh]
  exact runFromSink_quotient (holds.holds h hh) (sink h) hd

/-- Without blocks of candidates, the dimensions that are stored. -/
theorem FinishOptions.stores_iff (hk : opts.candidateBlockSize = none) {headDim d : ℕ} :
    opts.Stores headDim d ↔
      (∃ v, opts.valueBlockSize = some v ∧ v < headDim) ∨ d < blockD headDim := by
  unfold FinishOptions.Stores
  rw [hk, Option.isSome_none]
  simp only [Bool.false_eq_true, false_or]

/-- **The launches of the running kernels** store the lane where they store. -/
theorem finishMaterialized_running
    (hout : finishMaterializedSparseMlaScoresWithSink t opts output = some out)
    (hk : opts.candidateBlockSize = none) {h : ℕ} (hh : h < opts.activeHeads t) {d : ℕ}
    (hd : d < t.headDim) :
    (opts.Stores t.headDim d → out h d = finishMaterializedScoresWithSinkKernel t.headDim
      t.numCandidates (t.scores h) t.kv t.validTokens (t.attnSink h) d) ∧
    (¬ opts.Stores t.headDim d → out h d = output h d) := by
  have hasserted := finishMaterialized_asserted hout
  have hinactive : ¬ (opts.activeHeads t ≤ h ∧ h < t.outputHeads) := fun hbad => by omega
  have hhead := (inGrid_iff hasserted.headBlockSize_pos).mpr hh
  rw [finishMaterializedSparseMlaScoresWithSink, if_pos hasserted] at hout
  rw [← Option.some.inj hout, FinishOptions.stores_iff hk]
  simp only [if_neg hinactive, hk]
  by_cases hsplit : ∃ v, opts.valueBlockSize = some v ∧ v < t.headDim
  · obtain ⟨v, hv, hlt⟩ := hsplit
    have hvPos := hasserted.valueBlockSize_pos hv
    refine ⟨fun _ => ?_, fun hno => absurd (Or.inl ⟨v, hv, hlt⟩) hno⟩
    simp only [hv, if_pos hlt]
    rw [storeBlocks_apply Nat.one_pos hvPos, if_pos ⟨hh, hd⟩]
    rfl
  · -- the launch by blocks of heads, one program for the dimensions of a head
    rw [or_iff_right hsplit]
    have hlaunch : ∀ lane : Scalar,
        (d < blockD t.headDim → (if InGrid opts.headBlockSize (opts.activeHeads t) h ∧
          d < blockD t.headDim ∧ d < t.headDim then lane else output h d) = lane) ∧
        (¬ d < blockD t.headDim → (if InGrid opts.headBlockSize (opts.activeHeads t) h ∧
          d < blockD t.headDim ∧ d < t.headDim then lane else output h d) = output h d) :=
      fun lane => ⟨fun hlt => if_pos ⟨hhead, hlt, hd⟩, fun hge => if_neg fun hbad => hge hbad.2.1⟩
    cases hv : opts.valueBlockSize with
    | none => exact hlaunch _
    | some v =>
      have hge : ¬ v < t.headDim := fun hlt => hsplit ⟨v, hv, hlt⟩
      simp only [if_neg hge]
      exact hlaunch _

/-- The lanes of an active head, whichever kernel the options choose. -/
theorem finishMaterialized_active {s : ℕ → ℕ → ℝ} {y : ℕ → ℕ → ℝ} {sink : ℕ → WithBot ℝ}
    (holds : HoldsScoresOf t opts s y sink)
    (hout : finishMaterializedSparseMlaScoresWithSink t opts output = some out) {h : ℕ}
    (hh : h < opts.activeHeads t) {d : ℕ} (hd : d < t.headDim) :
    (opts.Stores t.headDim d → out h d = sinkOutput opts (sink h)
      (validCandidates t.numCandidates t.validTokens (s h) y) d) ∧
    (¬ opts.Stores t.headDim d → out h d = output h d) := by
  cases hk : opts.candidateBlockSize with
  | some blockK =>
    have hstores : opts.Stores t.headDim d := Or.inl (by rw [hk]; rfl)
    exact ⟨fun _ => finishMaterialized_candidateBlock holds hout hk hh hd,
      fun hno => absurd hstores hno⟩
  | none =>
    obtain ⟨hstored, hkept⟩ := finishMaterialized_running hout hk hh hd
    exact ⟨fun hstores => (hstored hstores).trans (runningLane_eq holds hk hh hd), hkept⟩

/-- **The finish over materialised scores.** For every choice of blocks, an active head
ends with attention with its sink over the valid candidates, in every value dimension
that is stored; by blocks of candidates the output is NaN where there is neither a valid
candidate nor a finite sink.  Further heads are zeroed, and dimensions that no program
covers are left as they were; there are none up to 1024, nor when the dimensions are
split. -/
theorem finish_materialized_exact {s : ℕ → ℕ → ℝ} {y : ℕ → ℕ → ℝ} {sink : ℕ → WithBot ℝ}
    (holds : HoldsScoresOf t opts s y sink)
    (hout : finishMaterializedSparseMlaScoresWithSink t opts output = some out) :
    (∀ h < opts.activeHeads t, ∀ d < t.headDim,
      (opts.Stores t.headDim d → out h d = sinkOutput opts (sink h)
        (validCandidates t.numCandidates t.validTokens (s h) y) d) ∧
      (¬ opts.Stores t.headDim d → out h d = output h d)) ∧
    (∀ h, opts.activeHeads t ≤ h → h < t.outputHeads → ∀ d, out h d = 0) ∧
    (t.headDim ≤ 1024 → ∀ d < t.headDim, opts.Stores t.headDim d) :=
  ⟨fun _ hh _ hd => finishMaterialized_active holds hout hh hd,
    fun _ hge hh d => finishMaterialized_inactive hout hge hh d,
    fun hle _ hd => opts.stores_of_le hle hd⟩

end Wrapper

/-- One token, one active head of two, a valid and an invalid candidate, a sink of zero. -/
def twoCandidates : MaterializedScores where
  scoreHeads := 1
  outputHeads := 2
  sinkHeads := 1
  headDim := 2
  numCandidates := 2
  scores := fun _ _ => fin 0
  kv := fun _ _ => fin 1
  validTokens := fun c => c == 0
  attnSink := fun _ => fin 0

def sixteenBlocks : FinishOptions := ⟨some 1, 1, none, some 16⟩

def oneHeadBlock : FinishOptions := ⟨some 1, 1, none, none⟩

theorem twoCandidates_holds (opts : FinishOptions) : HoldsScoresOf twoCandidates opts
    (fun _ _ => 0) (fun _ _ => 1) (fun _ => ((0 : ℝ) : WithBot ℝ)) :=
  ⟨fun _ _ => ⟨fun _ _ _ => rfl, fun _ _ _ _ _ => rfl⟩, fun _ _ => rfl⟩

theorem finishMaterialized_isSome {t : MaterializedScores} {opts : FinishOptions}
    (hasserted : opts.Asserted t) (output : ℕ → ℕ → Scalar) :
    ∃ out, finishMaterializedSparseMlaScoresWithSink t opts output = some out :=
  ⟨_, if_pos hasserted⟩

/-- By blocks of candidates: the sink takes half of the first head's weight, and the second head
is zeroed. -/
theorem finish_materialized_exact_two :
    ∃ out, finishMaterializedSparseMlaScoresWithSink twoCandidates sixteenBlocks (fun _ _ => nan) =
      some out ∧ out 0 1 = fin (1 / 2) ∧ out 1 0 = 0 := by
  obtain ⟨out, hout⟩ := finishMaterialized_isSome
    (show sixteenBlocks.Asserted twoCandidates by decide) (fun _ _ => nan)
  have hall := finish_materialized_exact (twoCandidates_holds sixteenBlocks) hout
  have hstores := hall.2.2 (by decide) 1 (by decide)
  have hcands : validCandidates twoCandidates.numCandidates twoCandidates.validTokens (fun _ => 0)
      (fun _ _ => 1) = [((0 : ℝ), fun _ : ℕ => (1 : ℝ))] := rfl
  refine ⟨out, hout, ?_, hall.2.1 1 (by decide) (by decide) 0⟩
  rw [(hall.1 0 (by decide) 1 (by decide)).1 hstores, hcands, sinkOutput,
    if_neg (fun hbot => WithBot.coe_ne_bot hbot.2.1), attendWithSink_apply, moment_apply,
    sinkWeight_coe]
  norm_num [weight]

/-! ### The choice of blocks -/

/-- The output of a head does not depend on the blocks, unless there is neither a sink nor
a candidate. -/
theorem sinkOutput_congr {optsA optsB : FinishOptions} {sink : WithBot ℝ}
    {cands : List (Candidate (ℕ → ℝ))}
    (h : optsA.candidateBlockSize.isSome = optsB.candidateBlockSize.isSome ∨
      sink ≠ ⊥ ∨ cands ≠ []) (d : ℕ) :
    sinkOutput optsA sink cands d = sinkOutput optsB sink cands d := by
  unfold sinkOutput
  rcases h with hblocks | hsome
  · rw [hblocks]
  · have hno : ∀ b : Bool, ¬ (b = true ∧ sink = ⊥ ∧ cands = []) := by
      rintro b ⟨-, hbot, hnil⟩
      exact hsome.elim (absurd hbot) (absurd hnil)
    rw [if_neg (hno _), if_neg (hno _)]

theorem sinkOutput_ne {optsA optsB : FinishOptions}
    (h : optsA.candidateBlockSize.isSome ≠ optsB.candidateBlockSize.isSome) (d : ℕ) :
    sinkOutput optsA ⊥ [] d ≠ sinkOutput optsB ⊥ [] d := by
  unfold sinkOutput
  cases hA : optsA.candidateBlockSize.isSome with
  | true =>
    have hB : optsB.candidateBlockSize.isSome = false := by
      rw [hA] at h
      exact Bool.eq_false_iff.mpr h.symm
    rw [hB]
    simp
  | false =>
    have hB : optsB.candidateBlockSize.isSome = true := by
      rw [hA] at h
      exact Bool.eq_true_of_not_eq_false (fun hfalse => h hfalse.symm)
    rw [hB]
    simp

/-- Two choices of blocks store the same in all heads exactly when they agree on blocks of
candidates, or every head has something to attend to. -/
theorem sinkOutput_agree_iff {optsA optsB : FinishOptions} {numHeads headDim : ℕ}
    (hpos : 0 < headDim) {sink : ℕ → WithBot ℝ} {cands : ℕ → List (Candidate (ℕ → ℝ))} :
    (∀ h < numHeads, ∀ d < headDim,
      sinkOutput optsA (sink h) (cands h) d = sinkOutput optsB (sink h) (cands h) d) ↔
      optsA.candidateBlockSize.isSome = optsB.candidateBlockSize.isSome ∨
        ∀ h < numHeads, sink h ≠ ⊥ ∨ cands h ≠ [] := by
  constructor
  · intro hagree
    by_cases hblocks : optsA.candidateBlockSize.isSome = optsB.candidateBlockSize.isSome
    · exact Or.inl hblocks
    · refine Or.inr fun h hh => ?_
      by_contra hnone
      rw [not_or, not_not, not_not] at hnone
      have hlane := hagree h hh 0 hpos
      rw [hnone.1, hnone.2] at hlane
      exact sinkOutput_ne hblocks 0 hlane
  · intro hcond h hh d _
    apply sinkOutput_congr
    rcases hcond with hblocks | hsome
    · exact Or.inl hblocks
    · exact Or.inr (hsome h hh)

theorem validCandidates_ne_nil {numCandidates : ℕ} {validTokens : ℕ → Bool} {s : ℕ → ℝ}
    {y : ℕ → ℕ → ℝ} : validCandidates numCandidates validTokens s y ≠ [] ↔
      ∃ c < numCandidates, validTokens c = true := by
  rw [Ne, validCandidates_eq_nil]
  push Not
  simp only [ne_eq, Bool.not_eq_false]

/-- **When the choice of blocks changes nothing.** Two calls on the same tensors, with any
two choices of block sizes, store the same output exactly when both use blocks of
candidates, or neither, or every active head has a finite sink or the row a valid
candidate. -/
theorem finish_blocks_agree_iff {t : MaterializedScores} {optsA optsB : FinishOptions}
    (hheads : optsA.numHeads = optsB.numHeads) {s : ℕ → ℕ → ℝ} {y : ℕ → ℕ → ℝ}
    {sink : ℕ → WithBot ℝ} (holds : HoldsScoresOf t optsA s y sink) (hpos : 0 < t.headDim)
    (hle : t.headDim ≤ 1024) {outputA outputB outA outB : ℕ → ℕ → Scalar}
    (hA : finishMaterializedSparseMlaScoresWithSink t optsA outputA = some outA)
    (hB : finishMaterializedSparseMlaScoresWithSink t optsB outputB = some outB) :
    (∀ h < t.outputHeads, ∀ d < t.headDim, outA h d = outB h d) ↔
      optsA.candidateBlockSize.isSome = optsB.candidateBlockSize.isSome ∨
        ∀ h < optsA.activeHeads t, sink h ≠ ⊥ ∨ ∃ c < t.numCandidates, t.validTokens c = true := by
  have hactive : optsB.activeHeads t = optsA.activeHeads t := by
    rw [FinishOptions.activeHeads, FinishOptions.activeHeads, hheads]
  have holdsB : HoldsScoresOf t optsB s y sink :=
    ⟨fun h hh => holds.holds h (hactive ▸ hh), fun h hh => holds.sink h (hactive ▸ hh)⟩
  have houtputs : optsA.activeHeads t ≤ t.outputHeads := (finishMaterialized_asserted hA).2.2.2.2.1
  -- the outputs of an active head
  have hlaneA := fun h hh d hd => ((finishMaterialized_active holds hA hh hd).1
    (optsA.stores_of_le hle hd) : outA h d = _)
  have hlaneB := fun h hh d hd => ((finishMaterialized_active holdsB hB hh hd).1
    (optsB.stores_of_le hle hd) : outB h d = _)
  have hiff := @sinkOutput_agree_iff optsA optsB (optsA.activeHeads t) t.headDim hpos sink
    (fun h => validCandidates t.numCandidates t.validTokens (s h) y)
  simp only [validCandidates_ne_nil] at hiff
  rw [← hiff]
  constructor
  · intro hagree h hh d hd
    rw [← hlaneA h hh d hd, ← hlaneB h (hactive.symm ▸ hh) d hd]
    exact hagree h (lt_of_lt_of_le hh houtputs) d hd
  · intro hagree h hh d hd
    by_cases hlive : h < optsA.activeHeads t
    · rw [hlaneA h hlive d hd, hlaneB h (hactive.symm ▸ hlive) d hd]
      exact hagree h hlive d hd
    · have hge := not_lt.mp hlive
      rw [finishMaterialized_inactive hA hge hh,
        finishMaterialized_inactive hB (hactive.symm ▸ hge) hh]

/-- Blocks of candidates and blocks of heads, on a row with a candidate. -/
theorem finish_blocks_agree_iff_two :
    ∃ outA outB : ℕ → ℕ → Scalar,
      finishMaterializedSparseMlaScoresWithSink twoCandidates oneHeadBlock (fun _ _ => nan) =
        some outA ∧
      finishMaterializedSparseMlaScoresWithSink twoCandidates sixteenBlocks (fun _ _ => nan) =
        some outB ∧ outA 0 1 = outB 0 1 := by
  obtain ⟨outA, hA⟩ := finishMaterialized_isSome
    (show oneHeadBlock.Asserted twoCandidates by decide) (fun _ _ => nan)
  obtain ⟨outB, hB⟩ := finishMaterialized_isSome
    (show sixteenBlocks.Asserted twoCandidates by decide) (fun _ _ => nan)
  have hheads : oneHeadBlock.numHeads = sixteenBlocks.numHeads := rfl
  have hiff := finish_blocks_agree_iff hheads (twoCandidates_holds oneHeadBlock) (by decide)
    (by decide) hA hB
  exact ⟨outA, outB, hA, hB, hiff.mpr (Or.inr fun h _ => Or.inr ⟨0, by decide, rfl⟩) 0 (by decide)
    1 (by decide)⟩

end Glm52
