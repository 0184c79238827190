import Glm52.Enumeration
import Glm52.LseMerge
import Glm52.SinkAttention

/-! # Merging subsets with a sink

A row of candidates may be attended to in two subsets.  Either the subsets' states are
kept and `finish_two_sparse_mla_attention_states_with_sink` combines them with the sink;
or each state is finished first, to an output and a log-sum-exp
(`finish_gathered_sparse_mla_attention`), and `merge_two_sparse_mla_subsets_with_sink`
merges the two results; `merge_sparse_mla_subset_with_sink` is the merge for one subset.

The finish guards a state without candidates and a sink of `-inf`.  The merges have no
guard: with neither a candidate nor a finite sink their maximum is `-inf`, and the
weights relative to it are NaN.  That is the only case in which they differ
(`subset_merge_iff`, `single_subset_merge_iff`).  Attending to the two parts of any split
of a row and merging is the single pass over the row (`recombine_split_row`). -/
namespace Glm52
open ExactFloat Softmax OnlineSoftmax

/-! ### The kernels, for one token, head and value dimension -/

/-- `_merge_two_subsets_with_sink_kernel`. -/
noncomputable def mergeTwoSubsetsWithSinkKernel (out0 lse0 out1 lse1 sink : Scalar) : Scalar :=
  let mergeMax := maximum (maximum lse0 lse1) sink
  let weight0 := exp (lse0 - mergeMax)
  let weight1 := exp (lse1 - mergeMax)
  let weightSink := exp (sink - mergeMax)
  let denom := weight0 + weight1 + weightSink
  (out0 * weight0 + out1 * weight1) / denom

/-- `_merge_single_subset_with_sink_kernel`. -/
noncomputable def mergeSingleSubsetWithSinkKernel (subsetOutput subsetLse sink : Scalar) : Scalar :=
  let mergeMax := maximum subsetLse sink
  let subsetWeight := exp (subsetLse - mergeMax)
  let sinkWeight := exp (sink - mergeMax)
  let denom := subsetWeight + sinkWeight
  subsetOutput * subsetWeight / denom

/-- `_finish_attention_state_kernel`: the output and the log-sum-exp of a state. -/
noncomputable def finishAttentionStateKernel (state : State ℕ) : (ℕ → Scalar) × Scalar :=
  let isValid := lt 0 state.denom
  let invDenom := if isValid then fin 1 / state.denom else 0
  let subsetLse := if isValid then state.maxScore + log state.denom else negInf
  (fun d => state.acc d * invDenom, subsetLse)

/-- `_finish_two_attention_states_with_sink_kernel`. -/
noncomputable def finishTwoAttentionStatesWithSinkKernel (state0 state1 : State ℕ) (sink : Scalar)
    (d : ℕ) : Scalar :=
  let has0 := lt 0 state0.denom
  let has1 := lt 0 state1.denom
  let hasSink := lt negInf sink
  let validMax0 := if has0 then state0.maxScore else negInf
  let validMax1 := if has1 then state1.maxScore else negInf
  let validSink := if hasSink then sink else negInf
  let mergeMax := maximum (maximum validMax0 validMax1) validSink
  let hasAny := has0 || has1 || hasSink
  let safeMergeMax := if hasAny then mergeMax else 0
  let safeMax0 := if has0 then state0.maxScore else safeMergeMax
  let safeMax1 := if has1 then state1.maxScore else safeMergeMax
  let safeSink := if hasSink then sink else safeMergeMax
  let scale0 := if has0 then exp (safeMax0 - safeMergeMax) else 0
  let scale1 := if has1 then exp (safeMax1 - safeMergeMax) else 0
  let sinkWeight := if hasSink then exp (safeSink - safeMergeMax) else 0
  let totalWeight := state0.denom * scale0 + state1.denom * scale1 + sinkWeight
  let invTotal := if lt 0 totalWeight then fin 1 / totalWeight else 0
  let acc0 := if has0 then state0.acc d else 0
  let acc1 := if has1 then state1.acc d else 0
  (acc0 * scale0 + acc1 * scale1) * invTotal

/-! ### The launches -/

/-- `min(128, next_power_of_2(head_dim))`. -/
def mergeBlockD (headDim : ℕ) : ℕ := min 128 headDim.nextPowerOfTwo

/-- A launch over the pairs of a token and a head, numbered by `token_head`, and over blocks
of value dimensions. -/
noncomputable def launchTokenHeads (numTokens numHeads headDim : ℕ)
    (program output : ℕ → ℕ → ℕ → Scalar) (t h d : ℕ) : Scalar :=
  if ∃ tokenHead < numTokens * numHeads, t = tokenHead / numHeads ∧
      h = tokenHead - tokenHead / numHeads * numHeads ∧ InGrid (mergeBlockD headDim) headDim d then
    program t h d
  else output t h d

/-- The stores of a token and head, made by the program of the first block. -/
noncomputable def launchFirstBlock (numTokens numHeads headDim : ℕ)
    (program output : ℕ → ℕ → Scalar) (t h : ℕ) : Scalar :=
  if ∃ tokenHead < numTokens * numHeads, t = tokenHead / numHeads ∧
      h = tokenHead - tokenHead / numHeads * numHeads ∧ 0 < cdiv headDim (mergeBlockD headDim) then
    program t h
  else output t h

section Wrappers
variable (numTokens numHeads headDim : ℕ)

/-- `merge_two_sparse_mla_subsets_with_sink`. -/
noncomputable def mergeTwoSparseMlaSubsetsWithSink (subset0Output : ℕ → ℕ → ℕ → Scalar)
    (subset0Lse : ℕ → ℕ → Scalar) (subset1Output : ℕ → ℕ → ℕ → Scalar)
    (subset1Lse : ℕ → ℕ → Scalar) (attnSink : ℕ → Scalar) (output : ℕ → ℕ → ℕ → Scalar) :
    ℕ → ℕ → ℕ → Scalar :=
  launchTokenHeads numTokens numHeads headDim (fun t h d => mergeTwoSubsetsWithSinkKernel
    (subset0Output t h d) (subset0Lse t h) (subset1Output t h d) (subset1Lse t h) (attnSink h))
    output

/-- `merge_sparse_mla_subset_with_sink`. -/
noncomputable def mergeSparseMlaSubsetWithSink (subsetOutput : ℕ → ℕ → ℕ → Scalar)
    (subsetLse : ℕ → ℕ → Scalar) (attnSink : ℕ → Scalar) (output : ℕ → ℕ → ℕ → Scalar) :
    ℕ → ℕ → ℕ → Scalar :=
  launchTokenHeads numTokens numHeads headDim (fun t h d => mergeSingleSubsetWithSinkKernel
    (subsetOutput t h d) (subsetLse t h) (attnSink h)) output

/-- `finish_gathered_sparse_mla_attention`: the output and the log-sum-exp. -/
noncomputable def finishGatheredSparseMlaAttention (state : ℕ → ℕ → State ℕ)
    (output : ℕ → ℕ → ℕ → Scalar) (lse : ℕ → ℕ → Scalar) :
    (ℕ → ℕ → ℕ → Scalar) × (ℕ → ℕ → Scalar) :=
  (launchTokenHeads numTokens numHeads headDim
      (fun t h => (finishAttentionStateKernel (state t h)).1) output,
    launchFirstBlock numTokens numHeads headDim
      (fun t h => (finishAttentionStateKernel (state t h)).2) lse)

/-- `finish_two_sparse_mla_attention_states_with_sink`. -/
noncomputable def finishTwoSparseMlaAttentionStatesWithSink (state0 state1 : ℕ → ℕ → State ℕ)
    (attnSink : ℕ → Scalar) (output : ℕ → ℕ → ℕ → Scalar) : ℕ → ℕ → ℕ → Scalar :=
  launchTokenHeads numTokens numHeads headDim (fun t h =>
    finishTwoAttentionStatesWithSinkKernel (state0 t h) (state1 t h) (attnSink h)) output

/-- `finish_sparse_mla_attention_with_sink`. -/
noncomputable def finishSparseMlaAttentionWithSink (state : ℕ → ℕ → State ℕ)
    (attnSink : ℕ → Scalar) (output : ℕ → ℕ → ℕ → Scalar) : ℕ → ℕ → ℕ → Scalar :=
  launchTokenHeads numTokens numHeads headDim (fun t h =>
    finishAttentionStateWithSinkKernel (state t h) (attnSink h)) output

end Wrappers

/-! ### What a launch stores -/

theorem mergeBlockD_pos (headDim : ℕ) : 0 < mergeBlockD headDim := by
  have hpos := Nat.pos_of_isPowerOfTwo (Nat.isPowerOfTwo_nextPowerOfTwo headDim)
  exact lt_min (by decide) hpos

section Launch
variable {numTokens numHeads headDim t h : ℕ}

/-- Every pair of a token and a head has its number. -/
theorem exists_tokenHead (ht : t < numTokens) (hh : h < numHeads) :
    ∃ tokenHead < numTokens * numHeads, t = tokenHead / numHeads ∧
      h = tokenHead - tokenHead / numHeads * numHeads := by
  have hdiv : (t * numHeads + h) / numHeads = t := Enumeration.digits_div t hh
  have hlt : t * numHeads + h < numTokens * numHeads := by
    have hnext : (t + 1) * numHeads ≤ numTokens * numHeads := Nat.mul_le_mul_right _ ht
    rw [Nat.succ_mul] at hnext
    omega
  refine ⟨t * numHeads + h, hlt, hdiv.symm, ?_⟩
  rw [hdiv]
  omega

/-- **A launch stores every cell.** -/
theorem launchTokenHeads_lt (ht : t < numTokens) (hh : h < numHeads) {d : ℕ} (hd : d < headDim)
    (program output : ℕ → ℕ → ℕ → Scalar) :
    launchTokenHeads numTokens numHeads headDim program output t h d = program t h d := by
  obtain ⟨tokenHead, hlt, htoken, hhead⟩ := exists_tokenHead ht hh
  exact if_pos ⟨tokenHead, hlt, htoken, hhead, (inGrid_iff (mergeBlockD_pos headDim)).mpr hd⟩

theorem launchFirstBlock_lt (ht : t < numTokens) (hh : h < numHeads) (hpos : 0 < headDim)
    (program output : ℕ → ℕ → Scalar) :
    launchFirstBlock numTokens numHeads headDim program output t h = program t h := by
  obtain ⟨tokenHead, hlt, htoken, hhead⟩ := exists_tokenHead ht hh
  have hblock := div_lt_cdiv (mergeBlockD_pos headDim) hpos
  rw [Nat.zero_div] at hblock
  exact if_pos ⟨tokenHead, hlt, htoken, hhead, hblock⟩

end Launch

/-! ### What the kernels compute -/

/-- The finish without a sink. -/
theorem finishAttentionStateKernel_stateOf (l : List (Candidate (ℕ → ℝ))) (d : ℕ) :
    (finishAttentionStateKernel (stateOf l)).1 d = fin (attend l d) ∧
    (finishAttentionStateKernel (stateOf l)).2 = logSumExp l := by
  by_cases hl : l = []
  · subst hl
    simp [finishAttentionStateKernel, State.empty, zero_def]
  · have hpos : 0 < Real.exp (-shift l) * weight l := mul_pos (Real.exp_pos _) (weight_pos hl)
    have hvalid : lt 0 (stateOf l).denom = true := by
      rw [stateOf, zero_def, lt_fin]
      exact decide_eq_true hpos
    simp only [finishAttentionStateKernel, hvalid, if_true]
    constructor
    · have hquotient := stateOf_quotient hl d
      rw [stateOf, fin_div hpos.ne', fin.injEq] at hquotient
      rw [← hquotient, stateOf, fin_div hpos.ne', fin_mul, mul_one_div]
    · rw [stateOf, peak_eq_shift hl, ofBot_coe, log_fin hpos, fin_add, add_comm,
        log_scaled_weight hl, logSumExp_of_ne_nil hl]

/-- The finish with a sink, of one state. -/
theorem finishWithSink_stateOf_eq (l : List (Candidate (ℕ → ℝ))) (sink : WithBot ℝ) (d : ℕ) :
    finishAttentionStateWithSinkKernel (stateOf l) (ofBot sink) d =
      fin (attendWithSink (sinkWeight sink) l d) := by
  cases sink with
  | bot => rw [ofBot_bot, finish_stateOf, sinkWeight_bot, attendWithSink_zero]
  | coe x =>
    rw [ofBot_coe, finish_stateOf_sink, sinkWeight_coe, attendWithSink_eq_share, Pi.smul_apply,
      smul_eq_mul, mul_comm]

/-- A log-sum-exp, `⊥` without candidates. -/
noncomputable def lseOrBot (l : List (Candidate (ℕ → ℝ))) : WithBot ℝ :=
  if l = [] then ⊥ else (Real.log (weight l) : ℝ)

theorem logSumExp_eq_ofBot (l : List (Candidate (ℕ → ℝ))) : logSumExp l = ofBot (lseOrBot l) := by
  unfold lseOrBot
  by_cases hl : l = []
  · rw [if_pos hl, hl, logSumExp_nil, ofBot_bot]
  · rw [if_neg hl, ofBot_coe, logSumExp_of_ne_nil hl]

theorem lseOrBot_eq_bot {l : List (Candidate (ℕ → ℝ))} : lseOrBot l = ⊥ ↔ l = [] := by
  unfold lseOrBot
  by_cases hl : l = []
  · simp [hl]
  · simp [hl]

/-- The sums of a merge, relative to any number, are attention over both subsets. -/
theorem merged_quotient {l0 l1 : List (Candidate (ℕ → ℝ))} {sink : WithBot ℝ}
    (hsome : l0 ++ l1 ≠ [] ∨ sink ≠ ⊥) (m : ℝ) (d : ℕ) :
    (fin (Real.exp (-m) * moment l0 d + Real.exp (-m) * moment l1 d) /
        fin (Real.exp (-m) * weight l0 + Real.exp (-m) * weight l1 +
          Real.exp (-m) * sinkWeight sink) : Scalar) =
      fin (attendWithSink (sinkWeight sink) (l0 ++ l1) d) := by
  have hpos := total_weight_pos hsome
  have hdenom : Real.exp (-m) * weight l0 + Real.exp (-m) * weight l1 +
      Real.exp (-m) * sinkWeight sink =
        Real.exp (-m) * (weight (l0 ++ l1) + sinkWeight sink) := by
    rw [weight_append]
    ring
  have hnumer : Real.exp (-m) * moment l0 d + Real.exp (-m) * moment l1 d =
      Real.exp (-m) * moment (l0 ++ l1) d := by
    rw [moment_append, Pi.add_apply, mul_add]
  rw [hdenom, hnumer, fin_div (mul_ne_zero (Real.exp_ne_zero _) hpos.ne'),
    mul_div_mul_left _ _ (Real.exp_ne_zero _), attendWithSink_apply]

/-- An output, weighted back. -/
theorem out_mul_weight (l : List (Candidate (ℕ → ℝ))) (m : ℝ) (d : ℕ) :
    (fin (attend l d) * fin (Real.exp (-m) * weight l) : Scalar) =
      fin (Real.exp (-m) * moment l d) := by
  rw [fin_mul, ← weight_smul_attend l, Pi.smul_apply, smul_eq_mul]
  congr 1
  ring

/-- The maximum that a merge subtracts is a number once there is something to attend to. -/
theorem exists_mergeMax {l0 l1 : List (Candidate (ℕ → ℝ))} {sink : WithBot ℝ}
    (hsome : l0 ++ l1 ≠ [] ∨ sink ≠ ⊥) :
    ∃ m : ℝ, max (max (lseOrBot l0) (lseOrBot l1)) sink = (m : WithBot ℝ) := by
  have hne : max (max (lseOrBot l0) (lseOrBot l1)) sink ≠ ⊥ := by
    intro hbot
    obtain ⟨hlse, hsink⟩ := max_eq_bot.mp hbot
    obtain ⟨h0, h1⟩ := max_eq_bot.mp hlse
    rw [lseOrBot_eq_bot] at h0 h1
    rcases hsome with hl | hs
    · exact hl (by rw [h0, h1, List.append_nil])
    · exact hs hsink
  obtain ⟨m, hm⟩ := WithBot.ne_bot_iff_exists.mp hne
  exact ⟨m, hm.symm⟩

/-- Something to attend to: a candidate or a finite sink. -/
theorem something_of_not {l : List (Candidate (ℕ → ℝ))} {sink : WithBot ℝ}
    (h : ¬ (l = [] ∧ sink = ⊥)) : l ≠ [] ∨ sink ≠ ⊥ := by
  by_contra hno
  rw [not_or, not_not, not_not] at hno
  exact h hno

/-- **The merge of two finished subsets**: attention with the sink over both, or NaN when
there is nothing to attend to. -/
theorem mergeTwoKernel_eq (l0 l1 : List (Candidate (ℕ → ℝ))) (sink : WithBot ℝ) (d : ℕ) :
    mergeTwoSubsetsWithSinkKernel (fin (attend l0 d)) (logSumExp l0) (fin (attend l1 d))
        (logSumExp l1) (ofBot sink) =
      if l0 ++ l1 = [] ∧ sink = ⊥ then nan
      else fin (attendWithSink (sinkWeight sink) (l0 ++ l1) d) := by
  have hmax : maximum (maximum (logSumExp l0) (logSumExp l1)) (ofBot sink) =
      ofBot (max (max (lseOrBot l0) (lseOrBot l1)) sink) := by
    rw [logSumExp_eq_ofBot, logSumExp_eq_ofBot, maximum_ofBot, maximum_ofBot]
  by_cases hnone : l0 ++ l1 = [] ∧ sink = ⊥
  · rw [if_pos hnone]
    obtain ⟨hnil, rfl⟩ := hnone
    obtain ⟨rfl, rfl⟩ := List.append_eq_nil_iff.mp hnil
    simp only [mergeTwoSubsetsWithSinkKernel, logSumExp_nil]
    -- every weight is `exp(-inf - -inf)`
    exact div_nan _
  · have hsome := something_of_not hnone
    obtain ⟨m, hm⟩ := exists_mergeMax hsome
    rw [hm, ofBot_coe] at hmax
    rw [if_neg hnone]
    simp only [mergeTwoSubsetsWithSinkKernel, hmax, exp_ofBot_sub, exp_logSumExp_sub,
      out_mul_weight, fin_add]
    exact merged_quotient hsome m d

/-- **The merge of one finished subset.** -/
theorem mergeSingleKernel_eq (l : List (Candidate (ℕ → ℝ))) (sink : WithBot ℝ) (d : ℕ) :
    mergeSingleSubsetWithSinkKernel (fin (attend l d)) (logSumExp l) (ofBot sink) =
      if l = [] ∧ sink = ⊥ then nan else fin (attendWithSink (sinkWeight sink) l d) := by
  have hmax : maximum (logSumExp l) (ofBot sink) = ofBot (max (lseOrBot l) sink) := by
    rw [logSumExp_eq_ofBot, maximum_ofBot]
  by_cases hnone : l = [] ∧ sink = ⊥
  · rw [if_pos hnone]
    obtain ⟨rfl, rfl⟩ := hnone
    simp only [mergeSingleSubsetWithSinkKernel, logSumExp_nil]
    exact div_nan _
  · have hsome := something_of_not hnone
    -- an empty second subset adds nothing
    have hsome' : l ++ [] ≠ [] ∨ sink ≠ ⊥ := by rwa [List.append_nil]
    obtain ⟨m, hm⟩ := exists_mergeMax hsome'
    have hempty : lseOrBot [] = ⊥ := lseOrBot_eq_bot.mpr rfl
    rw [hempty, max_eq_left bot_le] at hm
    rw [hm, ofBot_coe] at hmax
    have hquotient := merged_quotient hsome' m d
    rw [List.append_nil, moment_nil, weight_nil, Pi.zero_apply, mul_zero, add_zero,
      add_zero] at hquotient
    rw [if_neg hnone]
    simp only [mergeSingleSubsetWithSinkKernel, hmax, exp_ofBot_sub, exp_logSumExp_sub,
      out_mul_weight, fin_add]
    exact hquotient

/-! ### The guarded finish of two states -/

theorem lt_zero_denom (l : List (Candidate (ℕ → ℝ))) :
    lt 0 (stateOf l).denom = decide (l ≠ []) := by
  rw [stateOf, zero_def, lt_fin]
  by_cases hl : l = []
  · simp [hl]
  · have hpos : 0 < Real.exp (-shift l) * weight l := mul_pos (Real.exp_pos _) (weight_pos hl)
    rw [decide_eq_true hpos, decide_eq_true hl]

/-- The guard on a maximum changes nothing. -/
theorem validMax_eq (l : List (Candidate (ℕ → ℝ))) :
    (if lt 0 (stateOf l).denom then (stateOf l).maxScore else negInf) = ofBot (peak l) := by
  rw [lt_zero_denom]
  by_cases hl : l = []
  · simp [hl]
  · rw [decide_eq_true hl]
    rfl

theorem validSink_eq (sink : WithBot ℝ) :
    (if lt negInf (ofBot sink) then ofBot sink else negInf : Scalar) = ofBot sink := by
  cases sink with
  | bot => rfl
  | coe x => rfl

/-- A guarded scale, relative to a number: the sums of a state come out relative to that
number, those of an empty state as zero. -/
theorem guarded_scale (l : List (Candidate (ℕ → ℝ))) (safe : Scalar) (m : ℝ) (d : ℕ) :
    let has := lt 0 (stateOf l).denom
    let scale := if has then exp ((if has then (stateOf l).maxScore else safe) - fin m) else 0
    (stateOf l).denom * scale = fin (Real.exp (-m) * weight l) ∧
    (if has then (stateOf l).acc d else 0) * scale = fin (Real.exp (-m) * moment l d) := by
  intro has scale
  by_cases hl : l = []
  · subst hl
    have hhas : has = false := by
      show lt 0 (stateOf []).denom = false
      rw [lt_zero_denom]
      simp
    have hscale : scale = 0 := by
      show (if has then _ else _) = _
      rw [hhas, if_neg Bool.false_ne_true]
    rw [hscale, hhas]
    simp [State.empty, zero_def]
  · have hhas : has = true := by
      show lt 0 (stateOf l).denom = true
      rw [lt_zero_denom, decide_eq_true hl]
    have hscale : scale = exp (ofBot (peak l) - fin m) := by
      show (if has then exp ((if has then _ else _) - _) else _) = _
      rw [hhas, if_pos rfl, if_pos rfl]
      rfl
    rw [hscale, hhas, if_pos rfl]
    exact ⟨past_mul (fun h => absurd h hl) m, past_mul (fun h => absurd h hl) m⟩

/-- The guarded weight of a sink. -/
theorem guarded_sink (sink : WithBot ℝ) (safe : Scalar) (m : ℝ) :
    (if lt negInf (ofBot sink) then
      exp ((if lt negInf (ofBot sink) then ofBot sink else safe) - fin m) else 0 : Scalar) =
      fin (Real.exp (-m) * sinkWeight sink) := by
  cases sink with
  | bot => simp [zero_def]
  | coe x =>
    have hsink : lt negInf (fin x : Scalar) = true := rfl
    rw [ofBot_coe, hsink, if_pos rfl, if_pos rfl, ← ofBot_coe, exp_ofBot_sub]

/-- **The finish of two states is attention with the sink over both**, also when there is
nothing to attend to. -/
theorem finishTwoKernel_eq (l0 l1 : List (Candidate (ℕ → ℝ))) (sink : WithBot ℝ) (d : ℕ) :
    finishTwoAttentionStatesWithSinkKernel (stateOf l0) (stateOf l1) (ofBot sink) d =
      fin (attendWithSink (sinkWeight sink) (l0 ++ l1) d) := by
  have hmax : maximum (maximum (ofBot (peak l0)) (ofBot (peak l1))) (ofBot sink) =
      ofBot (max (peak (l0 ++ l1)) sink) := by
    rw [maximum_ofBot, maximum_ofBot, peak_append]
  have hhas : (lt 0 (stateOf l0).denom || lt 0 (stateOf l1).denom || lt negInf (ofBot sink)) =
      decide (l0 ++ l1 ≠ [] ∨ sink ≠ ⊥) := by
    have hsink : lt negInf (ofBot sink) = decide (sink ≠ ⊥) := by
      cases sink with
      | bot => simp
      | coe x => rw [decide_eq_true WithBot.coe_ne_bot]; rfl
    rw [lt_zero_denom, lt_zero_denom, hsink, ← Bool.decide_or, ← Bool.decide_or]
    simp only [ne_eq, List.append_eq_nil_iff, not_and_or]
  by_cases hsome : l0 ++ l1 ≠ [] ∨ sink ≠ ⊥
  · obtain ⟨m, hm⟩ : ∃ m : ℝ, max (peak (l0 ++ l1)) sink = (m : WithBot ℝ) := by
      obtain ⟨m, hm⟩ := WithBot.ne_bot_iff_exists.mp (max_peak_ne_bot hsome)
      exact ⟨m, by rw [max_comm]; exact hm.symm⟩
    rw [hm, ofBot_coe] at hmax
    rw [decide_eq_true hsome] at hhas
    have h0 := guarded_scale l0 (fin m) m d
    have h1 := guarded_scale l1 (fin m) m d
    dsimp only at h0 h1
    have hquotient := merged_quotient hsome m d
    have hpos : 0 < Real.exp (-m) * weight l0 + Real.exp (-m) * weight l1 +
        Real.exp (-m) * sinkWeight sink := by
      have htotal := total_weight_pos hsome
      rw [weight_append] at htotal
      rw [← mul_add, ← mul_add]
      exact mul_pos (Real.exp_pos _) htotal
    simp only [finishTwoAttentionStatesWithSinkKernel, validMax_eq, validSink_eq, hmax, hhas,
      if_true, h0.1, h1.1, guarded_sink, fin_add, h0.2, h1.2]
    rw [zero_def, lt_fin, decide_eq_true hpos, if_pos rfl, fin_div hpos.ne', fin_mul, mul_one_div,
      ← fin_div hpos.ne', hquotient]
  · have hnone := hsome
    rw [not_or, not_not, not_not] at hnone
    obtain ⟨hnil, rfl⟩ := hnone
    obtain ⟨rfl, rfl⟩ := List.append_eq_nil_iff.mp hnil
    simp [finishTwoAttentionStatesWithSinkKernel, State.empty, zero_def]

/-! ### Merging against keeping the states -/

/-- An output that is NaN when there is nothing to attend to, against one that is not. -/
theorem agree_iff_something {headDim : ℕ} (hpos : 0 < headDim) {l : List (Candidate (ℕ → ℝ))}
    {sink : WithBot ℝ} {out out' : ℕ → Scalar} {x : ℕ → ℝ}
    (hout : ∀ d < headDim, out d = if l = [] ∧ sink = ⊥ then nan else fin (x d))
    (hout' : ∀ d < headDim, out' d = fin (x d)) :
    (∀ d < headDim, out d = out' d) ↔ l ≠ [] ∨ sink ≠ ⊥ := by
  constructor
  · intro hagree
    apply something_of_not
    intro hnone
    have hlane := hagree 0 hpos
    rw [hout 0 hpos, hout' 0 hpos, if_pos hnone] at hlane
    cases hlane
  · intro hsome d hd
    rw [hout d hd, hout' d hd, if_neg]
    rintro ⟨hnil, hbot⟩
    exact hsome.elim (absurd hnil) (absurd hbot)

section Subsets
variable {numTokens numHeads headDim t h : ℕ} (ht : t < numTokens) (hh : h < numHeads)
  {state : ℕ → ℕ → State ℕ} {l : List (Candidate (ℕ → ℝ))}
include ht hh

/-- A finished subset, as the merge reads it. -/
theorem finishGathered_eq (hl : Reached (state t h) l) (output : ℕ → ℕ → ℕ → Scalar)
    (lse : ℕ → ℕ → Scalar) {d : ℕ} (hd : d < headDim) :
    (finishGatheredSparseMlaAttention numTokens numHeads headDim state output lse).1 t h d =
      fin (attend l d) ∧
    (finishGatheredSparseMlaAttention numTokens numHeads headDim state output lse).2 t h =
      logSumExp l := by
  obtain ⟨hout, hlse⟩ := finishAttentionStateKernel_stateOf l d
  unfold finishGatheredSparseMlaAttention
  dsimp only
  constructor
  · rw [launchTokenHeads_lt ht hh hd, hl.eq_stateOf, hout]
  · rw [launchFirstBlock_lt ht hh (Nat.zero_lt_of_lt hd), hl.eq_stateOf, hlse]

/-- **Finishing two subsets and merging them** is finishing their two states, exactly when
there is a candidate or a finite sink; the finish of the states is attention over both
subsets in any case.  The same holds of one subset. -/
theorem subset_merge_iff (hpos : 0 < headDim) {state1 : ℕ → ℕ → State ℕ}
    {l1 : List (Candidate (ℕ → ℝ))} (hl : Reached (state t h) l) (hl1 : Reached (state1 t h) l1)
    {attnSink : ℕ → Scalar} {sink : WithBot ℝ} (hsink : attnSink h = ofBot sink)
    (output : ℕ → ℕ → ℕ → Scalar) (lse : ℕ → ℕ → Scalar) :
    let subset0 := finishGatheredSparseMlaAttention numTokens numHeads headDim state output lse
    let subset1 := finishGatheredSparseMlaAttention numTokens numHeads headDim state1 output lse
    let merged := mergeTwoSparseMlaSubsetsWithSink numTokens numHeads headDim subset0.1 subset0.2
      subset1.1 subset1.2 attnSink output
    let finished := finishTwoSparseMlaAttentionStatesWithSink numTokens numHeads headDim state
      state1 attnSink output
    let merged0 := mergeSparseMlaSubsetWithSink numTokens numHeads headDim subset0.1 subset0.2
      attnSink output
    let finished0 := finishSparseMlaAttentionWithSink numTokens numHeads headDim state attnSink
      output
    (∀ d < headDim, finished t h d = fin (attendWithSink (sinkWeight sink) (l ++ l1) d)) ∧
    ((∀ d < headDim, merged t h d = finished t h d) ↔ l ++ l1 ≠ [] ∨ sink ≠ ⊥) ∧
    (∀ d < headDim, finished0 t h d = fin (attendWithSink (sinkWeight sink) l d)) ∧
    ((∀ d < headDim, merged0 t h d = finished0 t h d) ↔ l ≠ [] ∨ sink ≠ ⊥) := by
  intro subset0 subset1 merged finished merged0 finished0
  have hfinished : ∀ d < headDim, finished t h d =
      fin (attendWithSink (sinkWeight sink) (l ++ l1) d) := by
    intro d hd
    show launchTokenHeads _ _ _ _ _ t h d = _
    rw [launchTokenHeads_lt ht hh hd, hl.eq_stateOf, hl1.eq_stateOf, hsink, finishTwoKernel_eq]
  have hfinished0 : ∀ d < headDim, finished0 t h d =
      fin (attendWithSink (sinkWeight sink) l d) := by
    intro d hd
    show launchTokenHeads _ _ _ _ _ t h d = _
    rw [launchTokenHeads_lt ht hh hd, hl.eq_stateOf, hsink, finishWithSink_stateOf_eq]
  have hmerged : ∀ d < headDim, merged t h d = if l ++ l1 = [] ∧ sink = ⊥ then nan
      else fin (attendWithSink (sinkWeight sink) (l ++ l1) d) := by
    intro d hd
    have h0 := finishGathered_eq ht hh hl output lse hd
    have h1 := finishGathered_eq ht hh hl1 output lse hd
    show launchTokenHeads _ _ _ _ _ t h d = _
    rw [launchTokenHeads_lt ht hh hd, h0.1, h0.2, h1.1, h1.2, hsink, mergeTwoKernel_eq]
  have hmerged0 : ∀ d < headDim, merged0 t h d = if l = [] ∧ sink = ⊥ then nan
      else fin (attendWithSink (sinkWeight sink) l d) := by
    intro d hd
    have h0 := finishGathered_eq ht hh hl output lse hd
    show launchTokenHeads _ _ _ _ _ t h d = _
    rw [launchTokenHeads_lt ht hh hd, h0.1, h0.2, hsink, mergeSingleKernel_eq]
  exact ⟨hfinished, agree_iff_something hpos hmerged hfinished, hfinished0,
    agree_iff_something hpos hmerged0 hfinished0⟩

end Subsets

/-- Two subsets of one candidate each, and a sink of zero. -/
theorem subset_merge_iff_one :
    let state0 : ℕ → ℕ → State ℕ := fun _ _ => push State.empty (fin 0) (fun _ => fin 1)
    let state1 : ℕ → ℕ → State ℕ := fun _ _ => push State.empty (fin 1) (fun _ => fin 2)
    let subset0 := finishGatheredSparseMlaAttention 1 1 1 state0 (fun _ _ _ => nan) (fun _ _ => nan)
    let subset1 := finishGatheredSparseMlaAttention 1 1 1 state1 (fun _ _ _ => nan) (fun _ _ => nan)
    let merged := mergeTwoSparseMlaSubsetsWithSink 1 1 1 subset0.1 subset0.2 subset1.1 subset1.2
      (fun _ => fin 0) (fun _ _ _ => nan)
    let finished := finishTwoSparseMlaAttentionStatesWithSink 1 1 1 state0 state1 (fun _ => fin 0)
      (fun _ _ _ => nan)
    merged 0 0 0 = finished 0 0 0 ∧
      finished 0 0 0 = fin ((attendWithSink (Real.exp 0)
        [((0 : ℝ), fun _ : ℕ => (1 : ℝ)), (1, fun _ => 2)]) 0) := by
  have h := @subset_merge_iff 1 1 1 0 0 Nat.one_pos Nat.one_pos
    (fun _ _ => push State.empty (fin 0) (fun _ => fin 1)) _ Nat.one_pos
    (fun _ _ => push State.empty (fin 1) (fun _ => fin 2)) _
    (Reached.empty.push (0, fun _ => 1)) (Reached.empty.push (1, fun _ => 2)) (fun _ => fin 0)
    ((0 : ℝ) : WithBot ℝ) rfl (fun _ _ _ => nan) (fun _ _ => nan)
  exact ⟨h.2.1.mpr (Or.inr WithBot.coe_ne_bot) 0 Nat.one_pos, h.1 0 Nat.one_pos⟩

/-! ### Splitting a row of the decode op -/

/-- The output of the decode op with a sink. -/
theorem flashMlaWithKvcacheTriton_sink {cache : Fp8Cache} {y : ℕ → ℕ → ℝ} (indices : ℕ → List ℤ)
    (t : ℕ) (hy : RowsDecodeTo cache y (indices t)) (fusedEnabled : Bool) {hQ h : ℕ} (hh : h < hQ)
    (scale : ℝ) {q : ℕ → ℕ → ℕ → Scalar} {x : ℕ → ℝ} (hq : HoldsLanes dqk (q t h) x)
    {attnSink : ℕ → Scalar} {sink : WithBot ℝ} (hsink : attnSink h = ofBot sink) :
    ∀ d < dv, (flashMlaWithKvcacheTriton fusedEnabled hQ cache scale q indices (some attnSink)
      none).out t h d = fin (attendWithSink (sinkWeight sink)
        (slotCandidates cache scale x y (indices t) none) d) := by
  intro d hd
  obtain ⟨n, hn, hstate⟩ := decodeState_stateOf scale x (indices t) none hy fusedEnabled
    (show 0 < fusedBlockN by decide) hh hq
  show finishAttentionStateWithSinkKernel (decodeState _ _ _ _ _ _ _ _ h) (attnSink h) d = _
  rw [hsink, Option.map_none, hstate, finishWithSink_stateOf_eq,
    attendWithSink_truncate (lt_of_lt_of_le hd hn)]

/-- Without a length every slot of the row counts. -/
theorem slotCandidates_none (cache : Fp8Cache) (scale : ℝ) (x : ℕ → ℝ) (y : ℕ → ℕ → ℝ)
    (indices : List ℤ) : slotCandidates cache scale x y indices none =
      rowCandidates cache.totalSlots scale x y indices := by
  rw [slotCandidates, Option.getD_none, Int.toNat_natCast, List.take_length]

/-- **Recombining a split row.** However the slots of a token are dealt out to two calls of
the decode op, by whichever kernel each call runs, merging the two results with the sink is
the single pass over all the slots with that sink, exactly when a slot is valid or the
sink is finite. -/
theorem recombine_split_row {cache : Fp8Cache} {y : ℕ → ℕ → ℝ} {idx0 idx1 idx : ℕ → List ℤ}
    {T t hQ h : ℕ} (ht : t < T) (hh : h < hQ) (hsplit : (idx0 t ++ idx1 t).Perm (idx t))
    (hy : RowsDecodeTo cache y (idx t)) (fused0 fused1 fused : Bool) (scale : ℝ)
    {q : ℕ → ℕ → ℕ → Scalar} {x : ℕ → ℝ} (hq : HoldsLanes dqk (q t h) x) {attnSink : ℕ → Scalar}
    {sink : WithBot ℝ} (hsink : attnSink h = ofBot sink) (output : ℕ → ℕ → ℕ → Scalar) :
    let subset0 := flashMlaWithKvcacheTriton fused0 hQ cache scale q idx0 none none
    let subset1 := flashMlaWithKvcacheTriton fused1 hQ cache scale q idx1 none none
    let merged := mergeTwoSparseMlaSubsetsWithSink T hQ dv subset0.out subset0.lse subset1.out
      subset1.lse attnSink output
    let whole := flashMlaWithKvcacheTriton fused hQ cache scale q idx (some attnSink) none
    (∀ d < dv, merged t h d = whole.out t h d) ↔
      (∃ slot ∈ idx t, validSlot cache slot = true) ∨ sink ≠ ⊥ := by
  intro subset0 subset1 merged whole
  have hmem0 : ∀ slot ∈ idx0 t, slot ∈ idx t := fun slot hslot =>
    hsplit.subset (List.mem_append_left _ hslot)
  have hmem1 : ∀ slot ∈ idx1 t, slot ∈ idx t := fun slot hslot =>
    hsplit.subset (List.mem_append_right _ hslot)
  obtain ⟨hout0, hlse0⟩ := flashMlaWithKvcacheTriton_eq idx0 t
    (fun slot hslot => hy slot (hmem0 slot hslot)) fused0 hh scale hq none
  obtain ⟨hout1, hlse1⟩ := flashMlaWithKvcacheTriton_eq idx1 t
    (fun slot hslot => hy slot (hmem1 slot hslot)) fused1 hh scale hq none
  rw [Option.map_none, slotCandidates_none] at hout0 hlse0 hout1 hlse1
  -- the candidates of the parts are those of the row
  have hrows : [idx0 t, idx1 t].flatten.Perm (idx t) := by simpa using hsplit
  have hcands := rowCandidates_split cache.totalSlots scale x y hrows
  simp only [List.map_cons, List.map_nil, List.flatten_cons, List.flatten_nil,
    List.append_nil] at hcands
  have hwhole := flashMlaWithKvcacheTriton_sink idx t hy fused hh scale hq hsink
  simp only [slotCandidates_none] at hwhole
  have hmerged : ∀ d < dv, merged t h d =
      if rowCandidates cache.totalSlots scale x y (idx t) = [] ∧ sink = ⊥ then nan
      else fin (attendWithSink (sinkWeight sink)
        (rowCandidates cache.totalSlots scale x y (idx t)) d) := by
    intro d hd
    show launchTokenHeads _ _ _ _ _ t h d = _
    rw [launchTokenHeads_lt ht hh hd, hout0 d hd, hlse0, hout1 d hd, hlse1, hsink,
      mergeTwoKernel_eq, attendWithSink_perm _ hcands]
    refine if_congr (and_congr_left fun _ => ?_) rfl rfl
    constructor
    · intro hnil
      rw [hnil] at hcands
      exact List.nil_perm.mp hcands
    · intro hnil
      rw [hnil] at hcands
      exact List.perm_nil.mp hcands
  rw [agree_iff_something (by decide) hmerged hwhole]
  refine or_congr_left ?_
  rw [Ne, rowCandidates_eq_nil]
  push Not
  simp only [validSlot_iff]

/-- A row of a sentinel and a slot, dealt out to the two kernels, without a sink. -/
theorem recombine_split_row_unitCache :
    let part := fun fused idx => flashMlaWithKvcacheTriton fused 1 unitCache 1 (fun _ _ _ => fin 1)
      idx none none
    ∀ d < dv, mergeTwoSparseMlaSubsetsWithSink 1 1 dv (part true (fun _ => [0])).out
        (part true (fun _ => [0])).lse (part false (fun _ => [-1])).out
        (part false (fun _ => [-1])).lse (fun _ => negInf) (fun _ _ _ => nan) 0 0 d =
      (flashMlaWithKvcacheTriton true 1 unitCache 1 (fun _ _ _ => fin 1) (fun _ => [-1, 0])
        (some fun _ => negInf) none).out 0 0 d :=
  (@recombine_split_row unitCache _ (fun _ => [0]) (fun _ => [-1]) (fun _ => [-1, 0]) 1 0 1 0
    Nat.one_pos Nat.one_pos (List.Perm.swap _ _ _) (unitCache_decodesTo.rows _) true false true 1
    (fun _ _ _ => fin 1) (fun _ => 1) (fun _ _ => rfl) (fun _ => negInf) ⊥ rfl
    (fun _ _ _ => nan)).mpr (Or.inl ⟨0, by simp, by decide⟩)

end Glm52
