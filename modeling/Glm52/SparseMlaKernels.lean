import Glm52.Autotune
import Glm52.OnlineSoftmax
import Mathlib.Data.Nat.Prime.Defs
import Mathlib.Tactic.NormNum

/-! # The indexed attention kernels and the BF16 sparse path

The accumulate kernels walk a row of KV indices, skip the invalid ones, and feed the
others to the online softmax; the finish kernel turns the state into an output, with
an attention sink.  Heads and tokens do not interact, so a kernel is modelled for one
token and one head.

The accumulate kernel for few heads is behind an autotuner, with the width of the index row
as its key, and updates the state in place: on the first call for a width it runs several
times.

A lane of a tensor is a function of its index, and so is an output over the heads:
`launchHeads` says which heads the programs of a launch store.  Casts between float types are
identities here: the values are exact. -/
namespace Glm52
open Autotune ExactFloat Softmax OnlineSoftmax

/-- A float as the kernels compute with it. -/
abbrev Scalar := ExactFloat ℝ

/-- `_DQK`: the width of a query and of a KV row. -/
def dqk : ℕ := 576

/-- `_DV`: the width of a value. -/
def dv : ℕ := 512

/-- `min(1024, next_power_of_2(head_dim))`: the lanes of a program. -/
def blockD (headDim : ℕ) : ℕ := min 1024 headDim.nextPowerOfTwo

/-- `tl.load(ptr + offsets, mask=offsets < n, other=0.0)`. -/
noncomputable def loadMasked (n : ℕ) (x : ℕ → Scalar) (d : ℕ) : Scalar := if d < n then x d else 0

/-- `tl.sum(q * kv)` over the lanes of a program. -/
noncomputable def laneDot (headDim : ℕ) (q kv : ℕ → Scalar) : Scalar :=
  ((List.range (blockD headDim)).map
    (fun d => loadMasked headDim q d * loadMasked headDim kv d)).sum

/-! ### Accumulation -/

/-- The loop of both indexed accumulate kernels for one token and head, from the
state already stored: over the first `local_eff` entries of the row, an entry that is
no row of the KV is skipped. -/
noncomputable def accumulateIndexedLane (headDim numKvRows candidateOffset : ℕ) (scale : ℝ)
    (q : ℕ → Scalar) (kvFlat : ℕ → ℕ → Scalar) (indices : List ℤ) (validLen : ℤ)
    (state : State ℕ) : State ℕ :=
  let localEff := min (indices.length : ℤ) (max (validLen - candidateOffset) 0)
  (indices.take localEff.toNat).foldl (fun (s : State ℕ) (kvIndex : ℤ) =>
    if 0 ≤ kvIndex ∧ kvIndex < numKvRows then
      let kv := kvFlat kvIndex.toNat
      push s (laneDot headDim q kv * fin scale) (loadMasked headDim kv)
    else s) state

/-- `_accumulate_indexed_attention_chunk_kernel`: one program a head.  This is one run of it;
`@triton.autotune` makes a call of several runs. -/
noncomputable def accumulateIndexedAttentionChunkKernel (headDim numKvRows candidateOffset : ℕ)
    (scale : ℝ) (q : ℕ → Scalar) (kvFlat : ℕ → ℕ → Scalar) (indices : List ℤ) (validLen : ℤ)
    (state : State ℕ) : State ℕ :=
  accumulateIndexedLane headDim numKvRows candidateOffset scale q kvFlat indices validLen state

/-- `_accumulate_indexed_attention_chunk_multihead_kernel`: a program a block of
heads, a head a lane. -/
noncomputable def accumulateIndexedAttentionChunkMultiheadKernel
    (headDim numKvRows candidateOffset : ℕ) (scale : ℝ) (q : ℕ → Scalar) (kvFlat : ℕ → ℕ → Scalar)
    (indices : List ℤ) (validLen : ℤ) (state : State ℕ) : State ℕ :=
  accumulateIndexedLane headDim numKvRows candidateOffset scale q kvFlat indices validLen state

/-- `_PREFILL_INDEXED_HEAD_BLOCK`. -/
def prefillIndexedHeadBlock : ℕ := 8

/-- A launch over the heads of a token: program `b` computes the heads
`b * headBlock + i` and stores those below `num_heads`; the others keep their state. -/
def launchHeads (headBlock numHeads : ℕ) (lane state : ℕ → State ℕ) (h : ℕ) : State ℕ :=
  let grid := (numHeads + headBlock - 1) / headBlock
  if ∃ b < grid, ∃ i < headBlock, h = b * headBlock + i ∧ h < numHeads then lane h else state h

/-- The grid reaches every item's block. -/
theorem div_lt_cdiv {b n i : ℕ} (hb : 0 < b) (hi : i < n) : i / b < (n + b - 1) / b := by
  rw [Nat.div_lt_iff_lt_mul hb]
  have hceil := Nat.div_add_mod' (n + b - 1) b
  have hmod := Nat.mod_lt (n + b - 1) hb
  omega

/-- **A launch stores every head.** -/
theorem launchHeads_lt {headBlock numHeads h : ℕ} (hB : 0 < headBlock) (hh : h < numHeads)
    (lane state : ℕ → State ℕ) : launchHeads headBlock numHeads lane state h = lane h := by
  have hmod := Nat.mod_lt h hB
  have hdecomp := Nat.div_add_mod' h headBlock
  exact if_pos ⟨h / headBlock, div_lt_cdiv hB hh, h % headBlock, hmod, hdecomp.symm, hh⟩

/-- What is no head keeps its state. -/
theorem launchHeads_ge {headBlock numHeads h : ℕ} (hh : ¬ h < numHeads) (lane state : ℕ → State ℕ) :
    launchHeads headBlock numHeads lane state h = state h := by
  refine if_neg ?_
  rintro ⟨-, -, -, -, -, hlt⟩
  exact hh hlt

/-- `accumulate_indexed_sparse_mla_attention_chunk`: the launch, for one token.  The key of the
autotuner is `num_candidates`; `reset_to_zero` and `restore_value` are not given. -/
noncomputable def accumulateIndexedSparseMlaAttentionChunk (tuner : Tuner ℕ)
    (numHeads headDim numKvRows : ℕ) (q : ℕ → ℕ → Scalar) (kvFlat : ℕ → ℕ → Scalar)
    (indices : List ℤ) (lens : ℤ) (scale : ℝ) (candidateOffset : ℕ) (state : ℕ → State ℕ) :
    ℕ → State ℕ :=
  let headBlock := prefillIndexedHeadBlock
  if headBlock ≤ numHeads then
    launchHeads headBlock numHeads
      (fun h => accumulateIndexedAttentionChunkMultiheadKernel headDim numKvRows candidateOffset
        scale (q h) kvFlat indices lens (state h)) state
  else
    tuner.call indices.length (fun state => launchHeads 1 numHeads
      (fun h => accumulateIndexedAttentionChunkKernel headDim numKvRows candidateOffset scale (q h)
        kvFlat indices lens (state h)) state) state

/-! ### Finish -/

/-- `_finish_attention_state_with_sink_kernel`, for one token and head. -/
noncomputable def finishAttentionStateWithSinkKernel (state : State ℕ) (sink : Scalar) (d : ℕ) :
    Scalar :=
  let hasTokens := lt 0 state.denom
  let hasSink := lt negInf sink
  let validMax := if hasTokens then state.maxScore else negInf
  let validSink := if hasSink then sink else negInf
  let mergeMax := maximum validMax validSink
  let hasAny := hasTokens || hasSink
  let safeMergeMax := if hasAny then mergeMax else 0
  let safeRunningMax := if hasTokens then state.maxScore else safeMergeMax
  let safeSink := if hasSink then sink else safeMergeMax
  let subsetScale := if hasTokens then exp (safeRunningMax - safeMergeMax) else 0
  let subsetWeight := state.denom * subsetScale
  let sinkWeight := if hasSink then exp (safeSink - safeMergeMax) else 0
  let totalWeight := subsetWeight + sinkWeight
  let invTotal := if lt 0 totalWeight then fin 1 / totalWeight else 0
  let accValues := if hasTokens then state.acc d else 0
  accValues * subsetScale * invTotal

/-- `x.clamp_min(lo)`. -/
noncomputable def clampMin (x : Scalar) (lo : ℝ) : Scalar :=
  match x with
  | nan => nan
  | x => maximum x (fin lo)

/-- The `lse` both wrappers compute from a state:
`where(denom > 0, log(denom.clamp_min(1e-30)) + safe_max, -inf)`. -/
noncomputable def stateLse (state : State ℕ) : Scalar :=
  let safeMax := if lt 0 state.denom then state.maxScore else 0
  if lt 0 state.denom then log (clampMin state.denom 1e-30) + safeMax else negInf

/-- What the sparse prefill op returns. -/
structure SparseFwdResult where
  out : ℕ → ℕ → ℕ → Scalar
  maxLogits : ℕ → ℕ → Scalar
  lse : ℕ → ℕ → Scalar

/-- `lens`: the cap on the candidates of a token, the whole row when no lengths are
given. -/
def candidateLens (indices : ℕ → List ℤ) (topkLength : Option (ℕ → ℤ)) (t : ℕ) : ℤ :=
  match topkLength with
  | some topkLength => topkLength t
  | none => (indices t).length

/-- `attn_sink`, `-inf` for every head when there is none. -/
def sinkOrNone (attnSink : Option (ℕ → Scalar)) (h : ℕ) : Scalar :=
  match attnSink with
  | some attnSink => attnSink h
  | none => negInf

/-- `flash_mla_sparse_fwd_triton`, with `h_q` heads over a KV of `s_kv` rows. -/
noncomputable def flashMlaSparseFwdTriton (tuner : Tuner ℕ) (hQ sKv : ℕ) (q : ℕ → ℕ → ℕ → Scalar)
    (kv : ℕ → ℕ → Scalar) (indices : ℕ → List ℤ) (smScale : ℝ)
    (attnSink : Option (ℕ → Scalar)) (topkLength : Option (ℕ → ℤ)) : SparseFwdResult :=
  let state := fun t => accumulateIndexedSparseMlaAttentionChunk tuner hQ dqk sKv (q t) kv
    (indices t) (candidateLens indices topkLength t) smScale 0 (fun _ => State.empty)
  { out := fun t h d => finishAttentionStateWithSinkKernel (state t h) (sinkOrNone attnSink h) d
    maxLogits := fun t h => (state t h).maxScore
    lse := fun t h => stateLse (state t h) }

/-! ### What they compute -/

/-- `Σ x_d y_d` over the first `n` dimensions. -/
def dot (n : ℕ) (x y : ℕ → ℝ) : ℝ := ∑ d ∈ Finset.range n, x d * y d

theorem dqk_le_blockD : dqk ≤ blockD dqk := by decide +kernel

/-- The first `n` lanes hold the numbers `x`. -/
def HoldsLanes (n : ℕ) (q : ℕ → Scalar) (x : ℕ → ℝ) : Prop := ∀ d < n, q d = fin (x d)

/-- A masked load of lanes that hold numbers. -/
theorem HoldsLanes.loadMasked {n : ℕ} {q : ℕ → Scalar} {x : ℕ → ℝ} (h : HoldsLanes n q x) :
    loadMasked n q = fun d => fin (if d < n then x d else 0) := by
  funext d
  unfold Glm52.loadMasked
  split
  · next hd => exact h d hd
  · rfl

/-- A score of numbers is a number, over the lanes of the program. -/
theorem laneDot_lanes {headDim : ℕ} {q kv : ℕ → Scalar} {x y : ℕ → ℝ}
    (hq : HoldsLanes headDim q x) (hkv : HoldsLanes headDim kv y) :
    laneDot headDim q kv =
      fin (∑ d ∈ Finset.range (blockD headDim), if d < headDim then x d * y d else 0) := by
  have hlane : ∀ d, loadMasked headDim q d * loadMasked headDim kv d =
      (fin (if d < headDim then x d * y d else 0) : Scalar) := by
    intro d
    rw [hq.loadMasked, hkv.loadMasked, fin_mul]
    split
    · rfl
    · rw [mul_zero]
  rw [laneDot]
  simp only [hlane]
  rw [sum_map_fin]
  rfl

/-- The lanes beyond the head dimension add nothing to a score. -/
theorem laneDot_fin {headDim : ℕ} (h : headDim ≤ blockD headDim) {q kv : ℕ → Scalar}
    {x y : ℕ → ℝ} (hq : HoldsLanes headDim q x) (hkv : HoldsLanes headDim kv y) :
    laneDot headDim q kv = fin (dot headDim x y) := by
  rw [laneDot_lanes hq hkv, dot, ← Finset.sum_filter]
  congr 2
  ext d
  simp only [Finset.mem_filter, Finset.mem_range]
  omega

/-- The candidate that an entry of an index row stands for, if any: the scaled score
of the KV row it names, and the row. -/
noncomputable def indexedCandidate (headDim numKvRows : ℕ) (scale : ℝ) (x : ℕ → ℝ)
    (y : ℕ → ℕ → ℝ) (i : ℤ) : Option (Candidate (ℕ → ℝ)) :=
  if 0 ≤ i ∧ i < numKvRows then
    some (dot headDim x (y i.toNat) * scale, y i.toNat)
  else none

/-- The lanes of the accumulate loop are those below the cap. -/
theorem take_localEff (indices : List ℤ) (validLen : ℤ) (candidateOffset : ℕ) :
    indices.take (min (indices.length : ℤ) (max (validLen - candidateOffset) 0)).toNat =
      indices.take (validLen - candidateOffset).toNat := by
  rcases Nat.le_total (validLen - candidateOffset).toNat indices.length with hle | hle
  · congr 1
    omega
  · rw [List.take_of_length_le hle, List.take_of_length_le (by omega)]

/-- **The indexed accumulation takes in the valid entries below the cap.** -/
theorem accumulateIndexedLane_stateOf {headDim : ℕ} (h : headDim ≤ blockD headDim)
    {numKvRows : ℕ} (candidateOffset : ℕ) (scale : ℝ) {q : ℕ → Scalar} {x : ℕ → ℝ}
    (hq : HoldsLanes headDim q x) {kv : ℕ → ℕ → Scalar} {y : ℕ → ℕ → ℝ}
    (hkv : ∀ i < numKvRows, HoldsLanes headDim (kv i) (y i)) (indices : List ℤ)
    (validLen : ℤ) (l : List (Candidate (ℕ → ℝ))) :
    accumulateIndexedLane headDim numKvRows candidateOffset scale q kv indices validLen
      (stateOf (truncate headDim l)) =
      stateOf (truncate headDim (l ++ (indices.take (validLen - candidateOffset).toNat).filterMap
        (indexedCandidate headDim numKvRows scale x y))) := by
  simp only [accumulateIndexedLane, take_localEff]
  refine foldl_rep_filterMap (fun l => stateOf (truncate headDim l)) (fun i _ l => ?_) l
  unfold indexedCandidate
  split
  · next hi =>
    have hrow := hkv i.toNat (by omega)
    rw [laneDot_fin h hq hrow, fin_mul, hrow.loadMasked, push_stateOf, Option.toList_some,
      truncate_append]
    rfl
  · rw [Option.toList_none, List.append_nil]

/-- The clamp of a denominator that is at least one. -/
theorem clampMin_of_one_le {v : ℝ} (hv : 1 ≤ v) : clampMin (fin v) 1e-30 = fin v := by
  have hlo : (1e-30 : ℝ) ≤ v := le_trans (by norm_num) hv
  rw [clampMin, maximum_fin, max_eq_left hlo]
  · intro hnan
    cases hnan

/-- The denominator of a state with candidates is at least one, so the clamp and the
guards of `lse` and of the finish change nothing. -/
theorem stateLse_stateOf (l : List (Candidate (ℕ → ℝ))) : stateLse (stateOf l) = logSumExp l := by
  by_cases hl : l = []
  · subst hl
    simp [stateLse, State.empty, zero_def]
  · have hone := one_le_scaled_weight hl
    have hpos : 0 < Real.exp (-shift l) * weight l := by linarith
    simp only [stateLse, stateOf, zero_def, lt_fin, hpos, decide_true, if_true,
      clampMin_of_one_le hone]
    rw [log_fin hpos, peak_eq_shift hl, ofBot_coe, fin_add, log_scaled_weight hl,
      logSumExp_of_ne_nil hl]

/-- **Without a sink the finish is softmax attention**, zero for the empty state. -/
theorem finish_stateOf (l : List (Candidate (ℕ → ℝ))) (d : ℕ) :
    finishAttentionStateWithSinkKernel (stateOf l) negInf d = fin (attend l d) := by
  by_cases hl : l = []
  · subst hl
    simp [finishAttentionStateWithSinkKernel, State.empty, zero_def]
  · have hone := one_le_scaled_weight hl
    have hpos : 0 < Real.exp (-shift l) * weight l := by linarith
    simp only [finishAttentionStateWithSinkKernel, stateOf, zero_def, lt_fin, hpos, decide_true,
      if_true, lt_negInf, Bool.false_eq_true, if_false, Bool.or_false, peak_eq_shift hl, ofBot_coe]
    rw [maximum_negInf_right (by simp)]
    simp only [fin_sub, sub_self, exp_fin, Real.exp_zero, fin_mul, mul_one, fin_add, add_zero,
      lt_fin, hpos, decide_true, if_true]
    rw [fin_div hpos.ne', fin_mul, attend, Pi.smul_apply, smul_eq_mul]
    congr 1
    have hexp := Real.exp_ne_zero (-shift l)
    have hweight := (weight_pos hl).ne'
    field_simp

/-! ### The BF16 sparse path -/

/-- The candidates of an index row for one query: its valid entries, in order. -/
noncomputable def rowCandidates (numKvRows : ℕ) (scale : ℝ) (x : ℕ → ℝ) (y : ℕ → ℕ → ℝ)
    (row : List ℤ) : List (Candidate (ℕ → ℝ)) :=
  row.filterMap (indexedCandidate dqk numKvRows scale x y)

section SparseFwd
variable {hQ h t sKv : ℕ} (hh : h < hQ) {q : ℕ → ℕ → ℕ → Scalar} {x : ℕ → ℝ}
  (hq : HoldsLanes dqk (q t h) x) {kv : ℕ → ℕ → Scalar} {y : ℕ → ℕ → ℝ}
  (hkv : ∀ i < sKv, HoldsLanes dqk (kv i) (y i)) (indices : ℕ → List ℤ) (smScale : ℝ)
include hh hq hkv

/-- By the multihead kernel, or by the other one once the width is tuned. -/
theorem accumulateIndexedSparse_empty {tuner : Tuner ℕ}
    (htuned : prefillIndexedHeadBlock ≤ hQ ∨ tuner.tuned (indices t).length = true) (lens : ℤ) :
    accumulateIndexedSparseMlaAttentionChunk tuner hQ dqk sKv (q t) kv (indices t) lens smScale 0
      (fun _ => State.empty) h =
      stateOf (truncate dqk (rowCandidates sKv smScale x y ((indices t).take lens.toNat))) := by
  have hlane := accumulateIndexedLane_stateOf dqk_le_blockD 0 smScale hq hkv (indices t) lens []
  rw [truncate_nil, stateOf_nil, List.nil_append, Nat.cast_zero, sub_zero] at hlane
  rw [accumulateIndexedSparseMlaAttentionChunk]
  split
  · rw [launchHeads_lt (by decide) hh]
    exact hlane
  · next hfew =>
    rw [Tuner.call_of_tuned (htuned.resolve_left hfew), launchHeads_lt Nat.one_pos hh]
    exact hlane

/-- **The BF16 path is softmax attention over its candidates**, with their
log-sum-exp. -/
theorem flashMlaSparseFwdTriton_eq {tuner : Tuner ℕ}
    (htuned : prefillIndexedHeadBlock ≤ hQ ∨ tuner.tuned (indices t).length = true)
    (topkLength : Option (ℕ → ℤ)) :
    let r := flashMlaSparseFwdTriton tuner hQ sKv q kv indices smScale none topkLength
    let cands := rowCandidates sKv smScale x y
      ((indices t).take (candidateLens indices topkLength t).toNat)
    (∀ d < dqk, r.out t h d = fin (attend cands d)) ∧ r.lse t h = logSumExp cands := by
  intro r cands
  have hstate := accumulateIndexedSparse_empty hh hq hkv indices smScale htuned
    (candidateLens indices topkLength t)
  constructor
  · intro d hd
    show finishAttentionStateWithSinkKernel (accumulateIndexedSparseMlaAttentionChunk _ _ _ _ _
      _ _ _ _ _ _ h) negInf d = _
    rw [hstate, finish_stateOf, attend_truncate hd]
  · show stateLse (accumulateIndexedSparseMlaAttentionChunk _ _ _ _ _ _ _ _ _ _ _ h) = _
    rw [hstate, stateLse_stateOf, logSumExp_truncate]

end SparseFwd

end Glm52
