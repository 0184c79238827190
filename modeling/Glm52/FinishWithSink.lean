import Glm52.SparseMlaKernels

/-! # The finish with an attention sink

A sink is one more logit in the softmax, without a value: it takes its share of the
weight and adds nothing to the output.  Both the maximum of the state and the sink may
be `-inf`, and the finish kernel guards each combination of its own.  Whatever loops
led to the state, the output is the softmax average of the candidates times their share
of the weight, and it is a number. -/
namespace Glm52
open Autotune ExactFloat Softmax OnlineSoftmax

/-- The states that the accumulation loops reach, with the candidates they have taken in. -/
inductive Reached : State ℕ → List (Candidate (ℕ → ℝ)) → Prop
  | empty : Reached State.empty []
  | push {s : State ℕ} {l : List (Candidate (ℕ → ℝ))} (c : Candidate (ℕ → ℝ)) :
      Reached s l → Reached (push s (fin c.1) (fun d => fin (c.2 d))) (l ++ [c])
  | tile {s : State ℕ} {l : List (Candidate (ℕ → ℝ))} {lanes : List (Lane ℕ)}
      {cs : List (Option (Candidate (ℕ → ℝ)))} :
      List.Forall₂ Lane.Reads lanes cs → Reached s l →
      Reached (pushTile s lanes) (l ++ cs.reduceOption)
  | merge {s s' : State ℕ} {l l' : List (Candidate (ℕ → ℝ))} :
      Reached s l → Reached s' l' → Reached (merge s s') (l ++ l')

/-- A state depends on the candidates only, not on the loops that led to it. -/
theorem Reached.eq_stateOf {s : State ℕ} {l : List (Candidate (ℕ → ℝ))} (h : Reached s l) :
    s = stateOf l := by
  induction h with
  | empty => rw [stateOf_nil]
  | push c _ ih => rw [ih, push_stateOf]
  | tile hlanes _ ih => rw [ih, pushTile_stateOf _ hlanes]
  | merge _ _ ih ih' => rw [ih, ih', merge_stateOf]

/-! ### The share of the candidates -/

/-- The weight of a sink; a sink of `-inf` has none. -/
noncomputable def sinkWeight (sink : WithBot ℝ) : ℝ := WithBot.recBotCoe 0 Real.exp sink

@[simp] theorem sinkWeight_bot : sinkWeight ⊥ = 0 := rfl

@[simp] theorem sinkWeight_coe (x : ℝ) : sinkWeight (x : WithBot ℝ) = Real.exp x := rfl

theorem exp_ofBot (sink : WithBot ℝ) : exp (ofBot sink) = fin (sinkWeight sink) := by
  cases sink with
  | bot => rfl
  | coe x => rfl

theorem sinkWeight_nonneg (sink : WithBot ℝ) : 0 ≤ sinkWeight sink := by
  cases sink with
  | bot => exact le_rfl
  | coe x => exact Real.exp_nonneg x

/-- With a candidate or a sink the total weight is no zero. -/
theorem total_weight_pos {l : List (Candidate (ℕ → ℝ))} {sink : WithBot ℝ}
    (h : l ≠ [] ∨ sink ≠ ⊥) : 0 < weight l + sinkWeight sink := by
  rcases h with hl | hsink
  · have hpos := weight_pos hl
    have hnonneg := sinkWeight_nonneg sink
    linarith
  · obtain ⟨x, rfl⟩ := WithBot.ne_bot_iff_exists.mp hsink
    have hpos : 0 < sinkWeight (x : WithBot ℝ) := Real.exp_pos x
    have hnonneg : 0 ≤ weight l := by
      by_cases hl : l = []
      · rw [hl, weight_nil]
      · exact (weight_pos hl).le
    linarith

/-- **A finite sink takes its share of the weight.** -/
theorem finish_stateOf_sink (l : List (Candidate (ℕ → ℝ))) (x : ℝ) (d : ℕ) :
    finishAttentionStateWithSinkKernel (stateOf l) (fin x) d =
      fin (attend l d * (weight l / (weight l + Real.exp x))) := by
  by_cases hl : l = []
  · subst hl
    simp [finishAttentionStateWithSinkKernel, State.empty, zero_def, lt]
  · have hone := one_le_scaled_weight hl
    have hpos : 0 < Real.exp (-shift l) * weight l := by linarith
    have hweight := weight_pos hl
    have hsink : lt negInf (fin x : Scalar) = true := rfl
    -- both exponents are taken relative to the larger of the two maxima
    let m := max (shift l) x
    have htotal : Real.exp (-shift l) * weight l * Real.exp (shift l - m) + Real.exp (x - m) =
        Real.exp (-m) * (weight l + Real.exp x) := by
      rw [rescale, exp_sub_eq, mul_add]
    have htotalPos : 0 < Real.exp (-m) * (weight l + Real.exp x) := by positivity
    simp only [finishAttentionStateWithSinkKernel, stateOf, zero_def, lt_fin, hpos, decide_true,
      if_true, hsink, Bool.or_true, peak_eq_shift hl, ofBot_coe, maximum_fin, fin_sub, exp_fin,
      fin_mul, fin_add]
    rw [show max (shift l) x = m from rfl, htotal, if_pos (decide_eq_true htotalPos),
      fin_div htotalPos.ne', fin_mul, rescale, attend, Pi.smul_apply, smul_eq_mul]
    congr 1
    have hexp := Real.exp_ne_zero (-m)
    field_simp

/-- The output of one lane for the candidates `l` and a sink. -/
structure FinishedWithSink (l : List (Candidate (ℕ → ℝ))) (sink : WithBot ℝ) (d : ℕ)
    (out : Scalar) : Prop where
  share : l ≠ [] ∨ sink ≠ ⊥ →
    out = fin (attend l d) * (exp (logSumExp l) / (exp (logSumExp l) + exp (ofBot sink)))
  no_sink : sink = ⊥ → out = fin (attend l d)
  no_tokens : l = [] → out = 0
  number : ∃ x : ℝ, out = fin x

/-- The finish kernel on the state of a list. -/
theorem finishedWithSink_stateOf (l : List (Candidate (ℕ → ℝ))) (sink : WithBot ℝ) (d : ℕ) :
    FinishedWithSink l sink d
      (finishAttentionStateWithSinkKernel (stateOf l) (ofBot sink) d) := by
  have hout : finishAttentionStateWithSinkKernel (stateOf l) (ofBot sink) d =
      if sink = ⊥ then fin (attend l d)
      else fin (attend l d * (weight l / (weight l + sinkWeight sink))) := by
    cases sink with
    | bot => rw [if_pos rfl, ofBot_bot, finish_stateOf]
    | coe x => rw [if_neg WithBot.coe_ne_bot, ofBot_coe, finish_stateOf_sink, sinkWeight_coe]
  rw [hout]
  constructor
  · intro h
    have htotal := total_weight_pos h
    rw [exp_logSumExp, exp_ofBot, fin_add, fin_div htotal.ne', fin_mul]
    split
    · next hbot =>
      subst hbot
      -- without a sink the share is one
      rw [sinkWeight_bot, add_zero] at htotal ⊢
      rw [div_self htotal.ne', mul_one]
    · rfl
  · intro hbot
    rw [if_pos hbot]
  · rintro rfl
    split
    · rw [attend_nil, Pi.zero_apply, zero_def]
    · rw [attend_nil, Pi.zero_apply, zero_mul, zero_def]
  · split
    · exact ⟨_, rfl⟩
    · exact ⟨_, rfl⟩

/-- Cutting the values of the candidates leaves the lanes below the cut. -/
theorem FinishedWithSink.of_truncate {n d : ℕ} (hd : d < n) {l : List (Candidate (ℕ → ℝ))}
    {sink : WithBot ℝ} {out : Scalar} (h : FinishedWithSink (truncate n l) sink d out) :
    FinishedWithSink l sink d out := by
  have hnil : truncate n l = [] ↔ l = [] := List.map_eq_nil_iff
  constructor
  · intro hl
    rw [h.share (hl.imp_left (mt hnil.mp)), attend_truncate hd, logSumExp_truncate]
  · intro hbot
    rw [h.no_sink hbot, attend_truncate hd]
  · intro hl
    exact h.no_tokens (hnil.mpr hl)
  · exact h.number

/-! ### The kernel and the wrapper -/

/-- **The finish with a sink is exact**, on every state the accumulation reaches and
through the sparse forward, whose `lse` leaves the sink out.  The forward accumulates by the
kernel for eight heads and more, or by the other one with its width tuned. -/
theorem finish_with_sink_exact {s : State ℕ} {l : List (Candidate (ℕ → ℝ))} (hs : Reached s l)
    (sink : WithBot ℝ) {hQ h t sKv : ℕ} (hh : h < hQ) {q : ℕ → ℕ → ℕ → Scalar} {x : ℕ → ℝ}
    (hq : HoldsLanes dqk (q t h) x) {kv : ℕ → ℕ → Scalar} {y : ℕ → ℕ → ℝ}
    (hkv : ∀ i < sKv, HoldsLanes dqk (kv i) (y i)) (indices : ℕ → List ℤ) (smScale : ℝ)
    {attnSink : Option (ℕ → Scalar)} (hsink : sinkOrNone attnSink h = ofBot sink)
    (topkLength : Option (ℕ → ℤ)) {tuner : Tuner ℕ}
    (htuned : prefillIndexedHeadBlock ≤ hQ ∨ tuner.tuned (indices t).length = true) :
    let r := flashMlaSparseFwdTriton tuner hQ sKv q kv indices smScale attnSink topkLength
    let cands := rowCandidates sKv smScale x y
      ((indices t).take (candidateLens indices topkLength t).toNat)
    ((∀ d, FinishedWithSink l sink d (finishAttentionStateWithSinkKernel s (ofBot sink) d)) ∧
      stateLse s = logSumExp l) ∧
    (∀ d < dv, FinishedWithSink cands sink d (r.out t h d)) ∧ r.lse t h = logSumExp cands := by
  intro r cands
  have hstate := accumulateIndexedSparse_empty hh hq hkv indices smScale htuned
    (candidateLens indices topkLength t)
  refine ⟨⟨fun d => ?_, ?_⟩, fun d hd => ?_, ?_⟩
  · rw [hs.eq_stateOf]
    exact finishedWithSink_stateOf l sink d
  · rw [hs.eq_stateOf, stateLse_stateOf]
  · have hlane : d < dqk := lt_trans hd (by decide)
    apply FinishedWithSink.of_truncate hlane
    show FinishedWithSink _ _ _ (finishAttentionStateWithSinkKernel
      (accumulateIndexedSparseMlaAttentionChunk _ _ _ _ _ _ _ _ _ _ _ h) (sinkOrNone attnSink h) d)
    rw [hstate, hsink]
    exact finishedWithSink_stateOf _ sink d
  · show stateLse (accumulateIndexedSparseMlaAttentionChunk _ _ _ _ _ _ _ _ _ _ _ h) = _
    rw [hstate, stateLse_stateOf, logSumExp_truncate]

/-- One head, one row of zeros, and a sink of zero: a half of the value. -/
theorem finish_with_sink_exact_one :
    FinishedWithSink [(0, fun _ => 1)] (0 : ℝ) 0 (finishAttentionStateWithSinkKernel
      (push State.empty (fin 0) (fun _ => fin 1)) (ofBot (0 : ℝ)) 0) := by
  have h := @finish_with_sink_exact _ _ (Reached.empty.push (0, fun _ => 1)) ((0 : ℝ) : WithBot ℝ)
    64 0 0 1 (by decide) (fun _ _ _ => fin 0) (fun _ => 0) (fun _ _ => rfl) (fun _ _ => fin 0)
    (fun _ _ => 0) (fun _ _ _ _ => rfl) (fun _ => [0]) 1 (some (fun _ => fin 0)) rfl none
    (Tuner.cold 4 (by decide)) (Or.inl (by decide))
  exact h.1.1 0

end Glm52
