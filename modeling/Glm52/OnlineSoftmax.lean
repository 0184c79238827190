import Glm52.ExactFloat
import Glm52.Softmax
import Mathlib.Data.List.ReduceOption

/-! # Online softmax

The streaming form of softmax attention: a running maximum, the denominator and the
value accumulator relative to it, updated by one candidate (`push`) or by a tile of
masked lanes (`pushTile`).  The state is computed in floats with infinities, because
the start state has maximum `-inf`.

`stateOf l` is the state that stands for having seen the candidates `l`.  Both updates
map it to the state for the longer list (`push_stateOf`, `pushTile_stateOf`), and so
does a loop of them (`foldl_rep`).  The state depends on the candidates only, not
on how they were tiled. -/
namespace OnlineSoftmax
open ExactFloat Softmax

variable {ι : Type}

/-- Running maximum, denominator and accumulator. -/
@[ext]
structure State (ι : Type) where
  maxScore : ExactFloat ℝ
  denom : ExactFloat ℝ
  acc : ι → ExactFloat ℝ

/-- The state before any candidate. -/
noncomputable def State.empty : State ι := ⟨negInf, 0, fun _ => 0⟩

/-- Take in one candidate. -/
noncomputable def push (s : State ι) (score : ExactFloat ℝ) (value : ι → ExactFloat ℝ) :
    State ι :=
  let nextMax := maximum s.maxScore score
  let previousWeight := exp (s.maxScore - nextMax)
  let candidateWeight := exp (score - nextMax)
  { maxScore := nextMax
    denom := s.denom * previousWeight + candidateWeight
    acc := fun d => s.acc d * previousWeight + value d * candidateWeight }

/-- A lane of a tile: whether it counts, its score, its value. -/
structure Lane (ι : Type) where
  valid : Bool
  score : ExactFloat ℝ
  value : ι → ExactFloat ℝ

/-- The score of a lane, `-inf` when masked. -/
def Lane.maskedScore (lane : Lane ι) : ExactFloat ℝ := if lane.valid then lane.score else negInf

/-- The weight of a lane, zero when masked. -/
noncomputable def Lane.weight (m : ExactFloat ℝ) (lane : Lane ι) : ExactFloat ℝ :=
  if lane.valid then exp (lane.maskedScore - m) else 0

/-- Take in a tile.  The maximum that is subtracted is replaced by zero while it is
`-inf`, and the weight of the past is zero while there is none. -/
noncomputable def pushTile (s : State ι) (lanes : List (Lane ι)) : State ι :=
  let tileMax := (lanes.map Lane.maskedScore).foldr maximum negInf
  let nextMax := maximum s.maxScore tileMax
  let safeNext := if nextMax = negInf then 0 else nextMax
  let previousWeight := if s.maxScore = negInf then 0 else exp (s.maxScore - safeNext)
  { maxScore := nextMax
    denom := s.denom * previousWeight + (lanes.map (Lane.weight safeNext)).sum
    acc := fun d => s.acc d * previousWeight +
      (lanes.map (fun lane => lane.weight safeNext * lane.value d)).sum }

/-! ### The state of a list of candidates -/

/-- A maximum as a float; `⊥` is `-inf`. -/
def ofBot : WithBot ℝ → ExactFloat ℝ := WithBot.recBotCoe negInf fin

/-- The state that has seen the candidates `l`. -/
noncomputable def stateOf (l : List (Candidate (ι → ℝ))) : State ι where
  maxScore := ofBot (peak l)
  denom := fin (Real.exp (-shift l) * weight l)
  acc := fun d => fin (Real.exp (-shift l) * moment l d)

@[simp] theorem ofBot_bot : ofBot ⊥ = negInf := rfl

@[simp] theorem ofBot_coe (x : ℝ) : ofBot (x : WithBot ℝ) = fin x := rfl

theorem maximum_ofBot (a b : WithBot ℝ) : maximum (ofBot a) (ofBot b) = ofBot (max a b) := by
  induction a with
  | bot =>
    induction b with
    | bot => simp
    | coe y => simp
  | coe x =>
    induction b with
    | bot => simp
    | coe y => rw [ofBot_coe, ofBot_coe, maximum_fin, ← WithBot.coe_max, ofBot_coe]

theorem ofBot_eq_negInf {a : WithBot ℝ} : ofBot a = negInf ↔ a = ⊥ := by
  induction a with
  | bot => simp
  | coe x => simp

/-- The list has no maximum exactly when it is empty. -/
theorem peak_eq_bot {l : List (Candidate (ι → ℝ))} : peak l = ⊥ ↔ l = [] := by
  constructor
  · intro h
    by_contra hl
    rw [peak_eq_shift hl] at h
    exact WithBot.coe_ne_bot h
  · rintro rfl
    exact peak_nil

@[simp] theorem stateOf_nil : stateOf ([] : List (Candidate (ι → ℝ))) = State.empty := by
  ext <;> simp [stateOf, State.empty, zero_def]

/-- The past is rescaled from its own maximum to the next one.  With no past both
sides are zero, whatever the weight. -/
theorem past_mul {l : List (Candidate (ι → ℝ))} {x : ℝ} (hx : l = [] → x = 0) (m : ℝ) :
    (fin (Real.exp (-shift l) * x) * exp (ofBot (peak l) - fin m) : ExactFloat ℝ) =
      fin (Real.exp (-m) * x) := by
  by_cases hl : l = []
  · subst hl
    simp [hx rfl]
  · rw [peak_eq_shift hl, ofBot_coe, fin_sub, exp_fin, fin_mul, rescale]

/-- **One candidate.** -/
theorem push_stateOf (l : List (Candidate (ι → ℝ))) (s : ℝ) (v : ι → ℝ) :
    push (stateOf l) (fin s) (fun d => fin (v d)) = stateOf (l ++ [(s, v)]) := by
  have hne : l ++ [(s, v)] ≠ [] := by simp
  have hmax : maximum (ofBot (peak l)) (fin s) = fin (shift (l ++ [(s, v)])) := by
    rw [← ofBot_coe s, maximum_ofBot, ← ofBot_coe, ← peak_eq_shift hne, peak_append,
      peak_singleton]
  have hweight : weight [(s, v)] = Real.exp s := by simp [weight]
  have hmoment : moment [(s, v)] = Real.exp s • v := by simp [moment]
  ext
  · simp only [push, stateOf, hmax]
    rw [peak_eq_shift hne, ofBot_coe]
  · simp only [push, stateOf, hmax]
    rw [past_mul (fun h => by rw [h, weight_nil]), fin_sub, exp_fin, fin_add, exp_sub_eq,
      weight_append, hweight, mul_add]
  · simp only [push, stateOf, hmax]
    rw [past_mul (fun h => by rw [h, moment_nil]; rfl), fin_sub, exp_fin, fin_mul, fin_add,
      exp_sub_eq, moment_append, hmoment, Pi.add_apply, Pi.smul_apply, smul_eq_mul, mul_add]
    congr 2
    ring

/-! ### Tiles -/

/-- What a lane reads: nothing, with a zero value, or a candidate. -/
def Lane.Reads (lane : Lane ι) : Option (Candidate (ι → ℝ)) → Prop
  | none => lane.valid = false ∧ ∀ d, lane.value d = 0
  | some c => lane.valid = true ∧ lane.score = fin c.1 ∧ ∀ d, lane.value d = fin (c.2 d)

section Tile
variable {lanes : List (Lane ι)} {cs : List (Option (Candidate (ι → ℝ)))}

theorem foldr_maskedScore (h : List.Forall₂ Lane.Reads lanes cs) :
    (lanes.map Lane.maskedScore).foldr maximum negInf = ofBot (peak cs.reduceOption) := by
  induction h with
  | nil => rfl
  | @cons lane c lanes cs hlane _ ih =>
    rw [List.map_cons, List.foldr_cons, ih]
    cases c with
    | none =>
      rw [List.reduceOption_cons_of_none, Lane.maskedScore, hlane.1, if_neg Bool.false_ne_true,
        ← ofBot_bot, maximum_ofBot, max_eq_right bot_le]
    | some c =>
      have hpeak : peak (c :: cs.reduceOption) = max (c.1 : WithBot ℝ) (peak cs.reduceOption) := by
        rw [← List.singleton_append, peak_append, peak_singleton]
      rw [List.reduceOption_cons_of_some, Lane.maskedScore, hlane.1, hlane.2.1, if_pos rfl, hpeak,
        ← ofBot_coe, maximum_ofBot]

/-- The weighted sum of the lanes, for any reading of the values. -/
theorem sum_weight_mul (h : List.Forall₂ Lane.Reads lanes cs) (m : ℝ) (d : ι) :
    (lanes.map (fun lane => lane.weight (fin m) * lane.value d)).sum =
      fin (Real.exp (-m) * moment cs.reduceOption d) := by
  induction h with
  | nil => simp [zero_def, List.reduceOption_nil]
  | @cons lane c lanes cs hlane _ ih =>
    rw [List.map_cons, List.sum_cons, ih]
    cases c with
    | none =>
      rw [List.reduceOption_cons_of_none, Lane.weight, hlane.1, hlane.2 d]
      simp [zero_def]
    | some c =>
      rw [List.reduceOption_cons_of_some, Lane.weight, Lane.maskedScore, hlane.1, hlane.2.1,
        hlane.2.2 d]
      simp only [if_true, fin_sub, exp_fin, fin_mul, fin_add, exp_sub_eq]
      simp only [moment, List.map_cons, List.sum_cons, Pi.add_apply, Pi.smul_apply, smul_eq_mul]
      congr 1
      ring

theorem sum_weight (h : List.Forall₂ Lane.Reads lanes cs) (m : ℝ) :
    (lanes.map (Lane.weight (fin m))).sum = fin (Real.exp (-m) * weight cs.reduceOption) := by
  induction h with
  | nil => simp [zero_def, List.reduceOption_nil]
  | @cons lane c lanes cs hlane _ ih =>
    rw [List.map_cons, List.sum_cons, ih]
    cases c with
    | none =>
      rw [List.reduceOption_cons_of_none, Lane.weight, hlane.1]
      simp [zero_def]
    | some c =>
      rw [List.reduceOption_cons_of_some, Lane.weight, Lane.maskedScore, hlane.1, hlane.2.1]
      simp only [if_true, fin_sub, exp_fin, fin_add, exp_sub_eq]
      simp only [weight, List.map_cons, List.sum_cons]
      congr 1
      ring

/-- **One tile**, whatever its lanes: a tile of masked lanes leaves the state as it
is. -/
theorem pushTile_stateOf (l : List (Candidate (ι → ℝ)))
    (h : List.Forall₂ Lane.Reads lanes cs) :
    pushTile (stateOf l) lanes = stateOf (l ++ cs.reduceOption) := by
  have hmax : maximum (ofBot (peak l)) ((lanes.map Lane.maskedScore).foldr maximum negInf) =
      ofBot (peak (l ++ cs.reduceOption)) := by
    rw [foldr_maskedScore h, maximum_ofBot, peak_append]
  have hsafe : (if ofBot (peak (l ++ cs.reduceOption)) = negInf then (0 : ExactFloat ℝ)
      else ofBot (peak (l ++ cs.reduceOption))) = fin (shift (l ++ cs.reduceOption)) := by
    by_cases hl : l ++ cs.reduceOption = []
    · rw [hl]
      rfl
    · rw [if_neg (fun hbot => hl (peak_eq_bot.mp (ofBot_eq_negInf.mp hbot))), peak_eq_shift hl,
        ofBot_coe]
  -- the guard on the past changes nothing: `exp(-inf - m)` is already zero
  have hpast : (if ofBot (peak l) = negInf then (0 : ExactFloat ℝ)
      else exp (ofBot (peak l) - fin (shift (l ++ cs.reduceOption)))) =
        exp (ofBot (peak l) - fin (shift (l ++ cs.reduceOption))) := by
    split
    · next hbot => rw [hbot]; rfl
    · rfl
  ext
  · simp only [pushTile, stateOf, hmax]
  · simp only [pushTile, stateOf, hmax, hsafe, hpast]
    rw [past_mul (fun h => by rw [h, weight_nil]), sum_weight h, fin_add, weight_append, mul_add]
  · simp only [pushTile, stateOf, hmax, hsafe, hpast]
    rw [past_mul (fun h => by rw [h, moment_nil]; rfl), sum_weight_mul h, fin_add, moment_append,
      Pi.add_apply, mul_add]

end Tile

/-- **A loop of updates.** Let `rep l` be what has seen the items `l`.  If each pass
takes in the items `items x`, the loop takes in all of them. -/
theorem foldl_rep {σ γ C : Type} (rep : List C → σ) {step : σ → γ → σ} {items : γ → List C}
    {xs : List γ} (hstep : ∀ x ∈ xs, ∀ l, step (rep l) x = rep (l ++ items x)) (l : List C) :
    xs.foldl step (rep l) = rep (l ++ xs.flatMap items) := by
  induction xs generalizing l with
  | nil => simp
  | cons x xs ih =>
    rw [List.foldl_cons, hstep x List.mem_cons_self,
      ih (fun y hy => hstep y (List.mem_cons_of_mem x hy)), List.flatMap_cons, List.append_assoc]

/-- A loop that takes in one item or none each pass. -/
theorem foldl_rep_filterMap {σ γ C : Type} (rep : List C → σ) {step : σ → γ → σ}
    {item : γ → Option C} {xs : List γ}
    (hstep : ∀ x ∈ xs, ∀ l, step (rep l) x = rep (l ++ (item x).toList)) (l : List C) :
    xs.foldl step (rep l) = rep (l ++ xs.filterMap item) := by
  rw [foldl_rep rep hstep, List.filterMap_eq_flatMap_toList]

/-! ### Merging states -/

/-- The weight of a state in a merge with maximum `m`; zero without candidates. -/
noncomputable def State.mergeWeight (s : State ι) (m : ExactFloat ℝ) : ExactFloat ℝ :=
  if s.maxScore = negInf then 0 else exp (s.maxScore - m)

/-- Take in another state, rescaled to the common maximum. -/
noncomputable def merge (s t : State ι) : State ι :=
  let nextMax := maximum s.maxScore t.maxScore
  { maxScore := nextMax
    denom := s.denom * s.mergeWeight nextMax + t.denom * t.mergeWeight nextMax
    acc := fun d => s.acc d * s.mergeWeight nextMax + t.acc d * t.mergeWeight nextMax }

/-- With candidates the guard on a merge weight changes nothing; without, what is
weighted is zero. -/
theorem mul_mergeWeight {l : List (Candidate (ι → ℝ))} {x : ℝ} (hx : l = [] → x = 0) (m : ℝ) :
    (fin (Real.exp (-shift l) * x) * (stateOf l).mergeWeight (fin m) : ExactFloat ℝ) =
      fin (Real.exp (-m) * x) := by
  rw [← past_mul hx m, State.mergeWeight]
  split
  · next hbot =>
    have hl : ofBot (peak l) = negInf := hbot
    rw [hl]
    rfl
  · rfl

/-- **A merge of states is the state of both lists.** -/
theorem merge_stateOf (l b : List (Candidate (ι → ℝ))) :
    merge (stateOf l) (stateOf b) = stateOf (l ++ b) := by
  by_cases hne : l ++ b = []
  · obtain ⟨rfl, rfl⟩ := List.append_eq_nil_iff.mp hne
    ext <;> simp [merge, State.mergeWeight, State.empty, zero_def, maximum, lt]
  · have hmax : maximum (stateOf l).maxScore (stateOf b).maxScore = fin (shift (l ++ b)) := by
      show maximum (ofBot (peak l)) (ofBot (peak b)) = _
      rw [maximum_ofBot, ← peak_append, peak_eq_shift hne, ofBot_coe]
    ext
    · rw [merge, hmax]
      show _ = ofBot (peak (l ++ b))
      rw [peak_eq_shift hne, ofBot_coe]
    · simp only [merge, hmax]
      show fin _ * _ + fin _ * _ = fin _
      rw [mul_mergeWeight (fun h => by rw [h, weight_nil]),
        mul_mergeWeight (fun h => by rw [h, weight_nil]), fin_add, weight_append, mul_add]
    · simp only [merge, hmax]
      show fin _ * _ + fin _ * _ = fin _
      rw [mul_mergeWeight (fun h => by rw [h, moment_nil]; rfl),
        mul_mergeWeight (fun h => by rw [h, moment_nil]; rfl), fin_add, moment_append,
        Pi.add_apply, mul_add]

/-! ### What the state says -/

/-- The log-sum-exp of a list of candidates; `-inf` without candidates. -/
noncomputable def logSumExp (l : List (Candidate (ι → ℝ))) : ExactFloat ℝ := log (fin (weight l))

@[simp] theorem logSumExp_nil : logSumExp ([] : List (Candidate (ι → ℝ))) = negInf := by
  simp [logSumExp, log]

theorem logSumExp_of_ne_nil {l : List (Candidate (ι → ℝ))} (hl : l ≠ []) :
    logSumExp l = fin (Real.log (weight l)) := log_fin (weight_pos hl)

/-- **`exp` of the log-sum-exp is the weight**, of an empty list too. -/
theorem exp_logSumExp (l : List (Candidate (ι → ℝ))) : exp (logSumExp l) = fin (weight l) := by
  by_cases hl : l = []
  · subst hl
    simp
  · rw [logSumExp_of_ne_nil hl, exp_fin, Real.exp_log (weight_pos hl)]

/-- **Further candidates raise the log-sum-exp**: it stays the same only without any. -/
theorem logSumExp_append_eq_left {l b : List (Candidate (ι → ℝ))} :
    logSumExp (l ++ b) = logSumExp l ↔ b = [] := by
  constructor
  · intro h
    have hweight := congrArg exp h
    rw [exp_logSumExp, exp_logSumExp, fin.injEq, weight_append] at hweight
    by_contra hb
    have hpos := weight_pos hb
    linarith
  · rintro rfl
    rw [List.append_nil]

theorem logSumExp_truncate (n : ℕ) (l : List (Candidate (ℕ → ℝ))) :
    logSumExp (truncate n l) = logSumExp l := by
  rw [logSumExp, weight_truncate, logSumExp]

/-- Cutting the values changes only the cut coordinates of the accumulator. -/
theorem stateOf_truncate (n : ℕ) (l : List (Candidate (ℕ → ℝ))) :
    (stateOf (truncate n l)).maxScore = (stateOf l).maxScore ∧
    (stateOf (truncate n l)).denom = (stateOf l).denom ∧
    ∀ d < n, (stateOf (truncate n l)).acc d = (stateOf l).acc d := by
  refine ⟨?_, ?_, fun d hd => ?_⟩
  · simp only [stateOf, peak_truncate]
  · simp only [stateOf, shift_truncate, weight_truncate]
  · simp only [stateOf, shift_truncate, moment_truncate hd]

/-- A state depends on its candidates, not on their order. -/
theorem stateOf_perm {l l' : List (Candidate (ι → ℝ))} (h : l.Perm l') :
    stateOf l = stateOf l' := by
  have hshift : shift l = shift l' := by rw [shift, peak_perm h, shift]
  simp only [stateOf, peak_perm h, hshift, weight_perm h, moment_perm h]

/-- **Candidates taken in more than once count more than once**: the denominator tells. -/
theorem denom_stateOf_replicate {n : ℕ} (hn : 0 < n) (l items : List (Candidate (ι → ℝ))) :
    (stateOf (l ++ (List.replicate n items).flatten)).denom = (stateOf (l ++ items)).denom ↔
      n = 1 ∨ items = [] := by
  have hshift : shift (l ++ (List.replicate n items).flatten) = shift (l ++ items) := by
    rw [shift, peak_append, peak_flatten_replicate hn, ← peak_append, shift]
  constructor
  · intro h
    simp only [stateOf, hshift, fin.injEq] at h
    have hsum := mul_left_cancel₀ (Real.exp_ne_zero _) h
    rw [weight_append, weight_append, weight_flatten_replicate] at hsum
    by_cases hitems : items = []
    · exact Or.inr hitems
    · have hpos := weight_pos hitems
      have hone : (n : ℝ) = 1 := mul_right_cancel₀ hpos.ne' (by linarith)
      exact Or.inl (Nat.cast_eq_one.mp hone)
  · rintro (rfl | rfl)
    · simp
    · simp

/-- With a candidate the denominator is a number, at least one. -/
theorem denom_stateOf {l : List (Candidate (ι → ℝ))} (hl : l ≠ []) :
    ∃ x : ℝ, (stateOf l).denom = fin x ∧ 1 ≤ x :=
  ⟨_, rfl, one_le_scaled_weight hl⟩

end OnlineSoftmax
