import Mathlib.Analysis.SpecialFunctions.Log.Basic
import Mathlib.Algebra.BigOperators.Group.List.Basic
import Mathlib.Algebra.Module.BigOperators
import Mathlib.Data.List.MinMax
import Mathlib.Tactic.Ring
import Mathlib.Tactic.FieldSimp

/-! # Softmax attention over a list of candidates

A candidate is a score and a value in a real vector space.  `weight` and `moment` are
the sums of `exp(score)` and of `exp(score) • value`; `attend` is their quotient, the
softmax average of the values.  Both sums are additive in the candidates and blind to
their order, which is all that splitting a list and merging the parts by weight needs
(`merge_attend`).

The running-maximum form scales both sums by the exponential of minus the largest
score; `rescale` moves that scale from one list to a longer one. -/
namespace Softmax

variable {V : Type} [AddCommGroup V] [Module ℝ V]

/-- A scored value. -/
abbrev Candidate (V : Type) := ℝ × V

/-- `Σ exp(score)`. -/
noncomputable def weight (l : List (Candidate V)) : ℝ := (l.map (fun c => Real.exp c.1)).sum

/-- `Σ exp(score) • value`. -/
noncomputable def moment (l : List (Candidate V)) : V := (l.map (fun c => Real.exp c.1 • c.2)).sum

/-- Softmax attention: the values averaged by `exp(score)`; zero without candidates. -/
noncomputable def attend (l : List (Candidate V)) : V := (weight l)⁻¹ • moment l

/-- The largest score, `⊥` without candidates. -/
noncomputable def peak (l : List (Candidate V)) : WithBot ℝ := (l.map Prod.fst).maximum

/-! ### The sums -/

section Weight
omit [AddCommGroup V] [Module ℝ V]

@[simp] theorem weight_nil : weight ([] : List (Candidate V)) = 0 := rfl

theorem weight_append (l b : List (Candidate V)) : weight (l ++ b) = weight l + weight b := by
  simp [weight]

theorem weight_flatten (parts : List (List (Candidate V))) :
    weight parts.flatten = (parts.map weight).sum := by
  induction parts with
  | nil => rfl
  | cons part parts ih => rw [List.flatten_cons, weight_append, ih, List.map_cons, List.sum_cons]

theorem weight_perm {l l' : List (Candidate V)} (h : l.Perm l') : weight l = weight l' :=
  (h.map _).sum_eq

theorem weight_flatten_replicate (n : ℕ) (l : List (Candidate V)) :
    weight (List.replicate n l).flatten = n * weight l := by
  rw [weight_flatten, List.map_replicate, List.sum_replicate, nsmul_eq_mul]

theorem exp_le_weight {l : List (Candidate V)} {c : Candidate V} (hc : c ∈ l) :
    Real.exp c.1 ≤ weight l := by
  have hnonneg : ∀ x ∈ l.map (fun c => Real.exp c.1), 0 ≤ x := by
    intro x hx
    obtain ⟨c', -, rfl⟩ := List.mem_map.mp hx
    exact Real.exp_nonneg c'.1
  exact List.single_le_sum hnonneg _ (List.mem_map.mpr ⟨c, hc, rfl⟩)

theorem weight_pos {l : List (Candidate V)} (hl : l ≠ []) : 0 < weight l := by
  obtain ⟨c, hc⟩ := List.exists_mem_of_ne_nil l hl
  exact lt_of_lt_of_le (Real.exp_pos c.1) (exp_le_weight hc)

end Weight

@[simp] theorem moment_nil : moment ([] : List (Candidate V)) = 0 := rfl

theorem moment_append (l b : List (Candidate V)) : moment (l ++ b) = moment l + moment b := by
  simp [moment]

theorem moment_perm {l l' : List (Candidate V)} (h : l.Perm l') : moment l = moment l' :=
  (h.map _).sum_eq

@[simp] theorem attend_nil : attend ([] : List (Candidate V)) = 0 := by simp [attend]

/-- An average, weighted back. -/
theorem weight_smul_attend (l : List (Candidate V)) : weight l • attend l = moment l := by
  cases l with
  | nil => simp
  | cons c l =>
    rw [attend, smul_smul, mul_inv_cancel₀ (weight_pos (List.cons_ne_nil c l)).ne', one_smul]

/-! ### One coordinate of the values -/

section Coordinate
variable {ι : Type}

theorem moment_apply (l : List (Candidate (ι → ℝ))) (d : ι) :
    moment l d = (l.map (fun c => Real.exp c.1 * c.2 d)).sum := by
  induction l with
  | nil => simp
  | cons c l ih =>
    rw [← List.singleton_append, moment_append, Pi.add_apply, ih]
    simp [moment]

/-- A coordinate of the average depends on the scores and on that coordinate of the
values. -/
theorem attend_apply_congr {l l' : List (Candidate (ι → ℝ))} {d : ι}
    (h : l.map (fun c => (c.1, c.2 d)) = l'.map (fun c => (c.1, c.2 d))) :
    attend l d = attend l' d := by
  have hweight := congrArg (fun m : List (ℝ × ℝ) => (m.map (fun c => Real.exp c.1)).sum) h
  have hmoment := congrArg (fun m : List (ℝ × ℝ) => (m.map (fun c => Real.exp c.1 * c.2)).sum) h
  simp only [List.map_map, Function.comp_def] at hweight hmoment
  rw [← moment_apply, ← moment_apply] at hmoment
  rw [attend, attend, Pi.smul_apply, Pi.smul_apply, hmoment]
  exact congrArg (fun w : ℝ => w⁻¹ • moment l' d) hweight

/-- **Merging by weight.** The averages of the parts, averaged by the parts' weights,
are the average of the whole. -/
theorem merge_attend {parts : List (List (Candidate (ι → ℝ)))} {whole : List (Candidate (ι → ℝ))}
    (h : parts.flatten.Perm whole) (d : ι) :
    (parts.map (fun part : List (Candidate (ι → ℝ)) => weight part * attend part d)).sum /
      weight whole = attend whole d := by
  have hmoment : (parts.map (fun part : List (Candidate (ι → ℝ)) =>
      weight part * attend part d)).sum = moment parts.flatten d := by
    clear h
    induction parts with
    | nil => rfl
    | cons part parts ih =>
      rw [List.map_cons, List.sum_cons, ih, List.flatten_cons, moment_append, Pi.add_apply,
        ← weight_smul_attend part, Pi.smul_apply, smul_eq_mul]
  rw [hmoment, moment_perm h, attend, Pi.smul_apply, smul_eq_mul, div_eq_inv_mul]

/-- The candidates with their values cut to the first `n` coordinates. -/
def truncate (n : ℕ) (l : List (Candidate (ℕ → ℝ))) : List (Candidate (ℕ → ℝ)) :=
  l.map (fun c => (c.1, fun d => if d < n then c.2 d else 0))

@[simp] theorem truncate_nil (n : ℕ) : truncate n [] = [] := rfl

theorem truncate_append (n : ℕ) (l b : List (Candidate (ℕ → ℝ))) :
    truncate n (l ++ b) = truncate n l ++ truncate n b := List.map_append

theorem map_fst_truncate (n : ℕ) (l : List (Candidate (ℕ → ℝ))) :
    (truncate n l).map Prod.fst = l.map Prod.fst := by
  rw [truncate, List.map_map]
  rfl

theorem weight_truncate (n : ℕ) (l : List (Candidate (ℕ → ℝ))) :
    weight (truncate n l) = weight l := by
  rw [weight, truncate, List.map_map]
  rfl

/-- A coordinate below the cut keeps its average. -/
theorem attend_truncate {n d : ℕ} (hd : d < n) (l : List (Candidate (ℕ → ℝ))) :
    attend (truncate n l) d = attend l d :=
  attend_apply_congr (by simp [truncate, hd])

theorem moment_truncate {n d : ℕ} (hd : d < n) (l : List (Candidate (ℕ → ℝ))) :
    moment (truncate n l) d = moment l d := by
  rw [moment_apply, moment_apply, truncate, List.map_map]
  simp [Function.comp_def, hd]

end Coordinate

/-! ### The largest score -/

section Peak
omit [AddCommGroup V] [Module ℝ V]

@[simp] theorem peak_nil : peak ([] : List (Candidate V)) = ⊥ := rfl

@[simp] theorem peak_singleton (c : Candidate V) : peak [c] = (c.1 : WithBot ℝ) :=
  List.maximum_singleton _

theorem peak_append (l b : List (Candidate V)) : peak (l ++ b) = max (peak l) (peak b) := by
  induction l with
  | nil => simp
  | cons c l ih =>
    have hl : peak (c :: (l ++ b)) = max (c.1 : WithBot ℝ) (peak (l ++ b)) := List.maximum_cons _ _
    have hr : peak (c :: l) = max (c.1 : WithBot ℝ) (peak l) := List.maximum_cons _ _
    rw [List.cons_append, hl, hr, ih, max_assoc]

theorem peak_perm {l l' : List (Candidate V)} (h : l.Perm l') : peak l = peak l' :=
  (h.map Prod.fst).maximum_eq

/-- Repeating a list leaves its largest score. -/
theorem peak_flatten_replicate {n : ℕ} (hn : 0 < n) (l : List (Candidate V)) :
    peak (List.replicate n l).flatten = peak l := by
  induction n, hn using Nat.le_induction with
  | base => simp
  | succ n hn ih => rw [List.replicate_succ, List.flatten_cons, peak_append, ih, max_self]

/-- With candidates, the largest score is one of them. -/
theorem exists_peak {l : List (Candidate V)} (hl : l ≠ []) :
    ∃ c ∈ l, peak l = (c.1 : WithBot ℝ) := by
  obtain ⟨m, hm⟩ := WithBot.ne_bot_iff_exists.mp
    (List.maximum_ne_bot_of_ne_nil (l := l.map Prod.fst) (by simpa using hl))
  obtain ⟨c, hc, hcm⟩ := List.mem_map.mp (List.maximum_mem hm.symm)
  refine ⟨c, hc, ?_⟩
  rw [hcm]
  exact hm.symm

theorem peak_truncate (n : ℕ) (l : List (Candidate (ℕ → ℝ))) : peak (truncate n l) = peak l := by
  rw [peak, map_fst_truncate, peak]

/-- The scale of the running-maximum form. -/
noncomputable def shift (l : List (Candidate V)) : ℝ := (peak l).unbotD 0

theorem shift_truncate (n : ℕ) (l : List (Candidate (ℕ → ℝ))) : shift (truncate n l) = shift l := by
  rw [shift, peak_truncate, shift]

theorem peak_eq_shift {l : List (Candidate V)} (hl : l ≠ []) : peak l = (shift l : WithBot ℝ) := by
  obtain ⟨c, -, hc⟩ := exists_peak hl
  rw [shift, hc, WithBot.unbotD_coe]

theorem shift_eq_zero {l : List (Candidate V)} (h : ∀ c ∈ l, c.1 = 0) : shift l = 0 := by
  by_cases hl : l = []
  · subst hl
    rw [shift, peak_nil, WithBot.unbotD_bot]
  · obtain ⟨c, hc, hpeak⟩ := exists_peak hl
    rw [shift, hpeak, WithBot.unbotD_coe, h c hc]

/-- **The scaled weight of a nonempty list is at least one**: its largest score
contributes `exp(0)`. -/
theorem one_le_scaled_weight {l : List (Candidate V)} (hl : l ≠ []) :
    1 ≤ Real.exp (-shift l) * weight l := by
  obtain ⟨c, hc, hpeak⟩ := exists_peak hl
  calc (1 : ℝ) = Real.exp (-shift l) * Real.exp c.1 := by
        rw [← Real.exp_add, shift, hpeak, WithBot.unbotD_coe, neg_add_cancel, Real.exp_zero]
    _ ≤ Real.exp (-shift l) * weight l :=
        mul_le_mul_of_nonneg_left (exp_le_weight hc) (Real.exp_nonneg _)

/-- `log(scaled weight) + scale` is the log-sum-exp. -/
theorem log_scaled_weight {l : List (Candidate V)} (hl : l ≠ []) :
    Real.log (Real.exp (-shift l) * weight l) + shift l = Real.log (weight l) := by
  rw [Real.log_mul (Real.exp_ne_zero _) (weight_pos hl).ne', Real.log_exp]
  ring

/-- The scale applied to a score. -/
theorem exp_sub_eq (s m : ℝ) : Real.exp (s - m) = Real.exp (-m) * Real.exp s := by
  rw [← Real.exp_add]
  congr 1
  ring

/-- Scaled by one maximum, rescaled to another. -/
theorem rescale (x m m' : ℝ) : Real.exp (-m) * x * Real.exp (m - m') = Real.exp (-m') * x := by
  have h : Real.exp (-m) * Real.exp (m - m') = Real.exp (-m') := by
    rw [← Real.exp_add]
    congr 1
    ring
  rw [mul_right_comm, h]

end Peak

end Softmax
