import Glm52.Softmax

/-! # Softmax attention with a sink

A sink is a score without a value: it takes a share of the weight and adds nothing.
`attendWithSink w l` is softmax attention over `l` with a sink of weight `w`; a weight of
zero is no sink at all, and the result is zero without candidates. -/
namespace Softmax

variable {V : Type} [AddCommGroup V] [Module ℝ V]

/-- Softmax attention with a sink of weight `w`. -/
noncomputable def attendWithSink (w : ℝ) (l : List (Candidate V)) : V := (weight l + w)⁻¹ • moment l

@[simp] theorem attendWithSink_nil (w : ℝ) : attendWithSink w ([] : List (Candidate V)) = 0 := by
  simp [attendWithSink]

@[simp] theorem attendWithSink_zero (l : List (Candidate V)) : attendWithSink 0 l = attend l := by
  rw [attendWithSink, add_zero, attend]

/-- A candidate with the zero value is a sink. -/
theorem attend_cons_zero (x : ℝ) (l : List (Candidate V)) :
    attend ((x, 0) :: l) = attendWithSink (Real.exp x) l := by
  have hweight : weight ((x, (0 : V)) :: l) = Real.exp x + weight l := by simp [weight]
  have hmoment : moment ((x, (0 : V)) :: l) = moment l := by simp [moment]
  rw [attend, attendWithSink, hweight, hmoment, add_comm]

/-- **The sink's share**: the average without the sink, times the share of the
candidates in the whole weight. -/
theorem attendWithSink_eq_share (w : ℝ) (l : List (Candidate V)) :
    attendWithSink w l = (weight l / (weight l + w)) • attend l := by
  rw [attendWithSink, ← weight_smul_attend l, smul_smul, div_eq_inv_mul]

theorem attendWithSink_perm (w : ℝ) {l l' : List (Candidate V)} (h : l.Perm l') :
    attendWithSink w l = attendWithSink w l' := by
  rw [attendWithSink, attendWithSink, weight_perm h, moment_perm h]

section Coordinate
variable {ι : Type}

theorem attendWithSink_apply (w : ℝ) (l : List (Candidate (ι → ℝ))) (d : ι) :
    attendWithSink w l d = moment l d / (weight l + w) := by
  rw [attendWithSink, Pi.smul_apply, smul_eq_mul, div_eq_inv_mul]

/-- A coordinate below the cut keeps its value. -/
theorem attendWithSink_truncate {n d : ℕ} (hd : d < n) (w : ℝ) (l : List (Candidate (ℕ → ℝ))) :
    attendWithSink w (truncate n l) d = attendWithSink w l d := by
  rw [attendWithSink_apply, attendWithSink_apply, weight_truncate, moment_truncate hd]

end Coordinate

end Softmax
