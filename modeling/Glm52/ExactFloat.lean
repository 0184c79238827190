import Mathlib.Analysis.SpecialFunctions.Log.Basic
import Mathlib.Algebra.BigOperators.Group.List.Basic

/-! # Floating-point values without rounding

The values of a float type with exact arithmetic: a number, the two infinities, and
NaN, with the special cases of IEEE 754.  Programs that mask with infinities live or
die by those cases (`-inf - -inf` is NaN, `0 * inf` is NaN, `exp(-inf)` is zero), so
they stay in the arithmetic, while `fin` carries the exact value.

Zero has no sign here; a positive number over zero is `+inf`.  `maximum` returns the
number when one argument is NaN. -/

/-- A float value over the numbers `α`. -/
inductive ExactFloat (α : Type)
  | nan
  | negInf
  | fin (x : α)
  | posInf
deriving DecidableEq

namespace ExactFloat

variable {α : Type}

/-! ### Sums -/

section Sums
variable [Field α]

instance : Zero (ExactFloat α) := ⟨fin 0⟩

/-- The sign change. -/
def neg : ExactFloat α → ExactFloat α
  | nan => nan
  | negInf => posInf
  | fin x => fin (-x)
  | posInf => negInf

/-- Sums; opposite infinities have none. -/
def add : ExactFloat α → ExactFloat α → ExactFloat α
  | nan, _ => nan
  | _, nan => nan
  | fin x, fin y => fin (x + y)
  | negInf, posInf => nan
  | posInf, negInf => nan
  | negInf, _ => negInf
  | _, negInf => negInf
  | posInf, _ => posInf
  | _, posInf => posInf

instance : Neg (ExactFloat α) := ⟨neg⟩
instance : Add (ExactFloat α) := ⟨add⟩
instance : Sub (ExactFloat α) := ⟨fun x y => add x (neg y)⟩

theorem zero_def : (0 : ExactFloat α) = fin 0 := rfl

@[simp] theorem fin_add (x y : α) : (fin x + fin y : ExactFloat α) = fin (x + y) := rfl

@[simp] theorem fin_sub (x y : α) : (fin x - fin y : ExactFloat α) = fin (x - y) := by
  show fin (x + -y) = fin (x - y)
  rw [sub_eq_add_neg]

@[simp] theorem negInf_sub_fin (y : α) : (negInf - fin y : ExactFloat α) = negInf := rfl

/-- A sum of numbers is the number. -/
theorem sum_map_fin {ι : Type} (f : ι → α) (l : List ι) :
    (l.map (fun i => (fin (f i) : ExactFloat α))).sum = fin (l.map f).sum := by
  induction l with
  | nil => rfl
  | cons i l ih => rw [List.map_cons, List.sum_cons, ih, fin_add, List.map_cons, List.sum_cons]

end Sums

/-! ### Order -/

section Order
variable [LinearOrder α]

/-- `x < y`; false when either is NaN. -/
def lt : ExactFloat α → ExactFloat α → Bool
  | nan, _ => false
  | _, nan => false
  | fin x, fin y => x < y
  | negInf, negInf => false
  | negInf, _ => true
  | _, negInf => false
  | fin _, posInf => true
  | posInf, _ => false

/-- `maximum(x, y)`, the number where the other is NaN. -/
def maximum (x y : ExactFloat α) : ExactFloat α :=
  if x = nan then y else if y = nan then x else if lt x y then y else x

@[simp] theorem lt_fin (x y : α) : lt (fin x) (fin y) = decide (x < y) := rfl

@[simp] theorem lt_negInf (x : ExactFloat α) : lt x negInf = false := by cases x <;> rfl

@[simp] theorem maximum_fin (x y : α) : maximum (fin x) (fin y) = fin (max x y) := by
  by_cases h : x < y
  · simp [maximum, h, max_eq_right h.le]
  · simp [maximum, h, max_eq_left (not_lt.mp h)]

@[simp] theorem maximum_negInf_fin (y : α) : maximum negInf (fin y) = fin y := rfl

@[simp] theorem maximum_negInf_right {x : ExactFloat α} (hx : x ≠ nan) : maximum x negInf = x := by
  simp [maximum, hx]

end Order

/-! ### Products and quotients -/

section Products
variable [Field α] [LinearOrder α]

/-- `x * +inf`. -/
def timesPosInf (x : α) : ExactFloat α := if 0 < x then posInf else if x < 0 then negInf else nan

/-- Products; zero times an infinity has none. -/
def mul : ExactFloat α → ExactFloat α → ExactFloat α
  | nan, _ => nan
  | _, nan => nan
  | fin x, fin y => fin (x * y)
  | fin x, posInf => timesPosInf x
  | posInf, fin x => timesPosInf x
  | fin x, negInf => neg (timesPosInf x)
  | negInf, fin x => neg (timesPosInf x)
  | posInf, posInf => posInf
  | negInf, negInf => posInf
  | posInf, negInf => negInf
  | negInf, posInf => negInf

/-- Quotients. -/
def div : ExactFloat α → ExactFloat α → ExactFloat α
  | nan, _ => nan
  | _, nan => nan
  | fin x, fin y => if y = 0 then timesPosInf x else fin (x / y)
  | fin _, posInf => fin 0
  | fin _, negInf => fin 0
  | posInf, fin y => if y < 0 then negInf else posInf
  | negInf, fin y => if y < 0 then posInf else negInf
  | _, _ => nan

instance : Mul (ExactFloat α) := ⟨mul⟩
instance : Div (ExactFloat α) := ⟨div⟩

@[simp] theorem fin_mul (x y : α) : (fin x * fin y : ExactFloat α) = fin (x * y) := rfl

@[simp] theorem fin_div {y : α} (hy : y ≠ 0) (x : α) :
    (fin x / fin y : ExactFloat α) = fin (x / y) := if_neg hy

end Products

/-- The same float over other numbers. -/
def map {β : Type} (f : α → β) : ExactFloat α → ExactFloat β
  | nan => nan
  | negInf => negInf
  | fin x => fin (f x)
  | posInf => posInf

/-! ### Exponential and logarithm -/

/-- `exp`. -/
noncomputable def exp : ExactFloat ℝ → ExactFloat ℝ
  | nan => nan
  | negInf => fin 0
  | fin x => fin (Real.exp x)
  | posInf => posInf

/-- `log`. -/
noncomputable def log : ExactFloat ℝ → ExactFloat ℝ
  | nan => nan
  | negInf => nan
  | fin x => if 0 < x then fin (Real.log x) else if x = 0 then negInf else nan
  | posInf => posInf

@[simp] theorem exp_fin (x : ℝ) : exp (fin x) = fin (Real.exp x) := rfl

@[simp] theorem exp_negInf : exp negInf = fin 0 := rfl

@[simp] theorem log_fin {x : ℝ} (hx : 0 < x) : log (fin x) = fin (Real.log x) := if_pos hx

end ExactFloat
