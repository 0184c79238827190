import Mathlib.Algebra.Order.Ring.Int
import Mathlib.Tactic.Linarith

/-! # Machine integers of two widths

A program that computes in 32 bits and promotes some operands to 64 is written once,
over a narrow type and a wide type.  On `Int32` and `Int64` it wraps as the machine does;
on `ℤ` it says what was meant.  `Holds` and `HoldsWide` say that a machine integer is
the exact, nonnegative value, with one rule for each operation: a narrow operation needs
its result below `2^31`, a product of promoted operands needs nothing. -/
namespace MachineInt

/-- Numerals of an integer type. -/
class Lit (α : Type) where
  lit : ℕ → α

/-- The promotion of a narrow type. -/
class Promote (N : Type) (W : outParam Type) where
  wide : N → W

export Lit (lit)
export Promote (wide)

instance : Lit Int32 := ⟨Int32.ofNat⟩
instance : Lit Int64 := ⟨Int64.ofNat⟩
instance : Lit ℤ := ⟨Nat.cast⟩
instance : Promote Int32 Int64 := ⟨Int32.toInt64⟩
instance : Promote ℤ ℤ := ⟨id⟩

@[simp] theorem lit_int (n : ℕ) : (lit n : ℤ) = n := rfl

@[simp] theorem wide_int (a : ℤ) : wide a = a := rfl

/-- The narrow integer `x` is the number `a`. -/
def Holds (x : Int32) (a : ℤ) : Prop := x.toInt = a ∧ 0 ≤ a

/-- The wide integer `x` is the number `a`. -/
def HoldsWide (x : Int64) (a : ℤ) : Prop := x.toInt = a ∧ 0 ≤ a

/-! ### Narrow operations -/

section Narrow
variable {x y : Int32} {a b : ℤ}

theorem Holds.lt (hx : Holds x a) : a < 2 ^ 31 := by
  rw [← hx.1]
  exact x.toInt_lt

theorem holds_lit {n : ℕ} (h : n < 2 ^ 31) : Holds (lit n) n :=
  ⟨Int32.toInt_ofNat_of_lt h, Int.natCast_nonneg n⟩

theorem Holds.add (hx : Holds x a) (hy : Holds y b) (h : a + b < 2 ^ 31) :
    Holds (x + y) (a + b) := by
  have hnonneg := Int.add_nonneg hx.2 hy.2
  refine ⟨?_, hnonneg⟩
  rw [Int32.toInt_add, hx.1, hy.1]
  exact Int.bmod_eq_of_le (by omega) (by omega)

theorem Holds.mul (hx : Holds x a) (hy : Holds y b) (h : a * b < 2 ^ 31) :
    Holds (x * y) (a * b) := by
  have hnonneg := Int.mul_nonneg hx.2 hy.2
  refine ⟨?_, hnonneg⟩
  rw [Int32.toInt_mul, hx.1, hy.1]
  exact Int.bmod_eq_of_le (by omega) (by omega)

theorem Holds.sub (hx : Holds x a) (hy : Holds y b) (h : b ≤ a) : Holds (x - y) (a - b) := by
  have hlt := hx.lt
  have hb := hy.2
  refine ⟨?_, by omega⟩
  rw [Int32.toInt_sub, hx.1, hy.1]
  exact Int.bmod_eq_of_le (by omega) (by omega)

/-- The machine truncates, which agrees with `/` on nonnegative numbers. -/
theorem Holds.div (hx : Holds x a) (hy : Holds y b) : Holds (x / y) (a / b) := by
  refine ⟨?_, Int.ediv_nonneg hx.2 hy.2⟩
  have hne : y ≠ -1 := by
    rintro rfl
    have hneg : (-1 : Int32).toInt = -1 := by decide
    have hb := hy.2
    rw [← hy.1, hneg] at hb
    omega
  rw [Int32.toInt_div_of_ne_right _ _ hne, hx.1, hy.1, Int.tdiv_eq_ediv_of_nonneg hx.2]

/-- The larger of a value and zero, whatever its sign. -/
theorem holds_max_zero {x : Int32} {a : ℤ} (hx : x.toInt = a) :
    Holds (max x (lit 0)) (max a 0) := by
  refine ⟨?_, le_max_right a 0⟩
  have hzero : (lit 0 : Int32).toInt = 0 := by decide
  show (if x ≤ lit 0 then lit 0 else x).toInt = _
  split
  · next hle =>
    rw [Int32.le_iff_toInt_le, hx, hzero] at hle
    rw [hzero, max_eq_right hle]
  · next hle =>
    rw [Int32.le_iff_toInt_le, hx, hzero] at hle
    rw [hx, max_eq_left (by omega)]

/-- A comparison gives the same answer on the values. -/
theorem decide_lt_eq {x y : Int32} {a b : ℤ} (hx : x.toInt = a) (hy : y.toInt = b) :
    decide (x < y) = decide (a < b) := by
  simp only [Int32.lt_iff_toInt_lt, hx, hy]

theorem decide_le_eq {x y : Int32} {a b : ℤ} (hx : x.toInt = a) (hy : y.toInt = b) :
    decide (x ≤ y) = decide (a ≤ b) := by
  simp only [Int32.le_iff_toInt_le, hx, hy]

end Narrow

/-! ### Wide operations -/

section Wide
variable {x y z : Int64} {a b c : ℤ}

theorem toInt_wide (x : Int32) : (wide x : Int64).toInt = x.toInt := Int32.toInt_toInt64 x

theorem Holds.wide {x : Int32} (hx : Holds x a) : HoldsWide (wide x) a :=
  ⟨(toInt_wide x).trans hx.1, hx.2⟩

theorem holdsWide_lit {n : ℕ} (h : n < 2 ^ 63) : HoldsWide (lit n) n :=
  ⟨Int64.toInt_ofNat_of_lt h, Int.natCast_nonneg n⟩

theorem HoldsWide.add (hx : HoldsWide x a) (hy : HoldsWide y b) (h : a + b < 2 ^ 63) :
    HoldsWide (x + y) (a + b) := by
  have hnonneg := Int.add_nonneg hx.2 hy.2
  refine ⟨?_, hnonneg⟩
  rw [Int64.toInt_add, hx.1, hy.1]
  exact Int.bmod_eq_of_le (by omega) (by omega)

theorem HoldsWide.mul (hx : HoldsWide x a) (hy : HoldsWide y b) (h : a * b < 2 ^ 63) :
    HoldsWide (x * y) (a * b) := by
  have hnonneg := Int.mul_nonneg hx.2 hy.2
  refine ⟨?_, hnonneg⟩
  rw [Int64.toInt_mul, hx.1, hy.1]
  exact Int.bmod_eq_of_le (by omega) (by omega)

/-- **A product of promoted operands never wraps.** -/
theorem Holds.mul_wide {x y : Int32} (hx : Holds x a) (hy : Holds y b) :
    HoldsWide (MachineInt.wide x * MachineInt.wide y) (a * b) := by
  apply hx.wide.mul hy.wide
  calc a * b ≤ 2 ^ 31 * 2 ^ 31 := Int.mul_le_mul hx.lt.le hy.lt.le hy.2 (by norm_num)
    _ < 2 ^ 63 := by norm_num

/-- Three terms added to a pointer. -/
theorem HoldsWide.add_three (hx : HoldsWide x a) (hy : HoldsWide y b) (hz : HoldsWide z c)
    (h : a + b + c < 2 ^ 63) : HoldsWide (x + y + z) (a + b + c) := by
  have hc := hz.2
  exact (hx.add hy (by omega)).add hz h

end Wide

/-! ### Row-major offsets -/

/-- Row `i` of `n`, each of `s` elements, ends below the end of the last. -/
theorem row_lt {i n r s : ℕ} (hi : i < n) (hr : r < s) : i * s + r < n * s :=
  calc i * s + r < i * s + s := Nat.add_lt_add_left hr _
    _ = (i + 1) * s := (Nat.succ_mul i s).symm
    _ ≤ n * s := Nat.mul_le_mul_right s hi

/-- A dimension is no larger than the tensor. -/
theorem mul_lt_of_row {i n s : ℕ} (hi : i < n) (hs : 0 < s) : i * s < n * s :=
  Nat.mul_lt_mul_of_pos_right hi hs

end MachineInt
