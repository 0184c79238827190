import Mathlib.Algebra.Order.Ring.Int
import Mathlib.Data.List.Induction
import Mathlib.Tactic.Ring

/-! # Numbers in shell arithmetic

A constant is a run of digits: decimal, or octal if it begins with a zero, where an eight
or a nine is an error.  It is read digit by digit into 64 bits, and what does not fit is
lost without notice.  A comparison with an error in it is false, and so is one without a
first operand.

`greater_iff` says when a run of digits is greater than a limit. -/
namespace Shell

/-! ### Parameters -/

/-- `${v:-default}`. -/
def orDefault (v default : List Char) : List Char := if v = [] then default else v

/-- `${v%%[!0-9]*}`: what stands before the first character that is no digit. -/
def leadingDigits (v : List Char) : List Char := v.takeWhile Char.isDigit

/-- Digits before anything else. -/
theorem leadingDigits_append {ds rest : List Char} (hds : ∀ c ∈ ds, c.isDigit = true)
    (hrest : ∀ c, rest.head? = some c → c.isDigit = false) :
    leadingDigits (ds ++ rest) = ds := by
  rw [leadingDigits, List.takeWhile_append_of_pos hds]
  cases rest with
  | nil => simp
  | cons c rest => rw [List.takeWhile_cons_of_neg (by simp [hrest c rfl]), List.append_nil]

/-! ### Constants -/

/-- The number that digits stand for. -/
abbrev number (base : ℕ) (ds : List Char) : ℕ := Nat.ofDigitChars base ds 0

/-- Digits read one after another into an `intmax_t`. -/
def readDigits (base : ℕ) (ds : List Char) : Int64 :=
  ds.foldl (fun v c => v * Int64.ofNat base + Int64.ofNat (c.toNat - '0'.toNat)) 0

/-- A constant; an octal digit above seven is an error. -/
def constant : List Char → Option Int64
  | [] => none
  | '0' :: ds => if ds.all (· < '8') then some (readDigits 8 ds) else none
  | ds => some (readDigits 10 ds)

/-- `(( ds > limit ))`. -/
def greater (ds : List Char) (limit : Int64) : Bool :=
  match constant ds with
  | some v => decide (limit < v)
  | none => false

/-- **Reading wraps around.** -/
theorem toInt_readDigits (base : ℕ) (ds : List Char) :
    (readDigits base ds).toInt = (number base ds : ℤ).bmod (2 ^ 64) := by
  have hfold : ∀ (ds : List Char) (v : Int64) (n : ℕ), v.toInt = (n : ℤ).bmod (2 ^ 64) →
      (ds.foldl (fun v c => v * Int64.ofNat base + Int64.ofNat (c.toNat - '0'.toNat)) v).toInt =
        (Nat.ofDigitChars base ds n : ℤ).bmod (2 ^ 64) := by
    intro ds
    induction ds with
    | nil => exact fun _ _ h => by rwa [Nat.ofDigitChars_nil]
    | cons c ds ih =>
      intro v n hv
      rw [List.foldl_cons, Nat.ofDigitChars_cons]
      refine ih _ _ ?_
      have hsize : Int64.size = 2 ^ 64 := rfl
      rw [Int64.toInt_add, Int64.toInt_mul, hv, Int64.toInt_ofNat', Int64.toInt_ofNat', hsize,
        Int.mul_comm, Int.bmod_mul_bmod, Int.mul_bmod_bmod, Int.bmod_add_bmod, Int.add_bmod_bmod,
        Int.natCast_add,
        Int.natCast_mul]
  exact hfold ds 0 0 rfl

/-- A number that is read as more than `limit`: what is left of it in 64 bits is, and has
no sign. -/
def Over (limit n : ℕ) : Prop := limit < n % 2 ^ 64 ∧ n % 2 ^ 64 < 2 ^ 63

theorem over_iff_lt {limit n : ℕ} (h : n < 2 ^ 63) : Over limit n ↔ limit < n := by
  rw [Over, Nat.mod_eq_of_lt (by omega)]
  exact and_iff_left h

theorem lt_of_over {limit n : ℕ} (h : Over limit n) : limit < n :=
  lt_of_lt_of_le h.1 (Nat.mod_le n _)

theorem lt_readDigits_iff {limit base : ℕ} {ds : List Char} (hlimit : limit < 2 ^ 63) :
    Int64.ofNat limit < readDigits base ds ↔ Over limit (number base ds) := by
  have hbound : (limit : ℤ) < 2 ^ 63 := by exact_mod_cast hlimit
  have hlit : (Int64.ofNat limit).toInt = limit := Int64.toInt_ofNat_of_lt hlimit
  have hmod : ((number base ds : ℕ) : ℤ) % ((2 ^ 64 : ℕ) : ℤ) = (number base ds % 2 ^ 64 : ℕ) :=
    (Int.natCast_mod _ _).symm
  rw [Int64.lt_iff_toInt_lt, toInt_readDigits, hlit, Over, Int.bmod_def, hmod]
  split <;> omega

theorem constant_of_ne {c : Char} (hc : c ≠ '0') (ds : List Char) :
    constant (c :: ds) = some (readDigits 10 (c :: ds)) := by
  unfold constant
  split
  · next heq => cases heq
  · next heq => exact absurd (List.cons.inj heq).1 hc
  · rfl

/-- **Comparisons.** A decimal is greater than the limit if it is read as more; an octal,
if there is no eight or nine in it either. -/
theorem greater_iff {limit : ℕ} (hlimit : limit < 2 ^ 63) {ds : List Char} :
    greater ds (Int64.ofNat limit) = true ↔
      ds.head? ≠ some '0' ∧ Over limit (number 10 ds) ∨
      ds.head? = some '0' ∧ (∀ c ∈ ds, c < '8') ∧ Over limit (number 8 ds) := by
  cases ds with
  | nil =>
    have hzero : ¬ Over limit 0 := fun h => Nat.not_lt_zero limit (lt_of_over h)
    simp [greater, constant, hzero]
  | cons c ds =>
    by_cases hc : c = '0'
    · subst hc
      have hnumber : number 8 ('0' :: ds) = number 8 ds := by simp [Nat.ofDigitChars_cons]
      have hall : (∀ c ∈ '0' :: ds, c < '8') ↔ ds.all (· < '8') = true := by simp
      rw [hall, hnumber, ← @lt_readDigits_iff limit 8 ds hlimit]
      by_cases hds : ds.all (· < '8') = true
      · simp [greater, constant, hds]
      · simp [greater, constant, hds]
    · rw [← lt_readDigits_iff hlimit]
      simp [greater, constant_of_ne hc, hc]

/-- Digits stand for no more in base eight than in base ten. -/
theorem number_eight_le (ds : List Char) : number 8 ds ≤ number 10 ds := by
  have hfold : ∀ (ds : List Char) {m n : ℕ}, m ≤ n →
      Nat.ofDigitChars 8 ds m ≤ Nat.ofDigitChars 10 ds n := by
    intro ds
    induction ds with
    | nil => exact fun h => by simpa only [Nat.ofDigitChars_nil] using h
    | cons c ds ih =>
      intro m n h
      rw [Nat.ofDigitChars_cons, Nat.ofDigitChars_cons]
      exact ih (by omega)
  exact hfold ds le_rfl

theorem number_concat (base : ℕ) (ds : List Char) (c : Char) :
    number base (ds ++ [c]) = base * number base ds + (c.toNat - '0'.toNat) := by
  rw [number, Nat.ofDigitChars_append, Nat.ofDigitChars_cons, Nat.ofDigitChars_nil]

/-- The codes of digits. -/
theorem toNat_of_isDigit {c : Char} (h : c.isDigit = true) : 48 ≤ c.toNat ∧ c.toNat ≤ 57 := by
  simp only [Char.isDigit, Bool.and_eq_true, decide_eq_true_eq] at h
  exact h

/-- Digits of a base stand for less than the power of it with as many zeros. -/
theorem number_lt_base_pow {base : ℕ} {ds : List Char}
    (hds : ∀ c ∈ ds, c.toNat - '0'.toNat < base) : number base ds < base ^ ds.length := by
  induction ds using List.reverseRecOn with
  | nil => exact Nat.one_pos
  | append_singleton ds c ih =>
    have hdigit := hds c (by simp)
    have hrest := ih fun d hd => hds d (List.mem_append_left _ hd)
    rw [number_concat, List.length_append, List.length_singleton, Nat.pow_succ]
    calc base * number base ds + (c.toNat - '0'.toNat)
        < base * number base ds + base := Nat.add_lt_add_left hdigit _
      _ = base * (number base ds + 1) := by ring
      _ ≤ base * base ^ ds.length := Nat.mul_le_mul_left _ hrest
      _ = base ^ ds.length * base := Nat.mul_comm _ _

theorem number_lt_pow {ds : List Char} (hds : ∀ c ∈ ds, c.isDigit = true) :
    number 10 ds < 10 ^ ds.length := by
  refine number_lt_base_pow fun c hc => ?_
  have hcode := toNat_of_isDigit (hds c hc)
  have hzero : '0'.toNat = 48 := rfl
  omega

/-- An octal digit is at most seven. -/
theorem toNat_sub_of_lt_eight {c : Char} (h : c < '8') : c.toNat - '0'.toNat ≤ 7 := by
  have hcode : c.toNat < '8'.toNat := UInt32.lt_iff_toNat_lt.mp h
  have height : '8'.toNat = 56 := rfl
  have hzero : '0'.toNat = 48 := rfl
  omega

/-- Without eights and nines the digits stand for seven ninths of the power of ten at most. -/
theorem number_le_sevens {ds : List Char} (hds : ∀ c ∈ ds, c < '8') :
    9 * number 10 ds + 7 ≤ 7 * 10 ^ ds.length := by
  induction ds using List.reverseRecOn with
  | nil => decide
  | append_singleton ds c ih =>
    have hdigit := toNat_sub_of_lt_eight (hds c (by simp))
    have hrest := ih fun d hd => hds d (List.mem_append_left _ hd)
    rw [number_concat, List.length_append, List.length_singleton, Nat.pow_succ]
    omega

/-- Digits that stand for zero are zeros. -/
theorem eq_zero_of_number {ds : List Char} (hds : ∀ c ∈ ds, c.isDigit = true)
    (h : number 10 ds = 0) : ∀ c ∈ ds, c = '0' := by
  induction ds using List.reverseRecOn with
  | nil => exact fun _ hc => absurd hc List.not_mem_nil
  | append_singleton ds d ih =>
    have hcode := toNat_of_isDigit (hds d (by simp))
    have hzero : '0'.toNat = 48 := rfl
    rw [number_concat] at h
    intro c hc
    rcases List.mem_append.mp hc with hc | hc
    · exact ih (fun e he => hds e (List.mem_append_left _ he)) (by omega) c hc
    · have hsame : d.toNat = '0'.toNat := by omega
      rw [List.mem_singleton.mp hc]
      exact Char.toNat_inj.mp hsame

end Shell
