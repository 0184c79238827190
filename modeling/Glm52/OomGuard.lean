import Glm52.ShellArithmetic
import Glm52.TextReplace
import Mathlib.Algebra.Order.Field.Rat
import Mathlib.Data.List.TakeWhile
import Mathlib.Tactic.FieldSimp
import Mathlib.Tactic.Linarith
import Mathlib.Tactic.NormNum

/-! # The guard against running out of memory

Before a tensor-parallel start the launcher takes the fraction of memory it is to use,
removes the first `0.` from it, and compares the digits at its front with 78, as a number
of shell arithmetic.  The comparison is right for two digits behind the point; one digit
is taken for hundredths, three and more are taken for more than 78, and zeros in front
make an octal number of them (`oom_guard_iff`). -/
namespace Glm52.OomGuard
open Shell TextReplace

/-! ### The program -/

/-- What the gates look at: the texts of the variables, if they are set, and the value of
`TP_SIZE`. -/
structure Environment where
  dryrun : String
  confirmGlm52 : String
  tpSize : ℤ
  gpuMemoryUtilization : Option String
  allowHighGpuUtil : Option String

/-- `"${GPU_MEMORY_UTILIZATION:-0.72}"`. -/
def gpuMemoryUtilization (env : Environment) : List Char :=
  orDefault (env.gpuMemoryUtilization.getD "").toList "0.72".toList

/-- `util_x100`. -/
def utilX100 (util : List Char) : List Char :=
  orDefault (replaceFirst "0.".toList [] util) "0".toList

/-- `(( ${util_x100%%[!0-9]*} > 78 ))`. -/
def tooHigh (util : List Char) : Bool := greater (leadingDigits (utilX100 util)) (Int64.ofNat 78)

/-- How the gates end: `exit 2` of one of the two, or on to the launch. -/
inductive Preflight
  | unconfirmed
  | highUtil
  | launch
deriving DecidableEq

/-- The preflight gates. -/
def preflight (env : Environment) : Preflight :=
  if env.dryrun ≠ "1" ∧ env.confirmGlm52 ≠ "YES" then .unconfirmed
  else if 1 < env.tpSize ∧ env.allowHighGpuUtil.getD "" ≠ "YES" ∧
      tooHigh (gpuMemoryUtilization env) = true then .highUtil
  else .launch

/-! ### Decimal spellings -/

/-- A decimal: digits, and perhaps a point and more digits; one digit at least. -/
structure Spelling where
  whole : List Char
  fraction : Option (List Char)
  whole_digits : ∀ c ∈ whole, c.isDigit = true
  fraction_digits : ∀ f, fraction = some f → ∀ c ∈ f, c.isDigit = true
  nonempty : whole ≠ [] ∨ fraction.getD [] ≠ []

namespace Spelling

/-- The characters. -/
def chars (s : Spelling) : List Char :=
  s.whole ++ match s.fraction with
    | some f => '.' :: f
    | none => []

/-- The number that is denoted. -/
def value (s : Spelling) : ℚ :=
  number 10 s.whole + number 10 (s.fraction.getD []) / 10 ^ (s.fraction.getD []).length

/-- The digits that are left when `0.` is removed, if it is there. -/
def behindZeroPoint (s : Spelling) : Option (List Char) :=
  match s.fraction with
  | some f => if s.whole.getLast? = some '0' then some (s.whole.dropLast ++ f) else none
  | none => none

/-- When the guard decides by value.  It refuses nothing without `0.`, with one digit behind
`0.`, or with a zero in front and an eight or a nine: the value must not be above the limit.  It
refuses all of three to eighteen digits that do not begin with zero: the value must be above.
Two digits are right.  Digits with a zero in front and no eight or nine are never above the
limit, and must not be more than 78 as an octal number.  Of longer digits it sees what 64 bits
leave of them. -/
structure Decided (s : Spelling) : Prop where
  plain : s.behindZeroPoint = none → s.value ≤ 78 / 100
  short : ∀ f, s.whole = ['0'] → s.fraction = some f → f.length ≤ 1 → s.value ≤ 78 / 100
  long : ∀ f, s.whole = ['0'] → s.fraction = some f → f.head? ≠ some '0' → 3 ≤ f.length →
    f.length ≤ 18 → 78 / 100 < s.value
  wrapped : ∀ f, s.whole = ['0'] → s.fraction = some f → f.head? ≠ some '0' → 18 < f.length →
    (78 / 100 < s.value ↔ Over 78 (number 10 f))
  eights : ∀ ds, s.behindZeroPoint = some ds → ds.head? = some '0' → ¬ (∀ c ∈ ds, c < '8') →
    s.value ≤ 78 / 100
  octal : ∀ ds, s.behindZeroPoint = some ds → ds.head? = some '0' → (∀ c ∈ ds, c < '8') →
    ds.length ≤ 22 → number 8 ds ≤ 78
  wrappedOctal : ∀ ds, s.behindZeroPoint = some ds → ds.head? = some '0' →
    (∀ c ∈ ds, c < '8') → 22 < ds.length → ¬ Over 78 (number 8 ds)

end Spelling

/-! ### What the guard reads -/

theorem isDigit_ne_point {c : Char} (h : c.isDigit = true) : c ≠ '.' := by
  rintro rfl
  exact absurd h (by decide)

theorem replaceFirst_digits {ds : List Char} (hds : ∀ c ∈ ds, c.isDigit = true) :
    replaceFirst "0.".toList [] ds = ds := by
  refine replaceFirst_of_not_occurs fun h => ?_
  have hpoint : '.' ∈ ds := h.subset (by decide)
  exact isDigit_ne_point (hds _ hpoint) rfl

/-- Removing `0.` from digits with a point. -/
theorem replaceFirst_point {ds f : List Char} (hds : ∀ c ∈ ds, c.isDigit = true)
    (hf : ∀ c ∈ f, c.isDigit = true) :
    replaceFirst "0.".toList [] (ds ++ '.' :: f) =
      if ds.getLast? = some '0' then ds.dropLast ++ f else ds ++ '.' :: f := by
  have hzero : "0.".toList = ['0', '.'] := rfl
  have hpoint : replaceFirst "0.".toList [] ('.' :: f) = '.' :: f := by
    rw [replaceFirst, if_neg (by simp [hzero]), replaceFirst_digits hf]
  induction ds with
  | nil => simpa using hpoint
  | cons c ds ih =>
    have hrest := ih fun d hd => hds d (List.mem_cons_of_mem c hd)
    cases ds with
    | nil =>
      by_cases hc : c = '0'
      · subst hc
        simp [replaceFirst, hzero]
      · rw [List.singleton_append, replaceFirst, if_neg (by simp [hzero, Ne.symm hc]), hpoint]
        simp [hc]
    | cons d ds =>
      -- behind a digit comes another one, not the point
      have hd : '.' ≠ d := (isDigit_ne_point (hds d (by simp))).symm
      rw [List.cons_append, replaceFirst, if_neg (by simp [hzero, hd]), hrest,
        List.getLast?_cons_cons, List.dropLast_cons_cons]
      split <;> rfl

namespace Spelling

/-- The digits that are compared. -/
theorem leadingDigits_utilX100 (s : Spelling) :
    leadingDigits (utilX100 s.chars) =
      match s.behindZeroPoint with
      | some ds => if ds = [] then ['0'] else ds
      | none => s.whole := by
  obtain ⟨whole, fraction, hwhole, hfraction, hne⟩ := s
  have hself : ∀ {ds : List Char}, (∀ c ∈ ds, c.isDigit = true) → leadingDigits ds = ds :=
    fun h => List.takeWhile_eq_self_iff.mpr h
  cases fraction with
  | none =>
    have hwholeNe : whole ≠ [] := hne.resolve_right fun h => h rfl
    simp only [utilX100, chars, behindZeroPoint, List.append_nil, replaceFirst_digits hwhole,
      orDefault, if_neg hwholeNe, hself hwhole]
  | some f =>
    have hf := hfraction f rfl
    simp only [utilX100, chars, behindZeroPoint, replaceFirst_point hwhole hf, orDefault]
    by_cases hlast : whole.getLast? = some '0'
    · simp only [if_pos hlast]
      split
      · decide
      · refine hself fun c hc => ?_
        rcases List.mem_append.mp hc with hc | hc
        · exact hwhole c (List.mem_of_mem_dropLast hc)
        · exact hf c hc
    · simp only [if_neg hlast, List.append_eq_nil_iff, reduceCtorEq, and_false, if_false]
      exact leadingDigits_append hwhole (by simp)

variable {s : Spelling}

/-- Small numbers are not over the limit. -/
theorem not_over_of_le {n : ℕ} (h : n ≤ 78) : ¬ Over 78 n := fun hover =>
  absurd (lt_of_over hover) (Nat.not_lt.mpr h)

theorem whole_le_one (h : s.value ≤ 1) : number 10 s.whole ≤ 1 := by
  have hfraction : (0 : ℚ) ≤ number 10 (s.fraction.getD []) / 10 ^ (s.fraction.getD []).length :=
    div_nonneg (Nat.cast_nonneg _) (pow_nonneg (by norm_num) _)
  have hwhole : (number 10 s.whole : ℚ) ≤ 1 := by
    unfold value at h
    linarith
  exact_mod_cast hwhole

/-- **What the guard takes for too high.** -/
theorem tooHigh_iff (h : s.value ≤ 1) :
    tooHigh s.chars = true ↔ ∃ ds, s.behindZeroPoint = some ds ∧
      (ds.head? ≠ some '0' ∧ Over 78 (number 10 ds) ∨
        ds.head? = some '0' ∧ (∀ c ∈ ds, c < '8') ∧ Over 78 (number 8 ds)) := by
  rw [tooHigh, leadingDigits_utilX100, greater_iff (by decide)]
  cases hbehind : s.behindZeroPoint with
  | none =>
    -- without `0.` the number is zero or one
    have hten := not_over_of_le ((whole_le_one h).trans (by decide))
    have height := not_over_of_le (((number_eight_le s.whole).trans (whole_le_one h)).trans
      (by decide))
    simp [hten, height]
  | some ds =>
    by_cases hds : ds = []
    · subst hds
      have hzero : ¬ Over 78 0 := not_over_of_le (by decide)
      have height : number 8 ['0'] = 0 := by decide
      simp [hzero, height]
    · simp [hds]

/-- With `0.` the digits before the point are zeros, and the last of them is removed. -/
theorem exists_fraction (h : s.value ≤ 1) {ds : List Char} (hds : s.behindZeroPoint = some ds) :
    ∃ f, s.fraction = some f ∧ s.value = number 10 f / 10 ^ f.length ∧ (∀ c ∈ f, c ∈ ds) ∧
      (s.whole = ['0'] ∧ ds = f ∨ ds.head? = some '0') := by
  unfold behindZeroPoint at hds
  split at hds
  · next f hf =>
    obtain ⟨hlast, heq⟩ := Option.ite_none_right_eq_some.mp hds
    obtain ⟨zeros, hzeros⟩ := List.getLast?_eq_some_iff.mp hlast
    have hone := whole_le_one h
    have hzero : '0'.toNat - '0'.toNat = 0 := rfl
    have hfront : number 10 zeros = 0 := by
      rw [hzeros, number_concat] at hone
      omega
    have hwhole : number 10 s.whole = 0 := by rw [hzeros, number_concat, hfront, hzero]
    rw [← Option.some.inj heq, hzeros, List.dropLast_concat]
    refine ⟨f, hf, by simp [value, hwhole, hf], fun c hc => List.mem_append_right _ hc, ?_⟩
    cases zeros with
    | nil => exact Or.inl ⟨rfl, rfl⟩
    | cons c zeros =>
      have hdigits : ∀ d ∈ c :: zeros, d.isDigit = true := by
        intro d hd
        refine s.whole_digits d ?_
        rw [hzeros]
        exact List.mem_append_left _ hd
      rw [eq_zero_of_number hdigits hfront c List.mem_cons_self]
      exact Or.inr rfl
  · cases hds

theorem behindZeroPoint_of_zero {f : List Char} (hwhole : s.whole = ['0'])
    (hf : s.fraction = some f) : s.behindZeroPoint = some f := by
  simp [behindZeroPoint, hwhole, hf]

/-- The value of a fraction of given length. -/
theorem lt_value_iff {f : List Char} (hvalue : s.value = number 10 f / 10 ^ f.length) :
    78 / 100 < s.value ↔ 78 * 10 ^ f.length < 100 * number 10 f := by
  have hpos : (0 : ℚ) < 10 ^ f.length := pow_pos (by norm_num) _
  rw [hvalue, div_lt_div_iff₀ (by norm_num) hpos]
  norm_cast
  rw [Nat.mul_comm (number 10 f)]

/-! ### What it refuses -/

/-- Nothing without `0.`. -/
theorem not_tooHigh_of_plain (h : s.value ≤ 1) (hnone : s.behindZeroPoint = none) :
    ¬ tooHigh s.chars = true := by
  rw [tooHigh_iff h]
  rintro ⟨ds, hds, -⟩
  rw [hnone] at hds
  cases hds

/-- Nothing with one digit: it is at most nine. -/
theorem not_tooHigh_of_short (h : s.value ≤ 1) {f : List Char} (hwhole : s.whole = ['0'])
    (hf : s.fraction = some f) (hlength : f.length ≤ 1) : ¬ tooHigh s.chars = true := by
  have hten : number 10 f ≤ 10 := (number_lt_pow (s.fraction_digits f hf)).le.trans
    (Nat.pow_le_pow_right (by decide) hlength)
  rw [tooHigh_iff h]
  rintro ⟨ds, hds, hover⟩
  obtain rfl := Option.some.inj ((behindZeroPoint_of_zero hwhole hf).symm.trans hds)
  rcases hover with ⟨-, hover⟩ | ⟨-, -, hover⟩
  · exact not_over_of_le (hten.trans (by decide)) hover
  · exact not_over_of_le (((number_eight_le f).trans hten).trans (by decide)) hover

/-- Digits that do not begin with zero: by the decimal number. -/
theorem tooHigh_iff_over (h : s.value ≤ 1) {f : List Char} (hwhole : s.whole = ['0'])
    (hf : s.fraction = some f) (hhead : f.head? ≠ some '0') :
    tooHigh s.chars = true ↔ Over 78 (number 10 f) := by
  rw [tooHigh_iff h]
  simp [behindZeroPoint_of_zero hwhole hf, hhead]

/-- All of three to eighteen such digits: the first stands for a hundred at least. -/
theorem tooHigh_of_long (h : s.value ≤ 1) {f : List Char} (hwhole : s.whole = ['0'])
    (hf : s.fraction = some f) (hhead : f.head? ≠ some '0') (hlong : 3 ≤ f.length)
    (hshort : f.length ≤ 18) : tooHigh s.chars = true := by
  obtain ⟨c, rest, rfl⟩ := List.exists_cons_of_length_pos (show 0 < f.length by omega)
  rw [List.length_cons] at hlong hshort
  have hlt := number_lt_pow (s.fraction_digits _ hf)
  have hbound : 10 ^ (c :: rest).length ≤ 10 ^ 18 := Nat.pow_le_pow_right (by decide) hshort
  have hcode := toNat_of_isDigit (s.fraction_digits _ hf c List.mem_cons_self)
  have hne : c.toNat ≠ 48 := by
    intro heq
    refine hhead ?_
    rw [List.head?_cons, show c = '0' from Char.toNat_inj.mp heq]
  have hzero : '0'.toNat = 48 := rfl
  have hsplit : number 10 (c :: rest) =
      10 ^ rest.length * (c.toNat - '0'.toNat) + number 10 rest := by
    rw [number, Nat.ofDigitChars_cons, Nat.ofDigitChars_eq_ofDigitChars_zero, Nat.mul_zero,
      Nat.zero_add]
  have hhundred : 100 ≤ number 10 (c :: rest) := by
    calc 100 = 10 ^ 2 * 1 := rfl
      _ ≤ 10 ^ rest.length * (c.toNat - '0'.toNat) :=
        Nat.mul_le_mul (Nat.pow_le_pow_right (by decide) (by omega)) (by omega)
      _ ≤ 10 ^ rest.length * (c.toNat - '0'.toNat) + number 10 rest := Nat.le_add_right _ _
      _ = number 10 (c :: rest) := hsplit.symm
  rw [tooHigh_iff_over h hwhole hf hhead, over_iff_lt (by omega)]
  omega

/-- Two such digits: what is above the limit. -/
theorem tooHigh_iff_of_two (h : s.value ≤ 1) {f : List Char} (hwhole : s.whole = ['0'])
    (hf : s.fraction = some f) (hhead : f.head? ≠ some '0')
    (hvalue : s.value = number 10 f / 10 ^ f.length) (hlength : f.length = 2) :
    tooHigh s.chars = true ↔ 78 / 100 < s.value := by
  have hlt := number_lt_pow (s.fraction_digits f hf)
  rw [hlength] at hlt
  rw [tooHigh_iff_over h hwhole hf hhead, lt_value_iff hvalue, hlength, over_iff_lt (by omega)]
  omega

/-- With a zero in front: nothing with an eight or a nine, and otherwise by the octal number. -/
theorem tooHigh_iff_octal (h : s.value ≤ 1) {ds : List Char} (hds : s.behindZeroPoint = some ds)
    (hhead : ds.head? = some '0') :
    tooHigh s.chars = true ↔ (∀ c ∈ ds, c < '8') ∧ Over 78 (number 8 ds) := by
  rw [tooHigh_iff h]
  simp [hds, hhead]

/-- Without an eight or a nine the value is below the limit: it is at most seven ninths. -/
theorem value_le_of_octal (h : s.value ≤ 1) {ds : List Char} (hds : s.behindZeroPoint = some ds)
    (hoctal : ∀ c ∈ ds, c < '8') : s.value ≤ 78 / 100 := by
  obtain ⟨f, -, hvalue, hsub, -⟩ := exists_fraction h hds
  have hsevens := number_le_sevens fun c hc => hoctal c (hsub c hc)
  rw [← not_lt, lt_value_iff hvalue]
  omega

/-- Twenty-two octal digits with a zero in front fit 63 bits. -/
theorem over_octal_iff {ds : List Char} (hhead : ds.head? = some '0') (hoctal : ∀ c ∈ ds, c < '8')
    (hlength : ds.length ≤ 22) : Over 78 (number 8 ds) ↔ 78 < number 8 ds := by
  obtain ⟨rest, rfl⟩ := List.head?_eq_some_iff.mp hhead
  have hdrop : number 8 ('0' :: rest) = number 8 rest := by simp [Nat.ofDigitChars_cons]
  have hlt : number 8 rest < 8 ^ rest.length := number_lt_base_pow fun c hc =>
    Nat.lt_succ_of_le (toNat_sub_of_lt_eight (hoctal c (List.mem_cons_of_mem _ hc)))
  rw [List.length_cons] at hlength
  have hbound : 8 ^ rest.length ≤ 8 ^ 21 := Nat.pow_le_pow_right (by decide) (by omega)
  rw [hdrop]
  exact over_iff_lt (by omega)

/-- **When the guard decides by value.** -/
theorem decided_iff (h : s.value ≤ 1) :
    (tooHigh s.chars = true ↔ 78 / 100 < s.value) ↔ s.Decided := by
  constructor
  · intro hiff
    have hlow : ¬ tooHigh s.chars = true → s.value ≤ 78 / 100 := fun hnot =>
      not_lt.mp fun hhigh => hnot (hiff.mpr hhigh)
    have hoctal : ∀ ds, s.behindZeroPoint = some ds → ds.head? = some '0' →
        (∀ c ∈ ds, c < '8') → ¬ Over 78 (number 8 ds) := fun ds hds hhead hdigits hover =>
      absurd (hiff.mp ((tooHigh_iff_octal h hds hhead).mpr ⟨hdigits, hover⟩))
        (not_lt.mpr (value_le_of_octal h hds hdigits))
    constructor
    · exact fun hnone => hlow (not_tooHigh_of_plain h hnone)
    · exact fun f hwhole hf hlength => hlow (not_tooHigh_of_short h hwhole hf hlength)
    · exact fun f hwhole hf hhead hlong hshort =>
        hiff.mp (tooHigh_of_long h hwhole hf hhead hlong hshort)
    · exact fun f hwhole hf hhead _ => hiff.symm.trans (tooHigh_iff_over h hwhole hf hhead)
    · exact fun ds hds hhead heights =>
        hlow fun hhigh => heights ((tooHigh_iff_octal h hds hhead).mp hhigh).1
    · exact fun ds hds hhead hdigits hlength =>
        not_lt.mp fun hlt => hoctal ds hds hhead hdigits
          ((over_octal_iff hhead hdigits hlength).mpr hlt)
    · exact fun ds hds hhead hdigits _ => hoctal ds hds hhead hdigits
  · intro hdecided
    cases hds : s.behindZeroPoint with
    | none =>
      exact iff_of_false (not_tooHigh_of_plain h hds) (not_lt.mpr (hdecided.plain hds))
    | some ds =>
      by_cases hhead : ds.head? = some '0'
      · by_cases hdigits : ∀ c ∈ ds, c < '8'
        · have hnot : ¬ Over 78 (number 8 ds) := by
            rcases Nat.lt_or_ge 22 ds.length with hlength | hlength
            · exact hdecided.wrappedOctal ds hds hhead hdigits hlength
            · rw [over_octal_iff hhead hdigits hlength]
              exact not_lt.mpr (hdecided.octal ds hds hhead hdigits hlength)
          exact iff_of_false (fun hhigh => hnot ((tooHigh_iff_octal h hds hhead).mp hhigh).2)
            (not_lt.mpr (value_le_of_octal h hds hdigits))
        · exact iff_of_false (fun hhigh => hdigits ((tooHigh_iff_octal h hds hhead).mp hhigh).1)
            (not_lt.mpr (hdecided.eights ds hds hhead hdigits))
      · obtain ⟨f, hf, hvalue, -, ⟨hwhole, rfl⟩ | hzero⟩ := exists_fraction h hds
        · rcases lt_trichotomy ds.length 2 with hlength | hlength | hlength
          · exact iff_of_false (not_tooHigh_of_short h hwhole hf (by omega))
              (not_lt.mpr (hdecided.short ds hwhole hf (by omega)))
          · exact tooHigh_iff_of_two h hwhole hf hhead hvalue hlength
          · rcases Nat.lt_or_ge 18 ds.length with hwide | hnarrow
            · exact (tooHigh_iff_over h hwhole hf hhead).trans
                (hdecided.wrapped ds hwhole hf hhead hwide).symm
            · exact iff_of_true (tooHigh_of_long h hwhole hf hhead hlength hnarrow)
                (hdecided.long ds hwhole hf hhead hlength hnarrow)
        · exact absurd hzero hhead

end Spelling

/-- **The guard**, on every spelling of a number between zero and one: in a confirmed
tensor-parallel start without an override it refuses just what is above 0.78 if and only if
the spelling is decided by value. -/
theorem oom_guard_iff (s : Spelling) (h : s.value ≤ 1) {env : Environment}
    (hconfirm : env.dryrun = "1" ∨ env.confirmGlm52 = "YES") (htp : 1 < env.tpSize)
    (hallow : env.allowHighGpuUtil ≠ some "YES")
    (hutil : env.gpuMemoryUtilization = some (String.ofList s.chars)) :
    (preflight env = .highUtil ↔ 78 / 100 < s.value) ↔ s.Decided := by
  have hchars : s.chars ≠ [] := by
    obtain ⟨whole, fraction, -, -, hne⟩ := s
    cases fraction with
    | none => simpa [Spelling.chars] using hne
    | some f => simp [Spelling.chars]
  have hread : gpuMemoryUtilization env = s.chars := by
    rw [gpuMemoryUtilization, hutil, Option.getD_some, String.toList_ofList, orDefault,
      if_neg hchars]
  have hopen : ¬ (env.dryrun ≠ "1" ∧ env.confirmGlm52 ≠ "YES") := by tauto
  have hoverride : env.allowHighGpuUtil.getD "" ≠ "YES" := by
    cases hset : env.allowHighGpuUtil with
    | none => decide
    | some v => simpa [hset] using hallow
  have hgate : preflight env = .highUtil ↔ tooHigh s.chars = true := by
    rw [preflight, if_neg hopen, hread]
    simp [htp, hoverride]
  rw [hgate, Spelling.decided_iff h]

/-- A decimal with a digit before the point. -/
def decimal (whole fraction : List Char) (h : (whole ++ fraction).all Char.isDigit = true)
    (hne : whole ≠ []) : Spelling where
  whole := whole
  fraction := some fraction
  whole_digits c hc := List.all_eq_true.mp h c (List.mem_append_left _ hc)
  fraction_digits f hf c hc := by
    obtain rfl := Option.some.inj hf
    exact List.all_eq_true.mp h c (List.mem_append_right _ hc)
  nonempty := Or.inl hne

/-- A confirmed start with `TP_SIZE=8`. -/
def confirmed (s : Spelling) : Environment where
  dryrun := "0"
  confirmGlm52 := "YES"
  tpSize := 8
  gpuMemoryUtilization := some (String.ofList s.chars)
  allowHighGpuUtil := none

/-- `0.9`, and `0.720`. -/
def oneDigit : Spelling := decimal ['0'] ['9'] (by decide) (by decide)

def threeDigits : Spelling := decimal ['0'] ['7', '2', '0'] (by decide) (by decide)

/-- `0.072`, an octal 58, and `0.0117`, an octal 79. -/
def lowOctal : Spelling := decimal ['0'] ['0', '7', '2'] (by decide) (by decide)

def highOctal : Spelling := decimal ['0'] ['0', '1', '1', '7'] (by decide) (by decide)

/-- A zero in front: `0.072` is decided by value, `0.0117` is not. -/
theorem oom_guard_iff_octal :
    (preflight (confirmed lowOctal) = .highUtil ↔ 78 / 100 < lowOctal.value) ∧
    ¬ (preflight (confirmed highOctal) = .highUtil ↔ 78 / 100 < highOctal.value) := by
  have hlow := @oom_guard_iff lowOctal (by decide +kernel) (confirmed lowOctal) (Or.inr rfl)
    (by decide) (by decide) rfl
  have hhigh := @oom_guard_iff highOctal (by decide +kernel) (confirmed highOctal) (Or.inr rfl)
    (by decide) (by decide) rfl
  refine ⟨hlow.mpr ?_, fun hiff => ?_⟩
  · constructor
    · exact fun hnone => absurd hnone (by decide)
    · intro f _ hf hlength
      cases hf
      exact absurd hlength (by decide)
    · intro f _ hf hhead
      cases hf
      exact absurd rfl hhead
    · intro f _ hf hhead
      cases hf
      exact absurd rfl hhead
    · intro ds hds _ heights
      cases hds
      exact absurd (by simp [lowOctal, decimal]) heights
    · intro ds hds _ _ _
      cases hds
      decide
    · intro ds hds _ _ hlength
      cases hds
      exact absurd hlength (by decide)
  · exact absurd ((hhigh.mp hiff).octal _ rfl rfl (by simp [highOctal, decimal])
      (by decide)) (by decide)

/-- **`0.9` starts, and `0.720` is refused.** -/
theorem oom_guard_slips :
    (oneDigit.value ≤ 1 ∧ 78 / 100 < oneDigit.value ∧
      preflight (confirmed oneDigit) = .launch) ∧
    (threeDigits.value ≤ 78 / 100 ∧ preflight (confirmed threeDigits) = .highUtil) := by
  refine ⟨⟨?_, ?_, ?_⟩, ?_, ?_⟩ <;> decide +kernel

end Glm52.OomGuard
