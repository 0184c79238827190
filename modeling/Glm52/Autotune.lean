import Mathlib.Data.List.Flatten
import Mathlib.Logic.Function.Iterate

/-! # Kernels behind an autotuner

An autotuner chooses among several configurations of a kernel by timing them, once for each
key.  The first call for a key runs the kernel for the timings, on the arguments of the call,
and then once more; a later call for the key runs it once.  Nothing is put back between the
runs: a kernel that updates its arguments in place has updated them once for each run.

`Tuner.call_rep` says what such a kernel has taken in after a call, and `Tuner.runs_eq_one_iff`
when that is what one run takes in. -/
namespace Autotune

/-- What an autotuner has tuned, and how many timing runs it makes for a key it has not. -/
structure Tuner (κ : Type) where
  tuned : κ → Bool
  timings : κ → ℕ
  timings_pos : ∀ key, 0 < timings key

namespace Tuner
variable {κ σ : Type} (tuner : Tuner κ) (key : κ)

/-- How often the kernel runs in a call. -/
def runs : ℕ := if tuner.tuned key then 1 else tuner.timings key + 1

/-- A call: the timing runs, if any, and the run that is asked for. -/
def call (kernel : σ → σ) (s : σ) : σ := kernel^[tuner.runs key] s

/-- The tuner behind a call. -/
def after [DecidableEq κ] : Tuner κ := { tuner with tuned := fun k => tuner.tuned k || k = key }

/-- A tuner that has tuned everything. -/
def warm : Tuner κ := ⟨fun _ => true, fun _ => 1, fun _ => Nat.one_pos⟩

/-- A tuner that has tuned nothing, and runs each of `configs` configurations once. -/
def cold (configs : ℕ) (h : 0 < configs) : Tuner κ := ⟨fun _ => false, fun _ => configs, fun _ => h⟩

theorem runs_pos : 0 < tuner.runs key := by
  unfold runs
  split
  · exact Nat.one_pos
  · exact Nat.succ_pos _

theorem runs_eq_one_iff : tuner.runs key = 1 ↔ tuner.tuned key = true := by
  have hpos := tuner.timings_pos key
  unfold runs
  split
  · next htuned => exact iff_of_true rfl htuned
  · next huntuned => exact iff_of_false (by omega) huntuned

variable {tuner key}

/-- **A tuned call is one run.** -/
theorem call_of_tuned (h : tuner.tuned key = true) (kernel : σ → σ) (s : σ) :
    tuner.call key kernel s = kernel s := by
  rw [call, (tuner.runs_eq_one_iff key).mpr h, Function.iterate_one]

theorem tuned_after [DecidableEq κ] {key' : κ} (h : tuner.tuned key = true) :
    (tuner.after key').tuned key = true := by
  simp [after, h]

variable (tuner key)

/-- A kernel that works on each live index alone, and leaves the others, does so in a call. -/
theorem call_apply {ι : Type} {kernel : (ι → σ) → ι → σ} (live : ι → Prop) [DecidablePred live]
    (lane : ι → σ → σ) (hkernel : ∀ s i, kernel s i = if live i then lane i (s i) else s i)
    (s : ι → σ) (i : ι) :
    tuner.call key kernel s i = if live i then tuner.call key (lane i) (s i) else s i := by
  unfold call
  induction tuner.runs key generalizing s with
  | zero => simp
  | succ n ih =>
    rw [Function.iterate_succ_apply, Function.iterate_succ_apply, ih, hkernel]
    split
    · rfl
    · rfl

/-- A run that changes nothing can be repeated. -/
theorem call_fixed {kernel : σ → σ} {s : σ} (h : kernel s = s) : tuner.call key kernel s = s :=
  Function.iterate_fixed h _

/-- What a run of two kernels keeps, a call of them keeps. -/
theorem call_rel {τ : Type} (R : σ → τ → Prop) {kernel : σ → σ} {kernel' : τ → τ}
    (hkernel : ∀ s t, R s t → R (kernel s) (kernel' t)) {s : σ} {t : τ} (h : R s t) :
    R (tuner.call key kernel s) (tuner.call key kernel' t) := by
  unfold call
  induction tuner.runs key generalizing s t with
  | zero => exact h
  | succ n ih => exact ih (hkernel s t h)

/-- **What a call takes in.** Let `rep l` be what has taken in the items `l`.  If a run takes in
`items`, a call takes them in once for each run. -/
theorem call_rep {C : Type} (rep : List C → σ) {kernel : σ → σ} {items : List C}
    (hkernel : ∀ l, kernel (rep l) = rep (l ++ items)) (l : List C) :
    tuner.call key kernel (rep l) = rep (l ++ (List.replicate (tuner.runs key) items).flatten) := by
  unfold call
  induction tuner.runs key generalizing l with
  | zero => simp
  | succ n ih =>
    rw [Function.iterate_succ_apply, hkernel, ih, List.replicate_succ, List.flatten_cons,
      List.append_assoc]

end Tuner

end Autotune
