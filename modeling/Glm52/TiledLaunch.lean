import Mathlib.Algebra.BigOperators.Group.Finset.Basic
import Mathlib.Algebra.BigOperators.Intervals
import Mathlib.Algebra.BigOperators.Ring.Finset
import Mathlib.Logic.Function.Basic

/-! # Tiled launches

A kernel is launched on a grid of programs; a program works on a tile of lanes, and a
lane stores at most one cell of the output.  Nothing orders the programs, so the output
of a launch is only meaningful if it is the same in every order of the stores; it is,
as soon as the stores to a cell agree (`run_eq_of_agree`).

Inside a lane a sum over `n` terms is taken tile by tile, the last tile masked
(`sum_tiles`). -/
namespace TiledLaunch

/-! ### Grids -/

/-- What the programs of a `gridM × gridN` grid do, program by program. -/
def grid {α : Type} (gridM gridN : ℕ) (program : ℕ → ℕ → List α) : List α :=
  (List.range gridM).flatMap fun m => (List.range gridN).flatMap (program m)

theorem mem_grid {α : Type} {gridM gridN : ℕ} {program : ℕ → ℕ → List α} {a : α} :
    a ∈ grid gridM gridN program ↔ ∃ m < gridM, ∃ n < gridN, a ∈ program m n := by
  simp [grid]

/-! ### Stores -/

section Run
variable {κ ν : Type} [DecidableEq κ]

/-- The buffer after the stores, in their order; `none` is a cell nobody has stored. -/
def run (stores : List (κ × ν)) (buffer : κ → Option ν) : κ → Option ν :=
  stores.foldl (fun buffer s => Function.update buffer s.1 (some s.2)) buffer

theorem run_of_forall_ne {stores : List (κ × ν)} {k : κ} (h : ∀ s ∈ stores, s.1 ≠ k)
    (buffer : κ → Option ν) : run stores buffer k = buffer k := by
  induction stores generalizing buffer with
  | nil => rfl
  | cons s stores ih =>
    have hk : k ≠ s.1 := (h s (by simp)).symm
    have hrest := ih (fun s' hs' => h s' (by simp [hs'])) (Function.update buffer s.1 (some s.2))
    exact hrest.trans (Function.update_of_ne hk _ _)

/-- **Agreeing stores**: a cell that some lane stores, and that every lane that stores it
stores alike, holds that value, whatever the order. -/
theorem run_eq_of_agree {stores : List (κ × ν)} {k : κ} {v : ν} (hmem : (k, v) ∈ stores)
    (hagree : ∀ s ∈ stores, s.1 = k → s.2 = v) (buffer : κ → Option ν) :
    run stores buffer k = some v := by
  induction stores generalizing buffer with
  | nil => simp at hmem
  | cons s stores ih =>
    have hrest : ∀ s' ∈ stores, s'.1 = k → s'.2 = v := fun s' hs' => hagree s' (by simp [hs'])
    by_cases hlater : (k, v) ∈ stores
    · exact ih hlater hrest _
    · -- no later store touches the cell: it would be this very store again
      have hs : s = (k, v) := by simpa [hlater, eq_comm] using hmem
      have hne : ∀ s' ∈ stores, s'.1 ≠ k := by
        rintro ⟨k', v'⟩ hs' rfl
        obtain rfl : v' = v := hrest _ hs' rfl
        exact hlater hs'
      have hkeep := run_of_forall_ne hne (Function.update buffer s.1 (some s.2))
      subst hs
      exact hkeep.trans (Function.update_self _ _ _)

end Run

/-! ### Loops -/

/-- A loop that may fail, when the state before each pass is known. -/
theorem foldlM_range {σ : Type} {n : ℕ} {f : σ → ℕ → Option σ} (state : ℕ → σ)
    (step : ∀ i < n, f (state i) i = some (state (i + 1))) :
    (List.range n).foldlM f (state 0) = some (state n) := by
  induction n with
  | zero => rfl
  | succ n ih =>
    have hinit := ih (fun i hi => step i (by omega))
    rw [List.range_succ, List.foldlM_append, hinit]
    simpa using step n (by omega)

/-- A loop that may fail, by an invariant. -/
theorem foldlM_range_inv {σ : Type} {n : ℕ} {f : σ → ℕ → Option σ} (I : ℕ → σ → Prop)
    (step : ∀ i < n, ∀ s, I i s → ∃ s', f s i = some s' ∧ I (i + 1) s') {s : σ} (h : I 0 s) :
    ∃ s', (List.range n).foldlM f s = some s' ∧ I n s' := by
  induction n with
  | zero => exact ⟨s, rfl, h⟩
  | succ n ih =>
    obtain ⟨s₁, hs₁, hI₁⟩ := ih fun i hi => step i (by omega)
    obtain ⟨s₂, hs₂, hI₂⟩ := step n (by omega) s₁ hI₁
    refine ⟨s₂, ?_, hI₂⟩
    rw [List.range_succ, List.foldlM_append, hs₁]
    simpa using hs₂

/-! ### Sums by tiles -/

section Sum
variable {α : Type} [AddCommMonoid α]

/-- A loop that adds one term a pass to an accumulator that starts at zero. -/
def loop (passes : ℕ) (term : ℕ → α) : α :=
  (List.range passes).foldl (fun acc pass => acc + term pass) 0

theorem loop_eq_sum (passes : ℕ) (term : ℕ → α) :
    loop passes term = ∑ pass ∈ Finset.range passes, term pass := by
  induction passes with
  | zero => rfl
  | succ passes ih =>
    rw [Finset.sum_range_succ, ← ih]
    simp [loop, List.range_succ]

/-- A masked load: zero where the mask is off. -/
def load (mask : Bool) (x : α) : α := if mask then x else 0

@[simp] theorem load_true (x : α) : load true x = x := rfl

@[simp] theorem load_false (x : α) : load false x = 0 := rfl

/-- Full tiles. -/
theorem sum_full_tiles (passes tile : ℕ) (f : ℕ → α) :
    ∑ pass ∈ Finset.range passes, ∑ lane ∈ Finset.range tile, f (pass * tile + lane) =
      ∑ i ∈ Finset.range (passes * tile), f i := by
  induction passes with
  | zero => simp
  | succ passes ih => rw [Finset.sum_range_succ, ih, Nat.succ_mul, Finset.sum_range_add]

/-- **Tiles with a masked tail** sum to the whole. -/
theorem sum_tiles {n passes tile : ℕ} (hn : n ≤ passes * tile) (f : ℕ → α) :
    ∑ pass ∈ Finset.range passes, ∑ lane ∈ Finset.range tile,
        load (decide (pass * tile + lane < n)) (f (pass * tile + lane)) =
      ∑ i ∈ Finset.range n, f i := by
  rw [sum_full_tiles passes tile (fun i => load (decide (i < n)) (f i))]
  have hsub : Finset.range n ⊆ Finset.range (passes * tile) := by
    intro i hi
    exact Finset.mem_range.mpr ((Finset.mem_range.mp hi).trans_le hn)
  rw [← Finset.sum_subset hsub]
  · refine Finset.sum_congr rfl fun i hi => ?_
    have hlt : i < n := Finset.mem_range.mp hi
    simp [hlt]
  · intro i _ hi
    have hge : ¬ i < n := fun h => hi (Finset.mem_range.mpr h)
    simp [hge]

/-- **Chunks with a short last one** sum to the whole. -/
theorem loop_chunks {n passes chunk : ℕ} (hn : n ≤ passes * chunk) (f : ℕ → α) :
    loop passes (fun pass =>
        ∑ i ∈ Finset.Ico (pass * chunk) (min (pass * chunk + chunk) n), f i) =
      ∑ i ∈ Finset.range n, f i := by
  have hpartial : ∀ m, ∑ pass ∈ Finset.range m,
      ∑ i ∈ Finset.Ico (pass * chunk) (min (pass * chunk + chunk) n), f i =
        ∑ i ∈ Finset.range (min (m * chunk) n), f i := by
    intro m
    induction m with
    | zero => simp
    | succ m ih =>
      rw [Finset.sum_range_succ, ih, Nat.succ_mul]
      rcases Nat.le_total n (m * chunk) with hpast | hopen
      · have hempty : Finset.Ico (m * chunk) (min (m * chunk + chunk) n) = ∅ :=
          Finset.Ico_eq_empty_of_le (by omega)
        rw [hempty, Finset.sum_empty, add_zero, min_eq_right hpast,
          min_eq_right (hpast.trans (Nat.le_add_right _ _))]
      · rw [min_eq_left hopen, Finset.range_eq_Ico, Finset.range_eq_Ico,
          Finset.sum_Ico_consecutive f (Nat.zero_le _) (by omega)]
  rw [loop_eq_sum, hpartial, min_eq_right hn]

end Sum

theorem load_mul_load {α : Type} [NonUnitalNonAssocSemiring α] (mask : Bool) (x y : α) :
    load mask x * load mask y = load mask (x * y) := by
  cases mask <;> simp

/-- **A product in tiles**, both operands masked beyond the last term. -/
theorem loop_dot {α : Type} [NonUnitalNonAssocSemiring α] {n passes tile : ℕ}
    (hn : n ≤ passes * tile) (x y : ℕ → α) :
    loop passes (fun pass => ∑ lane ∈ Finset.range tile,
        load (decide (pass * tile + lane < n)) (x (pass * tile + lane)) *
          load (decide (pass * tile + lane < n)) (y (pass * tile + lane))) =
      ∑ i ∈ Finset.range n, x i * y i := by
  simp only [loop_eq_sum, load_mul_load]
  exact sum_tiles hn fun i => x i * y i

end TiledLaunch
