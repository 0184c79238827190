import Glm52.Enumeration
import Mathlib.Data.List.Basic
import Mathlib.Tactic.Ring

/-! # Views of rows in a shared arena

An arena is an array of cells.  A view is a run of rows of equal width in it; several
views of one arena may overlap.  Writing a view and reading it back gives what was
written (`View.read_write`), and a view disjoint from the written one reads as before
(`View.read_write_of_disjoint`). -/
namespace Arena

variable {β : Type} {w u : ℕ}

/-- `rows` rows of `w` cells, from the cell `base` on. -/
structure View (w : ℕ) where
  base : ℕ
  rows : ℕ

/-- The cell behind the last one of the view. -/
def View.stop (v : View w) : ℕ := v.base + v.rows * w

/-- `view[:n]`. -/
def View.take (v : View w) (n : ℕ) : View w := { v with rows := min n v.rows }

/-- The rows of a view. -/
def View.read (v : View w) (arena : ℕ → β) : List (Fin w → β) :=
  (List.range v.rows).map (fun i k => arena (v.base + i * w + k))

/-- Write rows to a view, from its first row on; rows beyond the view are not written. -/
def View.write (v : View w) (data : List (Fin w → β)) (arena : ℕ → β) (a : ℕ) : β :=
  if h : v.base ≤ a ∧ a < v.stop ∧ (a - v.base) / w < data.length then
    data[(a - v.base) / w] ⟨(a - v.base) % w, by
      have hstop : a < v.base + v.rows * w := h.2.1
      refine Nat.mod_lt _ (Nat.pos_of_ne_zero ?_)
      rintro rfl
      omega⟩
  else arena a

/-- Two views share no cell. -/
def View.Disjoint (v : View w) (v' : View u) : Prop := v.stop ≤ v'.base ∨ v'.stop ≤ v.base

theorem View.Disjoint.symm {v : View w} {v' : View u} (h : v.Disjoint v') : v'.Disjoint v :=
  Or.symm h

@[simp] theorem View.take_rows (v : View w) (n : ℕ) : (v.take n).rows = min n v.rows := rfl

@[simp] theorem View.take_base (v : View w) (n : ℕ) : (v.take n).base = v.base := rfl

@[simp] theorem View.length_read (v : View w) (arena : ℕ → β) : (v.read arena).length = v.rows := by
  simp [View.read]

theorem View.stop_take_le (v : View w) (n : ℕ) : (v.take n).stop ≤ v.stop :=
  Nat.add_le_add_left (Nat.mul_le_mul_right w (min_le_right n v.rows)) v.base

/-- The first rows of a view are a view. -/
theorem View.read_take (v : View w) (n : ℕ) (arena : ℕ → β) :
    (v.take n).read arena = (v.read arena).take n := by
  rw [View.read, View.read, ← List.map_take, List.take_range]
  rfl

/-- A shorter view reads the first rows of a longer one. -/
theorem View.read_take_take (v : View w) (m n : ℕ) (arena : ℕ → β) :
    ((v.take m).read arena).take n = ((v.take n).read arena).take m := by
  rw [View.read_take, View.read_take, List.take_take, List.take_take, Nat.min_comm]

/-- A cell of a row lies within the view. -/
theorem View.cell_lt_stop {v : View w} {i : ℕ} (hi : i < v.rows) (k : Fin w) :
    v.base + i * w + k < v.stop := by
  have hrow : (i + 1) * w ≤ v.rows * w := Nat.mul_le_mul_right w hi
  have hk := k.isLt
  rw [Nat.add_mul, Nat.one_mul] at hrow
  unfold View.stop
  omega

/-- **What is written is read back**, when it fills the view. -/
theorem View.read_write {v : View w} {data : List (Fin w → β)} (hlen : data.length = v.rows)
    (arena : ℕ → β) : v.read (v.write data arena) = data := by
  refine List.ext_getElem (by rw [View.length_read, hlen]) (fun i hi hi' => ?_)
  have hrow : i < v.rows := hlen ▸ hi'
  have hget : (v.read (v.write data arena))[i] =
      fun k : Fin w => v.write data arena (v.base + i * w + k) := by simp [View.read]
  rw [hget]
  funext k
  have hsub : v.base + i * w + k - v.base = i * w + k := by omega
  have hdiv : (v.base + i * w + k - v.base) / w = i := by
    rw [hsub, Enumeration.digits_div i k.isLt]
  have hmod : (v.base + i * w + k - v.base) % w = k := by
    rw [hsub, Nat.mul_add_mod_of_lt k.isLt]
  have hin : v.base ≤ v.base + i * w + k ∧ v.base + i * w + k < v.stop ∧
      (v.base + i * w + k - v.base) / w < data.length :=
    ⟨by omega, View.cell_lt_stop hrow k, by rwa [hdiv]⟩
  exact (dif_pos hin).trans (congr (getElem_congr_idx hdiv) (Fin.ext hmod))

/-- **A write leaves a disjoint view alone.** -/
theorem View.read_write_of_disjoint {v : View w} {v' : View u} (h : v.Disjoint v')
    (data : List (Fin w → β)) (arena : ℕ → β) : v'.read (v.write data arena) = v'.read arena := by
  refine List.map_congr_left (fun i hi => ?_)
  have hcell := fun k => View.cell_lt_stop (List.mem_range.mp hi) k
  funext k
  refine dif_neg ?_
  rintro ⟨hbase, hstop, -⟩
  have hk := hcell k
  rcases h with h | h
  · omega
  · omega

end Arena
