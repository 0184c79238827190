import Glm52.Autotune
import Mathlib.Algebra.GroupWithZero.Nat
import Mathlib.Algebra.Order.Group.Int
import Mathlib.Data.List.Basic

/-! # Loops over a capped range, in chunks

A loop runs through the positions of a row and stops at a cap.  The row may be handled
in chunks, by one call each: a call gets the chunk's width, the position of its first
lane and the cap of the whole row, and works out itself how many of its lanes lie below
the cap (`localEff`).  However the row is cut, the calls visit the positions that one
call on the row visits, in the same order (`chunkLoop_eq`).

Where the call is behind an autotuner whose key is the width, a chunk of a new width is run
several times; the loop is the plain one once all the widths are tuned
(`tunedLoop_eq_chunkLoop`). -/
namespace ChunkLoop
open Autotune

/-- The lanes of a chunk that lie below the cap. -/
def localEff (width start : ℕ) (cap : ℤ) : ℕ := (min (width : ℤ) (max (cap - start) 0)).toNat

variable {σ : Type} (step : σ → ℕ → σ) (cap : ℤ)

/-- One call: the lanes of the chunk below the cap, by their position in the row. -/
def call (width start : ℕ) (s : σ) : σ :=
  (List.range (localEff width start cap)).foldl (fun s lane => step s (start + lane)) s

/-- One call for each chunk, each starting where the one before ended. -/
def chunkLoop : ℕ → List ℕ → σ → σ
  | _, [], s => s
  | start, width :: widths, s => chunkLoop (start + width) widths (call step cap width start s)

/-- One call for each chunk, by a kernel that an autotuner tunes for each width. -/
def tunedLoop : Tuner ℕ → ℕ → List ℕ → σ → σ
  | _, _, [], s => s
  | tuner, start, width :: widths, s =>
    tunedLoop (tuner.after width) (start + width) widths
      (tuner.call width (call step cap width start) s)

/-- The lanes below the cap of two adjacent chunks. -/
theorem range_localEff_add (m n start : ℕ) :
    List.range (localEff (m + n) start cap) =
      List.range (localEff m start cap) ++
        (List.range (localEff n (start + m) cap)).map (m + ·) := by
  by_cases hopen : (m : ℤ) ≤ cap - start
  · -- the first chunk is below the cap
    have hfirst : localEff m start cap = m := by unfold localEff; omega
    have hall : localEff (m + n) start cap = m + localEff n (start + m) cap := by
      unfold localEff
      omega
    rw [hall, hfirst, List.range_add]
  · have hrest : localEff n (start + m) cap = 0 := by unfold localEff; omega
    have hall : localEff (m + n) start cap = localEff m start cap := by unfold localEff; omega
    rw [hall, hrest, List.range_zero, List.map_nil, List.append_nil]

/-- **Two adjacent calls are one.** -/
theorem call_add (m n start : ℕ) (s : σ) :
    call step cap (m + n) start s = call step cap n (start + m) (call step cap m start s) := by
  simp only [call, range_localEff_add, List.foldl_append, List.foldl_map, Nat.add_assoc]

/-- **Chunk by chunk** is the one call on the whole row. -/
theorem chunkLoop_eq (start : ℕ) (widths : List ℕ) (s : σ) :
    chunkLoop step cap start widths s = call step cap widths.sum start s := by
  induction widths generalizing start s with
  | nil =>
    have hnone : localEff 0 start cap = 0 := by unfold localEff; omega
    rw [chunkLoop, call, List.sum_nil, hnone, List.range_zero, List.foldl_nil]
  | cons width widths ih => rw [chunkLoop, ih, List.sum_cons, call_add]

/-- **With tuned widths** each chunk is one run. -/
theorem tunedLoop_eq_chunkLoop {tuner : Tuner ℕ} {widths : List ℕ}
    (htuned : ∀ width ∈ widths, tuner.tuned width = true) (start : ℕ) (s : σ) :
    tunedLoop step cap tuner start widths s = chunkLoop step cap start widths s := by
  induction widths generalizing tuner start s with
  | nil => rfl
  | cons width widths ih =>
    have hrest : ∀ width' ∈ widths, (tuner.after width).tuned width' = true := fun width' hmem =>
      Tuner.tuned_after (htuned width' (List.mem_cons_of_mem width hmem))
    rw [tunedLoop, chunkLoop, Tuner.call_of_tuned (htuned width List.mem_cons_self), ih hrest]

variable {step cap}

/-- The lanes of a chunk lie below the cap, at and behind its start. -/
theorem lt_of_lt_localEff {width start lane : ℕ} (h : lane < localEff width start cap) :
    lane < width ∧ ((start + lane : ℕ) : ℤ) < cap := by
  unfold localEff at h
  omega

/-- A tuned loop looks at its step only below the width and the cap, however often its chunks
are run. -/
theorem tunedLoop_congr {step' : σ → ℕ → σ} {start : ℕ} {widths : List ℕ}
    (hstep : ∀ s, ∀ c < start + widths.sum, (c : ℤ) < cap → step' s c = step s c)
    (tuner : Tuner ℕ) (s : σ) :
    tunedLoop step' cap tuner start widths s = tunedLoop step cap tuner start widths s := by
  induction widths generalizing tuner start s with
  | nil => rfl
  | cons width widths ih =>
    rw [List.sum_cons] at hstep
    have hcall : call step' cap width start = call step cap width start := by
      funext s
      apply List.foldl_ext
      intro s lane hlane
      obtain ⟨hwidth, hcap⟩ := lt_of_lt_localEff (List.mem_range.mp hlane)
      exact hstep s _ (by omega) hcap
    rw [tunedLoop, tunedLoop, hcall]
    exact ih (fun s c hc => hstep s c (by omega)) _ _

/-- A chunked loop looks at its step only below the width and the cap. -/
theorem chunkLoop_congr {step' : σ → ℕ → σ} {widths widths' : List ℕ}
    (hwidths : widths'.sum = widths.sum)
    (hstep : ∀ s, ∀ c < widths.sum, (c : ℤ) < cap → step' s c = step s c) (s : σ) :
    chunkLoop step' cap 0 widths' s = chunkLoop step cap 0 widths s := by
  rw [chunkLoop_eq, chunkLoop_eq, hwidths, call, call]
  apply List.foldl_ext
  intro s c hc
  obtain ⟨hlt, hcap⟩ := lt_of_lt_localEff (List.mem_range.mp hc)
  exact hstep s _ (by omega) hcap

end ChunkLoop
