import Glm52.Interleave
import Glm52.PagedMqaLogits

/-! # What the paged kernels read of a sharded block table

Under decode context parallelism a rank holds every `N`-th token of a request, so its
block table has rows of `cdiv max_model_len (block_size * N)` entries and its context
lengths are local, while the logits keep one column for each of the `max_model_len`
global positions.  A read stays inside its row because a local length is short, not
because the columns are.

The row-wise kernel loads an entry only for a position of the context.  The generic
kernel loads one for every column, and with more than one rank and more than one page it
reads past the row (`reads_inside_iff`). -/
namespace Glm52.PagedMqa
open TiledLaunch

/-- The row width of a rank's block table. -/
def tableWidth (maxModelLen blockSize N : ℕ) : ℕ := cdiv maxModelLen (blockSize * N)

/-- A lane reads inside the block table and inside a page. -/
structure ReadsInside {α : Type} (shape : Shape) (width : ℕ) (lane : Lane α) : Prop where
  table : ∀ batch rank, lane.tableRead = some (batch, rank) → batch < shape.batchSize ∧ rank < width
  page : ∀ block offset, lane.pageRead = some (block, offset) → offset < shape.blockSize

/-! ### The reads of a lane -/

section Lanes
variable {α : Type} [CommRing α] [LinearOrder α] (shape : Shape) (t : Tensors α)
  (tokenStart logitsWidth : ℕ)

/-- A generic lane loads the table entry of its column, in the context or not. -/
theorem tableRead_pagedMqaLogitsKernel (BLOCK_M BLOCK_N BLOCK_D pidM pidN i j : ℕ) :
    (pagedMqaLogitsKernel shape t tokenStart logitsWidth BLOCK_M BLOCK_N BLOCK_D pidM pidN i
        j).tableRead =
      if pidM * BLOCK_M + i < shape.numRows ∧ pidN * BLOCK_N + j < logitsWidth then
        some ((pidM * BLOCK_M + i) / shape.nextN,
          (tokenStart + (pidN * BLOCK_N + j)) / shape.blockSize)
      else none := by
  simp [pagedMqaLogitsKernel]

/-- A row-wise lane loads it only in the context of its row. -/
theorem tableRead_pagedMqaLogitsRowwiseKernel (BLOCK_N BLOCK_D BLOCK_H row pidN j : ℕ) :
    (pagedMqaLogitsRowwiseKernel shape t tokenStart logitsWidth BLOCK_N BLOCK_D BLOCK_H row pidN
        j).tableRead =
      if row < shape.numRows ∧ pidN * BLOCK_N + j < logitsWidth ∧
          ((tokenStart + (pidN * BLOCK_N + j) : ℕ) : ℤ) < rowContext shape t row then
        some (row / shape.nextN, (tokenStart + (pidN * BLOCK_N + j)) / shape.blockSize)
      else none := by
  dsimp only [pagedMqaLogitsRowwiseKernel]
  simp only [rowContext, Nat.mod_eq_sub_div_mul]
  by_cases hrow : row < shape.numRows
  · simp only [hrow, decide_true, load_true, Bool.true_and, true_and]
    split
    next hpast =>
      -- a window that is given up has no position in the context
      refine (if_neg ?_).symm
      rintro ⟨-, hctx⟩
      omega
    next => simp
  · simp only [hrow, decide_false, load_false, Bool.false_and, false_and, Bool.false_eq_true,
      if_false]
    split <;> rfl

variable {shape}

/-- The offset that both kernels compute is the position's remainder in its page. -/
theorem pageOffset_lt {blockSize position page block offset : ℕ} (hB : 0 < blockSize)
    (h : some (page, position - position / blockSize * blockSize) = some (block, offset)) :
    offset < blockSize := by
  obtain ⟨-, rfl⟩ := Prod.mk.inj (Option.some.inj h)
  rw [← Nat.mod_eq_sub_div_mul]
  exact Nat.mod_lt _ hB

theorem page_pagedMqaLogitsKernel (hB : 0 < shape.blockSize)
    (BLOCK_M BLOCK_N BLOCK_D pidM pidN i j : ℕ) {block offset : ℕ}
    (h : (pagedMqaLogitsKernel shape t tokenStart logitsWidth BLOCK_M BLOCK_N BLOCK_D pidM pidN i
      j).pageRead = some (block, offset)) : offset < shape.blockSize := by
  dsimp only [pagedMqaLogitsKernel] at h
  split at h
  · exact pageOffset_lt hB h
  · simp at h

theorem page_pagedMqaLogitsRowwiseKernel (hB : 0 < shape.blockSize)
    (BLOCK_N BLOCK_D BLOCK_H row pidN j : ℕ) {block offset : ℕ}
    (h : (pagedMqaLogitsRowwiseKernel shape t tokenStart logitsWidth BLOCK_N BLOCK_D BLOCK_H row
      pidN j).pageRead = some (block, offset)) : offset < shape.blockSize := by
  dsimp only [pagedMqaLogitsRowwiseKernel] at h
  split at h
  · simp at h
  · dsimp only at h
    split at h
    · exact pageOffset_lt hB h
    · simp at h

end Lanes

/-! ### The reads of a launch -/

theorem row_div_lt (shape : Shape) {row : ℕ} (hrow : row < shape.numRows) :
    row / shape.nextN < shape.batchSize := by
  have hpos : 0 < shape.nextN := by
    refine Nat.pos_of_ne_zero fun hzero => ?_
    simp [Shape.numRows, hzero] at hrow
  exact (Nat.div_lt_iff_lt_mul hpos).mpr hrow

/-- **A position of the local context** lies in a block of the rank's row. -/
theorem local_div_lt {N r S maxModelLen blockSize l : ℕ} (hB : 0 < blockSize) (hr : r < N)
    (hS : S ≤ maxModelLen) (hl : l < own N S r) :
    l / blockSize < tableWidth maxModelLen blockSize N := by
  have hN : 0 < N := by omega
  have hglobal := (lt_own_iff hr l S).mp hl
  have hblock := Nat.div_mul_le_self l blockSize
  have hscaled := Nat.mul_le_mul_right N hblock
  unfold tableWidth
  rw [lt_cdiv_iff (Nat.mul_pos hB hN), ← Nat.mul_assoc]
  omega

/-- The columns fit the rank's row when there is one rank or one page, and not otherwise. -/
theorem columns_fit_iff {N maxModelLen blockSize : ℕ} (hB : 0 < blockSize) (hN : 0 < N) :
    (∀ col < maxModelLen, col / blockSize < tableWidth maxModelLen blockSize N) ↔
      N = 1 ∨ maxModelLen ≤ blockSize := by
  have hBN := Nat.mul_pos hB hN
  constructor
  · intro h
    by_contra hlong
    obtain ⟨hranks, hpages⟩ := not_or.mp hlong
    have hlast := h (maxModelLen - 1) (by omega)
    unfold tableWidth at hlast
    rw [lt_cdiv_iff hBN, ← Nat.mul_assoc] at hlast
    -- the last page starts at or beyond the first page's end
    have hdecomp := Nat.div_add_mod' (maxModelLen - 1) blockSize
    have hmod := Nat.mod_lt (maxModelLen - 1) hB
    have hfirst : blockSize ≤ (maxModelLen - 1) / blockSize * blockSize := by
      refine Nat.le_mul_of_pos_left blockSize (Nat.div_pos (by omega) hB)
    have hdouble := Nat.mul_le_mul_left ((maxModelLen - 1) / blockSize * blockSize)
      (show 2 ≤ N by omega)
    omega
  · rintro (rfl | hpage) col hcol
    · unfold tableWidth
      rw [Nat.mul_one, lt_cdiv_iff hB]
      exact (Nat.div_mul_le_self col blockSize).trans_lt hcol
    · unfold tableWidth
      rw [Nat.div_eq_of_lt (by omega), lt_cdiv_iff hBN]
      omega

section Launches
variable {α : Type} [CommRing α] [LinearOrder α] {shape : Shape} {t : Tensors α}
  {N r maxModelLen : ℕ} {S : ℕ → ℕ}

/-- The context lengths of a rank: row `row` sees its share of `S row` tokens. -/
def LocalLens (shape : Shape) (t : Tensors α) (N r : ℕ) (S : ℕ → ℕ) : Prop :=
  ∀ row < shape.numRows, rowContext shape t row = own N (S row) r

/-- **The row-wise launch** reads inside. -/
theorem rowwiseLanes_readsInside (hB : 0 < shape.blockSize) (hr : r < N)
    (hS : ∀ row < shape.numRows, S row ≤ maxModelLen) (hlens : LocalLens shape t N r S)
    {lane : Lane α} (hlane : lane ∈ rowwiseLanes shape t 0 maxModelLen) :
    ReadsInside shape (tableWidth maxModelLen shape.blockSize N) lane := by
  obtain ⟨row, -, pidN, -, hlane⟩ := mem_grid.mp hlane
  obtain ⟨j, -, rfl⟩ := List.mem_map.mp hlane
  constructor
  · intro batch rank hread
    rw [tableRead_pagedMqaLogitsRowwiseKernel, Nat.zero_add] at hread
    split at hread
    next hctx =>
      obtain ⟨hrow, -, hlocal⟩ := hctx
      obtain ⟨rfl, rfl⟩ := Prod.mk.inj (Option.some.inj hread)
      rw [hlens row hrow, Nat.cast_lt] at hlocal
      exact ⟨row_div_lt shape hrow, local_div_lt hB hr (hS row hrow) hlocal⟩
    next => simp at hread
  · intro block offset hread
    exact page_pagedMqaLogitsRowwiseKernel t 0 maxModelLen hB _ _ _ _ _ _ hread

/-- **The generic launch** reads inside exactly when all columns fit the row. -/
theorem genericLanes_readsInside_iff (hB : 0 < shape.blockSize) (hN : 0 < N)
    (hrows : 0 < shape.numRows) :
    (∀ lane ∈ genericLanes shape t 0 maxModelLen,
      ReadsInside shape (tableWidth maxModelLen shape.blockSize N) lane) ↔
      N = 1 ∨ maxModelLen ≤ shape.blockSize := by
  rw [← columns_fit_iff hB hN]
  constructor
  · intro hinside col hcol
    have hM := blockM_pos shape.numRows
    have hc := Nat.div_add_mod' col 64
    -- the lane of row 0 at this column
    have hlane := hinside _ (mem_grid.mpr ⟨0, (lt_cdiv_iff hM).mpr (by omega), col / 64,
      (lt_cdiv_iff (by decide)).mpr (by omega), mem_grid.mpr ⟨0, hM, col % 64,
        Nat.mod_lt _ (by decide), List.mem_singleton_self _⟩⟩)
    refine (hlane.table (0 / shape.nextN) (col / shape.blockSize) ?_).2
    rw [tableRead_pagedMqaLogitsKernel, hc]
    simp [hrows, hcol]
  · intro hfit lane hlane
    obtain ⟨pidM, -, pidN, -, hlane⟩ := mem_grid.mp hlane
    obtain ⟨i, -, j, -, hlane⟩ := mem_grid.mp hlane
    obtain rfl := List.mem_singleton.mp hlane
    constructor
    · intro batch rank hread
      rw [tableRead_pagedMqaLogitsKernel, Nat.zero_add] at hread
      split at hread
      next hcell =>
        obtain ⟨rfl, rfl⟩ := Prod.mk.inj (Option.some.inj hread)
        exact ⟨row_div_lt shape hcell.1, hfit _ hcell.2⟩
      next => simp at hread
    · intro block offset hread
      exact page_pagedMqaLogitsKernel t 0 maxModelLen hB _ _ _ _ _ _ _ hread

end Launches

/-! ### The decode indexer's call -/

/-- The call over all columns launches them all, unless there is nothing to store. -/
theorem launchWindow_columns {α : Type} (shape : Shape) (lanes : ℕ → ℕ → List (Lane α))
    (maxModelLen : ℕ) :
    launchWindow shape lanes maxModelLen 0 none =
      some (if shape.numRows = 0 ∨ maxModelLen = 0 then [] else lanes 0 maxModelLen) := by
  simp [launchWindow]

/-- **When the reads lie inside the table.**  The call with one column for each position of
the model's length, the rank's context lengths and the rank's table reads every entry
inside its row and every slot inside its page exactly when the row-wise kernel takes it,
or there are no rows, or one rank, or one page. -/
theorem reads_inside_iff {α : Type} [CommRing α] [LinearOrder α] (shape : Shape) (t : Tensors α)
    (N r maxModelLen : ℕ) (S : ℕ → ℕ) (hB : 0 < shape.blockSize) (hr : r < N)
    (hS : ∀ row < shape.numRows, S row ≤ maxModelLen) (hlens : LocalLens shape t N r S) :
    (∃ lanes, fp8PagedMqaLogitsTriton shape t maxModelLen 0 none = some lanes ∧
      ∀ lane ∈ lanes, ReadsInside shape (tableWidth maxModelLen shape.blockSize N) lane) ↔
      shape.Aligned ∨ shape.numRows = 0 ∨ N = 1 ∨ maxModelLen ≤ shape.blockSize := by
  unfold fp8PagedMqaLogitsTriton fp8PagedMqaLogitsRowwiseTriton
  simp only [launchWindow_columns]
  by_cases haligned : shape.Aligned
  · rw [if_pos haligned]
    refine ⟨fun _ => Or.inl haligned, fun _ => ⟨_, rfl, fun lane hlane => ?_⟩⟩
    split at hlane
    · simp at hlane
    · exact rowwiseLanes_readsInside hB hr hS hlens hlane
  · rw [if_neg haligned]
    have hgeneric : 0 < shape.numRows →
        ((∀ lane ∈ genericLanes shape t 0 maxModelLen,
          ReadsInside shape (tableWidth maxModelLen shape.blockSize N) lane) ↔
          N = 1 ∨ maxModelLen ≤ shape.blockSize) :=
      genericLanes_readsInside_iff hB (by omega)
    constructor
    · rintro ⟨lanes, hlaunched, hinside⟩
      obtain rfl := Option.some.inj hlaunched
      by_cases hempty : shape.numRows = 0 ∨ maxModelLen = 0
      · omega
      · rw [if_neg hempty] at hinside
        exact Or.inr (Or.inr ((hgeneric (by omega)).mp hinside))
    · rintro (h | hfit)
      · exact absurd h haligned
      · refine ⟨_, rfl, fun lane hlane => ?_⟩
        split at hlane
        · simp at hlane
        next hcells => exact (hgeneric (by omega)).mpr (by omega) lane hlane

/-- One request of one token, two heads of width 128, pages of 64 slots. -/
def twoHeads : Shape := ⟨1, 1, 2, 128, 64⟩

/-- The tensors of rank 0 of `N` for a request of `S` tokens. -/
def rankTensors (N S : ℕ) : Tensors ℤ where
  q _ _ _ _ := 1
  kvValues _ _ _ := 1
  kvScale _ _ := 1
  weights _ _ := 1
  contextLens _ _ := own N S 0
  contextColumns := 1
  blockTables _ _ := 0

/-- With one page the condition holds, and the generic kernel stays inside. -/
theorem reads_inside_iff_one_page :
    LocalLens twoHeads (rankTensors 8 64) 8 0 (fun _ => 64) ∧
    ∃ lanes, fp8PagedMqaLogitsTriton twoHeads (rankTensors 8 64) 64 0 none = some lanes ∧
      ∀ lane ∈ lanes, ReadsInside twoHeads (tableWidth 64 twoHeads.blockSize 8) lane := by
  have hlens : LocalLens twoHeads (rankTensors 8 64) 8 0 (fun _ => 64) := fun _ _ => rfl
  exact ⟨hlens, (reads_inside_iff twoHeads (rankTensors 8 64) 8 0 64 (fun _ => 64) (by decide)
    (by decide) (fun _ _ => le_rfl) hlens).mpr (by decide)⟩

/-- Two pages on eight ranks: the rank's row has one entry and its context sixteen tokens,
and the generic kernel loads entry 1 for the columns from 64 on. -/
theorem generic_reads_past_row :
    LocalLens twoHeads (rankTensors 8 128) 8 0 (fun _ => 128) ∧
    tableWidth 128 twoHeads.blockSize 8 = 1 ∧
    ∃ lanes, fp8PagedMqaLogitsTriton twoHeads (rankTensors 8 128) 128 0 none = some lanes ∧
      (∃ lane ∈ lanes, lane.tableRead = some (0, 1)) ∧
      ¬ ∀ lane ∈ lanes, ReadsInside twoHeads (tableWidth 128 twoHeads.blockSize 8) lane := by
  have hlaunch : fp8PagedMqaLogitsTriton twoHeads (rankTensors 8 128) 128 0 none =
      some (genericLanes twoHeads (rankTensors 8 128) 0 128) := by
    have hmisaligned : ¬ twoHeads.Aligned := by decide
    unfold fp8PagedMqaLogitsTriton
    rw [if_neg hmisaligned, launchWindow_columns]
    rfl
  have hlane : pagedMqaLogitsKernel twoHeads (rankTensors 8 128) 0 128 1 64 64 0 1 0 0 ∈
      genericLanes twoHeads (rankTensors 8 128) 0 128 :=
    mem_grid.mpr ⟨0, by decide, 1, by decide,
      mem_grid.mpr ⟨0, by decide, 0, by decide, List.mem_singleton_self _⟩⟩
  have hread : (pagedMqaLogitsKernel twoHeads (rankTensors 8 128) 0 128 1 64 64 0 1 0 0).tableRead =
      some (0, 1) := by
    rw [tableRead_pagedMqaLogitsKernel]
    decide
  refine ⟨fun _ _ => rfl, rfl, _, hlaunch, ⟨_, hlane, hread⟩, fun hinside => ?_⟩
  exact absurd ((hinside _ hlane).table 0 1 hread).2 (by decide)

end Glm52.PagedMqa
