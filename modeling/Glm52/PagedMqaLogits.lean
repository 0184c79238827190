import Glm52.Enumeration
import Glm52.SplitAttention
import Glm52.TiledLaunch

/-! # The paged MQA logits

The indexer scores every key of a request against a query, `Σ_h w_h · relu(s_p · (q_h · k_p))`,
with the keys in pages found through a block table.  There are two Triton kernels and a
torch reference.  The row-wise kernel takes one row a program, 128 positions wide, the
heads in tiles of eight, and gives up on a window that starts beyond the context; the
generic kernel takes a tile of rows, 64 positions wide, head by head.

A lane is modelled with what it reads through the block table as well as what it
stores: the generic kernel loads the table entry of every column of the window, the
row-wise kernel only those of the context. -/
namespace Glm52.PagedMqa
open TiledLaunch

/-- The sizes that are read off `q` and the cache. -/
structure Shape where
  batchSize : ℕ
  nextN : ℕ
  numHeads : ℕ
  headDim : ℕ
  blockSize : ℕ

/-- A row for each next token of each request. -/
def Shape.numRows (shape : Shape) : ℕ := shape.batchSize * shape.nextN

/-- The tensors: the queries, the pages of keys and their scales, the weights by row and
head, the context lengths with their number of columns, and the block tables.  A tensor
may be read anywhere; what lies beyond it is any value. -/
structure Tensors (α : Type) where
  q : ℕ → ℕ → ℕ → ℕ → α
  kvValues : ℕ → ℕ → ℕ → α
  kvScale : ℕ → ℕ → α
  weights : ℕ → ℕ → α
  contextLens : ℕ → ℕ → ℤ
  contextColumns : ℕ
  blockTables : ℕ → ℕ → ℕ

/-- `context_lens_2d`: one length for a request stands for all its next tokens. -/
def contextLens2d {α : Type} (shape : Shape) (t : Tensors α) (batch qPos : ℕ) : ℤ :=
  if t.contextColumns = 1 ∧ shape.nextN ≠ 1 then t.contextLens batch 0
  else t.contextLens batch qPos

/-- One lane of a kernel: its row and column, the block-table entry it loads (request and
block rank), the slot of the page it loads a key and its scale from, and what it
stores; `⊥` is `-inf`. -/
structure Lane (α : Type) where
  row : ℕ
  col : ℕ
  tableRead : Option (ℕ × ℕ)
  pageRead : Option (ℕ × ℕ)
  stored : Option (WithBot α)
deriving DecidableEq

/-- The blocks of a cover start before the end. -/
theorem lt_cdiv_iff {i n b : ℕ} (hb : 0 < b) : i < cdiv n b ↔ i * b < n := by
  unfold cdiv
  rw [Nat.lt_div_iff_mul_lt hb]
  omega

/-! ### The kernels -/

section Kernels
variable {α : Type} [CommRing α] [LinearOrder α] (shape : Shape) (t : Tensors α)
  (tokenStart logitsWidth : ℕ)

/-- `_fp8_paged_mqa_logits_kernel`, lane `(i, j)` of program `(pidM, pidN)`. -/
def pagedMqaLogitsKernel (BLOCK_M BLOCK_N BLOCK_D pidM pidN i j : ℕ) : Lane α :=
  let offsM := pidM * BLOCK_M + i
  let offsLocalN := pidN * BLOCK_N + j
  let offsN := tokenStart + offsLocalN
  let validM := decide (offsM < shape.numRows)
  let validN := decide (offsLocalN < logitsWidth)
  let batch := offsM / shape.nextN
  let qPos := offsM - batch * shape.nextN
  let contextLen := load validM (contextLens2d shape t batch qPos)
  let contextMask := validN && decide ((offsN : ℤ) < contextLen)
  let blockRank := offsN / shape.blockSize
  let blockOffset := offsN - blockRank * shape.blockSize
  -- the mask of the table load does not look at the context length
  let blockIdx := load (validM && validN) (t.blockTables batch blockRank)
  let scale := load contextMask (t.kvScale blockIdx blockOffset)
  let logits := loop shape.numHeads fun h =>
    let scores := loop (cdiv shape.headDim BLOCK_D) fun d0 =>
      ∑ d ∈ Finset.range BLOCK_D,
        load (validM && decide (d0 * BLOCK_D + d < shape.headDim))
            (t.q batch qPos h (d0 * BLOCK_D + d)) *
          load (contextMask && decide (d0 * BLOCK_D + d < shape.headDim))
            (t.kvValues blockIdx blockOffset (d0 * BLOCK_D + d))
    max (scores * scale) 0 * load validM (t.weights offsM h)
  let storeMask := validM && validN
  { row := offsM
    col := offsLocalN
    tableRead := if validM && validN then some (batch, blockRank) else none
    pageRead := if contextMask then some (blockIdx, blockOffset) else none
    stored := if storeMask then some (if contextMask && storeMask then logits else ⊥) else none }

/-- `_fp8_paged_mqa_logits_rowwise_kernel`, lane `j` of program `(row, pidN)`. -/
def pagedMqaLogitsRowwiseKernel (BLOCK_N BLOCK_D BLOCK_H row pidN j : ℕ) : Lane α :=
  let offsLocalN := pidN * BLOCK_N + j
  let offsN := tokenStart + offsLocalN
  let validRow := decide (row < shape.numRows)
  let validN := decide (offsLocalN < logitsWidth)
  let batch := row / shape.nextN
  let qPos := row - batch * shape.nextN
  let contextLen := load validRow (contextLens2d shape t batch qPos)
  if contextLen ≤ ((tokenStart + pidN * BLOCK_N : ℕ) : ℤ) then
    { row := row
      col := offsLocalN
      tableRead := none
      pageRead := none
      stored := if validRow && validN then some ⊥ else none }
  else
    let contextMask := validN && decide ((offsN : ℤ) < contextLen)
    let blockRank := offsN / shape.blockSize
    let blockOffset := offsN - blockRank * shape.blockSize
    let blockIdx := load (validRow && contextMask) (t.blockTables batch blockRank)
    let scale := load contextMask (t.kvScale blockIdx blockOffset)
    let logits := loop (cdiv shape.numHeads BLOCK_H) fun h0 =>
      ∑ h ∈ Finset.range BLOCK_H,
        let head := h0 * BLOCK_H + h
        let validH := decide (head < shape.numHeads)
        let scores := loop (cdiv shape.headDim BLOCK_D) fun d0 =>
          ∑ d ∈ Finset.range BLOCK_D,
            load (validRow && validH && decide (d0 * BLOCK_D + d < shape.headDim))
                (t.q batch qPos head (d0 * BLOCK_D + d)) *
              load (contextMask && decide (d0 * BLOCK_D + d < shape.headDim))
                (t.kvValues blockIdx blockOffset (d0 * BLOCK_D + d))
        max (scores * scale) 0 * load (validRow && validH) (t.weights row head)
    { row := row
      col := offsLocalN
      tableRead := if validRow && contextMask then some (batch, blockRank) else none
      pageRead := if contextMask then some (blockIdx, blockOffset) else none
      stored :=
        if validRow && validN then some (if contextMask && validRow then logits else ⊥)
        else none }

/-! ### The launches -/

/-- The smallest tile of rows, up to eight, that covers them. -/
def blockM (numRows : ℕ) : ℕ :=
  if numRows ≤ 1 then 1 else if numRows ≤ 2 then 2 else if numRows ≤ 4 then 4 else 8

/-- The lanes of the generic launch. -/
def genericLanes : List (Lane α) :=
  let block := blockM shape.numRows
  grid (cdiv shape.numRows block) (cdiv logitsWidth 64) fun pidM pidN =>
    grid block 64 fun i j =>
      [pagedMqaLogitsKernel shape t tokenStart logitsWidth block 64 64 pidM pidN i j]

/-- The lanes of the row-wise launch. -/
def rowwiseLanes : List (Lane α) :=
  grid shape.numRows (cdiv logitsWidth 128) fun row pidN =>
    (List.range 128).map
      (pagedMqaLogitsRowwiseKernel shape t tokenStart logitsWidth 128 64 8 row pidN)

/-- The part the two wrappers share: the window is checked, and an empty one launches
nothing.  `none` is a failed assertion. -/
def launchWindow (lanes : ℕ → ℕ → List (Lane α)) (maxModelLen : ℕ) (tokenStart : ℤ)
    (tokenCount : Option ℤ) : Option (List (Lane α)) :=
  let tokenCount := tokenCount.getD (maxModelLen - tokenStart)
  if 0 ≤ tokenStart ∧ 0 ≤ tokenCount ∧ tokenStart + tokenCount ≤ maxModelLen then
    some (if shape.numRows = 0 ∨ tokenCount = 0 then []
      else lanes tokenStart.toNat tokenCount.toNat)
  else none

/-- `fp8_paged_mqa_logits_rowwise_triton`. -/
def fp8PagedMqaLogitsRowwiseTriton (maxModelLen : ℕ) (tokenStart : ℤ) (tokenCount : Option ℤ) :
    Option (List (Lane α)) :=
  launchWindow shape (rowwiseLanes shape t) maxModelLen tokenStart tokenCount

/-- The head shapes that the row-wise kernel takes. -/
def Shape.Aligned : Prop := shape.headDim % 64 = 0 ∧ shape.numHeads % 4 = 0

instance : Decidable shape.Aligned := inferInstanceAs (Decidable (_ ∧ _))

/-- `fp8_paged_mqa_logits_triton`. -/
def fp8PagedMqaLogitsTriton (maxModelLen : ℕ) (tokenStart : ℤ) (tokenCount : Option ℤ) :
    Option (List (Lane α)) :=
  if shape.Aligned then
    fp8PagedMqaLogitsRowwiseTriton shape t maxModelLen tokenStart tokenCount
  else launchWindow shape (genericLanes shape t) maxModelLen tokenStart tokenCount

end Kernels

/-- The logits after the lanes have run in the given order; `none` is a cell of the
`torch.empty` that no lane stored. -/
def logitsAfter {α : Type} (lanes : List (Lane α)) : ℕ × ℕ → Option (WithBot α) :=
  run (lanes.filterMap fun lane => lane.stored.map fun v => ((lane.row, lane.col), v))
    fun _ => none

/-! ### The torch reference -/

section Torch
variable {α : Type} [CommRing α] [LinearOrder α] (shape : Shape) (t : Tensors α)

/-- `_SM120_MQA_LOGITS_MAX_SCORE_BYTES`. -/
def maxScoreBytes : ℕ := 64 * 1024 * 1024

/-- The logit of one token: the key is scaled before the product. -/
def tokenLogit (batchIdx nextIdx row tokenId : ℕ) : α :=
  let logicalBlock := tokenId / shape.blockSize
  let tokenInBlock := tokenId - logicalBlock * shape.blockSize
  let physicalBlock := t.blockTables batchIdx logicalBlock
  ∑ h ∈ Finset.range shape.numHeads,
    max (∑ d ∈ Finset.range shape.headDim, t.q batchIdx nextIdx h d *
      (t.kvValues physicalBlock tokenInBlock d * t.kvScale physicalBlock tokenInBlock)) 0 *
        t.weights row h

/-- A pass of the chunk loop: `logits[row, token_start:token_end]` is assigned.  `none`
is a slice, cut at the end of the row, that the chunk cannot be broadcast to. -/
def torchChunk (maxModelLen batchIdx nextIdx contextLen chunk : ℕ)
    (logits : ℕ → ℕ → WithBot α) (pass : ℕ) : Option (ℕ → ℕ → WithBot α) :=
  let row := batchIdx * shape.nextN + nextIdx
  let tokenStart := pass * chunk
  let tokenEnd := min contextLen (tokenStart + chunk)
  let chunkLen := tokenEnd - tokenStart
  if chunkLen = min tokenEnd maxModelLen - min tokenStart maxModelLen ∨ chunkLen = 1 then
    some fun r p =>
      if r = row ∧ tokenStart ≤ p ∧ p < min tokenEnd maxModelLen then
        (tokenLogit shape t batchIdx nextIdx row p : α)
      else logits r p
  else none

/-- The row of a next token of a request. -/
def torchRow (maxModelLen : ℕ) (logits : ℕ → ℕ → WithBot α) (batchIdx nextIdx : ℕ) :
    Option (ℕ → ℕ → WithBot α) :=
  let contextLen := t.contextLens batchIdx nextIdx
  let maxTokensPerChunk := max 1 (maxScoreBytes / max 1 (shape.numHeads * 4))
  if contextLen ≤ 0 then some logits
  else
    (List.range (cdiv contextLen.toNat maxTokensPerChunk)).foldlM
      (torchChunk shape t maxModelLen batchIdx nextIdx contextLen.toNat maxTokensPerChunk) logits

/-- `_fp8_paged_mqa_logits_torch`.  The context lengths must come one for each next
token. -/
def fp8PagedMqaLogitsTorch (maxModelLen : ℕ) : Option (ℕ → ℕ → WithBot α) :=
  if t.contextColumns = shape.nextN then
    (List.range shape.batchSize).foldlM
      (fun logits batchIdx => (List.range shape.nextN).foldlM
        (fun logits nextIdx => torchRow shape t maxModelLen logits batchIdx nextIdx) logits)
      fun _ _ => ⊥
  else none

end Torch

/-! ### What they compute -/

section Spec
variable {α : Type} [CommRing α] [LinearOrder α] (shape : Shape) (t : Tensors α)

/-- The logit of a position: `Σ_h w_h · relu(s_p · (q_h · k_p))`. -/
def logit (row p : ℕ) : α :=
  let batch := row / shape.nextN
  let page := t.blockTables batch (p / shape.blockSize)
  let slot := p % shape.blockSize
  ∑ h ∈ Finset.range shape.numHeads, t.weights row h *
    max (t.kvScale page slot * ∑ d ∈ Finset.range shape.headDim,
      t.q batch (row % shape.nextN) h d * t.kvValues page slot d) 0

/-- The context length of a row. -/
def rowContext (row : ℕ) : ℤ := contextLens2d shape t (row / shape.nextN) (row % shape.nextN)

/-- The logit below the row's context length, `-inf` from there on. -/
def maskedLogit (row p : ℕ) : WithBot α :=
  if (p : ℤ) < rowContext shape t row then (logit shape t row p : α) else ⊥

end Spec

/-- A launch stores every cell of the output, and in each of its lanes the value that is
meant. -/
structure Stores {α : Type} (lanes : List (Lane α)) (numRows width : ℕ)
    (value : ℕ → ℕ → WithBot α) : Prop where
  agree : ∀ lane ∈ lanes, ∀ v, lane.stored = some v → v = value lane.row lane.col
  covers : ∀ row < numRows, ∀ col < width,
    ∃ lane ∈ lanes, lane.row = row ∧ lane.col = col ∧ lane.stored = some (value row col)

/-- The output of such a launch, in every order of its lanes. -/
theorem Stores.logitsAfter_eq {α : Type} {lanes order : List (Lane α)} {numRows width : ℕ}
    {value : ℕ → ℕ → WithBot α} (h : Stores lanes numRows width value) (horder : order.Perm lanes)
    {row col : ℕ} (hrow : row < numRows) (hcol : col < width) :
    logitsAfter order (row, col) = some (value row col) := by
  obtain ⟨lane, hlane, hr, hc, hstored⟩ := h.covers row hrow col hcol
  apply run_eq_of_agree
  · exact List.mem_filterMap.mpr ⟨lane, horder.mem_iff.mpr hlane, by simp [hstored, hr, hc]⟩
  · intro s hs hkey
    obtain ⟨other, hother, hsome⟩ := List.mem_filterMap.mp hs
    obtain ⟨v, hv, rfl⟩ := Option.map_eq_some_iff.mp hsome
    have hvalue := h.agree other (horder.mem_iff.mp hother) v hv
    obtain ⟨rfl, rfl⟩ := Prod.mk.inj hkey
    exact hvalue

section Lanes
variable {α : Type} [CommRing α] [LinearOrder α] (shape : Shape) (t : Tensors α)
  (tokenStart logitsWidth : ℕ)

/-- **A generic lane** stores the logit of its cell when its cell is one of the output. -/
theorem stored_pagedMqaLogitsKernel {BLOCK_D : ℕ} (hD : 0 < BLOCK_D)
    (BLOCK_M BLOCK_N pidM pidN i j : ℕ) :
    (pagedMqaLogitsKernel shape t tokenStart logitsWidth BLOCK_M BLOCK_N BLOCK_D pidM pidN i
        j).stored =
      if pidM * BLOCK_M + i < shape.numRows ∧ pidN * BLOCK_N + j < logitsWidth then
        some (maskedLogit shape t (pidM * BLOCK_M + i) (tokenStart + (pidN * BLOCK_N + j)))
      else none := by
  unfold pagedMqaLogitsKernel maskedLogit rowContext
  generalize pidM * BLOCK_M + i = row
  generalize pidN * BLOCK_N + j = col
  simp only [← Nat.mod_eq_sub_div_mul]
  by_cases hcell : row < shape.numRows ∧ col < logitsWidth
  · obtain ⟨hrow, hcol⟩ := hcell
    by_cases hctx : ((tokenStart + col : ℕ) : ℤ) <
        contextLens2d shape t (row / shape.nextN) (row % shape.nextN)
    · simp only [hrow, hcol, hctx, decide_true, Bool.and_self, Bool.true_and, load_true, if_true,
        and_self, loop_dot (le_cdiv_mul hD), loop_eq_sum, logit]
      refine congrArg (fun x : α => some (x : WithBot α)) (Finset.sum_congr rfl fun h _ => ?_)
      rw [mul_comm (t.weights row h), mul_comm (t.kvScale _ _)]
    · simp only [hrow, hcol, hctx, decide_true, decide_false, Bool.and_false, Bool.and_true,
        Bool.false_and, load_true, if_true, if_false, and_self, Bool.false_eq_true]
  · simp [hcell]

theorem row_pagedMqaLogitsRowwiseKernel (BLOCK_N BLOCK_D BLOCK_H row pidN j : ℕ) :
    (pagedMqaLogitsRowwiseKernel shape t tokenStart logitsWidth BLOCK_N BLOCK_D BLOCK_H row pidN
      j).row = row := by
  dsimp only [pagedMqaLogitsRowwiseKernel]
  split <;> rfl

theorem col_pagedMqaLogitsRowwiseKernel (BLOCK_N BLOCK_D BLOCK_H row pidN j : ℕ) :
    (pagedMqaLogitsRowwiseKernel shape t tokenStart logitsWidth BLOCK_N BLOCK_D BLOCK_H row pidN
      j).col = pidN * BLOCK_N + j := by
  dsimp only [pagedMqaLogitsRowwiseKernel]
  split <;> rfl

/-- **A row-wise lane** stores the same. -/
theorem stored_pagedMqaLogitsRowwiseKernel {BLOCK_D BLOCK_H : ℕ} (hD : 0 < BLOCK_D)
    (hH : 0 < BLOCK_H) (BLOCK_N row pidN j : ℕ) :
    (pagedMqaLogitsRowwiseKernel shape t tokenStart logitsWidth BLOCK_N BLOCK_D BLOCK_H row pidN
        j).stored =
      if row < shape.numRows ∧ pidN * BLOCK_N + j < logitsWidth then
        some (maskedLogit shape t row (tokenStart + (pidN * BLOCK_N + j)))
      else none := by
  unfold pagedMqaLogitsRowwiseKernel maskedLogit rowContext
  have hbase : pidN * BLOCK_N ≤ pidN * BLOCK_N + j := Nat.le_add_right _ _
  generalize pidN * BLOCK_N + j = col at hbase ⊢
  simp only [← Nat.mod_eq_sub_div_mul]
  by_cases hcell : row < shape.numRows ∧ col < logitsWidth
  · obtain ⟨hrow, hcol⟩ := hcell
    by_cases hctx : ((tokenStart + col : ℕ) : ℤ) <
        contextLens2d shape t (row / shape.nextN) (row % shape.nextN)
    · -- a window with a position in the context is not given up
      have hopen : ¬ contextLens2d shape t (row / shape.nextN) (row % shape.nextN) ≤
          ((tokenStart + pidN * BLOCK_N : ℕ) : ℤ) := by omega
      simp only [hrow, hcol, hctx, hopen, decide_true, Bool.and_self, Bool.true_and, load_true,
        if_true, if_false, and_self, logit]
      refine congrArg (fun x : α => some (x : WithBot α)) ?_
      rw [loop_eq_sum, ← sum_tiles (n := shape.numHeads) (le_cdiv_mul hH)]
      refine Finset.sum_congr rfl fun h0 _ => Finset.sum_congr rfl fun h _ => ?_
      by_cases hhead : h0 * BLOCK_H + h < shape.numHeads
      · simp only [hhead, decide_true, Bool.true_and, load_true, loop_dot (le_cdiv_mul hD)]
        rw [mul_comm (t.weights row _), mul_comm (t.kvScale _ _)]
      · -- a lane beyond the last head has no weight
        simp only [hhead, decide_false, load_false, mul_zero]
    · split
      · simp [hrow, hcol]
      · simp only [hrow, hcol, hctx, decide_true, decide_false, Bool.and_self, Bool.and_false,
          Bool.false_and, load_true, if_true, if_false, and_self, Bool.false_eq_true]
  · split <;> simp [hcell]

/-! ### The launches store every cell -/

theorem blockM_pos (numRows : ℕ) : 0 < blockM numRows := by
  unfold blockM
  split_ifs <;> decide

theorem genericLanes_stores :
    Stores (genericLanes shape t tokenStart logitsWidth) shape.numRows logitsWidth
      (fun row col => maskedLogit shape t row (tokenStart + col)) where
  agree := by
    intro lane hlane v hv
    obtain ⟨pidM, -, pidN, -, hlane⟩ := mem_grid.mp hlane
    obtain ⟨i, -, j, -, hlane⟩ := mem_grid.mp hlane
    obtain rfl := List.mem_singleton.mp hlane
    rw [stored_pagedMqaLogitsKernel shape t tokenStart logitsWidth (by decide)] at hv
    split at hv
    · exact (Option.some.inj hv).symm
    · simp at hv
  covers := by
    intro row hrow col hcol
    have hM := blockM_pos shape.numRows
    have hr := Nat.div_add_mod' row (blockM shape.numRows)
    have hc := Nat.div_add_mod' col 64
    refine ⟨_, mem_grid.mpr ⟨row / blockM shape.numRows, div_lt_cdiv hM hrow, col / 64,
      div_lt_cdiv (by decide) hcol, mem_grid.mpr ⟨row % blockM shape.numRows, Nat.mod_lt _ hM,
        col % 64, Nat.mod_lt _ (by decide), List.mem_singleton_self _⟩⟩, hr, hc, ?_⟩
    rw [stored_pagedMqaLogitsKernel shape t tokenStart logitsWidth (by decide), hr, hc,
      if_pos ⟨hrow, hcol⟩]

theorem rowwiseLanes_stores :
    Stores (rowwiseLanes shape t tokenStart logitsWidth) shape.numRows logitsWidth
      (fun row col => maskedLogit shape t row (tokenStart + col)) where
  agree := by
    intro lane hlane v hv
    obtain ⟨row, -, pidN, -, hlane⟩ := mem_grid.mp hlane
    obtain ⟨j, -, rfl⟩ := List.mem_map.mp hlane
    rw [stored_pagedMqaLogitsRowwiseKernel shape t tokenStart logitsWidth (by decide)
      (by decide)] at hv
    rw [row_pagedMqaLogitsRowwiseKernel, col_pagedMqaLogitsRowwiseKernel]
    split at hv
    · exact (Option.some.inj hv).symm
    · simp at hv
  covers := by
    intro row hrow col hcol
    have hc := Nat.div_add_mod' col 128
    refine ⟨_, mem_grid.mpr ⟨row, hrow, col / 128, div_lt_cdiv (by decide) hcol,
      List.mem_map_of_mem (List.mem_range.mpr (Nat.mod_lt col (by decide)))⟩, ?_, ?_, ?_⟩
    · rw [row_pagedMqaLogitsRowwiseKernel]
    · rw [col_pagedMqaLogitsRowwiseKernel, hc]
    · rw [stored_pagedMqaLogitsRowwiseKernel shape t tokenStart logitsWidth (by decide)
        (by decide), hc, if_pos ⟨hrow, hcol⟩]

end Lanes

/-! ### The wrappers -/

/-- A window inside the model's length is launched. -/
theorem launchWindow_stores {α : Type} (shape : Shape) {lanes : ℕ → ℕ → List (Lane α)}
    {value : ℕ → ℕ → WithBot α} {maxModelLen start count : ℕ}
    (hwindow : start + count ≤ maxModelLen)
    (hlanes : Stores (lanes start count) shape.numRows count value) :
    ∃ launched, launchWindow shape lanes maxModelLen start (some count) = some launched ∧
      Stores launched shape.numRows count value := by
  have hassert : (0 : ℤ) ≤ start ∧ (0 : ℤ) ≤ count ∧ (start : ℤ) + count ≤ maxModelLen := by omega
  unfold launchWindow
  rw [Option.getD_some, if_pos hassert, Int.toNat_natCast, Int.toNat_natCast]
  refine ⟨_, rfl, ?_⟩
  split
  next hempty =>
    constructor
    · intro lane hlane
      simp at hlane
    · intro row hrow col hcol
      omega
  next => exact hlanes

/-- Without a count the window runs to the model's length. -/
theorem launchWindow_none {α : Type} (shape : Shape) (lanes : ℕ → ℕ → List (Lane α))
    {maxModelLen start : ℕ} (hstart : start ≤ maxModelLen) :
    launchWindow shape lanes maxModelLen start none =
      launchWindow shape lanes maxModelLen start (some ((maxModelLen - start : ℕ) : ℤ)) := by
  simp [launchWindow, hstart]

section Wrappers
variable {α : Type} [CommRing α] [LinearOrder α] (shape : Shape) (t : Tensors α)

/-- **The wrapper** stores the window of the masked logits, with either kernel. -/
theorem fp8PagedMqaLogitsTriton_stores {maxModelLen start count : ℕ}
    (hwindow : start + count ≤ maxModelLen) :
    ∃ launched, fp8PagedMqaLogitsTriton shape t maxModelLen start (some count) = some launched ∧
      Stores launched shape.numRows count
        (fun row col => maskedLogit shape t row (start + col)) := by
  unfold fp8PagedMqaLogitsTriton
  split
  · exact launchWindow_stores shape hwindow (rowwiseLanes_stores shape t start count)
  · exact launchWindow_stores shape hwindow (genericLanes_stores shape t start count)

theorem fp8PagedMqaLogitsTriton_none {maxModelLen start : ℕ} (hstart : start ≤ maxModelLen) :
    fp8PagedMqaLogitsTriton shape t maxModelLen start none =
      fp8PagedMqaLogitsTriton shape t maxModelLen start (some ((maxModelLen - start : ℕ) : ℤ)) := by
  unfold fp8PagedMqaLogitsTriton fp8PagedMqaLogitsRowwiseTriton
  simp only [launchWindow_none shape _ hstart]

end Wrappers

/-! ### The reference -/

section Reference
variable {α : Type} [CommRing α] [LinearOrder α] (shape : Shape) (t : Tensors α)

omit [CommRing α] [LinearOrder α] in
theorem row_div_mod (batchIdx : ℕ) {nextIdx : ℕ} (hnext : nextIdx < shape.nextN) :
    (batchIdx * shape.nextN + nextIdx) / shape.nextN = batchIdx ∧
      (batchIdx * shape.nextN + nextIdx) % shape.nextN = nextIdx :=
  ⟨Enumeration.digits_div batchIdx hnext, Nat.mul_add_mod_of_lt hnext⟩

/-- The reference's logit of a token is the one that is meant. -/
theorem tokenLogit_eq {batchIdx nextIdx : ℕ} (hnext : nextIdx < shape.nextN) (p : ℕ) :
    tokenLogit shape t batchIdx nextIdx (batchIdx * shape.nextN + nextIdx) p =
      logit shape t (batchIdx * shape.nextN + nextIdx) p := by
  obtain ⟨hbatch, hpos⟩ := row_div_mod shape batchIdx hnext
  unfold tokenLogit logit
  simp only [hbatch, hpos, ← Nat.mod_eq_sub_div_mul]
  refine Finset.sum_congr rfl fun h _ => ?_
  rw [mul_comm, Finset.mul_sum]
  refine congrArg (fun x => t.weights _ h * max x 0) (Finset.sum_congr rfl fun d _ => ?_)
  ring

/-- The logits when the chunks of a row before a given one are assigned. -/
def rowLogits (logits : ℕ → ℕ → WithBot α) (row contextLen assigned : ℕ) : ℕ → ℕ → WithBot α :=
  fun r p => if r = row ∧ p < min contextLen assigned then (logit shape t row p : α) else logits r p

/-- **A pass** of the chunk loop assigns the next chunk of the row. -/
theorem torchChunk_eq {maxModelLen batchIdx nextIdx contextLen chunk pass : ℕ}
    (hnext : nextIdx < shape.nextN) (hlen : contextLen ≤ maxModelLen)
    (hpass : pass * chunk < contextLen) (logits : ℕ → ℕ → WithBot α) :
    torchChunk shape t maxModelLen batchIdx nextIdx contextLen chunk
        (rowLogits shape t logits (batchIdx * shape.nextN + nextIdx) contextLen (pass * chunk))
        pass =
      some (rowLogits shape t logits (batchIdx * shape.nextN + nextIdx) contextLen
        ((pass + 1) * chunk)) := by
  have hfits : min contextLen (pass * chunk + chunk) - pass * chunk =
      min (min contextLen (pass * chunk + chunk)) maxModelLen - min (pass * chunk) maxModelLen := by
    omega
  unfold torchChunk
  rw [if_pos (Or.inl hfits)]
  refine congrArg some ?_
  funext r p
  unfold rowLogits
  rw [Nat.succ_mul]
  by_cases hrow : r = batchIdx * shape.nextN + nextIdx
  · subst hrow
    simp only [tokenLogit_eq shape t hnext, true_and]
    split_ifs <;> first | rfl | omega
  · simp [hrow]

theorem rowLogits_zero (logits : ℕ → ℕ → WithBot α) (row contextLen : ℕ) :
    rowLogits shape t logits row contextLen 0 = logits := by
  funext r p
  simp [rowLogits]

/-- The logits when the rows before a given one are complete. -/
def rowsLogits (rows : ℕ) : ℕ → ℕ → WithBot α :=
  fun r p => if r < rows then maskedLogit shape t r p else ⊥

/-- **A row** of the reference. -/
theorem torchRow_eq {maxModelLen batchIdx nextIdx : ℕ} (hnext : nextIdx < shape.nextN)
    (hcontext : rowContext shape t (batchIdx * shape.nextN + nextIdx) =
      t.contextLens batchIdx nextIdx)
    (hlen : t.contextLens batchIdx nextIdx ≤ maxModelLen) :
    torchRow shape t maxModelLen (rowsLogits shape t (batchIdx * shape.nextN + nextIdx)) batchIdx
        nextIdx =
      some (rowsLogits shape t (batchIdx * shape.nextN + nextIdx + 1)) := by
  unfold torchRow
  generalize hrow : batchIdx * shape.nextN + nextIdx = row at hcontext
  have hchunk : 0 < max 1 (maxScoreBytes / max 1 (shape.numHeads * 4)) := by omega
  generalize max 1 (maxScoreBytes / max 1 (shape.numHeads * 4)) = chunk at hchunk
  by_cases hneg : t.contextLens batchIdx nextIdx ≤ 0
  · -- a row without a context keeps the initial `-inf`
    rw [if_pos hneg]
    refine congrArg some ?_
    funext r p
    unfold rowsLogits maskedLogit
    rcases Nat.lt_trichotomy r row with hlt | rfl | hgt
    · simp [hlt, Nat.lt_succ_of_lt hlt]
    · have hout : ¬ (p : ℤ) < rowContext shape t r := by omega
      simp [hout]
    · simp [show ¬ r < row by omega, show ¬ r < row + 1 by omega]
  · rw [if_neg hneg]
    obtain ⟨contextLen, hcl⟩ :=
      Int.eq_ofNat_of_zero_le (by omega : 0 ≤ t.contextLens batchIdx nextIdx)
    rw [hcl, Int.toNat_natCast]
    have hpasses := foldlM_range (n := cdiv contextLen chunk)
      (f := torchChunk shape t maxModelLen batchIdx nextIdx contextLen chunk)
      (fun pass => rowLogits shape t (rowsLogits shape t row) row contextLen (pass * chunk)) (by
        intro pass hpass
        rw [← hrow]
        exact torchChunk_eq shape t hnext (by omega) ((lt_cdiv_iff hchunk).mp hpass) _)
    simp only [Nat.zero_mul, rowLogits_zero] at hpasses
    rw [hpasses]
    refine congrArg some ?_
    funext r p
    have hall := le_cdiv_mul (n := contextLen) hchunk
    unfold rowLogits rowsLogits maskedLogit
    rcases Nat.lt_trichotomy r row with hlt | rfl | hgt
    · simp [hlt, Nat.lt_succ_of_lt hlt, hlt.ne]
    · rw [hcontext, hcl]
      simp [min_eq_left hall]
    · simp [show ¬ r < row by omega, show ¬ r < row + 1 by omega, hgt.ne']

/-- **The reference** computes the masked logits of every row. -/
theorem fp8PagedMqaLogitsTorch_eq {maxModelLen : ℕ} (hcolumns : t.contextColumns = shape.nextN)
    (hlens : ∀ row < shape.numRows, rowContext shape t row ≤ maxModelLen) :
    fp8PagedMqaLogitsTorch shape t maxModelLen = some (rowsLogits shape t shape.numRows) := by
  have hrow : ∀ batchIdx < shape.batchSize, ∀ nextIdx < shape.nextN,
      torchRow shape t maxModelLen (rowsLogits shape t (batchIdx * shape.nextN + nextIdx)) batchIdx
          nextIdx =
        some (rowsLogits shape t (batchIdx * shape.nextN + nextIdx + 1)) := by
    intro batchIdx hbatch nextIdx hnext
    have hnum : batchIdx * shape.nextN + nextIdx < shape.numRows := by
      have hle := Nat.mul_le_mul_right shape.nextN (Nat.succ_le_of_lt hbatch)
      rw [Nat.succ_mul] at hle
      unfold Shape.numRows
      omega
    have hcontext : rowContext shape t (batchIdx * shape.nextN + nextIdx) =
        t.contextLens batchIdx nextIdx := by
      obtain ⟨hdiv, hmod⟩ := row_div_mod shape batchIdx hnext
      have hexpand : ¬ (t.contextColumns = 1 ∧ shape.nextN ≠ 1) := by omega
      rw [rowContext, contextLens2d, if_neg hexpand, hdiv, hmod]
    exact torchRow_eq shape t hnext hcontext (hcontext ▸ hlens _ hnum)
  have hrequest : ∀ batchIdx < shape.batchSize,
      (List.range shape.nextN).foldlM
          (fun logits nextIdx => torchRow shape t maxModelLen logits batchIdx nextIdx)
          (rowsLogits shape t (batchIdx * shape.nextN)) =
        some (rowsLogits shape t ((batchIdx + 1) * shape.nextN)) := by
    intro batchIdx hbatch
    rw [Nat.succ_mul]
    exact foldlM_range (fun nextIdx => rowsLogits shape t (batchIdx * shape.nextN + nextIdx))
      (hrow batchIdx hbatch)
  have hinit : rowsLogits shape t (0 * shape.nextN) = fun _ _ => ⊥ := by
    funext r p
    simp [rowsLogits]
  unfold fp8PagedMqaLogitsTorch
  rw [if_pos hcolumns, ← hinit]
  exact foldlM_range (fun batchIdx => rowsLogits shape t (batchIdx * shape.nextN)) hrequest

end Reference

/-! ### Agreement -/

/-- A launch that goes through and leaves the given logits, in whatever order its programs
run. -/
def Computes {α : Type} (launched : Option (List (Lane α))) (numRows width : ℕ)
    (value : ℕ → ℕ → WithBot α) : Prop :=
  ∃ lanes, launched = some lanes ∧ ∀ order : List (Lane α), order.Perm lanes →
    ∀ row < numRows, ∀ col < width, logitsAfter order (row, col) = some (value row col)

theorem Computes.of_stores {α : Type} {launched : Option (List (Lane α))} {numRows width : ℕ}
    {value : ℕ → ℕ → WithBot α}
    (h : ∃ lanes, launched = some lanes ∧ Stores lanes numRows width value) :
    Computes launched numRows width value := by
  obtain ⟨lanes, hlaunched, hstores⟩ := h
  exact ⟨lanes, hlaunched, fun order horder row hrow col hcol =>
    hstores.logitsAfter_eq horder hrow hcol⟩

/-- **The implementations agree.**  On every window of the model's length the row-wise
kernel, the generic kernel and the wrapper that picks one of them compute the slice of the
masked logits; over the full length they compute what the torch reference computes. -/
theorem paged_mqa_logits_agree {α : Type} [CommRing α] [LinearOrder α] (shape : Shape)
    (t : Tensors α) (maxModelLen : ℕ)
    (hlens : ∀ row < shape.numRows, rowContext shape t row ≤ maxModelLen) :
    (∀ start count : ℕ, start + count ≤ maxModelLen →
      let slice := fun row col => maskedLogit shape t row (start + col)
      Computes (fp8PagedMqaLogitsRowwiseTriton shape t maxModelLen start (some count))
        shape.numRows count slice ∧
      Computes (launchWindow shape (genericLanes shape t) maxModelLen start (some count))
        shape.numRows count slice ∧
      Computes (fp8PagedMqaLogitsTriton shape t maxModelLen start (some count))
        shape.numRows count slice) ∧
    Computes (fp8PagedMqaLogitsRowwiseTriton shape t maxModelLen 0 none) shape.numRows maxModelLen
      (maskedLogit shape t) ∧
    Computes (launchWindow shape (genericLanes shape t) maxModelLen 0 none) shape.numRows
      maxModelLen (maskedLogit shape t) ∧
    Computes (fp8PagedMqaLogitsTriton shape t maxModelLen 0 none) shape.numRows maxModelLen
      (maskedLogit shape t) ∧
    (t.contextColumns = shape.nextN →
      ∃ logits, fp8PagedMqaLogitsTorch shape t maxModelLen = some logits ∧
        ∀ row < shape.numRows, ∀ p, logits row p = maskedLogit shape t row p) := by
  have hwindow : ∀ start count : ℕ, start + count ≤ maxModelLen →
      let slice := fun row col => maskedLogit shape t row (start + col)
      Computes (fp8PagedMqaLogitsRowwiseTriton shape t maxModelLen start (some count))
        shape.numRows count slice ∧
      Computes (launchWindow shape (genericLanes shape t) maxModelLen start (some count))
        shape.numRows count slice ∧
      Computes (fp8PagedMqaLogitsTriton shape t maxModelLen start (some count))
        shape.numRows count slice := by
    intro start count hfits
    exact ⟨.of_stores (launchWindow_stores shape hfits (rowwiseLanes_stores shape t start count)),
      .of_stores (launchWindow_stores shape hfits (genericLanes_stores shape t start count)),
      .of_stores (fp8PagedMqaLogitsTriton_stores shape t hfits)⟩
  refine ⟨hwindow, ?_⟩
  obtain ⟨hrowwise, hgeneric, htriton⟩ := hwindow 0 maxModelLen (by omega)
  simp only [Nat.zero_add] at hrowwise hgeneric htriton
  refine ⟨?_, ?_, ?_, ?_⟩
  · have hnone := launchWindow_none shape (rowwiseLanes shape t) (Nat.zero_le maxModelLen)
    unfold fp8PagedMqaLogitsRowwiseTriton at hrowwise ⊢
    exact hnone ▸ hrowwise
  · exact launchWindow_none shape (genericLanes shape t) (Nat.zero_le maxModelLen) ▸ hgeneric
  · exact fp8PagedMqaLogitsTriton_none shape t (Nat.zero_le maxModelLen) ▸ htriton
  · intro hcolumns
    refine ⟨_, fp8PagedMqaLogitsTorch_eq shape t hcolumns hlens, fun row hrow p => ?_⟩
    rw [rowsLogits, if_pos hrow]

/-- One request with two next tokens, three pages of two slots in the order 2, 0, 1. -/
def speculativeShape : Shape := ⟨1, 2, 1, 2, 2⟩

def speculativeTensors : Tensors ℤ where
  q _ next _ d := next + d + 1
  kvValues page slot d := page + slot - d
  kvScale page _ := page + 1
  weights row _ := row + 2
  contextLens _ next := next + 4
  contextColumns := 2
  blockTables _ rank := [2, 0, 1].getD rank 7

/-- The window from position 3 starts inside a page, and the second row sees one position
more than the first. -/
theorem paged_mqa_logits_agree_speculative :
    (∀ row < speculativeShape.numRows, rowContext speculativeShape speculativeTensors row ≤ 5) ∧
    ∃ lanes, fp8PagedMqaLogitsTriton speculativeShape speculativeTensors 5 3 (some 2) = some lanes ∧
      logitsAfter lanes.reverse (0, 0) = some ((2 : ℤ) : WithBot ℤ) ∧
      logitsAfter lanes.reverse (0, 1) = some ⊥ ∧
      logitsAfter lanes.reverse (1, 1) = some ((12 : ℤ) : WithBot ℤ) := by
  have hlens : ∀ row < speculativeShape.numRows,
      rowContext speculativeShape speculativeTensors row ≤ 5 := by decide
  refine ⟨hlens, ?_⟩
  obtain ⟨hwindows, -⟩ := paged_mqa_logits_agree speculativeShape speculativeTensors 5 hlens
  obtain ⟨lanes, hlanes, hvalue⟩ := (hwindows 3 2 (by decide)).2.2
  refine ⟨lanes, hlanes, ?_, ?_, ?_⟩
  · exact (hvalue _ lanes.reverse_perm 0 (by decide) 0 (by decide)).trans (by decide)
  · exact (hvalue _ lanes.reverse_perm 0 (by decide) 1 (by decide)).trans (by decide)
  · exact (hvalue _ lanes.reverse_perm 1 (by decide) 1 (by decide)).trans (by decide)

end Glm52.PagedMqa
