import Glm52.Arena
import Glm52.PrefillGather
import Glm52.TensorShape
import Mathlib.Algebra.Order.BigOperators.Group.List

/-! # The workspace of the prefill gather

The gathered K rows and scale rows of a chunk live in one shared arena.  A request for
buffers returns views packed from its start, so the local staging buffers, requested
second, overlap the global buffers of the first request.

Two questions.  Are the staging buffers large enough for a rank's share of a chunk?
They hold `ceil(total_seq_lens / N)` rows, the share of one request of the whole
length; a share rounds up request by request and can be larger (`staging_fits_iff`).
And does the overlap destroy anything?  Staging is over before the global buffers are
written, and a skipped chunk stages nothing, so the rows that the logits kernel reads
are those gathered last (`prefill_reads_last_gathered`). -/
namespace Glm52
open Arena Ragged TensorShape

/-! ### Staging -/

/-- The rows of `k_quant_local_full[:_lt]`. -/
def stagedRows (N totalSeqLens : ℕ) (md : ChunkMetadata) : ℕ :=
  sliceLen (lcap N totalSeqLens) 0 md.dcpLocalTotalSeqLens

/-- Rank `r`'s share of a chunk is within the staging buffers: the slice of its first
`_lt` rows has that many, as declared for the rank to `all_gatherv`. -/
def StagingFits (N totalSeqLens r : ℕ) (c : ChunkLens) : Prop :=
  let md := buildPrefillChunkMetadata N r c
  md.dcpLocalTotalSeqLens ≤ lcap N totalSeqLens ∧
  stagedRows N totalSeqLens md = md.dcpLocalTotalSeqLens ∧
  (chunkSizes N c.seqLensCpu)[r]? = some (stagedRows N totalSeqLens md)

instance (N totalSeqLens r : ℕ) (c : ChunkLens) : Decidable (StagingFits N totalSeqLens r c) :=
  inferInstanceAs (Decidable (_ ∧ _ ∧ _))

/-- The rows that round every length up to a multiple of `N`. -/
def padding (N : ℕ) (gs : List ℕ) : ℕ := (gs.map (fun g => (N - g % N) % N)).sum

section Staging
variable {N : ℕ}

theorem dcpLocalTotalSeqLens_eq (hN : 2 ≤ N) (r : ℕ) (c : ChunkLens) :
    (buildPrefillChunkMetadata N r c).dcpLocalTotalSeqLens =
      (c.seqLensCpu.map (fun g => own N g r)).sum := by
  rw [buildPrefillChunkMetadata, if_pos (show 1 < N by omega)]

/-- The two agreements follow from the bound. -/
theorem stagingFits_iff_le (hN : 2 ≤ N) {totalSeqLens r : ℕ} (hr : r < N) (c : ChunkLens) :
    StagingFits N totalSeqLens r c ↔
      (c.seqLensCpu.map (fun g => own N g r)).sum ≤ lcap N totalSeqLens := by
  rw [← dcpLocalTotalSeqLens_eq hN]
  constructor
  · exact fun h => h.1
  · intro hle
    have hrows : stagedRows N totalSeqLens (buildPrefillChunkMetadata N r c) =
        (buildPrefillChunkMetadata N r c).dcpLocalTotalSeqLens := by
      unfold stagedRows sliceLen
      omega
    exact ⟨hle, hrows, by rw [getElem?_chunkSizes hN hr, hrows]⟩

/-- A share in rows: the full rounds of every request, and one row more for each
request whose last round reaches the rank. -/
theorem mul_sum_own (r : ℕ) (gs : List ℕ) :
    N * (gs.map (fun g => own N g r)).sum + (gs.map (· % N)).sum =
      gs.sum + N * gs.countP (fun g => r < g % N) := by
  induction gs with
  | nil => simp
  | cons g gs ih =>
    have hdiv := Nat.div_add_mod g N
    simp only [List.map_cons, List.sum_cons]
    rw [own_eq, Nat.mul_add, Nat.mul_add]
    by_cases hr : r < g % N
    · rw [List.countP_cons_of_pos (by simpa using hr), if_pos hr, Nat.mul_add]
      omega
    · rw [List.countP_cons_of_neg (by simpa using hr), if_neg hr, Nat.mul_zero]
      omega

/-- **A rank's share fits exactly when the rows that its requests add to their full
rounds do.** -/
theorem sum_own_le_lcap_iff (hN : 0 < N) {totalSeqLens : ℕ} (r : ℕ) {gs : List ℕ}
    (hsum : gs.sum ≤ totalSeqLens) :
    (gs.map (fun g => own N g r)).sum ≤ lcap N totalSeqLens ↔
      N * gs.countP (fun g => r < g % N) ≤
        (totalSeqLens - gs.sum) + (gs.map (· % N)).sum + (N - 1) := by
  have hshare := mul_sum_own (N := N) r gs
  rw [lcap, Nat.le_div_iff_mul_le hN, Nat.mul_comm _ N]
  omega

/-- Rank 0 has the largest share. -/
theorem sum_own_le_zero (r : ℕ) (gs : List ℕ) :
    (gs.map (fun g => own N g r)).sum ≤ (gs.map (fun g => own N g 0)).sum := by
  refine List.sum_le_sum (fun g _ => ?_)
  rw [own_eq, own_eq]
  split
  · next hr => rw [if_pos (by omega)]
  · exact Nat.add_le_add_left (Nat.zero_le _) _

/-- What rank 0 adds to the full rounds is the padding. -/
theorem mul_countP_zero (hN : 0 < N) (gs : List ℕ) :
    N * gs.countP (fun g => 0 < g % N) = padding N gs + (gs.map (· % N)).sum := by
  unfold padding
  induction gs with
  | nil => simp
  | cons g gs ih =>
    have hmod := Nat.mod_lt g hN
    simp only [List.map_cons, List.sum_cons]
    by_cases hg : 0 < g % N
    · rw [List.countP_cons_of_pos (by simpa using hg), Nat.mul_add,
        Nat.mod_eq_of_lt (show N - g % N < N by omega)]
      omega
    · have hzero : g % N = 0 := by omega
      rw [List.countP_cons_of_neg (by simpa using hg), hzero, Nat.sub_zero, Nat.mod_self]
      omega

end Staging

/-- **When the staging buffers are large enough.** For a chunk within the workspace,
rank `r`'s share fits exactly when the requests whose last round reaches the rank do
not outweigh what the rounding up of the capacity leaves; all shares fit exactly when
rounding up every request to a multiple of `N` takes at most the rows left in the
workspace and `N - 1` more. -/
theorem staging_fits_iff {N : ℕ} (hN : 2 ≤ N) {totalSeqLens : ℕ} (c : ChunkLens)
    (hsum : c.seqLensCpu.sum ≤ totalSeqLens) :
    (∀ r < N, StagingFits N totalSeqLens r c ↔
      N * c.seqLensCpu.countP (fun g => r < g % N) ≤
        (totalSeqLens - c.seqLensCpu.sum) + (c.seqLensCpu.map (· % N)).sum + (N - 1)) ∧
    ((∀ r < N, StagingFits N totalSeqLens r c) ↔
      padding N c.seqLensCpu ≤ (totalSeqLens - c.seqLensCpu.sum) + (N - 1)) := by
  have hpos : 0 < N := by omega
  constructor
  · intro r hr
    rw [stagingFits_iff_le hN hr, sum_own_le_lcap_iff hpos r hsum]
  · have hzero := sum_own_le_lcap_iff hpos 0 hsum
    rw [mul_countP_zero hpos] at hzero
    constructor
    · intro hall
      have hle := hzero.mp ((stagingFits_iff_le hN hpos c).mp (hall 0 hpos))
      omega
    · intro hpad r hr
      rw [stagingFits_iff_le hN hr]
      exact le_trans (sum_own_le_zero r _) (hzero.mpr (by omega))

/-- One request of the whole length fits, its padding of one row is within the round. -/
theorem staging_fits_iff_one_request :
    padding 4 [7] = 1 ∧ ∀ r < 4, StagingFits 4 7 r ⟨[7], [7], false⟩ :=
  ⟨rfl, (staging_fits_iff (show 2 ≤ 4 by decide) ⟨[7], [7], false⟩ le_rfl).2.mpr (by decide)⟩

/-- Two requests of one row, over two ranks: both rows are rank 0's, and its staging
buffer has one. -/
theorem staging_overflows_short_requests : ¬ StagingFits 2 2 0 ⟨[1, 1], [1, 1], false⟩ := by
  decide

/-! ### The arena -/

/-- The two buffers of a request: K rows of `wq` cells and scale rows of `ws`. -/
structure KBuffers (wq ws : ℕ) where
  kQuant : View wq
  kScale : View ws

/-- `buffers[:n]`, of both. -/
def KBuffers.take {wq ws : ℕ} (b : KBuffers wq ws) (n : ℕ) : KBuffers wq ws :=
  ⟨b.kQuant.take n, b.kScale.take n⟩

/-- `get_simultaneous(values_spec, scales_spec)` for `rows` rows: the views are packed
from the start of the arena, the second one behind the first one's size as `align`
rounds it up. -/
def getSimultaneous (align : ℕ → ℕ) (wq ws rows : ℕ) : KBuffers wq ws :=
  ⟨⟨0, rows⟩, ⟨align (rows * wq), rows⟩⟩

/-- A chunk of requests: their K rows, each with its scale row, and whether the chunk
reuses the rows gathered before. -/
structure KvChunk (β : Type) (wq ws : ℕ) where
  reqs : List (List ((Fin wq → β) × (Fin ws → β)))
  skipKvGather : Bool

section Chunk
variable {β : Type} {wq ws : ℕ}

/-- The lengths that the builder sees. -/
def KvChunk.lens (c : KvChunk β wq ws) : ChunkLens :=
  ⟨c.reqs.map List.length, c.reqs.map List.length, c.skipKvGather⟩

def KvChunk.totalSeqLens (c : KvChunk β wq ws) : ℕ := (c.reqs.map List.length).sum

def KvChunk.kRows (c : KvChunk β wq ws) : List (List (Fin wq → β)) :=
  c.reqs.map (List.map Prod.fst)

def KvChunk.scaleRows (c : KvChunk β wq ws) : List (List (Fin ws → β)) :=
  c.reqs.map (List.map Prod.snd)

/-- `cp_gather_indexer_k_quant_cache(kv_cache, k, scale, ..)`: the rows and their
scales, one buffer after the other. -/
def cpGather (b : KBuffers wq ws) (k : List (Fin wq → β)) (scale : List (Fin ws → β))
    (arena : ℕ → β) : ℕ → β :=
  b.kScale.write scale (b.kQuant.write k arena)

/-- `torch.index_select(x, 0, ridx, out=view)` into each rank's arena; the output has
to have a row for each index. -/
def indexSelectInto {w : ℕ} (x : List (Fin w → β)) (ridx : List ℕ) (out : View w)
    (arenas : ℕ → ℕ → β) : Option (ℕ → ℕ → β) := do
  let rows ← indexSelect x ridx
  if rows.length = out.rows then some (fun r => out.write rows (arenas r)) else none

/-- The gather of a chunk by the `N` ranks, each with its own arena.  With one rank the
rows are gathered straight into the global buffers.  With more, every rank stages its
shard in its local buffers, both stages are gathered from all ranks, and only then the
global buffers are written. -/
def gatherChunk (align : ℕ → ℕ) (N totalSeqLens : ℕ) (c : KvChunk β wq ws)
    (arenas : ℕ → ℕ → β) : Option (ℕ → ℕ → β) := do
  let full := (getSimultaneous align wq ws totalSeqLens).take c.totalSeqLens
  if N ≤ 1 then
    some (fun r => cpGather full c.kRows.flatten c.scaleRows.flatten (arenas r))
  else
    let localFull := getSimultaneous align wq ws (lcap N totalSeqLens)
    let lt := fun r => (buildPrefillChunkMetadata N r c.lens).dcpLocalTotalSeqLens
    let loc := fun r => localFull.take (lt r)
    let staged := fun r =>
      if 0 < lt r then
        cpGather (loc r) (stage N c.kRows r) (stage N c.scaleRows r) (arenas r)
      else arenas r
    let sizes := chunkSizes N c.lens.seqLensCpu
    let kqAll ← allGatherv sizes
      ((List.range N).map (fun r => (loc r).kQuant.read (staged r)))
    let ksAll ← allGatherv sizes
      ((List.range N).map (fun r => (loc r).kScale.read (staged r)))
    -- from here on the global buffers are written, over the staging buffers
    let ridx := reasmIdx (seqLensAllranks N c.lens.seqLensCpu) N
    let arenas ← indexSelectInto kqAll ridx full.kQuant staged
    indexSelectInto ksAll ridx full.kScale arenas

/-- The K rows and the scale rows that a rank's logits kernel reads for a chunk. -/
def logitsRows (align : ℕ → ℕ) (totalSeqLens : ℕ) (c : KvChunk β wq ws) (arena : ℕ → β) :
    List (Fin wq → β) × List (Fin ws → β) :=
  let full := (getSimultaneous align wq ws totalSeqLens).take c.totalSeqLens
  (full.kQuant.read arena, full.kScale.read arena)

/-- A skipped chunk gathers nothing. -/
def prefillStep (align : ℕ → ℕ) (N totalSeqLens : ℕ) (c : KvChunk β wq ws)
    (arenas : ℕ → ℕ → β) : Option (ℕ → ℕ → β) :=
  if c.skipKvGather then some arenas else gatherChunk align N totalSeqLens c arenas

/-- The loop over the chunks: what the ranks' logits kernels read in each. -/
def prefillLoop (align : ℕ → ℕ) (N totalSeqLens : ℕ) :
    List (KvChunk β wq ws) → (ℕ → ℕ → β) →
      Option (List (ℕ → List (Fin wq → β) × List (Fin ws → β)))
  | [], _ => some []
  | c :: chunks, arenas => do
    let arenas ← prefillStep align N totalSeqLens c arenas
    let reads ← prefillLoop align N totalSeqLens chunks arenas
    some ((fun r => logitsRows align totalSeqLens c (arenas r)) :: reads)

/-! ### What the logits kernel reads -/

/-- A chunk that the buffers are made for: its rows are within the workspace, and every
rank's share is within the staging buffers. -/
def Fits (N totalSeqLens : ℕ) (c : KvChunk β wq ws) : Prop :=
  c.totalSeqLens ≤ totalSeqLens ∧
  ∀ r < N, (buildPrefillChunkMetadata N r c.lens).dcpLocalTotalSeqLens ≤ lcap N totalSeqLens

/-- The global buffers of a rank hold a chunk's rows. -/
def HoldsChunk (align : ℕ → ℕ) (totalSeqLens : ℕ) (c : KvChunk β wq ws) (arena : ℕ → β) :
    Prop :=
  logitsRows align totalSeqLens c arena = (c.kRows.flatten, c.scaleRows.flatten)

theorem KvChunk.length_kRows (c : KvChunk β wq ws) :
    c.kRows.flatten.length = c.totalSeqLens := by
  simp [KvChunk.kRows, KvChunk.totalSeqLens, List.length_flatten, Function.comp_def]

theorem KvChunk.length_scaleRows (c : KvChunk β wq ws) :
    c.scaleRows.flatten.length = c.totalSeqLens := by
  simp [KvChunk.scaleRows, KvChunk.totalSeqLens, List.length_flatten,
    Function.comp_def]

theorem KvChunk.map_length_kRows (c : KvChunk β wq ws) :
    c.kRows.map List.length = c.lens.seqLensCpu := by
  simp [KvChunk.kRows, KvChunk.lens, Function.comp_def]

theorem KvChunk.map_length_scaleRows (c : KvChunk β wq ws) :
    c.scaleRows.map List.length = c.lens.seqLensCpu := by
  simp [KvChunk.scaleRows, KvChunk.lens, Function.comp_def]

section Buffers
variable {align : ℕ → ℕ} (halign : ∀ n, n ≤ align n)
include halign

/-- The two buffers of a request share no cell, nor do slices of them. -/
theorem getSimultaneous_disjoint (rows n : ℕ) :
    let b := (getSimultaneous align wq ws rows).take n
    b.kQuant.Disjoint b.kScale := by
  refine Or.inl (le_trans (View.stop_take_le _ n) ?_)
  show 0 + rows * wq ≤ align (rows * wq)
  rw [Nat.zero_add]
  exact halign _

/-- What is gathered into both buffers is read back from both. -/
theorem read_cpGather (rows n : ℕ) {k : List (Fin wq → β)} {scale : List (Fin ws → β)}
    (arena : ℕ → β) :
    let b := (getSimultaneous align wq ws rows).take n
    k.length = b.kQuant.rows → scale.length = b.kScale.rows →
    b.kQuant.read (cpGather b k scale arena) = k ∧
      b.kScale.read (cpGather b k scale arena) = scale := by
  intro b hk hscale
  constructor
  · rw [cpGather, View.read_write_of_disjoint (getSimultaneous_disjoint halign rows n).symm,
      View.read_write hk]
  · exact View.read_write hscale _

/-- A rank's stages read back as its shards of the rows and of the scales. -/
theorem read_staged {N totalSeqLens r : ℕ} (hN : 2 ≤ N) (hr : r < N) {c : KvChunk β wq ws}
    (hfits : Fits N totalSeqLens c) (arena : ℕ → β) :
    let lt := (buildPrefillChunkMetadata N r c.lens).dcpLocalTotalSeqLens
    let loc := (getSimultaneous align wq ws (lcap N totalSeqLens)).take lt
    let staged := if 0 < lt then
      cpGather loc (stage N c.kRows r) (stage N c.scaleRows r) arena else arena
    loc.kQuant.read staged = stage N c.kRows r ∧
      loc.kScale.read staged = stage N c.scaleRows r := by
  intro lt loc staged
  have hlt : lt = (c.lens.seqLensCpu.map (fun g => own N g r)).sum :=
    dcpLocalTotalSeqLens_eq hN r c.lens
  have hk : (stage N c.kRows r).length = lt := by
    rw [length_stage hr, c.map_length_kRows, hlt]
  have hscale : (stage N c.scaleRows r).length = lt := by
    rw [length_stage hr, c.map_length_scaleRows, hlt]
  have hrows : min lt (lcap N totalSeqLens) = lt := min_eq_left (hfits.2 r hr)
  by_cases hpos : 0 < lt
  · simp only [staged, if_pos hpos]
    exact read_cpGather halign _ _ arena (hk.trans hrows.symm) (hscale.trans hrows.symm)
  · -- a rank without rows stages nothing, and its views have no rows
    have hzero : lt = 0 := by omega
    have hnone : ∀ {w : ℕ} (v : View w), v.rows = 0 → v.read staged = [] :=
      fun v hv => List.eq_nil_of_length_eq_zero (by rw [View.length_read, hv])
    rw [hzero] at hk hscale
    rw [List.eq_nil_of_length_eq_zero hk, List.eq_nil_of_length_eq_zero hscale]
    exact ⟨hnone _ (hrows.trans hzero), hnone _ (hrows.trans hzero)⟩

/-- **A gathered chunk is in the global buffers of every rank**, whatever the arenas
held before. -/
theorem gatherChunk_holds {N totalSeqLens : ℕ} (hN : 0 < N) {c : KvChunk β wq ws}
    (hfits : Fits N totalSeqLens c) (arenas : ℕ → ℕ → β) :
    ∃ arenas', gatherChunk align N totalSeqLens c arenas = some arenas' ∧
      ∀ r < N, HoldsChunk align totalSeqLens c (arenas' r) := by
  have hrows : min c.totalSeqLens totalSeqLens = c.totalSeqLens := min_eq_left hfits.1
  have hholds : ∀ arena : ℕ → β, HoldsChunk align totalSeqLens c
      (cpGather ((getSimultaneous align wq ws totalSeqLens).take c.totalSeqLens) c.kRows.flatten
        c.scaleRows.flatten arena) := by
    intro arena
    obtain ⟨hk, hscale⟩ := read_cpGather halign totalSeqLens c.totalSeqLens arena
      (c.length_kRows.trans hrows.symm) (c.length_scaleRows.trans hrows.symm)
    exact Prod.ext hk hscale
  unfold gatherChunk
  by_cases hone : N ≤ 1
  · exact ⟨_, if_pos hone, fun r _ => hholds _⟩
  · -- the collectives read every rank's stages before a global buffer is written
    have hread := fun r (hr : r ∈ List.range N) =>
      read_staged halign (by omega) (List.mem_range.mp hr) hfits (arenas r)
    have hk := allGatherv_stages (N := N) c.kRows
    have hscale := allGatherv_stages (N := N) c.scaleRows
    have hkSelect := indexSelect_reasmIdx hN c.kRows
    have hscaleSelect := indexSelect_reasmIdx hN c.scaleRows
    rw [c.map_length_kRows] at hk hkSelect
    rw [c.map_length_scaleRows] at hscale hscaleSelect
    simp only [if_neg hone]
    rw [List.map_congr_left (fun r hr => (hread r hr).1),
      List.map_congr_left (fun r hr => (hread r hr).2)]
    simp only [chunkSizes, hk, hscale, Option.bind_eq_bind, Option.bind_some, indexSelectInto,
      hkSelect, hscaleSelect]
    have hkOut : c.kRows.flatten.length =
        ((getSimultaneous align wq ws totalSeqLens).take c.totalSeqLens).kQuant.rows :=
      c.length_kRows.trans hrows.symm
    have hscaleOut : c.scaleRows.flatten.length =
        ((getSimultaneous align wq ws totalSeqLens).take c.totalSeqLens).kScale.rows :=
      c.length_scaleRows.trans hrows.symm
    simp only [if_pos hkOut, if_pos hscaleOut, Option.bind_some]
    exact ⟨_, rfl, fun r _ => hholds _⟩

end Buffers

/-- The chunk gathered last. -/
def lastGathered (chunks : List (KvChunk β wq ws)) : Option (KvChunk β wq ws) :=
  (chunks.filter (fun c => !c.skipKvGather)).getLast?

/-- What is read for a chunk are the rows of `last`, as far as both go; all of them for
a chunk with as many rows. -/
def ReadsRows (last c : KvChunk β wq ws)
    (read : List (Fin wq → β) × List (Fin ws → β)) : Prop :=
  read.1.take last.totalSeqLens = last.kRows.flatten.take c.totalSeqLens ∧
  read.2.take last.totalSeqLens = last.scaleRows.flatten.take c.totalSeqLens ∧
  (c.totalSeqLens = last.totalSeqLens → read = (last.kRows.flatten, last.scaleRows.flatten))

theorem lastGathered_singleton {c : KvChunk β wq ws} (hc : c.skipKvGather = false) :
    lastGathered [c] = some c := by
  simp [lastGathered, hc]

/-- A skipped chunk does not count. -/
theorem lastGathered_skip (last : KvChunk β wq ws) {c : KvChunk β wq ws}
    (hc : c.skipKvGather = true) (chunks : List (KvChunk β wq ws)) :
    lastGathered (last :: c :: chunks) = lastGathered (last :: chunks) := by
  simp [lastGathered, List.filter_cons, hc]

/-- What came before a gathered chunk does not count. -/
theorem lastGathered_gather (last : KvChunk β wq ws) {c : KvChunk β wq ws}
    (hc : c.skipKvGather = false) (chunks : List (KvChunk β wq ws)) :
    lastGathered (last :: c :: chunks) = lastGathered (c :: chunks) := by
  unfold lastGathered
  rw [List.filter_cons]
  split
  · rw [List.filter_cons, hc]
    rfl
  · rfl

/-- Buffers that hold a chunk's rows give every chunk those rows. -/
theorem HoldsChunk.reads {align : ℕ → ℕ} {totalSeqLens : ℕ} {last : KvChunk β wq ws}
    {arena : ℕ → β} (h : HoldsChunk align totalSeqLens last arena) (c : KvChunk β wq ws) :
    ReadsRows last c (logitsRows align totalSeqLens c arena) := by
  have hk : (logitsRows align totalSeqLens last arena).1 = last.kRows.flatten := congrArg Prod.fst h
  have hscale : (logitsRows align totalSeqLens last arena).2 = last.scaleRows.flatten :=
    congrArg Prod.snd h
  refine ⟨?_, ?_, fun heq => ?_⟩
  · rw [← hk]
    exact View.read_take_take _ _ _ arena
  · rw [← hscale]
    exact View.read_take_take _ _ _ arena
  · rw [← h, logitsRows, logitsRows, heq]

/-- The loop over `chunks` goes through, and reads in each chunk the rows of the chunk
gathered last, `last` being gathered before. -/
def LoopReads (align : ℕ → ℕ) (N totalSeqLens : ℕ) (last : KvChunk β wq ws)
    (chunks : List (KvChunk β wq ws)) (arenas : ℕ → ℕ → β) : Prop :=
  ∃ reads, prefillLoop align N totalSeqLens chunks arenas = some reads ∧
    ∀ i c, chunks[i]? = some c → ∃ read l, reads[i]? = some read ∧
      lastGathered (last :: chunks.take (i + 1)) = some l ∧ ∀ r < N, ReadsRows l c (read r)

/-- One chunk of the loop, after whose step the buffers hold the rows of `next`. -/
theorem prefillLoop_cons {align : ℕ → ℕ} {N totalSeqLens : ℕ} {first next : KvChunk β wq ws}
    {chunks : List (KvChunk β wq ws)} {arenas arenas' : ℕ → ℕ → β}
    (hstep : prefillStep align N totalSeqLens first arenas = some arenas')
    (hnext : next.skipKvGather = false)
    (hholds : ∀ r < N, HoldsChunk align totalSeqLens next (arenas' r))
    (hrest : LoopReads align N totalSeqLens next chunks arenas') :
    ∃ reads, prefillLoop align N totalSeqLens (first :: chunks) arenas = some reads ∧
      ∀ i c, (first :: chunks)[i]? = some c → ∃ read l, reads[i]? = some read ∧
        lastGathered (next :: chunks.take i) = some l ∧ ∀ r < N, ReadsRows l c (read r) := by
  obtain ⟨reads, hloop, hreads⟩ := hrest
  refine ⟨(fun r => logitsRows align totalSeqLens first (arenas' r)) :: reads, ?_, ?_⟩
  · rw [prefillLoop, hstep]
    simp only [Option.bind_eq_bind, Option.bind_some, hloop]
  · intro i c hi
    cases i with
    | zero =>
      obtain rfl : first = c := by simpa using hi
      exact ⟨_, next, rfl, lastGathered_singleton hnext, fun r hr => (hholds r hr).reads first⟩
    | succ i => exact hreads i c hi

/-- **The loop**, from buffers that hold the rows of the chunk gathered last. -/
theorem prefillLoop_reads {align : ℕ → ℕ} (halign : ∀ n, n ≤ align n) {N totalSeqLens : ℕ}
    (hN : 0 < N) {chunks : List (KvChunk β wq ws)}
    (hfits : ∀ c ∈ chunks, c.skipKvGather = false → Fits N totalSeqLens c)
    {last : KvChunk β wq ws} (hlast : last.skipKvGather = false) {arenas : ℕ → ℕ → β}
    (hholds : ∀ r < N, HoldsChunk align totalSeqLens last (arenas r)) :
    LoopReads align N totalSeqLens last chunks arenas := by
  induction chunks generalizing last arenas with
  | nil =>
    refine ⟨[], rfl, fun i c hi => ?_⟩
    rw [List.getElem?_nil] at hi
    cases hi
  | cons first chunks ih =>
    have hrest := fun c hc => hfits c (List.mem_cons_of_mem first hc)
    cases hskip : first.skipKvGather with
    | true =>
      -- a skipped chunk reads what `last` has left in the buffers
      obtain ⟨reads, hloop, hreads⟩ := prefillLoop_cons (if_pos hskip) hlast hholds
        (ih hrest hlast hholds)
      refine ⟨reads, hloop, fun i c hi => ?_⟩
      rw [List.take_succ_cons, lastGathered_skip last hskip]
      exact hreads i c hi
    | false =>
      -- a gathered chunk takes the place of `last`
      obtain ⟨arenas', hgather, hholds'⟩ :=
        gatherChunk_holds halign hN (hfits first List.mem_cons_self hskip) arenas
      have hstep : prefillStep align N totalSeqLens first arenas = some arenas' := by
        rw [prefillStep, hskip, if_neg Bool.false_ne_true, hgather]
      obtain ⟨reads, hloop, hreads⟩ := prefillLoop_cons hstep hskip hholds'
        (ih hrest hskip hholds')
      refine ⟨reads, hloop, fun i c hi => ?_⟩
      rw [List.take_succ_cons, lastGathered_gather last hskip]
      exact hreads i c hi

end Chunk

/-- **The overlap of the staging buffers with the global buffers is harmless.** For
every sequence of chunks that starts with a gathered one, and whose gathered chunks fit
the buffers, the loop goes through, and in each chunk every rank's logits kernel reads
the rows of the chunk gathered last. -/
theorem prefill_reads_last_gathered {β : Type} {wq ws : ℕ} {align : ℕ → ℕ}
    (halign : ∀ n, n ≤ align n) {N totalSeqLens : ℕ} (hN : 0 < N)
    {first : KvChunk β wq ws} (hfirst : first.skipKvGather = false)
    {chunks : List (KvChunk β wq ws)}
    (hfits : ∀ c ∈ first :: chunks, c.skipKvGather = false → Fits N totalSeqLens c)
    (arenas : ℕ → ℕ → β) :
    ∃ reads, prefillLoop align N totalSeqLens (first :: chunks) arenas = some reads ∧
      ∀ i c, (first :: chunks)[i]? = some c → ∃ read last, reads[i]? = some read ∧
        lastGathered ((first :: chunks).take (i + 1)) = some last ∧
        ∀ r < N, ReadsRows last c (read r) := by
  obtain ⟨arenas', hgather, hholds⟩ :=
    gatherChunk_holds halign hN (hfits first List.mem_cons_self hfirst) arenas
  have hstep : prefillStep align N totalSeqLens first arenas = some arenas' := by
    rw [prefillStep, hfirst, if_neg Bool.false_ne_true, hgather]
  exact prefillLoop_cons hstep hfirst hholds (prefillLoop_reads halign hN
    (fun c hc => hfits c (List.mem_cons_of_mem first hc)) hfirst hholds)

/-- A chunk of one row, gathered by two ranks and read again by a second chunk. -/
theorem prefill_reads_last_gathered_twice :
    let row : (Fin 1 → ℕ) × (Fin 1 → ℕ) := (fun _ => 7, fun _ => 9)
    ∃ reads, prefillLoop id 2 2 [⟨[[row]], false⟩, ⟨[[row]], true⟩] (fun _ _ => 0) = some reads ∧
      ∃ read, reads[1]? = some read ∧ read 1 = ([fun _ => 7], [fun _ => 9]) := by
  intro row
  have hfits : ∀ c ∈ [KvChunk.mk [[row]] false, ⟨[[row]], true⟩], c.skipKvGather = false →
      Fits 2 2 c := by
    intro c hc hskip
    rcases List.mem_pair.mp hc with rfl | rfl
    · exact ⟨by decide, by decide⟩
    · cases hskip
  obtain ⟨reads, hrun, hreads⟩ := prefill_reads_last_gathered (fun n => le_rfl)
    (show 0 < 2 by decide) rfl hfits (fun _ _ => 0)
  obtain ⟨read, last, hread, hlast, hrows⟩ := hreads 1 _ rfl
  obtain rfl : KvChunk.mk [[row]] false = last := Option.some.inj hlast
  exact ⟨reads, hrun, read, hread, (hrows 1 (by decide)).2.2 rfl⟩

end Glm52
