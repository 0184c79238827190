import Glm52.Interleave
import Glm52.Ragged

/-! # The prefill K gather: per-rank metadata, collectives, reassembly

Under DCP each rank holds a shard of every request's K rows.  For a chunk of
requests the indexer needs all of them, in request order: each rank stages its
local rows, `all_gatherv` concatenates the ranks' stages, and an index built from
the owned counts of all ranks puts the rows back (`reasmIdx`).

Three computations of the owned counts have to agree: the local cumulative lengths
(from the device lengths) that drive the staging, the local total (from the CPU
lengths) that a rank declares, and the all-ranks counts (from the CPU lengths) from
which every rank computes the sizes of all.  `ChunkMetadata` keeps them apart as the
builder does.

The two results: the gathered rows read through the index are the requests' rows in
order, and the index is a permutation (`reassembly_round_trip`); and the ranks issue
the same collectives with the sizes each of them declares (`gatherv_agreement`).
The compress ratio is 1, as the builder asserts. -/
namespace Glm52
open Ragged

/-! ### Chunk metadata -/

/-- The lengths of a chunk's requests, on the device and on the CPU, and whether
the chunk reuses the K rows gathered for the previous one. -/
structure ChunkLens where
  seqLens : List ℕ
  seqLensCpu : List ℕ
  skipKvGather : Bool

/-- The fields of a prefill chunk's metadata that the gather reads. -/
structure ChunkMetadata where
  cuSeqLens : List ℕ
  skipKvGather : Bool
  dcpLocalCuSeqLens : Option (List ℕ)
  dcpLocalTotalSeqLens : ℕ
  dcpLocalSeqLensAllranks : Option (List (List ℕ))

/-- The owned counts of every rank, one row a rank and one column a request. -/
def seqLensAllranks (N : ℕ) (gs : List ℕ) : List (List ℕ) :=
  (List.range N).map (fun rr => gs.map (fun g => own N g rr))

/-- The chunk metadata as rank `r` of `N` builds it. -/
def buildPrefillChunkMetadata (N r : ℕ) (c : ChunkLens) : ChunkMetadata :=
  if 1 < N then
    { cuSeqLens := 0 :: cumsum c.seqLens
      skipKvGather := c.skipKvGather
      dcpLocalCuSeqLens := some (0 :: cumsum (c.seqLens.map (fun g => own N g r)))
      dcpLocalTotalSeqLens := (c.seqLensCpu.map (fun g => own N g r)).sum
      dcpLocalSeqLensAllranks := some (seqLensAllranks N c.seqLensCpu) }
  else
    { cuSeqLens := 0 :: cumsum c.seqLens
      skipKvGather := c.skipKvGather
      dcpLocalCuSeqLens := none
      dcpLocalTotalSeqLens := 0
      dcpLocalSeqLensAllranks := none }

/-! ### Reassembly -/

/-- `_glm52c_reasm_idx(L, N)`: for each row of each request, in order, where it lies
in the concatenation of the ranks' stages. -/
def reasmIdx (L : List (List ℕ)) (N : ℕ) : List ℕ :=
  let R := (L.headD []).length
  let prt := L.map List.sum
  let rb := exclusiveSum prt
  let ro := L.map exclusiveSum
  (List.range R).flatMap (fun q =>
    let glen := (L.map (fun row => row.getD q 0)).sum
    if glen = 0 then []
    else (List.range glen).map (fun p =>
      rb.getD (p % N) 0 + (ro.getD (p % N) []).getD q 0 + p / N))

/-- `all_gatherv(x, dim=0, sizes)`: the ranks' rows in rank order, provided each
rank holds as many as `sizes` says. -/
def allGatherv {α : Type} (sizes : List ℕ) (stages : List (List α)) : Option (List α) :=
  if stages.map List.length = sizes then some stages.flatten else none

section Reassembly
variable {α : Type} {N : ℕ}

/-- A request's rows on rank `r` under interleave-1 sharding: those at the positions
`p` with `p % N = r`, in order. -/
def localRows (N r : ℕ) (rows : List α) : List α :=
  ((List.range rows.length).filter (· % N = r)).filterMap (fun p => rows[p]?)

/-- Rank `r`'s stage: the local rows of the chunk's requests, concatenated. -/
def stage (N : ℕ) (reqs : List (List α)) (r : ℕ) : List α := reqs.flatMap (localRows N r)

theorem map_some_localRows {r : ℕ} (hr : r < N) (rows : List α) :
    (localRows N r rows).map some =
      (ownedPositions N rows.length r).map (fun p => rows[p]?) := by
  rw [localRows, ← ownedPositions_eq_filter hr, List.map_filterMap_some_eq_filter_map_isSome,
    List.filter_eq_self]
  intro row hrow
  obtain ⟨p, hp, rfl⟩ := List.mem_map.mp hrow
  simpa using ((mem_ownedPositions hr).mp hp).1

theorem length_localRows {r : ℕ} (hr : r < N) (rows : List α) :
    (localRows N r rows).length = own N rows.length r := by
  simpa [ownedPositions] using congrArg List.length (map_some_localRows hr rows)

/-- Slot `l` of a request on rank `r` holds the request's row `l * N + r`. -/
theorem getElem?_localRows {r l : ℕ} (hr : r < N) {rows : List α}
    (hl : l < own N rows.length r) : (localRows N r rows)[l]? = rows[globalPos N r l]? := by
  have hread := congrArg (fun xs : List (Option α) => xs[l]?) (map_some_localRows hr rows)
  simp only [List.getElem?_map, ownedPositions, List.getElem?_range hl, Option.map_some] at hread
  have hlen : l < (localRows N r rows).length := by rwa [length_localRows hr]
  rw [List.getElem?_eq_getElem hlen, Option.map_some, Option.some.injEq] at hread
  rw [List.getElem?_eq_getElem hlen, hread]

theorem length_stage {r : ℕ} (hr : r < N) (reqs : List (List α)) :
    (stage N reqs r).length = ((reqs.map List.length).map (fun g => own N g r)).sum := by
  simp [stage, List.length_flatMap, length_localRows hr, Function.comp_def]

/-- **Row `p` of request `q` lies at its owner's base, plus the request's base on the
owner, plus its slot.** -/
theorem getElem?_stages (hN : 0 < N) {reqs : List (List α)} {q p : ℕ} {rows : List α} {x : α}
    (hq : reqs[q]? = some rows) (hp : rows[p]? = some x) :
    ((List.range N).map (stage N reqs)).flatten[
      (((List.range N).map (stage N reqs)).take (p % N) |>.map List.length).sum +
        (((reqs.map (localRows N (p % N))).take q |>.map List.length).sum + p / N)]? = some x := by
  have hr : p % N < N := Nat.mod_lt p hN
  obtain ⟨hlt, -⟩ := List.getElem?_eq_some_iff.mp hp
  have hstage : ((List.range N).map (stage N reqs))[p % N]? = some (stage N reqs (p % N)) := by
    rw [List.getElem?_map, List.getElem?_range hr, Option.map_some]
  refine getElem?_flatten_offset hstage ?_
  rw [stage, List.flatMap_def]
  refine getElem?_flatten_offset (by rw [List.getElem?_map, hq, Option.map_some]) ?_
  rw [getElem?_localRows hr (div_lt_own hN hlt), globalPos, Nat.div_add_mod']
  exact hp

/-- The all-ranks counts are the row counts of the stages. -/
theorem map_sum_seqLensAllranks (reqs : List (List α)) :
    (seqLensAllranks N (reqs.map List.length)).map List.sum =
      ((List.range N).map (stage N reqs)).map List.length := by
  rw [seqLensAllranks, List.map_map, List.map_map]
  refine List.map_congr_left (fun r hr => ?_)
  exact (length_stage (List.mem_range.mp hr) reqs).symm

/-- With the true sizes the gather goes through. -/
theorem allGatherv_stages (reqs : List (List α)) :
    allGatherv ((seqLensAllranks N (reqs.map List.length)).map List.sum)
      ((List.range N).map (stage N reqs)) =
        some ((List.range N).map (stage N reqs)).flatten := by
  rw [allGatherv, if_pos (map_sum_seqLensAllranks reqs).symm]

/-- The owned counts of all ranks add up to the lengths. -/
theorem sum_seqLensAllranks (hN : 0 < N) (gs : List ℕ) :
    ((seqLensAllranks N gs).map List.sum).sum = gs.sum := by
  induction gs with
  | nil => simp [seqLensAllranks]
  | cons g gs ih =>
    simp only [seqLensAllranks, List.map_map, Function.comp_def, List.map_cons, List.sum_cons,
      List.sum_map_add, sum_own hN] at ih ⊢
    rw [ih]

/-- A request's counts over the ranks add up to its length. -/
theorem sum_getD_seqLensAllranks (hN : 0 < N) {gs : List ℕ} {q g : ℕ} (hq : gs[q]? = some g) :
    ((seqLensAllranks N gs).map (fun row => row.getD q 0)).sum = g := by
  have hcol : (seqLensAllranks N gs).map (fun row => row.getD q 0) =
      (List.range N).map (own N g) := by
    simp [seqLensAllranks, List.getD_eq_getElem?_getD, hq]
  rw [hcol, sum_own hN]

/-- The request bases on one rank, from its row of the all-ranks counts. -/
theorem getD_exclusiveSum_seqLensAllranks {r q : ℕ} (hr : r < N) (reqs : List (List α))
    (hq : q < reqs.length) :
    ((((seqLensAllranks N (reqs.map List.length)).map exclusiveSum).getD r []).getD q 0) =
      (((reqs.map (localRows N r)).take q).map List.length).sum := by
  have hrow : ((seqLensAllranks N (reqs.map List.length)).map exclusiveSum).getD r [] =
      exclusiveSum ((reqs.map List.length).map (fun g => own N g r)) := by
    simp [seqLensAllranks, List.getD_eq_getElem?_getD, List.getElem?_range hr]
  have hlens : (reqs.map List.length).map (fun g => own N g r) =
      (reqs.map (localRows N r)).map List.length := by
    simp [length_localRows hr, Function.comp_def]
  rw [hrow, hlens, getD_exclusiveSum (by simpa using hq), List.map_take]

/-- The gathered rows read through the index are the requests' rows, in order. -/
theorem indexSelect_reasmIdx (hN : 0 < N) (reqs : List (List α)) :
    indexSelect ((List.range N).map (stage N reqs)).flatten
      (reasmIdx (seqLensAllranks N (reqs.map List.length)) N) = some reqs.flatten := by
  have hR : ((seqLensAllranks N (reqs.map List.length)).headD []).length = reqs.length := by
    obtain ⟨M, rfl⟩ := Nat.exists_eq_succ_of_ne_zero hN.ne'
    simp [seqLensAllranks, List.range_succ_eq_map]
  rw [indexSelect_eq_some, flatten_eq_flatMap_getD reqs, reasmIdx]
  simp only [hR, List.map_flatMap]
  refine List.flatMap_congr (fun q hq => ?_)
  have hlt : q < reqs.length := List.mem_range.mp hq
  have hrows : reqs[q]? = some (reqs.getD q []) := by simp [hlt]
  rw [sum_getD_seqLensAllranks hN (by rw [List.getElem?_map, hrows, Option.map_some])]
  -- a request without rows adds nothing to the index, skipped or not
  have hskip : ∀ (g : ℕ) (f : ℕ → ℕ), (if g = 0 then [] else (List.range g).map f) =
      (List.range g).map f := by
    intro g f
    split
    · simp_all
    · rfl
  rw [hskip]
  refine List.ext_getElem (by simp) (fun p hp _ => ?_)
  have hp : p < (reqs.getD q []).length := by simpa using hp
  have hr : p % N < N := Nat.mod_lt p hN
  simp only [List.getElem_map, List.getElem_range]
  rw [getD_exclusiveSum_seqLensAllranks hr reqs hlt,
    getD_exclusiveSum (by simpa [seqLensAllranks] using hr), map_sum_seqLensAllranks,
    ← List.map_take, Nat.add_assoc]
  exact getElem?_stages hN hrows (List.getElem?_eq_getElem hp)

/-- The index is a permutation of the gathered rows. -/
theorem reasmIdx_perm (hN : 0 < N) (gs : List ℕ) :
    (reasmIdx (seqLensAllranks N gs) N).Perm (List.range gs.sum) := by
  have hlens := map_length_labels gs
  have hread := indexSelect_reasmIdx hN (labels gs)
  have hlen : ((List.range N).map (stage N (labels gs))).flatten.length = gs.sum := by
    rw [List.length_flatten, ← map_sum_seqLensAllranks, hlens, sum_seqLensAllranks hN]
  rw [flatten_labels, hlens] at hread
  have hperm := perm_range_of_indexSelect List.nodup_range (by simpa using hlen) hread
  rwa [hlen] at hperm

end Reassembly

/-- **The prefill gather restores the K rows.** The ranks' stages of the values and of
the scales, gathered with the true sizes and read through the one index, are the
requests' rows in order; and the index is a permutation of `0 .. Σ g - 1`. -/
theorem reassembly_round_trip {κ σ : Type} {N : ℕ} (hN : 0 < N) {gs : List ℕ}
    {keys : List (List κ)} (hkeys : keys.map List.length = gs)
    {scales : List (List σ)} (hscales : scales.map List.length = gs) :
    let L := seqLensAllranks N gs
    let sizes := L.map List.sum
    (allGatherv sizes ((List.range N).map (stage N keys))).bind
      (fun kqAll => indexSelect kqAll (reasmIdx L N)) = some keys.flatten ∧
    (allGatherv sizes ((List.range N).map (stage N scales))).bind
      (fun ksAll => indexSelect ksAll (reasmIdx L N)) = some scales.flatten ∧
    (reasmIdx L N).Perm (List.range gs.sum) := by
  intro L sizes
  refine ⟨?_, ?_, reasmIdx_perm hN gs⟩
  · subst hkeys
    rw [allGatherv_stages, Option.bind_some, indexSelect_reasmIdx hN]
  · subst hscales
    rw [allGatherv_stages, Option.bind_some, indexSelect_reasmIdx hN]

/-- Three requests over three ranks: one without rows, one shorter than the group. -/
theorem reassembly_round_trip_ragged :
    (reasmIdx (seqLensAllranks 3 [4, 0, 2]) 3).Perm (List.range 6) :=
  (reassembly_round_trip (show 0 < 3 by decide)
    (show [[0, 1, 2, 3], [], [4, 5]].map List.length = [4, 0, 2] by decide)
    (show [[0, 1, 2, 3], [], [4, 5]].map List.length = [4, 0, 2] by decide)).2.2

/-! ### The reassembly check -/

/-- `test_prefill_reassembly(N, glens)`: every rank's shards are filled with the labels of
their keys, and the rows read through the index are compared with the labels in order. -/
def testPrefillReassembly (N : ℕ) (glens : List ℕ) : Bool :=
  let L := (List.range N).map (fun r => glens.map (fun g => shardLen N g r))
  let BIG := 10000000
  let rows := (List.range N).flatMap (fun r => glens.zipIdx.flatMap (fun gq =>
    (shardKeys N gq.1 r).map (fun p => gq.2 * BIG + p)))
  let ref := glens.zipIdx.flatMap (fun gq => (List.range gq.1).map (fun p => gq.2 * BIG + p))
  indexSelect rows (reasmIdx L N) == some ref

/-- The local rows of a request whose rows are labelled by position. -/
theorem localRows_map_range {α : Type} {N r : ℕ} (hr : r < N) (label : ℕ → α) (g : ℕ) :
    localRows N r ((List.range g).map label) = (shardKeys N g r).map label := by
  have hread := map_some_localRows hr ((List.range g).map label)
  rw [List.length_map, List.length_range] at hread
  have hlabels : (ownedPositions N g r).map (fun p => ((List.range g).map label)[p]?) =
      ((ownedPositions N g r).map label).map some := by
    rw [List.map_map]
    refine List.map_congr_left (fun p hp => ?_)
    simp [((mem_ownedPositions hr).mp hp).1]
  rw [hlabels] at hread
  rw [shardKeys_eq_ownedPositions hr]
  exact List.map_injective_iff.mpr (Option.some_injective α) hread

/-- **The reassembly check passes for every group and all lengths**, not only for the
seven it is run on. -/
theorem testPrefillReassembly_passes {N : ℕ} (hN : 0 < N) (glens : List ℕ) :
    testPrefillReassembly N glens = true := by
  unfold testPrefillReassembly
  generalize 10000000 = BIG
  rw [beq_iff_eq]
  let reqs := glens.zipIdx.map (fun gq => (List.range gq.1).map (fun p => gq.2 * BIG + p))
  have hlens : reqs.map List.length = glens := by
    simp [reqs, Function.comp_def]
  have hL : (List.range N).map (fun r => glens.map (fun g => shardLen N g r)) =
      seqLensAllranks N (reqs.map List.length) := by
    rw [hlens, seqLensAllranks]
    refine List.map_congr_left (fun r hr => ?_)
    exact List.map_congr_left (fun g _ => shardLen_eq_own (List.mem_range.mp hr) g)
  have hrows : (List.range N).flatMap (fun r => glens.zipIdx.flatMap (fun gq =>
      (shardKeys N gq.1 r).map (fun p => gq.2 * BIG + p))) =
      ((List.range N).map (stage N reqs)).flatten := by
    rw [← List.flatMap_def]
    refine List.flatMap_congr (fun r hr => ?_)
    rw [stage, List.flatMap_map]
    refine List.flatMap_congr (fun gq _ => ?_)
    exact (localRows_map_range (List.mem_range.mp hr) _ gq.1).symm
  rw [hL, hrows, indexSelect_reasmIdx hN, List.flatMap_def]

/-! ### The ranks' collectives -/

/-- The two gathered tensors of a chunk. -/
inductive KTensor
  | kQuant
  | kScale
deriving DecidableEq

/-- What a rank does for a chunk: stage rows from the cache, take part in a gather,
reassemble. -/
inductive PrefillOp
  | cpGather (cuSeqLens : List ℕ)
  | allGatherv (tensor : KTensor) (rows : ℕ) (sizes : List ℕ)
  | indexSelect (tensor : KTensor) (ridx : List ℕ)

/-- `_glm52c_lcap`: the rows of the local staging buffers. -/
def lcap (N totalSeqLens : ℕ) : ℕ := (totalSeqLens + N - 1) / N

/-- What a rank does for one chunk.  The staged rows are the first `_lt` of the
staging buffer; a rank without rows stages nothing and still gathers. -/
def chunkOps (N totalSeqLens : ℕ) (chunk : ChunkMetadata) : Option (List PrefillOp) :=
  if chunk.skipKvGather then some []
  else if N ≤ 1 then some [.cpGather chunk.cuSeqLens]
  else do
    let lt := chunk.dcpLocalTotalSeqLens
    let rows := min lt (lcap N totalSeqLens)
    let gather ← if 0 < lt then chunk.dcpLocalCuSeqLens.map (fun cu => [PrefillOp.cpGather cu])
      else some []
    let L ← chunk.dcpLocalSeqLensAllranks
    let sizes ← (List.range N).mapM (fun rr => L[rr]?.map List.sum)
    let ridx := reasmIdx L N
    some (gather ++ [.allGatherv .kQuant rows sizes, .allGatherv .kScale rows sizes,
      .indexSelect .kQuant ridx, .indexSelect .kScale ridx])

/-- What rank `r` does for a sequence of chunks, chunk by chunk. -/
def prefillOps (N r totalSeqLens : ℕ) (chunks : List ChunkLens) :
    Option (List (List PrefillOp)) :=
  chunks.mapM (fun c => chunkOps N totalSeqLens (buildPrefillChunkMetadata N r c))

/-- A collective as its peers see it: which tensor, and the sizes argument. -/
def PrefillOp.collective : PrefillOp → Option (KTensor × List ℕ)
  | .allGatherv tensor _ sizes => some (tensor, sizes)
  | _ => none

section Collectives
variable {N : ℕ}

/-- The sizes argument every rank computes for a chunk. -/
def chunkSizes (N : ℕ) (gs : List ℕ) : List ℕ := (seqLensAllranks N gs).map List.sum

/-- The collectives of a chunk: none when it is skipped, both tensors otherwise. -/
def chunkCollectives (N : ℕ) (c : ChunkLens) : List (KTensor × List ℕ) :=
  if c.skipKvGather then []
  else [(.kQuant, chunkSizes N c.seqLensCpu), (.kScale, chunkSizes N c.seqLensCpu)]

/-- **What a rank gathers for a chunk does not depend on the rank.** -/
theorem chunkOps_collectives (hN : 2 ≤ N) (r totalSeqLens : ℕ) (c : ChunkLens) :
    ∃ ops, chunkOps N totalSeqLens (buildPrefillChunkMetadata N r c) = some ops ∧
      ops.filterMap PrefillOp.collective = chunkCollectives N c := by
  have hsizes : (List.range N).mapM
      (fun rr => (seqLensAllranks N c.seqLensCpu)[rr]?.map List.sum) =
        some (chunkSizes N c.seqLensCpu) := by
    rw [mapM_eq_some, chunkSizes, seqLensAllranks, List.map_map, List.map_map]
    refine List.map_congr_left (fun rr hrr => ?_)
    simp [List.getElem?_range (List.mem_range.mp hrr)]
  unfold chunkOps chunkCollectives
  rw [buildPrefillChunkMetadata, if_pos (show 1 < N by omega)]
  cases c.skipKvGather with
  | true => exact ⟨[], rfl, rfl⟩
  | false =>
    rw [if_neg (show ¬ N ≤ 1 by omega)]
    simp only [Bool.false_eq_true, if_false, Option.map_some]
    by_cases hlt : 0 < (c.seqLensCpu.map (fun g => own N g r)).sum
    · simp only [if_pos hlt, Option.bind_eq_bind, Option.bind_some, hsizes]
      exact ⟨_, rfl, rfl⟩
    · simp only [if_neg hlt, Option.bind_eq_bind, Option.bind_some, hsizes]
      exact ⟨_, rfl, rfl⟩

/-- A rank's entry of the sizes is what the rank declares for the chunk. -/
theorem getElem?_chunkSizes (hN : 2 ≤ N) {r : ℕ} (hr : r < N) (c : ChunkLens) :
    (chunkSizes N c.seqLensCpu)[r]? =
      some (buildPrefillChunkMetadata N r c).dcpLocalTotalSeqLens := by
  rw [buildPrefillChunkMetadata, if_pos (show 1 < N by omega)]
  simp [chunkSizes, seqLensAllranks, List.getElem?_range hr]

/-- The local cumulative lengths end at the declared total. -/
theorem getLast?_dcpLocalCuSeqLens (hN : 2 ≤ N) (r : ℕ) {c : ChunkLens}
    (hcpu : c.seqLens = c.seqLensCpu) :
    (buildPrefillChunkMetadata N r c).dcpLocalCuSeqLens.bind List.getLast? =
      some (buildPrefillChunkMetadata N r c).dcpLocalTotalSeqLens := by
  rw [buildPrefillChunkMetadata, if_pos (show 1 < N by omega)]
  simp only [Option.bind_some, getLast?_zero_cumsum, hcpu]

/-- A rank's run over the chunks, and the collectives of each chunk. -/
theorem prefillOps_collectives (hN : 2 ≤ N) (r totalSeqLens : ℕ) (chunks : List ChunkLens) :
    ∃ ops, prefillOps N r totalSeqLens chunks = some ops ∧
      ops.map (·.filterMap PrefillOp.collective) = chunks.map (chunkCollectives N) := by
  induction chunks with
  | nil => exact ⟨[], rfl, rfl⟩
  | cons c chunks ih =>
    obtain ⟨ops, hops, hcalls⟩ := ih
    obtain ⟨first, hfirst, hfirstCalls⟩ := chunkOps_collectives hN r totalSeqLens c
    refine ⟨first :: ops, ?_, ?_⟩
    · rw [prefillOps, mapM_eq_some] at hops ⊢
      rw [List.map_cons, List.map_cons, hfirst, hops]
    · rw [List.map_cons, List.map_cons, hfirstCalls, hcalls]

end Collectives

/-- **The ranks agree on their collectives.** Every rank's run goes through, any two
ranks issue the same gathers with the same sizes chunk by chunk, and a chunk that is
not skipped has both its gathers on every rank, whatever the rank owns of it.  In
each gather, rank `q`'s entry of the sizes is the total rank `q` declares and the end
of its cumulative lengths. -/
theorem gatherv_agreement {N : ℕ} (hN : 2 ≤ N) (totalSeqLens : ℕ) {chunks : List ChunkLens}
    (hcpu : ∀ c ∈ chunks, c.seqLens = c.seqLensCpu) :
    ∃ ops : ℕ → List (List PrefillOp),
      (∀ r < N, prefillOps N r totalSeqLens chunks = some (ops r)) ∧
      (∀ r < N, ∀ s < N, (ops r).map (·.filterMap PrefillOp.collective) =
        (ops s).map (·.filterMap PrefillOp.collective)) ∧
      ∀ r < N, List.Forall₂ (fun c calls =>
        calls.map Prod.fst = (if c.skipKvGather then [] else [.kQuant, .kScale]) ∧
        ∀ call ∈ calls, ∀ q < N,
          call.2[q]? = some (buildPrefillChunkMetadata N q c).dcpLocalTotalSeqLens ∧
          call.2[q]? = (buildPrefillChunkMetadata N q c).dcpLocalCuSeqLens.bind List.getLast?)
        chunks ((ops r).map (·.filterMap PrefillOp.collective)) := by
  choose ops hops hcalls using fun r => prefillOps_collectives hN r totalSeqLens chunks
  refine ⟨ops, fun r _ => hops r, fun r _ s _ => by rw [hcalls r, hcalls s], fun r _ => ?_⟩
  rw [hcalls r, List.forall₂_map_right_iff, List.forall₂_same]
  intro c hc
  constructor
  · unfold chunkCollectives
    cases c.skipKvGather <;> rfl
  · intro call hcall q hq
    have hsizes : call.2 = chunkSizes N c.seqLensCpu := by
      unfold chunkCollectives at hcall
      split at hcall
      · cases hcall
      · rcases List.mem_pair.mp hcall with rfl | rfl <;> rfl
    rw [hsizes, getElem?_chunkSizes hN hq, getLast?_dcpLocalCuSeqLens hN q (hcpu c hc)]
    exact ⟨rfl, rfl⟩

/-- A chunk of which rank 2 owns nothing, followed by a skipped one. -/
theorem gatherv_agreement_empty_rank :
    ∃ ops : ℕ → List (List PrefillOp),
      (∀ r < 3, prefillOps 3 r 4 [⟨[2], [2], false⟩, ⟨[2], [2], true⟩] = some (ops r)) ∧
      (ops 0).map (·.filterMap PrefillOp.collective) =
        (ops 2).map (·.filterMap PrefillOp.collective) := by
  have hcpu : ∀ c ∈ [ChunkLens.mk [2] [2] false, ⟨[2], [2], true⟩], c.seqLens = c.seqLensCpu := by
    decide
  obtain ⟨ops, hrun, hagree, -⟩ := gatherv_agreement (show 2 ≤ 3 by decide) 4 hcpu
  exact ⟨ops, hrun, hagree 0 (by decide) 2 (by decide)⟩

end Glm52
