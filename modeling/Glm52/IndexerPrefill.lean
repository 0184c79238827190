import Glm52.Executions
import Glm52.PrefillGather
import Glm52.PrefillMqaLogits

/-! # The prefill indexer under context parallelism

The indexer goes through the chunks of a prefill.  For a chunk it gathers the K rows of
the chunk's requests: every rank stages the rows of its shard, the stages are gathered and
put in order.  A chunk that skips the gather reads the rows of the chunk before it.  From
the rows come the logits, from the logits the top-k of each token, and a rank keeps the
positions it owns.

The staging buffers hold `lcap` rows, a share of the workspace rounded up once, while a
rank's share is rounded up for every request.  The gather goes through exactly when the
shares fit, and then the ranks hold the rows that a single rank gathers
(`prefill_keys_iff`).

Outside the repository, and a parameter here: the cache gather and the top-k kernel. -/
namespace Glm52.IndexerPrefill
open Topk PagedMqa StreamingTopk PrefillMqa Executions Ragged

/-! ### The K rows of a chunk -/

section Definitions
variable {κ σ : Type}

/-- What a rank's cache holds for the requests of a chunk, by request and local slot. -/
structure KCache (κ σ : Type) where
  kQuant : ℕ → ℕ → κ
  kScale : ℕ → ℕ → σ

/-- `k_quant` and `k_scale`. -/
structure KRows (κ σ : Type) where
  kQuant : List κ
  kScale : List σ

/-- A chunk: its lengths, and what the ranks' caches hold. -/
structure IndexerChunk (κ σ : Type) where
  lens : ChunkLens
  cache : ℕ → KCache κ σ

/-- The first cells of each request, one request after the other. -/
def requestRows {γ : Type} (cell : ℕ → ℕ → γ) (lens : List ℕ) : List γ :=
  (List.range lens.length).flatMap fun q => (List.range (lens.getD q 0)).map (cell q)

/-- The contract of `cp_gather_indexer_k_quant_cache`: it fills destinations of `rows` rows
with the requests' rows, whose numbers are the steps of the cumulative lengths. -/
def GathersRows (cpGather : KCache κ σ → List ℕ → ℕ → KRows κ σ) : Prop :=
  ∀ cache lens rows, cpGather cache (0 :: cumsum lens) rows =
    ⟨(requestRows cache.kQuant lens).take rows, (requestRows cache.kScale lens).take rows⟩

variable (cpGather : KCache κ σ → List ℕ → ℕ → KRows κ σ)

/-- `_kq_loc` and `_ks_loc` of a rank: the first `_lt` rows of its staging buffers. -/
def stagedRows (N totalSeqLens : ℕ) (cache : KCache κ σ) (chunk : ChunkMetadata) :
    Option (KRows κ σ) :=
  let lt := chunk.dcpLocalTotalSeqLens
  let rows := min lt (lcap N totalSeqLens)
  if 0 < lt then chunk.dcpLocalCuSeqLens.map fun cu => cpGather cache cu rows
  else some ⟨[], []⟩

/-- The gather of one chunk on rank `r`, which holds the rows of the chunk before.  A
collective takes the stages of all ranks; an `out=` of another length fails. -/
def gatherStep (N r totalSeqLens : ℕ) (held : KRows κ σ) (c : IndexerChunk κ σ) :
    Option (KRows κ σ) :=
  let chunk := buildPrefillChunkMetadata N r c.lens
  let rows := min c.lens.seqLensCpu.sum totalSeqLens
  if chunk.skipKvGather then some held
  else if N ≤ 1 then some (cpGather (c.cache r) chunk.cuSeqLens rows)
  else do
    let stages ← (List.range N).mapM fun rr =>
      stagedRows cpGather N totalSeqLens (c.cache rr) (buildPrefillChunkMetadata N rr c.lens)
    let L ← chunk.dcpLocalSeqLensAllranks
    let sizes ← (List.range N).mapM fun rr => L[rr]?.map List.sum
    let kqAll ← allGatherv sizes (stages.map KRows.kQuant)
    let ksAll ← allGatherv sizes (stages.map KRows.kScale)
    let ridx := reasmIdx L N
    if ridx.length = rows then
      let kQuant ← indexSelect kqAll ridx
      let kScale ← indexSelect ksAll ridx
      some ⟨kQuant, kScale⟩
    else none

/-! ### What it is for -/

/-- The requests' rows with their scales are dealt to the ranks' caches, and the lengths
are theirs. -/
structure Sharded (N : ℕ) (c : IndexerChunk κ σ) (requests : List (List (κ × σ))) : Prop where
  seqLens : c.lens.seqLens = requests.map List.length
  seqLensCpu : c.lens.seqLensCpu = requests.map List.length
  holds : ∀ r < N, ∀ q l, l < own N (requests.getD q []).length r →
    (requests.getD q [])[globalPos N r l]? =
      some ((c.cache r).kQuant q l, (c.cache r).kScale q l)

/-- The rows of the requests, in order. -/
def keyRows (requests : List (List (κ × σ))) : KRows κ σ :=
  ⟨requests.flatten.map Prod.fst, requests.flatten.map Prod.snd⟩

/-- A chunk without a gather follows a chunk of the same requests. -/
def SkipsFollow (requests : IndexerChunk κ σ → List (List (κ × σ)))
    (chunks : List (IndexerChunk κ σ)) : Prop :=
  ∀ before c, before ++ [c] <+: chunks → c.lens.skipKvGather = true →
    before.getLast?.map requests = some (requests c)

/-- The rows of every rank fit its staging buffers. -/
def StagesFit (N totalSeqLens : ℕ) (c : IndexerChunk κ σ) : Prop :=
  ∀ rr < N, (c.lens.seqLensCpu.map (fun g => own N g rr)).sum ≤ lcap N totalSeqLens

end Definitions

/-! ### One chunk -/

section Step
variable {κ σ : Type} {N : ℕ} {c : IndexerChunk κ σ} {requests : List (List (κ × σ))}

/-- A rank's cells of the requests are its stage. -/
theorem requestRows_eq_stage {γ : Type} {r : ℕ} (hr : r < N) {blocks : List (List γ)}
    {cell : ℕ → ℕ → γ} (hcell : ∀ q l, l < own N (blocks.getD q []).length r →
      (blocks.getD q [])[globalPos N r l]? = some (cell q l)) :
    requestRows cell ((blocks.map List.length).map (fun g => own N g r)) = stage N blocks r := by
  have hlocal : ∀ q < blocks.length,
      (List.range (((blocks.map List.length).map (fun g => own N g r)).getD q 0)).map (cell q) =
        localRows N r (blocks.getD q []) := by
    intro q hq
    have hlen : ((blocks.map List.length).map (fun g => own N g r)).getD q 0 =
        own N (blocks.getD q []).length r := by
      simp [List.getD_eq_getElem?_getD, List.getElem?_eq_getElem hq]
    rw [hlen]
    refine List.ext_getElem? fun l => ?_
    by_cases hl : l < own N (blocks.getD q []).length r
    · rw [List.getElem?_map, List.getElem?_range hl, getElem?_localRows hr hl, hcell q l hl]
      rfl
    · rw [List.getElem?_eq_none (by simpa using hl),
        List.getElem?_eq_none (by rw [length_localRows hr]; omega)]
  have hstage : stage N blocks r =
      (List.range blocks.length).flatMap (fun q => localRows N r (blocks.getD q [])) := by
    rw [stage, List.flatMap_def, flatten_eq_flatMap_getD, List.length_map]
    refine List.flatMap_congr fun q hq => ?_
    simp [List.getD_eq_getElem?_getD, List.getElem?_eq_getElem (List.mem_range.mp hq)]
  rw [hstage, requestRows, List.length_map, List.length_map]
  exact List.flatMap_congr fun q hq => hlocal q (List.mem_range.mp hq)

/-- On a single rank the stage is all rows. -/
theorem stage_one {γ : Type} (blocks : List (List γ)) : stage 1 blocks 0 = blocks.flatten := by
  have hlocal : ∀ rows : List γ, localRows 1 0 rows = rows := by
    intro rows
    have hall : (List.range rows.length).filter (· % 1 = 0) = List.range rows.length :=
      List.filter_eq_self.mpr fun p _ => by simp [Nat.mod_one]
    have hread := filterMap_range_getElem? rows some (le_refl rows.length)
    rw [List.filterMap_some] at hread
    rw [localRows, hall]
    exact (List.filterMap_congr fun p _ => (Option.bind_fun_some _).symm).trans hread
  rw [stage, List.flatMap_def, List.map_congr_left fun rows _ => hlocal rows, List.map_id']

/-- A rank's cells, the keys or the scales of the requests, are its stage of them. -/
theorem Sharded.requestRows_eq (h : Sharded N c requests) {r : ℕ} (hr : r < N) {γ : Type}
    (part : κ × σ → γ) {cell : ℕ → ℕ → γ}
    (hcell : ∀ q l, part ((c.cache r).kQuant q l, (c.cache r).kScale q l) = cell q l) :
    requestRows cell (c.lens.seqLens.map (fun g => own N g r)) =
      stage N (requests.map (List.map part)) r := by
  have hlens : c.lens.seqLens = (requests.map (List.map part)).map List.length := by
    rw [h.seqLens, List.map_map]
    exact List.map_congr_left fun rows _ => (List.length_map part).symm
  rw [hlens]
  refine requestRows_eq_stage hr fun q l hl => ?_
  have hblock : (requests.map (List.map part)).getD q [] = (requests.getD q []).map part := by
    rw [List.getD_eq_getElem?_getD, List.getD_eq_getElem?_getD, List.getElem?_map]
    cases requests[q]? with
    | none => rfl
    | some rows => rfl
  rw [hblock, List.length_map] at hl
  rw [hblock, List.getElem?_map, h.holds r hr q l hl, Option.map_some, hcell]

variable {cpGather : KCache κ σ → List ℕ → ℕ → KRows κ σ} {totalSeqLens : ℕ}

/-- The lengths of the requests, whatever part of a row is taken. -/
theorem Sharded.lengths (h : Sharded N c requests) {γ : Type} (part : κ × σ → γ) :
    (requests.map (List.map part)).map List.length = c.lens.seqLensCpu := by
  rw [h.seqLensCpu, List.map_map]
  exact List.map_congr_left fun rows _ => List.length_map part

/-- A rank's share of the requests. -/
theorem Sharded.length_stage (h : Sharded N c requests) {r : ℕ} (hr : r < N) {γ : Type}
    (part : κ × σ → γ) : (stage N (requests.map (List.map part)) r).length =
      (c.lens.seqLensCpu.map (fun g => own N g r)).sum := by
  rw [Glm52.length_stage hr, h.lengths]

/-- **The stage of a rank**, cut where its buffers end. -/
theorem stagedRows_eq (hgather : GathersRows cpGather) (hN : 1 < N) (h : Sharded N c requests)
    {r : ℕ} (hr : r < N) :
    stagedRows cpGather N totalSeqLens (c.cache r) (buildPrefillChunkMetadata N r c.lens) =
      some ⟨(stage N (requests.map (List.map Prod.fst)) r).take (lcap N totalSeqLens),
        (stage N (requests.map (List.map Prod.snd)) r).take (lcap N totalSeqLens)⟩ := by
  have hkeys := h.length_stage hr Prod.fst
  have hscales := h.length_stage hr Prod.snd
  rw [stagedRows, buildPrefillChunkMetadata, if_pos hN]
  simp only [Option.map_some]
  by_cases hlt : 0 < (c.lens.seqLensCpu.map (fun g => own N g r)).sum
  · rw [if_pos hlt, hgather, h.requestRows_eq hr Prod.fst (fun _ _ => rfl),
      h.requestRows_eq hr Prod.snd (fun _ _ => rfl), min_comm]
    nth_rewrite 1 [← hkeys]
    rw [← hscales, ← List.take_eq_take_min, ← List.take_eq_take_min]
  · rw [if_neg hlt]
    have hzero : (c.lens.seqLensCpu.map (fun g => own N g r)).sum = 0 := by omega
    rw [hzero] at hkeys hscales
    rw [List.length_eq_zero_iff.mp hkeys, List.length_eq_zero_iff.mp hscales, List.take_nil,
      List.take_nil]

/-- The sizes a rank computes for the collectives. -/
theorem mapM_sizes (N : ℕ) (gs : List ℕ) :
    (List.range N).mapM (fun rr => (seqLensAllranks N gs)[rr]?.map List.sum) =
      some (chunkSizes N gs) := by
  rw [mapM_eq_some, chunkSizes, seqLensAllranks, List.map_map, List.map_map]
  refine List.map_congr_left fun rr hrr => ?_
  simp [List.getElem?_range (List.mem_range.mp hrr)]

/-- The ranks' stages, cut where the buffers end. -/
def cutStages {γ : Type} (N totalSeqLens : ℕ) (blocks : List (List γ)) : List (List γ) :=
  (List.range N).map fun rr => (stage N blocks rr).take (lcap N totalSeqLens)

/-- The stages have the sizes that the collectives ask for exactly when they fit. -/
theorem staged_lengths_iff (h : Sharded N c requests) {γ : Type} (part : κ × σ → γ) :
    (cutStages N totalSeqLens (requests.map (List.map part))).map List.length =
      chunkSizes N c.lens.seqLensCpu ↔ StagesFit N totalSeqLens c := by
  have hsizes : chunkSizes N c.lens.seqLensCpu = (List.range N).map fun rr =>
      (c.lens.seqLensCpu.map (fun g => own N g rr)).sum := by
    rw [chunkSizes, seqLensAllranks, List.map_map]
    rfl
  rw [hsizes, cutStages, List.map_map, List.map_inj_left]
  refine forall_congr' fun rr => ?_
  rw [List.mem_range]
  refine forall_congr' fun hrr => ?_
  rw [Function.comp_apply, List.length_take, h.length_stage hrr, min_eq_right_iff]

/-- The stages that fit, gathered and put in order, are the rows. -/
theorem gathered_of_fits (hN : 0 < N) (h : Sharded N c requests)
    (hfits : StagesFit N totalSeqLens c) {γ : Type} (part : κ × σ → γ) :
    ∃ all, allGatherv (chunkSizes N c.lens.seqLensCpu)
        (cutStages N totalSeqLens (requests.map (List.map part))) = some all ∧
      indexSelect all (reasmIdx (seqLensAllranks N c.lens.seqLensCpu) N) =
        some (requests.flatten.map part) := by
  have huncut : cutStages N totalSeqLens (requests.map (List.map part)) =
      (List.range N).map (stage N (requests.map (List.map part))) := by
    refine List.map_congr_left fun rr hrr => List.take_of_length_le ?_
    rw [h.length_stage (List.mem_range.mp hrr)]
    exact hfits rr (List.mem_range.mp hrr)
  refine ⟨_, if_pos ((staged_lengths_iff h part).mpr hfits), ?_⟩
  rw [huncut, ← h.lengths part, indexSelect_reasmIdx hN, List.map_flatten]

theorem length_reasmIdx (hN : 0 < N) (gs : List ℕ) :
    (reasmIdx (seqLensAllranks N gs) N).length = gs.sum := by
  rw [(reasmIdx_perm hN gs).length_eq, List.length_range]

/-- The gather of a chunk over several ranks. -/
theorem gatherStep_many (hgather : GathersRows cpGather) (hN : 1 < N) (h : Sharded N c requests)
    (r : ℕ) (hroom : c.lens.seqLensCpu.sum ≤ totalSeqLens)
    (hskip : c.lens.skipKvGather = false) (held : KRows κ σ) :
    gatherStep cpGather N r totalSeqLens held c =
      let sizes := chunkSizes N c.lens.seqLensCpu
      let ridx := reasmIdx (seqLensAllranks N c.lens.seqLensCpu) N
      (allGatherv sizes (cutStages N totalSeqLens (requests.map (List.map Prod.fst)))).bind
        fun kqAll =>
      (allGatherv sizes (cutStages N totalSeqLens (requests.map (List.map Prod.snd)))).bind
        fun ksAll =>
      (indexSelect kqAll ridx).bind fun kQuant =>
      (indexSelect ksAll ridx).bind fun kScale => some ⟨kQuant, kScale⟩ := by
  have hstages : (List.range N).mapM (fun rr => stagedRows cpGather N totalSeqLens (c.cache rr)
      (buildPrefillChunkMetadata N rr c.lens)) = some ((List.range N).map fun rr =>
        ⟨(stage N (requests.map (List.map Prod.fst)) rr).take (lcap N totalSeqLens),
          (stage N (requests.map (List.map Prod.snd)) rr).take (lcap N totalSeqLens)⟩) := by
    rw [mapM_eq_some, List.map_map]
    exact List.map_congr_left fun rr hrr => stagedRows_eq hgather hN h (List.mem_range.mp hrr)
  have hlength : (reasmIdx (seqLensAllranks N c.lens.seqLensCpu) N).length =
      min c.lens.seqLensCpu.sum totalSeqLens := by
    rw [length_reasmIdx (Nat.zero_lt_of_lt hN), min_eq_left hroom]
  rw [gatherStep, hstages, buildPrefillChunkMetadata, if_pos hN]
  simp only [hskip, Bool.false_eq_true, if_false, Option.bind_eq_bind, Option.bind_some,
    mapM_sizes, List.map_map, Function.comp_def, hlength, if_true]
  rw [if_neg (Nat.not_le.mpr hN)]
  rfl

theorem map_own_one (gs : List ℕ) : gs.map (fun g => own 1 g 0) = gs := by
  refine (List.map_congr_left fun g _ => ?_).trans (List.map_id gs)
  simp [own_eq, Nat.mod_one]

/-- A single rank gathers into the destination, which has room for all rows. -/
theorem gatherStep_one (hgather : GathersRows cpGather) (h : Sharded 1 c requests)
    (hroom : c.lens.seqLensCpu.sum ≤ totalSeqLens) (hskip : c.lens.skipKvGather = false)
    (held : KRows κ σ) : gatherStep cpGather 1 0 totalSeqLens held c = some (keyRows requests) := by
  have hrows : ∀ {γ : Type} (part : κ × σ → γ) (cell : ℕ → ℕ → γ),
      (∀ q l, part ((c.cache 0).kQuant q l, (c.cache 0).kScale q l) = cell q l) →
      (requestRows cell c.lens.seqLens).take (min c.lens.seqLensCpu.sum totalSeqLens) =
        requests.flatten.map part := by
    intro γ part cell hcell
    have heq := h.requestRows_eq Nat.one_pos part hcell
    rw [map_own_one, stage_one, ← List.map_flatten] at heq
    rw [heq, min_eq_left hroom, h.seqLensCpu]
    exact List.take_of_length_le (by rw [List.length_map, List.length_flatten])
  rw [gatherStep, buildPrefillChunkMetadata, if_neg (lt_irrefl 1)]
  simp only [hskip, Bool.false_eq_true, if_false, le_refl, if_true]
  rw [hgather, hrows Prod.fst _ (fun _ _ => rfl), hrows Prod.snd _ (fun _ _ => rfl)]
  rfl

/-- A single rank stages nothing: what it would stage fits. -/
theorem stagesFit_one (hroom : c.lens.seqLensCpu.sum ≤ totalSeqLens) :
    StagesFit 1 totalSeqLens c := by
  intro rr hrr
  obtain rfl : rr = 0 := by omega
  rw [map_own_one, lcap, Nat.div_one]
  omega

/-- **The gather of a chunk** gives the rows of its requests when the stages fit, and
fails otherwise. -/
theorem gatherStep_eq (hgather : GathersRows cpGather) (hN : 0 < N) (h : Sharded N c requests)
    {r : ℕ} (hr : r < N) (hroom : c.lens.seqLensCpu.sum ≤ totalSeqLens)
    (hskip : c.lens.skipKvGather = false) (held : KRows κ σ) :
    (StagesFit N totalSeqLens c →
      gatherStep cpGather N r totalSeqLens held c = some (keyRows requests)) ∧
    (¬ StagesFit N totalSeqLens c → gatherStep cpGather N r totalSeqLens held c = none) := by
  rcases Nat.lt_or_ge 1 N with hmany | hone
  · have hstep := gatherStep_many hgather hmany h r hroom hskip held
    constructor
    · intro hfits
      obtain ⟨kqAll, hkqAll, hkQuant⟩ := gathered_of_fits hN h hfits Prod.fst
      obtain ⟨ksAll, hksAll, hkScale⟩ := gathered_of_fits hN h hfits Prod.snd
      simp only [hstep, hkqAll, Option.bind_some, hksAll, hkQuant, hkScale]
      rfl
    · intro hfits
      have hsizes := mt (staged_lengths_iff h Prod.fst).mp hfits
      simp only [hstep, allGatherv, if_neg hsizes, Option.bind_none]
  · obtain rfl : N = 1 := by omega
    obtain rfl : r = 0 := by omega
    exact ⟨fun _ => gatherStep_one hgather h hroom hskip held,
      fun hfits => absurd (stagesFit_one hroom) hfits⟩

end Step

/-! ### The chunks one after the other -/

section Run
variable {κ σ : Type} {N totalSeqLens r : ℕ} {cpGather : KCache κ σ → List ℕ → ℕ → KRows κ σ}
  {requests : IndexerChunk κ σ → List (List (κ × σ))} {chunks : List (IndexerChunk κ σ)}

/-- A chunk that skips the gather changes nothing. -/
theorem gatherStep_skip {c : IndexerChunk κ σ} (hskip : c.lens.skipKvGather = true)
    (held : KRows κ σ) : gatherStep cpGather N r totalSeqLens held c = some held := by
  have hchunk : (buildPrefillChunkMetadata N r c.lens).skipKvGather = true := by
    unfold buildPrefillChunkMetadata
    split
    · exact hskip
    · exact hskip
  rw [gatherStep, hchunk]
  rfl

/-- A chunk goes through when it skips the gather or its stages fit. -/
theorem gatherStep_returns_iff {c : IndexerChunk κ σ} (hgather : GathersRows cpGather) (hN : 0 < N)
    (h : Sharded N c (requests c)) (hroom : c.lens.seqLensCpu.sum ≤ totalSeqLens) (hr : r < N)
    (held : KRows κ σ) : (∃ held', gatherStep cpGather N r totalSeqLens held c = some held') ↔
      (c.lens.skipKvGather = false → StagesFit N totalSeqLens c) := by
  cases hskip : c.lens.skipKvGather with
  | true => exact ⟨fun _ hno => absurd hno (by simp), fun _ => ⟨held, gatherStep_skip hskip held⟩⟩
  | false =>
    obtain ⟨hfits, hcut⟩ := gatherStep_eq hgather hN h hr hroom hskip held
    constructor
    · rintro ⟨held', hheld⟩ -
      by_contra hno
      rw [hcut hno] at hheld
      cases hheld
    · intro hfit
      exact ⟨_, hfits (hfit rfl)⟩

/-- **A run goes through** exactly when each of its gathers fits. -/
theorem exec_returns_iff (hgather : GathersRows cpGather) (hN : 0 < N)
    (hshard : ∀ c ∈ chunks, Sharded N c (requests c))
    (hroom : ∀ c ∈ chunks, c.lens.seqLensCpu.sum ≤ totalSeqLens) (hr : r < N) (held₀ : KRows κ σ) :
    (∃ held, exec (gatherStep cpGather N r totalSeqLens) held₀ chunks = some held) ↔
      ∀ c ∈ chunks, c.lens.skipKvGather = false → StagesFit N totalSeqLens c := by
  induction chunks generalizing held₀ with
  | nil => simp [exec]
  | cons c chunks ih =>
    rw [List.forall_mem_cons] at hshard hroom ⊢
    rw [← gatherStep_returns_iff hgather hN hshard.1 hroom.1 hr held₀]
    have hrest := ih hshard.2 hroom.2
    constructor
    · rintro ⟨held, hexec⟩
      obtain ⟨held', hstep, hexec⟩ := Option.bind_eq_some_iff.mp hexec
      exact ⟨⟨held', hstep⟩, (hrest held').mp ⟨held, hexec⟩⟩
    · rintro ⟨⟨held', hstep⟩, hfits⟩
      obtain ⟨held, hexec⟩ := (hrest held').mpr hfits
      exact ⟨held, Option.bind_eq_some_iff.mpr ⟨held', hstep, hexec⟩⟩

/-- **After each chunk a rank holds the rows of the chunk's requests**, whether it gathered
them or skipped the gather. -/
theorem held_of_exec (hgather : GathersRows cpGather) (hN : 0 < N)
    (hshard : ∀ c ∈ chunks, Sharded N c (requests c))
    (hroom : ∀ c ∈ chunks, c.lens.seqLensCpu.sum ≤ totalSeqLens)
    (hskips : SkipsFollow requests chunks) (hr : r < N) {held₀ : KRows κ σ} :
    ∀ before c held, before ++ [c] <+: chunks →
      exec (gatherStep cpGather N r totalSeqLens) held₀ (before ++ [c]) = some held →
      held = keyRows (requests c) := by
  -- by induction on the chunks before, from the back: a skipped chunk passes on what its
  -- predecessor left
  have hlast : ∀ front, front <+: chunks → ∀ held,
      exec (gatherStep cpGather N r totalSeqLens) held₀ front = some held →
      ∀ c, front.getLast? = some c → held = keyRows (requests c) := by
    intro front
    induction front using List.reverseRecOn with
    | nil =>
      intro _ held _ c hc
      cases hc
    | append_singleton front b ih =>
      intro hfront held hexec c hc
      have hb : b ∈ chunks := hfront.subset (List.mem_append_right _ (List.mem_singleton_self b))
      obtain rfl : b = c := by simpa using hc
      rw [exec_snoc, Option.bind_eq_some_iff] at hexec
      obtain ⟨held', hbefore, hstep⟩ := hexec
      cases hskip : b.lens.skipKvGather with
      | true =>
        rw [gatherStep_skip hskip] at hstep
        obtain rfl : held' = held := Option.some.inj hstep
        obtain ⟨c', hc', hsame⟩ := Option.map_eq_some_iff.mp (hskips front b hfront hskip)
        rw [← hsame]
        exact ih ((List.prefix_append front [b]).trans hfront) held' hbefore c' hc'
      | false =>
        obtain ⟨hfits, hcut⟩ := gatherStep_eq hgather hN (hshard b hb) hr (hroom b hb) hskip held'
        by_cases hfit : StagesFit N totalSeqLens b
        · exact (Option.some.inj ((hfits hfit).symm.trans hstep)).symm
        · rw [hcut hfit] at hstep
          cases hstep
  intro before c held hfront hexec
  exact hlast (before ++ [c]) hfront held hexec c (by simp)

end Run

/-- **The prefill gather of the ranks is that of a single rank, where their stages fit.**
For every number of ranks, every sequence of chunks and every rank, the run goes through
exactly when each rank's share of every gathered chunk fits the staging buffers, which a
single rank does not use; and after each chunk the rank holds the K rows of the chunk's
requests and their scales, in order. -/
theorem prefill_keys_iff {κ σ : Type} {N : ℕ} (hN : 0 < N)
    {cpGather : KCache κ σ → List ℕ → ℕ → KRows κ σ} (hgather : GathersRows cpGather)
    (totalSeqLens : ℕ) {requests : IndexerChunk κ σ → List (List (κ × σ))}
    {chunks : List (IndexerChunk κ σ)} (hshard : ∀ c ∈ chunks, Sharded N c (requests c))
    (hroom : ∀ c ∈ chunks, c.lens.seqLensCpu.sum ≤ totalSeqLens)
    (hskips : SkipsFollow requests chunks) {r : ℕ} (hr : r < N) (held₀ : KRows κ σ) :
    ((∃ held, exec (gatherStep cpGather N r totalSeqLens) held₀ chunks = some held) ↔
      ∀ c ∈ chunks, c.lens.skipKvGather = false → N = 1 ∨ StagesFit N totalSeqLens c) ∧
    ∀ before c held, before ++ [c] <+: chunks →
      exec (gatherStep cpGather N r totalSeqLens) held₀ (before ++ [c]) = some held →
      held = keyRows (requests c) := by
  refine ⟨(exec_returns_iff hgather hN hshard hroom hr held₀).trans ?_,
    held_of_exec hgather hN hshard hroom hskips hr⟩
  refine forall_congr' fun c => forall_congr' fun hc => forall_congr' fun _ => ?_
  refine ⟨Or.inr, ?_⟩
  rintro (rfl | hfits)
  · exact stagesFit_one (hroom c hc)
  · exact hfits

/-- The lengths behind cumulative lengths. -/
def lengthsOf (cu : List ℕ) : List ℕ := List.zipWith (· - ·) cu.tail cu

theorem lengthsOf_cumsum (lens : List ℕ) : lengthsOf (0 :: cumsum lens) = lens := by
  refine List.ext_getElem (by simp [lengthsOf]) fun i hi hi' => ?_
  have hcu : ∀ j (hj : j < (0 :: cumsum lens).length),
      (0 :: cumsum lens)[j] = (lens.take j).sum := by
    intro j hj
    cases j with
    | zero => rfl
    | succ j => simp [cumsum]
  have hlt : i < (cumsum lens).length := by simpa using hi'
  have hnext : (cumsum lens)[i] = (lens.take (i + 1)).sum := by simp [cumsum]
  simp only [lengthsOf, List.tail_cons, List.getElem_zipWith]
  rw [hcu i (by simp; omega), hnext, List.sum_take_succ lens i hi', Nat.add_sub_cancel_left]

/-- The cache gather on numbers. -/
def gatherRows {κ σ : Type} (cache : KCache κ σ) (cu : List ℕ) (rows : ℕ) : KRows κ σ :=
  ⟨(requestRows cache.kQuant (lengthsOf cu)).take rows,
    (requestRows cache.kScale (lengthsOf cu)).take rows⟩

theorem gatherRows_gathers {κ σ : Type} : GathersRows (gatherRows (κ := κ) (σ := σ)) := by
  intro cache lens rows
  rw [gatherRows, lengthsOf_cumsum]

/-- Two requests of one row, the rows labelled by the requests. -/
def twoRows : IndexerChunk ℕ ℕ where
  lens := ⟨[1, 1], [1, 1], false⟩
  cache := fun _ => ⟨fun q _ => q, fun _ _ => 0⟩

theorem twoRows_sharded : Sharded 2 twoRows [[(0, 0)], [(1, 0)]] where
  seqLens := rfl
  seqLensCpu := rfl
  holds := by
    intro r hr q l hl
    have hpos := (lt_own_iff hr l _).mp hl
    rcases q with _ | _ | q
    · obtain ⟨rfl, rfl⟩ : l = 0 ∧ r = 0 := by simp at hpos; omega
      rfl
    · obtain ⟨rfl, rfl⟩ : l = 0 ∧ r = 0 := by simp at hpos; omega
      rfl
    · simp at hpos

/-- On two ranks the first one owns both rows: a workspace of two rows leaves it one row to
stage, a workspace of three rows leaves it two. -/
theorem prefill_keys_iff_twoRows :
    (¬ ∃ held, exec (gatherStep gatherRows 2 0 2) ⟨[], []⟩ [twoRows] = some held) ∧
    ∃ held, exec (gatherStep gatherRows 2 0 3) ⟨[], []⟩ [twoRows] = some held := by
  have hshard : ∀ c ∈ [twoRows], Sharded 2 c [[(0, 0)], [(1, 0)]] := by
    intro c hc
    rw [List.mem_singleton.mp hc]
    exact twoRows_sharded
  have hroom : ∀ {total}, 2 ≤ total → ∀ c ∈ [twoRows], c.lens.seqLensCpu.sum ≤ total := by
    intro total htotal c hc
    rw [List.mem_singleton.mp hc]
    exact htotal
  have hskips : SkipsFollow (fun _ => [[(0, 0)], [(1, 0)]]) [twoRows] := by
    intro before c hfront hskip
    rw [List.mem_singleton.mp (hfront.subset (List.mem_append_right _ (List.mem_singleton_self c)))]
      at hskip
    cases hskip
  constructor
  · rw [(prefill_keys_iff Nat.two_pos gatherRows_gathers 2 hshard (hroom le_rfl) hskips Nat.two_pos
      _).1]
    intro hfits
    rcases hfits twoRows (List.mem_singleton_self _) rfl with hone | hfit
    · cases hone
    · exact absurd (hfit 0 Nat.two_pos) (by decide)
  · refine (prefill_keys_iff Nat.two_pos gatherRows_gathers 3 hshard (hroom (by decide)) hskips
      Nat.two_pos _).1.mpr fun c hc _ => Or.inr ?_
    rw [List.mem_singleton.mp hc]
    unfold StagesFit
    decide

/-! ### The top-k of a token -/

section Tokens
variable {α : Type} [CommRing α] [LinearOrder α]

/-- The inputs of the logits with the gathered rows as keys. -/
def withKeys (t : MqaInputs α) (held : KRows (ℕ → α) α) : MqaInputs α :=
  { t with
    seqLenKv := held.kQuant.length
    kValues := fun p => held.kQuant.getD p 0
    kScales := fun p => held.kScale.getD p 0 }

/-- The contract of `top_k_per_row_prefill` on a row: the best positions of the row's range,
counted from its start, in any order, and `-1` in the lanes that remain. -/
def PrefillTopk (topk : List (WithBot α) → ℕ → ℕ → ℕ → List ℤ) : Prop :=
  ∀ row ks ke k, ks ≤ ke → ke ≤ row.length → (∀ p, ks ≤ p → p < ke → row.getD p ⊥ ≠ ⊥) →
    ∃ sel, (topk row ks ke k).Perm (padTo k sel) ∧
      IsTopk (fun p => row.getD (ks + p) ⊥) (List.range (ke - ks)) k sel

/-- `topk_indices` of a chunk on rank `r`, behind the owned mask. -/
def chunkTopkIndices (topKPerRowPrefill : List (WithBot α) → ℕ → ℕ → ℕ → List ℤ)
    (configured : Option String)
    (order : List ((ℕ × ℕ) × WithBot α) → List ((ℕ × ℕ) × WithBot α)) (cleanLogits : Bool)
    (N r topkTokens : ℕ) (t : MqaInputs α) (held : KRows (ℕ → α) α) : Option (ℕ → List ℤ) :=
  let t := withKeys t held
  (fp8MqaLogitsSm12x t configured order false cleanLogits).map fun logits row =>
    let rowLogits := (List.range t.seqLenKv).map fun p => (logits row p).getD ⊥
    ownedTopk N r (topKPerRowPrefill rowLogits (t.cuSeqlenKs row).toNat (t.cuSeqlenKe row).toNat
      topkTokens)

/-- A token sees the first `S` keys of a request, which start where the requests before it
end. -/
structure SeesRequest (t : MqaInputs α) (row : ℕ) (requests : List (List ((ℕ → α) × α)))
    (q S : ℕ) : Prop where
  row_lt : row < t.seqLen
  request_lt : q < requests.length
  start : t.cuSeqlenKs row = ((requests.take q).map List.length).sum
  stop : t.cuSeqlenKe row = ((requests.take q).map List.length).sum + S
  visible : S ≤ (requests.getD q []).length

/-- The score of a key for a token, among the keys of its request alone. -/
def tokenScore (t : MqaInputs α) (row : ℕ) (keys : List ((ℕ → α) × α)) (p : ℕ) : WithBot α :=
  (mqaLogit (withKeys t (keyRows [keys])) row p : α)

/-- The logits that the top-k of a token reads. -/
def rowLogits (cleanLogits : Bool) (t : MqaInputs α) (row : ℕ) : List (WithBot α) :=
  (List.range t.seqLenKv).map (cleanLogit t cleanLogits row)

variable {t : MqaInputs α} {row q S : ℕ} {requests : List (List ((ℕ → α) × α))}

/-- Among all requests' keys a token scores its own as it does alone. -/
theorem mqaLogit_keyRows (h : SeesRequest t row requests q S) {p : ℕ} (hp : p < S) :
    ((mqaLogit (withKeys t (keyRows requests)) row
        (((requests.take q).map List.length).sum + p) : α) : WithBot α) =
      tokenScore t row (requests.getD q []) p := by
  have hq : requests[q]? = some (requests.getD q []) := by
    simp [List.getD_eq_getElem?_getD, List.getElem?_eq_getElem h.request_lt]
  have hlt : p < (requests.getD q []).length := lt_of_lt_of_le hp h.visible
  have hread := getElem?_flatten_offset hq (List.getElem?_eq_getElem hlt)
  have hkey : ∀ {γ : Type} (part : (ℕ → α) × α → γ) (d : γ),
      (requests.flatten.map part).getD (((requests.take q).map List.length).sum + p) d =
        (([requests.getD q []] : List _).flatten.map part).getD p d := by
    intro γ part d
    rw [List.getD_eq_getElem?_getD, List.getD_eq_getElem?_getD, List.getElem?_map, hread,
      List.flatten_singleton, List.getElem?_map, List.getElem?_eq_getElem hlt]
  unfold tokenScore mqaLogit headLogit withKeys keyRows
  simp only [hkey]

theorem chunkTopkIndices_eq (topk : List (WithBot α) → ℕ → ℕ → ℕ → List ℤ)
    (configured : Option String)
    (order : List ((ℕ × ℕ) × WithBot α) → List ((ℕ × ℕ) × WithBot α))
    (horder : ∀ stores, (order stores).Perm stores) (cleanLogits : Bool) (N r topkTokens : ℕ)
    (held : KRows (ℕ → α) α) :
    ∃ rows, chunkTopkIndices topk configured order cleanLogits N r topkTokens t held = some rows ∧
      ∀ row < t.seqLen, rows row = ownedTopk N r (topk (rowLogits cleanLogits (withKeys t held) row)
        (t.cuSeqlenKs row).toNat (t.cuSeqlenKe row).toNat topkTokens) := by
  obtain ⟨logits, hlogits, hvalue⟩ :=
    fp8MqaLogitsSm12x_eq (withKeys t held) configured horder cleanLogits
  refine ⟨_, by rw [chunkTopkIndices, hlogits, Option.map_some], fun row hrow => ?_⟩
  have hrows : (List.range (withKeys t held).seqLenKv).map (fun p => (logits row p).getD ⊥) =
      rowLogits cleanLogits (withKeys t held) row := by
    refine List.map_congr_left fun p hp => ?_
    rw [hvalue row hrow p (List.mem_range.mp hp), Option.getD_some]
  simp only [hrows]
  rfl

omit [CommRing α] [LinearOrder α] in
/-- The range of a token lies within the gathered rows. -/
theorem SeesRequest.range_le (h : SeesRequest t row requests q S) :
    ((requests.take q).map List.length).sum + S ≤ requests.flatten.length := by
  have hsplit : requests = requests.take q ++ requests.getD q [] :: requests.drop (q + 1) := by
    rw [List.getD_eq_getElem?_getD, List.getElem?_eq_getElem h.request_lt, Option.getD_some,
      List.getElem_cons_drop, List.take_append_drop]
  have hvisible := h.visible
  have hlen : requests.flatten.length = ((requests.take q).map List.length).sum +
      ((requests.getD q []).length + ((requests.drop (q + 1)).map List.length).sum) := by
    conv_lhs => rw [hsplit]
    rw [List.length_flatten, List.map_append, List.sum_append, List.map_cons, List.sum_cons]
  omega

/-- The logits in the range of a token are its scores. -/
theorem getD_rowLogits (h : SeesRequest t row requests q S) (cleanLogits : Bool) {p : ℕ}
    (hp : p < S) :
    (rowLogits cleanLogits (withKeys t (keyRows requests)) row).getD
        (((requests.take q).map List.length).sum + p) ⊥ =
      tokenScore t row (requests.getD q []) p := by
  have hrange := h.range_le
  have hlt : ((requests.take q).map List.length).sum + p <
      (withKeys t (keyRows requests)).seqLenKv := by
    show _ < (requests.flatten.map Prod.fst).length
    rw [List.length_map]
    omega
  have hvalid : valid (withKeys t (keyRows requests)) row
      (((requests.take q).map List.length).sum + p) = true := by
    show (decide (t.cuSeqlenKs row ≤ _) && decide (_ < t.cuSeqlenKe row)) = true
    rw [h.start, h.stop, Bool.and_eq_true, decide_eq_true_eq, decide_eq_true_eq]
    omega
  rw [rowLogits, List.getD_eq_getElem?_getD, List.getElem?_map, List.getElem?_range hlt,
    Option.map_some, Option.getD_some, cleanLogit, hvalid, Bool.not_true, Bool.and_false,
    if_neg Bool.false_ne_true, mqaLogit_keyRows h hp]

/-- **What the top-k of a token selects**: the top-k of the keys that it sees, scored in
its request alone. -/
theorem prefillTopk_selects {topk : List (WithBot α) → ℕ → ℕ → ℕ → List ℤ}
    (htopk : PrefillTopk topk) (h : SeesRequest t row requests q S) (cleanLogits : Bool)
    (topkTokens : ℕ) :
    ∃ sel, (topk (rowLogits cleanLogits (withKeys t (keyRows requests)) row)
        (t.cuSeqlenKs row).toNat (t.cuSeqlenKe row).toNat topkTokens).Perm (padTo topkTokens sel) ∧
      IsTopk (tokenScore t row (requests.getD q [])) (List.range S) topkTokens sel := by
  have hks : (t.cuSeqlenKs row).toNat = ((requests.take q).map List.length).sum := by
    rw [h.start, Int.toNat_natCast]
  have hke : (t.cuSeqlenKe row).toNat = ((requests.take q).map List.length).sum + S := by
    rw [h.stop]
    omega
  have hlen : (rowLogits cleanLogits (withKeys t (keyRows requests)) row).length =
      requests.flatten.length := by
    rw [rowLogits, List.length_map, List.length_range]
    exact List.length_map _
  have hfinite : ∀ p, ((requests.take q).map List.length).sum ≤ p →
      p < ((requests.take q).map List.length).sum + S →
      (rowLogits cleanLogits (withKeys t (keyRows requests)) row).getD p ⊥ ≠ ⊥ := by
    intro p hge hlt
    obtain ⟨j, rfl⟩ := Nat.exists_eq_add_of_le hge
    rw [getD_rowLogits h cleanLogits (by omega)]
    exact WithBot.coe_ne_bot
  obtain ⟨sel, hperm, htop⟩ := htopk _ _ _ topkTokens (Nat.le_add_right _ S)
    (hlen ▸ h.range_le) hfinite
  rw [Nat.add_sub_cancel_left] at htop
  rw [hks, hke]
  refine ⟨sel, hperm, htop.congr_score fun p hp => ?_⟩
  exact getD_rowLogits h cleanLogits (List.mem_range.mp hp)

end Tokens

end Glm52.IndexerPrefill
