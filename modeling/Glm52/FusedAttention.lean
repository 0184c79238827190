import Glm52.Fp8Cache
import Glm52.Ragged

/-! # The FP8 sparse decode path, fused and materialised

`flash_mla_with_kvcache` attends over the cache rows a slot list names.  The fused
kernel dequantises a tile of rows in place and updates the online softmax a tile at a
time; the materialised path first gathers the rows into a buffer, then takes the
candidates one by one.  The two mask invalid slots at different points: the fused
kernel by a `-inf` score and a zero weight within the tile, the materialised one by
skipping.

Both reach the state of the same candidates (`fusedAttnKernel_stateOf`,
`materializedAttnKernel_stateOf`): the valid slots below the token's cap, in lane
order. -/
namespace Glm52
open ExactFloat Softmax OnlineSoftmax

/-! ### Gather and dequantise -/

/-- `_gather_dequant_fp8ds_kernel`: lane `d` of the row gathered for `slot`. -/
noncomputable def gatherDequantFp8dsKernel (cache : Fp8Cache) (slot : ℤ) (d : ℕ) : Scalar :=
  let isValid := validSlot cache slot
  let headDim := fp8dsNopeDim + fp8dsRopeDim
  let dimMask : Bool := d < headDim
  let nopeMask : Bool := d < fp8dsNopeDim
  let ropeMask : Bool := fp8dsNopeDim ≤ d ∧ dimMask
  let nope := nopeLane cache slot d (nopeMask && isValid)
  let ropeElem := d - fp8dsNopeDim
  let rope := ropeLane cache slot ropeElem (ropeMask && isValid)
  let kv := if nopeMask then nope else rope
  if dimMask && isValid then kv else 0

/-! ### The materialised path -/

/-- `_materialized_attn_kernel`, for one token and head, over the gathered rows
`kv c` and their `valid` flags. -/
noncomputable def materializedAttnKernel (headDim numCandidates : ℕ) (scale : ℝ) (q : ℕ → Scalar)
    (kv : ℕ → ℕ → Scalar) (valid : ℕ → Bool) : State ℕ :=
  (List.range numCandidates).foldl (fun (s : State ℕ) (c : ℕ) =>
    if valid c then push s (laneDot headDim q (kv c) * fin scale) (loadMasked headDim (kv c))
    else s) State.empty

/-- Gather, then `_materialized_indexed_accumulate`, for one token; `valid` is narrowed
by the cap only when one is given. -/
noncomputable def materializedIndexedAccumulate (numHeads : ℕ) (cache : Fp8Cache) (scale : ℝ)
    (q : ℕ → ℕ → Scalar) (indices : List ℤ) (topkLength : Option ℤ) : ℕ → State ℕ :=
  let slot := fun c => indices.getD c (-1)
  let valid := fun c => validSlot cache (slot c) &&
    match topkLength with
    | some lens => decide ((c : ℤ) < lens)
    | none => true
  let headBlock := if 8 ≤ numHeads then 8 else 1
  launchHeads headBlock numHeads
    (fun h => materializedAttnKernel dqk indices.length scale (q h)
      (fun c => gatherDequantFp8dsKernel cache (slot c)) valid)
    (fun _ => State.empty)

/-! ### The fused kernel -/

/-- Candidate column `cand` of a tile of the fused kernel. -/
noncomputable def fusedLane (cache : Fp8Cache) (scale : ℝ) (q : ℕ → Scalar) (indices : List ℤ)
    (validLen : ℤ) (cand : ℕ) : Lane ℕ :=
  let slot := if cand < indices.length then indices.getD cand (-1) else -1
  let candValid := validSlot cache slot && decide ((cand : ℤ) < validLen)
  let kvNope := fun d =>
    let nmask := candValid && decide (d < fp8dsNopeDim)
    if nmask then nopeLane cache slot d nmask else 0
  let kvRope := fun e =>
    let rmask := candValid && decide (e < fp8dsRopeDim)
    if rmask then ropeLane cache slot e rmask else 0
  let scores := ((List.range fp8dsNopeDim).map (fun d => q d * kvNope d)).sum +
    ((List.range fp8dsRopeDim).map (fun e => q (fp8dsNopeDim + e) * kvRope e)).sum
  { valid := candValid, score := scores * fin scale, value := kvNope }

/-- `_fused_gather_dequant_attn_kernel`, for one token and head. -/
noncomputable def fusedGatherDequantAttnKernel (blockN : ℕ) (cache : Fp8Cache) (scale : ℝ)
    (q : ℕ → Scalar) (indices : List ℤ) (validLen : ℤ) : State ℕ :=
  let tiles := (List.range ((indices.length + blockN - 1) / blockN)).map (· * blockN)
  tiles.foldl (fun (s : State ℕ) (n0 : ℕ) =>
    pushTile s ((List.range blockN).map
      (fun j => fusedLane cache scale q indices validLen (n0 + j)))) State.empty

/-- `_FUSED_BLOCK_N`. -/
def fusedBlockN : ℕ := 32

/-- `_FUSED_HEAD_BLOCK`. -/
def fusedHeadBlock : ℕ := 16

/-- `_fused_gather_dequant_attend`, for one token. -/
noncomputable def fusedGatherDequantAttend (blockN numHeads : ℕ) (cache : Fp8Cache) (scale : ℝ)
    (q : ℕ → ℕ → Scalar) (indices : List ℤ) (lens : ℤ) : ℕ → State ℕ :=
  let headBlock := if 16 ≤ numHeads then fusedHeadBlock else (max numHeads 1).nextPowerOfTwo
  launchHeads (max headBlock 16) numHeads
    (fun h => fusedGatherDequantAttnKernel blockN cache scale (q h) indices lens)
    (fun _ => State.empty)

/-! ### The wrapper -/

/-- What the sparse decode op returns, for a flattened token, a head and a value
dimension. -/
structure DecodeResult where
  out : ℕ → ℕ → ℕ → Scalar
  lse : ℕ → ℕ → Scalar

/-- The states of one token, by the path that `VLLM_SPARSE_MLA_FUSED` selects. -/
noncomputable def decodeState (fusedEnabled : Bool) (blockN numHeads : ℕ) (cache : Fp8Cache)
    (scale : ℝ) (q : ℕ → ℕ → Scalar) (indices : List ℤ) (topkLength : Option ℤ) : ℕ → State ℕ :=
  if fusedEnabled then
    fusedGatherDequantAttend blockN numHeads cache scale q indices
      (topkLength.getD indices.length)
  else materializedIndexedAccumulate numHeads cache scale q indices topkLength

/-- `flash_mla_with_kvcache_triton`, over the flattened batch. -/
noncomputable def flashMlaWithKvcacheTriton (fusedEnabled : Bool) (hQ : ℕ) (cache : Fp8Cache)
    (softmaxScale : ℝ) (q : ℕ → ℕ → ℕ → Scalar) (indices : ℕ → List ℤ)
    (attnSink : Option (ℕ → Scalar)) (topkLength : Option (ℕ → ℤ)) : DecodeResult :=
  let state := fun t => decodeState fusedEnabled fusedBlockN hQ cache softmaxScale (q t)
    (indices t) (topkLength.map (fun lens => lens t))
  { out := fun t h d => finishAttentionStateWithSinkKernel (state t h) (sinkOrNone attnSink h) d
    lse := fun t h => stateLse (state t h) }

/-! ### Rows and lanes -/

/-- The rows of the cache decode to the numbers `y`. -/
def DecodesTo (cache : Fp8Cache) (y : ℕ → ℕ → ℝ) : Prop :=
  ∀ s < cache.totalSlots, HoldsLanes dqk (cache.entry s) (y s)

/-- The rows that a slot list names decode to the numbers `y`; what the other rows hold
is not said. -/
def RowsDecodeTo (cache : Fp8Cache) (y : ℕ → ℕ → ℝ) (indices : List ℤ) : Prop :=
  ∀ slot ∈ indices, validSlot cache slot = true →
    HoldsLanes dqk (cache.entry slot.toNat) (y slot.toNat)

/-- The candidates of a token: the rows named by the valid slots among the first
`cap` lanes. -/
noncomputable def slotCandidates (cache : Fp8Cache) (scale : ℝ) (x : ℕ → ℝ) (y : ℕ → ℕ → ℝ)
    (indices : List ℤ) (topkLength : Option ℤ) : List (Candidate (ℕ → ℝ)) :=
  rowCandidates cache.totalSlots scale x y
    (indices.take (topkLength.getD indices.length).toNat)

section Lanes
variable {cache : Fp8Cache} {y : ℕ → ℕ → ℝ} {slot : ℤ}

theorem validSlot_iff : validSlot cache slot = true ↔ 0 ≤ slot ∧ slot < cache.totalSlots := by
  simp [validSlot]

theorem DecodesTo.rows (hy : DecodesTo cache y) (indices : List ℤ) :
    RowsDecodeTo cache y indices := by
  intro slot _ hslot
  obtain ⟨hnonneg, hlt⟩ := validSlot_iff.mp hslot
  exact hy slot.toNat (by omega)

/-- A valid lane is one of the list's. -/
theorem RowsDecodeTo.lane {indices : List ℤ} (hy : RowsDecodeTo cache y indices) {c : ℕ}
    (hslot : validSlot cache (indices.getD c (-1)) = true) :
    HoldsLanes dqk (cache.entry (indices.getD c (-1)).toNat) (y (indices.getD c (-1)).toNat) := by
  apply hy _ _ hslot
  rw [List.getD_eq_getElem?_getD] at hslot ⊢
  cases hlane : indices[c]? with
  | some i => exact List.mem_of_getElem? hlane
  | none => simp [hlane, validSlot] at hslot

/-- **A gathered row is the decoded row.** -/
theorem gatherDequant_valid (hrow : HoldsLanes dqk (cache.entry slot.toNat) (y slot.toNat))
    (hslot : validSlot cache slot = true) :
    HoldsLanes dqk (gatherDequantFp8dsKernel cache slot) (y slot.toNat) := by
  intro d hd
  have hdim : d < fp8dsNopeDim + fp8dsRopeDim := hd
  rw [← hrow d hd, Fp8Cache.entry]
  by_cases hnope : d < 512
  · have hmask : d < fp8dsNopeDim := hnope
    simp only [gatherDequantFp8dsKernel, hslot, hdim, hmask, decide_true, Bool.and_self, if_true,
      nopeLane_valid, if_pos hnope]
  · have hmask : ¬ d < fp8dsNopeDim := hnope
    have hrope : fp8dsNopeDim ≤ d := not_lt.mp hmask
    simp only [gatherDequantFp8dsKernel, hslot, hdim, hmask, hrope, decide_true, decide_false,
      Bool.and_self, and_self, if_true, Bool.false_eq_true, if_false, ropeLane_valid,
      if_neg hnope]
    rfl

theorem fused_nope_valid (hrow : HoldsLanes dqk (cache.entry slot.toNat) (y slot.toNat)) {d : ℕ}
    (hd : d < 512) : nopeLane cache slot d true = fin (y slot.toNat d) := by
  rw [nopeLane_valid, ← hrow d (lt_trans hd (by decide)), Fp8Cache.entry, if_pos hd]

theorem fused_rope_valid (hrow : HoldsLanes dqk (cache.entry slot.toNat) (y slot.toNat)) {e : ℕ}
    (he : e < 64) : ropeLane cache slot e true = fin (y slot.toNat (512 + e)) := by
  have hd : 512 + e < dqk := by rw [dqk]; omega
  rw [ropeLane_valid, ← hrow _ hd, Fp8Cache.entry, if_neg (by omega), Nat.add_sub_cancel_left]

end Lanes

/-- The NoPE and the RoPE part of a score. -/
theorem dot_split (x y : ℕ → ℝ) :
    dot dqk x y = ((List.range fp8dsNopeDim).map (fun d => x d * y d)).sum +
      ((List.range fp8dsRopeDim).map
        (fun e => x (fp8dsNopeDim + e) * y (fp8dsNopeDim + e))).sum :=
  Finset.sum_range_add (fun d => x d * y d) fp8dsNopeDim fp8dsRopeDim

/-! ### Both paths take in the same candidates -/

section Paths
variable {cache : Fp8Cache} {y : ℕ → ℕ → ℝ} (scale : ℝ) (x : ℕ → ℝ) (indices : List ℤ)
  (topkLength : Option ℤ)

/-- The candidate of lane `c`, if the lane is below the cap and its slot is valid. -/
noncomputable def laneCandidate (cache : Fp8Cache) (y : ℕ → ℕ → ℝ) (c : ℕ) :
    Option (Candidate (ℕ → ℝ)) :=
  (indices.take (topkLength.getD indices.length).toNat)[c]?.bind
    (indexedCandidate dqk cache.totalSlots scale x y)

/-- What decides about a lane: its slot, and the cap. -/
theorem laneCandidate_eq (c : ℕ) :
    laneCandidate scale x indices topkLength cache y c =
      if validSlot cache (indices.getD c (-1)) &&
          decide ((c : ℤ) < topkLength.getD indices.length) then
        some (dot dqk x (y (indices.getD c (-1)).toNat) * scale, y (indices.getD c (-1)).toNat)
      else none := by
  unfold laneCandidate
  rw [List.getElem?_take]
  by_cases hcap : (c : ℤ) < topkLength.getD indices.length
  · rw [if_pos (by omega), decide_eq_true hcap, Bool.and_true]
    by_cases hc : c < indices.length
    · simp [hc, indexedCandidate, validSlot_iff]
    · simp [hc, validSlot]
  · rw [if_neg (by omega), decide_eq_false hcap, Bool.and_false]
    rfl

theorem filterMap_laneCandidate {n : ℕ} (hn : indices.length ≤ n) :
    (List.range n).filterMap (laneCandidate scale x indices topkLength cache y) =
      slotCandidates cache scale x y indices topkLength :=
  Ragged.filterMap_range_getElem? _ _ (le_trans (by simp) hn)

theorem empty_eq_stateOf (n : ℕ) : (State.empty : State ℕ) = stateOf (truncate n []) :=
  stateOf_nil.symm

/-- **The materialised path takes in the candidates**, lane by lane. -/
theorem materializedIndexedAccumulate_stateOf (hy : RowsDecodeTo cache y indices) {numHeads h : ℕ}
    (hh : h < numHeads) {q : ℕ → ℕ → Scalar} (hq : HoldsLanes dqk (q h) x) :
    materializedIndexedAccumulate numHeads cache scale q indices topkLength h =
      stateOf (truncate dqk (slotCandidates cache scale x y indices topkLength)) := by
  have hblock : 0 < if 8 ≤ numHeads then 8 else 1 := by split <;> decide
  rw [← filterMap_laneCandidate scale x indices topkLength le_rfl, ← List.nil_append
    (List.filterMap _ _), materializedIndexedAccumulate]
  dsimp only
  rw [launchHeads_lt hblock hh, materializedAttnKernel, empty_eq_stateOf dqk]
  refine foldl_rep_filterMap (fun l => stateOf (truncate dqk l)) (fun c hc l => ?_) []
  have hcap : (match topkLength with
      | some lens => decide ((c : ℤ) < lens)
      | none => true) = decide ((c : ℤ) < topkLength.getD indices.length) := by
    cases topkLength with
    | none => simpa using List.mem_range.mp hc
    | some lens => rfl
  rw [laneCandidate_eq]
  simp only [hcap]
  split
  · next hvalid =>
    have hslot := (Bool.and_eq_true_iff.mp hvalid).1
    have hrow := gatherDequant_valid (hy.lane hslot) hslot
    rw [laneDot_fin dqk_le_blockD hq hrow, hrow.loadMasked, fin_mul, push_stateOf,
      Option.toList_some, truncate_append]
    rfl
  · rw [Option.toList_none, List.append_nil]

/-- A lane of the fused kernel reads its candidate, and zeros when it has none. -/
theorem fusedLane_reads (hy : RowsDecodeTo cache y indices) {q : ℕ → Scalar}
    (hq : HoldsLanes dqk q x) (c : ℕ) :
    (fusedLane cache scale q indices (topkLength.getD indices.length) c).Reads
      ((laneCandidate scale x indices topkLength cache y c).map
        (fun cand => (cand.1, fun d => if d < 512 then cand.2 d else 0))) := by
  have hslot : (if c < indices.length then indices.getD c (-1) else -1) = indices.getD c (-1) := by
    split
    · rfl
    · next hc =>
      rw [List.getD_eq_getElem?_getD, List.getElem?_eq_none (not_lt.mp hc), Option.getD_none]
  rw [laneCandidate_eq]
  split
  · next hvalid =>
    have hok := hy.lane (Bool.and_eq_true_iff.mp hvalid).1
    refine ⟨by simp only [fusedLane, hslot, hvalid], ?_, fun d => ?_⟩
    · -- the score is the dot product in two parts, without and with rotation
      have hnope : ∀ d ∈ List.range fp8dsNopeDim, (q d *
          (if decide (d < fp8dsNopeDim) then
            nopeLane cache (indices.getD c (-1)) d (decide (d < fp8dsNopeDim)) else 0) : Scalar) =
          fin (x d * y (indices.getD c (-1)).toNat d) := by
        intro d hd
        have hlt : d < fp8dsNopeDim := List.mem_range.mp hd
        rw [hq d (lt_trans hlt (by decide))]
        simp only [hlt, decide_true, if_true, fused_nope_valid hok hlt, fin_mul]
      have hrope : ∀ e ∈ List.range fp8dsRopeDim, (q (fp8dsNopeDim + e) *
          (if decide (e < fp8dsRopeDim) then
            ropeLane cache (indices.getD c (-1)) e (decide (e < fp8dsRopeDim)) else 0) : Scalar) =
          fin (x (fp8dsNopeDim + e) * y (indices.getD c (-1)).toNat (fp8dsNopeDim + e)) := by
        intro e he
        have hlt : e < fp8dsRopeDim := List.mem_range.mp he
        rw [hq (fp8dsNopeDim + e) (Nat.add_lt_add_left hlt _)]
        simp only [hlt, decide_true, if_true, fused_rope_valid hok hlt]
        rfl
      simp only [fusedLane, hslot, hvalid, Bool.true_and]
      rw [List.map_congr_left hnope, List.map_congr_left hrope, sum_map_fin, sum_map_fin, fin_add,
        fin_mul, dot_split]
    · simp only [fusedLane, hslot, hvalid, Bool.true_and]
      by_cases hd : d < 512
      · have hlt : d < fp8dsNopeDim := hd
        simp only [hlt, decide_true, if_true, if_pos hd, fused_nope_valid hok hlt]
      · have hge : ¬ d < fp8dsNopeDim := hd
        simp only [hge, decide_false, Bool.false_eq_true, if_false, if_neg hd, zero_def]
  · next hvalid =>
    have hvalid := Bool.eq_false_iff.mpr hvalid
    refine ⟨by simp only [fusedLane, hslot, hvalid], fun d => ?_⟩
    simp only [fusedLane, hslot, hvalid, Bool.false_and, Bool.false_eq_true, if_false]

/-- **The fused kernel takes in the candidates**, tile by tile, for every tile
width. -/
theorem fusedAttnKernel_stateOf (hy : RowsDecodeTo cache y indices) {blockN : ℕ} (hN : 0 < blockN)
    {q : ℕ → Scalar} (hq : HoldsLanes dqk q x) :
    fusedGatherDequantAttnKernel blockN cache scale q indices (topkLength.getD indices.length) =
      stateOf (truncate dv (slotCandidates cache scale x y indices topkLength)) := by
  have hcover : indices.length ≤ (indices.length + blockN - 1) / blockN * blockN := by
    have hdiv := Nat.div_add_mod' (indices.length + blockN - 1) blockN
    have hmod := Nat.mod_lt (indices.length + blockN - 1) hN
    omega
  have htiles : slotCandidates cache scale x y indices topkLength =
      ((List.range ((indices.length + blockN - 1) / blockN)).map (· * blockN)).flatMap
        (fun n0 => (List.range blockN).filterMap
          (fun j => laneCandidate scale x indices topkLength cache y (n0 + j))) := by
    rw [← filterMap_laneCandidate scale x indices topkLength hcover, Ragged.range_mul,
      List.filterMap_flatMap, List.flatMap_map]
    simp only [List.filterMap_map, Function.comp_def]
  rw [htiles, ← List.nil_append (List.flatMap _ _), fusedGatherDequantAttnKernel,
    empty_eq_stateOf dv]
  refine foldl_rep (fun l => stateOf (truncate dv l)) (fun n0 _ l => ?_) []
  have hreads : List.Forall₂ Lane.Reads
      ((List.range blockN).map (fun j => fusedLane cache scale q indices
        (topkLength.getD indices.length) (n0 + j)))
      ((List.range blockN).map (fun j => (laneCandidate scale x indices topkLength cache y
        (n0 + j)).map (fun cand => (cand.1, fun d => if d < 512 then cand.2 d else 0)))) := by
    rw [List.forall₂_map_left_iff, List.forall₂_map_right_iff, List.forall₂_same]
    exact fun j _ => fusedLane_reads scale x indices topkLength hy hq (n0 + j)
  rw [pushTile_stateOf _ hreads, truncate_append, truncate, truncate, List.map_filterMap,
    List.reduceOption, List.filterMap_map]
  rfl

/-- The state of a head, up to the coordinates the path does not compute. -/
theorem decodeState_stateOf (hy : RowsDecodeTo cache y indices) (fusedEnabled : Bool) {blockN : ℕ}
    (hN : 0 < blockN) {numHeads h : ℕ} (hh : h < numHeads) {q : ℕ → ℕ → Scalar}
    (hq : HoldsLanes dqk (q h) x) :
    ∃ n, dv ≤ n ∧ decodeState fusedEnabled blockN numHeads cache scale q indices topkLength h =
      stateOf (truncate n (slotCandidates cache scale x y indices topkLength)) := by
  cases fusedEnabled with
  | false =>
    exact ⟨dqk, by decide,
      materializedIndexedAccumulate_stateOf scale x indices topkLength hy hh hq⟩
  | true =>
    refine ⟨dv, le_rfl, ?_⟩
    show fusedGatherDequantAttend _ _ _ _ _ _ _ h = _
    rw [fusedGatherDequantAttend, launchHeads_lt (by omega) hh]
    exact fusedAttnKernel_stateOf scale x indices topkLength hy hN hq

end Paths

/-- **The FP8 path is softmax attention over its candidates**, with their
log-sum-exp, whichever kernel runs. -/
theorem flashMlaWithKvcacheTriton_eq {cache : Fp8Cache} {y : ℕ → ℕ → ℝ} (indices : ℕ → List ℤ)
    (t : ℕ) (hy : RowsDecodeTo cache y (indices t)) (fusedEnabled : Bool) {hQ h : ℕ} (hh : h < hQ)
    (scale : ℝ) {q : ℕ → ℕ → ℕ → Scalar} {x : ℕ → ℝ} (hq : HoldsLanes dqk (q t h) x)
    (topkLength : Option (ℕ → ℤ)) :
    let r := flashMlaWithKvcacheTriton fusedEnabled hQ cache scale q indices none topkLength
    let cands := slotCandidates cache scale x y (indices t) (topkLength.map (fun lens => lens t))
    (∀ d < dv, r.out t h d = fin (attend cands d)) ∧ r.lse t h = logSumExp cands := by
  intro r cands
  obtain ⟨n, hn, hstate⟩ := decodeState_stateOf scale x (indices t)
    (topkLength.map (fun lens => lens t)) hy fusedEnabled (show 0 < fusedBlockN by decide) hh hq
  constructor
  · intro d hd
    show finishAttentionStateWithSinkKernel (decodeState _ _ _ _ _ _ _ _ h) negInf d = _
    rw [hstate, finish_stateOf, attend_truncate (lt_of_lt_of_le hd hn)]
  · show stateLse (decodeState _ _ _ _ _ _ _ _ h) = _
    rw [hstate, stateLse_stateOf, logSumExp_truncate]

/-! ### Agreement of the two kernels -/

/-- What the state of the candidates `cands` means, for a path that computes at least
the `dv` value coordinates: the output and the log-sum-exp are those of `cands`;
without candidates everything is empty; with one the denominator is at least one. -/
theorem stateOf_truncate_reads {n : ℕ} (hn : dv ≤ n) (cands : List (Candidate (ℕ → ℝ))) :
    let s := stateOf (truncate n cands)
    (∀ d < dv, finishAttentionStateWithSinkKernel s negInf d = fin (attend cands d)) ∧
    stateLse s = logSumExp cands ∧
    (cands = [] → s.maxScore = negInf ∧ s.denom = fin 0 ∧ (∀ d < dv, s.acc d = fin 0) ∧
      (∀ d < dv, finishAttentionStateWithSinkKernel s negInf d = fin 0) ∧
      stateLse s = negInf) ∧
    (cands ≠ [] → ∃ v, 1 ≤ v ∧ s.denom = fin v ∧ clampMin s.denom 1e-30 = s.denom) := by
  have hout : ∀ d < dv, finishAttentionStateWithSinkKernel (stateOf (truncate n cands)) negInf d =
      fin (attend cands d) := by
    intro d hd
    rw [finish_stateOf, attend_truncate (lt_of_lt_of_le hd hn)]
  have hlse : stateLse (stateOf (truncate n cands)) = logSumExp cands := by
    rw [stateLse_stateOf, logSumExp_truncate]
  refine ⟨hout, hlse, ?_, fun hne => ?_⟩
  · rintro rfl
    refine ⟨by simp [State.empty], by simp [State.empty, zero_def],
      fun d _ => by simp [State.empty, zero_def], fun d hd => ?_, ?_⟩
    · rw [hout d hd, attend_nil]
      rfl
    · rw [hlse, logSumExp_nil]
  · obtain ⟨v, hv, hone⟩ := denom_stateOf hne
    have hdenom : (stateOf (truncate n cands)).denom = fin v := by
      rw [(stateOf_truncate n cands).2.1, hv]
    exact ⟨v, hone, hdenom, by rw [hdenom, clampMin_of_one_le hone]⟩

/-- **The fused kernel, the materialised path and softmax attention agree**, for every
slot list, cap, tile width and head.  Both paths end in the same maximum, denominator
and value accumulator; the output and the log-sum-exp are those of the valid slots
below the cap; without any the state is empty, the output zero and the log-sum-exp
`-inf`; with one the denominator is at least one and the clamp idle. -/
theorem fused_materialized_agree {cache : Fp8Cache} {y : ℕ → ℕ → ℝ} (hy : DecodesTo cache y)
    {blockN : ℕ} (hN : 0 < blockN) {numHeads h : ℕ} (hh : h < numHeads) (scale : ℝ)
    {q : ℕ → ℕ → Scalar} {x : ℕ → ℝ} (hq : HoldsLanes dqk (q h) x) (indices : List ℤ)
    (topkLength : Option ℤ) :
    let path := fun fusedEnabled => decodeState fusedEnabled blockN numHeads cache scale q indices
      topkLength h
    let cands := slotCandidates cache scale x y indices topkLength
    ((path true).maxScore = (path false).maxScore ∧ (path true).denom = (path false).denom ∧
      ∀ d < dv, (path true).acc d = (path false).acc d) ∧
    ∀ fusedEnabled,
      (∀ d < dv, finishAttentionStateWithSinkKernel (path fusedEnabled) negInf d =
        fin (attend cands d)) ∧
      stateLse (path fusedEnabled) = logSumExp cands ∧
      (cands = [] → (path fusedEnabled).maxScore = negInf ∧ (path fusedEnabled).denom = fin 0 ∧
        (∀ d < dv, (path fusedEnabled).acc d = fin 0) ∧
        (∀ d < dv, finishAttentionStateWithSinkKernel (path fusedEnabled) negInf d = fin 0) ∧
        stateLse (path fusedEnabled) = negInf) ∧
      (cands ≠ [] → ∃ v, 1 ≤ v ∧ (path fusedEnabled).denom = fin v ∧
        clampMin (path fusedEnabled).denom 1e-30 = (path fusedEnabled).denom) := by
  intro path cands
  have hpath : ∀ fusedEnabled, ∃ n, dv ≤ n ∧
      path fusedEnabled = stateOf (truncate n cands) := fun fusedEnabled =>
    decodeState_stateOf scale x indices topkLength (hy.rows indices) fusedEnabled hN hh hq
  refine ⟨?_, fun fusedEnabled => ?_⟩
  · obtain ⟨n, hn, hfused⟩ := hpath true
    obtain ⟨m, hm, hmat⟩ := hpath false
    obtain ⟨hmax, hdenom, hacc⟩ := stateOf_truncate n cands
    obtain ⟨hmax', hdenom', hacc'⟩ := stateOf_truncate m cands
    rw [hfused, hmat]
    refine ⟨by rw [hmax, hmax'], by rw [hdenom, hdenom'], fun d hd => ?_⟩
    rw [hacc d (lt_of_lt_of_le hd hn), hacc' d (lt_of_lt_of_le hd hm)]
  · obtain ⟨n, hn, hstate⟩ := hpath fusedEnabled
    rw [hstate]
    exact stateOf_truncate_reads hn cands

/-- A one-row cache: every NoPE value and every scale is one, every RoPE value zero. -/
def unitCache : Fp8Cache where
  totalSlots := 1
  byte := fun _ o =>
    if o < 512 then 0x38#8
    else if 528 ≤ o then 0#8
    else if o % 4 = 2 then 0x80#8
    else if o % 4 = 3 then 0x3F#8
    else 0#8

theorem unitCache_scale (s : ℕ) {j : ℕ} (hj : j < 4) : unitCache.scale s j = fin 1 := by
  have hscale : float32 (0x3F#8 ++ 0x80#8 ++ 0#8 ++ 0#8) = fin 1 := by
    simp [float32, fieldsValue, show (1065353216#32).msb = false by decide]
  rw [← hscale]
  unfold Fp8Cache.scale unitCache
  interval_cases j <;> rfl

theorem unitCache_decodesTo : DecodesTo unitCache (fun _ d => if d < 512 then 1 else 0) := by
  intro s _ d hd
  have hfp8 : float8e4nv 0x38#8 = fin 1 := by
    simp [float8e4nv, fieldsValue, show (56#8).msb = false by decide]
  have hrope : bfloat16 (0#8 ++ 0#8) = fin 0 := by
    simp [bfloat16, float32, fieldsValue]
  unfold Fp8Cache.entry
  by_cases hnope : d < 512
  · rw [if_pos hnope, Fp8Cache.nope, unitCache_scale s (show d / 128 < 4 by omega)]
    simp [unitCache, hnope, hfp8, toScalar, ExactFloat.map]
  · rw [if_neg hnope, Fp8Cache.rope]
    have hhi : unitCache.byte s (528 + 2 * (d - 512) + 1) = 0#8 := by
      simp [unitCache, show ¬ 528 + 2 * (d - 512) + 1 < 512 by omega]
      omega
    have hlo : unitCache.byte s (528 + 2 * (d - 512)) = 0#8 := by
      simp [unitCache, show ¬ 528 + 2 * (d - 512) < 512 by omega]
    rw [hhi, hlo, hrope]
    simp [toScalar, ExactFloat.map, hnope]

/-- Tiles of three lanes over a row with a sentinel and an out-of-range slot. -/
theorem fused_materialized_agree_unitCache :
    (decodeState true 3 2 unitCache 1 (fun _ _ => fin 1) [-1, 0, 7, 0] (some 3) 1).denom =
      (decodeState false 3 2 unitCache 1 (fun _ _ => fin 1) [-1, 0, 7, 0] (some 3) 1).denom :=
  (fused_materialized_agree unitCache_decodesTo (show 0 < 3 by decide) (show 1 < 2 by decide) 1
    (show HoldsLanes dqk (fun _ => fin 1) (fun _ => 1) from fun _ _ => rfl) [-1, 0, 7, 0]
    (some 3)).1.2.1

end Glm52
