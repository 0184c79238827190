import Glm52.FinishWithSink

/-! # Accumulation in chunks, and the two accumulate kernels

A row of KV indices may be accumulated in one call or chunk by chunk, each chunk with
the offset of its first lane, because the cap on the candidates counts lanes of the
whole row.  One run of a kernel over two adjacent chunks is one over both
(`accumulateIndexedLane_append`): the loop is a fold over the lanes below the cap, and the
offset moves the cap by the lanes already seen.

The wrapper picks one of two kernels by the number of heads.  They tile the heads
differently: a program of the scalar kernel computes one head, a program of the
multihead kernel a block of them, with masked loads and stores for the heads and the
dimensions beyond the last.  `scalarProgram` and `multiheadProgram` are these programs
on the stored states of a token, and `launch` runs a grid of them; both launches leave
in every head the same lane of the accumulation (`launch_scalar`, `launch_multihead`).

The scalar kernel is behind an autotuner whose key is the width of the chunk, and updates the
state in place, so the first call for a width takes its lanes in once for each timing run
besides.  `launchedLanes` are the lanes that all these runs visit, and
`chunked_accumulation_iff` says when the calls on the chunks, the call on the row and the
multihead kernel still agree. -/
namespace Glm52
open Autotune ExactFloat Softmax OnlineSoftmax

/-- One pass of the accumulate loop: an entry that is no row of the KV is skipped. -/
noncomputable def indexedStep (headDim numKvRows : ℕ) (scale : ℝ) (q : ℕ → Scalar)
    (kvFlat : ℕ → ℕ → Scalar) (s : State ℕ) (kvIndex : ℤ) : State ℕ :=
  if 0 ≤ kvIndex ∧ kvIndex < numKvRows then
    push s (laneDot headDim q (kvFlat kvIndex.toNat) * fin scale)
      (loadMasked headDim (kvFlat kvIndex.toNat))
  else s

/-- The candidate of an entry, by the lanes of a program: at most 1024 of them make the score. -/
noncomputable def entryCandidate (headDim numKvRows : ℕ) (scale : ℝ) (x : ℕ → ℝ) (y : ℕ → ℕ → ℝ)
    (i : ℤ) : Option (Candidate (ℕ → ℝ)) :=
  if 0 ≤ i ∧ i < numKvRows then
    some ((∑ d ∈ Finset.range (blockD headDim), if d < headDim then x d * y i.toNat d else 0) *
      scale, fun d => if d < headDim then y i.toNat d else 0)
  else none

/-! ### Chunks of a row -/

/-- The autotuner of the one-head kernel behind a call; the multihead kernel has none. -/
def tunerBehind (tuner : Tuner ℕ) (numHeads width : ℕ) : Tuner ℕ :=
  if prefillIndexedHeadBlock ≤ numHeads then tuner else tuner.after width

/-- One call for each chunk, with the chunk's offset in the row. -/
noncomputable def accumulateChunks (numHeads headDim numKvRows : ℕ) (q : ℕ → ℕ → Scalar)
    (kvFlat : ℕ → ℕ → Scalar) (lens : ℤ) (scale : ℝ) :
    Tuner ℕ → ℕ → List (List ℤ) → (ℕ → State ℕ) → ℕ → State ℕ
  | _, _, [], state => state
  | tuner, candidateOffset, chunk :: chunks, state =>
    accumulateChunks numHeads headDim numKvRows q kvFlat lens scale
      (tunerBehind tuner numHeads chunk.length) (candidateOffset + chunk.length) chunks
      (accumulateIndexedSparseMlaAttentionChunk tuner numHeads headDim numKvRows q kvFlat chunk lens
        scale candidateOffset state)

/-- The lanes below the cap that the runs of the one-head kernel visit, in their order: those of
a chunk once for each run of its call. -/
def launchedLanes (lens : ℤ) : Tuner ℕ → ℕ → List (List ℤ) → List ℤ
  | _, _, [] => []
  | tuner, candidateOffset, chunk :: chunks =>
    (List.replicate (tuner.runs chunk.length)
      (chunk.take (lens - candidateOffset).toNat)).flatten ++
      launchedLanes lens (tuner.after chunk.length) (candidateOffset + chunk.length) chunks

section Chunks
variable {numHeads headDim numKvRows : ℕ} {scale : ℝ}

/-- The loop is a fold over the lanes below the cap. -/
theorem accumulateIndexedLane_eq_foldl (candidateOffset : ℕ) (q : ℕ → Scalar)
    (kvFlat : ℕ → ℕ → Scalar) (indices : List ℤ) (validLen : ℤ) (state : State ℕ) :
    accumulateIndexedLane headDim numKvRows candidateOffset scale q kvFlat indices validLen state =
      (indices.take (validLen - candidateOffset).toNat).foldl
        (indexedStep headDim numKvRows scale q kvFlat) state := by
  rw [← take_localEff]
  rfl

/-- The second part's cap is short by the lanes of the first. -/
theorem take_append_cap (candidateOffset : ℕ) (a b : List ℤ) (validLen : ℤ) :
    (a ++ b).take (validLen - candidateOffset).toNat =
      a.take (validLen - candidateOffset).toNat ++
        b.take (validLen - (candidateOffset + a.length : ℕ)).toNat := by
  have hcap : (validLen - candidateOffset).toNat - a.length =
      (validLen - (candidateOffset + a.length : ℕ)).toNat := by omega
  rw [List.take_append, hcap]

/-- **A row in two parts.** -/
theorem accumulateIndexedLane_append (candidateOffset : ℕ) (q : ℕ → Scalar)
    (kvFlat : ℕ → ℕ → Scalar) (a b : List ℤ) (validLen : ℤ) (state : State ℕ) :
    accumulateIndexedLane headDim numKvRows candidateOffset scale q kvFlat (a ++ b) validLen state =
      accumulateIndexedLane headDim numKvRows (candidateOffset + a.length) scale q kvFlat b validLen
        (accumulateIndexedLane headDim numKvRows candidateOffset scale q kvFlat a validLen
          state) := by
  rw [accumulateIndexedLane_eq_foldl, accumulateIndexedLane_eq_foldl,
    accumulateIndexedLane_eq_foldl, take_append_cap, List.foldl_append]

/-- A run takes in the candidates below the cap. -/
theorem accumulateIndexedLane_rep (candidateOffset : ℕ) {q : ℕ → Scalar} {x : ℕ → ℝ}
    (hq : HoldsLanes headDim q x) {kvFlat : ℕ → ℕ → Scalar} {y : ℕ → ℕ → ℝ}
    (hkv : ∀ i < numKvRows, HoldsLanes headDim (kvFlat i) (y i)) (indices : List ℤ) (validLen : ℤ)
    (l : List (Candidate (ℕ → ℝ))) :
    accumulateIndexedLane headDim numKvRows candidateOffset scale q kvFlat indices validLen
      (stateOf l) =
      stateOf (l ++ (indices.take (validLen - candidateOffset).toNat).filterMap
        (entryCandidate headDim numKvRows scale x y)) := by
  rw [accumulateIndexedLane_eq_foldl]
  refine foldl_rep_filterMap stateOf (fun i _ l => ?_) l
  unfold indexedStep entryCandidate
  split
  · next hi =>
    have hrow := hkv i.toNat (by omega)
    rw [laneDot_lanes hq hrow, fin_mul, hrow.loadMasked, push_stateOf, Option.toList_some]
  · rw [Option.toList_none, List.append_nil]

section Wrapper
variable (tuner : Tuner ℕ) (q : ℕ → ℕ → Scalar) (kvFlat : ℕ → ℕ → Scalar) (indices : List ℤ)
  (lens : ℤ) (candidateOffset : ℕ) (state : ℕ → State ℕ) (h : ℕ)

/-- With eight heads or more a call accumulates every head's lane, and leaves what is no head. -/
theorem accumulateIndexedSparse_multihead (hmulti : prefillIndexedHeadBlock ≤ numHeads) :
    accumulateIndexedSparseMlaAttentionChunk tuner numHeads headDim numKvRows q kvFlat indices lens
      scale candidateOffset state h =
      if h < numHeads then accumulateIndexedLane headDim numKvRows candidateOffset scale (q h)
        kvFlat indices lens (state h) else state h := by
  rw [accumulateIndexedSparseMlaAttentionChunk, if_pos hmulti]
  by_cases hh : h < numHeads
  · rw [if_pos hh, launchHeads_lt (by decide) hh]
    rfl
  · rw [if_neg hh, launchHeads_ge hh]

/-- With fewer it does so once for each run. -/
theorem accumulateIndexedSparse_scalar (hscalar : ¬ prefillIndexedHeadBlock ≤ numHeads) :
    accumulateIndexedSparseMlaAttentionChunk tuner numHeads headDim numKvRows q kvFlat indices lens
      scale candidateOffset state h =
      if h < numHeads then tuner.call indices.length (accumulateIndexedLane headDim numKvRows
        candidateOffset scale (q h) kvFlat indices lens) (state h) else state h := by
  rw [accumulateIndexedSparseMlaAttentionChunk, if_neg hscalar]
  refine Tuner.call_apply _ _ (· < numHeads) (fun h => accumulateIndexedLane headDim numKvRows
    candidateOffset scale (q h) kvFlat indices lens) (fun state h => ?_) state h
  split
  · next hh => exact launchHeads_lt Nat.one_pos hh _ _
  · next hh => exact launchHeads_ge hh _ _

end Wrapper

/-- **With eight heads or more, chunk by chunk is the row**, from any state. -/
theorem accumulateChunks_multihead (hmulti : prefillIndexedHeadBlock ≤ numHeads)
    (q : ℕ → ℕ → Scalar) (kvFlat : ℕ → ℕ → Scalar) (lens : ℤ) (tuner tuner' : Tuner ℕ)
    (candidateOffset : ℕ) (chunks : List (List ℤ)) (state : ℕ → State ℕ) :
    accumulateChunks numHeads headDim numKvRows q kvFlat lens scale tuner candidateOffset chunks
      state =
      accumulateIndexedSparseMlaAttentionChunk tuner' numHeads headDim numKvRows q kvFlat
        chunks.flatten lens scale candidateOffset state := by
  funext h
  induction chunks generalizing tuner candidateOffset state with
  | nil =>
    rw [accumulateChunks, List.flatten_nil,
      accumulateIndexedSparse_multihead _ _ _ _ _ _ _ _ hmulti]
    split
    · rw [accumulateIndexedLane_eq_foldl, List.take_nil]
      rfl
    · rfl
  | cons chunk chunks ih =>
    -- the calls behind the first chunk are one call on the rest of the row
    rw [accumulateChunks, ih, List.flatten_cons,
      accumulateIndexedSparse_multihead _ _ _ _ _ _ _ _ hmulti,
      accumulateIndexedSparse_multihead _ _ _ _ _ _ _ _ hmulti,
      accumulateIndexedSparse_multihead _ _ _ _ _ _ _ _ hmulti]
    split
    · rw [accumulateIndexedLane_append]
    · rfl

/-- What is no head keeps its state. -/
theorem accumulateChunks_ge {h : ℕ} (hh : ¬ h < numHeads) (q : ℕ → ℕ → Scalar)
    (kvFlat : ℕ → ℕ → Scalar) (lens : ℤ) (tuner : Tuner ℕ) (candidateOffset : ℕ)
    (chunks : List (List ℤ)) (state : ℕ → State ℕ) :
    accumulateChunks numHeads headDim numKvRows q kvFlat lens scale tuner candidateOffset chunks
      state h = state h := by
  induction chunks generalizing tuner candidateOffset state with
  | nil => rfl
  | cons chunk chunks ih =>
    rw [accumulateChunks, ih]
    by_cases hmulti : prefillIndexedHeadBlock ≤ numHeads
    · rw [accumulateIndexedSparse_multihead _ _ _ _ _ _ _ _ hmulti, if_neg hh]
    · rw [accumulateIndexedSparse_scalar _ _ _ _ _ _ _ _ hmulti, if_neg hh]

/-- **With fewer heads, the calls on the chunks take in the launched lanes.** -/
theorem accumulateChunks_scalar (hscalar : ¬ prefillIndexedHeadBlock ≤ numHeads) {h : ℕ}
    (hh : h < numHeads) {q : ℕ → ℕ → Scalar} {x : ℕ → ℝ} (hq : HoldsLanes headDim (q h) x)
    {kvFlat : ℕ → ℕ → Scalar} {y : ℕ → ℕ → ℝ}
    (hkv : ∀ i < numKvRows, HoldsLanes headDim (kvFlat i) (y i)) (lens : ℤ) (tuner : Tuner ℕ)
    (candidateOffset : ℕ) (chunks : List (List ℤ)) {state : ℕ → State ℕ}
    {l : List (Candidate (ℕ → ℝ))} (hstate : state h = stateOf l) :
    accumulateChunks numHeads headDim numKvRows q kvFlat lens scale tuner candidateOffset chunks
      state h =
      stateOf (l ++ (launchedLanes lens tuner candidateOffset chunks).filterMap
        (entryCandidate headDim numKvRows scale x y)) := by
  induction chunks generalizing tuner candidateOffset state l with
  | nil => rw [accumulateChunks, launchedLanes, List.filterMap_nil, List.append_nil, hstate]
  | cons chunk chunks ih =>
    have hchunk : accumulateIndexedSparseMlaAttentionChunk tuner numHeads headDim numKvRows q kvFlat
        chunk lens scale candidateOffset state h =
        stateOf (l ++ (List.replicate (tuner.runs chunk.length)
          ((chunk.take (lens - candidateOffset).toNat).filterMap
            (entryCandidate headDim numKvRows scale x y))).flatten) := by
      rw [accumulateIndexedSparse_scalar _ _ _ _ _ _ _ _ hscalar, if_pos hh, hstate]
      exact Tuner.call_rep _ _ stateOf
        (accumulateIndexedLane_rep candidateOffset hq hkv chunk lens) l
    rw [accumulateChunks, tunerBehind, if_neg hscalar, ih _ _ hchunk, launchedLanes,
      List.filterMap_append, List.filterMap_flatten, List.map_replicate, List.append_assoc]

/-- With tuned widths the launched lanes are those of the row. -/
theorem launchedLanes_of_tuned {tuner : Tuner ℕ} {chunks : List (List ℤ)}
    (htuned : ∀ chunk ∈ chunks, tuner.tuned chunk.length = true) (lens : ℤ)
    (candidateOffset : ℕ) :
    launchedLanes lens tuner candidateOffset chunks =
      chunks.flatten.take (lens - candidateOffset).toNat := by
  induction chunks generalizing tuner candidateOffset with
  | nil => rw [launchedLanes, List.flatten_nil, List.take_nil]
  | cons chunk chunks ih =>
    have hrest : ∀ c ∈ chunks, (tuner.after chunk.length).tuned c.length = true := fun c hc =>
      Tuner.tuned_after (htuned c (List.mem_cons_of_mem chunk hc))
    rw [launchedLanes, (tuner.runs_eq_one_iff _).mpr (htuned chunk List.mem_cons_self), ih hrest,
      List.flatten_cons, take_append_cap, List.replicate_one, List.flatten_singleton]

end Chunks

/-! ### The programs of the two kernels -/

/-- A head's state as a program loads it: empty where the head mask is off, and the
accumulator masked to the head dimension. -/
noncomputable def loadState (live : Bool) (headDim : ℕ) (s : State ℕ) : State ℕ :=
  if live then { s with acc := loadMasked headDim s.acc } else State.empty

/-- How many dimensions a program stores: its lanes that the mask lets through. -/
def storedDims (headDim : ℕ) : ℕ := min headDim (blockD headDim)

/-- A head's state after the masked stores: only the lanes of the program below the head
dimension are written. -/
def storeState (headDim : ℕ) (old new : State ℕ) : State ℕ where
  maxScore := new.maxScore
  denom := new.denom
  acc := fun d => if d < storedDims headDim then new.acc d else old.acc d

/-- A program of `_accumulate_indexed_attention_chunk_kernel`: head `headIdx` of the
states stored for a token. -/
noncomputable def scalarProgram (headDim numKvRows candidateOffset : ℕ) (scale : ℝ)
    (q : ℕ → ℕ → Scalar) (kvFlat : ℕ → ℕ → Scalar) (indices : List ℤ) (validLen : ℤ) (headIdx : ℕ)
    (states : ℕ → State ℕ) : ℕ → State ℕ :=
  let localEff := min (indices.length : ℤ) (max (validLen - candidateOffset) 0)
  let running := (indices.take localEff.toNat).foldl
    (indexedStep headDim numKvRows scale (q headIdx) kvFlat)
    (loadState true headDim (states headIdx))
  fun h => if h = headIdx then storeState headDim (states headIdx) running else states h

/-- A program of `_accumulate_indexed_attention_chunk_multihead_kernel`: lane `i` holds
head `headBlockIdx * HEAD_BLOCK + i`; lanes beyond the last head load the empty state
and a zero query, and are not stored. -/
noncomputable def multiheadProgram (headBlock numHeads headDim numKvRows candidateOffset : ℕ)
    (scale : ℝ) (q : ℕ → ℕ → Scalar) (kvFlat : ℕ → ℕ → Scalar) (indices : List ℤ) (validLen : ℤ)
    (headBlockIdx : ℕ) (states : ℕ → State ℕ) : ℕ → State ℕ :=
  let headOffsets := fun i => headBlockIdx * headBlock + i
  let headMask := fun i => decide (headOffsets i < numHeads)
  let qTile := fun i d => if headMask i then loadMasked headDim (q (headOffsets i)) d else 0
  let localEff := min (indices.length : ℤ) (max (validLen - candidateOffset) 0)
  let tile := (indices.take localEff.toNat).foldl (fun (tile : ℕ → State ℕ) (kvIndex : ℤ) =>
    if 0 ≤ kvIndex ∧ kvIndex < numKvRows then
      let kv := loadMasked headDim (kvFlat kvIndex.toNat)
      let scores := fun i => ((List.range (blockD headDim)).map (fun d => qTile i d * kv d)).sum *
        fin scale
      fun i => push (tile i) (scores i) kv
    else tile) (fun i => loadState (headMask i) headDim (states (headOffsets i)))
  -- the masked stores: the heads of the block that exist
  fun h =>
    if headOffsets 0 ≤ h ∧ h < headOffsets headBlock ∧ h < numHeads then
      storeState headDim (states h) (tile (h - headOffsets 0))
    else states h

/-- A grid of programs over the heads of a token, one after the other. -/
def launch (grid : ℕ) (program : ℕ → (ℕ → State ℕ) → ℕ → State ℕ) (states : ℕ → State ℕ) :
    ℕ → State ℕ :=
  (List.range grid).foldl (fun states p => program p states) states

/-- The grid over the heads in blocks. -/
def headGrid (headBlock numHeads : ℕ) : ℕ := (numHeads + headBlock - 1) / headBlock

/-- **A launch of programs that own disjoint heads**: every owned head is updated once,
from its stored state. -/
theorem launch_apply {program : ℕ → (ℕ → State ℕ) → ℕ → State ℕ} {owns : ℕ → ℕ → Prop}
    [∀ p h, Decidable (owns p h)] {lane : ℕ → State ℕ → State ℕ}
    (hprogram : ∀ p states h, program p states h = if owns p h then lane h (states h) else states h)
    (hunique : ∀ {p p' h}, owns p h → owns p' h → p = p') (grid : ℕ) (states : ℕ → State ℕ)
    (h : ℕ) :
    launch grid program states h =
      if ∃ p < grid, owns p h then lane h (states h) else states h := by
  induction grid with
  | zero => simp [launch]
  | succ grid ih =>
    have hlast : launch (grid + 1) program states h =
        program grid (launch grid program states) h := by
      rw [launch, List.range_succ, List.foldl_append]
      rfl
    rw [hlast, hprogram, ih]
    by_cases hown : owns grid h
    · -- the earlier programs have left the head alone
      have hfresh : ¬ ∃ p < grid, owns p h := by
        rintro ⟨p, hp, hown'⟩
        exact absurd (hunique hown' hown) hp.ne
      rw [if_pos hown, if_neg hfresh, if_pos ⟨grid, Nat.lt_succ_self grid, hown⟩]
    · have hiff : (∃ p < grid + 1, owns p h) ↔ ∃ p < grid, owns p h := by
        constructor
        · rintro ⟨p, hp, hp'⟩
          refine ⟨p, lt_of_le_of_ne (Nat.le_of_lt_succ hp) ?_, hp'⟩
          rintro rfl
          exact hown hp'
        · rintro ⟨p, hp, hp'⟩
          exact ⟨p, Nat.lt_succ_of_lt hp, hp'⟩
      rw [if_neg hown]
      exact if_congr hiff.symm rfl rfl

section Programs
variable {headDim numKvRows candidateOffset : ℕ} {scale : ℝ}

/-- Two states that agree, the accumulators on the first `n` dimensions. -/
def Agree (n : ℕ) (s s' : State ℕ) : Prop :=
  s.maxScore = s'.maxScore ∧ s.denom = s'.denom ∧ ∀ d < n, s.acc d = s'.acc d

/-- A pass reads no coordinate of the accumulator but the one it writes. -/
theorem Agree.indexedStep {n : ℕ} {s s' : State ℕ} (h : Agree n s s') (q : ℕ → Scalar)
    (kvFlat : ℕ → ℕ → Scalar) (i : ℤ) :
    Agree n (indexedStep headDim numKvRows scale q kvFlat s i)
      (indexedStep headDim numKvRows scale q kvFlat s' i) := by
  obtain ⟨hmax, hdenom, hacc⟩ := h
  unfold Glm52.indexedStep
  split
  · refine ⟨?_, ?_, fun d hd => ?_⟩
    · simp only [push, hmax]
    · simp only [push, hmax, hdenom]
    · simp only [push, hmax, hacc d hd]
  · exact ⟨hmax, hdenom, hacc⟩

theorem Agree.foldl {n : ℕ} {s s' : State ℕ} (h : Agree n s s') (q : ℕ → Scalar)
    (kvFlat : ℕ → ℕ → Scalar) (lanes : List ℤ) :
    Agree n (lanes.foldl (Glm52.indexedStep headDim numKvRows scale q kvFlat) s)
      (lanes.foldl (Glm52.indexedStep headDim numKvRows scale q kvFlat) s') := by
  induction lanes generalizing s s' with
  | nil => exact h
  | cons i lanes ih => exact ih (h.indexedStep q kvFlat i)

theorem Agree.storeState_eq {s s' old : State ℕ} (h : Agree (storedDims headDim) s s') :
    storeState headDim old s = storeState headDim old s' := by
  obtain ⟨hmax, hdenom, hacc⟩ := h
  unfold storeState
  congr 1
  funext d
  split
  · next hd => exact hacc d hd
  · rfl

/-- The masked load loses nothing that is stored. -/
theorem agree_loadState (s : State ℕ) : Agree (storedDims headDim) (loadState true headDim s) s :=
  ⟨rfl, rfl, fun _ hd => if_pos (lt_of_lt_of_le hd (min_le_left _ _))⟩

/-- What is stored is stored. -/
theorem agree_storeState (old new : State ℕ) :
    Agree (storedDims headDim) (storeState headDim old new) new :=
  ⟨rfl, rfl, fun _ hd => if_pos hd⟩

theorem Agree.trans {n : ℕ} {s t u : State ℕ} (hst : Agree n s t) (htu : Agree n t u) :
    Agree n s u :=
  ⟨hst.1.trans htu.1, hst.2.1.trans htu.2.1, fun d hd => (hst.2.2 d hd).trans (htu.2.2 d hd)⟩

/-- A head's lane of the accumulation, loaded and stored. -/
noncomputable def storedLane (headDim numKvRows candidateOffset : ℕ) (scale : ℝ)
    (q : ℕ → ℕ → Scalar) (kvFlat : ℕ → ℕ → Scalar) (indices : List ℤ) (validLen : ℤ) (h : ℕ)
    (s : State ℕ) : State ℕ :=
  storeState headDim s
    (accumulateIndexedLane headDim numKvRows candidateOffset scale (q h) kvFlat indices validLen s)

theorem foldl_loadState_eq (q : ℕ → ℕ → Scalar) (kvFlat : ℕ → ℕ → Scalar) (indices : List ℤ)
    (validLen : ℤ) (h : ℕ) (s : State ℕ) :
    storeState headDim s
      ((indices.take (min (indices.length : ℤ) (max (validLen - candidateOffset) 0)).toNat).foldl
        (indexedStep headDim numKvRows scale (q h) kvFlat) (loadState true headDim s)) =
      storedLane headDim numKvRows candidateOffset scale q kvFlat indices validLen h s :=
  ((agree_loadState s).foldl (q h) kvFlat _).storeState_eq

theorem scalarProgram_apply (q : ℕ → ℕ → Scalar) (kvFlat : ℕ → ℕ → Scalar) (indices : List ℤ)
    (validLen : ℤ) (p : ℕ) (states : ℕ → State ℕ) (h : ℕ) :
    scalarProgram headDim numKvRows candidateOffset scale q kvFlat indices validLen p states h =
      if h = p then storedLane headDim numKvRows candidateOffset scale q kvFlat indices validLen h
        (states h) else states h := by
  unfold scalarProgram
  by_cases hp : h = p
  · subst hp
    rw [if_pos rfl, if_pos rfl, foldl_loadState_eq]
  · rw [if_neg hp, if_neg hp]

/-- A loop over a tile of heads is a loop in each of its lanes. -/
theorem foldl_tile {α σ : Type} (valid : α → Prop) [DecidablePred valid] (f : α → ℕ → σ → σ)
    (xs : List α) (tile : ℕ → σ) (i : ℕ) :
    xs.foldl (fun tile x => if valid x then fun i => f x i (tile i) else tile) tile i =
      xs.foldl (fun s x => if valid x then f x i s else s) (tile i) := by
  induction xs generalizing tile with
  | nil => rfl
  | cons x xs ih =>
    rw [List.foldl_cons, List.foldl_cons, ih]
    split
    · rfl
    · rfl

theorem multiheadProgram_apply (headBlock numHeads : ℕ) (q : ℕ → ℕ → Scalar)
    (kvFlat : ℕ → ℕ → Scalar) (indices : List ℤ) (validLen : ℤ) (p : ℕ) (states : ℕ → State ℕ)
    (h : ℕ) :
    multiheadProgram headBlock numHeads headDim numKvRows candidateOffset scale q kvFlat indices
      validLen p states h =
      if p * headBlock ≤ h ∧ h < p * headBlock + headBlock ∧ h < numHeads then
        storedLane headDim numKvRows candidateOffset scale q kvFlat indices validLen h (states h)
      else states h := by
  unfold multiheadProgram
  by_cases hown : p * headBlock ≤ h ∧ h < p * headBlock + headBlock ∧ h < numHeads
  · obtain ⟨hle, hlt, hlive⟩ := hown
    have hlane : p * headBlock + (h - p * headBlock) = h := by omega
    rw [if_pos ⟨hle, hlt, hlive⟩, if_pos ⟨hle, hlt, hlive⟩, ← foldl_loadState_eq]
    refine congrArg (storeState headDim (states h)) ?_
    -- lane `h - p * headBlock` of the tile is head `h`, whose mask is on
    refine (foldl_tile (fun i : ℤ => 0 ≤ i ∧ i < numKvRows) (fun kvIndex i s =>
      push s (((List.range (blockD headDim)).map (fun d =>
        (if decide (p * headBlock + i < numHeads) then loadMasked headDim (q (p * headBlock + i)) d
          else 0) * loadMasked headDim (kvFlat kvIndex.toNat) d)).sum * fin scale)
        (loadMasked headDim (kvFlat kvIndex.toNat))) _ _ _).trans ?_
    simp only [Nat.add_zero, hlane, hlive, decide_true, if_true]
    rfl
  · rw [if_neg hown]
    exact if_neg hown

theorem launch_scalar (numHeads : ℕ) (q : ℕ → ℕ → Scalar) (kvFlat : ℕ → ℕ → Scalar)
    (indices : List ℤ) (validLen : ℤ) (states : ℕ → State ℕ) (h : ℕ) :
    launch numHeads
      (scalarProgram headDim numKvRows candidateOffset scale q kvFlat indices validLen) states h =
      if h < numHeads then storedLane headDim numKvRows candidateOffset scale q kvFlat indices
        validLen h (states h) else states h := by
  rw [launch_apply (scalarProgram_apply q kvFlat indices validLen)
    (fun hp hp' => hp.symm.trans hp')]
  exact if_congr (by simp) rfl rfl

theorem launch_multihead {headBlock : ℕ} (hB : 0 < headBlock) (numHeads : ℕ) (q : ℕ → ℕ → Scalar)
    (kvFlat : ℕ → ℕ → Scalar) (indices : List ℤ) (validLen : ℤ) (states : ℕ → State ℕ) (h : ℕ) :
    launch (headGrid headBlock numHeads) (multiheadProgram headBlock numHeads headDim numKvRows
      candidateOffset scale q kvFlat indices validLen) states h =
      if h < numHeads then storedLane headDim numKvRows candidateOffset scale q kvFlat indices
        validLen h (states h) else states h := by
  have owner_eq : ∀ {p h : ℕ}, p * headBlock ≤ h ∧ h < p * headBlock + headBlock ∧ h < numHeads →
      h / headBlock = p := by
    rintro p h ⟨hle, hlt, -⟩
    exact Nat.div_eq_of_lt_le hle (by rw [Nat.add_mul]; omega)
  rw [launch_apply (multiheadProgram_apply headBlock numHeads q kvFlat indices validLen)
    (fun hp hp' => (owner_eq hp).symm.trans (owner_eq hp'))]
  refine if_congr ?_ rfl rfl
  constructor
  · rintro ⟨-, -, -, -, hh⟩
    exact hh
  · intro hh
    have hdecomp := Nat.div_add_mod' h headBlock
    have hmod := Nat.mod_lt h hB
    exact ⟨h / headBlock, div_lt_cdiv hB hh, by omega, by omega, hh⟩

/-- A call of the scalar kernel runs its launch as often as the autotuner says. -/
theorem call_launch_scalar (tuner : Tuner ℕ) (numHeads : ℕ) (q : ℕ → ℕ → Scalar)
    (kvFlat : ℕ → ℕ → Scalar) (indices : List ℤ) (validLen : ℤ) (states : ℕ → State ℕ) (h : ℕ) :
    tuner.call indices.length (launch numHeads
      (scalarProgram headDim numKvRows candidateOffset scale q kvFlat indices validLen)) states h =
      if h < numHeads then tuner.call indices.length
        (storedLane headDim numKvRows candidateOffset scale q kvFlat indices validLen h) (states h)
      else states h :=
  Tuner.call_apply _ _ (· < numHeads) _
    (fun states h => launch_scalar numHeads q kvFlat indices validLen states h) states h

/-- A run on the stored state is a run of the lane. -/
theorem agree_storedLane {s t : State ℕ} (h : Agree (storedDims headDim) s t) (q : ℕ → ℕ → Scalar)
    (kvFlat : ℕ → ℕ → Scalar) (indices : List ℤ) (validLen : ℤ) (i : ℕ) :
    Agree (storedDims headDim)
      (storedLane headDim numKvRows candidateOffset scale q kvFlat indices validLen i s)
      (accumulateIndexedLane headDim numKvRows candidateOffset scale (q i) kvFlat indices validLen
        t) := by
  refine (agree_storeState _ _).trans ?_
  rw [accumulateIndexedLane_eq_foldl, accumulateIndexedLane_eq_foldl]
  exact h.foldl (q i) kvFlat _

/-- Lanes that are no row, or a cap that leaves none: the run changes nothing. -/
theorem storedLane_of_none_valid (q : ℕ → ℕ → Scalar) (kvFlat : ℕ → ℕ → Scalar)
    {indices : List ℤ} {validLen : ℤ}
    (hnone : ∀ i ∈ indices.take (validLen - candidateOffset).toNat, ¬ (0 ≤ i ∧ i < numKvRows))
    (h : ℕ) (s : State ℕ) :
    storedLane headDim numKvRows candidateOffset scale q kvFlat indices validLen h s = s := by
  have hfold : ∀ lanes : List ℤ, (∀ i ∈ lanes, ¬ (0 ≤ i ∧ i < numKvRows)) →
      lanes.foldl (indexedStep headDim numKvRows scale (q h) kvFlat) s = s := by
    intro lanes hlanes
    induction lanes with
    | nil => rfl
    | cons i lanes ih =>
      rw [List.foldl_cons, indexedStep, if_neg (hlanes i List.mem_cons_self)]
      exact ih (fun j hj => hlanes j (List.mem_cons_of_mem i hj))
  rw [storedLane, accumulateIndexedLane_eq_foldl, hfold _ hnone, storeState]
  simp only [ite_self]

/-- **The wrapper's heads accumulate what the kernel it picks stores.** -/
theorem launch_agree (tuner : Tuner ℕ) (numHeads : ℕ) (q : ℕ → ℕ → Scalar)
    (kvFlat : ℕ → ℕ → Scalar) (indices : List ℤ) (lens : ℤ) (state : ℕ → State ℕ) (h : ℕ) :
    Agree (storedDims headDim)
      (if prefillIndexedHeadBlock ≤ numHeads then
        launch (headGrid prefillIndexedHeadBlock numHeads) (multiheadProgram prefillIndexedHeadBlock
          numHeads headDim numKvRows candidateOffset scale q kvFlat indices lens) state h
      else tuner.call indices.length (launch numHeads
        (scalarProgram headDim numKvRows candidateOffset scale q kvFlat indices lens)) state h)
      (accumulateIndexedSparseMlaAttentionChunk tuner numHeads headDim numKvRows q kvFlat indices
        lens scale candidateOffset state h) := by
  have hrefl : ∀ s : State ℕ, Agree (storedDims headDim) s s := fun s => ⟨rfl, rfl, fun _ _ => rfl⟩
  split
  · next hmulti =>
    rw [launch_multihead (by decide), accumulateIndexedSparse_multihead _ _ _ _ _ _ _ _ hmulti]
    split
    · exact agree_storedLane (hrefl _) q kvFlat indices lens h
    · exact hrefl _
  · next hscalar =>
    rw [call_launch_scalar, accumulateIndexedSparse_scalar _ _ _ _ _ _ _ _ hscalar]
    split
    · exact Tuner.call_rel _ _ (Agree (storedDims headDim))
        (fun s t hst => agree_storedLane hst q kvFlat indices lens h) (hrefl _)
    · exact hrefl _

end Programs

/-! ### When the calls agree -/

/-- The arguments of an accumulation beside the lanes: tensors that hold numbers, and for each
head a state that the accumulation reaches. -/
structure AccumulateArgs (numHeads headDim numKvRows : ℕ) where
  q : ℕ → ℕ → Scalar
  kvFlat : ℕ → ℕ → Scalar
  scale : ℝ
  state : ℕ → State ℕ
  query : ℕ → ℕ → ℝ
  rows : ℕ → ℕ → ℝ
  seen : ℕ → List (Candidate (ℕ → ℝ))
  holds_q : ∀ h < numHeads, HoldsLanes headDim (q h) (query h)
  holds_kv : ∀ i < numKvRows, HoldsLanes headDim (kvFlat i) (rows i)
  reached : ∀ h < numHeads, Reached (state h) (seen h)

/-- Two lists of lanes name each row of the KV equally often. -/
def RowsAlike (numKvRows : ℕ) (lanes lanes' : List ℤ) : Prop :=
  ∀ row : ℤ, 0 ≤ row → row < numKvRows → lanes.count row = lanes'.count row

namespace AccumulateArgs
variable {numHeads headDim numKvRows : ℕ} (args : AccumulateArgs numHeads headDim numKvRows)
  (tuner : Tuner ℕ) (lens : ℤ) (candidateOffset : ℕ)

/-- The calls on the chunks of a row. -/
noncomputable def chunked (chunks : List (List ℤ)) : ℕ → State ℕ :=
  accumulateChunks numHeads headDim numKvRows args.q args.kvFlat lens args.scale tuner
    candidateOffset chunks args.state

/-- The call on a row. -/
noncomputable def whole (indices : List ℤ) : ℕ → State ℕ :=
  accumulateIndexedSparseMlaAttentionChunk tuner numHeads headDim numKvRows args.q args.kvFlat
    indices lens args.scale candidateOffset args.state

/-- A call of the scalar kernel. -/
noncomputable def scalar (indices : List ℤ) : ℕ → State ℕ :=
  tuner.call indices.length (launch numHeads (scalarProgram headDim numKvRows candidateOffset
    args.scale args.q args.kvFlat indices lens)) args.state

/-- A call of the multihead kernel. -/
noncomputable def multihead (indices : List ℤ) : ℕ → State ℕ :=
  launch (headGrid prefillIndexedHeadBlock numHeads)
    (multiheadProgram prefillIndexedHeadBlock numHeads headDim numKvRows candidateOffset args.scale
      args.q args.kvFlat indices lens) args.state

/-- The candidate of an entry, for a head. -/
noncomputable def candidate (h : ℕ) : ℤ → Option (Candidate (ℕ → ℝ)) :=
  entryCandidate headDim numKvRows args.scale (args.query h) args.rows

/-- Fewer than eight heads take in the candidates of the launched lanes. -/
theorem chunked_scalar (hscalar : ¬ prefillIndexedHeadBlock ≤ numHeads) {h : ℕ} (hh : h < numHeads)
    (chunks : List (List ℤ)) :
    args.chunked tuner lens candidateOffset chunks h =
      stateOf (args.seen h ++
        (launchedLanes lens tuner candidateOffset chunks).filterMap (args.candidate h)) :=
  accumulateChunks_scalar hscalar hh (args.holds_q h hh) args.holds_kv lens tuner candidateOffset
    chunks (args.reached h hh).eq_stateOf

/-- The call on a row is the call on its only chunk. -/
theorem whole_eq_chunked (indices : List ℤ) :
    args.whole tuner lens candidateOffset indices =
      args.chunked tuner lens candidateOffset [indices] := rfl

/-- A call of the scalar kernel takes in the lanes below the cap once for each run. -/
theorem denom_scalar {h : ℕ} (hh : h < numHeads) (indices : List ℤ) :
    (args.scalar tuner lens candidateOffset indices h).denom =
      (stateOf (args.seen h ++ (List.replicate (tuner.runs indices.length)
        ((indices.take (lens - candidateOffset).toNat).filterMap
          (args.candidate h))).flatten)).denom := by
  have hagree : Agree (storedDims headDim) (args.scalar tuner lens candidateOffset indices h)
      (tuner.call indices.length (accumulateIndexedLane headDim numKvRows candidateOffset args.scale
        (args.q h) args.kvFlat indices lens) (args.state h)) := by
    rw [scalar, call_launch_scalar, if_pos hh]
    exact Tuner.call_rel _ _ (Agree (storedDims headDim))
      (fun s t hst => agree_storedLane hst args.q args.kvFlat indices lens h)
      ⟨rfl, rfl, fun _ _ => rfl⟩
  rw [hagree.2.1, (args.reached h hh).eq_stateOf]
  exact congrArg State.denom (Tuner.call_rep _ _ stateOf (accumulateIndexedLane_rep candidateOffset
    (args.holds_q h hh) args.holds_kv indices lens) _)

/-- The multihead kernel takes them in once. -/
theorem denom_multihead {h : ℕ} (hh : h < numHeads) (indices : List ℤ) :
    (args.multihead lens candidateOffset indices h).denom =
      (stateOf (args.seen h ++ (indices.take (lens - candidateOffset).toNat).filterMap
        (args.candidate h))).denom := by
  have hagree : Agree (storedDims headDim) (args.multihead lens candidateOffset indices h)
      (accumulateIndexedLane headDim numKvRows candidateOffset args.scale (args.q h) args.kvFlat
        indices lens (args.state h)) := by
    rw [multihead, launch_multihead (by decide), if_pos hh]
    exact agree_storedLane ⟨rfl, rfl, fun _ _ => rfl⟩ args.q args.kvFlat indices lens h
  rw [hagree.2.1, (args.reached h hh).eq_stateOf]
  exact congrArg State.denom (accumulateIndexedLane_rep candidateOffset (args.holds_q h hh)
    args.holds_kv indices lens _)

/-- No lane is taken in exactly when no lane below the cap names a row. -/
theorem filterMap_candidate_eq_nil (h : ℕ) (lanes : List ℤ) :
    lanes.filterMap (args.candidate h) = [] ↔ ∀ i ∈ lanes, ¬ (0 ≤ i ∧ i < numKvRows) := by
  rw [List.filterMap_eq_nil_iff]
  refine forall₂_congr fun i _ => ?_
  unfold candidate entryCandidate
  split
  · next hi => simp [hi]
  · next hi => simp [hi]

/-- **The two kernels reach the same states exactly when the scalar kernel's width is tuned**, or
when there is nothing to take in. -/
theorem scalar_eq_multihead_iff (indices : List ℤ) :
    args.scalar tuner lens candidateOffset indices = args.multihead lens candidateOffset indices ↔
      numHeads = 0 ∨ tuner.tuned indices.length = true ∨
        ∀ i ∈ indices.take (lens - candidateOffset).toNat, ¬ (0 ≤ i ∧ i < numKvRows) := by
  constructor
  · intro heq
    by_cases hzero : numHeads = 0
    · exact Or.inl hzero
    -- the first head's denominator counts the runs
    have hhead : 0 < numHeads := Nat.pos_of_ne_zero hzero
    have hdenom := congrArg (fun states => (states 0).denom) heq
    rw [args.denom_scalar tuner lens candidateOffset hhead,
      args.denom_multihead lens candidateOffset hhead,
      denom_stateOf_replicate (tuner.runs_pos _)] at hdenom
    rcases hdenom with hruns | hnone
    · exact Or.inr (Or.inl ((tuner.runs_eq_one_iff _).mp hruns))
    · exact Or.inr (Or.inr ((args.filterMap_candidate_eq_nil 0 _).mp hnone))
  · intro hcond
    funext h
    rw [scalar, multihead, call_launch_scalar, launch_multihead (by decide)]
    rcases hcond with rfl | htuned | hnone
    · rw [if_neg (Nat.not_lt_zero h), if_neg (Nat.not_lt_zero h)]
    · rw [Tuner.call_of_tuned htuned]
    · have hfixed : storedLane headDim numKvRows candidateOffset args.scale args.q args.kvFlat
          indices lens h (args.state h) = args.state h :=
        storedLane_of_none_valid args.q args.kvFlat hnone h (args.state h)
      rw [Tuner.call_fixed _ _ hfixed, hfixed]

/-- Lanes that name the rows equally often bring the same candidates. -/
theorem candidates_perm {lanes lanes' : List ℤ} (halike : RowsAlike numKvRows lanes lanes')
    (h : ℕ) :
    (lanes.filterMap (args.candidate h)).Perm (lanes'.filterMap (args.candidate h)) := by
  let valid : ℤ → Bool := fun i => decide (0 ≤ i ∧ i < numKvRows)
  have hvalid : ∀ lanes : List ℤ,
      lanes.filterMap (args.candidate h) = (lanes.filter valid).filterMap (args.candidate h) := by
    intro lanes
    rw [List.filterMap_filter]
    refine List.filterMap_congr fun i _ => ?_
    simp only [valid, candidate, entryCandidate, decide_eq_true_eq]
    split
    · rfl
    · rfl
  rw [hvalid lanes, hvalid lanes']
  refine List.Perm.filterMap _ (List.perm_iff_count.mpr fun row => ?_)
  by_cases hrow : valid row = true
  · obtain ⟨hnonneg, hlt⟩ := of_decide_eq_true hrow
    rw [List.count_filter hrow, List.count_filter hrow, halike row hnonneg hlt]
  · have hnone : ∀ lanes : List ℤ, (lanes.filter valid).count row = 0 := fun lanes =>
      List.count_eq_zero_of_not_mem fun hmem => hrow (List.of_mem_filter hmem)
    rw [hnone, hnone]

/-- Whatever the chunks, what is no head keeps its state. -/
theorem chunked_ge {h : ℕ} (hh : ¬ h < numHeads) (chunks : List (List ℤ)) :
    args.chunked tuner lens candidateOffset chunks h = args.state h :=
  accumulateChunks_ge hh args.q args.kvFlat lens tuner candidateOffset chunks args.state

end AccumulateArgs

/-- Arguments that count the launches of one row: every score is zero, and the values are one at
the row and zero elsewhere. -/
noncomputable def countingArgs (numHeads headDim numKvRows : ℕ) (row : ℤ) :
    AccumulateArgs numHeads headDim numKvRows where
  q := fun _ _ => fin 0
  kvFlat := fun i _ => fin (if (i : ℤ) = row then 1 else 0)
  scale := 0
  state := fun _ => State.empty
  query := fun _ _ => 0
  rows := fun i _ => if (i : ℤ) = row then 1 else 0
  seen := fun _ => []
  holds_q := fun _ _ _ _ => rfl
  holds_kv := fun _ _ _ _ => rfl
  reached := fun _ _ => Reached.empty

section Counting
variable {numHeads headDim numKvRows : ℕ} {row : ℤ}

theorem candidate_countingArgs (h : ℕ) (i : ℤ) :
    (countingArgs numHeads headDim numKvRows row).candidate h i =
      if 0 ≤ i ∧ i < numKvRows then
        some (0, fun d => if d < headDim then if i = row then 1 else 0 else 0)
      else none := by
  simp only [AccumulateArgs.candidate, entryCandidate, countingArgs, mul_zero]
  split
  · next hi => rw [Int.toNat_of_nonneg hi.1]
  · rfl

/-- Each launch of the row adds one, each other launch nothing. -/
theorem moment_countingArgs (hdim : 0 < headDim) (hrow : 0 ≤ row ∧ row < numKvRows) (h : ℕ)
    (lanes : List ℤ) :
    moment (lanes.filterMap ((countingArgs numHeads headDim numKvRows row).candidate h)) 0 =
      lanes.count row := by
  induction lanes with
  | nil => simp
  | cons i lanes ih =>
    rw [moment_apply] at ih ⊢
    rw [List.filterMap_cons, candidate_countingArgs, List.count_cons]
    by_cases hi : 0 ≤ i ∧ i < numKvRows
    · rw [if_pos hi, List.map_cons, List.sum_cons, ih, Real.exp_zero, one_mul]
      by_cases heq : i = row
      · simp [heq, hdim, add_comm]
      · simp [heq]
    · -- what is no row is not the row
      have hne : i ≠ row := fun heq => hi (heq ▸ hrow)
      rw [if_neg hi, ih]
      simp [hne]

/-- **The accumulator counts the launches of the row.** -/
theorem acc_countingArgs (hdim : 0 < headDim) (hrow : 0 ≤ row ∧ row < numKvRows) (h : ℕ)
    (lanes : List ℤ) :
    (stateOf (lanes.filterMap ((countingArgs numHeads headDim numKvRows row).candidate h))).acc 0 =
      fin (lanes.count row : ℝ) := by
  have hscore : ∀ c ∈ lanes.filterMap ((countingArgs numHeads headDim numKvRows row).candidate h),
      c.1 = 0 := by
    intro c hc
    obtain ⟨i, -, hi⟩ := List.mem_filterMap.mp hc
    rw [candidate_countingArgs] at hi
    split at hi
    · cases hi
      rfl
    · cases hi
  simp only [stateOf, shift_eq_zero hscore, neg_zero, Real.exp_zero, one_mul,
    moment_countingArgs hdim hrow]

/-- The calls on the chunks, on these arguments. -/
theorem chunked_countingArgs (hscalar : ¬ prefillIndexedHeadBlock ≤ numHeads) (hhead : 0 < numHeads)
    (hdim : 0 < headDim) (hrow : 0 ≤ row ∧ row < numKvRows) (tuner : Tuner ℕ) (lens : ℤ)
    (candidateOffset : ℕ) (chunks : List (List ℤ)) :
    ((countingArgs numHeads headDim numKvRows row).chunked tuner lens candidateOffset chunks 0).acc
      0 = fin ((launchedLanes lens tuner candidateOffset chunks).count row : ℝ) := by
  rw [AccumulateArgs.chunked_scalar _ _ _ _ hscalar hhead]
  exact acc_countingArgs hdim hrow 0 _

end Counting

section Agreement
variable {numHeads headDim numKvRows candidateOffset : ℕ} {lens : ℤ} {tuner tuner' : Tuner ℕ}
  {chunks : List (List ℤ)}

/-- If the calls on the chunks are the call on the row whatever the tensors hold, the launches
must visit the rows equally often. -/
theorem rowsAlike_of_chunked_eq (hscalar : ¬ prefillIndexedHeadBlock ≤ numHeads)
    (hhead : 0 < numHeads) (hdim : 0 < headDim)
    (heq : ∀ args : AccumulateArgs numHeads headDim numKvRows,
      args.chunked tuner lens candidateOffset chunks =
        args.whole tuner' lens candidateOffset chunks.flatten) :
    RowsAlike numKvRows (launchedLanes lens tuner candidateOffset chunks)
      (launchedLanes lens tuner' candidateOffset [chunks.flatten]) := by
  intro row hnonneg hlt
  have hrow : 0 ≤ row ∧ row < numKvRows := ⟨hnonneg, hlt⟩
  have hacc := congrArg (fun states => (states 0).acc 0)
    (heq (countingArgs numHeads headDim numKvRows row))
  rw [AccumulateArgs.whole_eq_chunked, chunked_countingArgs hscalar hhead hdim hrow,
    chunked_countingArgs hscalar hhead hdim hrow, fin.injEq] at hacc
  exact Nat.cast_injective hacc

/-- Then they are, head by head. -/
theorem chunked_eq_whole (hcond : prefillIndexedHeadBlock ≤ numHeads ∨ numHeads = 0 ∨
      RowsAlike numKvRows (launchedLanes lens tuner candidateOffset chunks)
        (launchedLanes lens tuner' candidateOffset [chunks.flatten]))
    (args : AccumulateArgs numHeads headDim numKvRows) :
    args.chunked tuner lens candidateOffset chunks =
      args.whole tuner' lens candidateOffset chunks.flatten := by
  by_cases hmulti : prefillIndexedHeadBlock ≤ numHeads
  · exact accumulateChunks_multihead hmulti _ _ _ _ _ _ _ _
  funext h
  rw [AccumulateArgs.whole_eq_chunked]
  by_cases hh : h < numHeads
  · have halike := (hcond.resolve_left hmulti).resolve_left (Nat.ne_of_gt (Nat.zero_lt_of_lt hh))
    rw [args.chunked_scalar _ _ _ hmulti hh, args.chunked_scalar _ _ _ hmulti hh]
    exact stateOf_perm ((args.candidates_perm halike h).append_left _)
  · rw [args.chunked_ge _ _ _ hh, args.chunked_ge _ _ _ hh]

/-- Where every width is tuned, each lane below the cap is launched once on both sides. -/
theorem rowsAlike_of_tuned (htuned : ∀ chunk ∈ chunks, tuner.tuned chunk.length = true)
    (htuned' : tuner'.tuned chunks.flatten.length = true) :
    RowsAlike numKvRows (launchedLanes lens tuner candidateOffset chunks)
      (launchedLanes lens tuner' candidateOffset [chunks.flatten]) := by
  intro row _ _
  have hwhole : ∀ chunk ∈ [chunks.flatten], tuner'.tuned chunk.length = true := by
    intro chunk hchunk
    rw [List.mem_singleton.mp hchunk]
    exact htuned'
  rw [launchedLanes_of_tuned htuned, launchedLanes_of_tuned hwhole, List.flatten_singleton]

end Agreement

/-- **When chunked accumulation is a homomorphism, and the two kernels are one accumulation.**
`tuner` is what is tuned before the calls on the chunks, `tuner'` what is tuned before the call
on the row.  For every row and slicing the two reach the same states, whatever the tensors hold
and the states have taken in, exactly with eight heads or more, with none, or when the runs of
both sides visit each row of the KV equally often; they do when all the widths are tuned.  And a
call of the scalar kernel reaches the states of the multihead kernel exactly when its width is
tuned or no lane below the cap names a row.  These kernels are what the wrapper calls. -/
theorem chunked_accumulation_iff {numHeads headDim : ℕ} (hdim : 0 < headDim)
    (numKvRows candidateOffset : ℕ) (lens : ℤ) (tuner tuner' : Tuner ℕ) :
    (∀ chunks : List (List ℤ),
      ((∀ args : AccumulateArgs numHeads headDim numKvRows,
        args.chunked tuner lens candidateOffset chunks =
          args.whole tuner' lens candidateOffset chunks.flatten) ↔
        prefillIndexedHeadBlock ≤ numHeads ∨ numHeads = 0 ∨
          RowsAlike numKvRows (launchedLanes lens tuner candidateOffset chunks)
            (launchedLanes lens tuner' candidateOffset [chunks.flatten])) ∧
      ((∀ chunk ∈ chunks, tuner.tuned chunk.length = true) →
        tuner'.tuned chunks.flatten.length = true →
        RowsAlike numKvRows (launchedLanes lens tuner candidateOffset chunks)
          (launchedLanes lens tuner' candidateOffset [chunks.flatten]))) ∧
    ∀ (args : AccumulateArgs numHeads headDim numKvRows) (indices : List ℤ),
      (args.scalar tuner lens candidateOffset indices =
          args.multihead lens candidateOffset indices ↔
        numHeads = 0 ∨ tuner.tuned indices.length = true ∨
          ∀ i ∈ indices.take (lens - candidateOffset).toNat, ¬ (0 ≤ i ∧ i < numKvRows)) ∧
      ∀ h, Agree (storedDims headDim)
        (if prefillIndexedHeadBlock ≤ numHeads then args.multihead lens candidateOffset indices h
          else args.scalar tuner lens candidateOffset indices h)
        (args.whole tuner lens candidateOffset indices h) := by
  refine ⟨fun chunks => ⟨⟨fun heq => ?_, chunked_eq_whole⟩, rowsAlike_of_tuned⟩,
    fun args indices => ⟨?_, ?_⟩⟩
  · by_cases hmulti : prefillIndexedHeadBlock ≤ numHeads
    · exact Or.inl hmulti
    by_cases hzero : numHeads = 0
    · exact Or.inr (Or.inl hzero)
    exact Or.inr (Or.inr (rowsAlike_of_chunked_eq hmulti (Nat.pos_of_ne_zero hzero) hdim heq))
  · exact args.scalar_eq_multihead_iff tuner lens candidateOffset indices
  · exact launch_agree tuner numHeads args.q args.kvFlat indices lens args.state

/-- One head and an autotuner that has tuned the widths: chunk by chunk is the row, and the
scalar kernel is the multihead kernel. -/
theorem chunked_accumulation_iff_warm :
    (countingArgs 1 2 4 3).chunked Tuner.warm 3 0 [[0, -1], [3], [2]] =
      (countingArgs 1 2 4 3).whole Tuner.warm 3 0 [0, -1, 3, 2] ∧
    (countingArgs 1 2 4 3).scalar Tuner.warm 3 0 [0, -1, 3, 2] =
      (countingArgs 1 2 4 3).multihead 3 0 [0, -1, 3, 2] := by
  have h := @chunked_accumulation_iff 1 2 (by decide) 4 0 3 Tuner.warm Tuner.warm
  have hchunks := h.1 [[0, -1], [3], [2]]
  constructor
  · exact hchunks.1.mpr (Or.inr (Or.inr (hchunks.2 (fun _ _ => rfl) rfl))) _
  · exact (h.2 _ _).1.mpr (Or.inr (Or.inl rfl))

/-- **The first call for a width.** One head, four configurations to time, and the row `[0, 0]`.
In chunks, the first call runs five times and the second, of the same width, once: six.  The call
on the row runs five times over two lanes: ten.  And a call of the scalar kernel takes a lane in
five times, a call of the multihead kernel once. -/
theorem first_call_repeats :
    (countingArgs 1 1 1 0).chunked (Tuner.cold 4 (by decide)) 2 0 [[0], [0]] ≠
      (countingArgs 1 1 1 0).whole (Tuner.cold 4 (by decide)) 2 0 [0, 0] ∧
    (countingArgs 1 1 1 0).scalar (Tuner.cold 4 (by decide)) 2 0 [0] ≠
      (countingArgs 1 1 1 0).multihead 2 0 [0] := by
  constructor
  · intro heq
    have hacc := congrArg (fun states => (states 0).acc 0) heq
    rw [AccumulateArgs.whole_eq_chunked,
      chunked_countingArgs (by decide) (by decide) (by decide) (by decide),
      chunked_countingArgs (by decide) (by decide) (by decide) (by decide), fin.injEq] at hacc
    exact absurd (Nat.cast_injective hacc) (by decide)
  · rw [Ne, AccumulateArgs.scalar_eq_multihead_iff]
    decide

end Glm52
