import Glm52.ForwardMqa
import Glm52.LseMerge
import Glm52.Perf2Decode

/-! # Sharded decode against unsharded decode

One decode token under DCP, end to end: each rank takes the top-k of the scores it
owns, the PERF2 block makes the global selection of them, each rank keeps the positions
it owns as local slots, converts them to slots of its cache and attends over them, and
the ranks' outputs are merged by log-sum-exp.

The ranks' candidates are the selection split by owner (`rankCands_perm`), so the merge
gives softmax attention over the strict top-k of the whole context
(`dcp_decode_eq_unsharded`).  A rank that owns none of the selected positions returns
zero and `-inf`, and weighs nothing. -/
namespace Glm52
open ExactFloat Softmax OnlineSoftmax TensorShape Topk

/-! ### The selection -/

section Selection
variable {β : Type} [LinearOrder β] [OrderBot β] (score : ℕ → β) {N S K : ℕ}
  {logits : ℕ → List β} {loc : ℕ → List ℤ}

/-- **The decode selection is the strict top-k of the context**, up to the order of the
lanes, for a single rank too. -/
theorem decodeTopk_perm (hN : 0 < N) (hfin : ∀ p < S, score p ≠ ⊥)
    (hrow : ∀ r < N, HoldsShard score N S r (logits r))
    (hloc : ∀ r < N, (loc r).Perm (padTo K (localStrictTopk score N S r K))) :
    (decodeTopk N K (List.range N) logits loc).Perm
      (padTo K (strictTopk score (List.range S) K)) := by
  unfold decodeTopk
  split
  · have hranks : ∀ r ∈ List.range N, r < N := fun r hr => List.mem_range.mp hr
    have hsub : ∀ r < N, localStrictTopk score N S r K ⊆ List.range (own N S r) :=
      fun r _ => strictTopk_subset _ _ _
    rw [unionSelect_ranks score hfin hranks hrow hsub hloc K, strictTopk_localBlocks score hN S K]
  · -- a single rank keeps the kernel's own list, whose slots are the positions
    obtain rfl : N = 1 := by omega
    have hid : localStrictTopk score 1 S 0 K = strictTopk score (List.range S) K := by
      have hmap := localStrictTopk_map score (show 0 < 1 by decide) S K
      have hglobal : globalPos 1 0 = id := funext (fun l => by simp [globalPos])
      have hall : (List.range S).filter (fun p => decide (p % 1 = 0)) = List.range S :=
        List.filter_eq_self.mpr (fun p _ => by simp [Nat.mod_one])
      rw [hglobal, List.map_id, hall] at hmap
      exact hmap
    rw [← hid]
    exact hloc 0 (by decide)

end Selection

/-! ### A rank's candidates -/

/-- The candidates of unsharded attention over the positions `sel`: their keys scored
for the query `x`. -/
noncomputable def contextCandidates (scale : ℝ) (x : ℕ → ℝ) (kv : ℕ → ℕ → ℝ) (sel : List ℕ) :
    List (Softmax.Candidate (ℕ → ℝ)) :=
  sel.map (fun p => (dot dqk x (kv p) * scale, kv p))

/-- Rank `r`'s cache holds its shard of the KV: local slot `l` at cache slot `slot l`.
What the other cache rows hold is not said. -/
def HoldsKvShard (N S r : ℕ) (kv : ℕ → ℕ → ℝ) (cache : Fp8Cache) (slot : ℕ → ℤ) : Prop :=
  ∀ l < own N S r, validSlot cache (slot l) = true ∧
    HoldsLanes dqk (cache.entry (slot l).toNat) (kv (globalPos N r l))

/-- The number in a lane that holds one. -/
def laneValue : Scalar → ℝ
  | fin v => v
  | _ => 0

/-- The rows of a cache, read as numbers. -/
noncomputable def cacheRows (cache : Fp8Cache) (s d : ℕ) : ℝ :=
  if d < dqk then laneValue (cache.entry s d) else 0

section Rank
variable {cache : Fp8Cache} {x : ℕ → ℝ} {scale : ℝ}

theorem cacheRows_eq {s : ℕ} {y : ℕ → ℝ} (h : HoldsLanes dqk (cache.entry s) y) :
    cacheRows cache s = fun d => if d < dqk then y d else 0 := by
  funext d
  unfold cacheRows
  split
  · next hd => rw [h d hd, laneValue]
  · rfl

theorem holdsLanes_cacheRows {s : ℕ} {y : ℕ → ℝ} (h : HoldsLanes dqk (cache.entry s) y) :
    HoldsLanes dqk (cache.entry s) (cacheRows cache s) := by
  intro d hd
  rw [h d hd, cacheRows_eq h]
  exact congrArg fin (if_pos hd).symm

/-- A score reads the first `dqk` coordinates only. -/
theorem dot_cut (x y : ℕ → ℝ) : dot dqk x (fun d => if d < dqk then y d else 0) = dot dqk x y := by
  refine Finset.sum_congr rfl (fun d hd => ?_)
  exact congrArg (x d * ·) (if_pos (Finset.mem_range.mp hd))

variable {N S r : ℕ} {kv : ℕ → ℕ → ℝ} {slot : ℕ → ℤ}

/-- The cache slot of a lane: its local slot's, or `-1`. -/
def convertLane (slot : ℕ → ℤ) (i : ℤ) : ℤ := if 0 ≤ i then slot i.toNat else -1

/-- A position's lane on rank `r`, after the owned mask and the conversion. -/
theorem ownedLane_eq (N r : ℕ) (slot : ℕ → ℤ) (p : ℕ) :
    convertLane slot (if (p : ℤ) % N = r ∧ 0 ≤ (p : ℤ) then (p : ℤ) / N else -1) =
      if p % N = r then slot (p / N) else -1 := by
  have hmod : (p : ℤ) % N = r ↔ p % N = r := by
    rw [← Int.natCast_mod]
    exact Int.natCast_inj
  by_cases hown : p % N = r
  · rw [if_pos hown, if_pos ⟨hmod.mpr hown, Int.natCast_nonneg p⟩, ← Int.natCast_div, convertLane,
      if_pos (Int.natCast_nonneg _), Int.toNat_natCast]
  · rw [if_neg hown, if_neg (fun h => hown (hmod.mp h.1))]
    rfl

theorem lane_of_perm_padTo {K : ℕ} {sel : List ℕ} {row : List ℤ} (hrow : row.Perm (padTo K sel)) :
    ∀ t ∈ row, t = -1 ∨ 0 ≤ t := by
  intro t ht
  rcases List.mem_append.mp (hrow.mem_iff.mp ht) with h | h
  · obtain ⟨p, -, rfl⟩ := List.mem_map.mp h
    exact Or.inr (Int.natCast_nonneg p)
  · exact Or.inl (List.eq_of_mem_replicate h)

/-- **A rank's candidates are the selected positions it owns.** -/
theorem rankCands_perm (hr : r < N) {K : ℕ} {sel : List ℕ} (hsel : ∀ p ∈ sel, p < S)
    (hkv : HoldsKvShard N S r kv cache slot) {row : List ℤ} (hrow : row.Perm (padTo K sel)) :
    (rowCandidates cache.totalSlots scale x (cacheRows cache)
      ((ownedTopk N r row).map (convertLane slot))).Perm
      (truncate dqk (contextCandidates scale x kv (sel.filter (· % N = r)))) := by
  -- a position's lane gives its key on the owner, nothing elsewhere
  have hposition : ∀ p ∈ sel, indexedCandidate dqk cache.totalSlots scale x (cacheRows cache)
        (convertLane slot (if (p : ℤ) % N = r ∧ 0 ≤ (p : ℤ) then (p : ℤ) / N else -1)) =
      if p % N = r then
        some (dot dqk x (kv p) * scale, fun d => if d < dqk then kv p d else 0) else none := by
    intro p hp
    rw [ownedLane_eq]
    by_cases hown : p % N = r
    · have hslot : p / N < own N S r := hown ▸ div_lt_own (by omega) (hsel p hp)
      have hglobal : globalPos N r (p / N) = p := by
        rw [globalPos, ← hown, Nat.div_add_mod']
      obtain ⟨hvalid, hheld⟩ := hkv (p / N) hslot
      rw [hglobal] at hheld
      rw [if_pos hown, if_pos hown, indexedCandidate, if_pos (validSlot_iff.mp hvalid),
        cacheRows_eq hheld, dot_cut]
    · rw [if_neg hown, if_neg hown]
      rfl
  have hpad : (List.replicate (K - sel.length) (-1 : ℤ)).filterMap
      (indexedCandidate dqk cache.totalSlots scale x (cacheRows cache) ∘ convertLane slot ∘
        fun t : ℤ => if t % N = r ∧ 0 ≤ t then t / N else -1) = [] := by
    refine List.filterMap_eq_nil_iff.mpr (fun t ht => ?_)
    rw [List.eq_of_mem_replicate ht]
    simp [indexedCandidate, convertLane]
  rw [ownedTopk_eq (lane_of_perm_padTo hrow) hr, ownedMask, List.map_map, rowCandidates,
    List.filterMap_map]
  refine (hrow.filterMap _).trans (List.Perm.of_eq ?_)
  rw [padTo, List.filterMap_append, hpad, List.append_nil, List.filterMap_map]
  refine (List.filterMap_congr hposition).trans ?_
  rw [Ragged.filterMap_ite, contextCandidates, truncate, List.map_map]
  rfl

/-- The rows that a rank's lanes name are held as numbers. -/
theorem rowsDecodeTo_owned (hr : r < N) {K : ℕ} {sel : List ℕ} (hsel : ∀ p ∈ sel, p < S)
    (hkv : HoldsKvShard N S r kv cache slot) {row : List ℤ} (hrow : row.Perm (padTo K sel)) :
    RowsDecodeTo cache (cacheRows cache) ((ownedTopk N r row).map (convertLane slot)) := by
  intro s hs hvalid
  rw [ownedTopk_eq (lane_of_perm_padTo hrow) hr, ownedMask, List.map_map] at hs
  obtain ⟨t, ht, rfl⟩ := List.mem_map.mp hs
  rcases List.mem_append.mp (hrow.mem_iff.mp ht) with h | h
  · obtain ⟨p, hp, rfl⟩ := List.mem_map.mp h
    rw [Function.comp_apply, ownedLane_eq] at hvalid ⊢
    by_cases hown : p % N = r
    · have hslot : p / N < own N S r := hown ▸ div_lt_own (by omega) (hsel p hp)
      rw [if_pos hown]
      exact holdsLanes_cacheRows (hkv (p / N) hslot).2
    · rw [if_neg hown] at hvalid
      simp [validSlot] at hvalid
  · obtain rfl := List.eq_of_mem_replicate h
    simp [convertLane, validSlot] at hvalid

end Rank

/-- Splitting a selection by owner loses nothing. -/
theorem owned_blocks_perm {N : ℕ} (hN : 0 < N) {sel : List ℕ} (hsel : sel.Nodup) :
    ((List.range N).flatMap (fun r => sel.filter (· % N = r))).Perm sel := by
  have howner : ∀ r ∈ List.range N, ∀ p ∈ sel.filter (· % N = r), p % N = r := by
    intro r _ p hp
    simpa using (List.mem_filter.mp hp).2
  have hnodup : ((List.range N).flatMap (fun r => sel.filter (· % N = r))).Nodup :=
    nodup_flatMap_of_owner List.nodup_range (fun r _ => hsel.filter _) howner
  refine (List.perm_ext_iff_of_nodup hnodup hsel).mpr (fun p => ?_)
  constructor
  · intro hp
    obtain ⟨r, -, hpr⟩ := List.mem_flatMap.mp hp
    exact (List.mem_filter.mp hpr).1
  · intro hp
    exact List.mem_flatMap.mpr ⟨p % N, List.mem_range.mpr (Nat.mod_lt p hN),
      List.mem_filter.mpr ⟨hp, by simp⟩⟩

/-! ### The merged result -/

/-- The ranks' candidates together are those of the whole selection. -/
theorem ranks_split (scale : ℝ) (x : ℕ → ℝ) (kv : ℕ → ℕ → ℝ) {N : ℕ} (hN : 0 < N) {sel : List ℕ}
    (hsel : sel.Nodup) {parts : ℕ → List (Softmax.Candidate (ℕ → ℝ))}
    (hpart : ∀ r < N, (parts r).Perm
      (truncate dqk (contextCandidates scale x kv (sel.filter (· % N = r))))) :
    ((List.range N).flatMap parts).Perm (truncate dqk (contextCandidates scale x kv sel)) := by
  have hblocks : (List.range N).flatMap
        (fun r => truncate dqk (contextCandidates scale x kv (sel.filter (· % N = r)))) =
      truncate dqk (contextCandidates scale x kv
        ((List.range N).flatMap (fun r => sel.filter (· % N = r)))) := by
    simp only [truncate, contextCandidates, List.map_flatMap]
  refine (List.Perm.flatMap_left _ (fun r hr => hpart r (List.mem_range.mp hr))).trans ?_
  rw [hblocks]
  exact ((owned_blocks_perm hN hsel).map _).map _

/-- Ranks whose results read as attention over their parts merge to attention over all
of them. -/
theorem merge_of_reads {ranks : List ℕ} {out : ℕ → ℕ → Scalar} {lse : ℕ → Scalar}
    {parts : ℕ → List (Softmax.Candidate (ℕ → ℝ))} {whole : List (Softmax.Candidate (ℕ → ℝ))}
    (hread : ∀ r ∈ ranks, ReadsAt (out r) (lse r) (parts r))
    (hsplit : (ranks.flatMap parts).Perm whole) (hwhole : whole ≠ []) :
    (∀ d < dv, mergeOut (ranks.map (fun r => (out r d, lse r))) = fin (attend whole d)) ∧
    mergeLse (ranks.map lse) = logSumExp whole := by
  have hflat : (ranks.map parts).flatten.Perm whole := hsplit
  constructor
  · intro d hd
    rw [← mergeOut_eq hflat hwhole d, List.map_map]
    refine congrArg mergeOut (List.map_congr_left (fun r hr => ?_))
    exact Prod.ext ((hread r hr).1 d hd) (hread r hr).2
  · rw [← mergeLse_eq hflat, List.map_map]
    exact congrArg mergeLse (List.map_congr_left (fun r hr => (hread r hr).2))

/-- **DCP decode is unsharded decode.** For every number of ranks, context length,
top-k size, score vector, query and KV: every rank's path returns, the ranks' results
merge to softmax attention, and its log-sum-exp, over the strict top-k of the whole
context, and a rank that owns none of the selected positions returns zero and `-inf`. -/
theorem dcp_decode_eq_unsharded {β : Type} [LinearOrder β] [OrderBot β] {N S K : ℕ} (hN : 0 < N)
    (hS : 0 < S) (hK : 0 < K) (score : ℕ → β) (hfin : ∀ p < S, score p ≠ ⊥)
    {logits : ℕ → List β} (hrow : ∀ r < N, HoldsShard score N S r (logits r)) (loc : ℕ → List ℤ)
    (hloc : ∀ r < N, (loc r).Perm (padTo K (localStrictTopk score N S r K)))
    (impl : FlashMLASparseImpl) {q : Tensor3 Scalar} (hd : q.d2 = dqk) {t h : ℕ} (ht : t < q.d0)
    (hh : h < q.d1) {x : ℕ → ℝ} (hx : HoldsLanes dqk (q.get t h) x) (kv : ℕ → ℕ → ℝ)
    {cache : ℕ → Fp8Cache} {slot : ℕ → ℕ → ℤ}
    (hkv : ∀ r < N, HoldsKvShard N S r kv (cache r) (slot r)) (topk : ℕ → ℕ → List ℤ)
    (htopk : ∀ r < N, topk r t = ownedTopk N r (decodeTopk N K (List.range N) logits loc))
    (ops : ℕ → ExternalOps)
    (hconv : ∀ r < N, (ops r).convertIndices (topk r) t = (topk r t).map (convertLane (slot r))) :
    let sel := strictTopk score (List.range S) K
    let whole := contextCandidates impl.softmaxScale x kv sel
    ∃ (out : ℕ → Tensor3 Scalar) (lse : ℕ → Tensor2 Scalar),
      (∀ r < N, forwardFp8KvMixedBatch impl (ops r) (cache r) q (topk r) =
        some (out r, lse r)) ∧
      (∀ d < dv, mergeOut ((List.range N).map (fun r => ((out r).get t h d, (lse r).get t h))) =
        fin (attend whole d)) ∧
      mergeLse ((List.range N).map (fun r => (lse r).get t h)) = logSumExp whole ∧
      ∀ r < N, (∀ p ∈ sel, p % N ≠ r) →
        (∀ d < dv, (out r).get t h d = fin 0) ∧ (lse r).get t h = negInf := by
  intro sel whole
  choose out lse hrun _ _ hreads using
    fun r => mixed_returns impl (ops r) (cache r) hd (topk r)
  have hsel : ∀ p ∈ sel, p < S := fun p hp =>
    List.mem_range.mp (strictTopk_subset score _ K hp)
  have hperm := decodeTopk_perm score hN hfin hrow hloc
  set parts : ℕ → List (Softmax.Candidate (ℕ → ℝ)) := fun r =>
    rowCandidates (cache r).totalSlots impl.softmaxScale x (cacheRows (cache r))
      ((topk r t).map (convertLane (slot r))) with hparts
  -- a rank attends to its own positions of the selection
  have hpart : ∀ r < N, (parts r).Perm
      (truncate dqk (contextCandidates impl.softmaxScale x kv (sel.filter (· % N = r)))) := by
    intro r hr
    simp only [hparts, htopk r hr]
    exact rankCands_perm hr hsel (hkv r hr) hperm
  have hread : ∀ r < N, ReadsAt ((out r).get t h) ((lse r).get t h) (parts r) := by
    intro r hr
    have hrows := rowsDecodeTo_owned hr hsel (hkv r hr) hperm
    have hread := hreads r t ht h hh x hx (cacheRows (cache r))
    rw [hconv r hr, htopk r hr] at hread
    simp only [hparts, htopk r hr]
    exact hread hrows
  have hsplit := ranks_split impl.softmaxScale x kv hN
    (strictTopk_nodup score List.nodup_range K) hpart
  have hlen : whole.length = min K S := by
    simp only [whole, sel, contextCandidates, List.length_map, length_strictTopk,
      List.length_range]
  -- the context has a position, so the selection has one and the weights a sum
  have hne : truncate dqk whole ≠ [] := by
    rw [← List.length_pos_iff, truncate, List.length_map, hlen]
    omega
  obtain ⟨hout, hlse⟩ :=
    merge_of_reads (fun r hr => hread r (List.mem_range.mp hr)) hsplit hne
  refine ⟨out, lse, fun r _ => hrun r, ?_, ?_, ?_⟩
  · intro d hd
    rw [hout d hd, attend_truncate (lt_trans hd (by decide))]
  · rw [hlse, logSumExp_truncate]
  · intro r hr hnone
    have hfilter : sel.filter (· % N = r) = [] :=
      List.filter_eq_nil_iff.mpr (fun p hp => by simpa using hnone p hp)
    -- a rank without selected positions has attended to nothing
    have hempty : parts r = [] := by
      have hperm := hpart r hr
      rw [hfilter] at hperm
      exact hperm.eq_nil
    obtain ⟨hzero, hninf⟩ := hread r hr
    rw [hempty] at hzero hninf
    refine ⟨fun d hd => ?_, hninf.trans logSumExp_nil⟩
    rw [hzero d hd, attend_nil]
    rfl

/-- Three ranks and scores `5, 5`: the logits rows, and each rank's top-2. -/
def threeLogits (r : ℕ) : List (WithBot ℤ) := if r < 2 then [((5 : ℤ) : WithBot ℤ)] else []

def threeLocal (r : ℕ) : List ℤ := if r < 2 then [0, -1] else [-1, -1]

/-- The index rows of the ranks. -/
def threeTopk (r : ℕ) : List ℤ :=
  ownedTopk 3 r (decodeTopk 3 2 (List.range 3) threeLogits threeLocal)

/-- Sixty-four heads, the two selected keys on two ranks: their results merge, and rank 2, which
owns none, weighs nothing. -/
theorem dcp_decode_eq_unsharded_three :
    ∃ (out : ℕ → Tensor3 Scalar) (lse : ℕ → Tensor2 Scalar),
      (∀ r < 3, forwardFp8KvMixedBatch (implWithHeads 64) identityOps unitCache
        ⟨1, 64, dqk, fun _ _ _ => fin 1⟩ (fun _ => threeTopk r) = some (out r, lse r)) ∧
      (∀ d < dv, mergeOut ((List.range 3).map (fun r => ((out r).get 0 63 d, (lse r).get 0 63))) =
        fin (attend (contextCandidates 1 (fun _ => 1) (fun _ d => if d < 512 then 1 else 0)
          (strictTopk (fun _ => (5 : WithBot ℤ)) (List.range 2) 2)) d)) ∧
      mergeLse ((List.range 3).map (fun r => (lse r).get 0 63)) =
        logSumExp (contextCandidates 1 (fun _ => 1) (fun _ d => if d < 512 then 1 else 0)
          (strictTopk (fun _ => (5 : WithBot ℤ)) (List.range 2) 2)) ∧
      (lse 2).get 0 63 = negInf := by
  have hrow : ∀ r < 3, HoldsShard (fun _ => (5 : WithBot ℤ)) 3 2 r (threeLogits r) := by
    unfold HoldsShard
    decide
  have hkv : ∀ r < 3, HoldsKvShard 3 2 r (fun _ d => if d < 512 then 1 else 0) unitCache
      (fun l => (l : ℤ)) := by
    intro r hr l hl
    have hl0 : l = 0 := by
      have hpos := (lt_own_iff hr l 2).mp hl
      omega
    subst hl0
    exact ⟨by decide, unitCache_decodesTo 0 (by decide)⟩
  have hconv : ∀ r < 3, threeTopk r = (threeTopk r).map (convertLane (fun l => (l : ℤ))) := by
    decide
  obtain ⟨out, lse, hrun, hout, hlse, hempty⟩ := dcp_decode_eq_unsharded (show 0 < 3 by decide)
    (show 0 < 2 by decide) (show 0 < 2 by decide) (fun _ => (5 : WithBot ℤ)) (by decide) hrow
    threeLocal (by decide) (implWithHeads 64) (q := ⟨1, 64, dqk, fun _ _ _ => fin 1⟩) rfl
    (show 0 < 1 by decide) (show 63 < 64 by decide) (x := fun _ => 1) (fun _ _ => rfl)
    (fun _ d => if d < 512 then 1 else 0) hkv (fun r _ => threeTopk r) (fun _ _ => rfl)
    (fun _ => identityOps) hconv
  exact ⟨out, lse, hrun, hout, hlse, (hempty 2 (by decide) (by decide)).2⟩

end Glm52
