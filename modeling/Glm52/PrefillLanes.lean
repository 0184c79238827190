import Glm52.ForwardMqa

/-! # Holes in a prefill row

After the owned mask a prefill row has its owned lanes at arbitrary places among `-1`
lanes.  The index conversion keeps the places and counts the non-negative lanes, and
the separate path hands the count to the BF16 kernel as `topk_length`, which the kernel
takes as the length of a prefix: a lane behind a hole may lie beyond it.

A prefill token attends to all its lanes exactly when the lanes come before the holes
(`prefill_attends_iff_valid_prefix`). -/
namespace Glm52
open ExactFloat Softmax OnlineSoftmax TensorShape Ragged

/-! ### Rows with holes -/

/-- No `-1` lane stands before a non-negative lane. -/
def ValidPrefix (row : List ℤ) : Prop := row.Pairwise (fun a b => 0 ≤ b → 0 ≤ a)

instance (row : List ℤ) : Decidable (ValidPrefix row) :=
  inferInstanceAs (Decidable (List.Pairwise _ _))

/-- **The valid lanes are within their own count exactly when they form a prefix.** -/
theorem drop_count_valid_iff (row : List ℤ) :
    (∀ i ∈ row.drop (row.countP (0 ≤ ·)), ¬ 0 ≤ i) ↔ ValidPrefix row := by
  induction row with
  | nil => simp [ValidPrefix]
  | cons a row ih =>
    rw [ValidPrefix, List.pairwise_cons]
    by_cases ha : 0 ≤ a
    · rw [List.countP_cons_of_pos (by simpa using ha), List.drop_succ_cons, ih]
      exact ⟨fun h => ⟨fun _ _ _ => ha, h⟩, fun h => h.2⟩
    · rw [List.countP_cons_of_neg (by simpa using ha)]
      constructor
      · intro h
        -- a valid lane in `row` would push the count past a hole
        have hzero : row.countP (0 ≤ ·) = 0 := by
          by_contra hpos
          obtain ⟨k, hk⟩ := Nat.exists_eq_succ_of_ne_zero hpos
          rw [hk, List.drop_succ_cons] at h
          have hdrop : (row.drop k).countP (0 ≤ ·) = 0 :=
            List.countP_eq_zero.mpr (fun i hi => by simpa using h i hi)
          have hsplit : row.countP (0 ≤ ·) =
              (row.take k).countP (0 ≤ ·) + (row.drop k).countP (0 ≤ ·) := by
            rw [← List.countP_append, List.take_append_drop]
          have htake : (row.take k).countP (0 ≤ ·) ≤ k :=
            le_trans List.countP_le_length (List.length_take_le _ _)
          omega
        rw [hzero, List.drop_zero] at h ih
        exact ⟨fun b hb hnonneg => absurd hnonneg (h b (List.mem_cons_of_mem _ hb)),
          ih.mp (fun i hi => h i (List.mem_cons_of_mem _ hi))⟩
      · rintro ⟨hnone, -⟩ i hi
        rcases List.mem_cons.mp (List.mem_of_mem_drop hi) with rfl | hmem
        · exact ha
        · exact fun hnonneg => ha (hnone i hmem hnonneg)

/-! ### What the lanes name -/

section Lanes
variable (impl : FlashMLASparseImpl) (chunk : PrefillChunk) (ws : ℕ → ℕ → ℝ) (f : ℤ → ℤ)
  (x : ℕ → ℝ)

/-- The workspace row that a lane names, scored for the query `x`. -/
noncomputable def namedKey (i : ℤ) : Candidate (ℕ → ℝ) :=
  (dot dqk x (ws (f i).toNat) * impl.softmaxScale, ws (f i).toNat)

/-- The keys named by all non-negative lanes of a row. -/
noncomputable def namedCandidates (row : List ℤ) : List (Candidate (ℕ → ℝ)) :=
  (row.filter (0 ≤ ·)).map (namedKey impl ws f x)

theorem namedCandidates_eq_nil (row : List ℤ) :
    namedCandidates impl ws f x row = [] ↔ ∀ i ∈ row, ¬ 0 ≤ i := by
  simp [namedCandidates]

variable {impl chunk ws f x} {row : List ℤ}

/-- The kernel's candidates for a converted row are the keys of its first `count`
lanes. -/
theorem chunkCandidates_converted
    (hf : ∀ i ∈ row, 0 ≤ i → 0 ≤ f i ∧ f i < chunkRows impl chunk) (count : ℕ) :
    chunkCandidates impl chunk ws x (row.map (fun i => if 0 ≤ i then f i else -1)) count =
      namedCandidates impl ws f x (row.take count) := by
  have hlane : ∀ i ∈ row.take count,
      indexedCandidate dqk (chunkRows impl chunk) impl.softmaxScale x ws
        (if 0 ≤ i then f i else -1) =
      if 0 ≤ i then some (namedKey impl ws f x i) else none := by
    intro i hi
    by_cases hi' : 0 ≤ i
    · rw [if_pos hi', if_pos hi', indexedCandidate, if_pos (hf i (List.mem_of_mem_take hi) hi')]
      rfl
    · rw [if_neg hi', if_neg hi', indexedCandidate, if_neg (by omega)]
  rw [chunkCandidates, rowCandidates, Int.toNat_natCast, ← List.map_take, List.filterMap_map,
    namedCandidates, ← filterMap_ite]
  exact List.filterMap_congr hlane

/-- **A result over the first lanes is that over all lanes exactly when the valid lanes
form a prefix**: a lost lane lowers the log-sum-exp. -/
theorem readsAt_all_iff {out : ℕ → Scalar} {lse : Scalar}
    (h : ReadsAt out lse (namedCandidates impl ws f x (row.take (row.countP (0 ≤ ·))))) :
    ReadsAt out lse (namedCandidates impl ws f x row) ↔ ValidPrefix row := by
  have hsplit : namedCandidates impl ws f x row =
      namedCandidates impl ws f x (row.take (row.countP (0 ≤ ·))) ++
        namedCandidates impl ws f x (row.drop (row.countP (0 ≤ ·))) := by
    rw [namedCandidates, namedCandidates, namedCandidates, ← List.map_append, ← List.filter_append,
      List.take_append_drop]
  rw [← drop_count_valid_iff, ← namedCandidates_eq_nil impl ws f x]
  constructor
  · rintro ⟨-, hlse⟩
    rw [h.2, hsplit] at hlse
    exact logSumExp_append_eq_left.mp hlse.symm
  · intro hnil
    rw [hsplit, hnil, List.append_nil]
    exact h

end Lanes

/-! ### The separate path -/

/-- What the index conversion promises for the rows of a batch: it maps lane by lane in
place, keeps the holes, names rows of the chunk's workspace, and counts the
non-negative lanes. -/
structure ConvertsLanes (ops : ExternalOps) (impl : FlashMLASparseImpl) (batch : Batch)
    (f : ℕ → ℤ → ℤ) (topkIndices : ℕ → List ℤ) : Prop where
  lanes : ∀ t, ops.convertIndicesWorkspace topkIndices t =
    (topkIndices t).map (fun i => if 0 ≤ i then f t i else -1)
  inRange : ∀ chunk ∈ batch.chunks, ∀ t, chunk.tokenStart ≤ t → t < chunk.tokenEnd →
    ∀ i ∈ topkIndices t, 0 ≤ i → 0 ≤ f t i ∧ f t i < chunkRows impl chunk
  counts : ∀ t, ops.validCounts topkIndices t = (topkIndices t).countP (0 ≤ ·)

section Prefill
variable {impl : FlashMLASparseImpl} {ops : ExternalOps} {cache : Fp8Cache}
variable {batch : Batch} {q : Tensor3 Scalar} {x : ℕ → ℕ → ℕ → ℝ}
  {topkIndices : ℕ → List ℤ} {f : ℕ → ℤ → ℤ}

/-- A prefill token's row in a returning run. -/
theorem prefill_row_iff (hops : ops.Lawful) (ws : PrefillChunk → ℕ → ℕ → ℝ)
    (hws : ∀ chunk ∈ batch.chunks, ∀ i < chunkRows impl chunk,
      HoldsLanes dqk (ops.gatherAndUpconvert chunk i) (ws chunk i))
    (h0 : q.d0 = batch.numActualTokens) (hd : q.d2 = dqk)
    (hx : ∀ t < q.d0, ∀ h < q.d1, HoldsLanes dqk (q.get t h) (x t h))
    (hconv : ConvertsLanes ops impl batch f topkIndices)
    {outs : Tensor3 Scalar × Tensor2 Scalar}
    (hrun : forwardMqa impl ops cache (batch.build false) q topkIndices = some outs)
    {chunk : PrefillChunk} (hchunk : chunk ∈ batch.chunks) {t h : ℕ}
    (hstart : chunk.tokenStart ≤ t) (hend : t < chunk.tokenEnd)
    (hh : h < min q.d1 impl.numHeads) :
    ReadsAt (outs.1.get t h) (outs.2.get t h)
      (namedCandidates impl (ws chunk) (f t) (x t h) (topkIndices t)) ↔
    ValidPrefix (topkIndices t) := by
  obtain ⟨hfirst, -, hlast⟩ := batch.chunks_consecutive.mem_bounds
    (List.mem_map_of_mem (f := fun chunk => (chunk.tokenStart, chunk.tokenEnd)) hchunk)
  replace hfirst : batch.numDecodeTokens ≤ chunk.tokenStart := hfirst
  replace hlast : chunk.tokenEnd ≤ batch.numActualTokens := hlast
  have hpre : 0 < batch.numPrefills := by
    rw [← batch.numPrefillTokens_pos_iff, Batch.numPrefillTokens]
    omega
  obtain ⟨-, -, -, -, hchunks⟩ := forwardSeparate_spec batch topkIndices hops h0 hd hpre hrun
  have hread := hchunks chunk hchunk (ws chunk) (hws chunk hchunk) t hstart hend h hh (x t h)
    (hx t (by omega) h (by omega))
  rw [hconv.lanes, hconv.counts,
    chunkCandidates_converted (hconv.inRange chunk hchunk t hstart hend)] at hread
  exact readsAt_all_iff hread

end Prefill

/-- **A prefill token attends to all its lanes exactly when they form a prefix.** On
every batch and head count the kernels take, the separate path returns; and in every
run that returns, for every prefill token and head, the output and log-sum-exp are the
softmax attention and log-sum-exp over the keys named by all non-negative lanes of the
token's row if and only if no hole stands before one of them. -/
theorem prefill_attends_iff_valid_prefix (impl : FlashMLASparseImpl) {ops : ExternalOps}
    (hops : ops.Lawful) (cache : Fp8Cache) {batch : Batch} (ws : PrefillChunk → ℕ → ℕ → ℝ)
    (hws : ∀ chunk ∈ batch.chunks, ∀ i < chunkRows impl chunk,
      HoldsLanes dqk (ops.gatherAndUpconvert chunk i) (ws chunk i))
    {q : Tensor3 Scalar} (h0 : q.d0 = batch.numActualTokens) (hd : q.d2 = dqk)
    {x : ℕ → ℕ → ℕ → ℝ} (hx : ∀ t < q.d0, ∀ h < q.d1, HoldsLanes dqk (q.get t h) (x t h))
    {topkIndices : ℕ → List ℤ} {f : ℕ → ℤ → ℤ}
    (hconv : ConvertsLanes ops impl batch f topkIndices) :
    (0 < batch.numPrefills → HeadsFit impl batch false q.d1 →
      ∃ out lse, forwardMqa impl ops cache (batch.build false) q topkIndices = some (out, lse)) ∧
    ∀ out lse, forwardMqa impl ops cache (batch.build false) q topkIndices = some (out, lse) →
      ∀ chunk ∈ batch.chunks, ∀ t, chunk.tokenStart ≤ t → t < chunk.tokenEnd →
        ∀ h < min q.d1 impl.numHeads,
          let cands := namedCandidates impl (ws chunk) (f t) (x t h) (topkIndices t)
          ((∀ d < dv, out.get t h d = fin (attend cands d)) ∧ lse.get t h = logSumExp cands ↔
            ValidPrefix (topkIndices t)) := by
  constructor
  · intro hpre hfit
    have htokens := batch.numPrefillTokens_pos_iff.mpr hpre
    have htotal : batch.numActualTokens ≠ 0 := by
      rw [Batch.numPrefillTokens] at htokens
      omega
    rw [HeadsFit, if_neg Bool.false_ne_true, if_neg htotal, if_neg htokens.ne'] at hfit
    obtain ⟨h1, hheads, hpad⟩ := hfit
    obtain ⟨⟨out, lse⟩, hrun⟩ := forwardSeparate_returns batch topkIndices impl cache hops h0
      hd hpre h1 hheads hpad
    exact ⟨out, lse, hrun⟩
  · intro out lse hrun chunk hchunk t hstart hend h hh
    exact prefill_row_iff hops ws hws h0 hd hx hconv hrun hchunk hstart hend hh

/-! ### Lanes before and behind a hole -/

/-- On the small batch the identity conversion keeps its promise for rows that name the
first workspace row. -/
theorem smallBatch_converts {row : List ℤ} (hrow : ∀ i ∈ row, i = -1 ∨ i = 0) :
    ConvertsLanes identityOps (implWithHeads 64) smallBatch (fun _ => id) (fun _ => row) where
  lanes := by
    intro t
    show row = row.map _
    refine (List.map_id row).symm.trans (List.map_congr_left (fun i hi => ?_))
    rcases hrow i hi with rfl | rfl <;> rfl
  inRange := by
    intro chunk hchunk t _ _ i hi hnonneg
    obtain rfl : i = 0 := by
      rcases hrow i hi with rfl | rfl
      · omega
      · rfl
    obtain rfl : chunk = smallBatch.chunk (0, 1) := by simpa [Batch.chunks, smallBatch] using hchunk
    exact ⟨le_rfl, by decide⟩
  counts := fun _ => rfl

/-- The prefill tokens `1` and `2` of the small batch, with a lane before a hole. -/
theorem prefill_attends_iff_valid_prefix_lane_first :
    ∃ out lse, forwardMqa (implWithHeads 64) identityOps unitCache (smallBatch.build false)
        ⟨3, 64, dqk, fun _ _ _ => fin 1⟩ (fun _ => [0, -1]) = some (out, lse) ∧
      lse.get 1 0 =
        logSumExp (namedCandidates (implWithHeads 64) (fun _ _ => 1) id (fun _ => 1) [0, -1]) := by
  have hrow : ∀ i ∈ [0, -1], i = -1 ∨ i = (0 : ℤ) := by decide
  obtain ⟨hreturns, hreads⟩ := prefill_attends_iff_valid_prefix (implWithHeads 64)
    identityOps_lawful unitCache (fun _ _ _ => 1) (fun _ _ _ _ _ _ => rfl)
    (q := ⟨3, 64, dqk, fun _ _ _ => fin 1⟩) rfl rfl (x := fun _ _ _ => 1)
    (fun _ _ _ _ _ _ => rfl) (smallBatch_converts hrow)
  obtain ⟨out, lse, hrun⟩ := hreturns (by decide) ⟨rfl, Or.inl rfl, fun _ => le_rfl⟩
  have hread := hreads out lse hrun (smallBatch.chunk (0, 1)) List.mem_cons_self 1 (by decide)
    (by decide) 0 (by decide)
  exact ⟨out, lse, hrun, (hread.mpr (by decide)).2⟩

/-- The same tokens with the lane behind the hole: the run returns, and the lane's key is
missing from the log-sum-exp. -/
theorem prefill_loses_lane_behind_hole :
    ∃ out lse, forwardMqa (implWithHeads 64) identityOps unitCache (smallBatch.build false)
        ⟨3, 64, dqk, fun _ _ _ => fin 1⟩ (fun _ => [-1, 0]) = some (out, lse) ∧
      let cands := namedCandidates (implWithHeads 64) (fun _ _ => 1) id (fun _ => 1) [-1, 0]
      ¬ ((∀ d < dv, out.get 1 0 d = fin (attend cands d)) ∧ lse.get 1 0 = logSumExp cands) := by
  have hrow : ∀ i ∈ [-1, 0], i = -1 ∨ i = (0 : ℤ) := by decide
  obtain ⟨⟨out, lse⟩, hrun⟩ := forwardSeparate_returns smallBatch (fun _ => [-1, 0])
    (implWithHeads 64) unitCache identityOps_lawful
    (q := ⟨3, 64, dqk, fun _ _ _ => fin 1⟩) rfl rfl (by decide) rfl (Or.inl rfl) (fun _ => le_rfl)
  have hchunk : smallBatch.chunk (0, 1) ∈ smallBatch.chunks := List.mem_cons_self
  refine ⟨out, lse, hrun, fun hreads => ?_⟩
  have hprefix := (prefill_row_iff (x := fun _ _ _ => 1) identityOps_lawful (fun _ _ _ => 1)
    (fun _ _ _ _ _ _ => rfl) rfl rfl (fun _ _ _ _ _ _ => rfl)
    (smallBatch_converts hrow) hrun hchunk (t := 1) (h := 0) (by decide) (by decide)
    (by decide)).mp hreads
  exact absurd hprefix (by decide)

end Glm52
