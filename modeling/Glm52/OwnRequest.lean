import Glm52.MetadataBuilder
import Glm52.PrefillLanes

/-! # A token attends to its own request

The requests of a batch share one paged cache, and the prefills of a chunk share one
workspace.  The lanes of a token name positions of its request.  For decodes and for mixed
batches they are converted to slots of the cache through the request's block table, for
prefills to workspace rows through the request's workspace start.

With what the builder computes, on either path and for every batch, a token's output is the
attention over the keys that its lanes name in its own request (`attends_own_request`). -/
namespace Glm52
open ExactFloat Softmax OnlineSoftmax TensorShape Ragged

/-- The slot of position `i` of request `r`. -/
def blockSlot (blockTable : ℕ → ℕ → ℤ) (blockSize r i : ℕ) : ℤ :=
  blockTable r (i / blockSize) * blockSize + (i % blockSize : ℕ)

section Laws
variable (impl : FlashMLASparseImpl) (ops : ExternalOps) (cache : Fp8Cache) (batch : Batch)
  (blockTable : ℕ → ℕ → ℤ) (blockSize : ℕ)

/-- What the index conversion promises for the rows of a batch, given the ids of the builder:
holes stay, decodes and mixed batches go through the block table, prefills through the
workspace starts. -/
structure ConvertsRequests (topkIndices : ℕ → List ℤ) : Prop where
  slots : ∀ t r : ℕ, batch.reqIdPerToken[t]? = some (r : ℤ) →
    ops.convertIndices topkIndices t = (topkIndices t).map
      (fun i => if 0 ≤ i then blockSlot blockTable blockSize r i.toNat else -1)
  decodeSlots : ∀ t r : ℕ, batch.prefillRequestId t = -1 →
    batch.reqIdPerToken[t]? = some (r : ℤ) →
    ops.convertIndicesWorkspace topkIndices t = (topkIndices t).map
      (fun i => if 0 ≤ i then blockSlot blockTable blockSize r i.toNat else -1)
  workspace : ∀ t r : ℕ, batch.prefillRequestId t = (r : ℤ) →
    ops.convertIndicesWorkspace topkIndices t = (topkIndices t).map
      (fun i => if 0 ≤ i then batch.workspaceStarts r + i else -1)
  counts : ∀ t, ops.validCounts topkIndices t = (topkIndices t).countP (0 ≤ ·)

/-- The pages of the requests' keys lie in the cache and hold the numbers `y`; the gather
copies the keys of each request of a chunk, upconverted to the numbers `yUp`, to the rows
from its start on. -/
structure HoldsRequests (keys : ℕ → ℕ) (y yUp : ℕ → ℕ → ℝ) : Prop where
  slot : ∀ r < batch.numReqs, ∀ i < keys r, 0 ≤ blockSlot blockTable blockSize r i ∧
    blockSlot blockTable blockSize r i < cache.totalSlots
  pages : ∀ r < batch.numReqs, ∀ i < keys r,
    HoldsLanes dqk (cache.entry (blockSlot blockTable blockSize r i).toNat)
      (y (blockSlot blockTable blockSize r i).toNat)
  gathered : ∀ bounds ∈ batch.chunkBounds, ∀ r, bounds.1 ≤ r → r < bounds.2 →
    ∀ i < batch.seqLen r, HoldsLanes dqk
      (ops.gatherAndUpconvert (batch.chunk bounds) (batch.workspaceStarts r + i).toNat)
      (yUp (blockSlot blockTable blockSize (batch.numDecodes + r) i).toNat)

/-- What the callers promise: one key count for each prefill, and chunks that fit the
workspace. -/
structure FitsWorkspace (keys : ℕ → ℕ) : Prop where
  lens : batch.prefillSeqLens.length = batch.numPrefills
  keys : ∀ r < batch.numPrefills, keys (batch.numDecodes + r) = batch.seqLen r
  rows : ∀ bounds ∈ batch.chunkBounds,
    (batch.chunk bounds).chunkTotSeqlen ≤ impl.prefillWorkspaceRows

end Laws

/-! ### Converted rows -/

/-- The valid lanes of a converted row, as keys. -/
theorem rowCandidates_converted (impl : FlashMLASparseImpl) {numRows : ℕ} {x : ℕ → ℝ}
    {y : ℕ → ℕ → ℝ} {f : ℤ → ℤ} {row : List ℤ}
    (hf : ∀ i ∈ row, 0 ≤ i → 0 ≤ f i ∧ f i < numRows) :
    rowCandidates numRows impl.softmaxScale x y (row.map (fun i => if 0 ≤ i then f i else -1)) =
      namedCandidates impl y f x row := by
  have hlane : ∀ i ∈ row, indexedCandidate dqk numRows impl.softmaxScale x y
      (if 0 ≤ i then f i else -1) = if 0 ≤ i then some (namedKey impl y f x i) else none := by
    intro i hi
    by_cases hvalid : 0 ≤ i
    · rw [if_pos hvalid, if_pos hvalid, indexedCandidate, if_pos (hf i hi hvalid)]
      rfl
    · rw [if_neg hvalid, if_neg hvalid, indexedCandidate, if_neg (by omega)]
  rw [rowCandidates, List.filterMap_map, namedCandidates, ← filterMap_ite]
  exact List.filterMap_congr hlane

/-- Keys named in two ways. -/
theorem namedCandidates_congr (impl : FlashMLASparseImpl) {x : ℕ → ℝ} {y y' : ℕ → ℕ → ℝ}
    {f f' : ℤ → ℤ} {row : List ℤ} (h : ∀ i ∈ row, 0 ≤ i → y (f i).toNat = y' (f' i).toNat) :
    namedCandidates impl y f x row = namedCandidates impl y' f' x row := by
  refine List.map_congr_left fun i hi => ?_
  obtain ⟨hmem, hvalid⟩ := List.mem_filter.mp hi
  rw [namedKey, namedKey, h i hmem (of_decide_eq_true hvalid)]

section Requests
variable {impl : FlashMLASparseImpl} {ops : ExternalOps} {cache : Fp8Cache} {batch : Batch}
  {blockTable : ℕ → ℕ → ℤ} {blockSize : ℕ} {keys : ℕ → ℕ} {y yUp : ℕ → ℕ → ℝ}
  (hholds : HoldsRequests ops cache batch blockTable blockSize keys y yUp)
include hholds

/-- **A row of slots** names keys of its request. -/
theorem cacheCandidates_request {r : ℕ} (hr : r < batch.numReqs) {row : List ℤ}
    (hrange : ∀ i ∈ row, 0 ≤ i → i.toNat < keys r) (x : ℕ → ℝ) :
    let slots := row.map (fun i => if 0 ≤ i then blockSlot blockTable blockSize r i.toNat else -1)
    RowsDecodeTo cache y slots ∧ cacheCandidates impl cache y x slots =
      namedCandidates impl y (fun i => blockSlot blockTable blockSize r i.toNat) x row := by
  intro slots
  constructor
  · intro slot hslot hvalid
    obtain ⟨i, hi, rfl⟩ := List.mem_map.mp hslot
    by_cases hnonneg : 0 ≤ i
    · rw [if_pos hnonneg]
      exact hholds.pages r hr _ (hrange i hi hnonneg)
    · rw [if_neg hnonneg] at hvalid
      cases hvalid
  · exact rowCandidates_converted impl fun i hi hnonneg =>
      hholds.slot r hr _ (hrange i hi hnonneg)

/-- **The workspace of a chunk** holds the keys of its requests. -/
theorem exists_workspace (hfits : FitsWorkspace impl batch keys) {bounds : ℕ × ℕ}
    (hbounds : bounds ∈ batch.chunkBounds) :
    ∃ ws : ℕ → ℕ → ℝ, (∀ p < chunkRows impl (batch.chunk bounds),
        HoldsLanes dqk (ops.gatherAndUpconvert (batch.chunk bounds) p) (ws p)) ∧
      ∀ r, bounds.1 ≤ r → r < bounds.2 → ∀ i < batch.seqLen r,
        ws (batch.workspaceStarts r + i).toNat =
          yUp (blockSlot blockTable blockSize (batch.numDecodes + r) i).toNat := by
  have hcover : ∀ p : ℕ, p < (batch.chunk bounds).chunkTotSeqlen →
      ∃ r i, batch.Owned bounds r i ∧ batch.workspaceStarts r + i = p :=
    fun p hp => Batch.exists_workspaceRow hfits.lens hbounds hp
  choose! owner key howned heq using hcover
  refine ⟨fun p => yUp (blockSlot blockTable blockSize (batch.numDecodes + owner p) (key p)).toNat,
    fun p hp => ?_, fun r hstart hend i hi => ?_⟩
  · have hrows : p < (batch.chunk bounds).chunkTotSeqlen := lt_of_lt_of_le hp (min_le_left _ _)
    obtain ⟨hstart, hend, hkey⟩ := howned p hrows
    have hrow := hholds.gathered bounds hbounds (owner p) hstart hend (key p) hkey
    rw [heq p hrows, Int.toNat_natCast] at hrow
    exact hrow
  · obtain ⟨hnonneg, hlt⟩ := Batch.workspaceRow_lt hfits.lens hbounds ⟨hstart, hend, hi⟩
    obtain ⟨p, hp⟩ := Int.eq_ofNat_of_zero_le hnonneg
    rw [hp] at hlt ⊢
    have hrows : p < (batch.chunk bounds).chunkTotSeqlen := by exact_mod_cast hlt
    -- the row has one owner
    obtain ⟨howner, hkey⟩ := Batch.workspaceRow_injective hfits.lens hbounds (howned p hrows)
      ⟨hstart, hend, hi⟩ ((heq p hrows).trans hp.symm)
    rw [Int.toNat_natCast]
    beta_reduce
    rw [howner, hkey]

end Requests

/-! ### The runs -/

section Run
variable {impl : FlashMLASparseImpl} {ops : ExternalOps} (hops : ops.Lawful) {cache : Fp8Cache}
  {batch : Batch} {q : Tensor3 Scalar} (h0 : q.d0 = batch.numActualTokens) (hd : q.d2 = dqk)
  {topkIndices : ℕ → List ℤ} {outs : Tensor3 Scalar × Tensor2 Scalar}

/-- A batch of decodes is one query of the FP8 kernel. -/
theorem forwardMqa_decodes (hpos : 0 < batch.numDecodeTokens) (hpre : batch.numPrefillTokens = 0) :
    forwardMqa impl ops cache (batch.build false) q topkIndices =
      fp8Decode impl ops cache batch.buildFp8SeparatePrefillDecode q
        (ops.convertIndicesWorkspace topkIndices) := if_pos ⟨hpos, hpre⟩

include hops h0 hd

/-- A decode token's row in a returning run of the separate path. -/
theorem separate_decode_row
    (hrun : forwardMqa impl ops cache (batch.build false) q topkIndices = some outs) {t h : ℕ}
    (ht : t < batch.numDecodeTokens) (hh : h < q.d1) {x : ℕ → ℝ}
    (hx : HoldsLanes dqk (q.get t h) x) {y : ℕ → ℕ → ℝ}
    (hy : RowsDecodeTo cache y (ops.convertIndicesWorkspace topkIndices t)) :
    ReadsAt (outs.1.get t h) (outs.2.get t h)
      (cacheCandidates impl cache y x (ops.convertIndicesWorkspace topkIndices t)) := by
  by_cases hpre : batch.numPrefillTokens = 0
  · have hpos : 0 < batch.numDecodeTokens := lt_of_le_of_lt (Nat.zero_le t) ht
    have hdecode : q.d0 = batch.numDecodeTokens := by
      have hle := batch.numDecodeTokens_le
      rw [Batch.numPrefillTokens] at hpre
      omega
    obtain ⟨hfit, hnofit⟩ := fp8Decode_batch batch impl cache hops hpos hdecode hd
      (ops.convertIndicesWorkspace topkIndices)
    rw [forwardMqa_decodes hpos hpre] at hrun
    have hpad : impl.fp8DecodePaddedHeads ≤ q.d1 := by
      by_contra hlt
      cases (hnofit (not_le.mp hlt)).symm.trans hrun
    obtain ⟨out, lse, hsome, -, -, hreads⟩ := hfit hpad
    obtain rfl := Option.some.inj (hsome.symm.trans hrun)
    exact hreads t (lt_of_lt_of_eq ht hdecode.symm) h hh x hx y hy
  · have hprefills := batch.numPrefillTokens_pos_iff.mp (Nat.pos_of_ne_zero hpre)
    obtain ⟨-, -, -, hdecode, -⟩ := forwardSeparate_spec batch topkIndices hops h0 hd hprefills hrun
    exact hdecode t ht h hh x hx y hy

/-- A prefill token's row, over any numbers that its chunk's workspace holds. -/
theorem separate_prefill_row
    (hrun : forwardMqa impl ops cache (batch.build false) q topkIndices = some outs)
    {bounds : ℕ × ℕ} (hbounds : bounds ∈ batch.chunkBounds) {ws : ℕ → ℕ → ℝ}
    (hws : ∀ p < chunkRows impl (batch.chunk bounds),
      HoldsLanes dqk (ops.gatherAndUpconvert (batch.chunk bounds) p) (ws p)) {t h : ℕ}
    (hstart : (batch.chunk bounds).tokenStart ≤ t) (hend : t < (batch.chunk bounds).tokenEnd)
    (hh : h < min q.d1 impl.numHeads) {x : ℕ → ℝ} (hx : HoldsLanes dqk (q.get t h) x) :
    ReadsAt (outs.1.get t h) (outs.2.get t h)
      (chunkCandidates impl (batch.chunk bounds) ws x (ops.convertIndicesWorkspace topkIndices t)
        (ops.validCounts topkIndices t)) := by
  have hchunk : batch.chunk bounds ∈ batch.chunks := List.mem_map_of_mem hbounds
  obtain ⟨r, -, hlow, hhigh, -⟩ := Batch.exists_prefillRequestId hbounds hstart hend
  obtain ⟨-, -, hlast⟩ := batch.chunkBounds_consecutive.mem_bounds hbounds
  have hpre : 0 < batch.numPrefills :=
    lt_of_le_of_lt (Nat.zero_le r) (lt_of_lt_of_le hhigh hlast)
  obtain ⟨-, -, -, -, hchunks⟩ := forwardSeparate_spec batch topkIndices hops h0 hd hpre hrun
  exact hchunks _ hchunk ws hws t hstart hend h hh x hx

/-- The run returns when the heads fit. -/
theorem forwardMqa_returns (cache : Fp8Cache) (topkIndices : ℕ → List ℤ) {useMixed : Bool}
    (hfit : HeadsFit impl batch useMixed q.d1) :
    ∃ outs, forwardMqa impl ops cache (batch.build useMixed) q topkIndices = some outs := by
  cases useMixed with
  | true =>
    obtain ⟨out, lse, hrun, -⟩ := mixed_returns impl ops cache hd topkIndices
    exact ⟨(out, lse), hrun⟩
  | false =>
    rw [HeadsFit, if_neg Bool.false_ne_true] at hfit
    by_cases htokens : batch.numActualTokens = 0
    · rw [if_pos htokens] at hfit
      cases hfit
    rw [if_neg htokens] at hfit
    by_cases hpre : batch.numPrefillTokens = 0
    · rw [if_pos hpre] at hfit
      have hdecode : q.d0 = batch.numDecodeTokens := by
        have hle := batch.numDecodeTokens_le
        rw [Batch.numPrefillTokens] at hpre
        omega
      have hpos : 0 < batch.numDecodeTokens := by omega
      obtain ⟨out, lse, hsome, -⟩ := (fp8Decode_batch batch impl cache hops hpos hdecode hd
        (ops.convertIndicesWorkspace topkIndices)).1 hfit
      exact ⟨(out, lse), (forwardMqa_decodes hpos hpre).trans hsome⟩
    · rw [if_neg hpre] at hfit
      obtain ⟨h1, hheads, hpad⟩ := hfit
      exact forwardSeparate_returns batch topkIndices impl cache hops h0 hd
        (batch.numPrefillTokens_pos_iff.mp (Nat.pos_of_ne_zero hpre)) h1 hheads hpad

end Run

/-- **A token attends to its own request.** On either path the run returns when the heads
fit, and in every run that returns, for every request of the batch and every token of it, a
decode, or any token of a mixed batch, reads as attention over the keys that its lanes name
in its request's pages; a prefill of the separate path reads as attention over the
upconverted keys of its request exactly when no hole stands before one of its lanes. -/
theorem attends_own_request (impl : FlashMLASparseImpl) {ops : ExternalOps} (hops : ops.Lawful)
    (cache : Fp8Cache) {batch : Batch} {blockTable : ℕ → ℕ → ℤ} {blockSize : ℕ} {keys : ℕ → ℕ}
    {y yUp : ℕ → ℕ → ℝ} (hfits : FitsWorkspace impl batch keys)
    (hholds : HoldsRequests ops cache batch blockTable blockSize keys y yUp)
    {topkIndices : ℕ → List ℤ}
    (hconv : ConvertsRequests ops batch blockTable blockSize topkIndices)
    (hrange : ∀ r < batch.numReqs, ∀ t, batch.queryStartLoc r ≤ t →
      t < batch.queryStartLoc (r + 1) → ∀ i ∈ topkIndices t, 0 ≤ i → i.toNat < keys r)
    {q : Tensor3 Scalar} (h0 : q.d0 = batch.numActualTokens) (hd : q.d2 = dqk)
    {x : ℕ → ℕ → ℕ → ℝ} (hx : ∀ t < q.d0, ∀ h < q.d1, HoldsLanes dqk (q.get t h) (x t h))
    (useMixed : Bool) :
    (HeadsFit impl batch useMixed q.d1 →
      ∃ outs, forwardMqa impl ops cache (batch.build useMixed) q topkIndices = some outs) ∧
    ∀ outs, forwardMqa impl ops cache (batch.build useMixed) q topkIndices = some outs →
      ∀ r < batch.numReqs, ∀ t, batch.queryStartLoc r ≤ t → t < batch.queryStartLoc (r + 1) →
        ∀ h < min q.d1 impl.numHeads,
          let named := fun y => namedCandidates impl y
            (fun i => blockSlot blockTable blockSize r i.toNat) (x t h) (topkIndices t)
          (useMixed = true ∨ t < batch.numDecodeTokens →
            ReadsAt (outs.1.get t h) (outs.2.get t h) (named y)) ∧
          (useMixed = false → batch.numDecodeTokens ≤ t →
            (ReadsAt (outs.1.get t h) (outs.2.get t h) (named yUp) ↔
              ValidPrefix (topkIndices t))) := by
  refine ⟨forwardMqa_returns hops h0 hd cache topkIndices, ?_⟩
  intro outs hrun r hr t hfirst hlast h hh named
  have hid := batch.reqIdPerToken_eq hr hfirst hlast
  have htoken : t < q.d0 := by
    have hmono := batch.queryStartLoc_mono (Nat.succ_le_of_lt hr)
    rw [batch.queryStartLoc_numReqs, ← h0] at hmono
    exact lt_of_lt_of_le hlast hmono
  have hhead : h < q.d1 := lt_of_lt_of_le hh (min_le_left _ _)
  have hlanes := hx t htoken h hhead
  have hrow := hrange r hr t hfirst hlast
  obtain ⟨hrows, hcands⟩ := @cacheCandidates_request impl ops cache batch blockTable blockSize keys
    y yUp hholds r hr (topkIndices t) hrow (x t h)
  constructor
  · intro hcache
    by_cases hmixed : useMixed = true
    · subst hmixed
      obtain ⟨out, lse, hsome, -, -, hreads⟩ := mixed_returns impl ops cache hd topkIndices
      obtain rfl := Option.some.inj (hsome.symm.trans hrun)
      have hread := hreads t htoken h hhead (x t h) hlanes y
      rw [hconv.slots t r hid, hcands] at hread
      exact hread hrows
    · have hdecode := hcache.resolve_left hmixed
      rw [Bool.not_eq_true] at hmixed
      subst hmixed
      have hslots := hconv.decodeSlots t r (batch.prefillRequestId_decode hdecode) hid
      have hread := separate_decode_row hops h0 hd hrun hdecode hhead hlanes
        (y := y) (by rw [hslots]; exact hrows)
      rw [hslots, hcands] at hread
      exact hread
  · rintro rfl hprefill
    -- the chunk of the token
    obtain ⟨slice, hslice, hstart, hend⟩ :=
      batch.chunks_consecutive.exists_mem hprefill (lt_of_lt_of_eq htoken h0)
    obtain ⟨chunk, hchunk, rfl⟩ := List.mem_map.mp hslice
    obtain ⟨bounds, hbounds, rfl⟩ := List.mem_map.mp hchunk
    obtain ⟨hlow, hhigh⟩ := batch.owner_mem_chunk hstart hend hfirst hlast
    obtain ⟨p, rfl⟩ := Nat.exists_eq_add_of_le (le_trans (Nat.le_add_right _ _) hlow)
    have hp : p < batch.numPrefills := Nat.lt_of_add_lt_add_left hr
    obtain ⟨ws, hws, hkeys⟩ := exists_workspace hholds hfits hbounds
    have hread := separate_prefill_row hops h0 hd hrun hbounds hws hstart hend hh hlanes
    have howned : ∀ i ∈ topkIndices t, 0 ≤ i → batch.Owned bounds p i.toNat := by
      intro i hi hnonneg
      refine ⟨by omega, by omega, ?_⟩
      rw [← hfits.keys p hp]
      exact hrow i hi hnonneg
    have hinside : ∀ i ∈ topkIndices t, 0 ≤ i → 0 ≤ batch.workspaceStarts p + i ∧
        batch.workspaceStarts p + i < chunkRows impl (batch.chunk bounds) := by
      intro i hi hnonneg
      obtain ⟨hge, hlt⟩ := Batch.workspaceRow_lt hfits.lens hbounds (howned i hi hnonneg)
      have hrows : chunkRows impl (batch.chunk bounds) = (batch.chunk bounds).chunkTotSeqlen :=
        min_eq_left (hfits.rows bounds hbounds)
      rw [Int.toNat_of_nonneg hnonneg] at hge hlt
      rw [hrows]
      exact ⟨hge, hlt⟩
    rw [hconv.workspace t p (batch.prefillRequestId_eq hp hfirst hlast), hconv.counts,
      chunkCandidates_converted hinside] at hread
    have hnamed : namedCandidates impl ws (fun i => batch.workspaceStarts p + i) (x t h)
        (topkIndices t) = named yUp := by
      apply namedCandidates_congr
      intro i hi hnonneg
      obtain ⟨hge, hlt, hkey⟩ := howned i hi hnonneg
      have hws' := hkeys p hge hlt i.toNat hkey
      rwa [Int.toNat_of_nonneg hnonneg] at hws'
    rw [← hnamed]
    exact readsAt_all_iff hread

/-! ### The small batch -/

/-- A decode with one key in page 0 of two tokens, and a prefill with two in page 1. -/
def smallKeys (r : ℕ) : ℕ := if r = 0 then 1 else 2

def smallTable (r _ : ℕ) : ℤ := r

/-- The decode attends to its key; the prefill's tokens to both of theirs. -/
def smallLanes (t : ℕ) : List ℤ := if t = 0 then [0, -1] else [1, 0]

/-- `unitCache` with two pages of two: the NoPE values of page 0 are one, those of page 1 two. -/
def pagedCache : Fp8Cache where
  totalSlots := 4
  byte := fun s o => if o < 512 then if s < 2 then 0x38#8 else 0x40#8 else unitCache.byte s o

/-- The numbers of its rows. -/
def pagedRow (s d : ℕ) : ℝ := if d < 512 then if s < 2 then 1 else 2 else 0

theorem pagedCache_row (s : ℕ) : HoldsLanes dqk (pagedCache.entry s) (pagedRow s) := by
  intro d hd
  have hone : float8e4nv 0x38#8 = fin 1 := by
    simp [float8e4nv, fieldsValue, show (56#8).msb = false by decide]
  have htwo : float8e4nv 0x40#8 = fin 2 := by
    simp [float8e4nv, fieldsValue, show (64#8).msb = false by decide]
  have hbehind : ∀ o, 512 ≤ o → pagedCache.byte s o = unitCache.byte s o := fun o ho =>
    if_neg (Nat.not_lt.mpr ho)
  by_cases hnope : d < 512
  · have hscale : pagedCache.scale s (d / 128) = fin 1 := by
      rw [← unitCache_scale s (show d / 128 < 4 by omega), Fp8Cache.scale, Fp8Cache.scale,
        hbehind _ (by omega), hbehind _ (by omega), hbehind _ (by omega), hbehind _ (by omega)]
    have hbyte : pagedCache.byte s d = if s < 2 then 0x38#8 else 0x40#8 := if_pos hnope
    rw [Fp8Cache.entry, if_pos hnope, Fp8Cache.nope, hscale, hbyte, pagedRow, if_pos hnope]
    by_cases hpage : s < 2
    · rw [if_pos hpage, if_pos hpage, hone]
      simp [toScalar, ExactFloat.map]
    · rw [if_neg hpage, if_neg hpage, htwo]
      simp [toScalar, ExactFloat.map]
  · have hrope : pagedCache.rope s (d - 512) = unitCache.rope 0 (d - 512) := by
      rw [Fp8Cache.rope, hbehind _ (by omega), hbehind _ (by omega)]
      rfl
    have hunit := unitCache_decodesTo 0 Nat.one_pos d hd
    rw [Fp8Cache.entry, if_neg hnope] at hunit
    rw [Fp8Cache.entry, if_neg hnope, hrope, hunit, pagedRow, if_neg hnope]
    exact congrArg fin (if_neg hnope)

/-- Block tables, and a workspace whose rows hold the numbers of their slots. -/
noncomputable def pagedOps : ExternalOps :=
  { identityOps with
    convertIndices := fun idx t => (idx t).map (fun i => if 0 ≤ i then
      blockSlot smallTable 2 (if t = 0 then 0 else 1) i.toNat else -1)
    convertIndicesWorkspace := fun idx t => (idx t).map (fun i => if 0 ≤ i then
      if t = 0 then blockSlot smallTable 2 0 i.toNat else i else -1)
    gatherAndUpconvert := fun _ row _ => fin (row + 2) }

theorem smallBatch_fits : FitsWorkspace (implWithHeads 64) smallBatch smallKeys where
  lens := rfl
  keys := by decide
  rows := by
    intro bounds hbounds
    obtain rfl : bounds = (0, 1) := by simpa [smallBatch] using hbounds
    decide

theorem smallBatch_holds : HoldsRequests pagedOps pagedCache smallBatch smallTable 2 smallKeys
    pagedRow (fun s _ => s) where
  slot := by decide
  pages := fun _ _ _ _ => pagedCache_row _
  gathered := by
    intro bounds hbounds r hstart hend i hi d _
    obtain rfl : bounds = (0, 1) := by simpa [smallBatch] using hbounds
    obtain rfl : r = 0 := by omega
    have hi' : i < 2 := hi
    have hworkspace : smallBatch.workspaceStarts 0 = 0 := by decide
    have hslot : (blockSlot smallTable 2 (smallBatch.numDecodes + 0) i).toNat = i + 2 := by
      rw [blockSlot, Nat.div_eq_of_lt hi', Nat.mod_eq_of_lt hi']
      simp only [smallTable, smallBatch]
      omega
    rw [hslot, hworkspace, Int.zero_add, Int.toNat_natCast, Nat.cast_add]
    rfl

theorem smallBatch_convertsRequests :
    ConvertsRequests pagedOps smallBatch smallTable 2 smallLanes where
  slots := by
    intro t r hid
    have hids : smallBatch.reqIdPerToken = [0, 1, 1] := by decide
    rw [hids] at hid
    have howner : r = if t = 0 then 0 else 1 := by
      match t, hid with
      | 0, hid => simpa using hid.symm
      | 1, hid => simpa using hid.symm
      | 2, hid => simpa using hid.symm
    rw [howner]
    rfl
  decodeSlots := by
    intro t r hnone hid
    have hids : smallBatch.reqIdPerToken = [0, 1, 1] := by decide
    rw [hids] at hid
    have hdefault : smallBatch.prefillRequestId t = if 1 ≤ t ∧ t < 3 then 0 else -1 := rfl
    rw [hdefault] at hnone
    match t, hid with
    | 0, hid =>
      obtain rfl : r = 0 := by simpa using hid.symm
      rfl
    | 1, _ => cases hnone
    | 2, _ => cases hnone
  workspace := by
    intro t r hid
    have hdefault : smallBatch.prefillRequestId t = if 1 ≤ t ∧ t < 3 then 0 else -1 := rfl
    rw [hdefault] at hid
    by_cases ht : 1 ≤ t ∧ t < 3
    · rw [if_pos ht] at hid
      obtain rfl : r = 0 := by omega
      have hstart : smallBatch.workspaceStarts 0 = 0 := by decide
      have hne : t ≠ 0 := by omega
      simp [pagedOps, hstart, hne]
    · rw [if_neg ht] at hid
      omega
  counts := fun _ => rfl

/-- The decode, and the second token of the prefill. -/
theorem attends_own_request_smallBatch :
    ∃ outs, forwardMqa (implWithHeads 64) pagedOps pagedCache (smallBatch.build false)
        ⟨3, 64, dqk, fun _ _ _ => fin 1⟩ smallLanes = some outs ∧
      ReadsAt (outs.1.get 0 5) (outs.2.get 0 5) (namedCandidates (implWithHeads 64) pagedRow
        (fun i => blockSlot smallTable 2 0 i.toNat) (fun _ => 1) [0, -1]) ∧
      ReadsAt (outs.1.get 2 5) (outs.2.get 2 5) (namedCandidates (implWithHeads 64) (fun s _ => s)
        (fun i => blockSlot smallTable 2 1 i.toNat) (fun _ => 1) [1, 0]) := by
  have hrange : ∀ r < smallBatch.numReqs, ∀ t, smallBatch.queryStartLoc r ≤ t →
      t < smallBatch.queryStartLoc (r + 1) → ∀ i ∈ smallLanes t, (0 : ℤ) ≤ i →
        i.toNat < smallKeys r := by
    intro r hr t hfirst hlast
    obtain rfl | rfl : r = 0 ∨ r = 1 := by
      have hreqs : smallBatch.numReqs = 2 := by decide
      omega
    · have hend : smallBatch.queryStartLoc (0 + 1) = 1 := by decide
      obtain rfl : t = 0 := by omega
      decide
    · have hstart : smallBatch.queryStartLoc 1 = 1 := by decide
      have hne : t ≠ 0 := by omega
      rw [smallLanes, if_neg hne]
      decide
  have hlawful : pagedOps.Lawful :=
    ⟨identityOps_lawful.reshapeQuery, identityOps_lawful.reshapeAttnOutput⟩
  obtain ⟨hreturns, hreads⟩ := attends_own_request (implWithHeads 64) hlawful pagedCache
    smallBatch_fits smallBatch_holds smallBatch_convertsRequests hrange
    (q := ⟨3, 64, dqk, fun _ _ _ => fin 1⟩) rfl rfl (x := fun _ _ _ => 1)
    (fun _ _ _ _ _ _ => rfl) false
  obtain ⟨outs, hrun⟩ := hreturns ⟨rfl, Or.inl rfl, fun _ => le_rfl⟩
  refine ⟨outs, hrun, ?_, ?_⟩
  · exact (hreads outs hrun 0 (by decide) 0 (by decide) (by decide) 5 (by decide)).1
      (Or.inr (by decide))
  · exact ((hreads outs hrun 1 (by decide) 2 (by decide) (by decide) 5 (by decide)).2 rfl
      (by decide)).mpr (by decide)

end Glm52
