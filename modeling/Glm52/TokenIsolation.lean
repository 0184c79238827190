import Glm52.PagedDecode

/-! # Tokens of other requests

The pages of many requests lie in one cache tensor, and while one request decodes, tokens
of others are stored.  A decode reads the tokens that its index row and its block table
name and nothing else, and the tokens of a cache do not overlap: storing other tokens, with
whatever bytes, changes no output (`decode_isolated`).  The pages need room for the data
and the scales of their tokens. -/
namespace Glm52
open Autotune ExactFloat Softmax OnlineSoftmax ChunkLoop

namespace PagedCache
variable (cache : PagedCache)

/-- The same tensor with other bytes. -/
def withBytes (byte : ℤ → BitVec 8) : PagedCache := { cache with byte := byte }

/-- Only the bytes of the tokens change, and the tokens lie in their pages. -/
structure Stores (tokens : Set (ℤ × ℤ)) (byte : ℤ → BitVec 8) : Prop where
  inPage : ∀ token ∈ tokens, 0 ≤ token.2 ∧ token.2 < cache.cacheBlockSize
  untouched : ∀ a, (∀ token ∈ tokens, a ∉ cache.rowBytes token.1 token.2) → byte a = cache.byte a

variable {cache}

/-- **A token that is not stored keeps its row.** -/
theorem row_withBytes (hfits : cache.Fits) {tokens : Set (ℤ × ℤ)} {byte : ℤ → BitVec 8}
    (hstores : cache.Stores tokens byte) {block posInBlock : ℤ} (hpos : 0 ≤ posInBlock)
    (hlt : posInBlock < cache.cacheBlockSize) (hnot : (block, posInBlock) ∉ tokens) :
    (cache.withBytes byte).row block posInBlock = cache.row block posInBlock := by
  have hsame : ∀ a ∈ cache.rowBytes block posInBlock, byte a = cache.byte a := by
    intro a ha
    apply hstores.untouched
    rintro token htoken ha'
    obtain ⟨hpos', hlt'⟩ := hstores.inPage token htoken
    have hne : (block, posInBlock) ≠ (token.1, token.2) := by
      rintro heq
      exact hnot (heq ▸ htoken)
    exact disjoint_rowBytes hfits hpos hlt hpos' hlt' hne ha ha'
  exact @row_congr cache (cache.withBytes byte) rfl rfl block posInBlock hsame

end PagedCache

/-- The tokens that the index row names below its length. -/
def CompressedKeys.tokens (keys : CompressedKeys) : Set (ℤ × ℤ) :=
  {token | ∃ c < keys.numCandidates, (c : ℤ) < keys.topkLen ∧ 0 ≤ keys.slotIds c ∧
    token = ((keys.slotIds c).tdiv keys.cache.cacheBlockSize,
      (keys.slotIds c).tmod keys.cache.cacheBlockSize)}

/-- The tokens of the window. -/
def WindowKeys.tokens (keys : WindowKeys) : Set (ℤ × ℤ) :=
  {token | ∃ c < keys.numCandidates, (c : ℤ) < keys.gatherLen ∧
    token = (keys.blockTable ((keys.pos c).tdiv keys.cache.cacheBlockSize),
      (keys.pos c).tmod keys.cache.cacheBlockSize)}

section Steps
variable {scale : ℝ} {q : ℕ → Scalar}

/-- The row of a slot that is not stored is taken in as before. -/
theorem pushRow_withBytes {cache : PagedCache} (hsize : 0 < cache.cacheBlockSize)
    (hfits : cache.Fits) {tokens : Set (ℤ × ℤ)} {byte : ℤ → BitVec 8}
    (hstores : cache.Stores tokens byte) {block pos : ℤ} (hpos : 0 ≤ pos)
    (hnot : (block, pos.tmod cache.cacheBlockSize) ∉ tokens) (running : State ℕ) :
    pushRow (cache.withBytes byte) scale q running block (pos.tmod cache.cacheBlockSize) =
      pushRow cache scale q running block (pos.tmod cache.cacheBlockSize) := by
  have hmod : 0 ≤ pos.tmod cache.cacheBlockSize := Int.tmod_nonneg _ hpos
  have hlt : pos.tmod cache.cacheBlockSize < cache.cacheBlockSize :=
    Int.tmod_lt_of_pos _ (by omega)
  rw [pushRow, pushRow, PagedCache.row_withBytes hfits hstores hmod hlt hnot]

/-- One pass over the index row. -/
theorem globalSlotStep_withBytes {keys : CompressedKeys} (hsize : 0 < keys.cache.cacheBlockSize)
    (hfits : keys.cache.Fits) {tokens : Set (ℤ × ℤ)} {byte : ℤ → BitVec 8}
    (hstores : keys.cache.Stores tokens byte)
    (hdisjoint : ∀ token ∈ keys.tokens, token ∉ tokens) {c : ℕ} (hlt : c < keys.numCandidates)
    (hcap : (c : ℤ) < keys.topkLen) (running : State ℕ) :
    globalSlotStep (keys.cache.withBytes byte) scale q running (keys.slotIds c) =
      globalSlotStep keys.cache scale q running (keys.slotIds c) := by
  unfold globalSlotStep
  by_cases hslot : 0 ≤ keys.slotIds c
  · rw [if_pos hslot, if_pos hslot]
    apply pushRow_withBytes hsize hfits hstores hslot
    exact hdisjoint _ ⟨c, hlt, hcap, hslot, rfl⟩
  · rw [if_neg hslot, if_neg hslot]

/-- One pass over the window. -/
theorem pagedStep_withBytes {keys : WindowKeys} (hsize : 0 < keys.cache.cacheBlockSize)
    (hfits : keys.cache.Fits) (hlen : keys.gatherLen ≤ keys.seqLen) {tokens : Set (ℤ × ℤ)}
    {byte : ℤ → BitVec 8} (hstores : keys.cache.Stores tokens byte)
    (hdisjoint : ∀ token ∈ keys.tokens, token ∉ tokens) {c : ℕ} (hlt : c < keys.numCandidates)
    (hcap : (c : ℤ) < keys.gatherLen) (running : State ℕ) :
    pagedStep (keys.cache.withBytes byte) scale q keys.blockTable running (keys.pos c) =
      pagedStep keys.cache scale q keys.blockTable running (keys.pos c) := by
  have hpos : 0 ≤ keys.pos c := by unfold WindowKeys.pos; omega
  apply pushRow_withBytes hsize hfits hstores hpos
  exact hdisjoint _ ⟨c, hlt, hcap, rfl⟩

/-- The kernel over both groups. -/
theorem fusedKernel_withBytes {compressed : CompressedKeys} {swa : WindowKeys}
    (hsizeC : 0 < compressed.cache.cacheBlockSize) (hfitsC : compressed.cache.Fits)
    (hsizeW : 0 < swa.cache.cacheBlockSize) (hfitsW : swa.cache.Fits)
    (hlen : swa.gatherLen ≤ swa.seqLen) {tokensC tokensW : Set (ℤ × ℤ)}
    {byteC byteW : ℤ → BitVec 8} (hstoresC : compressed.cache.Stores tokensC byteC)
    (hstoresW : swa.cache.Stores tokensW byteW)
    (hdisjointC : ∀ token ∈ compressed.tokens, token ∉ tokensC)
    (hdisjointW : ∀ token ∈ swa.tokens, token ∉ tokensW)
    (sink : Scalar) (d : ℕ) :
    fp8dsGlobalPagedAttentionWithSinkKernel
        { compressed with cache := compressed.cache.withBytes byteC }
        { swa with cache := swa.cache.withBytes byteW } scale q sink d =
      fp8dsGlobalPagedAttentionWithSinkKernel compressed swa scale q sink d := by
  have hcompressed : ∀ running, ∀ c ∈ List.range compressed.numCandidates,
      (if (c : ℤ) < compressed.topkLen ∧ 0 ≤ compressed.slotIds c then
        pushRow (compressed.cache.withBytes byteC) scale q running
          ((compressed.slotIds c).tdiv compressed.cache.cacheBlockSize)
          ((compressed.slotIds c).tmod compressed.cache.cacheBlockSize) else running) =
      (if (c : ℤ) < compressed.topkLen ∧ 0 ≤ compressed.slotIds c then
        pushRow compressed.cache scale q running
          ((compressed.slotIds c).tdiv compressed.cache.cacheBlockSize)
          ((compressed.slotIds c).tmod compressed.cache.cacheBlockSize) else running) := by
    intro running c hc
    by_cases hread : (c : ℤ) < compressed.topkLen ∧ 0 ≤ compressed.slotIds c
    · rw [if_pos hread, if_pos hread]
      apply pushRow_withBytes hsizeC hfitsC hstoresC hread.2
      exact hdisjointC _ ⟨c, List.mem_range.mp hc, hread.1, hread.2, rfl⟩
    · rw [if_neg hread, if_neg hread]
  have hwindow : ∀ running, ∀ c ∈ List.range swa.numCandidates,
      (if (c : ℤ) < swa.gatherLen then
        pagedStep (swa.cache.withBytes byteW) scale q swa.blockTable running (swa.pos c)
        else running) =
      (if (c : ℤ) < swa.gatherLen then
        pagedStep swa.cache scale q swa.blockTable running (swa.pos c) else running) := by
    intro running c hc
    by_cases hcap : (c : ℤ) < swa.gatherLen
    · rw [if_pos hcap, if_pos hcap]
      exact pagedStep_withBytes hsizeW hfitsW hlen hstoresW hdisjointW (List.mem_range.mp hc) hcap
        running
    · rw [if_neg hcap, if_neg hcap]
  have hfirst := List.foldl_ext _ _ State.empty hcompressed
  have hsecond := fun running => List.foldl_ext _ _ running hwindow
  unfold fp8dsGlobalPagedAttentionWithSinkKernel
  refine congrArg (fun running => finishRunningWithSink running sink d) ?_
  refine (hsecond _).trans ?_
  exact congrArg (fun running => List.foldl _ running _) hfirst

end Steps

/-- **Decodes are isolated.** Whatever bytes are stored for tokens that the index row and
the window do not name, the kernel over both groups stores the same output, and so do the
chunked calls leave the same states, however often their autotuners run the kernels: bit for
bit, with no assumption on the rows. -/
theorem decode_isolated {compressed : CompressedKeys} {swa : WindowKeys}
    (hsizeC : 0 < compressed.cache.cacheBlockSize) (hfitsC : compressed.cache.Fits)
    (hsizeW : 0 < swa.cache.cacheBlockSize) (hfitsW : swa.cache.Fits)
    (hlen : swa.gatherLen ≤ swa.seqLen) {tokensC tokensW : Set (ℤ × ℤ)}
    {byteC byteW : ℤ → BitVec 8} (hstoresC : compressed.cache.Stores tokensC byteC)
    (hstoresW : swa.cache.Stores tokensW byteW)
    (hdisjointC : ∀ token ∈ compressed.tokens, token ∉ tokensC)
    (hdisjointW : ∀ token ∈ swa.tokens, token ∉ tokensW)
    (launch : SinkLaunch) (scale : ℝ) (q : ℕ → ℕ → Scalar) (attnSink : ℕ → Scalar)
    (output : ℕ → ℕ → Scalar) :
    fp8dsGlobalPagedSparseMlaAttentionWithSinkMultihead launch
        { compressed with cache := compressed.cache.withBytes byteC }
        { swa with cache := swa.cache.withBytes byteW } scale q attnSink output =
      fp8dsGlobalPagedSparseMlaAttentionWithSinkMultihead launch compressed swa scale q attnSink
        output ∧
    ∀ {blockC blockW : Option ℕ}, blockC ≠ some 0 → blockW ≠ some 0 →
      ∀ {widthsC widthsW : List ℕ}, widthsC.sum = compressed.numCandidates →
        widthsW.sum = swa.numCandidates → ∀ (tunerC tunerW : Tuner ℕ) {numHeads h : ℕ},
      h < numHeads → ∀ state,
      accumulateGlobalChunks blockC numHeads (compressed.cache.withBytes byteC) scale q
          compressed.slotIds compressed.topkLen tunerC 0 widthsC state h =
        accumulateGlobalChunks blockC numHeads compressed.cache scale q compressed.slotIds
          compressed.topkLen tunerC 0 widthsC state h ∧
      accumulatePagedChunks blockW numHeads (swa.cache.withBytes byteW) scale q swa.seqLen
          swa.gatherLen swa.blockTable tunerW 0 widthsW state h =
        accumulatePagedChunks blockW numHeads swa.cache scale q swa.seqLen swa.gatherLen
          swa.blockTable tunerW 0 widthsW state h := by
  refine ⟨?_, ?_⟩
  · unfold fp8dsGlobalPagedSparseMlaAttentionWithSinkMultihead
    refine congrArg (fun lane => launch.store lane output) ?_
    funext h d
    exact fusedKernel_withBytes hsizeC hfitsC hsizeW hfitsW hlen hstoresC hstoresW hdisjointC
      hdisjointW (attnSink h) d
  · intro blockC blockW hblockC hblockW widthsC widthsW hwidthsC hwidthsW tunerC tunerW numHeads h
      hh state
    refine ⟨?_, ?_⟩
    · rw [accumulateGlobalChunks_eq hblockC hh, accumulateGlobalChunks_eq hblockC hh]
      refine tunedLoop_congr (fun running c hc hcap => ?_) _ _
      rw [hwidthsC, Nat.zero_add] at hc
      exact globalSlotStep_withBytes hsizeC hfitsC hstoresC hdisjointC hc hcap running
    · rw [accumulatePagedChunks_eq hblockW hh, accumulatePagedChunks_eq hblockW hh]
      refine tunedLoop_congr (fun running c hc hcap => ?_) _ _
      rw [hwidthsW, Nat.zero_add] at hc
      exact pagedStep_withBytes hsizeW hfitsW hlen hstoresW hdisjointW hc hcap running

/-- Page 100 is overwritten while slot 6 and positions 3 and 4 are attended to. -/
def overwritten (a : ℤ) : BitVec 8 :=
  if 58400 ≤ a ∧ a < 58984 then 255#8 else unitPages.byte a

theorem unitPages_stores : unitPages.Stores {(100, 0)} overwritten := by
  refine ⟨fun token htoken => ?_, fun a ha => ?_⟩
  · obtain rfl := Set.mem_singleton_iff.mp htoken
    decide
  · have hout := ha (100, 0) (Set.mem_singleton _)
    refine if_neg fun hin => hout ?_
    simp only [PagedCache.rowBytes, PagedCache.tokenDataPtr, PagedCache.tokenScalePtr, unitPages,
      tokenDataSize, tokenFp8Dim, tokenBf16Dim, tokenScaleDim, Set.mem_union, Set.mem_ofPred_eq]
    omega

theorem decode_isolated_overwritten :
    fp8dsGlobalPagedSparseMlaAttentionWithSinkMultihead ⟨1, 1, 1, 1, none⟩
        { unitCompressed with cache := unitPages.withBytes overwritten }
        { unitWindow with cache := unitPages.withBytes overwritten } 1 (fun _ _ => fin 1)
        (fun _ => fin 0) (fun _ _ => nan) =
      fp8dsGlobalPagedSparseMlaAttentionWithSinkMultihead ⟨1, 1, 1, 1, none⟩ unitCompressed
        unitWindow 1 (fun _ _ => fin 1) (fun _ => fin 0) (fun _ _ => nan) := by
  have hslots : ∀ token ∈ unitCompressed.tokens, token ∉ ({(100, 0)} : Set (ℤ × ℤ)) := by
    rintro token ⟨c, hlt, -, -, rfl⟩ heq
    replace heq := (Set.mem_singleton_iff.mp heq).symm
    have hslot : (100 : ℤ) = (7 * (c : ℤ) - 1).tdiv 1 := congrArg Prod.fst heq
    rw [Int.tdiv_one] at hslot
    have hlt' : c < 3 := hlt
    omega
  have hpositions : ∀ token ∈ unitWindow.tokens, token ∉ ({(100, 0)} : Set (ℤ × ℤ)) := by
    rintro token ⟨c, hlt, -, rfl⟩ heq
    replace heq := (Set.mem_singleton_iff.mp heq).symm
    have hpos : (100 : ℤ) = (5 - 2 + (c : ℤ)).tdiv 1 := congrArg Prod.fst heq
    rw [Int.tdiv_one] at hpos
    have hlt' : c < 4 := hlt
    omega
  have hfits : unitPages.Fits := by
    unfold PagedCache.Fits
    decide
  exact (@decode_isolated unitCompressed unitWindow (by decide) hfits (by decide) hfits
    (by decide) {(100, 0)} {(100, 0)} overwritten overwritten unitPages_stores
    unitPages_stores hslots hpositions ⟨1, 1, 1, 1, none⟩ 1 (fun _ _ => fin 1) (fun _ => fin 0)
    (fun _ _ => nan)).1

end Glm52
