import Glm52.SeparateBatch

/-! # What the metadata builder computes

For each batch the builder fills a persistent buffer with the request of every token, gives
every prefill token the rank of its request among the prefills (`-1` for the decodes), and
lays the keys of a chunk's requests out in the workspace: the starts begin as the exclusive
prefix sums over all prefills, and the loop over the chunks subtracts, in place, the start
of the chunk's first request.

Whatever batches came before, the buffer then names the owner of every token
(`builds_reqIds`); and in every chunk the workspace rows of its requests are a partition of
the rows that the chunk gathers, each token's request among them
(`workspace_rows_partition`). -/
namespace Glm52
open Ragged

namespace Batch
variable (batch : Batch)

def numReqs : ℕ := batch.numDecodes + batch.numPrefills

/-! ### The builder -/

/-- `np.repeat(np.arange(num_reqs), seg_lengths)`. -/
def reqIdPerToken : List ℤ :=
  (batch.queryLens.zipIdx.map fun seg => List.replicate seg.1 (seg.2 : ℤ)).flatten

/-- The persistent buffer after `build`: filled with zeros, then the ids.  `none` is a batch
with more tokens than the buffer. -/
def fillReqIdBuffer (buffer : List ℤ) : Option (List ℤ) :=
  let filled := buffer.map fun _ => (0 : ℤ)
  if batch.reqIdPerToken.length ≤ filled.length then
    some (batch.reqIdPerToken ++ filled.drop batch.reqIdPerToken.length)
  else none

/-- `prefill_request_id`. -/
def prefillRequestId : ℕ → ℤ :=
  (List.range batch.numPrefills).foldl (fun ids reqIdx =>
    let globalReqIdx := batch.numDecodes + reqIdx
    let reqQueryStart := batch.queryStartLoc globalReqIdx
    let reqQueryEnd := batch.queryStartLoc (globalReqIdx + 1)
    fun t => if reqQueryStart ≤ t ∧ t < reqQueryEnd then (reqIdx : ℤ) else ids t) fun _ => -1

/-- The body of the chunk loop, for the workspace starts. -/
def adjustStarts (starts : ℕ → ℤ) (bounds : ℕ × ℕ) : ℕ → ℤ :=
  let offset := starts bounds.1
  fun i => if bounds.1 ≤ i ∧ i < bounds.2 then starts i - offset else starts i

/-- `prefill_workspace_starts_cpu` after the loop. -/
def workspaceStarts : ℕ → ℤ :=
  batch.chunkBounds.foldl adjustStarts fun i => ((exclusiveSum batch.prefillSeqLens).getD i 0 : ℕ)

/-! ### The owner of a token -/

theorem length_queryLens : batch.queryLens.length = batch.numReqs := by
  rw [queryLens, List.length_append, List.length_replicate]
  rfl

theorem queryStartLoc_succ {r : ℕ} (hr : r < batch.numReqs) :
    ∃ len, batch.queryLens[r]? = some len ∧
      batch.queryStartLoc (r + 1) = batch.queryStartLoc r + len := by
  have hlt : r < batch.queryLens.length := batch.length_queryLens ▸ hr
  refine ⟨batch.queryLens[r], List.getElem?_eq_getElem hlt, ?_⟩
  rw [queryStartLoc, queryStartLoc, List.take_add_one, List.getElem?_eq_getElem hlt, Option.toList,
    List.sum_append, List.sum_singleton]

theorem queryStartLoc_numReqs : batch.queryStartLoc batch.numReqs = batch.numActualTokens := by
  rw [queryStartLoc, numActualTokens, List.take_of_length_le batch.length_queryLens.le]

theorem length_reqIdPerToken : batch.reqIdPerToken.length = batch.numActualTokens := by
  have hlens : (batch.queryLens.zipIdx.map fun seg => List.replicate seg.1 (seg.2 : ℤ)).map
      List.length = batch.queryLens := by
    rw [List.map_map]
    have hfst : (List.length ∘ fun seg : ℕ × ℕ => List.replicate seg.1 (seg.2 : ℤ)) = Prod.fst :=
      funext fun seg => List.length_replicate
    rw [hfst, List.zipIdx_map_fst]
  rw [reqIdPerToken, List.length_flatten, hlens, numActualTokens]

/-- **Every token has its request's id.** -/
theorem reqIdPerToken_eq {r t : ℕ} (hr : r < batch.numReqs) (hstart : batch.queryStartLoc r ≤ t)
    (hend : t < batch.queryStartLoc (r + 1)) : batch.reqIdPerToken[t]? = some (r : ℤ) := by
  obtain ⟨len, hlen, hnext⟩ := batch.queryStartLoc_succ hr
  obtain ⟨j, rfl⟩ := Nat.exists_eq_add_of_le hstart
  have hblock : (batch.queryLens.zipIdx.map fun seg => List.replicate seg.1 (seg.2 : ℤ))[r]? =
      some (List.replicate len (r : ℤ)) := by
    rw [List.getElem?_map, List.getElem?_zipIdx, hlen, Nat.zero_add]
    rfl
  have hid : (List.replicate len (r : ℤ))[j]? = some (r : ℤ) :=
    List.getElem?_replicate_of_lt (by omega)
  have hread := getElem?_flatten_offset hblock hid
  have hoffset : (((batch.queryLens.zipIdx.map fun seg =>
      List.replicate seg.1 (seg.2 : ℤ)).take r).map List.length).sum = batch.queryStartLoc r := by
    have hfst : (List.length ∘ fun seg : ℕ × ℕ => List.replicate seg.1 (seg.2 : ℤ)) = Prod.fst :=
      funext fun seg => List.length_replicate
    rw [← List.map_take, List.map_map, hfst, List.map_take, List.zipIdx_map_fst, queryStartLoc]
  rwa [hoffset] at hread

/-- What the buffer holds for a batch: the owner of every token, and zeros behind. -/
structure Owners (buffer : List ℤ) : Prop where
  owner : ∀ r < batch.numReqs, ∀ t, batch.queryStartLoc r ≤ t → t < batch.queryStartLoc (r + 1) →
    buffer[t]? = some (r : ℤ)
  padding : ∀ t, batch.numActualTokens ≤ t → t < buffer.length → buffer[t]? = some 0

theorem fillReqIdBuffer_owners {buffer filled : List ℤ}
    (h : batch.fillReqIdBuffer buffer = some filled) :
    filled.length = buffer.length ∧ batch.Owners filled := by
  unfold fillReqIdBuffer at h
  by_cases hfits : batch.reqIdPerToken.length ≤ (buffer.map fun _ => (0 : ℤ)).length
  · rw [if_pos hfits] at h
    obtain rfl := Option.some.inj h
    rw [List.length_map] at hfits
    have hlength : (batch.reqIdPerToken ++
        (buffer.map fun _ => (0 : ℤ)).drop batch.reqIdPerToken.length).length = buffer.length := by
      rw [List.length_append, List.length_drop, List.length_map]
      omega
    refine ⟨hlength, fun r hr t hstart hend => ?_, fun t hpast hlt => ?_⟩
    · have hid := batch.reqIdPerToken_eq hr hstart hend
      obtain ⟨hlt, -⟩ := List.getElem?_eq_some_iff.mp hid
      rw [List.getElem?_append_left hlt, hid]
    · rw [← length_reqIdPerToken] at hpast
      rw [hlength] at hlt
      rw [List.getElem?_append_right hpast, List.getElem?_drop, Nat.add_sub_cancel' hpast,
        List.getElem?_map, List.getElem?_eq_getElem hlt]
      rfl
  · rw [if_neg hfits] at h
    cases h

/-! ### The requests of the prefill tokens -/

theorem prefillRequestId_decode {t : ℕ} (ht : t < batch.numDecodeTokens) :
    batch.prefillRequestId t = -1 := by
  unfold prefillRequestId
  generalize List.range batch.numPrefills = ranks
  induction ranks using List.reverseRecOn with
  | nil => rfl
  | append_singleton ranks r ih =>
    rw [List.foldl_append, List.foldl_cons, List.foldl_nil, ih]
    have hdecodes := batch.queryStartLoc_mono (Nat.le_add_right batch.numDecodes r)
    rw [numDecodeTokens] at ht
    refine if_neg ?_
    rintro ⟨hstart, -⟩
    omega

/-- **Every prefill token has the rank of its request.** -/
theorem prefillRequestId_eq {r t : ℕ} (hr : r < batch.numPrefills)
    (hstart : batch.queryStartLoc (batch.numDecodes + r) ≤ t)
    (hend : t < batch.queryStartLoc (batch.numDecodes + r + 1)) : batch.prefillRequestId t = r := by
  -- later requests do not own the token
  have hloop : ∀ m, r < m → (List.range m).foldl (fun (ids : ℕ → ℤ) reqIdx =>
      fun t => if batch.queryStartLoc (batch.numDecodes + reqIdx) ≤ t ∧
          t < batch.queryStartLoc (batch.numDecodes + reqIdx + 1) then (reqIdx : ℤ) else ids t)
        (fun _ => -1) t = r := by
    intro m hm
    induction m with
    | zero => omega
    | succ m ih =>
      rw [List.range_succ, List.foldl_append, List.foldl_cons, List.foldl_nil]
      by_cases hlast : r = m
      · subst hlast
        exact if_pos ⟨hstart, hend⟩
      · have hbefore : batch.queryStartLoc (batch.numDecodes + r + 1) ≤
            batch.queryStartLoc (batch.numDecodes + m) := batch.queryStartLoc_mono (by omega)
        rw [if_neg (by omega)]
        exact ih (by omega)
  exact hloop batch.numPrefills hr

/-! ### The workspace -/

/-- The loop leaves requests before its first chunk alone. -/
theorem foldl_adjustStarts_of_lt {a b : ℕ} {intervals : List (ℕ × ℕ)}
    (h : Consecutive a b intervals) (starts : ℕ → ℤ) {i : ℕ} (hi : i < a) :
    intervals.foldl adjustStarts starts i = starts i := by
  induction intervals generalizing a starts with
  | nil => rfl
  | cons first rest ih =>
    obtain ⟨rfl, hle, hrest⟩ := h
    rw [List.foldl_cons, ih hrest _ (lt_of_lt_of_le hi hle)]
    exact if_neg (fun hin => absurd hin.1 (not_le.mpr hi))

/-- **The loop** makes the starts relative to the first request of each chunk. -/
theorem foldl_adjustStarts_of_mem {a b : ℕ} {intervals : List (ℕ × ℕ)}
    (h : Consecutive a b intervals) (starts : ℕ → ℤ) {bounds : ℕ × ℕ} (hmem : bounds ∈ intervals)
    {i : ℕ} (hstart : bounds.1 ≤ i) (hend : i < bounds.2) :
    intervals.foldl adjustStarts starts i = starts i - starts bounds.1 := by
  induction intervals generalizing a starts with
  | nil => cases hmem
  | cons first rest ih =>
    obtain ⟨rfl, hle, hrest⟩ := h
    rw [List.foldl_cons]
    rcases List.mem_cons.mp hmem with rfl | hlater
    · rw [foldl_adjustStarts_of_lt hrest _ hend]
      exact if_pos ⟨hstart, hend⟩
    · -- a later chunk: this pass has not touched its requests
      obtain ⟨hafter, -, -⟩ := hrest.mem_bounds hlater
      rw [ih hrest _ hlater]
      have hsame : adjustStarts starts first i = starts i := if_neg (by omega)
      have hsame' : adjustStarts starts first bounds.1 = starts bounds.1 := if_neg (by omega)
      rw [hsame, hsame']

/-- The key counts of the requests of a chunk before request `i`. -/
theorem sum_take_sub (lens : List ℕ) {first i : ℕ} (h : first ≤ i) :
    ((lens.take i).sum : ℤ) - (lens.take first).sum = ((lens.take i).drop first).sum := by
  have hsplit : (lens.take i).sum = (lens.take first).sum + ((lens.take i).drop first).sum := by
    conv_lhs => rw [← List.take_append_drop first (lens.take i), List.sum_append, List.take_take,
      Nat.min_eq_left h]
  omega

/-- **The start of a request** is the number of keys of the chunk's requests before it. -/
theorem workspaceStarts_eq (hlens : batch.prefillSeqLens.length = batch.numPrefills)
    {bounds : ℕ × ℕ} (hbounds : bounds ∈ batch.chunkBounds) {r : ℕ} (hstart : bounds.1 ≤ r)
    (hend : r < bounds.2) :
    batch.workspaceStarts r = ((batch.prefillSeqLens.take r).drop bounds.1).sum := by
  obtain ⟨-, -, hlast⟩ := batch.chunkBounds_consecutive.mem_bounds hbounds
  rw [numPrefills] at hlens
  rw [workspaceStarts, foldl_adjustStarts_of_mem batch.chunkBounds_consecutive _ hbounds hstart
    hend, getD_exclusiveSum (by omega), getD_exclusiveSum (by omega), sum_take_sub _ hstart]

/-- Positions of a concatenation are block starts plus positions in the block. -/
theorem exists_block_of_lt (lens : List ℕ) {p : ℕ} (hp : p < lens.sum) :
    ∃ r, ∃ len, lens[r]? = some len ∧ ∃ j < len, p = (lens.take r).sum + j := by
  induction lens generalizing p with
  | nil => exact absurd hp (Nat.not_lt_zero p)
  | cons len lens ih =>
    by_cases hfirst : p < len
    · exact ⟨0, len, rfl, p, hfirst, (Nat.zero_add p).symm⟩
    · rw [List.sum_cons] at hp
      obtain ⟨r, len', hr, j, hj, heq⟩ := ih (p := p - len) (by omega)
      refine ⟨r + 1, len', hr, j, hj, ?_⟩
      rw [List.take_succ_cons, List.sum_cons]
      omega

/-- Block starts plus positions in the block lie below the next block. -/
theorem sum_take_add_le (lens : List ℕ) {r s len : ℕ} (hr : lens[r]? = some len) (h : r < s) :
    (lens.take r).sum + len ≤ (lens.take s).sum := by
  have hnext : (lens.take (r + 1)).sum = (lens.take r).sum + len := by
    rw [List.take_add_one, hr, Option.toList, List.sum_append, List.sum_singleton]
  obtain ⟨k, rfl⟩ := Nat.exists_eq_add_of_le (Nat.succ_le_of_lt h)
  have hmore : (lens.take (r + 1 + k)).sum =
      (lens.take (r + 1)).sum + ((lens.drop (r + 1)).take k).sum := by
    rw [List.take_add, List.sum_append]
  rw [← hnext]
  exact hmore ▸ Nat.le_add_right _ _

/-- Every token has an owner. -/
theorem exists_owner {t : ℕ} (ht : t < batch.numActualTokens) :
    ∃ r < batch.numReqs, batch.queryStartLoc r ≤ t ∧ t < batch.queryStartLoc (r + 1) := by
  obtain ⟨r, len, hr, j, hj, rfl⟩ := exists_block_of_lt batch.queryLens ht
  obtain ⟨hlt, -⟩ := List.getElem?_eq_some_iff.mp hr
  rw [length_queryLens] at hlt
  obtain ⟨len', hlen', hnext⟩ := batch.queryStartLoc_succ hlt
  obtain rfl : len = len' := Option.some.inj (hr.symm.trans hlen')
  refine ⟨r, hlt, Nat.le_add_right _ _, ?_⟩
  rw [hnext]
  exact Nat.add_lt_add_left hj _

/-- The owner of a token of a chunk is one of the chunk's requests. -/
theorem owner_mem_chunk {bounds : ℕ × ℕ} {t : ℕ}
    (hstart : (batch.chunk bounds).tokenStart ≤ t) (hend : t < (batch.chunk bounds).tokenEnd)
    {r : ℕ} (hfirst : batch.queryStartLoc r ≤ t) (hlast : t < batch.queryStartLoc (r + 1)) :
    batch.numDecodes + bounds.1 ≤ r ∧ r < batch.numDecodes + bounds.2 := by
  constructor
  · by_contra hbefore
    have hmono := batch.queryStartLoc_mono
      (show r + 1 ≤ batch.numDecodes + bounds.1 by omega)
    exact absurd (lt_of_lt_of_le hlast hmono) (not_lt.mpr hstart)
  · by_contra hafter
    have hmono := batch.queryStartLoc_mono (not_lt.mp hafter)
    exact absurd (lt_of_lt_of_le hend (le_trans hmono hfirst)) (lt_irrefl t)

/-- The keys of a prefill. -/
def seqLen (r : ℕ) : ℕ := batch.prefillSeqLens.getD r 0

/-- Key `i` of request `r` is one that the chunk gathers. -/
def Owned (bounds : ℕ × ℕ) (r i : ℕ) : Prop := bounds.1 ≤ r ∧ r < bounds.2 ∧ i < batch.seqLen r

section Chunk
variable {batch} (hlens : batch.prefillSeqLens.length = batch.numPrefills) {bounds : ℕ × ℕ}
  (hbounds : bounds ∈ batch.chunkBounds)
include hlens hbounds

theorem getElem?_prefillSeqLens {r : ℕ} (hr : r < bounds.2) :
    batch.prefillSeqLens[r]? = some (batch.seqLen r) := by
  obtain ⟨-, -, hlast⟩ := batch.chunkBounds_consecutive.mem_bounds hbounds
  have hlt : r < batch.prefillSeqLens.length := by
    rw [hlens]
    exact lt_of_lt_of_le hr hlast
  rw [seqLen, List.getD_eq_getElem?_getD, List.getElem?_eq_getElem hlt, Option.getD_some]

/-- The starts of a chunk, relative to the keys before it. -/
theorem workspaceStarts_sub {r : ℕ} (hstart : bounds.1 ≤ r) (hend : r < bounds.2) :
    batch.workspaceStarts r =
      ((batch.prefillSeqLens.take r).sum : ℤ) - (batch.prefillSeqLens.take bounds.1).sum := by
  rw [workspaceStarts_eq batch hlens hbounds hstart hend, sum_take_sub _ hstart]

omit hlens in
/-- The keys of a chunk, relative to the keys before it. -/
theorem chunkTotSeqlen_sub : ((batch.chunk bounds).chunkTotSeqlen : ℤ) =
    ((batch.prefillSeqLens.take bounds.2).sum : ℤ) - (batch.prefillSeqLens.take bounds.1).sum := by
  obtain ⟨-, horder, -⟩ := batch.chunkBounds_consecutive.mem_bounds hbounds
  exact (sum_take_sub _ horder).symm

/-- A request's keys come before the next request's. -/
theorem keys_before {r s : ℕ} (hr : r < bounds.2) (hrs : r < s) :
    (batch.prefillSeqLens.take r).sum + batch.seqLen r ≤ (batch.prefillSeqLens.take s).sum :=
  sum_take_add_le _ (getElem?_prefillSeqLens hlens hbounds hr) hrs

/-- **A key's row** is one of the chunk's. -/
theorem workspaceRow_lt {r i : ℕ} (howned : batch.Owned bounds r i) :
    0 ≤ batch.workspaceStarts r + i ∧
      batch.workspaceStarts r + i < (batch.chunk bounds).chunkTotSeqlen := by
  obtain ⟨hstart, hend, hi⟩ := howned
  have hfirst := sum_take_sub batch.prefillSeqLens hstart
  have hnext := keys_before hlens hbounds hend hend
  rw [workspaceStarts_sub hlens hbounds hstart hend, chunkTotSeqlen_sub hbounds]
  omega

/-- **No row** belongs to two keys. -/
theorem workspaceRow_injective {r i r' i' : ℕ} (howned : batch.Owned bounds r i)
    (howned' : batch.Owned bounds r' i')
    (heq : batch.workspaceStarts r + i = batch.workspaceStarts r' + i') : r = r' ∧ i = i' := by
  obtain ⟨hstart, hend, hi⟩ := howned
  obtain ⟨hstart', hend', hi'⟩ := howned'
  rw [workspaceStarts_sub hlens hbounds hstart hend,
    workspaceStarts_sub hlens hbounds hstart' hend'] at heq
  rcases lt_trichotomy r r' with hlt | rfl | hgt
  · have hnext := keys_before hlens hbounds hend hlt
    omega
  · exact ⟨rfl, by omega⟩
  · have hnext := keys_before hlens hbounds hend' hgt
    omega

/-- **No row** is left over. -/
theorem exists_workspaceRow {p : ℕ} (hp : p < (batch.chunk bounds).chunkTotSeqlen) :
    ∃ r i, batch.Owned bounds r i ∧ batch.workspaceStarts r + i = p := by
  have hrows := chunkTotSeqlen_sub hbounds
  have hpast : (batch.prefillSeqLens.take bounds.1).sum + p <
      (batch.prefillSeqLens.take bounds.2).sum := by omega
  obtain ⟨r, len, hr, i, hi, heq⟩ := exists_block_of_lt _ hpast
  obtain ⟨hlt, -⟩ := List.getElem?_eq_some_iff.mp hr
  have hend : r < bounds.2 := lt_of_lt_of_le hlt (List.length_take_le _ _)
  rw [List.getElem?_take_of_lt hend, getElem?_prefillSeqLens hlens hbounds hend] at hr
  obtain rfl := Option.some.inj hr
  rw [List.take_take, Nat.min_eq_left hend.le] at heq
  have hstart : bounds.1 ≤ r := by
    by_contra hbefore
    have hnext := keys_before hlens hbounds hend (not_le.mp hbefore)
    omega
  refine ⟨r, i, ⟨hstart, hend, hi⟩, ?_⟩
  rw [workspaceStarts_sub hlens hbounds hstart hend]
  omega

omit hlens in
/-- **A chunk's token** has a request of the chunk. -/
theorem exists_prefillRequestId {t : ℕ} (hstart : (batch.chunk bounds).tokenStart ≤ t)
    (hend : t < (batch.chunk bounds).tokenEnd) :
    ∃ r, batch.prefillRequestId t = (r : ℕ) ∧ bounds.1 ≤ r ∧ r < bounds.2 ∧
      batch.queryStartLoc (batch.numDecodes + r) ≤ t ∧
      t < batch.queryStartLoc (batch.numDecodes + r + 1) := by
  obtain ⟨-, -, hlast⟩ := batch.chunkBounds_consecutive.mem_bounds hbounds
  have hactual : t < batch.numActualTokens := by
    have hmono := batch.queryStartLoc_mono
      (show batch.numDecodes + bounds.2 ≤ batch.numReqs from Nat.add_le_add_left hlast _)
    rw [batch.queryStartLoc_numReqs] at hmono
    exact lt_of_lt_of_le hend hmono
  obtain ⟨owner, howner, hfirst, hnext⟩ := batch.exists_owner hactual
  obtain ⟨hlow, hhigh⟩ := batch.owner_mem_chunk hstart hend hfirst hnext
  obtain ⟨r, rfl⟩ := Nat.exists_eq_add_of_le (le_trans (Nat.le_add_right _ _) hlow)
  refine ⟨r, ?_, by omega, by omega, hfirst, hnext⟩
  exact batch.prefillRequestId_eq (Nat.lt_of_add_lt_add_left howner) hfirst hnext

end Chunk

end Batch

/-! ### Main results -/

/-- **The owners, after any builds.** However many batches the buffer was filled for before,
and whatever it held in the beginning, after a run of builds it names the owner of every
token of the last batch, and zero behind them. -/
theorem builds_reqIds {buffer filled : List ℤ} {before : List Batch} {batch : Batch}
    (hrun : (before ++ [batch]).foldlM (fun buffer batch => batch.fillReqIdBuffer buffer) buffer =
      some filled) :
    filled.length = buffer.length ∧ batch.Owners filled := by
  rw [List.foldlM_append] at hrun
  obtain ⟨mid, hbefore, hlast⟩ := Option.bind_eq_some_iff.mp hrun
  have hlength : mid.length = buffer.length := by
    clear hrun hlast
    induction before generalizing buffer with
    | nil =>
      obtain rfl := Option.some.inj hbefore
      rfl
    | cons first rest ih =>
      rw [List.foldlM_cons] at hbefore
      obtain ⟨next, hnext, hrest⟩ := Option.bind_eq_some_iff.mp hbefore
      exact (ih hrest).trans (first.fillReqIdBuffer_owners hnext).1
  rw [List.foldlM_cons] at hlast
  obtain ⟨last, hfill, hnil⟩ := Option.bind_eq_some_iff.mp hlast
  obtain rfl := Option.some.inj hnil
  obtain ⟨hsame, howners⟩ := batch.fillReqIdBuffer_owners hfill
  exact ⟨hsame.trans hlength, howners⟩

/-- **The workspace is partitioned.** In every chunk the rows from a request's start on, one
for each of its keys, lie in the rows that the chunk gathers, no row belongs to two keys,
and none is left over; the requests of the chunk's tokens are requests of the chunk, and
decode tokens have none. -/
theorem workspace_rows_partition (batch : Batch)
    (hlens : batch.prefillSeqLens.length = batch.numPrefills) {bounds : ℕ × ℕ}
    (hbounds : bounds ∈ batch.chunkBounds) :
    let rows := (batch.chunk bounds).chunkTotSeqlen
    (∀ r i, batch.Owned bounds r i →
      0 ≤ batch.workspaceStarts r + i ∧ batch.workspaceStarts r + i < rows) ∧
    (∀ r i r' i', batch.Owned bounds r i → batch.Owned bounds r' i' →
      batch.workspaceStarts r + i = batch.workspaceStarts r' + i' → r = r' ∧ i = i') ∧
    (∀ p : ℕ, p < rows → ∃ r i, batch.Owned bounds r i ∧ batch.workspaceStarts r + i = p) ∧
    (∀ t, (batch.chunk bounds).tokenStart ≤ t → t < (batch.chunk bounds).tokenEnd →
      ∃ r, batch.prefillRequestId t = (r : ℕ) ∧ bounds.1 ≤ r ∧ r < bounds.2 ∧
        batch.queryStartLoc (batch.numDecodes + r) ≤ t ∧
        t < batch.queryStartLoc (batch.numDecodes + r + 1)) ∧
    ∀ t < batch.numDecodeTokens, batch.prefillRequestId t = -1 :=
  ⟨fun _ _ => Batch.workspaceRow_lt hlens hbounds,
    fun _ _ _ _ => Batch.workspaceRow_injective hlens hbounds,
    fun _ => Batch.exists_workspaceRow hlens hbounds,
    fun _ => Batch.exists_prefillRequestId hbounds,
    fun _ => batch.prefillRequestId_decode⟩

/-- Two decodes of two tokens and four prefills in two chunks. -/
def fourPrefills : Batch where
  numDecodes := 2
  decodeQueryLen := 2
  prefillQueryLens := [1, 3, 2, 1]
  prefillSeqLens := [10, 15, 20, 5]
  chunkBounds := [(0, 2), (2, 4)]
  decodeQueryLen_pos := by decide
  prefillQueryLens_pos := by decide
  chunkBounds_consecutive := ⟨rfl, by decide, rfl, by decide, rfl⟩
  chunkBounds_nonempty := by decide

example : (List.range 4).map fourPrefills.workspaceStarts = [0, 10, 0, 20] := by decide

/-- One decode and two prefills in one chunk. -/
def smallerBatch : Batch where
  numDecodes := 1
  decodeQueryLen := 1
  prefillQueryLens := [2, 1]
  prefillSeqLens := [9, 3]
  chunkBounds := [(0, 2)]
  decodeQueryLen_pos := Nat.one_pos
  prefillQueryLens_pos := by decide
  chunkBounds_consecutive := ⟨rfl, by decide, rfl⟩
  chunkBounds_nonempty := by decide

/-- The last request of the second chunk. -/
theorem workspace_rows_partition_fourPrefills :
    fourPrefills.workspaceStarts 3 + 4 < (fourPrefills.chunk (2, 4)).chunkTotSeqlen ∧
      ∃ r, fourPrefills.prefillRequestId 10 = (r : ℕ) ∧ 2 ≤ r ∧ r < 4 := by
  obtain ⟨hinside, -, -, htokens, -⟩ := workspace_rows_partition fourPrefills rfl
    (show (2, 4) ∈ fourPrefills.chunkBounds by decide)
  obtain ⟨r, hr, hlow, hhigh, -⟩ := htokens 10 (by decide) (by decide)
  exact ⟨(hinside 3 4 ⟨by decide, by decide, by decide⟩).2, r, hr, hlow, hhigh⟩

/-- A build for eleven tokens in a buffer that a longer batch and garbage were in. -/
theorem builds_reqIds_fourPrefills :
    ∃ filled, ([fourPrefills, smallerBatch]).foldlM
        (fun buffer (batch : Batch) => batch.fillReqIdBuffer buffer) (List.replicate 12 7) =
          some filled ∧
      filled.length = 12 ∧ filled[2]? = some 1 ∧ filled[10]? = some 0 := by
  refine ⟨_, rfl, ?_⟩
  obtain ⟨hlength, howners⟩ := @builds_reqIds (List.replicate 12 7) _ [fourPrefills] smallerBatch
    rfl
  exact ⟨hlength, howners.owner 1 (by decide) 2 (by decide) (by decide),
    howners.padding 10 (by decide) (by decide)⟩

end Glm52
