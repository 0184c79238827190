import Glm52.PagedMqaLogits
import Glm52.Perf2Decode
import Mathlib.Data.List.GetD

/-! # The streaming top-k

Two functions pick the top `K` keys of a row without materialising its logits.  They go
through the keys in chunks, keep the best `K` so far, and select again from these and the
best of each chunk.  Lanes without a finite value carry the index `-1`, also those that a
masked key of the chunk filled.

`torch.topk` breaks ties in an unspecified way, so it is a parameter, a fresh one for
every call and row.  After each chunk the finite lanes are a selection from the unmasked
keys seen so far (`Seen.merge`), and in the end from all of them. -/
namespace Glm52.StreamingTopk
open TiledLaunch Topk PagedMqa

/-! ### The merge loop -/

section Merge
variable {β : Type} [LinearOrder β] [OrderBot β]

/-- The contract of `torch.topk` on a row: the indices of `k` largest values. -/
def TorchTopk (topk : List β → ℕ → List ℕ) : Prop :=
  ∀ row k, k ≤ row.length → IsTopk (row.getD · ⊥) (List.range row.length) k (topk row k)

/-- A row's best values and their positions. -/
structure Running (β : Type) where
  bestValues : List β
  out : List ℤ

/-- All lanes empty. -/
def Running.initial (topkTokens : ℕ) : Running β :=
  ⟨List.replicate topkTokens ⊥, List.replicate topkTokens (-1)⟩

/-- A pass of the loop on one row: the best of the chunk, moved to its start, are appended
to the running ones, and the best of all are gathered. -/
def mergeChunk (chunkTopk candidateTopk : List β → ℕ → List ℕ) (topkTokens kStart : ℕ)
    (chunkLogits : List β) (running : Running β) : Running β :=
  let chunkIndices := chunkTopk chunkLogits (min topkTokens chunkLogits.length)
  let chunkValues := chunkIndices.map (chunkLogits.getD · ⊥)
  let candidateValues := running.bestValues ++ chunkValues
  let candidateIndices := running.out ++ chunkIndices.map (fun i : ℕ => (i : ℤ) + kStart)
  let selected := candidateTopk candidateValues topkTokens
  let bestValues := selected.map (candidateValues.getD · ⊥)
  { bestValues := bestValues
    out := List.zipWith (fun v i => if v = ⊥ then -1 else i) bestValues
      (selected.map (candidateIndices.getD · (-1))) }

/-- The loop over `n` keys in chunks.  `chunkLogits` gives the rows of the chunk at a
start, and may fail. -/
def streamTopk (topk : ℕ → ℕ → List β → ℕ → List ℕ) (topkTokens n chunkSize : ℕ)
    (chunkLogits : ℕ → ℕ → Option (ℕ → List β)) : Option (ℕ → Running β) :=
  (List.range (cdiv n chunkSize)).foldlM
    (fun running pass => (chunkLogits (pass * chunkSize) (min chunkSize (n - pass * chunkSize))).map
      fun chunk row => mergeChunk (topk (2 * pass) row) (topk (2 * pass + 1) row) topkTokens
        (pass * chunkSize) (chunk row) (running row))
    fun _ => Running.initial topkTokens

end Merge

/-! ### The prefill function -/

section Prefill
variable {α : Type} [CommRing α] [LinearOrder α]

/-- The inputs of the prefill indexer: queries, keys with their scales, weights, and the
valid range of each row. -/
structure MqaInputs (α : Type) where
  seqLen : ℕ
  numHeads : ℕ
  headDim : ℕ
  seqLenKv : ℕ
  q : ℕ → ℕ → ℕ → α
  kValues : ℕ → ℕ → α
  kScales : ℕ → α
  weights : ℕ → ℕ → α
  cuSeqlenKs : ℕ → ℤ
  cuSeqlenKe : ℕ → ℤ

/-- `_fp8_mqa_logits_head_chunk_size`. -/
def fp8MqaLogitsHeadChunkSize (seqLen seqLenKv numHeads : ℕ) : ℕ :=
  let scoreElemsPerHead := max 1 (seqLen * seqLenKv)
  let maxHeads := maxScoreBytes / (scoreElemsPerHead * 4)
  max 1 (min (min 8 numHeads) maxHeads)

/-- `_fp8_mqa_logits_k_chunk_size`. -/
def fp8MqaLogitsKChunkSize (seqLen seqLenKv headChunkSize : ℕ) : ℕ :=
  let scoreElemsPerKey := max 1 (seqLen * headChunkSize)
  let maxKeys := maxScoreBytes / (scoreElemsPerKey * 4)
  max 1 (min seqLenKv maxKeys)

/-- The weighted score of a head. -/
def headLogit (t : MqaInputs α) (row p h : ℕ) : α :=
  max (∑ d ∈ Finset.range t.headDim, t.q row h d * (t.kValues p d * t.kScales p)) 0 *
    t.weights row h

/-- A key is valid for a row when it lies in the row's range. -/
def valid (t : MqaInputs α) (row p : ℕ) : Bool :=
  decide (t.cuSeqlenKs row ≤ p) && decide ((p : ℤ) < t.cuSeqlenKe row)

/-- `chunk_logits` after `masked_fill_`, the heads summed chunk by chunk. -/
def chunkLogits (t : MqaInputs α) (headChunkSize kStart len row : ℕ) : List (WithBot α) :=
  (List.range len).map fun j =>
    let p := kStart + j
    let logit := loop (cdiv t.numHeads headChunkSize) fun pass =>
      ∑ h ∈ Finset.Ico (pass * headChunkSize)
        (min (pass * headChunkSize + headChunkSize) t.numHeads), headLogit t row p h
    if valid t row p then (logit : WithBot α) else ⊥

/-- `_fp8_mqa_logits_topk_torch` with its chunk sizes given.  `none` is an FP4 query or an
output of another shape. -/
def mqaLogitsTopk (topk : ℕ → ℕ → List (WithBot α) → ℕ → List ℕ) (t : MqaInputs α)
    (qScale : Bool) (topkTokens : ℕ) (outShape : Option (ℕ × ℕ)) (headChunkSize kChunkSize : ℕ) :
    Option (ℕ → List ℤ) :=
  if qScale then none
  else if outShape.all (· = (t.seqLen, topkTokens)) then
    (streamTopk topk topkTokens t.seqLenKv kChunkSize fun kStart len =>
      some (chunkLogits t headChunkSize kStart len)).map fun running row => (running row).out
  else none

/-- `_fp8_mqa_logits_topk_torch`. -/
def fp8MqaLogitsTopkTorch (topk : ℕ → ℕ → List (WithBot α) → ℕ → List ℕ) (t : MqaInputs α)
    (qScale : Bool) (topkTokens : ℕ) (outShape : Option (ℕ × ℕ)) : Option (ℕ → List ℤ) :=
  let headChunkSize := fp8MqaLogitsHeadChunkSize t.seqLen t.seqLenKv t.numHeads
  let kChunkSize := fp8MqaLogitsKChunkSize t.seqLen t.seqLenKv headChunkSize
  mqaLogitsTopk topk t qScale topkTokens outShape headChunkSize kChunkSize

end Prefill

/-! ### The paged function -/

section Paged
variable {α : Type} [CommRing α] [LinearOrder α]

/-- `_SM120_PAGED_MQA_TOPK_CHUNK_SIZE`. -/
def defaultTopkChunkSize : ℕ := 8192

/-- `_paged_mqa_topk_chunk_size`, from the environment variable. -/
def pagedMqaTopkChunkSize (int : String → Option ℤ) (configured : Option String) : ℕ :=
  match configured with
  | none => defaultTopkChunkSize
  | some text =>
    match int text with
    | none => defaultTopkChunkSize
    | some parsed => (max 1 parsed).toNat

/-- `fp8_fp4_paged_mqa_topk_indices` with its chunk size given.  `supported` is the check for
the Triton path, without which the indices stay as they are and `False` is returned;
`order` is the order in which the lanes of a chunk's launch run. -/
def pagedMqaTopk (topk : ℕ → ℕ → List (WithBot α) → ℕ → List ℕ)
    (order : ℕ → List (Lane α) → List (Lane α)) (supported : Bool) (chunkSize : ℕ) (shape : Shape)
    (t : Tensors α) (maxModelLen : ℕ) (indicesShape : ℕ × ℕ) (topkIndices : ℕ → List ℤ) :
    Option (Bool × (ℕ → List ℤ)) :=
  if supported then
    let topkTokens := indicesShape.2
    if indicesShape.1 = shape.numRows then
      if shape.numRows = 0 ∨ topkTokens = 0 ∨ maxModelLen = 0 then
        some (true, fun _ => List.replicate topkTokens (-1))
      else
        (streamTopk topk topkTokens maxModelLen chunkSize fun tokenStart tokenCount =>
          (fp8PagedMqaLogitsTriton shape t maxModelLen tokenStart (some tokenCount)).map
            fun lanes row => (List.range tokenCount).map fun col =>
              (logitsAfter (order tokenStart lanes) (row, col)).getD ⊥).map
          fun running => (true, fun row => (running row).out)
    else none
  else some (false, topkIndices)

/-- `fp8_fp4_paged_mqa_topk_indices`. -/
def fp8Fp4PagedMqaTopkIndices (topk : ℕ → ℕ → List (WithBot α) → ℕ → List ℕ)
    (order : ℕ → List (Lane α) → List (Lane α)) (supported : Bool) (int : String → Option ℤ)
    (configured : Option String) (shape : Shape) (t : Tensors α) (maxModelLen : ℕ)
    (indicesShape : ℕ × ℕ) (topkIndices : ℕ → List ℤ) : Option (Bool × (ℕ → List ℤ)) :=
  pagedMqaTopk topk order supported (pagedMqaTopkChunkSize int configured) shape t maxModelLen
    indicesShape topkIndices

end Paged

/-! ### The lanes of a selection -/

section Lanes
variable {β : Type} [LinearOrder β] [OrderBot β]

/-- The positions of the finite lanes. -/
def positions (lanes : List (β × ℤ)) : List ℕ :=
  lanes.filterMap fun lane => if lane.1 = ⊥ then none else some lane.2.toNat

@[simp] theorem positions_nil : positions ([] : List (β × ℤ)) = [] := rfl

@[simp] theorem positions_append (l l' : List (β × ℤ)) :
    positions (l ++ l') = positions l ++ positions l' := List.filterMap_append ..

theorem positions_map (l : List ℕ) (lane : ℕ → β × ℤ) :
    positions (l.map lane) =
      (l.filter (fun i => (lane i).1 ≠ ⊥)).map fun i => (lane i).2.toNat := by
  induction l with
  | nil => rfl
  | cons i l ih =>
    have hcons : positions ((i :: l).map lane) =
        positions [lane i] ++ positions (l.map lane) := positions_append [lane i] (l.map lane)
    rw [hcons, ih]
    by_cases hi : (lane i).1 = ⊥
    · simp [positions, hi]
    · simp [positions, hi]

/-- A finite lane holds a position and its score. -/
def Scored (score : ℕ → β) (lane : β × ℤ) : Prop :=
  lane.1 ≠ ⊥ → ∃ p : ℕ, lane = (score p, (p : ℤ))

/-- **Selecting lanes selects positions**: the finite ones of the best `k` lanes are a
selection from the positions of all finite lanes. -/
theorem isTopk_positions {score : ℕ → β} {lanes : List (β × ℤ)} {k : ℕ} {idx : List ℕ}
    (hscored : ∀ lane ∈ lanes, Scored score lane) (hnodup : (positions lanes).Nodup)
    (h : IsTopk ((lanes.map Prod.fst).getD · ⊥) (List.range lanes.length) k idx) :
    IsTopk score (positions lanes) k (positions (idx.map (lanes.getD · (⊥, -1)))) := by
  have hvalue : ∀ i, (lanes.map Prod.fst).getD i ⊥ = (lanes.getD i (⊥, -1)).1 :=
    fun i => List.getD_map lanes (⊥, -1) Prod.fst
  have hlanes : lanes = (List.range lanes.length).map (lanes.getD · (⊥, -1)) := by
    refine List.ext_getElem (by simp) fun i hi _ => ?_
    simp [List.getElem?_eq_getElem hi]
  have hall := positions_map (List.range lanes.length) (lanes.getD · (⊥, -1))
  rw [← hlanes] at hall
  rw [positions_map]
  have hfinite := h.filter_ne_bot List.nodup_range
  simp only [hvalue] at hfinite
  rw [hall] at hnodup ⊢
  refine hfinite.map_on (fun a ha b hb => List.inj_on_of_nodup_map hnodup ha hb) ?_
  intro i hi
  obtain ⟨hrange, hne⟩ := List.mem_filter.mp hi
  have hmem : lanes.getD i (⊥, -1) ∈ lanes := by
    rw [List.getD_eq_getElem _ _ (List.mem_range.mp hrange)]
    exact List.getElem_mem _
  obtain ⟨p, hp⟩ := hscored _ hmem (of_decide_eq_true hne)
  simp only [hp, Int.toNat_natCast]

/-- The finite keys below `n`. -/
def finiteKeys (score : ℕ → β) (n : ℕ) : List ℕ := (List.range n).filter (score · ≠ ⊥)

theorem finiteKeys_add (score : ℕ → β) (n len : ℕ) :
    finiteKeys score (n + len) =
      finiteKeys score n ++ ((List.range len).map (n + ·)).filter (score · ≠ ⊥) := by
  rw [finiteKeys, List.range_add, List.filter_append, finiteKeys]

/-! ### The chunk -/

/-- The lane that a key of the chunk contributes. -/
def chunkLane (kStart : ℕ) (chunkLogits : List β) (i : ℕ) : β × ℤ :=
  (chunkLogits.getD i ⊥, (i : ℤ) + kStart)

/-- The best of a chunk are a selection from its finite keys. -/
theorem isTopk_chunk {score : ℕ → β} {topk : List β → ℕ → List ℕ} (htopk : TorchTopk topk)
    (topkTokens kStart len : ℕ) :
    let chunkLogits := (List.range len).map fun j => score (kStart + j)
    IsTopk score (((List.range len).map (kStart + ·)).filter (score · ≠ ⊥)) topkTokens
      (positions ((topk chunkLogits (min topkTokens chunkLogits.length)).map
        (chunkLane kStart chunkLogits))) := by
  intro chunkLogits
  have hlen : chunkLogits.length = len := by simp [chunkLogits]
  have hvalue : ∀ i ∈ List.range len, chunkLogits.getD i ⊥ = score (kStart + i) := by
    intro i hi
    have hi : i < len := List.mem_range.mp hi
    simp [chunkLogits, hi]
  have hsel := htopk chunkLogits (min topkTokens chunkLogits.length) (Nat.min_le_right _ _)
  rw [hlen] at hsel ⊢
  have hfinite := hsel.filter_ne_bot List.nodup_range
  have hcount := (List.length_filter_le (fun i => decide (chunkLogits.getD i ⊥ ≠ ⊥))
    (List.range len)).trans_eq List.length_range
  have hwide := hfinite.of_min_eq
    (show min (min topkTokens len) _ = min topkTokens _ by omega)
  have hkeys : ((List.range len).map (kStart + ·)).filter (score · ≠ ⊥) =
      ((List.range len).filter fun i => chunkLogits.getD i ⊥ ≠ ⊥).map
        fun i : ℕ => ((i : ℤ) + kStart).toNat := by
    rw [List.filter_map]
    have hfilter : (List.range len).filter ((fun p => decide (score p ≠ ⊥)) ∘ (kStart + ·)) =
        (List.range len).filter fun i => chunkLogits.getD i ⊥ ≠ ⊥ := by
      refine List.filter_congr fun i hi => ?_
      rw [hvalue i hi]
      rfl
    rw [hfilter]
    exact List.map_congr_left fun i _ => by omega
  rw [hkeys, positions_map]
  refine hwide.map_on (fun a _ b _ hab => by omega) fun i hi => ?_
  rw [hvalue i (List.mem_of_mem_filter hi)]
  exact congrArg score (by omega)

/-! ### A pass -/

/-- The values and indices, lane by lane. -/
def Running.lanes (running : Running β) : List (β × ℤ) := running.bestValues.zip running.out

/-- The lanes a pass selects from. -/
def candidateLanes (chunkTopk : List β → ℕ → List ℕ) (topkTokens kStart : ℕ) (chunkLogits : List β)
    (running : Running β) : List (β × ℤ) :=
  running.lanes ++ (chunkTopk chunkLogits (min topkTokens chunkLogits.length)).map
    (chunkLane kStart chunkLogits)

/-- A lane without a finite value loses its index. -/
def clear (lane : β × ℤ) : β × ℤ := (lane.1, if lane.1 = ⊥ then -1 else lane.2)

theorem positions_map_clear (l : List ℕ) (lane : ℕ → β × ℤ) :
    positions (l.map fun i => clear (lane i)) = positions (l.map lane) := by
  rw [positions_map, positions_map]
  refine List.map_congr_left fun i hi => ?_
  have hne : (lane i).1 ≠ ⊥ := of_decide_eq_true (List.mem_filter.mp hi).2
  simp [clear, hne]

theorem map_fst_candidateLanes (chunkTopk : List β → ℕ → List ℕ) (topkTokens kStart : ℕ)
    (chunkLogits : List β) {running : Running β}
    (hlen : running.bestValues.length = running.out.length) :
    (candidateLanes chunkTopk topkTokens kStart chunkLogits running).map Prod.fst =
      running.bestValues ++ (chunkTopk chunkLogits (min topkTokens chunkLogits.length)).map
        (chunkLogits.getD · ⊥) := by
  simp only [candidateLanes, Running.lanes, List.map_append, List.map_map]
  rw [List.map_fst_zip hlen.le]
  rfl

theorem map_snd_candidateLanes (chunkTopk : List β → ℕ → List ℕ) (topkTokens kStart : ℕ)
    (chunkLogits : List β) {running : Running β}
    (hlen : running.bestValues.length = running.out.length) :
    (candidateLanes chunkTopk topkTokens kStart chunkLogits running).map Prod.snd =
      running.out ++ (chunkTopk chunkLogits (min topkTokens chunkLogits.length)).map
        (fun i : ℕ => (i : ℤ) + kStart) := by
  simp only [candidateLanes, Running.lanes, List.map_append, List.map_map]
  rw [List.map_snd_zip hlen.ge]
  rfl

/-- **A pass, lane by lane.** -/
theorem lanes_mergeChunk (chunkTopk candidateTopk : List β → ℕ → List ℕ) (topkTokens kStart : ℕ)
    (chunkLogits : List β) {running : Running β}
    (hlen : running.bestValues.length = running.out.length) :
    let lanes := candidateLanes chunkTopk topkTokens kStart chunkLogits running
    (mergeChunk chunkTopk candidateTopk topkTokens kStart chunkLogits running).lanes =
      (candidateTopk (lanes.map Prod.fst) topkTokens).map
        fun i => clear (lanes.getD i (⊥, -1)) := by
  intro lanes
  have hvalues : lanes.map Prod.fst = _ :=
    map_fst_candidateLanes chunkTopk topkTokens kStart chunkLogits hlen
  have hindices : lanes.map Prod.snd = _ :=
    map_snd_candidateLanes chunkTopk topkTokens kStart chunkLogits hlen
  have hvalue : ∀ i, (lanes.map Prod.fst).getD i ⊥ = (lanes.getD i (⊥, -1)).1 :=
    fun i => List.getD_map lanes (⊥, -1) Prod.fst
  have hindex : ∀ i, (lanes.map Prod.snd).getD i (-1) = (lanes.getD i (⊥, -1)).2 :=
    fun i => List.getD_map lanes (⊥, -1) Prod.snd
  simp only [mergeChunk, Running.lanes, ← hvalues, ← hindices, hvalue, hindex]
  generalize candidateTopk (lanes.map Prod.fst) topkTokens = selected
  induction selected with
  | nil => rfl
  | cons i selected ih => simpa [clear] using ih

/-- What the loop keeps: `K` lanes, empty or holding a finite key and its score, and the
keys held are a selection from the finite keys below `n`. -/
structure Seen (score : ℕ → β) (topkTokens n : ℕ) (running : Running β) : Prop where
  values : running.bestValues.length = topkTokens
  indices : running.out.length = topkTokens
  lane : ∀ lane ∈ running.lanes, lane = (⊥, -1) ∨ ∃ p : ℕ, lane = (score p, (p : ℤ)) ∧ score p ≠ ⊥
  topk : IsTopk score (finiteKeys score n) topkTokens (positions running.lanes)

theorem seen_initial (score : ℕ → β) (topkTokens : ℕ) :
    Seen score topkTokens 0 (Running.initial topkTokens) := by
  have hlanes : (Running.initial topkTokens : Running β).lanes =
      List.replicate topkTokens (⊥, -1) := by
    simp [Running.lanes, Running.initial]
  refine ⟨by simp [Running.initial], by simp [Running.initial], ?_, ?_⟩
  · rw [hlanes]
    exact fun lane h => Or.inl (List.eq_of_mem_replicate h)
  · have hempty : positions (List.replicate topkTokens ((⊥ : β), (-1 : ℤ))) = [] := by
      refine List.filterMap_eq_nil_iff.mpr fun lane h => ?_
      simp [List.eq_of_mem_replicate h]
    rw [hlanes, hempty]
    exact ⟨List.nodup_nil, List.nil_subset _, by simp [finiteKeys], by simp⟩

/-- Of the candidates every finite one is a key below the chunk's end with its score, and no
key is there twice. -/
theorem Seen.selection_of_candidates {score : ℕ → β} {topkTokens kStart : ℕ} {running : Running β}
    (h : Seen score topkTokens kStart running) {chunkTopk : List β → ℕ → List ℕ}
    (hchunk : TorchTopk chunkTopk) (len : ℕ) :
    let lanes := candidateLanes chunkTopk topkTokens kStart
      ((List.range len).map fun j => score (kStart + j)) running
    (∀ lane ∈ lanes, Scored score lane) ∧ (positions lanes).Nodup ∧ topkTokens ≤ lanes.length ∧
      ∀ sel, IsTopk score (positions lanes) topkTokens sel →
        IsTopk score (finiteKeys score (kStart + len)) topkTokens sel := by
  intro lanes
  have hbest := @isTopk_chunk β _ _ score chunkTopk hchunk topkTokens kStart len
  set chunkLogits := (List.range len).map fun j => score (kStart + j) with hlogits
  have hlen : chunkLogits.length = len := by simp [hlogits]
  have hlow : ∀ p ∈ finiteKeys score kStart, p < kStart :=
    fun p hp => List.mem_range.mp (List.mem_of_mem_filter hp)
  have hhigh : ∀ p ∈ ((List.range len).map (kStart + ·)).filter (score · ≠ ⊥), kStart ≤ p := by
    intro p hp
    obtain ⟨j, -, rfl⟩ := List.mem_map.mp (List.mem_of_mem_filter hp)
    exact Nat.le_add_right _ _
  have hpositions : positions lanes = positions running.lanes ++ _ := positions_append _ _
  refine ⟨?_, ?_, ?_, ?_⟩
  · intro lane hlane hfinite
    rcases List.mem_append.mp hlane with hold | hnew
    · rcases h.lane lane hold with rfl | ⟨p, hp, -⟩
      · exact absurd rfl hfinite
      · exact ⟨p, hp⟩
    · obtain ⟨i, hi, rfl⟩ := List.mem_map.mp hnew
      have hsel := hchunk chunkLogits (min topkTokens chunkLogits.length) (Nat.min_le_right _ _)
      have hi : i < len := hlen ▸ List.mem_range.mp (hsel.subset hi)
      refine ⟨kStart + i, ?_⟩
      simp [chunkLane, hi, add_comm]
  · rw [hpositions]
    refine List.nodup_append.mpr ⟨h.topk.nodup, hbest.nodup, fun p hp q hq heq => ?_⟩
    have hp := hlow p (h.topk.subset hp)
    have hq := hhigh q (hbest.subset hq)
    omega
  · have hzip : running.lanes.length = topkTokens := by
      simp [Running.lanes, h.values, h.indices]
    have happend : lanes.length = running.lanes.length + _ := List.length_append
    omega
  · intro sel hsel
    rw [hpositions] at hsel
    rw [finiteKeys_add]
    refine IsTopk.append (List.nodup_range.filter _) ?_ hlow hhigh h.topk hbest hsel
    exact (List.nodup_range.map fun a b hab => Nat.add_left_cancel hab).filter _

/-- **A pass keeps the best of what it has seen**, the chunk included. -/
theorem Seen.merge {score : ℕ → β} {topkTokens kStart : ℕ} {running : Running β}
    (h : Seen score topkTokens kStart running) {chunkTopk candidateTopk : List β → ℕ → List ℕ}
    (hchunk : TorchTopk chunkTopk) (hcandidate : TorchTopk candidateTopk) (len : ℕ) :
    Seen score topkTokens (kStart + len)
      (mergeChunk chunkTopk candidateTopk topkTokens kStart
        ((List.range len).map fun j => score (kStart + j)) running) := by
  obtain ⟨hscored, hnodup, henough, hseen⟩ := h.selection_of_candidates hchunk len
  set chunkLogits := (List.range len).map fun j => score (kStart + j)
  have hlen := h.values.trans h.indices.symm
  have hvalues := map_fst_candidateLanes chunkTopk topkTokens kStart chunkLogits hlen
  have hlanes := lanes_mergeChunk chunkTopk candidateTopk topkTokens kStart chunkLogits hlen
  set lanes := candidateLanes chunkTopk topkTokens kStart chunkLogits running
  have hsel := hcandidate (lanes.map Prod.fst) topkTokens (by simpa using henough)
  have hcount : (candidateTopk (lanes.map Prod.fst) topkTokens).length = topkTokens := by
    rw [hsel.length, List.length_range, List.length_map, Nat.min_eq_left henough]
  rw [List.length_map] at hsel
  refine ⟨?_, ?_, ?_, ?_⟩
  · simpa only [mergeChunk, List.length_map, ← hvalues] using hcount
  · simpa only [mergeChunk, List.length_zipWith, List.length_map, Nat.min_self, ← hvalues]
      using hcount
  · intro lane hlane
    rw [hlanes] at hlane
    obtain ⟨i, hi, rfl⟩ := List.mem_map.mp hlane
    have hmem : lanes.getD i (⊥, -1) ∈ lanes := by
      rw [List.getD_eq_getElem _ _ (List.mem_range.mp (hsel.subset hi))]
      exact List.getElem_mem _
    generalize lanes.getD i (⊥, -1) = chosen at hmem
    by_cases hbot : chosen.1 = ⊥
    · exact Or.inl (by simp only [clear, hbot, if_true])
    · obtain ⟨p, rfl⟩ := hscored chosen hmem hbot
      exact Or.inr ⟨p, by simp only [clear, hbot, if_false], hbot⟩
  · rw [hlanes, positions_map_clear]
    exact hseen _ (isTopk_positions hscored hnodup hsel)

/-- **The loop** sees all the keys, in every row. -/
theorem streamTopk_seen {topk : ℕ → ℕ → List β → ℕ → List ℕ}
    (htopk : ∀ call row, TorchTopk (topk call row)) (topkTokens : ℕ) {n chunkSize : ℕ}
    (hsize : 0 < chunkSize) (numRows : ℕ) (chunkLogits : ℕ → ℕ → Option (ℕ → List β))
    (masked : ℕ → ℕ → β)
    (hlogits : ∀ kStart len, kStart + len ≤ n → ∃ chunk, chunkLogits kStart len = some chunk ∧
      ∀ row < numRows, chunk row = (List.range len).map fun j => masked row (kStart + j)) :
    ∃ running, streamTopk topk topkTokens n chunkSize chunkLogits = some running ∧
      ∀ row < numRows, Seen (masked row) topkTokens n (running row) := by
  have hall : min n (cdiv n chunkSize * chunkSize) = n := min_eq_left (le_cdiv_mul hsize)
  have hrun := foldlM_range_inv (n := cdiv n chunkSize)
    (f := fun (running : ℕ → Running β) pass =>
      (chunkLogits (pass * chunkSize) (min chunkSize (n - pass * chunkSize))).map fun chunk row =>
        mergeChunk (topk (2 * pass) row) (topk (2 * pass + 1) row) topkTokens (pass * chunkSize)
          (chunk row) (running row))
    (fun pass running => ∀ row < numRows,
      Seen (masked row) topkTokens (min n (pass * chunkSize)) (running row)) (by
    intro pass hpass running hseen
    have hstart := (lt_cdiv_iff hsize).mp hpass
    obtain ⟨chunk, hchunk, hrows⟩ := hlogits (pass * chunkSize)
      (min chunkSize (n - pass * chunkSize)) (by omega)
    refine ⟨_, by rw [hchunk]; rfl, fun row hrow => ?_⟩
    have hbefore := hseen row hrow
    rw [min_eq_right hstart.le] at hbefore
    have hnext : min n ((pass + 1) * chunkSize) =
        pass * chunkSize + min chunkSize (n - pass * chunkSize) := by
      rw [Nat.succ_mul]
      omega
    rw [hnext]
    dsimp only
    rw [hrows row hrow]
    exact hbefore.merge (htopk _ row) (htopk _ row) _)
    (s := fun _ => Running.initial topkTokens) (fun row _ => by
      simpa using seen_initial (masked row) topkTokens)
  rw [hall] at hrun
  exact hrun

/-- Lanes that are empty or hold a key are the keys they hold, padded. -/
theorem map_snd_perm_padTo {score : ℕ → β} {lanes : List (β × ℤ)}
    (h : ∀ lane ∈ lanes, lane = (⊥, -1) ∨ ∃ p : ℕ, lane = (score p, (p : ℤ)) ∧ score p ≠ ⊥) :
    (lanes.map Prod.snd).Perm (padTo lanes.length (positions lanes)) := by
  induction lanes with
  | nil => exact List.Perm.refl _
  | cons lane lanes ih =>
    have ih := ih fun l hl => h l (List.mem_cons_of_mem lane hl)
    have hle : (positions lanes).length ≤ lanes.length := List.length_filterMap_le _ _
    rcases h lane List.mem_cons_self with rfl | ⟨p, rfl, hp⟩
    · have hskip : positions ((⊥, -1) :: lanes) = positions lanes := by simp [positions]
      rw [hskip, List.map_cons, List.length_cons, padTo, Nat.succ_sub hle, List.replicate_succ]
      exact (ih.cons _).trans List.perm_middle.symm
    · have hkeep : positions ((score p, (p : ℤ)) :: lanes) = p :: positions lanes := by
        simp [positions, hp]
      rw [hkeep, List.map_cons, List.length_cons, padTo, List.length_cons, Nat.succ_sub_succ]
      exact ih.cons _

end Lanes

/-! ### The selection from the full row -/

section Full
variable {α : Type} [LinearOrder α]

/-- The logits of a row with `-inf` at the keys that are not valid. -/
def maskedRow (valid : ℕ → Bool) (logit : ℕ → α) (p : ℕ) : WithBot α :=
  if valid p then (logit p : WithBot α) else ⊥

/-- The lanes are the top `K` of `n` keys: as many distinct valid keys as there are, up to
`K`, with the scores of any top-`K` of the full masked row, and `-1` in the other lanes. -/
def FullTopk (valid : ℕ → Bool) (logit : ℕ → α) (n topkTokens : ℕ) (out : List ℤ) : Prop :=
  ∃ sel : List ℕ, out.Perm (padTo topkTokens sel) ∧ sel.Nodup ∧ (∀ p ∈ sel, p < n ∧ valid p) ∧
    sel.length = min topkTokens ((List.range n).filter valid).length ∧
    ∀ full, IsTopk (maskedRow valid logit) (List.range n) (min topkTokens n) full →
      (sel.map logit).Perm ((full.filter valid).map logit)

omit [LinearOrder α] in
theorem maskedRow_ne_bot (valid : ℕ → Bool) (logit : ℕ → α) (p : ℕ) :
    maskedRow valid logit p ≠ ⊥ ↔ valid p := by
  unfold maskedRow
  split <;> simp_all

theorem Seen.fullTopk {valid : ℕ → Bool} {logit : ℕ → α} {n topkTokens : ℕ}
    {running : Running (WithBot α)} (h : Seen (maskedRow valid logit) topkTokens n running) :
    FullTopk valid logit n topkTokens running.out := by
  have hvalid : ∀ l : List ℕ, l.filter (maskedRow valid logit · ≠ ⊥) = l.filter valid := by
    intro l
    refine List.filter_congr fun p _ => ?_
    rw [Bool.eq_iff_iff, decide_eq_true_eq, maskedRow_ne_bot]
  have hkeys : finiteKeys (maskedRow valid logit) n = (List.range n).filter valid := hvalid _
  have htopk := h.topk
  rw [hkeys] at htopk
  have hzip : running.lanes.length = topkTokens := by
    simp [Running.lanes, h.values, h.indices]
  have hperm := map_snd_perm_padTo h.lane
  rw [hzip, Running.lanes, List.map_snd_zip (h.values.trans h.indices.symm).ge] at hperm
  have hmem : ∀ p ∈ positions running.lanes, p < n ∧ valid p := fun p hp => by
    simpa using htopk.subset hp
  refine ⟨positions running.lanes, hperm, htopk.nodup, hmem, htopk.length, fun full hfull => ?_⟩
  have hfinite := hfull.filter_ne_bot List.nodup_range
  rw [hvalid, hvalid] at hfinite
  have hcount := List.length_filter_le valid (List.range n)
  rw [List.length_range] at hcount
  have hscores := htopk.scores_perm (List.nodup_range.filter _)
    (hfinite.of_min_eq (show min (min topkTokens n) _ = min topkTokens _ by omega))
  -- on valid keys the masked score is the logit, and a logit is its own image
  have hlogit : ∀ l : List ℕ, (∀ p ∈ l, valid p) →
      l.map (maskedRow valid logit) = (l.map logit).map (fun x : α => (x : WithBot α)) := by
    intro l hl
    rw [List.map_map]
    exact List.map_congr_left fun p hp => if_pos (hl p hp)
  rw [hlogit _ fun p hp => (hmem p hp).2,
    hlogit _ fun p hp => (List.mem_filter.mp hp).2] at hscores
  exact (List.map_perm_map_iff WithBot.coe_injective).mp hscores

/-- Without lanes or without keys nothing is selected. -/
theorem fullTopk_empty (valid : ℕ → Bool) (logit : ℕ → α) {n topkTokens : ℕ}
    (h : topkTokens = 0 ∨ n = 0) :
    FullTopk valid logit n topkTokens (List.replicate topkTokens (-1)) := by
  have hnone : ∀ l : List ℕ, l.length = min topkTokens (min n l.length) → l = [] :=
    fun l hl => List.eq_nil_of_length_eq_zero (by omega)
  have hcount := List.length_filter_le valid (List.range n)
  rw [List.length_range] at hcount
  refine ⟨[], by simp [padTo], List.nodup_nil, by simp, ?_, fun full hfull => ?_⟩
  · rw [List.length_nil]
    omega
  · have hlen := hfull.length
    rw [List.length_range] at hlen
    rw [hnone full (by omega)]
    simp

end Full

/-! ### The two functions -/

section Functions
variable {α : Type} [CommRing α] [LinearOrder α] {topk : ℕ → ℕ → List (WithBot α) → ℕ → List ℕ}

/-- The logit of a key in a row of the prefill indexer. -/
def mqaLogit (t : MqaInputs α) (row p : ℕ) : α :=
  ∑ h ∈ Finset.range t.numHeads, headLogit t row p h

theorem chunkLogits_eq (t : MqaInputs α) {headChunkSize : ℕ} (hhead : 0 < headChunkSize)
    (kStart len row : ℕ) :
    chunkLogits t headChunkSize kStart len row =
      (List.range len).map fun j => maskedRow (valid t row) (mqaLogit t row) (kStart + j) := by
  unfold chunkLogits
  simp only [loop_chunks (le_cdiv_mul hhead)]
  rfl

theorem mqaLogitsTopk_full (htopk : ∀ call row, TorchTopk (topk call row)) (t : MqaInputs α)
    (topkTokens : ℕ) {outShape : Option (ℕ × ℕ)} (hout : outShape.all (· = (t.seqLen, topkTokens)))
    {headChunkSize kChunkSize : ℕ} (hhead : 0 < headChunkSize) (hk : 0 < kChunkSize) :
    ∃ out, mqaLogitsTopk topk t false topkTokens outShape headChunkSize kChunkSize = some out ∧
      ∀ row < t.seqLen,
        FullTopk (valid t row) (mqaLogit t row) t.seqLenKv topkTokens (out row) := by
  obtain ⟨running, hrun, hseen⟩ := streamTopk_seen (n := t.seqLenKv) htopk topkTokens hk t.seqLen
    (fun kStart len => some (chunkLogits t headChunkSize kStart len))
    (fun row => maskedRow (valid t row) (mqaLogit t row))
    (fun kStart len _ => ⟨_, rfl, fun row _ => chunkLogits_eq t hhead kStart len row⟩)
  refine ⟨fun row => (running row).out, ?_, fun row hrow => (hseen row hrow).fullTopk⟩
  unfold mqaLogitsTopk
  rw [if_neg Bool.false_ne_true, if_pos hout, hrun]
  rfl

/-- The positions of a row's context. -/
def inContext (shape : Shape) (t : Tensors α) (row p : ℕ) : Bool :=
  decide ((p : ℤ) < rowContext shape t row)

theorem pagedMqaTopk_full (htopk : ∀ call row, TorchTopk (topk call row))
    {order : ℕ → List (Lane α) → List (Lane α)}
    (horder : ∀ start lanes, (order start lanes).Perm lanes)
    {chunkSize : ℕ} (hsize : 0 < chunkSize) (shape : Shape) (t : Tensors α)
    (maxModelLen topkTokens : ℕ) (topkIndices : ℕ → List ℤ) :
    ∃ out, pagedMqaTopk topk order true chunkSize shape t maxModelLen (shape.numRows, topkTokens)
        topkIndices = some (true, out) ∧
      ∀ row < shape.numRows,
        FullTopk (inContext shape t row) (logit shape t row) maxModelLen topkTokens (out row) := by
  unfold pagedMqaTopk
  rw [if_pos rfl, if_pos rfl]
  by_cases hempty : shape.numRows = 0 ∨ topkTokens = 0 ∨ maxModelLen = 0
  · rw [if_pos hempty]
    exact ⟨_, rfl, fun row hrow => fullTopk_empty _ _ (by omega)⟩
  rw [if_neg hempty]
  obtain ⟨running, hrun, hseen⟩ := streamTopk_seen (n := maxModelLen) htopk topkTokens hsize
    shape.numRows
    (fun tokenStart tokenCount =>
      (fp8PagedMqaLogitsTriton shape t maxModelLen tokenStart (some tokenCount)).map
        fun lanes row => (List.range tokenCount).map fun col =>
          (logitsAfter (order tokenStart lanes) (row, col)).getD ⊥)
    (fun row => maskedRow (inContext shape t row) (logit shape t row)) (by
      intro tokenStart tokenCount hfits
      obtain ⟨lanes, hlanes, hstores⟩ := fp8PagedMqaLogitsTriton_stores shape t hfits
      refine ⟨_, by rw [hlanes]; rfl, fun row hrow => ?_⟩
      refine List.map_congr_left fun col hcol => ?_
      rw [hstores.logitsAfter_eq (horder tokenStart lanes) hrow (List.mem_range.mp hcol)]
      simp [maskedLogit, maskedRow, inContext])
  refine ⟨fun row => (running row).out, ?_, fun row hrow => (hseen row hrow).fullTopk⟩
  rw [hrun]
  rfl

theorem pagedMqaTopkChunkSize_pos (int : String → Option ℤ) (configured : Option String) :
    0 < pagedMqaTopkChunkSize int configured := by
  unfold pagedMqaTopkChunkSize
  split
  · decide
  · split
    · decide
    · omega

end Functions

/-- **The streaming top-k is the full top-k**, for every tie-break of `torch.topk`, at every
chunk size and at the chunk sizes the functions choose. -/
theorem streaming_topk_full {α : Type} [CommRing α] [LinearOrder α]
    (topk : ℕ → ℕ → List (WithBot α) → ℕ → List ℕ) (htopk : ∀ call row, TorchTopk (topk call row))
    (topkTokens : ℕ) :
    (∀ (t : MqaInputs α) (outShape : Option (ℕ × ℕ)),
      outShape = none ∨ outShape = some (t.seqLen, topkTokens) →
      (∀ headChunkSize kChunkSize, 0 < headChunkSize → 0 < kChunkSize →
        ∃ out, mqaLogitsTopk topk t false topkTokens outShape headChunkSize kChunkSize = some out ∧
          ∀ row < t.seqLen,
            FullTopk (valid t row) (mqaLogit t row) t.seqLenKv topkTokens (out row)) ∧
      ∃ out, fp8MqaLogitsTopkTorch topk t false topkTokens outShape = some out ∧
        ∀ row < t.seqLen,
          FullTopk (valid t row) (mqaLogit t row) t.seqLenKv topkTokens (out row)) ∧
    ∀ order : ℕ → List (Lane α) → List (Lane α), (∀ start lanes, (order start lanes).Perm lanes) →
      ∀ (shape : Shape) (t : Tensors α) (maxModelLen : ℕ) (topkIndices : ℕ → List ℤ),
      (∀ chunkSize, 0 < chunkSize →
        ∃ out, pagedMqaTopk topk order true chunkSize shape t maxModelLen
            (shape.numRows, topkTokens) topkIndices = some (true, out) ∧
          ∀ row < shape.numRows,
            FullTopk (inContext shape t row) (logit shape t row) maxModelLen topkTokens (out row)) ∧
      ∀ (int : String → Option ℤ) (configured : Option String),
        ∃ out, fp8Fp4PagedMqaTopkIndices topk order true int configured shape t maxModelLen
            (shape.numRows, topkTokens) topkIndices = some (true, out) ∧
          ∀ row < shape.numRows,
            FullTopk (inContext shape t row) (logit shape t row) maxModelLen topkTokens
              (out row) := by
  constructor
  · intro t outShape hout
    have hall : outShape.all (· = (t.seqLen, topkTokens)) := by
      rcases hout with rfl | rfl <;> simp
    refine ⟨fun headChunkSize kChunkSize hhead hk =>
      mqaLogitsTopk_full htopk t topkTokens hall hhead hk, ?_⟩
    exact mqaLogitsTopk_full htopk t topkTokens hall (Nat.le_max_left 1 _) (Nat.le_max_left 1 _)
  · intro order horder shape t maxModelLen topkIndices
    refine ⟨fun chunkSize hsize =>
      pagedMqaTopk_full htopk horder hsize shape t maxModelLen topkTokens topkIndices, ?_⟩
    intro int configured
    exact pagedMqaTopk_full htopk horder (pagedMqaTopkChunkSize_pos int configured) shape t
      maxModelLen topkTokens topkIndices

/-- A `torch.topk` that breaks ties towards the lower index. -/
def lowestFirst (row : List (WithBot ℤ)) (k : ℕ) : List ℕ :=
  strictTopk (row.getD · ⊥) (List.range row.length) k

/-- Two queries on five keys, the second of which sees the last two keys only. -/
def fiveKeys : MqaInputs ℤ where
  seqLen := 2
  numHeads := 1
  headDim := 1
  seqLenKv := 5
  q _ _ _ := 1
  kValues p _ := [3, 1, 4, 1, 5].getD p 0
  kScales _ := 1
  weights _ _ := 1
  cuSeqlenKs row := 3 * row
  cuSeqlenKe _ := 5

/-- Chunks of two keys and three lanes: the second row has no valid key in the first chunk,
and in the end a lane that stays empty. -/
theorem streaming_topk_full_five :
    (∀ _call _row : ℕ, TorchTopk lowestFirst) ∧
    ∃ out, mqaLogitsTopk (fun _ _ => lowestFirst) fiveKeys false 3 none 1 2 = some out ∧
      out 0 = [4, 2, 0] ∧ out 1 = [4, 3, -1] ∧
      ∀ row < fiveKeys.seqLen,
        FullTopk (valid fiveKeys row) (mqaLogit fiveKeys row) 5 3 (out row) := by
  have htopk : ∀ _call _row : ℕ, TorchTopk lowestFirst := fun _ _ row k _ =>
    strictTopk_isTopk List.nodup_range
  obtain ⟨hprefill, -⟩ := streaming_topk_full (fun _ _ => lowestFirst) htopk 3
  obtain ⟨out, hout, hfull⟩ := (hprefill fiveKeys none (Or.inl rfl)).1 1 2 (by decide) (by decide)
  have hrows : (mqaLogitsTopk (fun _ _ => lowestFirst) fiveKeys false 3 none 1 2).map
      (fun out => (out 0, out 1)) = some ([4, 2, 0], [4, 3, -1]) := by decide
  rw [hout] at hrows
  obtain ⟨h0, h1⟩ := Prod.mk.inj (Option.some.inj hrows)
  exact ⟨htopk, out, hout, h0, h1, hfull⟩

end Glm52.StreamingTopk
