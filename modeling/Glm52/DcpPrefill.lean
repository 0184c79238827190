import Glm52.DcpDecode
import Glm52.IndexerPrefill
import Glm52.PrefillLanes

/-! # Sharded prefill against unsharded prefill

A prefill token under DCP, from the sharded indexer keys to the merged output.  Every rank
gathers all keys and selects from them by its own top-k kernel; it keeps the positions it
owns, attends over them, and the ranks' outputs are merged.

On the mixed batch this is attention over one top-k of the token's context, provided that
the ranks select alike: they run one kernel, or no tie crosses the cut
(`dcp_prefill_eq_unsharded`).

On the separate path a rank reads only as many lanes of its row as it owns.  The owned
lanes of a selection that several ranks share are not in front, so the merge loses keys:
it is attention over the selection only when a single rank owns all of it, in the first
lanes (`dcp_prefill_separate_iff`). -/
namespace Glm52
open ExactFloat Softmax OnlineSoftmax TensorShape Ragged Topk IndexerPrefill Executions

/-! ### The mixed batch -/

section Mixed
variable {N S K : ℕ} {sel : List ℕ}

/-- Ranks that select the same positions merge to attention over them. -/
theorem mixed_ranks_merge (hN : 0 < N) (hsel : sel.Nodup) (hlt : ∀ p ∈ sel, p < S)
    (hne : sel ≠ []) (impl : FlashMLASparseImpl) {q : Tensor3 Scalar} (hd : q.d2 = dqk)
    {t h : ℕ} (ht : t < q.d0) (hh : h < q.d1) {x : ℕ → ℝ} (hx : HoldsLanes dqk (q.get t h) x)
    (kv : ℕ → ℕ → ℝ) {cache : ℕ → Fp8Cache} {slot : ℕ → ℕ → ℤ}
    (hkv : ∀ r < N, HoldsKvShard N S r kv (cache r) (slot r)) {row : ℕ → List ℤ}
    (hrow : ∀ r < N, (row r).Perm (padTo K sel)) {topk : ℕ → ℕ → List ℤ}
    (htopk : ∀ r < N, topk r t = ownedTopk N r (row r)) {ops : ℕ → ExternalOps}
    (hconv : ∀ r < N, (ops r).convertIndices (topk r) t = (topk r t).map (convertLane (slot r))) :
    ∃ (out : ℕ → Tensor3 Scalar) (lse : ℕ → Tensor2 Scalar),
      (∀ r < N, forwardFp8KvMixedBatch impl (ops r) (cache r) q (topk r) =
        some (out r, lse r)) ∧
      (∀ d < dv, mergeOut ((List.range N).map (fun r => ((out r).get t h d, (lse r).get t h))) =
        fin (attend (contextCandidates impl.softmaxScale x kv sel) d)) ∧
      mergeLse ((List.range N).map (fun r => (lse r).get t h)) =
        logSumExp (contextCandidates impl.softmaxScale x kv sel) := by
  choose out lse hrun _ _ hreads using
    fun r => mixed_returns impl (ops r) (cache r) hd (topk r)
  set parts : ℕ → List (Softmax.Candidate (ℕ → ℝ)) := fun r =>
    rowCandidates (cache r).totalSlots impl.softmaxScale x (cacheRows (cache r))
      ((topk r t).map (convertLane (slot r))) with hparts
  have hpart : ∀ r < N, (parts r).Perm
      (truncate dqk (contextCandidates impl.softmaxScale x kv (sel.filter (· % N = r)))) := by
    intro r hr
    simp only [hparts, htopk r hr]
    exact rankCands_perm hr hlt (hkv r hr) (hrow r hr)
  have hread : ∀ r ∈ List.range N, ReadsAt ((out r).get t h) ((lse r).get t h) (parts r) := by
    intro r hr
    have hr' := List.mem_range.mp hr
    have hread := hreads r t ht h hh x hx (cacheRows (cache r))
    rw [hconv r hr', htopk r hr'] at hread
    simp only [hparts, htopk r hr']
    exact hread (rowsDecodeTo_owned hr' hlt (hkv r hr') (hrow r hr'))
  have hwhole : truncate dqk (contextCandidates impl.softmaxScale x kv sel) ≠ [] := by
    simpa [truncate, contextCandidates] using hne
  obtain ⟨hout, hlse⟩ :=
    merge_of_reads hread (ranks_split impl.softmaxScale x kv hN hsel hpart) hwhole
  refine ⟨out, lse, fun r _ => hrun r, fun d hd => ?_, ?_⟩
  · rw [hout d hd, attend_truncate (lt_trans hd (by decide))]
  · rw [hlse, logSumExp_truncate]

theorem padTo_perm {sel' : List ℕ} (h : sel.Perm sel') : (padTo K sel).Perm (padTo K sel') := by
  rw [padTo, padTo, h.length_eq]
  exact (h.map _).append_right _

end Mixed

section Select
variable {α : Type} [CommRing α] [LinearOrder α] {N K S row req : ℕ}
  {requests : List (List ((ℕ → α) × α))} {t : StreamingTopk.MqaInputs α}
  {topKPerRowPrefill : ℕ → List (WithBot α) → ℕ → ℕ → ℕ → List ℤ}

/-- **The ranks select alike** when they run one kernel, or when no tie crosses the cut. -/
theorem ranks_select_alike (hK : 0 < K)
    (htopk : ∀ r < N, PrefillTopk (topKPerRowPrefill r)) (hN : 0 < N)
    (hsees : SeesRequest t row requests req S) (cleanLogits : Bool)
    (htie : (∀ r < N, topKPerRowPrefill r = topKPerRowPrefill 0) ∨
      ¬ CutTied (tokenScore t row (requests.getD req [])) (List.range S) K) :
    ∃ sel, IsTopk (tokenScore t row (requests.getD req [])) (List.range S) K sel ∧
      ∀ r < N, (topKPerRowPrefill r (rowLogits cleanLogits (withKeys t (keyRows requests)) row)
        (t.cuSeqlenKs row).toNat (t.cuSeqlenKe row).toNat K).Perm (padTo K sel) := by
  rcases htie with hone | huntied
  · obtain ⟨sel, hperm, htop⟩ := prefillTopk_selects (htopk 0 hN) hsees cleanLogits K
    refine ⟨sel, htop, fun r hr => ?_⟩
    rw [hone r hr]
    exact hperm
  · refine ⟨_, strictTopk_isTopk List.nodup_range, fun r hr => ?_⟩
    obtain ⟨sel, hperm, htop⟩ := prefillTopk_selects (htopk r hr) hsees cleanLogits K
    refine hperm.trans (padTo_perm ?_)
    refine (List.perm_ext_iff_of_nodup htop.nodup
      (strictTopk_nodup _ List.nodup_range K)).mpr fun p => ?_
    exact htop.mem_iff List.nodup_range hK huntied p

end Select

/-- **DCP prefill on the mixed batch is unsharded prefill.** For every number of ranks,
every sequence of chunks, every token and head: where the ranks' gathers have gone
through, and the ranks run one top-k kernel or no tie crosses the cut, every rank's path
returns, and the results merge to softmax attention, and its log-sum-exp, over a top-k of
the keys that the token sees, scored in its request alone. -/
theorem dcp_prefill_eq_unsharded {α : Type} [CommRing α] [LinearOrder α] {N K : ℕ} (hN : 0 < N)
    (hK : 0 < K) {cpGather : KCache (ℕ → α) α → List ℕ → ℕ → KRows (ℕ → α) α}
    (hgather : GathersRows cpGather) {totalSeqLens : ℕ}
    {requests : IndexerChunk (ℕ → α) α → List (List ((ℕ → α) × α))}
    {before : List (IndexerChunk (ℕ → α) α)} {c : IndexerChunk (ℕ → α) α}
    (hshard : ∀ c' ∈ before ++ [c], Sharded N c' (requests c'))
    (hroom : ∀ c' ∈ before ++ [c], c'.lens.seqLensCpu.sum ≤ totalSeqLens)
    (hskips : SkipsFollow requests (before ++ [c])) {held₀ held : ℕ → KRows (ℕ → α) α}
    (hexec : ∀ r < N, exec (gatherStep cpGather N r totalSeqLens) (held₀ r) (before ++ [c]) =
      some (held r))
    {inputs : StreamingTopk.MqaInputs α} {row req S : ℕ}
    (hsees : SeesRequest inputs row (requests c) req S) (hS : 0 < S)
    {topKPerRowPrefill : ℕ → List (WithBot α) → ℕ → ℕ → ℕ → List ℤ}
    (htopk : ∀ r < N, PrefillTopk (topKPerRowPrefill r))
    (htie : (∀ r < N, topKPerRowPrefill r = topKPerRowPrefill 0) ∨
      ¬ CutTied (tokenScore inputs row ((requests c).getD req [])) (List.range S) K)
    (configured : ℕ → Option String)
    (order : ℕ → List ((ℕ × ℕ) × WithBot α) → List ((ℕ × ℕ) × WithBot α))
    (horder : ∀ r stores, (order r stores).Perm stores) (cleanLogits : Bool)
    (impl : FlashMLASparseImpl) {q : Tensor3 Scalar} (hd : q.d2 = dqk)
    {t h : ℕ} (ht : t < q.d0) (hh : h < q.d1) {x : ℕ → ℝ} (hx : HoldsLanes dqk (q.get t h) x)
    (kv : ℕ → ℕ → ℝ) {cache : ℕ → Fp8Cache} {slot : ℕ → ℕ → ℤ}
    (hkv : ∀ r < N, HoldsKvShard N S r kv (cache r) (slot r)) (topk : ℕ → ℕ → List ℤ)
    (hindices : ∀ r < N, (chunkTopkIndices (topKPerRowPrefill r) (configured r) (order r)
      cleanLogits N r K inputs (held r)).map (· row) = some (topk r t))
    (ops : ℕ → ExternalOps)
    (hconv : ∀ r < N, (ops r).convertIndices (topk r) t = (topk r t).map (convertLane (slot r))) :
    ∃ sel, IsTopk (tokenScore inputs row ((requests c).getD req [])) (List.range S) K sel ∧
      ∃ (out : ℕ → Tensor3 Scalar) (lse : ℕ → Tensor2 Scalar),
        (∀ r < N, forwardFp8KvMixedBatch impl (ops r) (cache r) q (topk r) =
          some (out r, lse r)) ∧
        (∀ d < dv,
          mergeOut ((List.range N).map (fun r => ((out r).get t h d, (lse r).get t h))) =
            fin (attend (contextCandidates impl.softmaxScale x kv sel) d)) ∧
        mergeLse ((List.range N).map (fun r => (lse r).get t h)) =
          logSumExp (contextCandidates impl.softmaxScale x kv sel) := by
  obtain ⟨sel, htop, hrow⟩ := ranks_select_alike hK htopk hN hsees cleanLogits htie
  have hheld : ∀ r < N, held r = keyRows (requests c) := fun r hr =>
    held_of_exec hgather hN hshard hroom hskips hr before c (held r) (List.prefix_refl _)
      (hexec r hr)
  have howned : ∀ r < N, topk r t = ownedTopk N r (topKPerRowPrefill r
      (rowLogits cleanLogits (withKeys inputs (keyRows (requests c))) row)
      (inputs.cuSeqlenKs row).toNat (inputs.cuSeqlenKe row).toNat K) := by
    intro r hr
    obtain ⟨rows, hrows, hvalue⟩ := chunkTopkIndices_eq (t := inputs) (topKPerRowPrefill r)
      (configured r) (order r) (horder r) cleanLogits N r K (held r)
    have hindex := hindices r hr
    rw [hrows, Option.map_some, Option.some.injEq] at hindex
    rw [← hindex, hvalue row hsees.row_lt, hheld r hr]
  -- a token sees a key, so the selection has one
  have hne : sel ≠ [] := by
    rw [← List.length_pos_iff, htop.length, List.length_range]
    exact lt_min hK hS
  exact ⟨sel, htop, mixed_ranks_merge hN htop.nodup
    (fun p hp => List.mem_range.mp (htop.subset hp)) hne impl hd ht hh hx kv hkv hrow howned hconv⟩

/-- The top-k kernel that breaks ties by position. -/
def strictPrefillTopk (row : List (WithBot ℤ)) (ks ke k : ℕ) : List ℤ :=
  padTo k (strictTopk (fun p => row.getD (ks + p) ⊥) (List.range (ke - ks)) k)

theorem strictPrefillTopk_selects : PrefillTopk strictPrefillTopk :=
  fun _ _ _ _ _ _ _ => ⟨_, List.Perm.refl _, strictTopk_isTopk List.nodup_range⟩

/-- The second key scores more. -/
def twoKeys : List ((ℕ → ℤ) × ℤ) := [(fun _ => 3, 1), (fun _ => 5, 1)]

/-- A chunk of one request of two keys, one on each of two ranks. -/
def twoKeyChunk : IndexerChunk (ℕ → ℤ) ℤ where
  lens := ⟨[2], [2], false⟩
  cache := fun r => ⟨fun _ _ _ => if r = 0 then 3 else 5, fun _ _ => 1⟩

theorem twoKeyChunk_sharded : Sharded 2 twoKeyChunk [twoKeys] where
  seqLens := rfl
  seqLensCpu := rfl
  holds := by
    intro r hr q l hl
    have hpos := (lt_own_iff hr l _).mp hl
    rcases q with _ | q
    · obtain rfl : l = 0 := by simp [twoKeys] at hpos; omega
      interval_cases r
      · rfl
      · rfl
    · simp at hpos

/-- A token that sees both keys. -/
def twoKeyInputs : StreamingTopk.MqaInputs ℤ where
  seqLen := 1
  numHeads := 1
  headDim := 1
  seqLenKv := 0
  q := fun _ _ _ => 1
  kValues := fun _ _ => 0
  kScales := fun _ => 0
  weights := fun _ _ => 1
  cuSeqlenKs := fun _ => 0
  cuSeqlenKe := fun _ => 2

theorem twoKeyInputs_sees : SeesRequest twoKeyInputs 0 [twoKeys] 0 2 where
  row_lt := Nat.one_pos
  request_lt := Nat.one_pos
  start := rfl
  stop := rfl
  visible := le_refl 2

/-- Lanes of local slots, where local slot `l` is cache slot `l`. -/
theorem map_convertLane_id {N r : ℕ} {row : List ℤ} (hlane : ∀ t ∈ row, t = -1 ∨ 0 ≤ t)
    (hr : r < N) : (ownedTopk N r row).map (convertLane fun l => (l : ℤ)) = ownedTopk N r row := by
  rw [ownedTopk_eq hlane hr]
  refine (List.map_congr_left fun t ht => ?_).trans (List.map_id _)
  obtain ⟨i, -, rfl⟩ := List.mem_map.mp ht
  by_cases hown : i % (N : ℤ) = r ∧ 0 ≤ i
  · have hslot : 0 ≤ i / (N : ℤ) := Int.ediv_nonneg hown.2 (Int.natCast_nonneg N)
    rw [if_pos hown, convertLane, if_pos hslot, Int.toNat_of_nonneg hslot]
    rfl
  · rw [if_neg hown]
    rfl

/-- Two ranks select both keys, and each owns one of them. -/
theorem dcp_prefill_eq_unsharded_twoKeys :
    ∃ (topk : ℕ → ℕ → List ℤ) (sel : List ℕ), sel.Perm [0, 1] ∧
      ∃ (out : ℕ → Tensor3 Scalar) (lse : ℕ → Tensor2 Scalar),
        (∀ r < 2, forwardFp8KvMixedBatch (implWithHeads 64) identityOps unitCache
          ⟨1, 64, dqk, fun _ _ _ => fin 1⟩ (topk r) = some (out r, lse r)) ∧
        (∀ d < dv,
          mergeOut ((List.range 2).map (fun r => ((out r).get 0 63 d, (lse r).get 0 63))) =
            fin (attend (contextCandidates 1 (fun _ => 1)
              (fun _ d => if d < 512 then 1 else 0) sel) d)) ∧
        mergeLse ((List.range 2).map (fun r => (lse r).get 0 63)) =
          logSumExp (contextCandidates 1 (fun _ => 1)
            (fun _ d => if d < 512 then 1 else 0) sel) := by
  have hshard : ∀ c ∈ [] ++ [twoKeyChunk], Sharded 2 c [twoKeys] := by
    intro c hc
    rw [List.mem_singleton.mp hc]
    exact twoKeyChunk_sharded
  have hroom : ∀ c ∈ [] ++ [twoKeyChunk], c.lens.seqLensCpu.sum ≤ 2 := by
    intro c hc
    rw [List.mem_singleton.mp hc]
    exact le_rfl
  have hskips : SkipsFollow (fun _ => [twoKeys]) ([] ++ [twoKeyChunk]) := by
    intro before c hfront hskip
    rw [List.mem_singleton.mp (hfront.subset (List.mem_append_right _ (List.mem_singleton_self c)))]
      at hskip
    cases hskip
  have hfits : ∀ c ∈ [] ++ [twoKeyChunk], c.lens.skipKvGather = false → StagesFit 2 2 c := by
    intro c hc _
    rw [List.mem_singleton.mp hc]
    unfold StagesFit
    decide
  -- the ranks' runs over the chunk, and their rows of indices
  have hruns : ∀ r, ∃ held, r < 2 →
      exec (gatherStep gatherRows 2 r 2) ⟨[], []⟩ ([] ++ [twoKeyChunk]) = some held := by
    intro r
    by_cases hr : r < 2
    · obtain ⟨held, hheld⟩ := (exec_returns_iff gatherRows_gathers Nat.two_pos hshard hroom hr
        ⟨[], []⟩).mpr hfits
      exact ⟨held, fun _ => hheld⟩
    · exact ⟨⟨[], []⟩, fun hlt => absurd hlt hr⟩
  choose held hheld using hruns
  choose rows hrows hvalue using fun r => chunkTopkIndices_eq (t := twoKeyInputs) strictPrefillTopk
    (some "off") id (fun stores => List.Perm.refl stores) false 2 r 2 (held r)
  have hconv : ∀ r < 2, rows r 0 = (rows r 0).map (convertLane fun l => (l : ℤ)) := by
    intro r hr
    rw [hvalue r 0 Nat.one_pos]
    exact (map_convertLane_id (lane_of_perm_padTo (List.Perm.refl _)) hr).symm
  have hkv : ∀ r < 2, HoldsKvShard 2 2 r (fun _ d => if d < 512 then 1 else 0) unitCache
      (fun l => (l : ℤ)) := by
    intro r hr l hl
    have hpos := (lt_own_iff hr l 2).mp hl
    obtain rfl : l = 0 := by omega
    exact ⟨by decide, unitCache_decodesTo 0 (by decide)⟩
  obtain ⟨sel, htop, hmerged⟩ := dcp_prefill_eq_unsharded Nat.two_pos Nat.two_pos
    gatherRows_gathers hshard hroom hskips hheld twoKeyInputs_sees Nat.two_pos
    (fun _ _ => strictPrefillTopk_selects) (Or.inl fun _ _ => rfl) (fun _ => some "off")
    (fun _ => id) (fun _ stores => List.Perm.refl stores) false (implWithHeads 64)
    (q := ⟨1, 64, dqk, fun _ _ _ => fin 1⟩) rfl (show 0 < 1 by decide) (show 63 < 64 by decide)
    (x := fun _ => 1) (fun _ _ => rfl) (fun _ d => if d < 512 then 1 else 0) hkv
    (fun r _ => rows r 0) (fun r _ => by rw [hrows r]; rfl) (fun _ => identityOps)
    hconv
  have hboth : sel.Perm [0, 1] :=
    (List.subperm_of_subset htop.nodup htop.subset).perm_of_length_le htop.length.ge
  exact ⟨fun r _ => rows r 0, sel, hboth, hmerged⟩

/-! ### The separate path -/

/-- The positions of a row have one owner. -/
def OneOwner (N : ℕ) (row : List ℤ) : Prop :=
  ∀ i ∈ row, ∀ j ∈ row, 0 ≤ i → 0 ≤ j → i % (N : ℤ) = j % (N : ℤ)

section Owners
variable {N : ℕ} {row : List ℤ}

/-- A lane of the owned mask holds a slot when the rank owns the lane's position. -/
theorem ownedLane_nonneg (r : ℕ) (t : ℤ) :
    0 ≤ (if t % (N : ℤ) = r ∧ 0 ≤ t then t / (N : ℤ) else -1) ↔ t % (N : ℤ) = r ∧ 0 ≤ t := by
  by_cases hown : t % (N : ℤ) = r ∧ 0 ≤ t
  · rw [if_pos hown]
    exact ⟨fun _ => hown, fun h => Int.ediv_nonneg h.2 (Int.natCast_nonneg N)⟩
  · rw [if_neg hown]
    exact ⟨fun h => absurd h (by decide), fun h => absurd h hown⟩

/-- **Every rank's lanes come first exactly when one rank owns them all**, in the first
lanes. -/
theorem owned_validPrefix_iff (hN : 0 < N) :
    (∀ r < N, ValidPrefix (ownedMask N r row)) ↔ ValidPrefix row ∧ OneOwner N row := by
  have hmask : ∀ r, ValidPrefix (ownedMask N r row) ↔
      row.Pairwise (fun a b => b % (N : ℤ) = r ∧ 0 ≤ b → a % (N : ℤ) = r ∧ 0 ≤ a) := by
    intro r
    rw [ValidPrefix, ownedMask, List.pairwise_map]
    simp only [ownedLane_nonneg]
  have howner : ∀ b : ℤ, 0 ≤ b → ∃ r < N, b % (N : ℤ) = r := by
    intro b _
    have hpos : (0 : ℤ) < N := by exact_mod_cast hN
    have hlt := Int.emod_lt_of_pos b hpos
    have hge := Int.emod_nonneg b hpos.ne'
    exact ⟨(b % N).toNat, by omega, by omega⟩
  simp only [hmask]
  simp only [ValidPrefix, List.pairwise_iff_getElem]
  constructor
  · intro h
    -- the rank that owns a lane owns the lanes before it
    have hbefore : ∀ (i j : ℕ) (hi : i < row.length) (hj : j < row.length), i < j → 0 ≤ row[j] →
        row[i] % (N : ℤ) = row[j] % (N : ℤ) ∧ 0 ≤ row[i] := by
      intro i j hi hj hij hnonneg
      obtain ⟨r, hr, hmod⟩ := howner row[j] hnonneg
      obtain ⟨hmod', hnonneg'⟩ := h r hr i j hi hj hij ⟨hmod, hnonneg⟩
      exact ⟨hmod'.trans hmod.symm, hnonneg'⟩
    refine ⟨fun i j hi hj hij hnonneg => (hbefore i j hi hj hij hnonneg).2, ?_⟩
    intro a ha b hb hanonneg hbnonneg
    obtain ⟨i, hi, rfl⟩ := List.mem_iff_getElem.mp ha
    obtain ⟨j, hj, rfl⟩ := List.mem_iff_getElem.mp hb
    rcases Nat.lt_trichotomy i j with hij | rfl | hij
    · exact (hbefore i j hi hj hij hbnonneg).1
    · rfl
    · exact (hbefore j i hj hi hij hanonneg).1.symm
  · rintro ⟨hahead, hone⟩ r - i j hi hj hij ⟨hmod, hnonneg⟩
    have hnonneg' := hahead i j hi hj hij hnonneg
    have hsame := hone _ (List.getElem_mem hi) _ (List.getElem_mem hj) hnonneg' hnonneg
    exact ⟨hsame.trans hmod, hnonneg'⟩

/-- The owned lanes as positions: those of the row that the rank owns. -/
theorem namedCandidates_ownedMask (impl : FlashMLASparseImpl) {ws : ℕ → ℕ → ℝ} {f : ℤ → ℤ}
    (x : ℕ → ℝ) {kv : ℕ → ℕ → ℝ} {r : ℕ}
    (hheld : ∀ i ∈ row, 0 ≤ i → i % (N : ℤ) = r → ws (f (i / (N : ℤ))).toNat = kv i.toNat) :
    namedCandidates impl ws f x (ownedMask N r row) =
      contextCandidates impl.softmaxScale x kv ((selected row).filter (· % N = r)) := by
  have hfilter : (ownedMask N r row).filter (0 ≤ ·) =
      (row.filter fun t : ℤ => t % (N : ℤ) = r ∧ 0 ≤ t).map (· / (N : ℤ)) := by
    rw [ownedMask, List.filter_map]
    have hlanes : row.filter ((fun i : ℤ => decide (0 ≤ i)) ∘
        fun t : ℤ => if t % (N : ℤ) = r ∧ 0 ≤ t then t / (N : ℤ) else -1) =
          row.filter fun t : ℤ => t % (N : ℤ) = r ∧ 0 ≤ t :=
      List.filter_congr fun t _ => decide_eq_decide.mpr (ownedLane_nonneg r t)
    rw [hlanes]
    refine List.map_congr_left fun t ht => if_pos ?_
    simpa using (List.mem_filter.mp ht).2
  have hpositions : (selected row).filter (· % N = r) =
      (row.filter fun t : ℤ => t % (N : ℤ) = r ∧ 0 ≤ t).map Int.toNat := by
    rw [selected, List.filter_map, List.filter_filter]
    refine congrArg (List.map Int.toNat) (List.filter_congr fun t _ => ?_)
    rw [Function.comp_apply, ← Bool.decide_and, decide_eq_decide]
    refine and_congr_left fun hnonneg => ?_
    obtain ⟨p, rfl⟩ := Int.eq_ofNat_of_zero_le hnonneg
    rw [Int.toNat_natCast]
    exact_mod_cast Iff.rfl
  rw [namedCandidates, hfilter, contextCandidates, hpositions, List.map_map, List.map_map]
  refine List.map_congr_left fun t ht => ?_
  obtain ⟨hmem, hown⟩ := List.mem_filter.mp ht
  obtain ⟨hmod, hnonneg⟩ := of_decide_eq_true hown
  rw [Function.comp_apply, Function.comp_apply, namedKey, hheld t hmem hnonneg hmod]

end Owners

/-- What a rank brings to a prefill token: a batch with the token in `chunk`, workspaces of
numbers, and a conversion that keeps the places of the lanes. -/
structure PrefillRank (impl : FlashMLASparseImpl) (ops : ExternalOps) (batch : Batch)
    (q : Tensor3 Scalar) (topkIndices : ℕ → List ℤ) (ws : PrefillChunk → ℕ → ℕ → ℝ)
    (f : ℕ → ℤ → ℤ) (chunk : PrefillChunk) (t : ℕ) : Prop where
  lawful : ops.Lawful
  workspace : ∀ chunk ∈ batch.chunks, ∀ i < chunkRows impl chunk,
    HoldsLanes dqk (ops.gatherAndUpconvert chunk i) (ws chunk i)
  tokens : q.d0 = batch.numActualTokens
  converts : ConvertsLanes ops impl batch f topkIndices
  mem_chunks : chunk ∈ batch.chunks
  start_le : chunk.tokenStart ≤ t
  lt_stop : t < chunk.tokenEnd

section Separate
variable {impl : FlashMLASparseImpl} {ops : ExternalOps} {cache : Fp8Cache} {batch : Batch}
  {q : Tensor3 Scalar} {topkIndices : ℕ → List ℤ} {ws : PrefillChunk → ℕ → ℕ → ℝ}
  {f : ℕ → ℤ → ℤ} {chunk : PrefillChunk} {t : ℕ}

/-- The batch of a prefill token has a prefill, and holds the token. -/
theorem PrefillRank.prefills (hrank : PrefillRank impl ops batch q topkIndices ws f chunk t) :
    0 < batch.numPrefills ∧ t < batch.numActualTokens := by
  obtain ⟨hfirst, -, hlast⟩ := batch.chunks_consecutive.mem_bounds
    (List.mem_map_of_mem (f := fun chunk => (chunk.tokenStart, chunk.tokenEnd)) hrank.mem_chunks)
  replace hfirst : batch.numDecodeTokens ≤ chunk.tokenStart := hfirst
  replace hlast : chunk.tokenEnd ≤ batch.numActualTokens := hlast
  have hstart := hrank.start_le
  have hstop := hrank.lt_stop
  refine ⟨?_, by omega⟩
  rw [← batch.numPrefillTokens_pos_iff, Batch.numPrefillTokens]
  omega

/-- A rank's path returns when the heads fit. -/
theorem PrefillRank.returns (hrank : PrefillRank impl ops batch q topkIndices ws f chunk t)
    (cache : Fp8Cache) (hd : q.d2 = dqk) (hfit : HeadsFit impl batch false q.d1) :
    ∃ out lse, forwardMqa impl ops cache (batch.build false) q topkIndices = some (out, lse) := by
  obtain ⟨hpre, ht⟩ := hrank.prefills
  have htokens := batch.numPrefillTokens_pos_iff.mpr hpre
  rw [HeadsFit, if_neg Bool.false_ne_true, if_neg (Nat.ne_zero_of_lt ht),
    if_neg htokens.ne'] at hfit
  obtain ⟨h1, hheads, hpad⟩ := hfit
  obtain ⟨⟨out, lse⟩, hrun⟩ := forwardSeparate_returns batch topkIndices impl cache hrank.lawful
    hrank.tokens hd hpre h1 hheads hpad
  exact ⟨out, lse, hrun⟩

/-- **A rank reads as many first lanes of a row as the row has keys.** -/
theorem PrefillRank.reads (hrank : PrefillRank impl ops batch q topkIndices ws f chunk t)
    (hd : q.d2 = dqk) {outs : Tensor3 Scalar × Tensor2 Scalar}
    (hrun : forwardMqa impl ops cache (batch.build false) q topkIndices = some outs) {h : ℕ}
    (hh : h < min q.d1 impl.numHeads) {x : ℕ → ℝ} (hx : HoldsLanes dqk (q.get t h) x) :
    ReadsAt (outs.1.get t h) (outs.2.get t h)
      (namedCandidates impl (ws chunk) (f t) x
        ((topkIndices t).take ((topkIndices t).countP (0 ≤ ·)))) := by
  obtain ⟨-, -, -, -, hchunks⟩ := forwardSeparate_spec batch topkIndices hrank.lawful hrank.tokens
    hd hrank.prefills.1 hrun
  have hread := hchunks chunk hrank.mem_chunks (ws chunk) (hrank.workspace chunk hrank.mem_chunks)
    t hrank.start_le hrank.lt_stop h hh x hx
  rw [hrank.converts.lanes, hrank.converts.counts, chunkCandidates_converted
    (hrank.converts.inRange chunk hrank.mem_chunks t hrank.start_le hrank.lt_stop)] at hread
  exact hread

end Separate

/-- Parts that lose some candidates merge to the whole exactly when they lose none. -/
theorem merge_iff_nothing_lost {ranks : List ℕ} {out : ℕ → ℕ → Scalar} {lse : ℕ → Scalar}
    {parts lost : ℕ → List (Softmax.Candidate (ℕ → ℝ))}
    {whole : List (Softmax.Candidate (ℕ → ℝ))}
    (hread : ∀ r ∈ ranks, ReadsAt (out r) (lse r) (parts r))
    (hsplit : (ranks.flatMap fun r => parts r ++ lost r).Perm whole) (hwhole : whole ≠ []) :
    ((∀ d < dv, mergeOut (ranks.map (fun r => (out r d, lse r))) = fin (attend whole d)) ∧
      mergeLse (ranks.map lse) = logSumExp whole) ↔ ∀ r ∈ ranks, lost r = [] := by
  have hblocks : (ranks.flatMap parts ++ ranks.flatMap lost).Perm whole :=
    (List.flatMap_append_perm ranks parts lost).trans hsplit
  have hkept : mergeLse (ranks.map lse) = logSumExp (ranks.flatMap parts) := by
    have hflat : (ranks.map parts).flatten.Perm (ranks.flatMap parts) := List.Perm.refl _
    rw [← mergeLse_eq hflat, List.map_map]
    exact congrArg mergeLse (List.map_congr_left fun r hr => (hread r hr).2)
  have hwholeLse : logSumExp whole = logSumExp (ranks.flatMap parts ++ ranks.flatMap lost) :=
    congrArg (fun w => log (fin w)) (weight_perm hblocks).symm
  constructor
  · rintro ⟨-, hlse⟩
    rw [hkept, hwholeLse] at hlse
    exact List.flatMap_eq_nil_iff.mp (logSumExp_append_eq_left.mp hlse.symm)
  · intro hnone
    rw [List.flatMap_eq_nil_iff.mpr hnone, List.append_nil] at hblocks
    exact merge_of_reads hread hblocks hwhole

/-- **DCP prefill on the separate path loses keys unless one rank owns the selection.** For
every number of ranks, every token and head, and every selection that the ranks share:
each rank's path returns when its heads fit; and when they all return, the results merge to
softmax attention over the selection, and its log-sum-exp, if and only if a single rank
owns all its positions and they stand in the first lanes of the row. -/
theorem dcp_prefill_separate_iff {N K : ℕ} (hN : 0 < N) (impl : FlashMLASparseImpl)
    {q : Tensor3 Scalar} (hd : q.d2 = dqk) {t h : ℕ} (hh : h < min q.d1 impl.numHeads)
    {x : ℕ → ℝ} (hx : HoldsLanes dqk (q.get t h) x) {ops : ℕ → ExternalOps}
    (cache : ℕ → Fp8Cache) {batch : ℕ → Batch} {topk : ℕ → ℕ → List ℤ}
    {ws : ℕ → PrefillChunk → ℕ → ℕ → ℝ} {f : ℕ → ℕ → ℤ → ℤ} {chunk : ℕ → PrefillChunk}
    (hrank : ∀ r < N, PrefillRank impl (ops r) (batch r) q (topk r) (ws r) (f r) (chunk r) t)
    (sel : List ℕ) (hsel : sel.Nodup) (hne : sel ≠ []) (row : List ℤ)
    (hrow : row.Perm (padTo K sel)) (htopk : ∀ r < N, topk r t = ownedTopk N r row)
    (kv : ℕ → ℕ → ℝ) (hheld : ∀ r < N, ∀ i ∈ row, 0 ≤ i → i % (N : ℤ) = r →
      ws r (chunk r) (f r t (i / (N : ℤ))).toNat = kv i.toNat) :
    (∀ r < N, HeadsFit impl (batch r) false q.d1 →
      ∃ out lse, forwardMqa impl (ops r) (cache r) ((batch r).build false) q (topk r) =
        some (out, lse)) ∧
    ∀ (out : ℕ → Tensor3 Scalar) (lse : ℕ → Tensor2 Scalar),
      (∀ r < N, forwardMqa impl (ops r) (cache r) ((batch r).build false) q (topk r) =
        some (out r, lse r)) →
      let whole := contextCandidates impl.softmaxScale x kv sel
      ((∀ d < dv,
          mergeOut ((List.range N).map (fun r => ((out r).get t h d, (lse r).get t h))) =
            fin (attend whole d)) ∧
        mergeLse ((List.range N).map (fun r => (lse r).get t h)) = logSumExp whole ↔
          ValidPrefix row ∧ OneOwner N row) := by
  refine ⟨fun r hr hfit => (hrank r hr).returns (cache r) hd hfit, fun out lse hruns => ?_⟩
  intro whole
  have hlane := lane_of_perm_padTo hrow
  have howned : ∀ r < N, topk r t = ownedMask N r row := fun r hr =>
    (htopk r hr).trans (ownedTopk_eq hlane hr)
  -- a rank's lanes split into those it reads and those behind them
  let count := fun r => (ownedMask N r row).countP (0 ≤ ·)
  let keys := fun r => namedCandidates impl (ws r (chunk r)) (f r t) x
  have hread : ∀ r ∈ List.range N, ReadsAt ((out r).get t h) ((lse r).get t h)
      (keys r ((ownedMask N r row).take (count r))) := by
    intro r hr
    have hr' := List.mem_range.mp hr
    have hread := (hrank r hr').reads hd (hruns r hr') hh hx
    rw [howned r hr'] at hread
    exact hread
  have hpositions : (selected row).Perm sel := by
    have hperm := selected_perm hrow
    rwa [selected_padTo] at hperm
  have hsplit : ((List.range N).flatMap fun r => keys r ((ownedMask N r row).take (count r)) ++
      keys r ((ownedMask N r row).drop (count r))).Perm whole := by
    have hblock : ∀ r ∈ List.range N, keys r ((ownedMask N r row).take (count r)) ++
        keys r ((ownedMask N r row).drop (count r)) =
          contextCandidates impl.softmaxScale x kv ((selected row).filter (· % N = r)) := by
      intro r hr
      simp only [keys]
      rw [namedCandidates, namedCandidates, ← List.map_append, ← List.filter_append,
        List.take_append_drop]
      exact namedCandidates_ownedMask impl x (hheld r (List.mem_range.mp hr))
    rw [List.flatMap_congr hblock]
    have howners := owned_blocks_perm hN (hpositions.nodup_iff.mpr hsel)
    have hmap : (List.range N).flatMap (fun r => contextCandidates impl.softmaxScale x kv
        ((selected row).filter (· % N = r))) = contextCandidates impl.softmaxScale x kv
          ((List.range N).flatMap fun r => (selected row).filter (· % N = r)) := by
      simp only [contextCandidates, List.map_flatMap]
    rw [hmap]
    exact (howners.trans hpositions).map _
  have hwhole : whole ≠ [] := by simpa [whole, contextCandidates] using hne
  rw [merge_iff_nothing_lost hread hsplit hwhole, ← owned_validPrefix_iff hN]
  refine forall_congr' fun r => ?_
  rw [List.mem_range]
  refine forall_congr' fun _ => ?_
  rw [namedCandidates_eq_nil]
  exact drop_count_valid_iff _

/-- The row of both ranks in the small batch: each reads one lane, and the second rank's
own lane is the second one. -/
theorem dcp_prefill_separate_loses_second :
    ∃ (out : ℕ → Tensor3 Scalar) (lse : ℕ → Tensor2 Scalar),
      (∀ r < 2, forwardMqa (implWithHeads 64) identityOps unitCache (smallBatch.build false)
        ⟨3, 64, dqk, fun _ _ _ => fin 1⟩ (fun _ => ownedTopk 2 r [0, 1]) =
          some (out r, lse r)) ∧
      let whole := contextCandidates 1 (fun _ => 1) (fun _ _ => 1) [0, 1]
      ¬ ((∀ d < dv, mergeOut ((List.range 2).map
            (fun r => ((out r).get 1 0 d, (lse r).get 1 0))) = fin (attend whole d)) ∧
        mergeLse ((List.range 2).map (fun r => (lse r).get 1 0)) = logSumExp whole) := by
  have hlanes : ∀ r < 2, ∀ i ∈ ownedTopk 2 r [0, 1], i = -1 ∨ i = (0 : ℤ) := by decide
  have hrank : ∀ r < 2, PrefillRank (implWithHeads 64) identityOps smallBatch
      ⟨3, 64, dqk, fun _ _ _ => fin 1⟩ (fun _ => ownedTopk 2 r [0, 1]) (fun _ _ _ => 1)
      (fun _ => id) (smallBatch.chunk (0, 1)) 1 := by
    intro r hr
    exact {
      lawful := identityOps_lawful
      workspace := fun _ _ _ _ _ _ => rfl
      tokens := rfl
      converts := smallBatch_converts (hlanes r hr)
      mem_chunks := List.mem_cons_self
      start_le := by decide
      lt_stop := by decide }
  obtain ⟨hreturns, hmerge⟩ := dcp_prefill_separate_iff Nat.two_pos (implWithHeads 64)
    (q := ⟨3, 64, dqk, fun _ _ _ => fin 1⟩) rfl (show 0 < 64 by decide) (x := fun _ => 1)
    (fun _ _ => rfl) (fun _ => unitCache) hrank (K := 2) [0, 1] (by decide) (by decide)
    [0, 1] (List.Perm.refl _) (fun _ _ => rfl) (fun _ _ => 1)
    (fun _ _ _ _ _ _ => rfl)
  have hrun : ∀ r, ∃ result : Tensor3 Scalar × Tensor2 Scalar, r < 2 →
      forwardMqa (implWithHeads 64) identityOps unitCache (smallBatch.build false)
        ⟨3, 64, dqk, fun _ _ _ => fin 1⟩ (fun _ => ownedTopk 2 r [0, 1]) = some result := by
    intro r
    by_cases hr : r < 2
    · obtain ⟨out, lse, hrun⟩ := hreturns r hr ⟨rfl, Or.inl rfl, fun _ => le_rfl⟩
      exact ⟨(out, lse), fun _ => hrun⟩
    · exact ⟨(⟨0, 0, 0, fun _ _ _ => 0⟩, ⟨0, 0, fun _ _ => 0⟩), fun hlt => absurd hlt hr⟩
  choose result hresult using hrun
  refine ⟨fun r => (result r).1, fun r => (result r).2, fun r hr => hresult r hr, fun hreads => ?_⟩
  have howner := ((hmerge _ _ fun r hr => hresult r hr).mp hreads).2
  exact absurd (howner 0 (by decide) 1 (by decide) le_rfl (by decide)) (by decide)

end Glm52
