import Glm52.Interleave
import Glm52.TopkSelection
import Mathlib.Algebra.Order.Monoid.WithTop

/-! # The PERF2 decode top-k

Under DCP each rank scores its own shard of the context and takes the top-k of
it.  The PERF2 block turns the ranks' local selections into the global one: it
looks up the selected scores, renames local slot `i` of rank `r` to global
position `i * N + r`, all-gathers both, and re-selects from the union by two
stable argsorts, so that every rank holds the same global positions; then each
rank keeps the positions it owns, as local slots (`ownedTopk`).

The model follows one row of the batch.  Scores are the elements of a linear
order whose bottom is the code's `-inf`; a lane that holds no position carries
the index `-1`.

`unionSelect_eq` is what the block computes: the strict top-k of the positions
in the union.  When the ranks' selections are their strict top-k, that is the
strict top-k of the whole context (`perf2_eq_strictTopk`).  The result does not
depend on the order in which the ranks' blocks are gathered, and the owned masks
partition it (`selection_agrees_and_partitions`). -/
namespace Glm52
open StableSort Topk

variable {β : Type} [LinearOrder β] [OrderBot β]

/-! ### The block -/

/-- Step (2), the scores: the logits at the selected slots, `-inf` at a `-1`
lane. -/
def locsc (logits : List β) (locIdx : List ℤ) : List β :=
  locIdx.map (fun i => if 0 ≤ i then logits.getD i.toNat ⊥ else ⊥)

/-- Step (2), the positions: local slot `i` of rank `r` is global `i * N + r`. -/
def gpos (N r : ℕ) (locIdx : List ℤ) : List ℤ :=
  locIdx.map (fun i => if 0 ≤ i then i * N + r else -1)

/-- `all_gather(.., dim=1)`: the ranks' blocks, one after the other. -/
def allGather {α : Type} (ranks : List ℕ) (block : ℕ → List α) : List α := ranks.flatMap block

/-- The first sort key: the position, and `1 << 62` for an invalid lane. -/
def poskey (p : ℤ) : ℤ := if 0 ≤ p then p else 2 ^ 62

/-- Steps (4) and (5): the global top-k of the gathered candidates. -/
def unionSelect (topkTokens : ℕ) (allsc : List β) (allpos : List ℤ) : List ℤ :=
  let M := allsc.length
  let k := if topkTokens < M then topkTokens else M
  let o1 := argsort (· ≤ ·) (allpos.map poskey)
  let sc1 := gather allsc ⊥ o1
  let o2 := argsort (· ≥ ·) sc1
  let order := gather o1 0 o2
  let sel := order.take k
  let vsel := gather allsc ⊥ sel
  let gsel := gather allpos (-1) sel
  let gsel := List.zipWith (fun v g => if v = ⊥ then -1 else g) vsel gsel
  -- `topk_indices.fill_(-1)`, then the first `k` lanes are written
  gsel ++ List.replicate (topkTokens - k) (-1)

/-- The decode `topk_indices` before the owned mask: the PERF2 block, which runs
only for `N > 1`; a single rank keeps the top-k kernel's own output. -/
def decodeTopk (N topkTokens : ℕ) (ranks : List ℕ) (logits : ℕ → List β)
    (locIdx : ℕ → List ℤ) : List ℤ :=
  if 1 < N then
    unionSelect topkTokens (allGather ranks (fun r => locsc (logits r) (locIdx r)))
      (allGather ranks (fun r => gpos N r (locIdx r)))
  else locIdx 0

/-- The owned mask of rank `r`: its own positions as local slots, `-1` elsewhere. -/
def ownedMask (N r : ℕ) (topkIndices : List ℤ) : List ℤ :=
  topkIndices.map (fun t : ℤ => if t % N = r ∧ 0 ≤ t then t / N else -1)

/-- `topk_indices` after the owned mask, which runs only for `N > 1`. -/
def ownedTopk (N r : ℕ) (topkIndices : List ℤ) : List ℤ :=
  if 1 < N then ownedMask N r topkIndices else topkIndices

/-! ### Lanes -/

/-- The lanes of a selection: its positions, then `-1` up to `k` lanes. -/
def padTo (k : ℕ) (sel : List ℕ) : List ℤ :=
  sel.map (fun p : ℕ => (p : ℤ)) ++ List.replicate (k - sel.length) (-1)

/-- The positions a row of lanes holds. -/
def selected (lanes : List ℤ) : List ℕ := (lanes.filter (0 ≤ ·)).map Int.toNat

@[simp] theorem selected_padTo (k : ℕ) (sel : List ℕ) : selected (padTo k sel) = sel := by
  have hpos : (sel.map (fun p : ℕ => (p : ℤ))).filter (0 ≤ ·) = sel.map (fun p : ℕ => (p : ℤ)) :=
    List.filter_eq_self.mpr (by simp)
  have hneg : (List.replicate (k - sel.length) (-1 : ℤ)).filter (0 ≤ ·) = [] :=
    List.filter_eq_nil_iff.mpr (fun a ha => by simp [List.eq_of_mem_replicate ha])
  rw [selected, padTo, List.filter_append, hpos, hneg, List.append_nil, List.map_map]
  simp [Function.comp_def]

theorem selected_perm {lanes lanes' : List ℤ} (h : lanes.Perm lanes') :
    (selected lanes).Perm (selected lanes') := (h.filter _).map _

/-! ### What the two argsorts compute -/

/-- Two stable sorts of the candidates, by position and then by score. -/
def mergeSorted (c : List (β × ℤ)) : List (β × ℤ) :=
  (c.insertionSort (fun a b => poskey a.2 ≤ poskey b.2)).insertionSort (fun a b => a.1 ≥ b.1)

/-- The lane `unionSelect` writes for a candidate. -/
def laneOf (c : β × ℤ) : ℤ := if c.1 = ⊥ then -1 else c.2

theorem unionSelect_eq_mergeSorted (topkTokens : ℕ) (c : List (β × ℤ)) :
    unionSelect topkTokens (c.map Prod.fst) (c.map Prod.snd) =
      ((mergeSorted c).take (min topkTokens c.length)).map laneOf ++
        List.replicate (topkTokens - c.length) (-1) := by
  have hk : (if topkTokens < c.length then topkTokens else c.length) =
      min topkTokens c.length := by
    split <;> omega
  have hcut : topkTokens - min topkTokens c.length = topkTokens - c.length := by omega
  have hkeys : (c.map Prod.snd).map poskey = c.map (fun x => poskey x.2) := by simp
  unfold unionSelect
  simp only [List.length_map, hk, hkeys, hcut, gather_take]
  rw [gather_argsort_argsort (· ≤ ·) (· ≥ ·) c (fun x => poskey x.2) Prod.fst ⊥ Prod.fst ⊥,
    gather_argsort_argsort (· ≤ ·) (· ≥ ·) c (fun x => poskey x.2) Prod.fst ⊥ Prod.snd (-1)]
  rw [← List.map_take, ← List.map_take, List.zipWith_map, List.zipWith_self]
  rfl

/-- A candidate lane: a position with a finite score, or the padding. -/
def CandidateLane (c : β × ℤ) : Prop := c = (⊥, -1) ∨ (c.1 ≠ ⊥ ∧ 0 ≤ c.2)

/-- The order the two sorts establish: by score, ties by position key. -/
def CandidateBefore (a b : β × ℤ) : Prop := a.1 ≥ b.1 ∧ (b.1 ≥ a.1 → poskey a.2 ≤ poskey b.2)

omit [OrderBot β] in
theorem pairwise_mergeSorted (c : List (β × ℤ)) : (mergeSorted c).Pairwise CandidateBefore := by
  have : Std.Total (fun a b : β × ℤ => poskey a.2 ≤ poskey b.2) := ⟨fun a b => le_total _ _⟩
  have : IsTrans (β × ℤ) (fun a b => poskey a.2 ≤ poskey b.2) := ⟨fun _ _ _ => le_trans⟩
  have : Std.Total (fun a b : β × ℤ => a.1 ≥ b.1) := ⟨fun a b => le_total _ _⟩
  have : IsTrans (β × ℤ) (fun a b => a.1 ≥ b.1) := ⟨fun _ _ _ h h' => le_trans h' h⟩
  exact pairwise_lex_insertionSort _ (List.pairwise_insertionSort _ c)

omit [OrderBot β] in
theorem mergeSorted_perm (c : List (β × ℤ)) : (mergeSorted c).Perm c :=
  (List.perm_insertionSort _ _).trans (List.perm_insertionSort _ _)

theorem CandidateBefore.antisymm {a b : β × ℤ} (ha : CandidateLane a) (hb : CandidateLane b)
    (hab : CandidateBefore a b) (hba : CandidateBefore b a) : a = b := by
  have hs : a.1 = b.1 := le_antisymm hba.1 hab.1
  have hkey : poskey a.2 = poskey b.2 :=
    le_antisymm (hab.2 hba.1) (hba.2 hab.1)
  rcases ha with rfl | ⟨ha, hpa⟩ <;> rcases hb with rfl | ⟨hb, hpb⟩
  · rfl
  · exact absurd hs.symm hb
  · exact absurd hs ha
  · refine Prod.ext hs ?_
    simpa [poskey, hpa, hpb] using hkey

/-- **The position key makes the order total**: a list in the candidates' order
is the sorted list, whatever order the candidates came in. -/
theorem eq_mergeSorted {c l : List (β × ℤ)} (hc : ∀ x ∈ c, CandidateLane x) (hp : l.Perm c)
    (hs : l.Pairwise CandidateBefore) : l = mergeSorted c := by
  have hperm := hp.trans (mergeSorted_perm c).symm
  refine List.Perm.eq_of_pairwise (fun a b ha hb hab hba => ?_) hs (pairwise_mergeSorted c) hperm
  exact CandidateBefore.antisymm (hc a (hp.mem_iff.mp ha))
    (hc b ((mergeSorted_perm c).mem_iff.mp hb)) hab hba

/-- The selection does not depend on the order of the candidates. -/
theorem unionSelect_perm (topkTokens : ℕ) {c c' : List (β × ℤ)} (hc : ∀ x ∈ c, CandidateLane x)
    (hp : c'.Perm c) :
    unionSelect topkTokens (c'.map Prod.fst) (c'.map Prod.snd) =
      unionSelect topkTokens (c.map Prod.fst) (c.map Prod.snd) := by
  have hsort : mergeSorted c' = mergeSorted c :=
    eq_mergeSorted hc ((mergeSorted_perm c').trans hp) (pairwise_mergeSorted c')
  rw [unionSelect_eq_mergeSorted, unionSelect_eq_mergeSorted, hsort, hp.length_eq]

section Union
variable (score : ℕ → β)

/-- The candidate lane of a global position. -/
def candidateOf (p : ℕ) : β × ℤ := (score p, p)

omit [OrderBot β] in
theorem candidateBefore_iff {p q : ℕ} :
    CandidateBefore (candidateOf score p) (candidateOf score q) ↔ Before score p q := by
  simp only [CandidateBefore, candidateOf, Before, poskey, Int.natCast_nonneg, if_true]
  rcases lt_trichotomy (score p) (score q) with h | h | h
  · simp [h.not_ge, h.ne, h.le, h.not_gt]
  · simp [h]
  · simp [h, h.le, h.not_ge]

/-- **The union selection**: from the positions `U` and any number of padding
lanes, in any order, the block writes the strict top-k of `U`, padded. -/
theorem unionSelect_eq (topkTokens : ℕ) {U : List ℕ} (hfin : ∀ p ∈ U, score p ≠ ⊥) {n : ℕ}
    {c : List (β × ℤ)} (hc : c.Perm (U.map (candidateOf score) ++ List.replicate n (⊥, -1))) :
    unionSelect topkTokens (c.map Prod.fst) (c.map Prod.snd) =
      padTo topkTokens (strictTopk score U topkTokens) := by
  set l := (ranked score U).map (candidateOf score) ++ List.replicate n ((⊥ : β), (-1 : ℤ))
    with hl
  have hcand : ∀ x ∈ c, CandidateLane x := by
    intro x hx
    rcases List.mem_append.mp (hc.mem_iff.mp hx) with h | h
    · obtain ⟨p, hp, rfl⟩ := List.mem_map.mp h
      exact Or.inr ⟨hfin p hp, Int.natCast_nonneg p⟩
    · exact Or.inl (List.eq_of_mem_replicate h)
  -- the sorted lanes are the ranked positions, then the padding, for there is one such order
  have hperm : l.Perm c :=
    (((ranked_perm score U).map (candidateOf score)).append_right _).trans hc.symm
  have hsorted : l.Pairwise CandidateBefore := by
    refine List.pairwise_append.mpr ⟨?_, ?_, ?_⟩
    · exact List.pairwise_map.mpr ((pairwise_ranked score U).imp
        (fun h => (candidateBefore_iff score).mpr h))
    · exact List.pairwise_replicate.mpr (Or.inr ⟨le_rfl, fun _ => le_rfl⟩)
    · intro a ha b hb
      obtain ⟨p, hp, rfl⟩ := List.mem_map.mp ha
      obtain rfl := List.eq_of_mem_replicate hb
      have hne : score p ≠ ⊥ := hfin p ((mem_ranked score).mp hp)
      exact ⟨bot_le, fun h => absurd (le_bot_iff.mp h) hne⟩
  have hlen : c.length = U.length + n := by
    rw [← hperm.length_eq, hl]
    simp
  rw [unionSelect_eq_mergeSorted, ← eq_mergeSorted hcand hperm hsorted, hl, hlen,
    List.take_append, List.map_append, List.length_map, length_ranked]
  -- the cut takes positions before padding
  have hpos : ((ranked score U).map (candidateOf score)).take (min topkTokens (U.length + n)) =
      (strictTopk score U topkTokens).map (candidateOf score) := by
    rw [strictTopk, List.map_take]
    rcases Nat.le_total topkTokens (U.length + n) with h | h
    · rw [Nat.min_eq_left h]
    · rw [List.take_of_length_le (by simp; omega), List.take_of_length_le (by simp; omega)]
  have hlane : ((strictTopk score U topkTokens).map (candidateOf score)).map laneOf =
      (strictTopk score U topkTokens).map (fun p : ℕ => (p : ℤ)) := by
    rw [List.map_map]
    refine List.map_congr_left (fun p hp => ?_)
    have hne : score p ≠ ⊥ := hfin p (strictTopk_subset score U topkTokens hp)
    simp [laneOf, candidateOf, hne]
  have hpad : laneOf ((⊥ : β), (-1 : ℤ)) = -1 := by simp [laneOf]
  rw [hpos, hlane, List.take_replicate, List.map_replicate, hpad, List.append_assoc,
    List.replicate_append_replicate, padTo, length_strictTopk]
  congr 2
  omega

end Union

/-! ### The ranks' candidates -/

section Ranks
variable (score : ℕ → β) {N : ℕ}

/-- The candidate lanes of rank `r`. -/
def rankCandidates (N r : ℕ) (logits : List β) (locIdx : List ℤ) : List (β × ℤ) :=
  locIdx.map (fun i => if 0 ≤ i then (logits.getD i.toNat ⊥, i * N + r) else (⊥, -1))

theorem map_fst_rankCandidates (r : ℕ) (logits : List β) (locIdx : List ℤ) :
    (rankCandidates N r logits locIdx).map Prod.fst = locsc logits locIdx := by
  simp only [rankCandidates, locsc, List.map_map]
  refine List.map_congr_left (fun i _ => ?_)
  simp only [Function.comp_apply]
  split <;> rfl

theorem map_snd_rankCandidates (r : ℕ) (logits : List β) (locIdx : List ℤ) :
    (rankCandidates N r logits locIdx).map Prod.snd = gpos N r locIdx := by
  simp only [rankCandidates, gpos, List.map_map]
  refine List.map_congr_left (fun i _ => ?_)
  simp only [Function.comp_apply]
  split <;> rfl

/-- Rank `r`'s logits row holds the scores of the positions it owns; what stands
in the columns past its local length is not said. -/
def HoldsShard (N S r : ℕ) (logits : List β) : Prop :=
  ∀ l < own N S r, logits[l]? = some (score (globalPos N r l))

/-- The candidates of a local selection are its global positions with their
scores, and padding. -/
theorem rankCandidates_perm {r S k : ℕ} {logits : List β} (hrow : HoldsShard score N S r logits)
    {loc : List ℤ} {T : List ℕ} (hT : T ⊆ List.range (own N S r)) (hloc : loc.Perm (padTo k T)) :
    (rankCandidates N r logits loc).Perm
      ((T.map (globalPos N r)).map (candidateOf score) ++
        List.replicate (k - T.length) (⊥, -1)) := by
  refine (hloc.map _).trans (List.Perm.of_eq ?_)
  rw [padTo, List.map_append, List.map_replicate, List.map_map, List.map_map]
  congr 1
  refine List.map_congr_left (fun l hl => ?_)
  have hget := hrow l (List.mem_range.mp (hT hl))
  simp only [Function.comp_apply, Int.natCast_nonneg, if_true, Int.toNat_natCast, candidateOf,
    globalPos, List.getD_eq_getElem?_getD, hget, Option.getD_some]
  push_cast
  rfl

/-- **Any local selections.**  Whatever each rank selects from its shard, the
block writes the strict top-k of the selected global positions. -/
theorem unionSelect_ranks {S k : ℕ} (hfin : ∀ p < S, score p ≠ ⊥) {ranks : List ℕ}
    (hranks : ∀ r ∈ ranks, r < N) {logits : ℕ → List β}
    (hrow : ∀ r < N, HoldsShard score N S r (logits r)) {loc : ℕ → List ℤ} {T : ℕ → List ℕ}
    (hT : ∀ r < N, T r ⊆ List.range (own N S r)) (hloc : ∀ r < N, (loc r).Perm (padTo k (T r)))
    (topkTokens : ℕ) :
    unionSelect topkTokens (allGather ranks (fun r => locsc (logits r) (loc r)))
        (allGather ranks (fun r => gpos N r (loc r))) =
      padTo topkTokens
        (strictTopk score (ranks.flatMap (fun r => (T r).map (globalPos N r))) topkTokens) := by
  set U := ranks.flatMap (fun r => (T r).map (globalPos N r)) with hU
  set c := ranks.flatMap (fun r => rankCandidates N r (logits r) (loc r)) with hc
  have hsc : allGather ranks (fun r => locsc (logits r) (loc r)) = c.map Prod.fst := by
    rw [hc, List.map_flatMap, allGather]
    exact congrArg ranks.flatMap (funext (fun r => (map_fst_rankCandidates r _ _).symm))
  have hpos : allGather ranks (fun r => gpos N r (loc r)) = c.map Prod.snd := by
    rw [hc, List.map_flatMap, allGather]
    exact congrArg ranks.flatMap (funext (fun r => (map_snd_rankCandidates r _ _).symm))
  -- the padding of all ranks in one block
  obtain ⟨n, hn⟩ : ∃ n, ranks.flatMap
        (fun r => List.replicate (k - (T r).length) ((⊥ : β), (-1 : ℤ))) =
      List.replicate n (⊥, -1) :=
    ⟨_, List.eq_replicate_of_mem (fun x hx => by
      obtain ⟨r, _, hxr⟩ := List.mem_flatMap.mp hx
      exact List.eq_of_mem_replicate hxr)⟩
  have hperm : c.Perm (U.map (candidateOf score) ++ List.replicate n (⊥, -1)) := by
    rw [hU, List.map_flatMap, ← hn]
    refine (List.Perm.flatMap_left ranks (fun r hr => ?_)).trans
      (List.flatMap_append_perm ranks _ _).symm
    have hr' := hranks r hr
    exact rankCandidates_perm score (hrow r hr') (hT r hr') (hloc r hr')
  have hfinU : ∀ p ∈ U, score p ≠ ⊥ := by
    intro p hp
    obtain ⟨r, hr, hpr⟩ := List.mem_flatMap.mp hp
    obtain ⟨l, hl, rfl⟩ := List.mem_map.mp hpr
    have hl' := List.mem_range.mp (hT r (hranks r hr) hl)
    exact hfin _ ((lt_own_iff (hranks r hr) l S).mp hl')
  rw [hsc, hpos]
  exact unionSelect_eq score topkTokens hfinU hperm

/-- A rank's own strict top-k: its owned slots by score, ties to the lower slot. -/
def localStrictTopk (N S r k : ℕ) : List ℕ :=
  strictTopk (fun l => score (globalPos N r l)) (List.range (own N S r)) k

omit [OrderBot β] in
theorem localStrictTopk_map {r : ℕ} (hr : r < N) (S k : ℕ) :
    (localStrictTopk score N S r k).map (globalPos N r) =
      strictTopk score ((List.range S).filter (· % N = r)) k := by
  rw [localStrictTopk, strictTopk, List.map_take, ranked_map score (globalPos_le_iff hr),
    ← ownedPositions, ownedPositions_eq_filter hr, strictTopk]

omit [OrderBot β] in
/-- The ranks' strict top-k selections, cut again, are the context's. -/
theorem strictTopk_localBlocks (hN : 0 < N) (S k : ℕ) :
    strictTopk score ((List.range N).flatMap
      (fun r => (localStrictTopk score N S r k).map (globalPos N r))) k =
      strictTopk score (List.range S) k := by
  have hblocks : (List.range N).flatMap
        (fun r => (localStrictTopk score N S r k).map (globalPos N r)) =
      (List.range N).flatMap
        (fun r => strictTopk score ((List.range S).filter (· % N = r)) k) := by
    rw [List.flatMap_def, List.flatMap_def]
    exact congrArg List.flatten (List.map_congr_left
      (fun r hr => localStrictTopk_map score (List.mem_range.mp hr) S k))
  rw [hblocks, strictTopk_union score List.nodup_range List.nodup_range
    (fun p _ => List.mem_range.mpr (Nat.mod_lt p hN)) k]

end Ranks

/-! ### Agreement and partition -/

/-- Rank `r`'s `k` candidate lanes: distinct owned positions with finite scores,
among padding lanes. -/
structure RankBlock (N k r : ℕ) (c : List (β × ℤ)) : Prop where
  length : c.length = k
  lanes : ∀ x ∈ c, x = (⊥, -1) ∨ (x.1 ≠ ⊥ ∧ 0 ≤ x.2 ∧ x.2 % N = r)
  nodup : ((c.map Prod.snd).filter (0 ≤ ·)).Nodup

theorem RankBlock.candidate {N k r : ℕ} {c : List (β × ℤ)} (h : RankBlock N k r c) :
    ∀ x ∈ c, CandidateLane x :=
  fun x hx => (h.lanes x hx).imp id (fun hv => ⟨hv.1, hv.2.1⟩)

/-- What a rank computes from the blocks it gathered in the order `ranks`. -/
def gatheredSelection (topkTokens : ℕ) (ranks : List ℕ) (cand : ℕ → List (β × ℤ)) : List ℤ :=
  unionSelect topkTokens (allGather ranks (fun r => (cand r).map Prod.fst))
    (allGather ranks (fun r => (cand r).map Prod.snd))

theorem gatheredSelection_eq (topkTokens : ℕ) (ranks : List ℕ) (cand : ℕ → List (β × ℤ)) :
    gatheredSelection topkTokens ranks cand =
      unionSelect topkTokens ((ranks.flatMap cand).map Prod.fst)
        ((ranks.flatMap cand).map Prod.snd) := by
  rw [gatheredSelection, allGather, allGather, List.map_flatMap, List.map_flatMap]

/-- The gathered order of the blocks does not matter. -/
theorem gatheredSelection_perm (topkTokens : ℕ) {ranks ranks' : List ℕ}
    {cand : ℕ → List (β × ℤ)} (hcand : ∀ x ∈ ranks.flatMap cand, CandidateLane x)
    (h : ranks'.Perm ranks) :
    gatheredSelection topkTokens ranks' cand = gatheredSelection topkTokens ranks cand := by
  rw [gatheredSelection_eq, gatheredSelection_eq]
  exact unionSelect_perm topkTokens hcand (h.flatMap_right cand)

@[simp] theorem length_unionSelect (topkTokens : ℕ) (c : List (β × ℤ)) :
    (unionSelect topkTokens (c.map Prod.fst) (c.map Prod.snd)).length = topkTokens := by
  rw [unionSelect_eq_mergeSorted, List.length_append, List.length_map, List.length_take,
    List.length_replicate, (mergeSorted_perm c).length_eq]
  omega

/-- The selected lanes are candidates' positions, none of them twice. -/
theorem nodup_unionSelect (topkTokens : ℕ) {c : List (β × ℤ)} (hc : ∀ x ∈ c, CandidateLane x)
    (hnd : ((c.map Prod.snd).filter (0 ≤ ·)).Nodup) :
    ((unionSelect topkTokens (c.map Prod.fst) (c.map Prod.snd)).filter (0 ≤ ·)).Nodup := by
  have hpad : (List.replicate (topkTokens - c.length) (-1 : ℤ)).filter (0 ≤ ·) = [] :=
    List.filter_eq_nil_iff.mpr (fun a ha => by simp [List.eq_of_mem_replicate ha])
  have hlane : c.map laneOf = c.map Prod.snd := by
    refine List.map_congr_left (fun x hx => ?_)
    rcases hc x hx with rfl | ⟨hne, _⟩
    · simp [laneOf]
    · simp [laneOf, hne]
  have hperm : ((mergeSorted c).map laneOf).Perm (c.map Prod.snd) :=
    hlane ▸ (mergeSorted_perm c).map laneOf
  rw [unionSelect_eq_mergeSorted, List.filter_append, hpad, List.append_nil, List.map_take]
  exact ((List.take_sublist _ _).filter _).nodup ((hperm.filter _).nodup_iff.mpr hnd)

theorem lane_unionSelect (topkTokens : ℕ) {c : List (β × ℤ)} (hc : ∀ x ∈ c, CandidateLane x) :
    ∀ t ∈ unionSelect topkTokens (c.map Prod.fst) (c.map Prod.snd), t = -1 ∨ 0 ≤ t := by
  intro t ht
  rw [unionSelect_eq_mergeSorted] at ht
  rcases List.mem_append.mp ht with h | h
  · obtain ⟨x, hx, rfl⟩ := List.mem_map.mp h
    rcases hc x ((mergeSorted_perm c).mem_iff.mp (List.mem_of_mem_take hx)) with rfl | ⟨hne, hx⟩
    · simp [laneOf]
    · simp [laneOf, hne, hx]
  · exact Or.inl (List.eq_of_mem_replicate h)

/-- The owned mask, on a single rank too: every position is its own and is its own
slot. -/
theorem ownedTopk_eq {N r : ℕ} {sel : List ℤ} (hlane : ∀ t ∈ sel, t = -1 ∨ 0 ≤ t)
    (hr : r < N) : ownedTopk N r sel = ownedMask N r sel := by
  unfold ownedTopk
  split
  · rfl
  · obtain rfl : N = 1 := by omega
    obtain rfl : r = 0 := by omega
    rw [ownedMask]
    refine (List.map_id sel).symm.trans (List.map_congr_left (fun t ht => ?_))
    rcases hlane t ht with rfl | h
    · rfl
    · simp [h]

theorem getElem?_ownedTopk {N r : ℕ} {sel : List ℤ} (hlane : ∀ t ∈ sel, t = -1 ∨ 0 ≤ t)
    (hr : r < N) {lane : ℕ} {t : ℤ} (ht : sel[lane]? = some t) :
    (ownedTopk N r sel)[lane]? = some (if t % N = r ∧ 0 ≤ t then t / N else -1) := by
  rw [ownedTopk_eq hlane hr, ownedMask, List.getElem?_map, ht, Option.map_some]

/-! ### Main results -/

/-- **All ranks agree on the selection, and their owned masks partition it.**
The ranks may gather the blocks in different orders (`ranks`, `ranks'`).  Each
selected position `t` shows up on rank `t % N` only, in its own lane, as the
local slot that stands for it. -/
theorem selection_agrees_and_partitions {N k : ℕ} (hN : 0 < N) (cand : ℕ → List (β × ℤ))
    (hcand : ∀ r < N, RankBlock N k r (cand r)) {ranks ranks' : List ℕ}
    (hranks : ranks.Perm (List.range N)) (hranks' : ranks'.Perm (List.range N)) :
    gatheredSelection k ranks' cand = gatheredSelection k ranks cand ∧
    (gatheredSelection k ranks cand).length = k ∧
    ((gatheredSelection k ranks cand).filter (0 ≤ ·)).Nodup ∧
    ∀ (lane : ℕ) (t : ℤ), (gatheredSelection k ranks cand)[lane]? = some t →
      (t = -1 ∧ ∀ r < N, (ownedTopk N r (gatheredSelection k ranks cand))[lane]? = some (-1)) ∨
      (0 ≤ t ∧ ∃ r < N, (r : ℤ) = t % N ∧
        (∃ l : ℕ, (ownedTopk N r (gatheredSelection k ranks cand))[lane]? = some (l : ℤ) ∧
          (l : ℤ) * N + r = t) ∧
        ∀ s < N, s ≠ r →
          (ownedTopk N s (gatheredSelection k ranks cand))[lane]? = some (-1)) := by
  have hmem : ∀ r, r ∈ ranks ↔ r < N := fun r => by rw [hranks.mem_iff, List.mem_range]
  have hall : ∀ x ∈ ranks.flatMap cand, CandidateLane x := by
    intro x hx
    obtain ⟨r, hr, hxr⟩ := List.mem_flatMap.mp hx
    exact (hcand r ((hmem r).mp hr)).candidate x hxr
  have hnd : (((ranks.flatMap cand).map Prod.snd).filter (0 ≤ ·)).Nodup := by
    rw [List.map_flatMap, List.filter_flatMap]
    refine List.nodup_flatMap.mpr ⟨fun r hr => (hcand r ((hmem r).mp hr)).nodup, ?_⟩
    have hrnd : ranks.Nodup := hranks.nodup_iff.mpr List.nodup_range
    refine List.Pairwise.imp_of_mem (fun {r s} hr hs hne => ?_) hrnd
    -- two ranks' positions differ modulo `N`
    have hown : ∀ q ∈ ranks, ∀ t ∈ ((cand q).map Prod.snd).filter (0 ≤ ·), t % N = (q : ℤ) := by
      intro q hq t ht
      obtain ⟨htm, ht0⟩ := List.mem_filter.mp ht
      obtain ⟨x, hx, rfl⟩ := List.mem_map.mp htm
      rcases (hcand q ((hmem q).mp hq)).lanes x hx with rfl | hv
      · simp at ht0
      · exact hv.2.2
    intro t htr hts
    exact hne (by exact_mod_cast (hown r hr t htr).symm.trans (hown s hs t hts))
  have hlane : ∀ t ∈ gatheredSelection k ranks cand, t = -1 ∨ 0 ≤ t := by
    rw [gatheredSelection_eq]
    exact lane_unionSelect k hall
  refine ⟨gatheredSelection_perm k hall (hranks'.trans hranks.symm), ?_, ?_, ?_⟩
  · rw [gatheredSelection_eq]
    exact length_unionSelect k _
  · rw [gatheredSelection_eq]
    exact nodup_unionSelect k hall hnd
  intro lane t ht
  rcases hlane t (List.mem_of_getElem? ht) with rfl | h0
  · exact Or.inl ⟨rfl, fun r hr => by simpa using getElem?_ownedTopk hlane hr ht⟩
  · refine Or.inr ⟨h0, ?_⟩
    have hN' : (0 : ℤ) < N := by exact_mod_cast hN
    obtain ⟨r, hr⟩ : ∃ r : ℕ, (r : ℤ) = t % N :=
      ⟨(t % N).toNat, Int.toNat_of_nonneg (Int.emod_nonneg t hN'.ne')⟩
    obtain ⟨l, hl⟩ : ∃ l : ℕ, (l : ℤ) = t / N :=
      ⟨(t / N).toNat, Int.toNat_of_nonneg (Int.ediv_nonneg h0 hN'.le)⟩
    have hrN : r < N := by exact_mod_cast hr ▸ Int.emod_lt_of_pos t hN'
    refine ⟨r, hrN, hr, ⟨l, ?_, ?_⟩, fun s hs hne => ?_⟩
    · rw [getElem?_ownedTopk hlane hrN ht, if_pos ⟨hr.symm, h0⟩, hl]
    · rw [hl, hr, Int.mul_comm]
      exact Int.mul_ediv_add_emod t N
    · rw [getElem?_ownedTopk hlane hs ht, if_neg]
      rintro ⟨hst, _⟩
      exact hne (by exact_mod_cast (hst.symm.trans hr.symm))

/-- Two ranks whose best candidates tie, gathered in either order. -/
theorem selection_agrees_and_partitions_tied :
    gatheredSelection 2 [1, 0] (fun r => if r = 0 then [((5 : WithBot ℤ), 0), (⊥, -1)]
        else [(5, 1), (7, 3)]) =
      gatheredSelection 2 [0, 1] (fun r => if r = 0 then [((5 : WithBot ℤ), 0), (⊥, -1)]
        else [(5, 1), (7, 3)]) := by
  refine (selection_agrees_and_partitions (N := 2) (by decide) _ (fun r hr => ?_)
    (by decide) (by decide)).1
  obtain rfl | rfl : r = 0 ∨ r = 1 := by omega
  · exact ⟨by decide, by decide, by decide⟩
  · exact ⟨by decide, by decide, by decide⟩

/-- **The PERF2 union selection is the strict global top-k.**  Each rank's local
list is its strict top-k, padded with `-1` and in any lane order; the block writes
the context's strict top-k, entry by entry, then padding. -/
theorem perf2_eq_strictTopk {N S k : ℕ} (hN : 0 < N) (score : ℕ → β)
    (hfin : ∀ p < S, score p ≠ ⊥) (logits : ℕ → List β)
    (hrow : ∀ r < N, HoldsShard score N S r (logits r)) (loc : ℕ → List ℤ)
    (hloc : ∀ r < N, (loc r).Perm (padTo k (localStrictTopk score N S r k))) :
    unionSelect k (allGather (List.range N) (fun r => locsc (logits r) (loc r)))
        (allGather (List.range N) (fun r => gpos N r (loc r))) =
      padTo k (strictTopk score (List.range S) k) := by
  have hranks : ∀ r ∈ List.range N, r < N := fun r hr => List.mem_range.mp hr
  have hsub : ∀ r < N, localStrictTopk score N S r k ⊆ List.range (own N S r) :=
    fun r _ => strictTopk_subset _ _ _
  rw [unionSelect_ranks score hfin hranks hrow hsub hloc k, strictTopk_localBlocks score hN S k]

/-- The logits rows of two ranks for scores `5, 7, 5`; the last column lies past
rank 1's length. -/
def tiedLogits (r : ℕ) : List (WithBot ℤ) := if r = 0 then [5, 5] else [7, 9]

/-- Each rank's top-2 of `tiedLogits`. -/
def tiedLocal (r : ℕ) : List ℤ := if r = 0 then [0, 1] else [0, -1]

/-- The tie at the cut goes to position `0`, and the column past rank 1's length is
never read. -/
theorem perf2_eq_strictTopk_tied :
    unionSelect 2 (allGather (List.range 2) (fun r => locsc (tiedLogits r) (tiedLocal r)))
        (allGather (List.range 2) (fun r => gpos 2 r (tiedLocal r))) =
      padTo 2 (strictTopk (fun p => if p = 1 then (7 : WithBot ℤ) else 5) (List.range 3) 2) :=
  perf2_eq_strictTopk (by decide) _ (by decide) tiedLogits (by unfold HoldsShard; decide)
    tiedLocal (by decide)

example : padTo 3 (strictTopk (fun p => if p = 1 then (7 : WithBot ℤ) else 5) (List.range 2) 3) =
    [1, 0, -1] := by decide

end Glm52
