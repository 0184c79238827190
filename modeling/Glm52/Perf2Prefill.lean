import Glm52.Perf2Decode
import Mathlib.Data.List.GetD

/-! # The PERF2 prefill top-k

In the prefill every query has a causal range of its own: query `q` may attend to the keys
before `ke[q]`.  The PERF2 scheme has each rank take the top-k of the keys that it owns in
that range, pad it to a fixed size, and re-select from the ranks' candidates
(`candidateUnion`); what it stands for is one top-k over the whole range (`brute`).  The
offline gate compares the two on samples; `prefill_union_eq_brute` says that they agree for
every row, range, number of ranks and order of the ranks, lane by lane.

The model follows one row of the chunk. -/
namespace Glm52
open StableSort Topk

variable {β : Type} [LinearOrder β] [OrderBot β]

/-- `_strict_topk` on a row: the chosen scores and positions, `-1` where the chosen lane is
not valid. -/
def strictTopkLanes (k : ℕ) (scores : List β) (pos : List ℤ) : List β × List ℤ :=
  let o1 := argsort (· ≤ ·) (pos.map poskey)
  let sc1 := gather scores ⊥ o1
  let o2 := argsort (· ≥ ·) sc1
  let order := gather o1 0 o2
  let k := min k scores.length
  let sel := order.take k
  let vs := gather scores ⊥ sel
  let ps := gather pos (-1) sel
  (vs, List.zipWith (fun v p => if v = ⊥ then -1 else p) vs ps)

/-- `_pad`. -/
def pad (K : ℕ) (lanes : List β × List ℤ) : List β × List ℤ :=
  if K ≤ lanes.1.length then lanes
  else (lanes.1 ++ List.replicate (K - lanes.1.length) ⊥,
    lanes.2 ++ List.replicate (K - lanes.1.length) (-1))

/-- `_pad` of the positions alone. -/
def padPositions (K : ℕ) (gsel : List ℤ) : List ℤ :=
  if gsel.length < K then gsel ++ List.replicate (K - gsel.length) (-1) else gsel

/-- The masked row: scores and positions of the keys that `valid` admits. -/
def maskedLanes (valid : ℕ → Bool) (glogits : List β) : List β × List ℤ :=
  (glogits.zipIdx.map fun x => if valid x.2 then x.1 else ⊥,
    (List.range glogits.length).map fun p => if valid p then (p : ℤ) else -1)

/-- The candidates of rank `r`: its top-k of the keys that it owns in the causal range. -/
def localCandidates (N K ke : ℕ) (glogits : List β) (r : ℕ) : List β × List ℤ :=
  let row := maskedLanes (fun p => decide (p % N = r) && decide (p < ke)) glogits
  pad K (strictTopkLanes K row.1 row.2)

def candidateUnion (N K ke : ℕ) (ranks : List ℕ) (glogits : List β) : List ℤ :=
  let allsc := ranks.flatMap fun r => (localCandidates N K ke glogits r).1
  let allpos := ranks.flatMap fun r => (localCandidates N K ke glogits r).2
  padPositions K (strictTopkLanes K allsc allpos).2

def brute (K ke : ℕ) (glogits : List β) : List ℤ :=
  let row := maskedLanes (fun p => decide (p < ke)) glogits
  padPositions K (strictTopkLanes K row.1 row.2).2

/-! ### One selection -/

/-- The lanes that a selection keeps: the best `K`, then padding. -/
def keptLanes (K : ℕ) (c : List (β × ℤ)) : List (β × ℤ) :=
  (mergeSorted c).take (min K c.length) ++ List.replicate (K - c.length) (⊥, -1)

theorem strictTopkLanes_eq (K : ℕ) (c : List (β × ℤ)) :
    strictTopkLanes K (c.map Prod.fst) (c.map Prod.snd) =
      (((mergeSorted c).take (min K c.length)).map Prod.fst,
        ((mergeSorted c).take (min K c.length)).map laneOf) := by
  have hkeys : (c.map Prod.snd).map poskey = c.map (fun x => poskey x.2) := by simp
  unfold strictTopkLanes
  simp only [List.length_map, hkeys, gather_take]
  rw [gather_argsort_argsort (· ≤ ·) (· ≥ ·) c (fun x => poskey x.2) Prod.fst ⊥ Prod.fst ⊥,
    gather_argsort_argsort (· ≤ ·) (· ≥ ·) c (fun x => poskey x.2) Prod.fst ⊥ Prod.snd (-1)]
  rw [← List.map_take, ← List.map_take, List.zipWith_map, List.zipWith_self]
  rfl

/-- The re-selection is the one of the decode block. -/
theorem padPositions_strictTopkLanes (K : ℕ) (c : List (β × ℤ)) :
    padPositions K (strictTopkLanes K (c.map Prod.fst) (c.map Prod.snd)).2 =
      unionSelect K (c.map Prod.fst) (c.map Prod.snd) := by
  have hlen : (((mergeSorted c).take (min K c.length)).map laneOf).length = min K c.length := by
    rw [List.length_map, List.length_take, (mergeSorted_perm c).length_eq]
    omega
  rw [strictTopkLanes_eq, unionSelect_eq_mergeSorted, padPositions, hlen]
  split
  · rename_i hlt
    rw [min_eq_right (by omega : c.length ≤ K)]
  · rename_i hle
    rw [show K - c.length = 0 by omega, List.replicate_zero, List.append_nil]

theorem laneOf_candidate {x : β × ℤ} (h : CandidateLane x) : laneOf x = x.2 := by
  rcases h with rfl | ⟨hne, -⟩
  · simp [laneOf]
  · simp [laneOf, hne]

/-- A rank's candidates, as pairs of a score and a position. -/
theorem pad_strictTopkLanes (K : ℕ) {c : List (β × ℤ)} (hc : ∀ x ∈ c, CandidateLane x) :
    pad K (strictTopkLanes K (c.map Prod.fst) (c.map Prod.snd)) =
      ((keptLanes K c).map Prod.fst, (keptLanes K c).map Prod.snd) := by
  have hlane : ((mergeSorted c).take (min K c.length)).map laneOf =
      ((mergeSorted c).take (min K c.length)).map Prod.snd := by
    refine List.map_congr_left fun x hx => laneOf_candidate (hc x ?_)
    exact (mergeSorted_perm c).mem_iff.mp (List.mem_of_mem_take hx)
  have hlen : (((mergeSorted c).take (min K c.length)).map Prod.fst).length = min K c.length := by
    rw [List.length_map, List.length_take, (mergeSorted_perm c).length_eq]
    omega
  rw [strictTopkLanes_eq, hlane, pad]
  simp only [hlen, keptLanes, List.map_append, List.map_replicate]
  split
  · rename_i hle
    rw [show K - c.length = 0 by omega]
    simp
  · rename_i hlt
    rw [min_eq_right (by omega : c.length ≤ K)]

/-- The lane that stands for a selected position. -/
def laneAt (score : ℕ → β) (t : ℤ) : β × ℤ :=
  if 0 ≤ t then candidateOf score t.toNat else (⊥, -1)

/-- What is kept of the candidates of `U`: its strict top-k, then padding. -/
theorem keptLanes_eq (score : ℕ → β) (K : ℕ) {U : List ℕ} (hfin : ∀ p ∈ U, score p ≠ ⊥) {n : ℕ}
    {c : List (β × ℤ)} (hc : c.Perm (U.map (candidateOf score) ++ List.replicate n (⊥, -1))) :
    keptLanes K c = (strictTopk score U K).map (candidateOf score) ++
      List.replicate (K - (strictTopk score U K).length) (⊥, -1) := by
  have hback : ∀ x ∈ c, laneAt score (laneOf x) = x := by
    intro x hx
    rcases List.mem_append.mp (hc.mem_iff.mp hx) with h | h
    · obtain ⟨p, hp, rfl⟩ := List.mem_map.mp h
      simp [laneOf, laneAt, candidateOf, hfin p hp]
    · obtain rfl := List.eq_of_mem_replicate h
      simp [laneOf, laneAt]
  have hkept : (unionSelect K (c.map Prod.fst) (c.map Prod.snd)).map (laneAt score) =
      keptLanes K c := by
    rw [unionSelect_eq_mergeSorted, List.map_append, List.map_map, List.map_replicate, keptLanes]
    congr 1
    refine (List.map_congr_left fun x hx => ?_).trans (List.map_id _)
    exact hback x ((mergeSorted_perm c).mem_iff.mp (List.mem_of_mem_take hx))
  have hlanes := unionSelect_eq score K hfin hc
  rw [← hkept, hlanes, padTo, List.map_append, List.map_map, List.map_replicate]
  rfl

/-! ### The masked row -/

/-- The score of a key. -/
def keyScore (glogits : List β) (p : ℕ) : β := glogits.getD p ⊥

/-- The keys that `valid` admits. -/
def validKeys (valid : ℕ → Bool) (glogits : List β) : List ℕ :=
  (List.range glogits.length).filter valid

/-- The candidates of a masked row. -/
def maskedCandidates (valid : ℕ → Bool) (glogits : List β) : List (β × ℤ) :=
  (List.range glogits.length).map fun p =>
    if valid p then candidateOf (keyScore glogits) p else (⊥, -1)

theorem maskedLanes_eq (valid : ℕ → Bool) (glogits : List β) :
    maskedLanes valid glogits = ((maskedCandidates valid glogits).map Prod.fst,
      (maskedCandidates valid glogits).map Prod.snd) := by
  refine Prod.ext ?_ ?_
  · refine List.ext_getElem (by simp [maskedLanes, maskedCandidates]) fun i hi _ => ?_
    have hi' : i < glogits.length := by simpa [maskedLanes] using hi
    simp only [maskedLanes, maskedCandidates, List.getElem_map, List.getElem_zipIdx,
      List.getElem_range, Nat.zero_add]
    split <;> simp [candidateOf, keyScore, hi']
  · simp only [maskedLanes, maskedCandidates, List.map_map]
    refine List.map_congr_left fun p _ => ?_
    simp only [Function.comp_apply]
    split <;> rfl

/-- They are the valid keys with their scores, among padding. -/
theorem maskedCandidates_perm (valid : ℕ → Bool) (glogits : List β) :
    ∃ n, (maskedCandidates valid glogits).Perm
      ((validKeys valid glogits).map (candidateOf (keyScore glogits)) ++
        List.replicate n (⊥, -1)) := by
  unfold maskedCandidates validKeys
  generalize List.range glogits.length = keys
  induction keys with
  | nil => exact ⟨0, by simp⟩
  | cons p keys ih =>
    obtain ⟨n, hperm⟩ := ih
    by_cases hp : valid p = true
    · refine ⟨n, ?_⟩
      simpa [hp] using hperm
    · refine ⟨n + 1, ?_⟩
      have hmove := (hperm.cons ((⊥ : β), (-1 : ℤ))).trans List.perm_middle.symm
      simpa [hp, List.replicate_succ] using hmove

omit [LinearOrder β] [OrderBot β] in
/-- The keys of a causal range. -/
theorem validKeys_causal (ke : ℕ) (glogits : List β) :
    validKeys (fun p => decide (p < ke)) glogits = List.range (min ke glogits.length) := by
  unfold validKeys
  induction glogits.length with
  | zero => simp
  | succ n ih =>
    rw [List.range_succ, List.filter_append, ih]
    by_cases hn : n < ke
    · rw [min_eq_right (Nat.le_of_lt hn), min_eq_right hn, List.range_succ]
      simp [hn]
    · rw [min_eq_left (not_lt.mp hn), min_eq_left (by omega)]
      simp [hn]

theorem keyScore_ne_bot {glogits : List β} (hfin : ∀ v ∈ glogits, v ≠ ⊥) {valid : ℕ → Bool} :
    ∀ p ∈ validKeys valid glogits, keyScore glogits p ≠ ⊥ := by
  intro p hp
  have hlt : p < glogits.length := List.mem_range.mp (List.mem_filter.mp hp).1
  rw [keyScore, List.getD_eq_getElem _ _ hlt]
  exact hfin _ (List.getElem_mem hlt)

/-! ### The union -/

theorem localCandidates_eq {glogits : List β} (hfin : ∀ v ∈ glogits, v ≠ ⊥) (N K ke r : ℕ) :
    ∃ block : List (β × ℤ), ∃ n,
      localCandidates N K ke glogits r = (block.map Prod.fst, block.map Prod.snd) ∧
      block = (strictTopk (keyScore glogits)
          ((validKeys (fun p => decide (p < ke)) glogits).filter (· % N = r)) K).map
            (candidateOf (keyScore glogits)) ++ List.replicate n (⊥, -1) := by
  set valid : ℕ → Bool := fun p => decide (p % N = r) && decide (p < ke)
  have hkeys : validKeys valid glogits =
      (validKeys (fun p => decide (p < ke)) glogits).filter (· % N = r) := by
    rw [validKeys, validKeys, List.filter_filter]
  obtain ⟨n, hperm⟩ := maskedCandidates_perm valid glogits
  have hcand : ∀ x ∈ maskedCandidates valid glogits, CandidateLane x := by
    intro x hx
    rcases List.mem_append.mp (hperm.mem_iff.mp hx) with h | h
    · obtain ⟨p, hp, rfl⟩ := List.mem_map.mp h
      exact Or.inr ⟨keyScore_ne_bot hfin p hp, Int.natCast_nonneg p⟩
    · exact Or.inl (List.eq_of_mem_replicate h)
  have hkept := keptLanes_eq (keyScore glogits) K (keyScore_ne_bot hfin) hperm
  rw [hkeys] at hkept
  have hpair : localCandidates N K ke glogits r =
      ((keptLanes K (maskedCandidates valid glogits)).map Prod.fst,
        (keptLanes K (maskedCandidates valid glogits)).map Prod.snd) := by
    rw [localCandidates, maskedLanes_eq, pad_strictTopkLanes K hcand]
  exact ⟨_, _, hpair, hkept⟩

/-- The plain selection: the strict top-k of the causal range. -/
theorem brute_eq {glogits : List β} (hfin : ∀ v ∈ glogits, v ≠ ⊥) (K ke : ℕ) :
    brute K ke glogits = padTo K (strictTopk (keyScore glogits)
      (validKeys (fun p => decide (p < ke)) glogits) K) := by
  obtain ⟨n, hperm⟩ := maskedCandidates_perm (fun p => decide (p < ke)) glogits
  rw [brute, maskedLanes_eq, padPositions_strictTopkLanes]
  exact unionSelect_eq (keyScore glogits) K (keyScore_ne_bot hfin) hperm

theorem candidateUnion_eq {glogits : List β} (hfin : ∀ v ∈ glogits, v ≠ ⊥) {N : ℕ} (hN : 0 < N)
    {ranks : List ℕ} (hranks : ranks.Perm (List.range N)) (K ke : ℕ) :
    candidateUnion N K ke ranks glogits = padTo K (strictTopk (keyScore glogits)
      (validKeys (fun p => decide (p < ke)) glogits) K) := by
  set keys := validKeys (fun p => decide (p < ke)) glogits with hkeys
  choose block n hpair hblock using localCandidates_eq hfin N K ke
  set T : ℕ → List ℕ := fun r => strictTopk (keyScore glogits) (keys.filter (· % N = r)) K
  have hsc : (ranks.flatMap fun r => (localCandidates N K ke glogits r).1) =
      (ranks.flatMap block).map Prod.fst := by
    rw [List.map_flatMap]
    simp only [hpair]
  have hpos : (ranks.flatMap fun r => (localCandidates N K ke glogits r).2) =
      (ranks.flatMap block).map Prod.snd := by
    rw [List.map_flatMap]
    simp only [hpair]
  -- the padding of all ranks in one block
  obtain ⟨m, hm⟩ : ∃ m, (ranks.flatMap fun r => List.replicate (n r) ((⊥ : β), (-1 : ℤ))) =
      List.replicate m (⊥, -1) :=
    ⟨_, List.eq_replicate_of_mem fun x hx => by
      obtain ⟨r, -, hxr⟩ := List.mem_flatMap.mp hx
      exact List.eq_of_mem_replicate hxr⟩
  have hperm : (ranks.flatMap block).Perm ((ranks.flatMap T).map (candidateOf (keyScore glogits)) ++
      List.replicate m (⊥, -1)) := by
    rw [List.map_flatMap, ← hm]
    refine List.Perm.trans (List.Perm.of_eq ?_) (List.flatMap_append_perm ranks _ _).symm
    exact congrArg ranks.flatMap (funext hblock)
  have hsub : ∀ p ∈ ranks.flatMap T, keyScore glogits p ≠ ⊥ := by
    intro p hp
    obtain ⟨r, -, hpr⟩ := List.mem_flatMap.mp hp
    have hmem := List.mem_of_mem_filter (strictTopk_subset _ _ _ hpr)
    exact keyScore_ne_bot hfin p hmem
  have hnodup : keys.Nodup := List.nodup_range.filter _
  have hunion : strictTopk (keyScore glogits) (ranks.flatMap T) K =
      strictTopk (keyScore glogits) keys K := by
    refine strictTopk_union (keyScore glogits) hnodup (hranks.nodup_iff.mpr List.nodup_range)
      (fun p _ => ?_) K
    rw [hranks.mem_iff, List.mem_range]
    exact Nat.mod_lt p hN
  rw [candidateUnion, hsc, hpos, padPositions_strictTopkLanes,
    unionSelect_eq (keyScore glogits) K hsub hperm, hunion]

/-- **The PERF2 prefill selection is the global one.**  For every row of finite scores, every
causal range (shorter than `K`, or longer than the row), every number of ranks and every
order in which their candidates are gathered, the union of the ranks' top-k, cut again, is
the top-k of the range, lane by lane: its best `K` keys by score, ties to the lower key,
then `-1`. -/
theorem prefill_union_eq_brute {glogits : List β} (hfin : ∀ v ∈ glogits, v ≠ ⊥) {N : ℕ}
    (hN : 0 < N) {ranks : List ℕ} (hranks : ranks.Perm (List.range N)) (K ke : ℕ) :
    candidateUnion N K ke ranks glogits = brute K ke glogits ∧
      brute K ke glogits = padTo K (strictTopk (keyScore glogits)
        (List.range (min ke glogits.length)) K) := by
  rw [candidateUnion_eq hfin hN hranks, brute_eq hfin, validKeys_causal]
  exact ⟨rfl, rfl⟩

/-- Three ranks, gathered in another order; the range ends before the best score, and two
keys of different ranks tie for the last place. -/
theorem prefill_union_eq_brute_tied :
    candidateUnion 3 2 5 [2, 0, 1] [(4 : WithBot ℤ), 3, 7, 4, 4, 9] =
      brute 2 5 [(4 : WithBot ℤ), 3, 7, 4, 4, 9] ∧
      brute 2 5 [(4 : WithBot ℤ), 3, 7, 4, 4, 9] = [2, 0] := by
  have hfin : ∀ v ∈ [(4 : WithBot ℤ), 3, 7, 4, 4, 9], v ≠ ⊥ := by decide
  have hranks : [2, 0, 1].Perm (List.range 3) := by decide
  obtain ⟨hunion, -⟩ := prefill_union_eq_brute hfin (by decide) hranks 2 5
  exact ⟨hunion, by decide⟩

end Glm52
