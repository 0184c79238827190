import Glm52.Perf2Decode

/-! # The item-B decode top-k, and its equivalence with PERF2

The first form of the decode patch gathers whole logits rows: each rank pads or
truncates its row to `Lmax` columns, the rows are all-gathered and interleaved
back to global column order (column `c * N + r` is rank `r`'s column `c`), and the
top-k kernel runs over the global length.  PERF2 gathers only the ranks' own
selections.

The top-k kernel is outside the repository; `TopKPerRow` is what both patches rely
on, and it leaves the tie-break open.  Under it both forms are top-k selections of
the global context (`itemB_isTopk`, `perf2_isTopk`), hence equivalent
(`itemB_perf2_equivalent`).  What a logits row holds at or beyond the rank's own
length is arbitrary throughout. -/
namespace Glm52
open StableSort Topk

variable {β : Type} [LinearOrder β] [OrderBot β]

/-! ### Logits reassembly -/

/-- `_glm52_Lmax`: the columns a rank can own. -/
def lmax (N maxModelLen : ℕ) : ℕ := (maxModelLen + N - 1) / N

/-- A rank's row brought to `Lmax` columns: padded with `-inf`, or truncated. -/
def padOrCut (Lmax : ℕ) (logits : List β) : List β :=
  if logits.length < Lmax then logits ++ List.replicate (Lmax - logits.length) ⊥
  else logits.take Lmax

/-- `view(N, Lmax).transpose(1, 2).reshape(Lmax * N)` of a gathered row. -/
def reassemble (N Lmax : ℕ) (g : List β) : List β :=
  (List.range (Lmax * N)).map (fun j => g.getD (j % N * Lmax + j / N) ⊥)

/-- The row the item-B top-k runs on; a single rank keeps its own logits. -/
def itemBLogits (N maxModelLen : ℕ) (logits : ℕ → List β) : List β :=
  if 1 < N then
    reassemble N (lmax N maxModelLen)
      (allGather (List.range N) (fun r => padOrCut (lmax N maxModelLen) (logits r)))
  else logits 0

@[simp] theorem length_padOrCut (Lmax : ℕ) (logits : List β) :
    (padOrCut Lmax logits).length = Lmax := by
  unfold padOrCut
  split
  · rw [List.length_append, List.length_replicate]; omega
  · rw [List.length_take]; omega

theorem getElem?_padOrCut {Lmax c : ℕ} {logits : List β} (hc : c < Lmax)
    (hlen : c < logits.length) : (padOrCut Lmax logits)[c]? = logits[c]? := by
  unfold padOrCut
  split
  · exact List.getElem?_append_left hlen
  · exact List.getElem?_take_of_lt hc

/-- Reading the gather of equally long blocks. -/
theorem getElem?_allGather {α : Type} {L : ℕ} {block : ℕ → List α} (N : ℕ)
    (hlen : ∀ r, (block r).length = L) {r c : ℕ} (hr : r < N) (hc : c < L) :
    (allGather (List.range N) block)[r * L + c]? = (block r)[c]? := by
  unfold allGather
  induction N with
  | zero => omega
  | succ N ih =>
    have htotal : ((List.range N).flatMap block).length = N * L := by
      simp [List.length_flatMap, hlen]
    rw [List.range_succ, List.flatMap_append, List.flatMap_singleton]
    rcases Nat.lt_or_ge r N with h | h
    · have hlt : r * L + c < N * L := by
        have := Nat.mul_le_mul_right L (Nat.succ_le_of_lt h)
        rw [Nat.succ_mul] at this
        omega
      rw [List.getElem?_append_left (by omega), ih h]
    · obtain rfl : r = N := by omega
      rw [List.getElem?_append_right (by omega), htotal, Nat.add_sub_cancel_left]

/-- **Column `p` of the reassembled row is the logit of position `p`.** -/
theorem getD_itemBLogits {N maxModelLen S : ℕ} (hN : 0 < N) (hS : S ≤ maxModelLen)
    {logits : ℕ → List β} (hlen : ∀ r < N, own N S r ≤ (logits r).length) {p : ℕ} (hp : p < S) :
    (itemBLogits N maxModelLen logits).getD p ⊥ = (logits (p % N)).getD (p / N) ⊥ := by
  have hr : p % N < N := Nat.mod_lt p hN
  have hslot : p / N < own N S (p % N) := div_lt_own hN hp
  have hcol : p / N < lmax N maxModelLen := lt_of_lt_of_le hslot (own_le_ceil hr hS)
  unfold itemBLogits
  split
  · have hpL : p < lmax N maxModelLen * N := by
      have := Nat.mul_le_mul_right N (Nat.succ_le_of_lt hcol)
      have := Nat.div_add_mod' p N
      rw [Nat.succ_mul] at *
      omega
    have hblocks := getElem?_allGather (c := p / N) N
      (fun r => length_padOrCut (lmax N maxModelLen) (logits r)) hr hcol
    rw [getElem?_padOrCut hcol (lt_of_lt_of_le hslot (hlen _ hr))] at hblocks
    simp only [reassemble, List.getD_eq_getElem?_getD, List.getElem?_map,
      List.getElem?_range hpL, Option.map_some, Option.getD_some, hblocks]
  · obtain rfl : N = 1 := by omega
    simp [Nat.mod_one]

/-! ### The top-k kernel's contract -/

/-- What `ops.top_k_per_row_decode` returns for a row and its length: `k` lanes
holding `min k len` distinct columns below `len`, none of them scoring strictly
below a column below `len` that is left out, and `-1` in the other lanes. -/
def TopKPerRow (k : ℕ) (row : List β) (len : ℕ) (out : List ℤ) : Prop :=
  ∃ sel : List ℕ, out.Perm (padTo k sel) ∧ IsTopk (fun c => row.getD c ⊥) (List.range len) k sel

/-- The score of a global position: the owning rank's logit at its slot. -/
def globalScore (N : ℕ) (logits : ℕ → List β) (p : ℕ) : β := (logits (p % N)).getD (p / N) ⊥

theorem globalScore_globalPos {N r : ℕ} (hr : r < N) (logits : ℕ → List β) (l : ℕ) :
    globalScore N logits (globalPos N r l) = (logits r).getD l ⊥ := by
  simp [globalScore, hr]

/-- Rank `r`'s row is finite below the rank's own length. -/
def FiniteBelow (N S : ℕ) (logits : ℕ → List β) : Prop :=
  ∀ r < N, ∀ l < own N S r, ∃ v, (logits r)[l]? = some v ∧ v ≠ ⊥

section Contract
variable {N S k : ℕ} {logits : ℕ → List β}

theorem FiniteBelow.holdsShard (h : FiniteBelow N S logits) {r : ℕ} (hr : r < N) :
    HoldsShard (globalScore N logits) N S r (logits r) := by
  intro l hl
  obtain ⟨v, hv, _⟩ := h r hr l hl
  rw [globalScore_globalPos hr, List.getD_eq_getElem?_getD, hv, Option.getD_some]

theorem FiniteBelow.length_le (h : FiniteBelow N S logits) {r : ℕ} (hr : r < N) :
    own N S r ≤ (logits r).length := by
  by_contra hlt
  obtain ⟨v, hv, _⟩ := h r hr _ (Nat.lt_of_not_le hlt)
  rw [List.getElem?_eq_none le_rfl] at hv
  cases hv

theorem FiniteBelow.score_ne_bot (hN : 0 < N) (h : FiniteBelow N S logits) {p : ℕ} (hp : p < S) :
    globalScore N logits p ≠ ⊥ := by
  obtain ⟨v, hv, hne⟩ := h (p % N) (Nat.mod_lt p hN) (p / N) (div_lt_own hN hp)
  rw [globalScore, List.getD_eq_getElem?_getD, hv, Option.getD_some]
  exact hne

/-- The item-B top-k is a selection from the global context. -/
theorem itemB_isTopk (hN : 0 < N) {maxModelLen : ℕ} (hS : S ≤ maxModelLen)
    (hfin : FiniteBelow N S logits) {out : List ℤ}
    (hout : TopKPerRow k (itemBLogits N maxModelLen logits) S out) :
    IsTopk (globalScore N logits) (List.range S) k (selected out) := by
  obtain ⟨sel, hperm, hsel⟩ := hout
  have hscore : ∀ p ∈ List.range S,
      (itemBLogits N maxModelLen logits).getD p ⊥ = globalScore N logits p :=
    fun p hp => getD_itemBLogits hN hS (fun r hr => hfin.length_le hr) (List.mem_range.mp hp)
  exact (hsel.congr_score hscore).congr (selected_padTo k sel ▸ selected_perm hperm)

/-- The PERF2 top-k is a selection from the global context: the union of the
ranks' selections loses nothing the cut needs. -/
theorem perf2_isTopk (hN : 0 < N) (hfin : FiniteBelow N S logits) {loc : ℕ → List ℤ}
    (hloc : ∀ r < N, TopKPerRow k (logits r) (own N S r) (loc r)) :
    IsTopk (globalScore N logits) (List.range S) k
      (selected (decodeTopk N k (List.range N) logits loc)) := by
  choose! T hperm hT using hloc
  -- each rank selects from the positions it owns
  have hmap : ∀ r < N, IsTopk (globalScore N logits)
      ((List.range S).filter (· % N = r)) k ((T r).map (globalPos N r)) := by
    intro r hr
    have hscore : ∀ l ∈ List.range (own N S r),
        (logits r).getD l ⊥ = globalScore N logits (globalPos N r l) :=
      fun l _ => (globalScore_globalPos hr logits l).symm
    rw [← ownedPositions_eq_filter hr]
    exact ((hT r hr).congr_score hscore).map (globalPos_injective hr)
  have hunion : IsTopk (globalScore N logits) (List.range S) k (strictTopk (globalScore N logits)
      ((List.range N).flatMap (fun r => (T r).map (globalPos N r))) k) := by
    have hmod : ∀ r ∈ List.range N, ∀ p ∈ (T r).map (globalPos N r), p % N = r := by
      intro r hr p hp
      simpa using (List.mem_filter.mp ((hmap r (List.mem_range.mp hr)).subset hp)).2
    refine IsTopk.union List.nodup_range List.nodup_range
      (fun p _ => List.mem_range.mpr (Nat.mod_lt p hN))
      (fun r hr => hmap r (List.mem_range.mp hr)) (strictTopk_isTopk ?_)
    exact nodup_flatMap_of_owner List.nodup_range
      (fun r hr => (hmap r (List.mem_range.mp hr)).nodup) hmod
  unfold decodeTopk
  split
  · rw [unionSelect_ranks (globalScore N logits) (fun p hp => hfin.score_ne_bot hN hp)
      (fun r hr => List.mem_range.mp hr) (fun r hr => hfin.holdsShard hr)
      (fun r hr => (hT r hr).subset) hperm k, selected_padTo]
    exact hunion
  · obtain rfl : N = 1 := by omega
    -- a single rank owns all positions and writes its own selection
    have hzero := hmap 0 Nat.one_pos
    have hpos : (T 0).map (globalPos 1 0) = T 0 := by
      rw [show globalPos 1 0 = id from funext (fun l => by simp [globalPos]), List.map_id]
    rw [hpos] at hzero
    have hall : (List.range S).filter (· % 1 = 0) = List.range S :=
      List.filter_eq_self.mpr (by simp [Nat.mod_one])
    rw [hall] at hzero
    exact hzero.congr (selected_padTo k (T 0) ▸ selected_perm (hperm 0 Nat.one_pos))

end Contract

/-! ### Main result -/

/-- **Item B and PERF2 choose equivalent top-k sets**, whatever the kernel's
tie-break in either run and on either rank: both hold `min k S` distinct positions
below `S` with the same scores, and the same positions when the cut is not
tied. -/
theorem itemB_perf2_equivalent {N S k maxModelLen : ℕ} (hN : 0 < N) (hk : 0 < k)
    (hS : S ≤ maxModelLen) {logits : ℕ → List β} (hfin : FiniteBelow N S logits)
    {outB : List ℤ} (hB : TopKPerRow k (itemBLogits N maxModelLen logits) S outB)
    {loc : ℕ → List ℤ} (hloc : ∀ r < N, TopKPerRow k (logits r) (own N S r) (loc r)) :
    let outP := decodeTopk N k (List.range N) logits loc
    ((selected outB).Nodup ∧ (selected outB).length = min k S ∧ ∀ p ∈ selected outB, p < S) ∧
    ((selected outP).Nodup ∧ (selected outP).length = min k S ∧ ∀ p ∈ selected outP, p < S) ∧
    ((selected outB).map (globalScore N logits)).Perm
      ((selected outP).map (globalScore N logits)) ∧
    (¬ CutTied (globalScore N logits) (List.range S) k →
      ∀ p, p ∈ selected outB ↔ p ∈ selected outP) := by
  intro outP
  have hb := itemB_isTopk hN hS hfin hB
  have hp := perf2_isTopk hN hfin hloc
  have hshape : ∀ {sel : List ℕ}, IsTopk (globalScore N logits) (List.range S) k sel →
      sel.Nodup ∧ sel.length = min k S ∧ ∀ p ∈ sel, p < S := fun h =>
    ⟨h.nodup, by simpa using h.length, fun p hp => List.mem_range.mp (h.subset hp)⟩
  refine ⟨hshape hb, hshape hp, hb.scores_perm List.nodup_range hp, fun hu p => ?_⟩
  rw [hb.mem_iff List.nodup_range hk hu, hp.mem_iff List.nodup_range hk hu]

/-- The two runs break the tie of `tiedLogits` differently and still hold the same
scores. -/
theorem itemB_perf2_equivalent_tied :
    ((selected [2, 1]).map (globalScore 2 tiedLogits)).Perm
      ((selected (decodeTopk 2 2 (List.range 2) tiedLogits tiedLocal)).map
        (globalScore 2 tiedLogits)) := by
  refine (itemB_perf2_equivalent (show 0 < 2 by decide) (show 0 < 2 by decide)
    (show 3 ≤ 4 by decide) (fun r hr l hl => ?_)
    ⟨[2, 1], by decide, by decide, by decide, by decide, by decide⟩ (fun r hr => ?_)).2.2.1
  · obtain rfl | rfl : r = 0 ∨ r = 1 := by omega
    · have hown : own 2 3 0 = 2 := by decide
      obtain rfl | rfl : l = 0 ∨ l = 1 := by omega
      · exact ⟨5, by decide, by decide⟩
      · exact ⟨5, by decide, by decide⟩
    · have hown : own 2 3 1 = 1 := by decide
      obtain rfl : l = 0 := by omega
      exact ⟨7, by decide, by decide⟩
  · obtain rfl | rfl : r = 0 ∨ r = 1 := by omega
    · exact ⟨[0, 1], by decide, by decide, by decide, by decide, by decide⟩
    · exact ⟨[0], by decide, by decide, by decide, by decide, by decide⟩

end Glm52
