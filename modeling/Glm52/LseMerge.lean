import Glm52.FusedAttention

/-! # Merging partial attention by log-sum-exp

Under DCP each rank attends over its own keys and returns an output and a
log-sum-exp; the ranks' results are averaged with weights `exp(lse)`.  A rank without
keys returns zero and `-inf`, hence weight zero.

`mergeOut` and `mergeLse` are the merge over any number of parts, `mergeTwo` the form
of it for two, shifted by the larger log-sum-exp.  For parts that read as softmax
attention, they give attention over all the parts' candidates (`mergeOut_eq`,
`mergeLse_eq`); the two attention paths are such parts (`lse_merge_exact`). -/
namespace Glm52
open Autotune ExactFloat Softmax OnlineSoftmax

/-- `sum_s out_s * exp(lse_s) / sum_s exp(lse_s)`, for one coordinate of the output. -/
noncomputable def mergeOut (parts : List (Scalar × Scalar)) : Scalar :=
  (parts.map (fun part => part.1 * exp part.2)).sum / (parts.map (fun part => exp part.2)).sum

/-- `logsumexp_s(lse_s)`. -/
noncomputable def mergeLse (parts : List Scalar) : Scalar := log (parts.map exp).sum

/-- The two-way merge: `merged` and `merged_lse`. -/
noncomputable def mergeTwo (outA lseA outB lseB : Scalar) : Scalar × Scalar :=
  let m := maximum lseA lseB
  let wa := exp (lseA - m)
  let wb := exp (lseB - m)
  ((outA * wa + outB * wb) / (wa + wb), m + log (wa + wb))

/-- A part of softmax attention as a merge sees it, at one coordinate. -/
noncomputable def partResult (d : ℕ) (part : List (Candidate (ℕ → ℝ))) : Scalar × Scalar :=
  (fin (attend part d), logSumExp part)

section Merge
variable {parts : List (List (Candidate (ℕ → ℝ)))} {whole : List (Candidate (ℕ → ℝ))}

/-- The weights of the parts add up to the weight of the whole. -/
theorem sum_exp_logSumExp (h : parts.flatten.Perm whole) :
    (parts.map (fun part => exp (logSumExp part))).sum = fin (weight whole) := by
  have hexp : ∀ part ∈ parts, exp (logSumExp part) = fin (weight part) :=
    fun part _ => exp_logSumExp part
  rw [List.map_congr_left hexp, sum_map_fin, ← weight_flatten, weight_perm h]

/-- **Merging outputs.** -/
theorem mergeOut_eq (h : parts.flatten.Perm whole) (hwhole : whole ≠ []) (d : ℕ) :
    mergeOut (parts.map (partResult d)) = fin (attend whole d) := by
  have hout : ∀ part ∈ parts, (partResult d part).1 * exp (partResult d part).2 =
      fin (weight part * attend part d) := by
    intro part _
    rw [partResult, exp_logSumExp, fin_mul, mul_comm]
  rw [mergeOut, List.map_map, List.map_map]
  simp only [Function.comp_def]
  rw [List.map_congr_left hout, sum_map_fin]
  show _ / (parts.map (fun part => exp (logSumExp part))).sum = _
  rw [sum_exp_logSumExp h, fin_div (weight_pos hwhole).ne', merge_attend h]

/-- **Merging log-sum-exps.** -/
theorem mergeLse_eq (h : parts.flatten.Perm whole) :
    mergeLse (parts.map logSumExp) = logSumExp whole := by
  rw [mergeLse, List.map_map, logSumExp]
  exact congrArg log (sum_exp_logSumExp h)

end Merge

/-- `exp` of a log-sum-exp, shifted by a number. -/
theorem exp_logSumExp_sub (l : List (Candidate (ℕ → ℝ))) (m : ℝ) :
    exp (logSumExp l - fin m) = fin (Real.exp (-m) * weight l) := by
  by_cases hl : l = []
  · subst hl
    simp
  · rw [logSumExp_of_ne_nil hl, fin_sub, exp_fin, exp_sub_eq, Real.exp_log (weight_pos hl)]

/-- The larger of two log-sum-exps is a number unless both parts are empty. -/
theorem exists_maximum_logSumExp {a b : List (Candidate (ℕ → ℝ))} (h : a ++ b ≠ []) :
    ∃ m : ℝ, maximum (logSumExp a) (logSumExp b) = fin m := by
  by_cases ha : a = []
  · subst ha
    rw [logSumExp_nil, logSumExp_of_ne_nil (by simpa using h)]
    exact ⟨_, rfl⟩
  · by_cases hb : b = []
    · subst hb
      rw [logSumExp_nil, logSumExp_of_ne_nil ha]
      exact ⟨_, maximum_negInf_right (by simp)⟩
    · rw [logSumExp_of_ne_nil ha, logSumExp_of_ne_nil hb]
      exact ⟨_, maximum_fin _ _⟩

/-- **The shifted merge of two parts is the merge**: the shift cancels, and a part
without candidates still has weight zero. -/
theorem mergeTwo_eq {a b : List (Candidate (ℕ → ℝ))} (h : a ++ b ≠ []) (d : ℕ) :
    mergeTwo (partResult d a).1 (partResult d a).2 (partResult d b).1 (partResult d b).2 =
      (fin (attend (a ++ b) d), logSumExp (a ++ b)) := by
  obtain ⟨m, hm⟩ := exists_maximum_logSumExp h
  have hpos := weight_pos h
  have hshift : Real.exp (-m) * weight a + Real.exp (-m) * weight b =
      Real.exp (-m) * weight (a ++ b) := by
    rw [weight_append, mul_add]
  have hmul : 0 < Real.exp (-m) * weight (a ++ b) := mul_pos (Real.exp_pos _) hpos
  have hout : attend a d * (Real.exp (-m) * weight a) + attend b d * (Real.exp (-m) * weight b) =
      Real.exp (-m) * moment (a ++ b) d := by
    rw [moment_append, Pi.add_apply, ← weight_smul_attend a, ← weight_smul_attend b,
      Pi.smul_apply, Pi.smul_apply, smul_eq_mul, smul_eq_mul]
    ring
  simp only [mergeTwo, partResult, hm, exp_logSumExp_sub, fin_mul, fin_add, hshift, hout]
  rw [fin_div hmul.ne', log_fin hmul, fin_add, logSumExp_of_ne_nil h,
    mul_div_mul_left _ _ (Real.exp_ne_zero _), Real.log_mul (Real.exp_ne_zero _) hpos.ne',
    Real.log_exp, add_neg_cancel_left, attend, Pi.smul_apply, smul_eq_mul, div_eq_inv_mul]

/-! ### The attention paths as parts -/

section Paths
variable (sKv : ℕ) (smScale : ℝ) (x : ℕ → ℝ) (y : ℕ → ℕ → ℝ)

theorem rowCandidates_eq_nil {row : List ℤ} :
    rowCandidates sKv smScale x y row = [] ↔ ∀ i ∈ row, ¬ (0 ≤ i ∧ i < sKv) := by
  simp [rowCandidates, List.filterMap_eq_nil_iff, indexedCandidate]

/-- A valid entry is a candidate. -/
theorem rowCandidates_ne_nil {row : List ℤ} (h : ∃ i ∈ row, 0 ≤ i ∧ i < sKv) :
    rowCandidates sKv smScale x y row ≠ [] := by
  intro hnil
  obtain ⟨i, hi, hok⟩ := h
  exact (rowCandidates_eq_nil sKv smScale x y).mp hnil i hi hok

/-- A split of a row splits its candidates. -/
theorem rowCandidates_split {rows : List (List ℤ)} {whole : List ℤ}
    (h : rows.flatten.Perm whole) :
    ((rows.map (rowCandidates sKv smScale x y)).flatten).Perm
      (rowCandidates sKv smScale x y whole) := by
  have hflat : (rows.map (rowCandidates sKv smScale x y)).flatten =
      rowCandidates sKv smScale x y rows.flatten := by
    unfold rowCandidates
    rw [List.filterMap_flatten]
  rw [hflat]
  exact h.filterMap _

/-- Partial results that read as attention over the rows merge to attention over the
whole row. -/
theorem merge_rows {idxs : List (ℕ → List ℤ)} {idx : ℕ → List ℤ} {t : ℕ}
    (h : (idxs.map (· t)).flatten.Perm (idx t)) (hvalid : ∃ i ∈ idx t, 0 ≤ i ∧ i < sKv) {d : ℕ}
    (result : (ℕ → List ℤ) → Scalar × Scalar)
    (hresult : ∀ idx, result idx = partResult d (rowCandidates sKv smScale x y (idx t))) :
    mergeOut (idxs.map result) = (result idx).1 ∧
    mergeLse (idxs.map (fun idx => (result idx).2)) = (result idx).2 := by
  have hsplit := rowCandidates_split sKv smScale x y h
  have hne := rowCandidates_ne_nil sKv smScale x y hvalid
  have hout := mergeOut_eq hsplit hne d
  have hlse := mergeLse_eq hsplit
  simp only [List.map_map, Function.comp_def] at hout hlse
  constructor
  · rw [funext hresult, hout]
    rfl
  · simp only [hresult, partResult]
    exact hlse

end Paths

/-- Merging is exact for an attention path over `numKvRows` rows, given by its output
coordinates and log-sum-exp for an index tensor: however the entries of token `t`'s
row are split over partial rows, in whatever order the parts are listed, the parts'
results merge to those of the whole row, provided one entry is valid; so do those of two
parts by the shifted merge; and a row without valid entries gives zero and `-inf`. -/
def MergesExactly (numKvRows t : ℕ) (out : (ℕ → List ℤ) → ℕ → Scalar)
    (lse : (ℕ → List ℤ) → Scalar) : Prop :=
  (∀ (idxs : List (ℕ → List ℤ)) (idx : ℕ → List ℤ), (idxs.map (· t)).flatten.Perm (idx t) →
    (∃ i ∈ idx t, 0 ≤ i ∧ i < (numKvRows : ℤ)) →
    ∀ idxs' : List (ℕ → List ℤ), idxs'.Perm idxs → ∀ d < dv,
      mergeOut (idxs'.map (fun idx => (out idx d, lse idx))) = out idx d ∧
      mergeLse (idxs'.map lse) = lse idx) ∧
  (∀ idxA idxB idx : ℕ → List ℤ, (idxA t ++ idxB t).Perm (idx t) →
    (∃ i ∈ idx t, 0 ≤ i ∧ i < (numKvRows : ℤ)) → ∀ d < dv,
      mergeTwo (out idxA d) (lse idxA) (out idxB d) (lse idxB) = (out idx d, lse idx)) ∧
  ∀ idx : ℕ → List ℤ, (∀ i ∈ idx t, ¬ (0 ≤ i ∧ i < (numKvRows : ℤ))) →
    (∀ d < dv, out idx d = fin 0) ∧ lse idx = negInf

/-- A path that reads as attention over the valid entries of its row merges exactly. -/
theorem mergesExactly_of_reads {numKvRows t : ℕ} (smScale : ℝ) (x : ℕ → ℝ) (y : ℕ → ℕ → ℝ)
    {out : (ℕ → List ℤ) → ℕ → Scalar} {lse : (ℕ → List ℤ) → Scalar}
    (hout : ∀ idx, ∀ d < dv, out idx d =
      fin (attend (rowCandidates numKvRows smScale x y (idx t)) d))
    (hlse : ∀ idx, lse idx = logSumExp (rowCandidates numKvRows smScale x y (idx t))) :
    MergesExactly numKvRows t out lse := by
  refine ⟨?_, ?_, ?_⟩
  · intro idxs idx hsplit hvalid idxs' hperm d hd
    have hsplit' : (idxs'.map (· t)).flatten.Perm (idx t) :=
      (List.Perm.flatten (hperm.map _)).trans hsplit
    exact merge_rows numKvRows smScale x y hsplit' hvalid (fun idx => (out idx d, lse idx))
      (fun idx => by rw [hout idx d hd, hlse idx, partResult])
  · intro idxA idxB idx hsplit hvalid d hd
    have hcands : (rowCandidates numKvRows smScale x y (idxA t) ++
        rowCandidates numKvRows smScale x y (idxB t)).Perm
          (rowCandidates numKvRows smScale x y (idx t)) := by
      unfold rowCandidates
      rw [← List.filterMap_append]
      exact hsplit.filterMap _
    have hne : rowCandidates numKvRows smScale x y (idxA t) ++
        rowCandidates numKvRows smScale x y (idxB t) ≠ [] := fun hnil =>
      rowCandidates_ne_nil numKvRows smScale x y hvalid (List.Perm.nil_eq (hnil ▸ hcands)).symm
    have htwo := mergeTwo_eq hne d
    rw [partResult, partResult, ← hout idxA d hd, ← hout idxB d hd, ← hlse idxA,
      ← hlse idxB] at htwo
    rw [htwo, hout idx d hd, hlse idx, logSumExp, logSumExp, attend, attend, weight_perm hcands,
      moment_perm hcands]
  · intro idx hnone
    have hnil := (rowCandidates_eq_nil numKvRows smScale x y).mpr hnone
    refine ⟨fun d hd => ?_, ?_⟩
    · rw [hout idx d hd, hnil, attend_nil]
      rfl
    · rw [hlse, hnil, logSumExp_nil]

/-- **Merging the paths' partial results is exact**, for the BF16 path and for the FP8
path, for every token, head, query and KV.  `tuner idx` is the autotuner as the call on `idx`
finds it: with fewer than eight heads, the BF16 path wants its widths tuned. -/
theorem lse_merge_exact {hQ h t : ℕ} (hh : h < hQ) (scale : ℝ) {q : ℕ → ℕ → ℕ → Scalar}
    {x : ℕ → ℝ} (hq : HoldsLanes dqk (q t h) x) {sKv : ℕ} {kv : ℕ → ℕ → Scalar} {k : ℕ → ℕ → ℝ}
    (hkv : ∀ i < sKv, HoldsLanes dqk (kv i) (k i)) {cache : Fp8Cache} {y : ℕ → ℕ → ℝ}
    (hy : DecodesTo cache y) (fusedEnabled : Bool) {tuner : (ℕ → List ℤ) → Tuner ℕ}
    (htuned : ∀ idx, prefillIndexedHeadBlock ≤ hQ ∨ (tuner idx).tuned (idx t).length = true) :
    let sparse := fun idx => flashMlaSparseFwdTriton (tuner idx) hQ sKv q kv idx scale none none
    let cached := fun idx => flashMlaWithKvcacheTriton fusedEnabled hQ cache scale q idx none none
    MergesExactly sKv t (fun idx d => (sparse idx).out t h d) (fun idx => (sparse idx).lse t h) ∧
    MergesExactly cache.totalSlots t (fun idx d => (cached idx).out t h d)
      (fun idx => (cached idx).lse t h) := by
  intro sparse cached
  have hsparse := fun idx => flashMlaSparseFwdTriton_eq hh hq hkv idx scale (htuned idx) none
  have hcached := fun idx : ℕ → List ℤ =>
    flashMlaWithKvcacheTriton_eq idx t (hy.rows (idx t)) fusedEnabled hh scale hq none
  have hdv : dv ≤ dqk := by decide
  constructor
  · refine mergesExactly_of_reads scale x k (fun idx d hd => ?_)
      (fun idx => ?_)
    · rw [(hsparse idx).1 d (lt_of_lt_of_le hd hdv), candidateLens, Int.toNat_natCast,
        List.take_length]
    · rw [(hsparse idx).2, candidateLens, Int.toNat_natCast, List.take_length]
  · refine mergesExactly_of_reads scale x y (fun idx d hd => ?_)
      (fun idx => ?_)
    · rw [(hcached idx).1 d hd, slotCandidates, Option.map_none, Option.getD_none,
        Int.toNat_natCast, List.take_length]
    · rw [(hcached idx).2, slotCandidates, Option.map_none, Option.getD_none,
        Int.toNat_natCast, List.take_length]

/-- Sixty-four heads and an autotuner that has tuned nothing: the BF16 path over two rows of
ones, and the FP8 path over `unitCache`. -/
theorem lse_merge_exact_unitCache :
    MergesExactly 2 0
      (fun idx d => (flashMlaSparseFwdTriton (Tuner.cold 4 (by decide)) 64 2 (fun _ _ _ => fin 1)
        (fun _ _ => fin 1) idx 1 none none).out 0 63 d)
      (fun idx => (flashMlaSparseFwdTriton (Tuner.cold 4 (by decide)) 64 2 (fun _ _ _ => fin 1)
        (fun _ _ => fin 1) idx 1 none none).lse 0 63) ∧
    MergesExactly 1 0
      (fun idx d => (flashMlaWithKvcacheTriton true 64 unitCache 1 (fun _ _ _ => fin 1) idx none
        none).out 0 63 d)
      (fun idx => (flashMlaWithKvcacheTriton true 64 unitCache 1 (fun _ _ _ => fin 1) idx none
        none).lse 0 63) :=
  lse_merge_exact (show 63 < 64 by decide) 1
    (show HoldsLanes dqk ((fun _ _ _ => fin 1 : ℕ → ℕ → ℕ → Scalar) 0 63) (fun _ => 1) from
      fun _ _ => rfl)
    (show ∀ i < 2, HoldsLanes dqk ((fun _ _ => fin 1 : ℕ → ℕ → Scalar) i) (fun _ => 1) from
      fun _ _ _ _ => rfl) unitCache_decodesTo true (fun _ => Or.inl (by decide))

end Glm52
