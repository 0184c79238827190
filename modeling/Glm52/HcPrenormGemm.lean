import Glm52.SplitAttention
import Glm52.TiledLaunch

/-! # The split GEMM of the hyper-connections

`out = x fnᵀ` and the squared norms of the rows of `x`, both cut along the inner dimension
into `num_split` parts: part `s` covers the terms from `s * split_k` on, and whoever reads
the result adds the parts up.  The Triton kernel computes the parts in tiles; the torch
fallback writes everything into part zero and clears the others.

However many parts there are and in whatever order the tiles are stored, the parts of both
add up to the whole product and the whole norms (`hc_split_sums`), also when some parts
begin beyond the last term. -/
namespace Glm52.HcPrenormGemm
open TiledLaunch

/-- The operands and their shapes: `x` is `m × k`, `fn` is `n × fnK`. -/
structure Operands (α : Type) where
  m : ℕ
  k : ℕ
  n : ℕ
  fnK : ℕ
  x : ℕ → ℕ → α
  fn : ℕ → ℕ → α

/-- The output tensors, cell by cell; `none` is a cell of the `torch.empty` that nobody has
written. -/
structure Outputs (α : Type) where
  out : ℕ × ℕ × ℕ → Option α
  sqrsum : ℕ × ℕ → Option α

section Definitions
variable {α : Type} [CommRing α] (t : Operands α)

/-! ### The kernel -/

/-- The term of the inner dimension that lane `l` of pass `k0` covers in part `pidS`. -/
def term (NUM_SPLIT BLOCK_K pidS k0 l : ℕ) : ℕ :=
  pidS * cdiv t.k NUM_SPLIT + (k0 * BLOCK_K + l)

/-- `k < split_end`. -/
def kMask (NUM_SPLIT BLOCK_K pidS k0 l : ℕ) : Bool :=
  let splitK := cdiv t.k NUM_SPLIT
  let splitBegin := pidS * splitK
  let splitEnd := min (splitBegin + splitK) t.k
  decide (term t NUM_SPLIT BLOCK_K pidS k0 l < splitEnd)

/-- `_tf32_hc_prenorm_gemm_kernel`, the store of lane `(i, j)` of program
`(pidM, pidN, pidS)` to `out`. -/
def hcKernelOut (NUM_SPLIT BLOCK_M BLOCK_N BLOCK_K pidS pidM pidN i j : ℕ) :
    Option ((ℕ × ℕ × ℕ) × α) :=
  let offsM := pidM * BLOCK_M + i
  let offsN := pidN * BLOCK_N + j
  let acc := loop (cdiv (cdiv t.k NUM_SPLIT) BLOCK_K) fun k0 =>
    ∑ l ∈ Finset.range BLOCK_K,
      load (decide (offsM < t.m) && kMask t NUM_SPLIT BLOCK_K pidS k0 l)
          (t.x offsM (term t NUM_SPLIT BLOCK_K pidS k0 l)) *
        load (decide (offsN < t.n) && kMask t NUM_SPLIT BLOCK_K pidS k0 l)
          (t.fn offsN (term t NUM_SPLIT BLOCK_K pidS k0 l))
  if offsM < t.m ∧ offsN < t.n then some ((pidS, offsM, offsN), acc) else none

/-- The store of row lane `i` to `sqrsum`: only the programs with `pid_n == 0` have one. -/
def hcKernelSqrsum (NUM_SPLIT BLOCK_M BLOCK_K pidS pidM pidN i : ℕ) : Option ((ℕ × ℕ) × α) :=
  let offsM := pidM * BLOCK_M + i
  let x := fun k0 l => load (decide (offsM < t.m) && kMask t NUM_SPLIT BLOCK_K pidS k0 l)
    (t.x offsM (term t NUM_SPLIT BLOCK_K pidS k0 l))
  let sq := loop (cdiv (cdiv t.k NUM_SPLIT) BLOCK_K) fun k0 =>
    ∑ l ∈ Finset.range BLOCK_K, x k0 l * x k0 l
  if pidN = 0 ∧ offsM < t.m then some ((pidS, offsM), sq) else none

/-! ### The launch -/

/-- `block_n`. -/
def blockN : ℕ := min (max t.n.nextPowerOfTwo 16) 32

/-- The stores of the launch to `out`, program by program. -/
def outStores (numSplit : ℕ) : List ((ℕ × ℕ × ℕ) × α) :=
  (List.range numSplit).flatMap fun pidS =>
    grid (cdiv t.m 16) (cdiv t.n (blockN t)) fun pidM pidN =>
      grid 16 (blockN t) fun i j =>
        (hcKernelOut t numSplit 16 (blockN t) 64 pidS pidM pidN i j).toList

/-- The stores to `sqrsum`. -/
def sqrsumStores (numSplit : ℕ) : List ((ℕ × ℕ) × α) :=
  (List.range numSplit).flatMap fun pidS =>
    grid (cdiv t.m 16) (cdiv t.n (blockN t)) fun pidM pidN =>
      (List.range 16).flatMap fun i => (hcKernelSqrsum t numSplit 16 64 pidS pidM pidN i).toList

/-- The orders in which the stores of a launch happen. -/
structure LaunchOrder (α : Type) where
  out : List ((ℕ × ℕ × ℕ) × α) → List ((ℕ × ℕ × ℕ) × α)
  sqrsum : List ((ℕ × ℕ) × α) → List ((ℕ × ℕ) × α)
  out_perm : ∀ stores, (out stores).Perm stores
  sqrsum_perm : ∀ stores, (sqrsum stores).Perm stores

/-- `tf32_hc_prenorm_gemm_triton`; `none` is a failed assertion. -/
def tf32HcPrenormGemmTriton (order : LaunchOrder α) (numSplit : ℕ) (outShape : ℕ × ℕ × ℕ)
    (sqrsumShape : ℕ × ℕ) (outputs : Outputs α) : Option (Outputs α) :=
  if t.fnK = t.k ∧ outShape = (numSplit, t.m, t.n) ∧ sqrsumShape = (numSplit, t.m) then
    if t.m = 0 then some outputs
    else some
      { out := run (order.out (outStores t numSplit)) outputs.out
        sqrsum := run (order.sqrsum (sqrsumStores t numSplit)) outputs.sqrsum }
  else none

/-! ### The torch fallback -/

/-- The whole product. -/
def product (i j : ℕ) : α := ∑ l ∈ Finset.range t.k, t.x i l * t.fn j l

/-- The squared norm of a row. -/
def norm (i : ℕ) : α := ∑ l ∈ Finset.range t.k, t.x i l * t.x i l

/-- `_tf32_hc_prenorm_gemm_torch` with outputs cut into parts: the product goes to part
zero, and the rest is cleared. -/
def tf32HcPrenormGemmTorch (numParts : ℕ) : Option (Outputs α) :=
  if t.fnK = t.k ∧ 0 < numParts then
    some
      { out := fun cell => if cell.1 < numParts ∧ cell.2.1 < t.m ∧ cell.2.2 < t.n then
          some (if cell.1 = 0 then product t cell.2.1 cell.2.2 else 0) else none
        sqrsum := fun cell => if cell.1 < numParts ∧ cell.2 < t.m then
          some (if cell.1 = 0 then norm t cell.2 else 0) else none }
  else none

end Definitions

/-! ### A part -/

section Parts
variable {α : Type} [CommRing α] (t : Operands α)

/-- The terms of part `s`. -/
def partTerms (numSplit s : ℕ) : Finset ℕ :=
  Finset.Ico (s * cdiv t.k numSplit) (min (s * cdiv t.k numSplit + cdiv t.k numSplit) t.k)

/-- **The tiles of a part** cover its terms once; the lanes beyond it are masked. -/
theorem loop_part {BLOCK_K : ℕ} (hK : 0 < BLOCK_K) (numSplit s : ℕ) (x y : ℕ → α) :
    (loop (cdiv (cdiv t.k numSplit) BLOCK_K) fun k0 => ∑ l ∈ Finset.range BLOCK_K,
        load (kMask t numSplit BLOCK_K s k0 l) (x (term t numSplit BLOCK_K s k0 l)) *
          load (kMask t numSplit BLOCK_K s k0 l) (y (term t numSplit BLOCK_K s k0 l))) =
      ∑ l ∈ partTerms t numSplit s, x l * y l := by
  set splitK := cdiv t.k numSplit with hsplit
  set first := s * splitK with hfirst
  -- the part's terms from its first one on
  have hmask : ∀ k0 l, kMask t numSplit BLOCK_K s k0 l =
      decide (k0 * BLOCK_K + l < min (first + splitK) t.k - first) := by
    intro k0 l
    unfold kMask term
    rw [← hsplit, ← hfirst]
    exact decide_eq_decide.mpr (by omega)
  have hwidth : min (first + splitK) t.k - first ≤ cdiv splitK BLOCK_K * BLOCK_K := by
    have hcover := le_cdiv_mul (n := splitK) hK
    omega
  have hterm : ∀ k0 l, term t numSplit BLOCK_K s k0 l = first + (k0 * BLOCK_K + l) := fun _ _ => rfl
  simp only [hmask, hterm]
  have hdot := loop_dot hwidth (fun l => x (first + l)) (fun l => y (first + l))
  rw [hdot, partTerms, ← hsplit, ← hfirst, Finset.sum_Ico_eq_sum_range]

/-- **The parts add up**: they split the terms of the inner dimension. -/
theorem sum_parts {numSplit : ℕ} (hsplit : 0 < numSplit) (f : ℕ → α) :
    ∑ s ∈ Finset.range numSplit, ∑ l ∈ partTerms t numSplit s, f l =
      ∑ l ∈ Finset.range t.k, f l := by
  have hcover : t.k ≤ numSplit * cdiv t.k numSplit := by
    rw [mul_comm]
    exact le_cdiv_mul hsplit
  have hchunks := loop_chunks hcover f
  rw [loop_eq_sum] at hchunks
  exact hchunks

/-- A lane of the kernel stores its part of the product. -/
theorem hcKernelOut_eq {BLOCK_K : ℕ} (hK : 0 < BLOCK_K)
    (numSplit BLOCK_M BLOCK_N pidS pidM pidN i j : ℕ) :
    hcKernelOut t numSplit BLOCK_M BLOCK_N BLOCK_K pidS pidM pidN i j =
      if pidM * BLOCK_M + i < t.m ∧ pidN * BLOCK_N + j < t.n then
        some ((pidS, pidM * BLOCK_M + i, pidN * BLOCK_N + j),
          ∑ l ∈ partTerms t numSplit pidS,
            t.x (pidM * BLOCK_M + i) l * t.fn (pidN * BLOCK_N + j) l)
      else none := by
  unfold hcKernelOut
  by_cases hcell : pidM * BLOCK_M + i < t.m ∧ pidN * BLOCK_N + j < t.n
  · obtain ⟨hm, hn⟩ := hcell
    simp only [hm, hn, decide_true, Bool.true_and, and_self, if_true,
      loop_part t hK numSplit pidS (t.x _) (t.fn _)]
  · rw [if_neg hcell, if_neg hcell]

theorem hcKernelSqrsum_eq {BLOCK_K : ℕ} (hK : 0 < BLOCK_K)
    (numSplit BLOCK_M pidS pidM pidN i : ℕ) :
    hcKernelSqrsum t numSplit BLOCK_M BLOCK_K pidS pidM pidN i =
      if pidN = 0 ∧ pidM * BLOCK_M + i < t.m then
        some ((pidS, pidM * BLOCK_M + i),
          ∑ l ∈ partTerms t numSplit pidS, t.x (pidM * BLOCK_M + i) l * t.x (pidM * BLOCK_M + i) l)
      else none := by
  unfold hcKernelSqrsum
  by_cases hcell : pidN = 0 ∧ pidM * BLOCK_M + i < t.m
  · obtain ⟨hn, hm⟩ := hcell
    simp only [hm, hn, decide_true, Bool.true_and, and_self, if_true,
      loop_part t hK numSplit pidS (t.x _) (t.x _)]
  · rw [if_neg hcell, if_neg hcell]

/-! ### The launch -/

omit [CommRing α] in
theorem blockN_pos : 0 < blockN t := by
  unfold blockN
  omega

/-- **Every part of every cell** is stored, whatever the order. -/
theorem outStores_run {numSplit : ℕ} {stores : List ((ℕ × ℕ × ℕ) × α)}
    (horder : stores.Perm (outStores t numSplit)) (buffer : ℕ × ℕ × ℕ → Option α) {s i j : ℕ}
    (hs : s < numSplit) (hi : i < t.m) (hj : j < t.n) :
    run stores buffer (s, i, j) = some (∑ l ∈ partTerms t numSplit s, t.x i l * t.fn j l) := by
  have hN := blockN_pos t
  have hmem : ∀ store, store ∈ stores ↔ ∃ pidS < numSplit, ∃ pidM < cdiv t.m 16,
      ∃ pidN < cdiv t.n (blockN t), ∃ i < 16, ∃ j < blockN t,
        hcKernelOut t numSplit 16 (blockN t) 64 pidS pidM pidN i j = some store := by
    intro store
    rw [horder.mem_iff, outStores]
    simp only [List.mem_flatMap, List.mem_range, mem_grid, Option.mem_toList]
  apply run_eq_of_agree
  · have hM := (Nat.div_lt_iff_lt_mul (show 0 < 16 by decide)).mpr
      (lt_of_lt_of_le hi (le_cdiv_mul (show 0 < 16 by decide)))
    have hJ := (Nat.div_lt_iff_lt_mul hN).mpr (lt_of_lt_of_le hj (le_cdiv_mul hN))
    refine (hmem _).mpr ⟨s, hs, i / 16, hM, j / blockN t, hJ, i % 16, Nat.mod_lt _ (by decide),
      j % blockN t, Nat.mod_lt _ hN, ?_⟩
    rw [hcKernelOut_eq t (by decide), Nat.div_add_mod', Nat.div_add_mod', if_pos ⟨hi, hj⟩]
  · rintro ⟨cell, v⟩ hstore hcell
    obtain ⟨pidS, -, pidM, -, pidN, -, i', -, j', -, hlane⟩ := (hmem _).mp hstore
    rw [hcKernelOut_eq t (by decide)] at hlane
    by_cases hin : pidM * 16 + i' < t.m ∧ pidN * blockN t + j' < t.n
    · rw [if_pos hin] at hlane
      obtain ⟨hkey, hv⟩ := Prod.mk.inj (Option.some.inj hlane)
      obtain ⟨hpart, hrest⟩ := Prod.mk.inj (hkey.trans hcell)
      obtain ⟨hrow, hcol⟩ := Prod.mk.inj hrest
      rw [← hv, hpart, hrow, hcol]
    · rw [if_neg hin] at hlane
      cases hlane

/-- **Every part of every norm** is stored, by the programs of the first column. -/
theorem sqrsumStores_run {numSplit : ℕ} {stores : List ((ℕ × ℕ) × α)}
    (horder : stores.Perm (sqrsumStores t numSplit)) (buffer : ℕ × ℕ → Option α) {s i : ℕ}
    (hs : s < numSplit) (hi : i < t.m) (hn : 0 < t.n) :
    run stores buffer (s, i) = some (∑ l ∈ partTerms t numSplit s, t.x i l * t.x i l) := by
  have hN := blockN_pos t
  have hmem : ∀ store, store ∈ stores ↔ ∃ pidS < numSplit, ∃ pidM < cdiv t.m 16,
      ∃ pidN < cdiv t.n (blockN t), ∃ i < 16,
        hcKernelSqrsum t numSplit 16 64 pidS pidM pidN i = some store := by
    intro store
    rw [horder.mem_iff, sqrsumStores]
    simp only [List.mem_flatMap, List.mem_range, mem_grid, Option.mem_toList]
  apply run_eq_of_agree
  · have hM := (Nat.div_lt_iff_lt_mul (show 0 < 16 by decide)).mpr
      (lt_of_lt_of_le hi (le_cdiv_mul (show 0 < 16 by decide)))
    have hJ : 0 < cdiv t.n (blockN t) := by
      refine Nat.pos_of_ne_zero fun hzero => ?_
      have hcover := le_cdiv_mul (n := t.n) hN
      rw [hzero, Nat.zero_mul] at hcover
      omega
    refine (hmem _).mpr ⟨s, hs, i / 16, hM, 0, hJ, i % 16, Nat.mod_lt _ (by decide), ?_⟩
    rw [hcKernelSqrsum_eq t (by decide), Nat.div_add_mod', if_pos ⟨rfl, hi⟩]
  · rintro ⟨cell, v⟩ hstore hcell
    obtain ⟨pidS, -, pidM, -, pidN, -, i', -, hlane⟩ := (hmem _).mp hstore
    rw [hcKernelSqrsum_eq t (by decide)] at hlane
    by_cases hin : pidN = 0 ∧ pidM * 16 + i' < t.m
    · rw [if_pos hin] at hlane
      obtain ⟨hkey, hv⟩ := Prod.mk.inj (Option.some.inj hlane)
      obtain ⟨hpart, hrow⟩ := Prod.mk.inj (hkey.trans hcell)
      rw [← hv, hpart, hrow]
    · rw [if_neg hin] at hlane
      cases hlane

end Parts

/-! ### The parts of both add up -/

/-- Outputs from which the product and the norms are recovered: every part of every cell is
written, and the parts add up. -/
structure Recovers {α : Type} [CommRing α] (t : Operands α) (numSplit : ℕ) (outputs : Outputs α) :
    Prop where
  out : ∀ i < t.m, ∀ j < t.n, ∃ parts : ℕ → α,
    (∀ s < numSplit, outputs.out (s, i, j) = some (parts s)) ∧
      ∑ s ∈ Finset.range numSplit, parts s = product t i j
  sqrsum : ∀ i < t.m, ∃ parts : ℕ → α,
    (∀ s < numSplit, outputs.sqrsum (s, i) = some (parts s)) ∧
      ∑ s ∈ Finset.range numSplit, parts s = norm t i

/-- **The split is invisible to who adds the parts up.** For any number of parts, any
contents of the output tensors before, and any order of the launch, the parts that the
Triton kernel writes add up to the product and to the norms; so do those of the fallback. -/
theorem hc_split_sums {α : Type} [CommRing α] (t : Operands α) (hfn : t.fnK = t.k) (hn : 0 < t.n)
    {numSplit : ℕ} (hsplit : 0 < numSplit) (order : LaunchOrder α) (outputs : Outputs α) :
    (∃ written, tf32HcPrenormGemmTriton t order numSplit (numSplit, t.m, t.n) (numSplit, t.m)
        outputs = some written ∧ Recovers t numSplit written) ∧
    ∃ written, tf32HcPrenormGemmTorch t numSplit = some written ∧ Recovers t numSplit written := by
  constructor
  · unfold tf32HcPrenormGemmTriton
    rw [if_pos ⟨hfn, rfl, rfl⟩]
    by_cases hm : t.m = 0
    · rw [if_pos hm]
      refine ⟨_, rfl, fun i hi => ?_, fun i hi => ?_⟩
      · omega
      · omega
    · rw [if_neg hm]
      refine ⟨_, rfl, fun i hi j hj => ?_, fun i hi => ?_⟩
      · exact ⟨_, fun s hs => outStores_run t (order.out_perm _) outputs.out hs hi hj,
          sum_parts t hsplit fun l => t.x i l * t.fn j l⟩
      · exact ⟨_, fun s hs => sqrsumStores_run t (order.sqrsum_perm _) outputs.sqrsum hs hi hn,
          sum_parts t hsplit fun l => t.x i l * t.x i l⟩
  · have hzero : ∀ v : α, ∑ s ∈ Finset.range numSplit, (if s = 0 then v else 0) = v := by
      intro v
      rw [Finset.sum_ite_eq' (Finset.range numSplit) 0 (fun _ => v),
        if_pos (Finset.mem_range.mpr hsplit)]
    refine ⟨_, if_pos ⟨hfn, hsplit⟩, fun i hi j hj => ?_, fun i hi => ?_⟩
    · exact ⟨fun s => if s = 0 then product t i j else 0, fun s hs => if_pos ⟨hs, hi, hj⟩,
        hzero _⟩
    · exact ⟨fun s => if s = 0 then norm t i else 0, fun s hs => if_pos ⟨hs, hi⟩, hzero _⟩

/-- Five terms in four parts of two, the last of them empty. -/
def fiveTerms : Operands ℤ where
  m := 1
  k := 5
  n := 1
  fnK := 5
  x _ l := l + 1
  fn _ l := 2 * l - 3

theorem hc_split_sums_fiveTerms :
    ∃ written, tf32HcPrenormGemmTriton fiveTerms
        ⟨List.reverse, id, List.reverse_perm, fun stores => List.Perm.refl stores⟩ 4 (4, 1, 1)
        (4, 1) ⟨fun _ => none, fun _ => some 7⟩ = some written ∧
      ∃ parts : ℕ → ℤ, (∀ s < 4, written.out (s, 0, 0) = some (parts s)) ∧
        ∑ s ∈ Finset.range 4, parts s = 35 := by
  obtain ⟨⟨written, hwritten, hrecovers⟩, -⟩ := hc_split_sums fiveTerms rfl (by decide)
    (show 0 < 4 by decide)
    ⟨List.reverse, id, List.reverse_perm, fun stores => List.Perm.refl stores⟩
    ⟨fun _ => none, fun _ => some 7⟩
  obtain ⟨parts, hparts, hsum⟩ := hrecovers.out 0 (by decide) 0 (by decide)
  exact ⟨written, hwritten, parts, hparts, hsum.trans (by decide)⟩

end Glm52.HcPrenormGemm
