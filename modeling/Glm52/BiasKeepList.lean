import Glm52.PrunedSnapshot
import Glm52.Fp8Cache
import Glm52.StableSort
import Mathlib.Data.List.GetD

/-! # Which experts stay

`bias_keeplist` reads the router's bias of a layer and keeps the experts whose bias is
lowest.  Experts are sorted by bias, equal biases by their number, and cut; what is kept
is put back in the order of the experts.  A longer list keeps what a shorter one does. -/
namespace Glm52.ExpertPrune
open ExactFloat StableSort

/-- `model.layers.L.mlp.gate.e_score_correction_bias`. -/
def biasName (L : ℕ) : String :=
  "model.layers." ++ toString L ++ ".mlp.gate.e_score_correction_bias"

/-- `array.array("f").frombytes(buf)`; it fails on a part of an item. -/
def floats : List UInt8 → Option (List (ExactFloat ℚ))
  | [] => some []
  | b0 :: b1 :: b2 :: b3 :: rest => do
    let xs ← floats rest
    some (float32 (b3.toBitVec ++ b2.toBitVec ++ b1.toBitVec ++ b0.toBitVec) :: xs)
  | _ => none

/-- `xs[:n]`; a negative `n` leaves off the end. -/
def sliceTo {α : Type} (xs : List α) (n : ℤ) : List α :=
  if 0 ≤ n then xs.take n.toNat else xs.take (xs.length + n).toNat

/-- `sorted(range(E), key=lambda i: a[i])`: the sort compares with `<` only. -/
def order (a : List (ExactFloat ℚ)) (E : ℕ) : List ℕ :=
  (List.range E).insertionSort (fun i j => lt (a.getD j 0) (a.getD i 0) = false)

/-- `sorted(order[:n_keep])`. -/
def lowest (a : List (ExactFloat ℚ)) (E : ℕ) (nKeep : ℤ) : List ℕ :=
  (sliceTo (order a E) nKeep).insertionSort (· ≤ ·)

section
variable {J : Type} (codec : HeaderCodec J) (snap : Directory J) (idx : Dict String String)

/-- The bias of a layer, with its dtype. -/
def readBias (L : ℕ) : Option (List (ExactFloat ℚ) × String) := do
  let sh ← idx.get? (biasName L)
  match snap.get? sh with
  | some (.bytes file) =>
    let (buf, dt, _) ← readTensorBytes codec file (biasName L)
    let a ← floats buf
    some (a, dt)
  | _ => none

/-- `bias_keeplist`. -/
def biasKeeplist (L E : ℕ) (nKeep : ℤ) : Option (List ℕ) := do
  let (a, dt) ← readBias codec snap idx L
  if dt = "F32" ∧ a.length = E then some (lowest a E nKeep) else none

end

/-! ### The lowest biases -/

/-- `keep` lists the `n` experts of the lowest bias in order; among equal biases the
lower numbers stay. -/
structure LowestBias (bias : List ℚ) (n : ℕ) (keep : List ℕ) : Prop where
  length : keep.length = n
  ascending : keep.Pairwise (· < ·)
  below : ∀ e ∈ keep, e < bias.length
  lowest : ∀ e ∈ keep, ∀ f < bias.length, f ∉ keep → bias.getD e 0 ≤ bias.getD f 0
  ties : ∀ e ∈ keep, ∀ f < bias.length, f ∉ keep → bias.getD e 0 = bias.getD f 0 → e < f

/-- The keep list of a layer is one that `build` can use. -/
theorem LowestBias.keepList {bias : List ℚ} {n : ℕ} {keep : List ℕ} (h : LowestBias bias n keep) :
    KeepList bias.length n keep where
  length := h.length
  nodup := h.ascending.imp Nat.ne_of_lt
  below := h.below

theorem order_perm (a : List (ExactFloat ℚ)) (E : ℕ) : (order a E).Perm (List.range E) :=
  List.perm_insertionSort _ _

/-- On numbers the sort compares as the numbers do. -/
theorem lt_getD_fin (bias : List ℚ) (i j : ℕ) :
    lt ((bias.map fin).getD j 0) ((bias.map fin).getD i 0) = false ↔
      bias.getD i 0 ≤ bias.getD j 0 := by
  rw [zero_def, List.getD_map, List.getD_map, lt_fin, decide_eq_false_iff_not, not_lt]

/-- **The order is by bias, then by number.** -/
theorem pairwise_order (bias : List ℚ) :
    (order (bias.map fin) bias.length).Pairwise (fun e f =>
      bias.getD e 0 ≤ bias.getD f 0 ∧ (bias.getD f 0 ≤ bias.getD e 0 → e < f)) := by
  let r := fun i j : ℕ => lt ((bias.map fin).getD j 0) ((bias.map fin).getD i 0) = false
  have : Std.Total r := ⟨fun i j => by simpa only [r, lt_getD_fin] using le_total _ _⟩
  have : IsTrans ℕ r := ⟨fun i j k => by simpa only [r, lt_getD_fin] using le_trans⟩
  have hsorted : (order (bias.map fin) bias.length).Pairwise
      (fun e f => r e f ∧ (r f e → e < f)) :=
    pairwise_lex_insertionSort _ List.pairwise_lt_range
  refine hsorted.imp fun {e f} h => ?_
  simpa only [r, lt_getD_fin] using h

theorem lowest_eq (a : List (ExactFloat ℚ)) (E n : ℕ) :
    lowest a E n = ((order a E).take n).insertionSort (· ≤ ·) := by
  rw [lowest, sliceTo, if_pos (Int.natCast_nonneg n), Int.toNat_natCast]

theorem mem_lowest {a : List (ExactFloat ℚ)} {E n e : ℕ} :
    e ∈ lowest a E n ↔ e ∈ (order a E).take n := by
  rw [lowest_eq, List.mem_insertionSort]

/-- **The lowest biases stay.** -/
theorem lowestBias_lowest {bias : List ℚ} {n : ℕ} (hn : n ≤ bias.length) :
    LowestBias bias n (lowest (bias.map fin) bias.length n) := by
  have hperm := order_perm (bias.map fin) bias.length
  have hnodup : (order (bias.map fin) bias.length).Nodup := hperm.nodup_iff.mpr List.nodup_range
  -- an expert that is not kept stands behind the cut
  have hcut : ∀ e ∈ lowest (bias.map fin) bias.length n, ∀ f < bias.length,
      f ∉ lowest (bias.map fin) bias.length n →
      bias.getD e 0 ≤ bias.getD f 0 ∧ (bias.getD f 0 ≤ bias.getD e 0 → e < f) := by
    intro e he f hf hnot
    have hmem : f ∈ order (bias.map fin) bias.length := hperm.mem_iff.mpr (List.mem_range.mpr hf)
    have hsorted := pairwise_order bias
    rw [← List.take_append_drop n (order (bias.map fin) bias.length)] at hmem hsorted
    rw [mem_lowest] at he hnot
    exact (List.pairwise_append.mp hsorted).2.2 e he f
      ((List.mem_append.mp hmem).resolve_left hnot)
  constructor
  · rw [lowest_eq, List.length_insertionSort, List.length_take, hperm.length_eq, List.length_range,
      min_eq_left hn]
  · rw [lowest_eq]
    have hdistinct : (((order (bias.map fin) bias.length).take n).insertionSort (· ≤ ·)).Nodup :=
      (List.perm_insertionSort _ _).nodup_iff.mpr (hnodup.sublist (List.take_sublist _ _))
    exact ((List.pairwise_insertionSort (· ≤ ·) _).and hdistinct).imp
      fun h => lt_of_le_of_ne h.1 h.2
  · intro e he
    exact List.mem_range.mp (hperm.mem_iff.mp (List.mem_of_mem_take (mem_lowest.mp he)))
  · intro e he f hf hnot
    exact (hcut e he f hf hnot).1
  · intro e he f hf hnot heq
    exact (hcut e he f hf hnot).2 heq.ge

/-- A longer list keeps what a shorter one does. -/
theorem lowest_subset (a : List (ExactFloat ℚ)) (E : ℕ) {m n : ℕ} (h : m ≤ n) :
    lowest a E m ⊆ lowest a E n := by
  intro e he
  rw [mem_lowest] at he ⊢
  exact List.take_subset_take_left _ h he

/-! ### The keep lists of a snapshot -/

/-- `bias_keeplist` of a layer whose bias is a list of numbers. -/
theorem biasKeeplist_eq {J : Type} {codec : HeaderCodec J} {snap : Directory J}
    {idx : Dict String String} {L : ℕ} {bias : List ℚ}
    (hread : readBias codec snap idx L = some (bias.map fin, "F32")) (n : ℤ) :
    biasKeeplist codec snap idx L bias.length n = some (lowest (bias.map fin) bias.length n) := by
  rw [biasKeeplist, hread]
  exact if_pos ⟨rfl, List.length_map _⟩

/-- **The keep list of a layer**, for every length: the lowest biases, and nested. -/
theorem bias_keeplist_lowest {J : Type} {codec : HeaderCodec J} {snap : Directory J}
    {idx : Dict String String} {L : ℕ} {bias : List ℚ}
    (hread : readBias codec snap idx L = some (bias.map fin, "F32")) :
    ∃ keep : ℕ → List ℕ,
      (∀ n ≤ bias.length, biasKeeplist codec snap idx L bias.length n = some (keep n) ∧
        LowestBias bias n (keep n)) ∧
      ∀ m n, m ≤ n → n ≤ bias.length → keep m ⊆ keep n := by
  exact ⟨fun n => lowest (bias.map fin) bias.length n,
    fun n hn => ⟨biasKeeplist_eq hread n, lowestBias_lowest hn⟩,
    fun m n hmn _ => lowest_subset _ _ hmn⟩

/-- The biases 1, 0.5 and 0.5 of layer 0. -/
def biasSource : List TensorRecord :=
  [⟨biasName 0, "F32", [3], [0, 0, 0x80, 0x3F, 0, 0, 0, 0x3F, 0, 0, 0, 0x3F]⟩]

def biasPython : Python String where
  decimals := .ascii
  codec := textCodec (buildHeader biasSource none) Dict.empty
    (jsonBytes <| "\x7b\"model.layers.0.mlp.gate.e_score_correction_bias\": " ++
      "\x7b\"dtype\": \"F32\", \"shape\": [3], \"data_offsets\": [0, 12]\x7d\x7d")
    (jsonBytes "\x7b\x7d")
  number := toString

theorem readBias_biasSource : readBias biasPython.codec (oneShard biasPython biasSource)
    (indexOf biasSource) 0 = some ([1, 1 / 2, 1 / 2].map fin, "F32") := by
  decide +kernel

/-- Of the two equal biases the lower expert is kept first. -/
theorem bias_keeplist_lowest_three : ∃ keep : ℕ → List ℕ,
    (∀ n : ℕ, n ≤ 3 → biasKeeplist biasPython.codec (oneShard biasPython biasSource)
        (indexOf biasSource) 0 3 n = some (keep n) ∧ LowestBias [1, 1 / 2, 1 / 2] n (keep n)) ∧
      ∀ m n, m ≤ n → n ≤ 3 → keep m ⊆ keep n :=
  bias_keeplist_lowest readBias_biasSource

end Glm52.ExpertPrune
